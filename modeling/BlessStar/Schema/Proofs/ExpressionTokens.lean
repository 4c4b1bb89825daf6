import BlessStar.Schema.Expression

/-!
# The tokens of a text

What `lexer_advance` reads at the head of a text, in both directions: the token
determines the text that was read, and a text of the grammar determines the token.
-/

namespace BlessStar.Schema.CustomValidator

open Lib.ByteString
open Gate (ch isBlank)

theorem le_toNat_of_isAlnum {c : UInt8} (h : isAlnum c = true) : 48 ≤ c.toNat := by
  have h0 : (ch '0').toNat = 48 := rfl
  have ha : (ch 'a').toNat = 97 := rfl
  have hA : (ch 'A').toNat = 65 := rfl
  simp only [isAlnum, isDigit, Bool.or_eq_true, Bool.and_eq_true, decide_eq_true_eq,
    UInt8.le_iff_toNat_le, h0, ha, hA] at h
  omega

theorem isBlank_of_isAlnum {c : UInt8} (h : isAlnum c = true) : isBlank c = false := by
  have hle := le_toNat_of_isAlnum h
  rw [isBlank, decide_eq_false_iff_not]
  omega

theorem ne_minus_of_isAlnum {c : UInt8} (h : isAlnum c = true) : c ≠ ch '-' := by
  rintro rfl
  revert h
  decide

theorem isAlnum_of_isDigit {c : UInt8} (h : isDigit c = true) : isAlnum c = true := by
  rw [isAlnum, h, Bool.true_or, Bool.true_or]

theorem ne_quote_of_isAlnum {c : UInt8} (h : isAlnum c = true) : c ≠ ch '\'' := by
  rintro rfl
  revert h
  decide

theorem IsGap.nil : IsGap [] := fun _ h => absurd h List.not_mem_nil

theorem dropWhile_gap {g : Bytes} (hg : IsGap g) (t : Bytes) :
    (g ++ t).dropWhile isBlank = t.dropWhile isBlank := by
  rw [List.dropWhile_append_of_pos hg]

theorem exists_gap (t : Bytes) :
    ∃ g, IsGap g ∧ t = g ++ t.dropWhile isBlank := by
  refine ⟨t.takeWhile isBlank, ?_, List.takeWhile_append_dropWhile.symm⟩
  intro c hc
  exact List.mem_takeWhile_imp hc

theorem misread_gap {g : Bytes} (hg : IsGap g) (after : Bool) (t : Bytes) :
    misread after (g ++ t) = misread after t := by
  induction g with
  | nil => rfl
  | cons c g ih =>
      have hc : isBlank c = true := hg c (by simp)
      have hminus : c ≠ ch '-' := by
        rintro rfl
        revert hc
        decide
      have hrest := ih fun d hd => hg d (by simp [hd])
      simp only [List.cons_append, misread, hminus, decide_false, Bool.false_and, Bool.false_or,
        afterOperand, hc, if_true]
      exact hrest

theorem misread_cons {c : UInt8} (hblank : isBlank c = false) (hminus : c ≠ ch '-') (after : Bool)
    (t : Bytes) : misread after (c :: t) = misread (isAlnum c || c = ch ')') t := by
  simp [misread, hminus, afterOperand, hblank]

theorem misread_word {w : Bytes} (hne : w ≠ []) (hw : ∀ c ∈ w, isAlnum c = true) (after : Bool)
    (t : Bytes) : misread after (w ++ t) = misread true t := by
  induction w generalizing after with
  | nil => exact absurd rfl hne
  | cons c w ih =>
      have hc := hw c (by simp)
      rw [List.cons_append, misread_cons (isBlank_of_isAlnum hc) (ne_minus_of_isAlnum hc), hc,
        Bool.true_or]
      cases w with
      | nil => rfl
      | cons d w => exact ih (by simp) (fun x hx => hw x (by simp [hx])) true

/-- A byte of an operator other than `-`. -/
def IsSymbol (c : UInt8) : Prop :=
  isBlank c = false ∧ c ≠ ch '-' ∧ (isAlnum c || decide (c = ch ')')) = false

instance (c : UInt8) : Decidable (IsSymbol c) := inferInstanceAs (Decidable (_ ∧ _ ∧ _))

theorem misread_symbols {w : Bytes} (hne : w ≠ []) (hw : ∀ c ∈ w, IsSymbol c) (after : Bool)
    (t : Bytes) : misread after (w ++ t) = misread false t := by
  induction w generalizing after with
  | nil => exact absurd rfl hne
  | cons c w ih =>
      obtain ⟨hblank, hminus, hoperand⟩ := hw c (by simp)
      rw [List.cons_append, misread_cons hblank hminus, hoperand]
      cases w with
      | nil => rfl
      | cons d w => exact ih (by simp) (fun x hx => hw x (by simp [hx])) false

def operatorTexts : List Bytes :=
  [ascii "||", ascii "&&", ascii "+", ascii "-", ascii "==", ascii "!=", ascii ">", ascii "<",
    ascii ">=", ascii "<="]

theorem isSymbol_of_mem_operatorTexts : ∀ w ∈ operatorTexts, w ≠ ascii "-" →
    w ≠ [] ∧ ∀ c ∈ w, IsSymbol c := by
  decide

theorem misread_op {w t : Bytes} (hw : w ∈ operatorTexts)
    (hsign : w = ascii "-" → t.head?.any isDigit = false) :
    misread true (w ++ t) = misread false t := by
  by_cases hminus : w = ascii "-"
  · rw [hminus]
    have hafter : afterOperand true (ch '-') = false := by decide
    have hascii : ascii "-" = [ch '-'] := rfl
    simp [hascii, misread, hsign hminus, hafter]
  · obtain ⟨hne, hsymbols⟩ := isSymbol_of_mem_operatorTexts w hw hminus
    exact misread_symbols hne hsymbols true t

theorem integersOnly_suffix {p t : Bytes} (h : integersOnly (p ++ t) = true) (hp : ¬HasQuote p) :
    integersOnly t = true := by
  induction p with
  | nil => exact h
  | cons c p ih =>
      have hc : c ≠ ch '\'' := fun h0 => hp (by simp [HasQuote, h0])
      have hp' : ¬HasQuote p := fun h0 => hp (List.mem_cons_of_mem _ h0)
      rw [List.cons_append, integersOnly] at h
      simp only [hc, decide_false, Bool.false_or, Bool.and_eq_true] at h
      exact ih h.2 hp'

theorem hasQuote_append {p t : Bytes} : HasQuote (p ++ t) ↔ HasQuote p ∨ HasQuote t :=
  List.mem_append

theorem not_hasQuote_append {p t : Bytes} (hp : ¬HasQuote p) (ht : ¬HasQuote t) :
    ¬HasQuote (p ++ t) := by
  rw [hasQuote_append, not_or]
  exact ⟨hp, ht⟩

theorem IsGap.not_hasQuote {g : Bytes} (hg : IsGap g) : ¬HasQuote g := by
  intro h
  have hblank := hg _ h
  revert hblank
  decide

theorem IsGap.not_hasQuote_append {g w : Bytes} (hg : IsGap g) (hw : w.contains (ch '\'') = false) :
    ¬HasQuote (g ++ w) := by
  rw [hasQuote_append]
  rintro (h | h)
  · exact hg.not_hasQuote h
  · rw [List.contains_iff_mem.mpr h] at hw
    exact Bool.false_ne_true hw.symm

/-- No expression starts with white space or with `=`. -/
def StartsExpr (p : Bytes) : Prop := ∃ c cs, p = c :: cs ∧ isBlank c = false ∧ c ≠ ch '='

theorem StartsExpr.append {p : Bytes} (h : StartsExpr p) (t : Bytes) : StartsExpr (p ++ t) := by
  obtain ⟨c, cs, rfl, hc⟩ := h
  exact ⟨c, cs ++ t, rfl, hc⟩

theorem startsExpr_of_isAlnum {w : Bytes} (hne : w ≠ []) (hw : ∀ c ∈ w, isAlnum c = true) :
    StartsExpr w := by
  obtain ⟨c, cs, rfl⟩ := List.exists_cons_of_ne_nil hne
  have hc := hw c (by simp)
  refine ⟨c, cs, rfl, isBlank_of_isAlnum hc, ?_⟩
  rintro rfl
  revert hc
  decide

theorem isAlnum_boolText (b : Bool) : ∀ c ∈ boolText b, isAlnum c = true := by
  cases b <;> decide

theorem isAlnum_value : ∀ c ∈ ascii "value", isAlnum c = true := by
  decide

theorem IsNumeral.isAlnum {ds : Bytes} (h : IsNumeral ds) : ∀ c ∈ ds, isAlnum c = true :=
  fun c hc => isAlnum_of_isDigit (h.2 c hc)

theorem startsExpr_of_spells {ph : Phrase} {p : Bytes} (h : Spells ph p) :
    match ph with
    | .expr _ _ => StartsExpr p
    | .tail _ _ _ => True := by
  induction h with
  | num hds => exact startsExpr_of_isAlnum hds.1 hds.isAlnum
  | str => exact ⟨_, _, rfl, by decide, by decide⟩
  | bool b => exact startsExpr_of_isAlnum (by cases b <;> decide) (isAlnum_boolText b)
  | value => exact startsExpr_of_isAlnum (by decide) isAlnum_value
  | paren => exact ⟨_, _, rfl, by decide, by decide⟩
  | primary _ ih => exact ih
  | not => exact ⟨_, _, rfl, by decide, by decide⟩
  | neg => exact ⟨_, _, rfl, by decide, by decide⟩
  | chain _ _ _ ih _ => exact ih.append _
  | last => exact trivial
  | more => exact trivial
  | arith _ ih => exact ih
  | cmp _ _ _ _ ih _ => exact ih.append _

theorem Spells.startsExpr {lvl : Level} {e : Expr} {p : Bytes} (h : Spells (.expr lvl e) p) :
    StartsExpr p := startsExpr_of_spells h

section

variable {ν : Type} {D : Doubles ν}

/-- `l` is the lexer after the first token of `t`. -/
def At (D : Doubles ν) (l : Lexer ν) (t : Bytes) : Prop := lexerAdvance D (lexerInit t) = .ok l

theorem lexerAdvance_gap {g : Bytes} (hg : IsGap g) (t : Bytes) :
    lexerAdvance D (lexerInit (g ++ t)) = lexerAdvance D (lexerInit t) := by
  unfold lexerAdvance lexerInit
  simp only
  rw [dropWhile_gap hg]

theorem lexerAdvance_cons {c : UInt8} (hblank : isBlank c = false) (hquote : c ≠ ch '\'')
    (cs : Bytes) : lexerAdvance D (lexerInit (c :: cs)) =
      .ok ⟨(token D c cs).1, none, (c :: cs).drop (token D c cs).2⟩ := by
  simp [lexerAdvance, lexerInit, hblank, hquote]

theorem lexerAdvance_nil : lexerAdvance D (lexerInit []) = .ok ⟨.eof, none, []⟩ := rfl

theorem lexerAdvance_quote (cs : Bytes) :
    lexerAdvance D (lexerInit (ch '\'' :: cs)) = .error .undefined := by
  have hblank : isBlank (ch '\'') = false := by decide
  simp [lexerAdvance, lexerInit, hblank]

theorem At.strVal {l : Lexer ν} {t : Bytes} (h : At D l t) : l.strVal = none := by
  obtain ⟨g, hg, ht⟩ := exists_gap t
  rw [At, ht, lexerAdvance_gap hg] at h
  cases hs : t.dropWhile isBlank with
  | nil =>
      rw [hs, lexerAdvance_nil] at h
      cases h
      rfl
  | cons c cs =>
      have hblank : isBlank c = false := by
        have := List.head_dropWhile_not isBlank (l := t) (by simp [hs])
        simpa [hs] using this
      by_cases hquote : c = ch '\''
      · rw [hs, hquote, lexerAdvance_quote] at h
        exact absurd h (by simp)
      · rw [hs, lexerAdvance_cons hblank hquote] at h
        cases h
        rfl

theorem At.lexerAdvance {l : Lexer ν} {t : Bytes} (h : At D l t) :
    lexerAdvance D l = lexerAdvance D (lexerInit l.pos) := by
  unfold CustomValidator.lexerAdvance lexerInit
  rw [h.strVal]

def Token.text : Token ν → Option Bytes
  | .true => some (ascii "true")
  | .false => some (ascii "false")
  | .value => some (ascii "value")
  | .lparen => some (ascii "(")
  | .rparen => some (ascii ")")
  | .plus => some (ascii "+")
  | .minus => some (ascii "-")
  | .eq => some (ascii "==")
  | .ne => some (ascii "!=")
  | .gt => some (ascii ">")
  | .lt => some (ascii "<")
  | .ge => some (ascii ">=")
  | .le => some (ascii "<=")
  | .and => some (ascii "&&")
  | .or => some (ascii "||")
  | .not => some (ascii "!")
  | .eof | .number _ | .string | .error => none

inductive Reads : Token ν → Bytes → Bytes → Prop
  | eof : Reads .eof [] []
  | error (t : Bytes) : Reads .error t t
  | plain {ds rest : Bytes} (x : ν) (hds : IsNumeral ds) : Reads (.number x) (ds ++ rest) rest
  | signed {ds rest : Bytes} (x : ν) (hds : IsNumeral ds) :
      Reads (.number x) (ch '-' :: (ds ++ rest)) rest
  | fixed {tok : Token ν} {w rest : Bytes} (hw : tok.text = some w)
      (hsign : w = ascii "-" → rest.head?.any isDigit = false) : Reads tok (w ++ rest) rest

theorem of_ite_eq_some {α : Type} {p : Prop} [Decidable p] {a b : α} {o : Option α}
    (h : (if p then some a else o) = some b) : (p ∧ a = b) ∨ o = some b := by
  by_cases hp : p
  · rw [if_pos hp] at h
    exact Or.inl ⟨hp, Option.some.inj h⟩
  · rw [if_neg hp] at h
    exact Or.inr h

def HasText (c : UInt8) (next : Option UInt8) (op : Token ν × Nat) : Prop :=
  ∃ w, op.1.text = some w ∧ op.2 = w.length ∧ w.length ≤ 2 ∧ (c :: next.toList).take w.length = w

theorem hasText_two {c d : UInt8} {next : Option UInt8} {tok : Token ν} {op : Token ν × Nat}
    (htext : tok.text = some [c, d]) {b : UInt8} {o : Option (Token ν × Nat)}
    (h : (if b = c ∧ next = some d then some (tok, 2) else o) = some op) :
    HasText b next op ∨ o = some op := by
  obtain ⟨⟨hb, hnext⟩, hop⟩ | h := of_ite_eq_some h
  · left
    subst hb hop
    exact ⟨[b, d], htext, rfl, Nat.le_refl 2, by rw [hnext]; rfl⟩
  · exact Or.inr h

theorem hasText_one {c : UInt8} {next : Option UInt8} {tok : Token ν} {op : Token ν × Nat}
    (htext : tok.text = some [c]) {b : UInt8} {o : Option (Token ν × Nat)}
    (h : (if b = c then some (tok, 1) else o) = some op) :
    HasText b next op ∨ o = some op := by
  obtain ⟨hb, hop⟩ | h := of_ite_eq_some h
  · left
    subst hb hop
    exact ⟨[b], htext, rfl, Nat.le_succ 1, rfl⟩
  · exact Or.inr h

theorem operator_text {c : UInt8} {next : Option UInt8} {op : Token ν × Nat}
    (h : operator c next = some op) : HasText c next op := by
  unfold operator at h
  obtain hop | h := hasText_two rfl h
  · exact hop
  obtain hop | h := hasText_two rfl h
  · exact hop
  obtain hop | h := hasText_two rfl h
  · exact hop
  obtain hop | h := hasText_two rfl h
  · exact hop
  obtain hop | h := hasText_two rfl h
  · exact hop
  obtain hop | h := hasText_two rfl h
  · exact hop
  obtain hop | h := hasText_one rfl h
  · exact hop
  obtain hop | h := hasText_one rfl h
  · exact hop
  obtain hop | h := hasText_one rfl h
  · exact hop
  obtain hop | h := hasText_one rfl h
  · exact hop
  obtain hop | h := hasText_one rfl h
  · exact hop
  obtain hop | h := hasText_one rfl h
  · exact hop
  obtain hop | h := hasText_one rfl h
  · exact hop
  · exact absurd h (by simp)

theorem isWord_split {word s : Bytes} (h : isWord word s = true) :
    s = word ++ s.drop word.length := by
  rw [isWord, Bool.and_eq_true, decide_eq_true_eq] at h
  conv_lhs => rw [← List.take_append_drop word.length s, h.1]

theorem keyword_reads {s : Bytes} {k : Token ν × Nat} (h : keyword s = some k) :
    Reads k.1 s (s.drop k.2) := by
  have hsplit : ∃ w, k.1.text = some w ∧ k.2 = w.length ∧ s = w ++ s.drop w.length ∧
      w ≠ ascii "-" := by
    unfold keyword at h
    obtain ⟨hw, rfl⟩ | h := of_ite_eq_some h
    · exact ⟨_, rfl, rfl, isWord_split hw, by decide⟩
    obtain ⟨hw, rfl⟩ | h := of_ite_eq_some h
    · exact ⟨_, rfl, rfl, isWord_split hw, by decide⟩
    obtain ⟨hw, rfl⟩ | h := of_ite_eq_some h
    · exact ⟨_, rfl, rfl, isWord_split hw, by decide⟩
    · exact absurd h (by simp)
  obtain ⟨w, htext, hlen, hs, hne⟩ := hsplit
  have hreads : Reads k.1 (w ++ s.drop w.length) (s.drop w.length) :=
    Reads.fixed htext fun h0 => absurd h0 hne
  rw [← hs] at hreads
  rw [hlen]
  exact hreads

theorem endsNumeral_of_integersOnly {ds rest : Bytes} (hds : IsNumeral ds)
    (hrest : rest.head?.any isDigit = false) (h : integersOnly (ds ++ rest) = true) :
    EndsNumeral rest := by
  intro c hc
  have hdigit : isDigit c = false := by simpa [hc] using hrest
  apply And.intro hdigit
  intro hmem
  obtain ⟨init, d, rfl⟩ := List.eq_nil_or_concat ds |>.resolve_left hds.1
  have hd : isDigit d = true := hds.2 d (by simp)
  have hquote : ¬HasQuote init := by
    intro h0
    have hmem0 : ch '\'' ∈ init.concat d := by
      rw [List.concat_eq_append]
      exact List.mem_append_left _ h0
    exact ne_quote_of_isAlnum (isAlnum_of_isDigit (hds.2 _ hmem0)) rfl
  have hlast : integersOnly (d :: rest) = true := by
    apply integersOnly_suffix _ hquote
    simpa using h
  have hdq : d ≠ ch '\'' := ne_quote_of_isAlnum (isAlnum_of_isDigit hd)
  have hcontains : fractionBytes.contains c = true := List.contains_iff_mem.mpr hmem
  simp [integersOnly, hdq, hd, hc, hmem] at hlast

theorem numeral_split {s : Bytes} (h : s.head?.any isDigit = true) :
    ∃ ds rest, IsNumeral ds ∧ rest.head?.any isDigit = false ∧ s = ds ++ rest := by
  refine ⟨s.takeWhile isDigit, s.dropWhile isDigit, ⟨?_, ?_⟩, ?_,
    List.takeWhile_append_dropWhile.symm⟩
  · cases s with
    | nil => exact absurd h (by simp)
    | cons c s =>
        have hc : isDigit c = true := h
        simp [hc]
  · intro c hc
    exact List.mem_takeWhile_imp hc
  · cases hs : s.dropWhile isDigit with
    | nil => rfl
    | cons c cs =>
        have hhead := List.head_dropWhile_not isDigit (l := s) (by simp [hs])
        simpa [hs] using hhead

variable (hD : ReadsNumerals D)

include hD

theorem token_plain {ds rest : Bytes} (hds : IsNumeral ds) (hrest : EndsNumeral rest) {c : UInt8}
    {cs : Bytes} (hs : c :: cs = ds ++ rest) :
    token D c cs = (.number (D.ofInt (numberOf ds)), ds.length) := by
  have hc : isDigit c = true := by
    cases ds with
    | nil => exact absurd rfl hds.1
    | cons d ds =>
        have hcd : c = d := (List.cons.inj hs).1
        rw [hcd]
        exact hds.2 d (by simp)
  have hlen : ds.length ≠ 0 := fun h0 => hds.1 (List.length_eq_zero_iff.mp h0)
  simp [token, hc, hs, hD.plain ds rest hds hrest, hlen]

theorem token_signed {ds rest : Bytes} (hds : IsNumeral ds) (hrest : EndsNumeral rest) :
    token D (ch '-') (ds ++ rest) =
      (.number (D.neg (D.ofInt (numberOf ds))), ds.length + 1) := by
  have hnext : (ds ++ rest).head?.any isDigit = true := by
    cases ds with
    | nil => exact absurd rfl hds.1
    | cons d ds => exact hds.2 d (by simp)
  simp only [token, hnext, decide_true, Bool.and_true, Bool.or_true, if_true,
    hD.signed ds rest hds hrest, Nat.add_eq_zero_iff, Nat.one_ne_zero, and_false, if_false]

theorem token_reads {c : UInt8} {cs : Bytes} (h : integersOnly (c :: cs) = true)
    (hquote : c ≠ ch '\'') :
    Reads (token D c cs).1 (c :: cs) ((c :: cs).drop (token D c cs).2) := by
  by_cases hc : isDigit c = true
  · obtain ⟨ds, rest, hds, hrest, hs⟩ := numeral_split (s := c :: cs) hc
    have hends := endsNumeral_of_integersOnly hds hrest (hs ▸ h)
    rw [token_plain hD hds hends hs, hs, List.drop_left]
    exact Reads.plain _ hds
  by_cases hsign : c = ch '-' ∧ cs.head?.any isDigit = true
  · obtain ⟨rfl, hdigit⟩ := hsign
    obtain ⟨ds, rest, hds, hrest, rfl⟩ := numeral_split hdigit
    have htail : integersOnly (ds ++ rest) = true :=
      integersOnly_suffix (p := [ch '-']) h (by unfold HasQuote; decide)
    have hends := endsNumeral_of_integersOnly hds hrest htail
    rw [token_signed hD hds hends]
    have hdrop : (ch '-' :: (ds ++ rest)).drop (ds.length + 1) = rest := by simp
    rw [hdrop]
    exact Reads.signed _ hds
  have hcond : (isDigit c || (c = ch '-' && cs.head?.any isDigit)) = false := by
    simpa [hc] using hsign
  unfold token
  rw [hcond]
  cases hop : operator (ν := ν) c cs.head? with
  | some op =>
      obtain ⟨w, htext, hlen, hle, htake⟩ := operator_text hop
      have hw : (c :: cs).take w.length = w := by
        rw [← htake]
        cases cs with
        | nil => simp
        | cons d cs =>
            match w, hle with
            | [], _ => simp
            | [_], _ => simp
            | [_, _], _ => simp
      have hsplit : c :: cs = w ++ (c :: cs).drop w.length := by
        conv_lhs => rw [← List.take_append_drop w.length (c :: cs), hw]
      have hreads : Reads op.1 (w ++ (c :: cs).drop w.length) ((c :: cs).drop w.length) := by
        apply Reads.fixed htext
        rintro rfl
        have hcm : c = ch '-' := (List.cons.inj hsplit).1
        subst hcm
        simpa [ascii] using hsign
      rw [← hsplit, ← hlen] at hreads
      simpa using hreads
  | none =>
      cases hkey : keyword (ν := ν) (c :: cs) with
      | some k => simpa [hkey] using keyword_reads hkey
      | none => simpa [hkey] using Reads.error (c :: cs)

theorem At.reads {l : Lexer ν} {t : Bytes} (h : At D l t) (hint : integersOnly t = true) :
    ∃ g s, IsGap g ∧ t = g ++ s ∧ Reads l.cur s l.pos := by
  obtain ⟨g, hg, ht⟩ := exists_gap t
  rw [At, ht, lexerAdvance_gap hg] at h
  cases hs : t.dropWhile isBlank with
  | nil =>
      rw [hs, lexerAdvance_nil] at h
      cases h
      exact ⟨g, [], hg, by rw [ht, hs], Reads.eof⟩
  | cons c cs =>
      have hblank : isBlank c = false := by
        have := List.head_dropWhile_not isBlank (l := t) (by simp [hs])
        simpa [hs] using this
      by_cases hquote : c = ch '\''
      · rw [hs, hquote, lexerAdvance_quote] at h
        exact absurd h (by simp)
      · rw [hs, lexerAdvance_cons hblank hquote] at h
        cases h
        rw [hs] at ht
        have hint' : integersOnly (c :: cs) = true :=
          integersOnly_suffix (ht ▸ hint) hg.not_hasQuote
        exact ⟨g, c :: cs, hg, ht, token_reads hD hint' hquote⟩

end

end BlessStar.Schema.CustomValidator
