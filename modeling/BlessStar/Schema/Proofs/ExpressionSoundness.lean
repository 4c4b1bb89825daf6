import BlessStar.Schema.Proofs.ExpressionTokens

/-!
# What the interpreter accepts

With enough fuel every evaluator ends, and what it has read when it succeeds is a
phrase of the grammar in which no `-` was misread.
-/

namespace BlessStar.Schema.CustomValidator

open Lib.ByteString
open Gate (ch isBlank)

/-! ## Ends of a computation -/

/-- It does not run out of fuel, is undefined only under `H`, and a result has `Q`. -/
def Ends {α : Type} (H : Prop) (Q : α → Prop) : Except Stop α → Prop
  | .ok a => Q a
  | .error .syntaxError => True
  | .error .undefined => H
  | .error .fuel => False

namespace Ends

variable {α β : Type} {H : Prop} {Q : α → Prop} {R : β → Prop}

theorem bind {r : Except Stop α} {f : α → Except Stop β} (hr : Ends H Q r)
    (hf : ∀ a, Q a → Ends H R (f a)) : Ends H R (r >>= f) := by
  match r with
  | .ok a => exact hf a hr
  | .error .syntaxError => exact trivial
  | .error .undefined => exact hr
  | .error .fuel => exact hr.elim

theorem mono {r : Except Stop α} {Q' : α → Prop} (hr : Ends H Q r) (hQ : ∀ a, Q a → Q' a) :
    Ends H Q' r := by
  match r with
  | .ok a => exact hQ a hr
  | .error .syntaxError => exact trivial
  | .error .undefined => exact hr
  | .error .fuel => exact hr.elim

end Ends

section

variable {ν : Type} {D : Doubles ν} {H : Prop}

/-- The lexer stands at `t`, a text of integers, whose string literals make `H` true. -/
structure Stands (D : Doubles ν) (H : Prop) (t : Bytes) (l : Lexer ν) : Prop where
  here : At D l t
  integers : integersOnly t = true
  quote : HasQuote t → H

theorem advance_error {t : Bytes} {stop : Stop} (h : lexerAdvance D (lexerInit t) = .error stop) :
    stop = .undefined ∧ HasQuote t := by
  obtain ⟨g, hg, ht⟩ := exists_gap t
  rw [ht, lexerAdvance_gap hg] at h
  cases hs : t.dropWhile isBlank with
  | nil =>
      rw [hs, lexerAdvance_nil] at h
      exact absurd h (by simp)
  | cons c cs =>
      have hblank : isBlank c = false := by
        have := List.head_dropWhile_not isBlank (l := t) (by simp [hs])
        simpa [hs] using this
      by_cases hc : c = ch '\''
      · rw [hs, hc, lexerAdvance_quote] at h
        cases h
        apply And.intro rfl
        rw [HasQuote, ht, hs, hc]
        simp
      · rw [hs, lexerAdvance_cons hblank hc] at h
        exact absurd h (by simp)

theorem advance_ends {t : Bytes} {Q : Lexer ν → Prop} (hQ : ∀ l, At D l t → Q l)
    (hquote : HasQuote t → H) : Ends H Q (lexerAdvance D (lexerInit t)) := by
  cases h : lexerAdvance D (lexerInit t) with
  | ok l => exact hQ l h
  | error stop =>
      obtain ⟨rfl, hq⟩ := advance_error h
      exact hquote hq

theorem Stands.advance {t p : Bytes} {l : Lexer ν} (h : Stands D H t l) (ht : t = p ++ l.pos)
    (hp : ¬HasQuote p) : Ends H (Stands D H l.pos) (lexerAdvance D l) := by
  rw [h.here.lexerAdvance]
  have hquote : HasQuote l.pos → H := by
    intro hq
    apply h.quote
    rw [ht, hasQuote_append]
    exact Or.inr hq
  apply advance_ends _ hquote
  intro l' hl'
  refine ⟨hl', integersOnly_suffix (p := p) ?_ hp, hquote⟩
  rw [← ht]
  exact h.integers

/-! ## Operands -/

/-- An evaluator has read `p` behind `g`, which is an expression on this level. -/
structure ReadsPhrase (D : Doubles ν) (H : Prop) (lvl : Level) (t g p rest : Bytes)
    (l : Lexer ν) : Prop where
  gap : IsGap g
  text : t = g ++ (p ++ rest)
  spells : ∃ e, Spells (.expr lvl e) p
  noQuote : ¬HasQuote p
  nonempty : p ≠ []
  signs : misread false (p ++ rest) = misread true rest
  stands : Stands D H rest l

theorem ReadsPhrase.length_lt {lvl : Level} {t g p rest : Bytes} {l : Lexer ν}
    (h : ReadsPhrase D H lvl t g p rest l) : rest.length < t.length := by
  have hp : 0 < p.length := List.length_pos_iff.mpr h.nonempty
  rw [h.text, List.length_append, List.length_append]
  omega

def Parsed (D : Doubles ν) (H : Prop) (lvl : Level) (t : Bytes) (l : Lexer ν) : Prop :=
  ∃ g p rest, ReadsPhrase D H lvl t g p rest l

/-- A `unary` that is a `primary`, possibly behind signs. -/
def ParsedPrimary (D : Doubles ν) (H : Prop) (t : Bytes) (l : Lexer ν) : Prop :=
  ∃ g p rest, ReadsPhrase D H .unary t g p rest l ∧ p.head? ≠ some (ch '!')

theorem word_parsed {t g w rest : Bytes} {e : Expr} {l : Lexer ν} (hg : IsGap g)
    (ht : t = g ++ (w ++ rest)) (hw : Spells (.expr .primary e) w)
    (halnum : ∀ c ∈ w, isAlnum c = true) (hne : w ≠ []) (hl : Stands D H rest l) :
    ParsedPrimary D H t l := by
  refine ⟨g, w, rest, ⟨hg, ht, ⟨e, .primary hw⟩, ?_, hne, misread_word hne halnum false rest, hl⟩,
    ?_⟩
  · intro hq
    exact ne_quote_of_isAlnum (halnum _ hq) rfl
  · intro hhead
    have hbang := halnum _ (List.mem_of_mem_head? hhead)
    revert hbang
    decide

theorem IsNumeral.not_hasQuote {ds : Bytes} (h : IsNumeral ds) : ¬HasQuote ds :=
  fun hq => ne_quote_of_isAlnum (h.isAlnum _ hq) rfl

theorem misread_sign {t : Bytes} (h : (t.dropWhile isBlank).head? ≠ some (ch '!')) :
    misread false (ch '-' :: t) = misread false t := by
  have hafter : afterOperand false (ch '-') = false := by decide
  simp [misread, h, hafter]

/-! ## Evaluators -/

theorem Reads.suffix {tok : Token ν} {s rest : Bytes} (h : Reads tok s rest) : rest <:+ s := by
  cases h with
  | eof => exact List.suffix_refl _
  | error => exact List.suffix_refl _
  | plain => exact List.suffix_append _ _
  | signed => exact (List.suffix_append _ _).trans (List.suffix_cons _ _)
  | fixed => exact List.suffix_append _ _

variable (hD : ReadsNumerals D)

include hD

theorem Stands.advance_any {t : Bytes} {l : Lexer ν} (h : Stands D H t l) :
    Ends H (fun _ => True) (lexerAdvance D l) := by
  rw [h.here.lexerAdvance]
  apply advance_ends fun _ _ => trivial
  intro hq
  obtain ⟨g, s, -, ht, hreads⟩ := h.here.reads hD h.integers
  apply h.quote
  rw [ht, hasQuote_append]
  exact Or.inr (hreads.suffix.subset hq)

theorem Stands.not_string {t : Bytes} {l : Lexer ν} (h : Stands D H t l) : l.cur ≠ .string := by
  intro hcur
  obtain ⟨g, s, -, -, hreads⟩ := h.here.reads hD h.integers
  rw [hcur] at hreads
  generalize l.pos = pos at hreads
  cases hreads with
  | fixed hw => exact absurd hw (by simp [Token.text])

theorem Stands.text {t w : Bytes} {l : Lexer ν} (h : Stands D H t l) (hw : l.cur.text = some w) :
    ∃ g, IsGap g ∧ t = g ++ (w ++ l.pos) ∧
      (w = ascii "-" → l.pos.head?.any isDigit = false) := by
  obtain ⟨g, s, hg, ht, hreads⟩ := h.here.reads hD h.integers
  generalize hpos : l.pos = pos at hreads ht
  generalize hcur : l.cur = tok at hreads hw
  cases hreads with
  | eof => exact absurd hw (by simp [Token.text])
  | error => exact absurd hw (by simp [Token.text])
  | plain => exact absurd hw (by simp [Token.text])
  | signed => exact absurd hw (by simp [Token.text])
  | fixed hw' hsign =>
      have hww := Option.some.inj (hw'.symm.trans hw)
      rw [hww] at ht hsign
      exact ⟨g, hg, ht, hsign⟩

theorem Stands.number {t : Bytes} {l : Lexer ν} {x : ν} (h : Stands D H t l)
    (hcur : l.cur = .number x) :
    ∃ g ds, IsGap g ∧ IsNumeral ds ∧
      (t = g ++ (ds ++ l.pos) ∨ t = g ++ (ch '-' :: (ds ++ l.pos))) := by
  obtain ⟨g, s, hg, ht, hreads⟩ := h.here.reads hD h.integers
  rw [hcur] at hreads
  generalize hpos : l.pos = pos at hreads
  cases hreads with
  | plain _ hds => exact ⟨g, _, hg, hds, Or.inl ht⟩
  | signed _ hds => exact ⟨g, _, hg, hds, Or.inr ht⟩
  | fixed hw => exact absurd hw (by simp [Token.text])

section

variable {v : Value} {expr : Eval ν} {N : Nat}
  (hexpr : ∀ t l, t.length < N → Stands D H t l → Ends H (fun r => Parsed D H .or t r.2) (expr l))

include hexpr

theorem paren_sound {g t rest : Bytes} {next : Lexer ν} (hg : IsGap g)
    (ht : t = g ++ (ascii "(" ++ rest)) (hlen : t.length ≤ N) (hnext : Stands D H rest next) :
    Ends H (fun r => ParsedPrimary D H t r.2) (do
      let (inner, l) ← expr next
      match l.cur with
      | .rparen =>
          let next ← lexerAdvance D l
          .ok (inner, next)
      | _ => .error .syntaxError) := by
  have hlt : rest.length < N := by
    have hopen : (ascii "(").length = 1 := rfl
    rw [ht, List.length_append, List.length_append, hopen] at hlen
    omega
  apply Ends.bind (hexpr rest next hlt hnext)
  rintro ⟨inner, l⟩ ⟨g1, p, rest1, h⟩
  simp only at h ⊢
  split
  · rename_i hcur
    obtain ⟨g2, hg2, hrest1, -⟩ := h.stands.text hD (w := ascii ")") (by rw [hcur]; rfl)
    have hquote : ¬HasQuote (g2 ++ ascii ")") := hg2.not_hasQuote_append (by decide)
    apply Ends.bind (h.stands.advance (p := g2 ++ ascii ")") (by simpa using hrest1) hquote)
    intro l' hl'
    obtain ⟨e, he⟩ := h.spells
    refine ⟨g, ch '(' :: (g1 ++ (p ++ (g2 ++ [ch ')']))), l.pos,
      ⟨hg, ?_, ⟨e, .primary (.paren h.gap he hg2)⟩, ?_, by simp, ?_, hl'⟩, by simp +decide⟩
    · have hopen : ascii "(" = [ch '('] := rfl
      have hclose : ascii ")" = [ch ')'] := rfl
      rw [ht, h.text, hrest1, hopen, hclose]
      simp
    · have hopen : ¬HasQuote [ch '('] := by
        unfold HasQuote
        decide
      have hclose : ¬HasQuote [ch ')'] := by
        unfold HasQuote
        decide
      exact not_hasQuote_append hopen (not_hasQuote_append h.gap.not_hasQuote
        (not_hasQuote_append h.noQuote (not_hasQuote_append hg2.not_hasQuote hclose)))
    · have hclose : misread true (g2 ++ ch ')' :: l.pos) = misread true l.pos := by
        rw [misread_gap hg2, misread_cons (by decide) (by decide)]
        rfl
      calc
        misread false (ch '(' :: (g1 ++ (p ++ (g2 ++ [ch ')']))) ++ l.pos)
            = misread false (g1 ++ (p ++ (g2 ++ ch ')' :: l.pos))) := by
              have hopen : isAlnum (ch '(') = false := by decide
              rw [List.cons_append, misread_cons (by decide) (by decide), hopen]
              simp +decide
        _ = misread false (p ++ rest1) := by
              rw [misread_gap h.gap, hrest1]
              rfl
        _ = misread true l.pos := by
              rw [h.signs, hrest1]
              exact hclose
  · exact trivial

omit hexpr in
theorem number_sound {t : Bytes} {l : Lexer ν} {x : ν} (hl : Stands D H t l)
    (hcur : l.cur = .number x) :
    Ends H (fun next => ParsedPrimary D H t next) (lexerAdvance D l) := by
  obtain ⟨g, ds, hg, hds, ht | ht⟩ := hl.number hD hcur
  · have hquote : ¬HasQuote (g ++ ds) := by
      rw [hasQuote_append]
      exact fun h0 => h0.elim hg.not_hasQuote hds.not_hasQuote
    apply (hl.advance (p := g ++ ds) (by simpa using ht) hquote).mono
    intro next hnext
    exact word_parsed hg ht (.num hds) hds.isAlnum hds.1 hnext
  · have hsign : ¬HasQuote (ch '-' :: ds) := by
      intro h0
      rcases List.mem_cons.mp h0 with h0 | h0
      · revert h0
        decide
      · exact hds.not_hasQuote h0
    have hquote : ¬HasQuote (g ++ ch '-' :: ds) := by
      rw [hasQuote_append]
      exact fun h0 => h0.elim hg.not_hasQuote hsign
    apply (hl.advance (p := g ++ ch '-' :: ds) (by simpa using ht) hquote).mono
    intro next hnext
    have hspells : Spells (.expr .unary (.neg (.num (numberOf ds)))) (ch '-' :: ([] ++ ds)) :=
      .neg IsGap.nil (.primary (.num hds))
    refine ⟨g, ch '-' :: ds, l.pos, ⟨hg, ht, ⟨_, hspells⟩, hsign, by simp, ?_, hnext⟩,
      by simp +decide⟩
    have hhead : ((ds ++ l.pos).dropWhile isBlank).head? ≠ some (ch '!') := by
      obtain ⟨d, ds', rfl⟩ := List.exists_cons_of_ne_nil hds.1
      have hd := hds.isAlnum d (by simp)
      have hbang : d ≠ ch '!' := by
        rintro rfl
        revert hd
        decide
      simpa [isBlank_of_isAlnum hd] using hbang
    calc
      misread false (ch '-' :: ds ++ l.pos) = misread false (ds ++ l.pos) := misread_sign hhead
      _ = misread true l.pos := misread_word hds.1 hds.isAlnum false l.pos

omit hexpr in
theorem word_sound {t w : Bytes} {l : Lexer ν} {e : Expr} (hl : Stands D H t l)
    (hcur : l.cur.text = some w) (hw : Spells (.expr .primary e) w)
    (halnum : ∀ c ∈ w, isAlnum c = true) :
    Ends H (fun next => ParsedPrimary D H t next) (lexerAdvance D l) := by
  obtain ⟨g, hg, ht, -⟩ := hl.text hD hcur
  have hquote : ¬HasQuote (g ++ w) := by
    rw [hasQuote_append]
    exact fun h0 => h0.elim hg.not_hasQuote fun h1 => ne_quote_of_isAlnum (halnum _ h1) rfl
  have hne : w ≠ [] := by
    obtain ⟨c, cs, rfl, -⟩ := hw.startsExpr
    simp
  apply (hl.advance (p := g ++ w) (by simpa using ht) hquote).mono
  intro next hnext
  exact word_parsed hg ht hw halnum hne hnext

omit hD hexpr in
theorem sign_parsed {g t rest : Bytes} {l : Lexer ν} (hg : IsGap g)
    (ht : t = g ++ (ascii "-" ++ rest)) (h : ParsedPrimary D H rest l) :
    ParsedPrimary D H t l := by
  obtain ⟨g1, p, rest1, h, hhead⟩ := h
  obtain ⟨e, he⟩ := h.spells
  refine ⟨g, ch '-' :: (g1 ++ p), rest1, ⟨hg, ?_, ⟨_, .neg h.gap he⟩, ?_, by simp, ?_, h.stands⟩,
    by simp +decide⟩
  · have hminus : ascii "-" = [ch '-'] := rfl
    rw [ht, h.text, hminus]
    simp
  · intro h0
    rcases List.mem_cons.mp h0 with h0 | h0
    · revert h0
      decide
    · exact (List.mem_append.mp h0).elim h.gap.not_hasQuote h.noQuote
  · have hdrop : ((g1 ++ (p ++ rest1)).dropWhile isBlank).head? ≠ some (ch '!') := by
      obtain ⟨c, cs, rfl, hblank, -⟩ := he.startsExpr
      rw [dropWhile_gap h.gap]
      simpa [hblank] using hhead
    calc
      misread false (ch '-' :: (g1 ++ p) ++ rest1)
          = misread false (ch '-' :: (g1 ++ (p ++ rest1))) := by simp
      _ = misread false (g1 ++ (p ++ rest1)) := misread_sign hdrop
      _ = misread true rest1 := by rw [misread_gap h.gap, h.signs]

theorem primary_sound : ∀ n t l, t.length ≤ N → t.length + 1 ≤ n → Stands D H t l →
    Ends H (fun r => ParsedPrimary D H t r.2) (evalPrimary D v expr n l) := by
  intro n
  induction n with
  | zero =>
      intro t l _ hn _
      exact absurd hn (by omega)
  | succ n ih =>
      intro t l hlen hn hl
      unfold evalPrimary
      cases hcur : l.cur with
      | number x =>
          apply Ends.bind (number_sound hD hl hcur)
          exact fun next hnext => hnext
      | true =>
          apply Ends.bind (word_sound hD hl (by rw [hcur]; rfl) (.bool Bool.true)
            (isAlnum_boolText Bool.true))
          exact fun next hnext => hnext
      | false =>
          apply Ends.bind (word_sound hD hl (by rw [hcur]; rfl) (.bool Bool.false)
            (isAlnum_boolText Bool.false))
          exact fun next hnext => hnext
      | value =>
          apply Ends.bind (word_sound hD hl (by rw [hcur]; rfl) .value isAlnum_value)
          exact fun next hnext => hnext
      | lparen =>
          obtain ⟨g, hg, ht, -⟩ := hl.text hD (w := ascii "(") (by rw [hcur]; rfl)
          have hquote : ¬HasQuote (g ++ ascii "(") := hg.not_hasQuote_append (by decide)
          apply Ends.bind (hl.advance (p := g ++ ascii "(") (by simpa using ht) hquote)
          exact fun next hnext => paren_sound hD hexpr hg ht hlen hnext
      | minus =>
          obtain ⟨g, hg, ht, -⟩ := hl.text hD (w := ascii "-") (by rw [hcur]; rfl)
          have hquote : ¬HasQuote (g ++ ascii "-") := hg.not_hasQuote_append (by decide)
          apply Ends.bind (hl.advance (p := g ++ ascii "-") (by simpa using ht) hquote)
          intro next hnext
          have hlt : l.pos.length < t.length := by
            have hminus : (ascii "-").length = 1 := rfl
            rw [ht, List.length_append, List.length_append, hminus]
            omega
          apply Ends.bind (ih l.pos next (by omega) (by omega) hnext)
          exact fun r hr => sign_parsed hg ht hr
      | string => exact absurd hcur (hl.not_string hD)
      | _ => exact Ends.bind (hl.advance_any hD) fun _ _ => trivial

theorem unary_sound : ∀ n t l, t.length ≤ N → t.length + 2 ≤ n → Stands D H t l →
    Ends H (fun r => Parsed D H .unary t r.2) (evalUnary D v expr n l) := by
  intro n
  induction n with
  | zero =>
      intro t l _ hn _
      exact absurd hn (by omega)
  | succ n ih =>
      intro t l hlen hn hl
      have hprimary : Ends H (fun r => Parsed D H .unary t r.2) (evalPrimary D v expr n l) := by
        apply (primary_sound hD hexpr n t l hlen (by omega) hl).mono
        rintro r ⟨g, p, rest, h, -⟩
        exact ⟨g, p, rest, h⟩
      unfold evalUnary
      cases hcur : l.cur with
      | not =>
          obtain ⟨g, hg, ht, -⟩ := hl.text hD (w := ascii "!") (by rw [hcur]; rfl)
          have hbang : ascii "!" = [ch '!'] := rfl
          have hquote : ¬HasQuote (g ++ ascii "!") := hg.not_hasQuote_append (by decide)
          apply Ends.bind (hl.advance (p := g ++ ascii "!") (by simpa using ht) hquote)
          intro next hnext
          have hlt : l.pos.length < t.length := by
            rw [ht, List.length_append, List.length_append, hbang, List.length_singleton]
            omega
          apply Ends.bind (ih l.pos next (by omega) (by omega) hnext)
          rintro r ⟨g1, p, rest, h⟩
          obtain ⟨e, he⟩ := h.spells
          refine ⟨g, ch '!' :: (g1 ++ p), rest,
            ⟨hg, ?_, ⟨_, .not h.gap he⟩, ?_, by simp, ?_, h.stands⟩⟩
          · rw [ht, h.text, hbang]
            simp
          · intro h0
            rcases List.mem_cons.mp h0 with h0 | h0
            · revert h0
              decide
            · exact (List.mem_append.mp h0).elim h.gap.not_hasQuote h.noQuote
          · have hafter : (isAlnum (ch '!') || decide (ch '!' = ch ')')) = false := by decide
            calc
              misread false (ch '!' :: (g1 ++ p) ++ rest)
                  = misread false (g1 ++ (p ++ rest)) := by
                    rw [List.cons_append, misread_cons (by decide) (by decide), hafter,
                      List.append_assoc]
              _ = misread true rest := by rw [misread_gap h.gap, h.signs]
      | _ => exact hprimary

end

/-! ## Loops -/

omit hD in
/-- A loop has read `u` behind `left`, or nothing. -/
structure ReadsTail (D : Doubles ν) (H : Prop) (lvl : Level) (left : Expr) (t u rest : Bytes)
    (l : Lexer ν) : Prop where
  text : t = u ++ rest
  spells : ∃ e, Spells (.tail lvl left e) u
  noQuote : ¬HasQuote u
  signs : misread true t = misread true rest
  stands : Stands D H rest l

theorem op_stands {w t : Bytes} {l : Lexer ν} (hl : Stands D H t l) (hcur : l.cur.text = some w)
    (hw : w ∈ operatorTexts) :
    ∃ g, IsGap g ∧ t = g ++ (w ++ l.pos) ∧ ¬HasQuote (g ++ w) ∧
      misread true t = misread false l.pos ∧ l.pos.length < t.length := by
  obtain ⟨g, hg, ht, hsign⟩ := hl.text hD hcur
  have htexts : ∀ w ∈ operatorTexts, w.contains (ch '\'') = false ∧ 0 < w.length := by decide
  obtain ⟨hquote, hpos⟩ := htexts w hw
  refine ⟨g, hg, ht, hg.not_hasQuote_append hquote, ?_, ?_⟩
  · conv_lhs => rw [ht, misread_gap hg, misread_op hw hsign]
  · conv_rhs => rw [ht, List.length_append, List.length_append]
    omega

def IsLoopOp (op : Token ν → Option (ν → ν → ν)) (lvl : Level) : Prop :=
  ∀ tok f, op tok = some f → ∃ b : BinOp, b.level = lvl ∧ tok.text = some b.text

theorem leftLoop_sound {op : Token ν → Option (ν → ν → ν)} {operand : Eval ν} {lvl lo : Level}
    {N : Nat} (hop : IsLoopOp op lvl) (hlo : lvl.operand = some lo)
    (hoperand : ∀ t l, t.length < N → Stands D H t l →
      Ends H (fun r => Parsed D H lo t r.2) (operand l)) :
    ∀ n x t l (left : Expr), t.length ≤ N → t.length + 1 ≤ n → Stands D H t l →
      Ends H (fun r => ∃ u rest, ReadsTail D H lvl left t u rest r.2)
        (leftLoop D op operand n x l) := by
  intro n
  induction n with
  | zero =>
      intro x t l left _ hn _
      exact absurd hn (by omega)
  | succ n ih =>
      intro x t l left hlen hn hl
      unfold leftLoop
      cases hf : op l.cur with
      | none => exact ⟨[], t, rfl, ⟨left, .last⟩, List.not_mem_nil, rfl, hl⟩
      | some f =>
          obtain ⟨b, hb, htext⟩ := hop l.cur f hf
          have hmem : b.text ∈ operatorTexts := by cases b <;> decide
          obtain ⟨g, hg, ht, hquote, hsigns, hlt⟩ := op_stands hD hl htext hmem
          apply Ends.bind (hl.advance (p := g ++ b.text) (by simpa using ht) hquote)
          intro next hnext
          apply Ends.bind (hoperand l.pos next (by omega) hnext)
          rintro ⟨right, l1⟩ ⟨g1, p, rest1, h⟩
          obtain ⟨e, he⟩ := h.spells
          have hlt1 := h.length_lt
          have hloop := ih (f x right) rest1 l1 (.bin b left e) (by omega) (by omega) h.stands
          apply hloop.mono
          rintro ⟨y, l2⟩ ⟨u, rest, htail⟩
          obtain ⟨e', he'⟩ := htail.spells
          subst hb
          refine ⟨g ++ (b.text ++ (g1 ++ (p ++ u))), rest, ?_, ⟨e', .more hlo hg h.gap he he'⟩, ?_,
            ?_, htail.stands⟩
          · rw [ht, h.text, htail.text]
            simp
          · have hop : ¬HasQuote (g ++ (b.text ++ (g1 ++ p))) := by
              rw [← List.append_assoc]
              exact not_hasQuote_append hquote
                (not_hasQuote_append h.gap.not_hasQuote h.noQuote)
            have hall := not_hasQuote_append hop htail.noQuote
            simpa using hall
          · calc
              misread true t = misread false l.pos := hsigns
              _ = misread false (p ++ rest1) := by rw [h.text, misread_gap h.gap]
              _ = misread true rest1 := h.signs
              _ = misread true rest := htail.signs

theorem chained_sound {op : Token ν → Option (ν → ν → ν)} {operand : Eval ν} {lvl lo : Level}
    {N : Nat} (hop : IsLoopOp op lvl) (hlo : lvl.operand = some lo)
    (hoperand : ∀ t l, t.length ≤ N → Stands D H t l →
      Ends H (fun r => Parsed D H lo t r.2) (operand l))
    {n : Nat} {t : Bytes} {l : Lexer ν} (hlen : t.length ≤ N) (hn : t.length + 1 ≤ n)
    (hl : Stands D H t l) :
    Ends H (fun r => Parsed D H lvl t r.2) (chained D op operand n l) := by
  unfold chained
  apply Ends.bind (hoperand t l hlen hl)
  rintro ⟨left, l1⟩ ⟨g, p, rest1, h⟩
  obtain ⟨e, he⟩ := h.spells
  have hlt := h.length_lt
  have hloop := leftLoop_sound hD hop hlo (fun t l ht => hoperand t l (Nat.le_of_lt ht)) n left
    rest1 l1 e (by omega) (by omega) h.stands
  apply hloop.mono
  rintro ⟨y, l2⟩ ⟨u, rest, htail⟩
  obtain ⟨e', he'⟩ := htail.spells
  refine ⟨g, p ++ u, rest, h.gap, ?_, ⟨e', .chain hlo he he'⟩, ?_, ?_, ?_, htail.stands⟩
  · rw [h.text, htail.text]
    simp
  · rw [hasQuote_append]
    exact fun h0 => h0.elim h.noQuote htail.noQuote
  · exact List.append_ne_nil_of_left_ne_nil h.nonempty u
  · calc
      misread false (p ++ u ++ rest) = misread false (p ++ rest1) := by
        rw [htail.text, List.append_assoc]
      _ = misread true rest1 := h.signs
      _ = misread true rest := htail.signs

/-! ## Levels -/

section

variable {v : Value} {expr : Eval ν} {N : Nat}
  (hexpr : ∀ t l, t.length < N → Stands D H t l → Ends H (fun r => Parsed D H .or t r.2) (expr l))
  {n : Nat} (hn : N + 2 ≤ n)

omit hD in
theorem isLoopOp_arith : IsLoopOp (arithOp D) .arith := by
  intro tok f h
  cases tok with
  | plus => exact ⟨.plus, rfl, rfl⟩
  | minus => exact ⟨.minus, rfl, rfl⟩
  | _ => exact absurd h (by simp [arithOp])

omit hD in
theorem isLoopOp_and : IsLoopOp (andOp D) .and := by
  intro tok f h
  cases tok with
  | and => exact ⟨.and, rfl, rfl⟩
  | _ => exact absurd h (by simp [andOp])

omit hD in
theorem isLoopOp_or : IsLoopOp (orOp D) .or := by
  intro tok f h
  cases tok with
  | or => exact ⟨.or, rfl, rfl⟩
  | _ => exact absurd h (by simp [orOp])

omit hD in
theorem cmpOp_text {tok : Token ν} {f : ν → ν → ν} (h : cmpOp D tok = some f) :
    ∃ op : CmpOp, tok.text = some op.text := by
  cases tok with
  | eq => exact ⟨.eq, rfl⟩
  | ne => exact ⟨.ne, rfl⟩
  | gt => exact ⟨.gt, rfl⟩
  | lt => exact ⟨.lt, rfl⟩
  | ge => exact ⟨.ge, rfl⟩
  | le => exact ⟨.le, rfl⟩
  | _ => exact absurd h (by simp [cmpOp])

include hexpr hn

theorem arith_sound (t : Bytes) (l : Lexer ν) (hlen : t.length ≤ N) (hl : Stands D H t l) :
    Ends H (fun r => Parsed D H .arith t r.2) (evalArith D v expr n l) := by
  unfold evalArith
  apply chained_sound hD isLoopOp_arith rfl _ hlen (by omega) hl
  intro t l ht hl
  exact unary_sound hD hexpr n t l ht (by omega) hl

theorem cmp_sound (t : Bytes) (l : Lexer ν) (hlen : t.length ≤ N) (hl : Stands D H t l) :
    Ends H (fun r => Parsed D H .cmp t r.2) (evalCmp D v expr n l) := by
  unfold evalCmp
  apply Ends.bind (arith_sound hD hexpr hn t l hlen hl)
  rintro ⟨left, l1⟩ ⟨g, p, rest1, h⟩
  obtain ⟨e, he⟩ := h.spells
  have hlt := h.length_lt
  simp only at h ⊢
  cases hf : cmpOp D l1.cur with
  | none =>
      exact ⟨g, p, rest1, h.gap, h.text, ⟨e, .arith he⟩, h.noQuote, h.nonempty, h.signs, h.stands⟩
  | some f =>
      obtain ⟨op, htext⟩ := cmpOp_text hf
      have hmem : op.text ∈ operatorTexts := by cases op <;> decide
      obtain ⟨g1, hg1, hrest1, hquote, hsigns, hlt1⟩ := op_stands hD h.stands htext hmem
      apply Ends.bind (h.stands.advance (p := g1 ++ op.text) (by simpa using hrest1) hquote)
      intro next hnext
      apply Ends.bind (arith_sound hD hexpr hn l1.pos next (by omega) hnext)
      rintro ⟨right, l2⟩ ⟨g2, q, rest2, h2⟩
      obtain ⟨e2, he2⟩ := h2.spells
      refine ⟨g, p ++ (g1 ++ (op.text ++ (g2 ++ q))), rest2, h.gap, ?_,
        ⟨_, .cmp he hg1 h2.gap he2⟩, ?_, ?_, ?_, h2.stands⟩
      · rw [h.text, hrest1, h2.text]
        simp
      · apply not_hasQuote_append h.noQuote
        rw [← List.append_assoc]
        exact not_hasQuote_append hquote (not_hasQuote_append h2.gap.not_hasQuote h2.noQuote)
      · exact List.append_ne_nil_of_left_ne_nil h.nonempty _
      · calc
          misread false (p ++ (g1 ++ (op.text ++ (g2 ++ q))) ++ rest2)
              = misread false (p ++ rest1) := by
                rw [hrest1, h2.text]
                simp
          _ = misread true rest1 := h.signs
          _ = misread false l1.pos := hsigns
          _ = misread false (q ++ rest2) := by rw [h2.text, misread_gap h2.gap]
          _ = misread true rest2 := h2.signs

theorem or_sound (t : Bytes) (l : Lexer ν) (hlen : t.length ≤ N) (hl : Stands D H t l) :
    Ends H (fun r => Parsed D H .or t r.2) (evalOr D v expr n l) := by
  unfold evalOr
  apply chained_sound hD isLoopOp_or rfl _ hlen (by omega) hl
  intro t l ht hl
  unfold evalAnd
  apply chained_sound hD isLoopOp_and rfl _ ht (by omega) hl
  exact cmp_sound hD hexpr hn

end

theorem expr_sound {v : Value} : ∀ n t l, t.length + 3 ≤ n → Stands D H t l →
    Ends H (fun r => Parsed D H .or t r.2) (evalExpr D v n l) := by
  intro n
  induction n with
  | zero =>
      intro t l hn _
      exact absurd hn (by omega)
  | succ n ih =>
      intro t l hn hl
      unfold evalExpr
      apply or_sound hD (N := t.length) _ (by omega) t l (Nat.le_refl _) hl
      exact fun t' l' hlt hl' => ih t' l' (by omega) hl'

structure Accepted (text : Bytes) : Prop where
  expression : ∃ e : Expr, e.IsText text
  noQuote : ¬HasQuote text
  signs : misread false text = false

theorem text_sound {v : Value} {text : Bytes} (hint : integersOnly text = true) {n : Nat}
    (hn : text.length + 3 ≤ n) :
    Ends (HasQuote text) (fun rc => rc ≠ -1 → Accepted text) (evalText D v n text) := by
  unfold evalText
  have hstart : Ends (HasQuote text) (Stands D (HasQuote text) text)
      (lexerAdvance D (lexerInit text)) := by
    apply advance_ends _ id
    exact fun l hl => ⟨hl, hint, id⟩
  apply Ends.bind hstart
  intro l hl
  have hexpr := expr_sound hD (v := v) n text l hn hl
  cases heval : evalExpr D v n l with
  | error stop =>
      rw [heval] at hexpr
      cases stop with
      | undefined => exact hexpr
      | syntaxError => exact fun h => absurd rfl h
      | fuel => exact hexpr.elim
  | ok r =>
      rw [heval] at hexpr
      obtain ⟨g, p, rest, h⟩ := hexpr
      obtain ⟨e, he⟩ := h.spells
      simp only
      cases hcur : r.2.cur with
      | eof =>
          intro _
          have hrest : IsGap rest := by
            obtain ⟨g', s, hg', hrest, hreads⟩ := h.stands.here.reads hD h.stands.integers
            rw [hcur] at hreads
            generalize r.2.pos = pos at hreads
            cases hreads with
            | eof =>
                rw [hrest, List.append_nil]
                exact hg'
            | fixed hw => exact absurd hw (by simp [Token.text])
          refine ⟨⟨e, g, p, rest, h.gap, he, hrest, h.text⟩, ?_, ?_⟩
          · rw [h.text]
            exact not_hasQuote_append h.gap.not_hasQuote
              (not_hasQuote_append h.noQuote hrest.not_hasQuote)
          · calc
              misread false text = misread false (p ++ rest) := by rw [h.text, misread_gap h.gap]
              _ = misread true (rest ++ []) := by rw [h.signs, List.append_nil]
              _ = false := by
                rw [misread_gap hrest]
                rfl
      | _ => exact fun hne => absurd rfl hne

end

end BlessStar.Schema.CustomValidator
