import BlessStar.Lib.JsonText
import BlessStar.UiMap.UidlValidator

/-!
# How the validator reads JSON texts

The tokenizer takes a value as its tokens, the search for a closing bracket ends
at the bracket of the value, and an object gives its members with their texts.
-/

namespace BlessStar.UiMap

open Lib.ByteString
open Lib.JsonText hiding ch
open Gate (Asparse Astok CDouble asparseAdvance ch isBlank lex lexToken scanString
  scanString_quote scanString_raw scanString_escape skipComma)
open Schema (JsonDict dictGet slice)

mutual

def IntegersOnly : Json → Prop
  | .number text => IsInteger text
  | .array items => ItemsIntegersOnly items
  | .object members => MembersIntegersOnly members
  | _ => True

def ItemsIntegersOnly : Items → Prop
  | .last _ item _ => IntegersOnly item
  | .more _ item _ rest => IntegersOnly item ∧ ItemsIntegersOnly rest

def MembersIntegersOnly : Members → Prop
  | .last _ value _ => IntegersOnly value
  | .more _ value _ rest => IntegersOnly value ∧ MembersIntegersOnly rest

end

def Delimited (rest : Bytes) : Prop := ∃ c r, rest = c :: r ∧ c ∈ ascii ",]\x7d \t\n\r"

/-- What the validator relies on `strtod` for, in the C locale: it takes an integer up to
the byte behind it. -/
def ReadsIntegers {ν : Type} (D : CDouble ν) : Prop :=
  ∀ t, IsInteger t → ∀ rest, Delimited rest → (D.strtod (t ++ rest)).2 = t.length

section

variable {ν : Type} {D : CDouble ν}

/-- `strtod` takes this number up to the byte behind it. -/
def NumberRead (D : CDouble ν) (t : Bytes) : Prop :=
  ∀ rest, Delimited rest → (D.strtod (t ++ rest)).2 = t.length

mutual

def NumbersRead (D : CDouble ν) : Json → Prop
  | .number text => NumberRead D text
  | .array items => ItemsNumbersRead D items
  | .object members => MembersNumbersRead D members
  | _ => True

def ItemsNumbersRead (D : CDouble ν) : Items → Prop
  | .last _ item _ => NumbersRead D item
  | .more _ item _ rest => NumbersRead D item ∧ ItemsNumbersRead D rest

def MembersNumbersRead (D : CDouble ν) : Members → Prop
  | .last _ value _ => NumbersRead D value
  | .more _ value _ rest => NumbersRead D value ∧ MembersNumbersRead D rest

end

mutual

theorem IntegersOnly.numbersRead (hD : ReadsIntegers D) :
    ∀ {v : Json}, IntegersOnly v → NumbersRead D v
  | .string _, _ => trivial
  | .number _, h => hD _ h
  | .word _, _ => trivial
  | .emptyArray _, _ => trivial
  | .array _, h => ItemsIntegersOnly.numbersRead hD h
  | .emptyObject _, _ => trivial
  | .object _, h => MembersIntegersOnly.numbersRead hD h

theorem ItemsIntegersOnly.numbersRead (hD : ReadsIntegers D) :
    ∀ {items : Items}, ItemsIntegersOnly items → ItemsNumbersRead D items
  | .last _ _ _, h => IntegersOnly.numbersRead hD h
  | .more _ _ _ _, h => ⟨IntegersOnly.numbersRead hD h.1, ItemsIntegersOnly.numbersRead hD h.2⟩

theorem MembersIntegersOnly.numbersRead (hD : ReadsIntegers D) :
    ∀ {members : Members}, MembersIntegersOnly members → MembersNumbersRead D members
  | .last _ _ _, h => IntegersOnly.numbersRead hD h
  | .more _ _ _ _, h => ⟨IntegersOnly.numbersRead hD h.1, MembersIntegersOnly.numbersRead hD h.2⟩

end

def IsPlain : Astok ν → Prop
  | .string _ | .number _ | .true | .false | .null | .comma | .colon => True
  | _ => False

theorem dropWhile_gap {ws s : Bytes} (hws : IsGap ws) :
    (ws ++ s).dropWhile isBlank = s.dropWhile isBlank := by
  apply List.dropWhile_append_of_pos
  have hblank : ∀ c ∈ ascii " \t\n\r", isBlank c = true := by decide
  exact fun c hc => hblank c (hws c hc)

theorem lex_gap {ws : Bytes} (hws : IsGap ws) (s : Bytes) : lex D (ws ++ s) = lex D s := by
  unfold lex
  rw [dropWhile_gap hws]

theorem lex_cons {c : UInt8} (hc : isBlank c = false) (s : Bytes) :
    lex D (c :: s) = lexToken D c s := by
  unfold lex
  rw [List.dropWhile_cons_of_neg (by simp [hc])]

def readBody : Bytes → Bytes
  | [] => []
  | c :: s =>
      if c = ch '\\' then
        match s with
        | [] => []
        | e :: s => Gate.unescape e :: readBody s
      else c :: readBody s

theorem readBody_raw {c : UInt8} (hslash : c ≠ ch '\\') (s : Bytes) :
    readBody (c :: s) = c :: readBody s := by
  cases s <;> simp [readBody, hslash]

theorem readBody_escape (e : UInt8) (s : Bytes) :
    readBody (ch '\\' :: e :: s) = Gate.unescape e :: readBody s := by
  simp [readBody]

theorem hexDigit_plain {d : UInt8} (hd : (digitValue 16 d).isSome) :
    d ≠ ch '"' ∧ d ≠ ch '\\' := by
  constructor
  · rintro rfl
    exact absurd hd (by decide)
  · rintro rfl
    exact absurd hd (by decide)

theorem scanString_body {body : Bytes} (hb : IsBody body) (rest : Bytes) :
    scanString (body ++ ch '"' :: rest) = some (readBody body, rest) := by
  induction hb with
  | nil => exact scanString_quote rest
  | @raw c t _ hquote hslash _ ih =>
      rw [List.cons_append, scanString_raw hquote hslash, ih, readBody_raw hslash]
      rfl
  | @escape e t _ _ ih =>
      rw [List.cons_append, List.cons_append, scanString_escape, ih, readBody_escape]
      rfl
  | @unicode d₁ d₂ d₃ d₄ t hd _ ih =>
      simp only [List.forall_mem_cons] at hd
      obtain ⟨h₁, h₂, h₃, h₄, -⟩ := hd
      have hp₁ := hexDigit_plain h₁
      have hp₂ := hexDigit_plain h₂
      have hp₃ := hexDigit_plain h₃
      have hp₄ := hexDigit_plain h₄
      simp only [List.cons_append]
      rw [scanString_escape, scanString_raw hp₁.1 hp₁.2, scanString_raw hp₂.1 hp₂.2,
        scanString_raw hp₃.1 hp₃.2, scanString_raw hp₄.1 hp₄.2, ih, readBody_escape,
        readBody_raw hp₁.2, readBody_raw hp₂.2, readBody_raw hp₃.2, readBody_raw hp₄.2]
      rfl

theorem readBody_plain {key : Bytes} (hkey : ∀ c ∈ key, c ≠ ch '\\') : readBody key = key := by
  induction key with
  | nil => rfl
  | cons c key ih =>
      obtain ⟨hslash, hrest⟩ := List.forall_mem_cons.mp hkey
      rw [readBody_raw hslash, ih hrest]

theorem lex_quote {text rest val : Bytes} (h : scanString text = some (val, rest)) :
    lex D (ch '"' :: text) = ⟨.string val, rest⟩ := by
  rw [lex_cons (by decide)]
  have hne : ch '"' ≠ ch '\x7b' ∧ ch '"' ≠ ch '\x7d' ∧ ch '"' ≠ ch '[' ∧ ch '"' ≠ ch ']' ∧
      ch '"' ≠ ch ',' ∧ ch '"' ≠ ch ':' := by decide
  simp [lexToken, hne, h]

theorem lex_word (w : Word) (rest : Bytes) :
    ∃ tok, IsPlain tok ∧ lex D (w.text ++ rest) = ⟨tok, rest⟩ := by
  cases w with
  | true => exact ⟨.true, trivial, rfl⟩
  | false => exact ⟨.false, trivial, rfl⟩
  | null => exact ⟨.null, trivial, rfl⟩

theorem lex_number {t : Bytes} (ht : IsNumber t) (hread : NumberRead D t) {rest : Bytes}
    (hrest : Delimited rest) : ∃ tok, IsPlain tok ∧ lex D (t ++ rest) = ⟨tok, rest⟩ := by
  have hread := hread rest hrest
  obtain ⟨c, s, rfl, hc⟩ := ht.head
  have hlead : c ∈ ascii "0123456789-" := by
    rcases hc with hdigit | rfl
    · exact (by decide : ∀ c ∈ ascii "0123456789", c ∈ ascii "0123456789-") c (mem_digits hdigit)
    · decide
  have hplain : ∀ c ∈ ascii "0123456789-", isBlank c = false ∧ c ≠ ch '\x7b' ∧ c ≠ ch '\x7d' ∧
      c ≠ ch '[' ∧ c ≠ ch ']' ∧ c ≠ ch ',' ∧ c ≠ ch ':' ∧ c ≠ ch '"' ∧ c ≠ ch 't' ∧ c ≠ ch 'f' ∧
      c ≠ ch 'n' ∧ (c = ch '-' ∨ (ch '0' ≤ c ∧ c ≤ ch '9')) := by decide
  obtain ⟨hblank, h1, h2, h3, h4, h5, h6, h7, ht, hf, hn, hnum⟩ := hplain c hlead
  have hword : ∀ (w : String) (d : UInt8) (n : Nat), (ascii w).head? = some d → c ≠ d →
      (c :: (s ++ rest)).take (n + 1) ≠ ascii w := by
    intro w d n hw hne heq
    rw [← heq] at hw
    exact hne (Option.some.inj hw)
  refine ⟨.number (D.strtod (c :: s ++ rest)).1, trivial, ?_⟩
  rw [List.cons_append, lex_cons hblank, lexToken, if_neg h1, if_neg h2, if_neg h3, if_neg h4,
    if_neg h5, if_neg h6, if_neg h7, if_neg (hword "true" _ 3 rfl ht),
    if_neg (hword "false" _ 4 rfl hf), if_neg (hword "null" _ 3 rfl hn), if_pos hnum]
  rw [List.cons_append] at hread
  dsimp only
  rw [if_pos (by rw [hread]; exact Nat.succ_pos _), hread]
  simp

structure Nesting (step : Astok ν → Int) : Prop where
  plain : ∀ tok, IsPlain tok → step tok = 0
  lbrace : step .lbrace = 1
  rbrace : step .rbrace = -1
  lbrack : 0 ≤ step .lbrack
  rbrack : step .rbrack = -step .lbrack

theorem nesting_depthStep : Nesting (Astok.depthStep (ν := ν)) where
  plain tok htok := by cases tok <;> first | rfl | exact htok.elim
  lbrace := rfl
  rbrace := rfl
  lbrack := Int.one_nonneg
  rbrack := rfl

theorem nesting_braceStep : Nesting (braceStep (ν := ν)) where
  plain tok htok := by cases tok <;> first | rfl | exact htok.elim
  lbrace := rfl
  rbrace := rfl
  lbrack := Int.le_refl 0
  rbrack := rfl

theorem IsPlain.isEnd {tok : Astok ν} (h : IsPlain tok) : tok.isEnd = false := by
  cases tok <;> first | rfl | exact h.elim

theorem closeLoop_turn {step : Astok ν → Int} {n : Nat} {depth : Int} {p q : Asparse ν}
    (hend : p.tok.isEnd = false) (hdepth : 0 < depth) (hq : lex D p.rest = q) :
    closeLoop D step (n + 1) depth p = closeLoop D step n (depth + step q.tok) q := by
  have hnot : ¬depth ≤ 0 := by omega
  subst hq
  cases p with
  | mk tok rest =>
      cases tok with
      | eof => exact Bool.noConfusion hend
      | error => exact Bool.noConfusion hend
      | _ => simp only [closeLoop, if_neg hnot, asparseAdvance]

theorem closeLoop_done {step : Astok ν → Int} (n : Nat) (p : Asparse ν) :
    closeLoop D step n 0 p = p := by
  cases n with
  | zero => rfl
  | succ n =>
      cases p with
      | mk tok rest => cases tok <;> simp [closeLoop]

/-- The search gets from `p` to `q` in `k` turns, at the same depth. -/
def Reaches (D : CDouble ν) (k : Nat) (p q : Asparse ν) : Prop :=
  ∀ step, Nesting step → ∀ n depth, 0 < depth →
    closeLoop D step (k + n) depth p = closeLoop D step n depth q

theorem Reaches.trans {j k : Nat} {p q r : Asparse ν} (hpq : Reaches D j p q)
    (hqr : Reaches D k q r) : Reaches D (j + k) p r := by
  intro step hstep n depth hdepth
  calc closeLoop D step (j + k + n) depth p
      = closeLoop D step (j + (k + n)) depth p := by rw [Nat.add_assoc]
    _ = closeLoop D step (k + n) depth q := hpq step hstep _ depth hdepth
    _ = closeLoop D step n depth r := hqr step hstep n depth hdepth

theorem Reaches.token {p q : Asparse ν} (hend : p.tok.isEnd = false) (hq : lex D p.rest = q)
    (hplain : IsPlain q.tok) : Reaches D 1 p q := by
  intro step hstep n depth hdepth
  rw [Nat.add_comm, closeLoop_turn hend hdepth hq, hstep.plain _ hplain, Int.add_zero]

theorem lex_colon (rest : Bytes) : lex D (ch ':' :: rest) = ⟨.colon, rest⟩ := rfl

theorem lex_comma (rest : Bytes) : lex D (ch ',' :: rest) = ⟨.comma, rest⟩ := rfl

theorem lex_lbrace (rest : Bytes) : lex D (ch '\x7b' :: rest) = ⟨.lbrace, rest⟩ := rfl

theorem lex_rbrace (rest : Bytes) : lex D (ch '\x7d' :: rest) = ⟨.rbrace, rest⟩ := rfl

theorem lex_lbrack (rest : Bytes) : lex D (ch '[' :: rest) = ⟨.lbrack, rest⟩ := rfl

theorem lex_rbrack (rest : Bytes) : lex D (ch ']' :: rest) = ⟨.rbrack, rest⟩ := rfl

theorem reaches_key {key : MemberKey} (hkey : key.Valid) {p : Asparse ν} {s : Bytes}
    (hend : p.tok.isEnd = false) (hp : p.rest = key.text ++ s) :
    Reaches D 2 p ⟨.colon, key.afterColon ++ s⟩ := by
  have hval := scanString_body hkey.body (key.beforeColon ++ ch ':' :: (key.afterColon ++ s))
  have hstring : lex D p.rest =
      ⟨.string (readBody key.body), key.beforeColon ++ ch ':' :: (key.afterColon ++ s)⟩ := by
    rw [hp, MemberKey.text]
    simp only [List.append_assoc, List.cons_append]
    rw [lex_gap hkey.before, lex_quote hval]
  have hcolon : lex D (key.beforeColon ++ ch ':' :: (key.afterColon ++ s)) =
      ⟨.colon, key.afterColon ++ s⟩ := by rw [lex_gap hkey.beforeColon, lex_colon]
  exact (Reaches.token hend hstring trivial).trans (Reaches.token rfl hcolon trivial)

theorem delimited_gap {ws : Bytes} (hws : IsGap ws) {c : UInt8} (hc : c ∈ ascii ",]\x7d")
    (s : Bytes) : Delimited (ws ++ c :: s) := by
  cases ws with
  | nil => exact ⟨c, s, rfl, (by decide : ∀ c ∈ ascii ",]\x7d", c ∈ ascii ",]\x7d \t\n\r") c hc⟩
  | cons d ws =>
      refine ⟨d, ws ++ c :: s, rfl, ?_⟩
      exact (by decide : ∀ c ∈ ascii " \t\n\r", c ∈ ascii ",]\x7d \t\n\r") d
        (hws d List.mem_cons_self)

/-- The search gets from `p` in `k` turns to the bracket `close`, one level further out. -/
def Closes (D : CDouble ν) (k : Nat) (p : Asparse ν) (opened close : Astok ν) (rest : Bytes) :
    Prop :=
  ∀ step, Nesting step → ∀ n depth, 0 ≤ depth → 0 < depth + step opened →
    closeLoop D step (k + n) (depth + step opened) p = closeLoop D step n depth ⟨close, rest⟩

theorem Reaches.closes {j k : Nat} {p q : Asparse ν} {opened close : Astok ν} {rest : Bytes}
    (hpq : Reaches D j p q) (hq : Closes D k q opened close rest) :
    Closes D (j + k) p opened close rest := by
  intro step hstep n depth hdepth hpos
  rw [Nat.add_assoc, hpq step hstep _ _ hpos, hq step hstep n depth hdepth hpos]

inductive Pair : Astok ν → Astok ν → Prop
  | brace : Pair .lbrace .rbrace
  | bracket : Pair .lbrack .rbrack

theorem Pair.steps {opened close : Astok ν} (h : Pair opened close) {step : Astok ν → Int}
    (hstep : Nesting step) :
    0 ≤ step opened ∧ step close = -step opened ∧ opened.isEnd = false := by
  cases h with
  | brace => exact ⟨by rw [hstep.lbrace]; decide, by rw [hstep.rbrace, hstep.lbrace], rfl⟩
  | bracket => exact ⟨hstep.lbrack, hstep.rbrack, rfl⟩

theorem closes_here {p : Asparse ν} {opened close : Astok ν} {rest : Bytes}
    (hpair : Pair opened close) (hend : p.tok.isEnd = false)
    (hlex : lex D p.rest = ⟨close, rest⟩) : Closes D 1 p opened close rest := by
  intro step hstep n depth _ hpos
  obtain ⟨-, hclose, -⟩ := hpair.steps hstep
  have hback : depth + step opened + step close = depth := by omega
  rw [Nat.add_comm, closeLoop_turn hend hpos hlex, hback]

theorem Closes.reaches {k : Nat} {p : Asparse ν} {opened close : Astok ν} {inner rest : Bytes}
    (hpair : Pair opened close) (h : Closes D k ⟨opened, inner⟩ opened close rest)
    (hend : p.tok.isEnd = false) (hlex : lex D p.rest = ⟨opened, inner⟩) :
    Reaches D (k + 1) p ⟨close, rest⟩ := by
  intro step hstep n depth hdepth
  obtain ⟨hle, -, -⟩ := hpair.steps hstep
  have hturns : k + 1 + n = k + n + 1 := by omega
  rw [hturns, closeLoop_turn hend hdepth hlex]
  exact h step hstep n depth (by omega) (by omega)

mutual

theorem reaches_value (v : Json) (hv : v.Valid) (hnum : NumbersRead D v)
    {p : Asparse ν} (hend : p.tok.isEnd = false) {ws rest : Bytes} (hws : IsGap ws)
    (hrest : Delimited rest) (hp : p.rest = ws ++ (v.text ++ rest)) :
    ∃ k tok, k ≤ v.text.length ∧ tok.isEnd = false ∧ Reaches D k p ⟨tok, rest⟩ := by
  have hlex : lex D p.rest = lex D (v.text ++ rest) := by rw [hp, lex_gap hws]
  have one (tok : Astok ν) (htok : IsPlain tok) (hq : lex D (v.text ++ rest) = ⟨tok, rest⟩) :
      ∃ k tok, k ≤ v.text.length ∧ tok.isEnd = false ∧ Reaches D k p ⟨tok, rest⟩ :=
    ⟨1, tok, Json.length_text_pos hv, htok.isEnd, Reaches.token hend (hlex.trans hq) htok⟩
  cases v with
  | string body =>
      refine one (.string (readBody body)) trivial ?_
      rw [Json.text, List.cons_append, List.append_assoc]
      exact lex_quote (scanString_body hv rest)
  | number text =>
      obtain ⟨tok, htok, hq⟩ := lex_number hv hnum hrest
      exact one tok htok hq
  | word w =>
      obtain ⟨tok, htok, hq⟩ := lex_word w rest
      exact one tok htok hq
  | emptyArray ws' =>
      have hopen : lex D p.rest = ⟨.lbrack, ws' ++ ch ']' :: rest⟩ := by
        rw [hlex, Json.text, List.cons_append, List.append_assoc]
        exact lex_lbrack _
      have hclose : lex D (ws' ++ ch ']' :: rest) = ⟨.rbrack, rest⟩ := by
        rw [lex_gap hv, lex_rbrack]
      have hin := closes_here (p := ⟨.lbrack, ws' ++ ch ']' :: rest⟩) Pair.bracket rfl hclose
      refine ⟨2, .rbrack, ?_, rfl, hin.reaches .bracket hend hopen⟩
      simp only [Json.text, List.length_cons, List.length_append]
      omega
  | array items =>
      have hopen : lex D p.rest = ⟨.lbrack, items.text ++ ch ']' :: rest⟩ := by
        rw [hlex, Json.text, List.cons_append, List.append_assoc]
        exact lex_lbrack _
      obtain ⟨k, hk, hin⟩ := closes_items items hv hnum
        (p := ⟨.lbrack, items.text ++ ch ']' :: rest⟩) rfl rfl
      refine ⟨k + 1, .rbrack, ?_, rfl, hin.reaches .bracket hend hopen⟩
      simp only [Json.text, List.length_cons, List.length_append, List.length_nil]
      omega
  | emptyObject ws' =>
      have hopen : lex D p.rest = ⟨.lbrace, ws' ++ ch '\x7d' :: rest⟩ := by
        rw [hlex, Json.text, List.cons_append, List.append_assoc]
        exact lex_lbrace _
      have hclose : lex D (ws' ++ ch '\x7d' :: rest) = ⟨.rbrace, rest⟩ := by
        rw [lex_gap hv, lex_rbrace]
      have hin := closes_here (p := ⟨.lbrace, ws' ++ ch '\x7d' :: rest⟩) Pair.brace rfl hclose
      refine ⟨2, .rbrace, ?_, rfl, hin.reaches .brace hend hopen⟩
      simp only [Json.text, List.length_cons, List.length_append]
      omega
  | object members =>
      have hopen : lex D p.rest = ⟨.lbrace, members.text ++ ch '\x7d' :: rest⟩ := by
        rw [hlex, Json.text, List.cons_append, List.append_assoc]
        exact lex_lbrace _
      obtain ⟨k, hk, hin⟩ := closes_members members hv hnum
        (p := ⟨.lbrace, members.text ++ ch '\x7d' :: rest⟩) rfl rfl
      refine ⟨k + 1, .rbrace, ?_, rfl, hin.reaches .brace hend hopen⟩
      simp only [Json.text, List.length_cons, List.length_append, List.length_nil]
      omega

theorem closes_items (items : Items) (hv : items.Valid)
    (hnum : ItemsNumbersRead D items) {p : Asparse ν} (hend : p.tok.isEnd = false) {rest : Bytes}
    (hp : p.rest = items.text ++ ch ']' :: rest) :
    ∃ k, k ≤ items.text.length + 1 ∧ Closes D k p .lbrack .rbrack rest := by
  cases items with
  | last before item after =>
      obtain ⟨hbefore, hitem, hafter⟩ := hv
      rw [Items.text, List.append_assoc, List.append_assoc] at hp
      obtain ⟨k, tok, hk, htok, hreach⟩ := reaches_value item hitem hnum hend hbefore
        (delimited_gap hafter (by decide) rest) hp
      have hlex : lex D (after ++ ch ']' :: rest) = ⟨.rbrack, rest⟩ := by
        rw [lex_gap hafter, lex_rbrack]
      refine ⟨k + 1, ?_, hreach.closes (closes_here .bracket htok hlex)⟩
      simp only [Items.text, List.length_append]
      omega
  | more before item after others =>
      obtain ⟨hbefore, hitem, hafter, hothers⟩ := hv
      simp only [Items.text, List.append_assoc, List.cons_append] at hp
      obtain ⟨k, tok, hk, htok, hreach⟩ := reaches_value item hitem hnum.1 hend hbefore
        (delimited_gap hafter (by decide) (others.text ++ ch ']' :: rest)) hp
      have hlex : lex D (after ++ ch ',' :: (others.text ++ ch ']' :: rest)) =
          ⟨.comma, others.text ++ ch ']' :: rest⟩ := by rw [lex_gap hafter, lex_comma]
      obtain ⟨j, hj, hclose⟩ := closes_items others hothers hnum.2
        (p := ⟨.comma, others.text ++ ch ']' :: rest⟩) rfl rfl
      refine ⟨k + 1 + j, ?_, (hreach.trans (Reaches.token htok hlex trivial)).closes hclose⟩
      simp only [Items.text, List.length_append, List.length_cons]
      omega

theorem closes_members (members : Members) (hv : members.Valid)
    (hnum : MembersNumbersRead D members) {p : Asparse ν} (hend : p.tok.isEnd = false)
    {rest : Bytes} (hp : p.rest = members.text ++ ch '\x7d' :: rest) :
    ∃ k, k ≤ members.text.length + 1 ∧ Closes D k p .lbrace .rbrace rest := by
  cases members with
  | last key value after =>
      obtain ⟨hkey, hvalue, hafter⟩ := hv
      simp only [Members.text, List.append_assoc] at hp
      obtain ⟨k, tok, hk, htok, hreach⟩ := reaches_value value hvalue hnum
        (p := ⟨.colon, key.afterColon ++ (value.text ++ (after ++ ch '\x7d' :: rest))⟩) rfl
        hkey.afterColon (delimited_gap hafter (by decide) rest) rfl
      have hlex : lex D (after ++ ch '\x7d' :: rest) = ⟨.rbrace, rest⟩ := by
        rw [lex_gap hafter, lex_rbrace]
      refine ⟨2 + k + 1, ?_,
        ((reaches_key hkey hend hp).trans hreach).closes (closes_here .brace htok hlex)⟩
      simp only [Members.text, MemberKey.text, List.length_append, List.length_cons]
      omega
  | more key value after others =>
      obtain ⟨hkey, hvalue, hafter, hothers⟩ := hv
      simp only [Members.text, List.append_assoc, List.cons_append] at hp
      obtain ⟨k, tok, hk, htok, hreach⟩ := reaches_value value hvalue hnum.1
        (p := ⟨.colon, key.afterColon ++ (value.text ++ (after ++ ch ',' ::
          (others.text ++ ch '\x7d' :: rest)))⟩) rfl
        hkey.afterColon (delimited_gap hafter (by decide) _) rfl
      have hlex : lex D (after ++ ch ',' :: (others.text ++ ch '\x7d' :: rest)) =
          ⟨.comma, others.text ++ ch '\x7d' :: rest⟩ := by rw [lex_gap hafter, lex_comma]
      obtain ⟨j, hj, hclose⟩ := closes_members others hothers hnum.2
        (p := ⟨.comma, others.text ++ ch '\x7d' :: rest⟩) rfl rfl
      refine ⟨2 + k + 1 + j, ?_, (((reaches_key hkey hend hp).trans hreach).trans
        (Reaches.token htok hlex trivial)).closes hclose⟩
      simp only [Members.text, MemberKey.text, List.length_append, List.length_cons]
      omega

end

theorem closing_eq {step : Astok ν → Int} (hstep : Nesting step) {k : Nat} {p : Asparse ν}
    {opened close : Astok ν} {rest : Bytes} (h : Closes D k p opened close rest)
    (hopened : step opened = 1) (hk : k ≤ p.rest.length + 1) :
    closing D step p = ⟨close, rest⟩ := by
  obtain ⟨n, hn⟩ := Nat.exists_eq_add_of_le hk
  have hrun := h step hstep n 0 (Int.le_refl 0) (by omega)
  rw [Int.zero_add, hopened] at hrun
  rw [closing, hn, hrun, closeLoop_done]

theorem closing_members {members : Members} (hv : members.Valid)
    (hnum : MembersNumbersRead D members) {step : Astok ν → Int} (hstep : Nesting step)
    (rest : Bytes) :
    closing D step ⟨.lbrace, members.text ++ ch '\x7d' :: rest⟩ = ⟨.rbrace, rest⟩ := by
  obtain ⟨k, hk, hclose⟩ := closes_members members hv hnum
    (p := ⟨.lbrace, members.text ++ ch '\x7d' :: rest⟩) rfl rfl
  apply closing_eq hstep hclose hstep.lbrace
  simp only [List.length_append, List.length_cons]
  omega

theorem closing_items {items : Items} (hv : items.Valid)
    (hnum : ItemsNumbersRead D items) (rest : Bytes) :
    closing D Astok.depthStep ⟨.lbrack, items.text ++ ch ']' :: rest⟩ = ⟨.rbrack, rest⟩ := by
  obtain ⟨k, hk, hclose⟩ := closes_items items hv hnum
    (p := ⟨.lbrack, items.text ++ ch ']' :: rest⟩) rfl rfl
  apply closing_eq nesting_depthStep hclose rfl
  simp only [List.length_append, List.length_cons]
  omega

theorem slice_append (x rest : Bytes) : slice (x ++ rest) rest = x := by
  rw [slice, List.length_append, Nat.add_sub_cancel, List.take_left]

theorem dropWhile_value {v : Json} (hv : v.Valid) (rest : Bytes) :
    (v.text ++ rest).dropWhile isBlank = v.text ++ rest := by
  have hhead : ∃ c t, v.text = c :: t ∧ isBlank c = false := by
    cases v with
    | number text =>
        obtain ⟨c, t, ht, -⟩ := IsNumber.head hv
        refine ⟨c, t, ht, ?_⟩
        exact IsNumber.forall hv (isBlank · = false) (by decide) c (ht ▸ List.mem_cons_self)
    | word w => cases w <;> exact ⟨_, _, rfl, rfl⟩
    | _ => exact ⟨_, _, rfl, rfl⟩
  obtain ⟨c, t, ht, hc⟩ := hhead
  rw [ht, List.cons_append, List.dropWhile_cons_of_neg (by simp [hc])]

theorem dictValue_eq {v : Json} (hv : v.Valid) (hnum : NumbersRead D v)
    {ws rest : Bytes} (hws : IsGap ws) (hrest : Delimited rest) (tok : Astok ν) :
    dictValue D ⟨tok, ws ++ (v.text ++ rest)⟩ = (some v.text, lex D rest) := by
  have hstart : (ws ++ (v.text ++ rest)).dropWhile isBlank = v.text ++ rest := by
    rw [dropWhile_gap hws, dropWhile_value hv]
  have plain (t : Astok ν) (ht : IsPlain t) (hlex : lex D (v.text ++ rest) = ⟨t, rest⟩) :
      dictValue D ⟨tok, ws ++ (v.text ++ rest)⟩ = (some v.text, lex D rest) := by
    simp only [dictValue, asparseAdvance, lex_gap hws, hlex, hstart]
    cases t <;> first | exact ht.elim | simp only [slice_append]
  have nested (opened close : Astok ν) (inner : Bytes) (hpair : Pair opened close)
      (hlex : lex D (v.text ++ rest) = ⟨opened, inner⟩)
      (hclose : closing D Astok.depthStep ⟨opened, inner⟩ = ⟨close, rest⟩) :
      dictValue D ⟨tok, ws ++ (v.text ++ rest)⟩ = (some v.text, lex D rest) := by
    simp only [dictValue, asparseAdvance, lex_gap hws, hlex, hstart]
    cases hpair with
    | brace => simp only [hclose, slice_append, Astok.isEof, Bool.false_eq_true, if_false]
    | bracket => simp only [hclose, slice_append, Astok.isEof, Bool.false_eq_true, if_false]
  cases v with
  | string body =>
      refine plain (.string (readBody body)) trivial ?_
      rw [Json.text, List.cons_append, List.append_assoc]
      exact lex_quote (scanString_body hv rest)
  | number text =>
      obtain ⟨t, ht, hq⟩ := lex_number hv hnum hrest
      exact plain t ht hq
  | word w =>
      obtain ⟨t, ht, hq⟩ := lex_word w rest
      exact plain t ht hq
  | emptyArray ws' =>
      have hclose : lex D (ws' ++ ch ']' :: rest) = ⟨.rbrack, rest⟩ := by
        rw [lex_gap hv, lex_rbrack]
      refine nested .lbrack .rbrack (ws' ++ ch ']' :: rest) .bracket ?_ ?_
      · rw [Json.text, List.cons_append, List.append_assoc]
        exact lex_lbrack _
      · exact closing_eq nesting_depthStep (closes_here .bracket rfl hclose) rfl (by simp)
  | array items =>
      refine nested .lbrack .rbrack (items.text ++ ch ']' :: rest) .bracket ?_
        (closing_items hv hnum rest)
      rw [Json.text, List.cons_append, List.append_assoc]
      exact lex_lbrack _
  | emptyObject ws' =>
      have hclose : lex D (ws' ++ ch '\x7d' :: rest) = ⟨.rbrace, rest⟩ := by
        rw [lex_gap hv, lex_rbrace]
      refine nested .lbrace .rbrace (ws' ++ ch '\x7d' :: rest) .brace ?_ ?_
      · rw [Json.text, List.cons_append, List.append_assoc]
        exact lex_lbrace _
      · exact closing_eq nesting_depthStep (closes_here .brace rfl hclose) rfl (by simp)
  | object members =>
      refine nested .lbrace .rbrace (members.text ++ ch '\x7d' :: rest) .brace ?_
        (closing_members hv hnum nesting_depthStep rest)
      rw [Json.text, List.cons_append, List.append_assoc]
      exact lex_lbrace _

def entries : Members → JsonDict
  | .last key value _ => [(key.body, some value.text)]
  | .more key value _ rest => (key.body, some value.text) :: entries rest

def PlainKeys : Members → Prop
  | .last key _ _ => ∀ c ∈ key.body, c ≠ ch '"' ∧ c ≠ ch '\\'
  | .more key _ _ rest => (∀ c ∈ key.body, c ≠ ch '"' ∧ c ≠ ch '\\') ∧ PlainKeys rest

def readEntries : Members → JsonDict
  | .last key value _ => [(readBody key.body, some value.text)]
  | .more key value _ rest => (readBody key.body, some value.text) :: readEntries rest

theorem readEntries_plain : ∀ {members : Members}, PlainKeys members →
    readEntries members = entries members
  | .last _ _ _, h => by rw [readEntries, entries, readBody_plain fun c hc => (h c hc).2]
  | .more _ _ _ _, h => by
      rw [readEntries, entries, readBody_plain fun c hc => (h.1 c hc).2, readEntries_plain h.2]

theorem lex_key {key : MemberKey} (hkey : key.Valid) (s : Bytes) :
    lex D (key.text ++ s) =
      ⟨.string (readBody key.body), key.beforeColon ++ ch ':' :: (key.afterColon ++ s)⟩ := by
  rw [MemberKey.text]
  simp only [List.append_assoc, List.cons_append]
  rw [lex_gap hkey.before]
  exact lex_quote (scanString_body hkey.body _)

theorem skipComma_of_ne {p : Asparse ν} (h : p.tok.isComma = false) : skipComma D p = p := by
  rw [skipComma, h]
  rfl

theorem jdictAdd_of_lt {d : JsonDict} (h : d.length < maxDict) (key : Bytes)
    {text : Bytes} (htext : (0 : UInt8) ∉ text) :
    jdictAdd d key (some text) = d ++ [(key, some text)] := by
  rw [jdictAdd, if_neg (Nat.not_le.mpr h), Option.map_some, cstr_eq_self htext]

theorem parseDictLoop_turn {key : MemberKey} (hkey : key.Valid) {v : Json} (hv : v.Valid)
    (hnum : NumbersRead D v) (hzero : (0 : UInt8) ∉ v.text) {rest : Bytes}
    (hrest : Delimited rest) {d : JsonDict} (hd : d.length < maxDict) (n : Nat) :
    parseDictLoop D (n + 1) (lex D (key.text ++ (v.text ++ rest))) d =
      parseDictLoop D n (skipComma D (lex D rest)) (d ++ [(readBody key.body, some v.text)]) := by
  have hcolon : lex D (key.beforeColon ++ ch ':' :: (key.afterColon ++ (v.text ++ rest))) =
      ⟨.colon, key.afterColon ++ (v.text ++ rest)⟩ := by rw [lex_gap hkey.beforeColon, lex_colon]
  rw [lex_key hkey]
  simp only [parseDictLoop, asparseAdvance, hcolon, Astok.isColon, if_true,
    dictValue_eq hv hnum hkey.afterColon hrest, jdictAdd_of_lt hd _ hzero]

theorem parseDictLoop_members (members : Members) (hv : members.Valid)
    (hnum : MembersNumbersRead D members)
    (hzero : ∀ e ∈ readEntries members, ∀ text, e.2 = some text → (0 : UInt8) ∉ text)
    {n : Nat} {d : JsonDict} (hn : (readEntries members).length ≤ n)
    (hd : d.length + (readEntries members).length ≤ maxDict) (rest : Bytes) :
    parseDictLoop D n (lex D (members.text ++ ch '\x7d' :: rest)) d = d ++ readEntries members := by
  cases members with
  | last key value after =>
      obtain ⟨hkey, hvalue, hafter⟩ := hv
      have hpos : 0 < n := hn
      obtain ⟨m, rfl⟩ := Nat.exists_eq_succ_of_ne_zero hpos.ne'
      have hlex : lex D (after ++ ch '\x7d' :: rest) = ⟨.rbrace, rest⟩ := by
        rw [lex_gap hafter, lex_rbrace]
      rw [Members.text, List.append_assoc, List.append_assoc,
        parseDictLoop_turn hkey hvalue hnum (hzero _ List.mem_cons_self _ rfl)
          (delimited_gap hafter (by decide) rest) hd, hlex, skipComma_of_ne rfl]
      cases m <;> rfl
  | more key value after others =>
      obtain ⟨hkey, hvalue, hafter, hothers⟩ := hv
      have hpos : 0 < n := Nat.lt_of_lt_of_le (Nat.succ_pos _) hn
      obtain ⟨m, rfl⟩ := Nat.exists_eq_succ_of_ne_zero hpos.ne'
      have hlex : lex D (after ++ ch ',' :: (others.text ++ ch '\x7d' :: rest)) =
          ⟨.comma, others.text ++ ch '\x7d' :: rest⟩ := by rw [lex_gap hafter, lex_comma]
      have hcount : (readEntries others).length ≤ m := Nat.le_of_succ_le_succ hn
      simp only [readEntries, List.length_cons] at hd
      rw [Members.text]
      simp only [List.append_assoc, List.cons_append]
      rw [parseDictLoop_turn hkey hvalue hnum.1 (hzero _ List.mem_cons_self _ rfl)
          (delimited_gap hafter (by decide) _) (by omega), hlex]
      have hskip : skipComma D ⟨.comma, others.text ++ ch '\x7d' :: rest⟩ =
          lex D (others.text ++ ch '\x7d' :: rest) := rfl
      have hrest := parseDictLoop_members others hothers hnum.2
        (fun e he => hzero e (List.mem_cons_of_mem _ he)) hcount
        (d := d ++ [(readBody key.body, some value.text)])
        (by rw [List.length_append, List.length_singleton]; omega) rest
      rw [hskip, hrest, List.append_assoc]
      rfl

theorem length_readEntries_le (members : Members) :
    (readEntries members).length ≤ members.text.length := by
  cases members with
  | last key value after =>
      simp only [readEntries, Members.text, MemberKey.text, List.length_cons, List.length_append,
        List.length_nil]
      omega
  | more key value after others =>
      have hle := length_readEntries_le others
      simp only [readEntries, Members.text, MemberKey.text, List.length_cons, List.length_append]
      omega

end

theorem zero_not_mem_entries (members : Members) (hv : members.Valid) :
    ∀ e ∈ readEntries members, ∀ text, e.2 = some text → (0 : UInt8) ∉ text := by
  cases members with
  | last key value after =>
      simp only [readEntries, List.mem_singleton, forall_eq, Option.some.injEq, forall_eq']
      exact zero_not_mem_value value hv.2.1
  | more key value after others =>
      simp only [readEntries, List.forall_mem_cons, Option.some.injEq, forall_eq']
      exact ⟨zero_not_mem_value value hv.2.1, zero_not_mem_entries others hv.2.2.2⟩

section

variable {ν : Type} {D : CDouble ν}

/-- **An object is taken with its members.** -/
theorem parseDict_members {members : Members} (hv : members.Valid)
    (hnum : MembersNumbersRead D members) (hcount : (readEntries members).length ≤ maxDict)
    (rest : Bytes) :
    parseDict D ⟨.lbrace, members.text ++ ch '\x7d' :: rest⟩ = readEntries members := by
  have hle := length_readEntries_le members
  have hrun := parseDictLoop_members members hv hnum (zero_not_mem_entries members hv)
    (n := (members.text ++ ch '\x7d' :: rest).length + 1) (d := [])
    (by rw [List.length_append]; omega) (by simpa using hcount) rest
  exact hrun

theorem parseDict_plain {members : Members} (hv : members.Valid)
    (hnum : MembersNumbersRead D members) (hplain : PlainKeys members)
    (hcount : (entries members).length ≤ maxDict) (rest : Bytes) :
    parseDict D ⟨.lbrace, members.text ++ ch '\x7d' :: rest⟩ = entries members := by
  have hsame := readEntries_plain hplain
  rw [← hsame] at hcount ⊢
  exact parseDict_members hv hnum hcount rest

def IsObject : Json → Prop
  | .emptyObject _ | .object _ => True
  | _ => False

theorem closing_object {v : Json} (hv : v.Valid) (hnum : NumbersRead D v) (hobj : IsObject v)
    (s : Bytes) : ∃ inner, v.text ++ s = ch '\x7b' :: inner ∧
      closing D braceStep ⟨.lbrace, inner⟩ = ⟨.rbrace, s⟩ := by
  cases v with
  | object members =>
      refine ⟨members.text ++ ch '\x7d' :: s, ?_, closing_members hv hnum nesting_braceStep s⟩
      rw [Json.text, List.cons_append, List.append_assoc]
      rfl
  | emptyObject ws =>
      refine ⟨ws ++ ch '\x7d' :: s, ?_, ?_⟩
      · rw [Json.text, List.cons_append, List.append_assoc]
        rfl
      · have hclose : lex D (ws ++ ch '\x7d' :: s) = ⟨.rbrace, s⟩ := by
          rw [lex_gap hv, lex_rbrace]
        exact closing_eq nesting_braceStep (closes_here .brace rfl hclose) rfl (by simp)
  | _ => exact hobj.elim

theorem arrayErrors_object {v : Json} (hv : v.Valid) (hnum : NumbersRead D v) (hobj : IsObject v)
    (validate : Bytes → List Bytes) {before : Bytes} (hbefore : IsGap before) (s : Bytes) :
    arrayErrors D validate (ch '[' :: (before ++ (v.text ++ s))) = validate v.text := by
  have hzero : (0 : UInt8) ∉ v.text := zero_not_mem_value v hv
  obtain ⟨inner, htext, hclose⟩ := closing_object hv hnum hobj s
  have hslice : slice (ch '\x7b' :: inner) s = v.text := by rw [← htext, slice_append]
  have hlex : lex D (before ++ (v.text ++ s)) = ⟨.lbrace, inner⟩ := by
    rw [lex_gap hbefore, htext, lex_lbrace]
  have hnext : ∀ n, objectsLoop D validate n ⟨.rbrace, s⟩ = [] := by
    intro n
    cases n <;> rfl
  simp only [arrayErrors, lex_lbrack, asparseAdvance, hlex, objectsLoop, Astok.isLbrace, if_true,
    hclose, hslice, cstr_eq_self hzero]
  rw [skipComma_of_ne rfl, hnext, List.append_nil]

theorem arrayErrors_first {validate : Bytes → List Bytes} {members : Members} (hv : members.Valid)
    (hnum : MembersNumbersRead D members) (hvalid : validate (Json.object members).text = [])
    {before : Bytes} (hbefore : IsGap before) (s : Bytes) :
    arrayErrors D validate (ch '[' :: (before ++ ((Json.object members).text ++ s))) = [] :=
  (arrayErrors_object (v := .object members) hv hnum trivial validate hbefore s).trans hvalid

end

end BlessStar.UiMap
