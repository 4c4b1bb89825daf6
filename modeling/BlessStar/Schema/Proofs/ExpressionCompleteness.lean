import BlessStar.Schema.Proofs.ExpressionSoundness

/-!
# What the interpreter computes

A text of an expression in which no `-` is misread is evaluated to the expression's
value in doubles.
-/

namespace BlessStar.Schema.CustomValidator

open Lib.ByteString
open Gate (ch isBlank)

section

variable {ν : Type} {D : Doubles ν}

/-! ## Tokens of the grammar -/

theorem At.unique {l l' : Lexer ν} {t : Bytes} (h : At D l t) (h' : At D l' t) : l = l' :=
  Except.ok.inj (h.symm.trans h')

theorem exists_at {t : Bytes} (h : ¬HasQuote t) : ∃ l, At D l t := by
  cases hadv : lexerAdvance D (lexerInit t) with
  | ok l => exact ⟨l, hadv⟩
  | error stop => exact absurd (advance_error hadv).2 h

theorem at_gap {g : Bytes} (hg : IsGap g) {l : Lexer ν} {t : Bytes} :
    At D l (g ++ t) ↔ At D l t := by
  rw [At, lexerAdvance_gap hg, At]

theorem at_token {c : UInt8} {cs : Bytes} (hblank : isBlank c = false) (hquote : c ≠ ch '\'')
    {tok : Token ν} {k : Nat} (h : token D c cs = (tok, k)) :
    At D ⟨tok, none, (c :: cs).drop k⟩ (c :: cs) := by
  rw [At, lexerAdvance_cons hblank hquote, h]

def BinOp.token : BinOp → Token ν
  | or => .or
  | and => .and
  | plus => .plus
  | minus => .minus

def CmpOp.token : CmpOp → Token ν
  | eq => .eq
  | ne => .ne
  | gt => .gt
  | lt => .lt
  | ge => .ge
  | le => .le

theorem at_operator {c : UInt8} {cs : Bytes} {tok : Token ν} {k : Nat}
    (hop : operator c cs.head? = some (tok, k))
    (hc : isBlank c = false ∧ isDigit c = false ∧ c ≠ ch '\'')
    (hsign : c = ch '-' → cs.head?.any isDigit = false) :
    At D ⟨tok, none, (c :: cs).drop k⟩ (c :: cs) := by
  have hnum : (isDigit c || (c = ch '-' && cs.head?.any isDigit)) = false := by
    simpa [hc.2.1] using hsign
  apply at_token hc.1 hc.2.2
  rw [token, hnum, hop]
  rfl

theorem at_binOp (b : BinOp) {x : Bytes} (hsign : b = .minus → x.head?.any isDigit = false) :
    At D ⟨b.token, none, x⟩ (b.text ++ x) := by
  cases b with
  | or =>
      have hop : operator (ν := ν) (ch '|') (ch '|' :: x).head? = some (.or, 2) := rfl
      exact at_operator hop (by decide) (by simp +decide)
  | and =>
      have hop : operator (ν := ν) (ch '&') (ch '&' :: x).head? = some (.and, 2) := rfl
      exact at_operator hop (by decide) (by simp +decide)
  | plus =>
      have hop : operator (ν := ν) (ch '+') x.head? = some (.plus, 1) := by simp +decide [operator]
      exact at_operator hop (by decide) (by simp +decide)
  | minus =>
      have hop : operator (ν := ν) (ch '-') x.head? = some (.minus, 1) := by simp +decide [operator]
      exact at_operator hop (by decide) fun _ => hsign rfl

theorem at_cmpOp (op : CmpOp) {x : Bytes} (hx : x.head? ≠ some (ch '=')) :
    At D ⟨op.token, none, x⟩ (op.text ++ x) := by
  cases op with
  | eq =>
      have hop : operator (ν := ν) (ch '=') (ch '=' :: x).head? = some (.eq, 2) := rfl
      exact at_operator hop (by decide) (by simp +decide)
  | ne =>
      have hop : operator (ν := ν) (ch '!') (ch '=' :: x).head? = some (.ne, 2) := rfl
      exact at_operator hop (by decide) (by simp +decide)
  | gt =>
      have hop : operator (ν := ν) (ch '>') x.head? = some (.gt, 1) := by
        simp +decide [operator, hx]
      exact at_operator hop (by decide) (by simp +decide)
  | lt =>
      have hop : operator (ν := ν) (ch '<') x.head? = some (.lt, 1) := by
        simp +decide [operator, hx]
      exact at_operator hop (by decide) (by simp +decide)
  | ge =>
      have hop : operator (ν := ν) (ch '>') (ch '=' :: x).head? = some (.ge, 2) := rfl
      exact at_operator hop (by decide) (by simp +decide)
  | le =>
      have hop : operator (ν := ν) (ch '<') (ch '=' :: x).head? = some (.le, 2) := rfl
      exact at_operator hop (by decide) (by simp +decide)

theorem at_not {x : Bytes} (hx : x.head? ≠ some (ch '=')) :
    At D ⟨.not, none, x⟩ (ch '!' :: x) := by
  have hop : operator (ν := ν) (ch '!') x.head? = some (.not, 1) := by simp +decide [operator, hx]
  exact at_operator hop (by decide) (by simp +decide)

theorem at_lparen (x : Bytes) : At D ⟨.lparen, none, x⟩ (ch '(' :: x) := by
  have hop : operator (ν := ν) (ch '(') x.head? = some (.lparen, 1) := by simp +decide [operator]
  exact at_operator hop (by decide) (by simp +decide)

theorem at_rparen (x : Bytes) : At D ⟨.rparen, none, x⟩ (ch ')' :: x) := by
  have hop : operator (ν := ν) (ch ')') x.head? = some (.rparen, 1) := by simp +decide [operator]
  exact at_operator hop (by decide) (by simp +decide)

def EndsWord (rest : Bytes) : Prop :=
  ∀ c, rest.head? = some c → isAlnum c = false ∧ c ≠ ch '.'

theorem EndsWord.endsNumeral {rest : Bytes} (h : EndsWord rest) : EndsNumeral rest := by
  intro c hc
  obtain ⟨halnum, hdot⟩ := h c hc
  refine ⟨?_, ?_⟩
  · by_contra hdigit
    rw [Bool.not_eq_false] at hdigit
    rw [isAlnum_of_isDigit hdigit] at halnum
    exact Bool.false_ne_true halnum.symm
  · intro hmem
    have hall : ∀ c ∈ fractionBytes, isAlnum c = true ∨ c = ch '.' := by decide
    rcases hall c hmem with h0 | h0
    · rw [h0] at halnum
      exact Bool.false_ne_true halnum.symm
    · exact hdot h0

theorem isWord_append {w rest : Bytes} (h : EndsWord rest) : isWord w (w ++ rest) = true := by
  have hhead : rest.head?.any isAlnum = false := by
    cases hr : rest.head? with
    | none => rfl
    | some c => exact (h c hr).1
  simp [isWord, hhead]

theorem isWord_head {c d : UInt8} (hcd : c ≠ d) (w s : Bytes) :
    isWord (c :: w) (d :: s) = false := by
  simp [isWord, hcd.symm]

theorem at_keyword {c : UInt8} {cs : Bytes} {k : Token ν × Nat}
    (hc : isBlank c = false ∧ isDigit c = false ∧ c ≠ ch '\'' ∧ c ≠ ch '-')
    (hop : operator (ν := ν) c cs.head? = none) (hkey : keyword (c :: cs) = some k) :
    At D ⟨k.1, none, (c :: cs).drop k.2⟩ (c :: cs) := by
  apply at_token hc.1 hc.2.2.1
  simp [token, hc.2.1, hc.2.2.2, hop, hkey]

theorem at_bool (b : Bool) {rest : Bytes} (h : EndsWord rest) :
    At D ⟨if b then .true else .false, none, rest⟩ (boolText b ++ rest) := by
  have hword := isWord_append (w := boolText b) h
  cases b with
  | true =>
      have hkey : keyword (ν := ν) (boolText true ++ rest) = some (.true, 4) := by
        have hvalue : isWord (ascii "value") (boolText true ++ rest) = false :=
          isWord_head (by decide) _ _
        rw [keyword, hvalue, if_neg Bool.false_ne_true]
        exact if_pos hword
      exact at_keyword (by decide) (by simp +decide [operator]) hkey
  | false =>
      have hkey : keyword (ν := ν) (boolText false ++ rest) = some (.false, 5) := by
        have hvalue : isWord (ascii "value") (boolText false ++ rest) = false :=
          isWord_head (by decide) _ _
        have htrue : isWord (ascii "true") (boolText false ++ rest) = false :=
          isWord_head (by decide) _ _
        rw [keyword, hvalue, htrue, if_neg Bool.false_ne_true, if_neg Bool.false_ne_true]
        exact if_pos hword
      exact at_keyword (by decide) (by simp +decide [operator]) hkey

theorem at_value {rest : Bytes} (h : EndsWord rest) :
    At D ⟨.value, none, rest⟩ (ascii "value" ++ rest) := by
  have hkey : keyword (ν := ν) (ascii "value" ++ rest) = some (.value, 5) := by
    rw [keyword, isWord_append h]
    rfl
  exact at_keyword (by decide) (by simp +decide [operator]) hkey

/-! ## What stands behind an operand -/

def loopOp (D : Doubles ν) : Level → Token ν → Option (ν → ν → ν)
  | .arith => arithOp D
  | .and => andOp D
  | .or => orOp D
  | _ => fun _ => none

def Refuses (D : Doubles ν) : Level → Token ν → Prop
  | .primary, _ | .unary, _ => True
  | .arith, tok => arithOp D tok = none
  | .cmp, tok => arithOp D tok = none ∧ cmpOp D tok = none
  | .and, tok => arithOp D tok = none ∧ cmpOp D tok = none ∧ andOp D tok = none
  | .or, tok =>
      arithOp D tok = none ∧ cmpOp D tok = none ∧ andOp D tok = none ∧ orOp D tok = none

structure Follows (D : Doubles ν) (lvl : Level) (rest : Bytes) : Prop where
  ends : EndsWord rest
  refuses : ∀ l, At D l rest → Refuses D lvl l.cur

theorem Refuses.operand {lvl lo : Level} (hlo : lvl.operand = some lo) {tok : Token ν}
    (h : Refuses D lvl tok) : Refuses D lo tok := by
  cases lvl with
  | arith =>
      cases hlo
      exact trivial
  | and =>
      cases hlo
      exact ⟨h.1, h.2.1⟩
  | or =>
      cases hlo
      exact ⟨h.1, h.2.1, h.2.2.1⟩
  | _ => exact absurd hlo (by simp [Level.operand])

theorem Refuses.loopOp {lvl : Level} {tok : Token ν} (h : Refuses D lvl tok) :
    loopOp D lvl tok = none := by
  cases lvl with
  | arith => exact h
  | and => exact h.2.2
  | or => exact h.2.2.2
  | _ => rfl

theorem Follows.operand {lvl lo : Level} (hlo : lvl.operand = some lo) {rest : Bytes}
    (h : Follows D lvl rest) : Follows D lo rest :=
  ⟨h.ends, fun l hl => (h.refuses l hl).operand hlo⟩

theorem endsWord_gap {g x : Bytes} (hg : IsGap g) (hx : EndsWord x) : EndsWord (g ++ x) := by
  cases g with
  | nil => exact hx
  | cons c g =>
      intro d hd
      obtain rfl : c = d := Option.some.inj hd
      have hblank := hg c (by simp)
      refine ⟨?_, ?_⟩
      · by_contra halnum
        rw [Bool.not_eq_false] at halnum
        rw [isBlank_of_isAlnum halnum] at hblank
        exact Bool.false_ne_true hblank
      · rintro rfl
        revert hblank
        decide

theorem endsWord_op {w : Bytes} (hw : w ∈ operatorTexts) (x : Bytes) : EndsWord (w ++ x) := by
  have hall : ∀ w ∈ operatorTexts, ∃ c ∈ w.head?, isAlnum c = false ∧ c ≠ ch '.' := by decide
  obtain ⟨c, hc, h⟩ := hall w hw
  intro d hd
  rw [List.head?_append, Option.mem_def.mp hc] at hd
  obtain rfl : c = d := Option.some.inj hd
  exact h

theorem BinOp.mem_operatorTexts (b : BinOp) : b.text ∈ operatorTexts := by
  cases b <;> decide

theorem CmpOp.mem_operatorTexts (op : CmpOp) : op.text ∈ operatorTexts := by
  cases op <;> decide

theorem follows_binOp {b : BinOp} {lo : Level} (hlo : b.level.operand = some lo) {g : Bytes}
    (hg : IsGap g) (x : Bytes) : Follows D lo (g ++ (b.text ++ x)) := by
  refine ⟨endsWord_gap hg (endsWord_op b.mem_operatorTexts x), ?_⟩
  intro l hl
  rw [at_gap hg] at hl
  cases b with
  | or =>
      cases hlo
      rw [hl.unique (at_binOp .or (by simp))]
      exact ⟨rfl, rfl, rfl⟩
  | and =>
      cases hlo
      rw [hl.unique (at_binOp .and (by simp))]
      exact ⟨rfl, rfl⟩
  | plus =>
      cases hlo
      exact trivial
  | minus =>
      cases hlo
      exact trivial

theorem follows_cmpOp (op : CmpOp) {g x : Bytes} (hg : IsGap g) (hx : x.head? ≠ some (ch '=')) :
    Follows D .arith (g ++ (op.text ++ x)) := by
  refine ⟨endsWord_gap hg (endsWord_op op.mem_operatorTexts x), ?_⟩
  intro l hl
  rw [at_gap hg] at hl
  rw [hl.unique (at_cmpOp op hx)]
  cases op <;> rfl

theorem follows_rparen {g : Bytes} (hg : IsGap g) (x : Bytes) :
    Follows D .or (g ++ (ch ')' :: x)) := by
  have hends : EndsWord (ch ')' :: x) := by
    intro c hc
    obtain rfl : ch ')' = c := Option.some.inj hc
    exact ⟨by decide, by decide⟩
  refine ⟨endsWord_gap hg hends, ?_⟩
  intro l hl
  rw [at_gap hg] at hl
  rw [hl.unique (at_rparen x)]
  exact ⟨rfl, rfl, rfl, rfl⟩

theorem follows_end {g : Bytes} (hg : IsGap g) : Follows D .or g := by
  have hends : EndsWord g := by
    have := endsWord_gap hg (x := []) (fun c hc => absurd hc (by simp))
    rwa [List.append_nil] at this
  refine ⟨hends, ?_⟩
  intro l hl
  rw [← List.append_nil g, at_gap hg, At, lexerAdvance_nil] at hl
  cases hl
  exact ⟨rfl, rfl, rfl, rfl⟩

/-! ## Evaluation -/

def evalLevel (D : Doubles ν) (v : Value) (expr : Eval ν) (n : Nat) : Level → Eval ν
  | .primary => evalPrimary D v expr n
  | .unary => evalUnary D v expr n
  | .arith => evalArith D v expr n
  | .cmp => evalCmp D v expr n
  | .and => evalAnd D v expr n
  | .or => evalOr D v expr n

def Level.spare : Level → Nat
  | primary => 1
  | _ => 2

variable {v : Value}

/-- In front of `rest` the evaluator has the value of the expression, and no `-` of
`rest` is misread if none was in front of it. -/
def Evaluates (D : Doubles ν) (v : Value) (lvl : Level) (e : Expr) (p : Bytes) : Prop :=
  ∀ rest l m n, At D l (p ++ rest) → Follows D lvl rest → ¬HasQuote rest →
    misread false (p ++ rest) = false → (p ++ rest).length + lvl.spare ≤ n →
    (p ++ rest).length + 2 ≤ m →
    misread true rest = false ∧ ∃ l', At D l' rest ∧
      evalLevel D v (evalExpr D v m) n lvl l = .ok (e.rounded D v, l')

/-- The same of the loop of a symbol, behind the operand `left`. -/
def EvaluatesTail (D : Doubles ν) (v : Value) (lvl lo : Level) (left e : Expr) (u : Bytes) : Prop :=
  ∀ rest l m n k, At D l (u ++ rest) → Follows D lvl rest → ¬HasQuote rest →
    misread true (u ++ rest) = false → (u ++ rest).length + 1 ≤ n →
    (u ++ rest).length + 2 ≤ k → (u ++ rest).length + 2 ≤ m →
    misread true rest = false ∧ ∃ l', At D l' rest ∧
      leftLoop D (loopOp D lvl) (evalLevel D v (evalExpr D v m) k lo) n (left.rounded D v) l =
        .ok (e.rounded D v, l')

theorem evaluates_word {e : Expr} {p : Bytes} {tok : Token ν}
    (hat : ∀ rest, EndsWord rest → At D ⟨tok, none, rest⟩ (p ++ rest))
    (hword : ∀ c ∈ p, isAlnum c = true) (hne : p ≠ [])
    (heval : ∀ expr n rest next, lexerAdvance D ⟨tok, none, rest⟩ = .ok next →
      evalPrimary D v expr (n + 1) ⟨tok, none, rest⟩ = .ok (e.rounded D v, next)) :
    Evaluates D v .primary e p := by
  intro rest l m n hl hfollows hquote hsigns hn _
  have hl' := hl.unique (hat rest hfollows.ends)
  obtain ⟨next, hnext⟩ := exists_at (D := D) hquote
  refine ⟨?_, next, hnext, ?_⟩
  · rwa [misread_word hne hword] at hsigns
  · obtain ⟨n, rfl⟩ : ∃ n', n = n' + 1 := ⟨n - 1, by simp only [Level.spare] at hn; omega⟩
    rw [hl']
    apply heval
    rw [← hl', hl.lexerAdvance, hl']
    exact hnext

theorem evaluates_num (hD : ReadsNumerals D) {ds : Bytes} (hds : IsNumeral ds) :
    Evaluates D v .primary (.num (numberOf ds)) ds := by
  have hat : ∀ rest, EndsWord rest →
      At D ⟨.number (D.ofInt (numberOf ds)), none, rest⟩ (ds ++ rest) := by
    intro rest hends
    obtain ⟨d, ds', rfl⟩ := List.exists_cons_of_ne_nil hds.1
    have hd := hds.isAlnum d (by simp)
    have htoken : token D d (ds' ++ rest) =
        (.number (D.ofInt (numberOf (d :: ds'))), (d :: ds').length) :=
      token_plain hD hds hends.endsNumeral rfl
    have hat := at_token (isBlank_of_isAlnum hd) (ne_quote_of_isAlnum hd) htoken
    simpa using hat
  apply evaluates_word hat hds.isAlnum hds.1
  intro expr n rest next h
  rw [evalPrimary, h]
  rfl

theorem evaluates_bool (b : Bool) : Evaluates D v .primary (.bool b) (boolText b) := by
  apply evaluates_word (fun rest hends => at_bool b hends) (isAlnum_boolText b)
    (by cases b <;> decide)
  intro expr n rest next h
  rw [evalPrimary, h]
  cases b <;> rfl

theorem evaluates_value : Evaluates D v .primary .value (ascii "value") := by
  apply evaluates_word (fun rest hends => at_value hends) isAlnum_value (by decide)
  intro expr n rest next h
  rw [evalPrimary, h]
  rfl

theorem evaluates_paren {e : Expr} {g t g' : Bytes} (hg : IsGap g) (hg' : IsGap g')
    (ht : ¬HasQuote t) (ih : Evaluates D v .or e t) :
    Evaluates D v .primary e (ch '(' :: (g ++ (t ++ (g' ++ [ch ')'])))) := by
  intro rest l m n hl _ hquote hsigns hn hm
  have htext : ch '(' :: (g ++ (t ++ (g' ++ [ch ')']))) ++ rest =
      ch '(' :: (g ++ (t ++ (g' ++ ch ')' :: rest))) := by simp
  rw [htext] at hl hsigns hn hm
  have hinner : ¬HasQuote (t ++ (g' ++ ch ')' :: rest)) := by
    have hclose : ¬HasQuote [ch ')'] := by
      unfold HasQuote
      decide
    have hcons : ch ')' :: rest = [ch ')'] ++ rest := rfl
    rw [hcons]
    exact not_hasQuote_append ht (not_hasQuote_append hg'.not_hasQuote
      (not_hasQuote_append hclose hquote))
  have hbehind : ¬HasQuote (g' ++ ch ')' :: rest) :=
    fun h0 => hinner (hasQuote_append.mpr (Or.inr h0))
  obtain ⟨next, hnext⟩ := exists_at (D := D) hinner
  have hl' := hl.unique (at_lparen _)
  have hinside : misread false (t ++ (g' ++ ch ')' :: rest)) = false := by
    rw [misread_cons (by decide) (by decide)] at hsigns
    rw [← misread_gap hg]
    exact hsigns
  simp only [List.length_cons, List.length_append, Level.spare] at hn hm
  obtain ⟨m, rfl⟩ : ∃ m', m = m' + 1 := ⟨m - 1, by omega⟩
  obtain ⟨n, rfl⟩ : ∃ n', n = n' + 1 := ⟨n - 1, by omega⟩
  have hlen : (t ++ (g' ++ ch ')' :: rest)).length + 2 ≤ m := by
    simp only [List.length_cons, List.length_append]
    omega
  obtain ⟨hafter, close, hclose, heval⟩ := ih _ next m m hnext (follows_rparen hg' rest) hbehind
    hinside hlen hlen
  rw [misread_gap hg', misread_cons (by decide) (by decide)] at hafter
  obtain ⟨l', hl''⟩ := exists_at (D := D) hquote
  refine ⟨hafter, l', hl'', ?_⟩
  have hclose' := ((at_gap hg').mp hclose).unique (at_rparen rest)
  have hadv : lexerAdvance D l = .ok next := by
    rw [hl.lexerAdvance, hl', lexerAdvance_gap hg]
    exact hnext
  have hadv' : lexerAdvance D close = .ok l' := by
    rw [hclose.lexerAdvance, hclose']
    exact hl''
  have hexpr : evalExpr D v (m + 1) next = .ok (e.rounded D v, close) := heval
  rw [hl'] at hadv
  rw [hclose'] at hadv' hexpr
  rw [hl', evalLevel, evalPrimary, hadv]
  simp only [bind, Except.bind]
  rw [hexpr]
  simp only
  rw [hadv']

theorem evaluates_unary {e : Expr} {p : Bytes} (h : Evaluates D v .primary e p) :
    Evaluates D v .unary e p := by
  intro rest l m n hl hfollows hquote hsigns hn hm
  simp only [Level.spare] at hn
  obtain ⟨n, rfl⟩ : ∃ n', n = n' + 1 := ⟨n - 1, by omega⟩
  obtain ⟨hafter, l', hl', heval⟩ := h rest l m n hl ⟨hfollows.ends, fun _ _ => trivial⟩ hquote
    hsigns (by simp only [Level.spare]; omega) hm
  refine ⟨hafter, l', hl', ?_⟩
  rw [evalLevel] at heval
  rw [evalLevel]
  unfold evalUnary
  cases hcur : l.cur with
  | not =>
      -- an `eval_primary` on `!` fails
      obtain ⟨n, rfl⟩ : ∃ n', n = n' + 1 := ⟨n - 1, by omega⟩
      rw [evalPrimary, hcur] at heval
      cases hadv : lexerAdvance D l with
      | error stop =>
          rw [hadv] at heval
          exact absurd heval (by simp [bind, Except.bind])
      | ok next =>
          rw [hadv] at heval
          exact absurd heval (by simp [bind, Except.bind])
  | _ => exact heval

theorem gap_head {g t : Bytes} (hg : IsGap g) (ht : StartsExpr t) :
    (g ++ t).head? ≠ some (ch '=') := by
  cases g with
  | nil =>
      obtain ⟨c, cs, rfl, -, hc⟩ := ht
      simpa using hc
  | cons c g =>
      intro hhead
      obtain rfl : c = ch '=' := Option.some.inj hhead
      have hblank := hg _ List.mem_cons_self
      revert hblank
      decide

theorem evaluates_not {e : Expr} {g t : Bytes} (hg : IsGap g) (hstart : StartsExpr t)
    (ht : ¬HasQuote t) (ih : Evaluates D v .unary e t) :
    Evaluates D v .unary (.not e) (ch '!' :: (g ++ t)) := by
  intro rest l m n hl hfollows hquote hsigns hn hm
  have htext : ch '!' :: (g ++ t) ++ rest = ch '!' :: (g ++ (t ++ rest)) := by simp
  rw [htext] at hl hsigns hn hm
  have hbehind : ¬HasQuote (t ++ rest) := not_hasQuote_append ht hquote
  obtain ⟨next, hnext⟩ := exists_at (D := D) hbehind
  have hl' := hl.unique (at_not (gap_head hg (hstart.append rest)))
  have hinside : misread false (t ++ rest) = false := by
    rw [misread_cons (by decide) (by decide)] at hsigns
    rw [← misread_gap hg]
    exact hsigns
  simp only [List.length_cons, List.length_append, Level.spare] at hn hm
  obtain ⟨n, rfl⟩ : ∃ n', n = n' + 1 := ⟨n - 1, by omega⟩
  obtain ⟨hafter, l', hl'', heval⟩ := ih rest next m n hnext hfollows hquote hinside
    (by simp only [List.length_append, Level.spare]; omega)
    (by simp only [List.length_append]; omega)
  refine ⟨hafter, l', hl'', ?_⟩
  have hadv : lexerAdvance D l = .ok next := by
    rw [hl.lexerAdvance, hl', lexerAdvance_gap hg]
    exact hnext
  rw [hl'] at hadv
  rw [hl']
  rw [evalLevel] at heval ⊢
  rw [evalUnary, hadv]
  simp only [bind, Except.bind]
  rw [heval]
  rfl

theorem Spells.numeral {e : Expr} {t : Bytes} (h : Spells (.expr .unary e) t)
    (hdigit : t.head?.any isDigit = true) : IsNumeral t ∧ e = .num (numberOf t) := by
  cases h with
  | primary h =>
      cases h with
      | num hds => exact ⟨hds, rfl⟩
      | str => exact absurd hdigit (by simp +decide)
      | bool b => exact absurd hdigit (by cases b <;> decide)
      | value => exact absurd hdigit (by decide)
      | paren => exact absurd hdigit (by simp +decide)
      | chain hlo => exact absurd hlo (by simp [Level.operand])
  | not => exact absurd hdigit (by simp +decide)
  | neg => exact absurd hdigit (by simp +decide)
  | chain hlo => exact absurd hlo (by simp [Level.operand])

theorem evaluates_neg (hD : ReadsNumerals D) {e : Expr} {g t : Bytes} (hg : IsGap g)
    (he : Spells (.expr .unary e) t) (ht : ¬HasQuote t)
    (ih : t.head? ≠ some (ch '!') → Evaluates D v .primary e t) :
    Evaluates D v .primary (.neg e) (ch '-' :: (g ++ t)) := by
  intro rest l m n hl hfollows hquote hsigns hn hm
  have htext : ch '-' :: (g ++ t) ++ rest = ch '-' :: (g ++ (t ++ rest)) := by simp
  rw [htext] at hl hsigns hn hm
  have hbehind : ¬HasQuote (t ++ rest) := not_hasQuote_append ht hquote
  obtain ⟨c, cs, hcs, hblank, -⟩ := he.startsExpr
  have hbang : t.head? ≠ some (ch '!') := by
    intro hhead
    have hdrop : ((g ++ (t ++ rest)).dropWhile isBlank).head? = some (ch '!') := by
      rw [dropWhile_gap hg, hcs]
      rw [hcs] at hhead
      simpa [hblank] using hhead
    simp [misread, hdrop] at hsigns
  have hinside : misread false (t ++ rest) = false := by
    have hdrop : ((g ++ (t ++ rest)).dropWhile isBlank).head? ≠ some (ch '!') := by
      rw [dropWhile_gap hg, hcs]
      rw [hcs] at hbang
      simpa [hblank] using hbang
    rwa [misread_sign hdrop, misread_gap hg] at hsigns
  simp only [List.length_cons, List.length_append, Level.spare] at hn hm
  obtain ⟨n, rfl⟩ : ∃ n', n = n' + 1 := ⟨n - 1, by omega⟩
  by_cases hdigit : (g ++ (t ++ rest)).head?.any isDigit = true
  · -- the sign becomes part of the numeral
    have hgap : g = [] := by
      cases g with
      | nil => rfl
      | cons d g =>
          have hd : isDigit d = true := hdigit
          have hd' := hg d List.mem_cons_self
          rw [isBlank_of_isAlnum (isAlnum_of_isDigit hd)] at hd'
          exact absurd hd' Bool.false_ne_true
    subst hgap
    have hdt : t.head?.any isDigit = true := by
      rw [hcs] at hdigit ⊢
      exact hdigit
    obtain ⟨hds, rfl⟩ := he.numeral hdt
    have htoken := token_signed hD hds hfollows.ends.endsNumeral
    have hat := hl.unique (at_token (by decide) (by decide) htoken)
    have hdrop : (ch '-' :: ([] ++ (t ++ rest))).drop (t.length + 1) = rest := by simp
    rw [hdrop] at hat
    obtain ⟨next, hnext⟩ := exists_at (D := D) hquote
    rw [misread_word hds.1 hds.isAlnum] at hinside
    refine ⟨hinside, next, hnext, ?_⟩
    have hadv : lexerAdvance D l = .ok next := by
      rw [hl.lexerAdvance, hat]
      exact hnext
    rw [hat] at hadv
    rw [hat, evalLevel, evalPrimary, hadv]
    rfl
  · rw [Bool.not_eq_true] at hdigit
    have hl' : l = ⟨.minus, none, g ++ (t ++ rest)⟩ :=
      hl.unique (at_binOp .minus fun _ => hdigit)
    obtain ⟨next, hnext⟩ := exists_at (D := D) hbehind
    obtain ⟨hafter, l', hl'', heval⟩ := ih hbang rest next m n hnext hfollows hquote hinside
      (by simp only [List.length_append, Level.spare]; omega)
      (by simp only [List.length_append]; omega)
    refine ⟨hafter, l', hl'', ?_⟩
    have hadv : lexerAdvance D l = .ok next := by
      rw [hl.lexerAdvance, hl', lexerAdvance_gap hg]
      exact hnext
    rw [hl'] at hadv
    rw [evalLevel] at heval
    rw [hl', evalLevel, evalPrimary, hadv]
    simp only [bind, Except.bind]
    rw [heval]
    rfl

/-! ## Loops and comparisons -/

theorem loopOp_token {b : BinOp} : loopOp D b.level b.token = some (b.onDoubles D) := by
  cases b <;> rfl

theorem signs_behind_op {b : BinOp} {g x : Bytes} (hg : IsGap g)
    (h : misread true (g ++ (b.text ++ x)) = false) :
    (b = .minus → x.head?.any isDigit = false) ∧ misread false x = false := by
  rw [misread_gap hg] at h
  have hsign : b = .minus → x.head?.any isDigit = false := by
    rintro rfl
    have hascii : BinOp.minus.text = [ch '-'] := rfl
    simp only [hascii, List.singleton_append, misread, decide_true, Bool.true_and, if_true,
      Bool.or_eq_false_iff] at h
    exact h.1
  apply And.intro hsign
  rw [misread_op b.mem_operatorTexts] at h
  · exact h
  · intro hminus
    apply hsign
    revert hminus
    cases b <;> decide

theorem evaluatesTail_last (lvl lo : Level) (e : Expr) : EvaluatesTail D v lvl lo e e [] := by
  intro rest l m n k hl hfollows hquote hsigns hn _ _
  refine ⟨hsigns, l, hl, ?_⟩
  obtain ⟨n, rfl⟩ : ∃ n', n = n' + 1 := ⟨n - 1, by omega⟩
  rw [leftLoop, (hfollows.refuses l hl).loopOp]

theorem evaluatesTail_more {b : BinOp} {lo : Level} {left r e : Expr} {g g' t u : Bytes}
    (hlo : b.level.operand = some lo) (hg : IsGap g) (hg' : IsGap g') (hr : ¬HasQuote t)
    (hu : ¬HasQuote u) (hfollows : ∀ rest, Follows D b.level rest → Follows D lo (u ++ rest))
    (iht : Evaluates D v lo r t) (ihu : EvaluatesTail D v b.level lo (.bin b left r) e u) :
    EvaluatesTail D v b.level lo left e (g ++ (b.text ++ (g' ++ (t ++ u)))) := by
  intro rest l m n k hl hbehind hquote hsigns hn hk hm
  have htext : g ++ (b.text ++ (g' ++ (t ++ u))) ++ rest =
      g ++ (b.text ++ (g' ++ (t ++ (u ++ rest)))) := by simp
  rw [htext] at hl hsigns hn hk hm
  obtain ⟨hsign, hright⟩ := signs_behind_op hg hsigns
  rw [misread_gap hg'] at hright
  have hl' := ((at_gap hg).mp hl).unique (at_binOp b hsign)
  have hurest : ¬HasQuote (u ++ rest) := not_hasQuote_append hu hquote
  have htrest : ¬HasQuote (t ++ (u ++ rest)) := not_hasQuote_append hr hurest
  obtain ⟨next, hnext⟩ := exists_at (D := D) htrest
  have hbtext : 0 < b.text.length := by cases b <;> decide
  have hspare : lo.spare ≤ 2 := by cases lo <;> decide
  simp only [List.length_append] at hn hk hm
  obtain ⟨n, rfl⟩ : ∃ n', n = n' + 1 := ⟨n - 1, by omega⟩
  obtain ⟨hafter, l1, hl1, heval⟩ := iht (u ++ rest) next m k hnext (hfollows rest hbehind) hurest
    hright (by simp only [List.length_append]; omega) (by simp only [List.length_append]; omega)
  obtain ⟨hafter', l', hl'', hloop⟩ := ihu rest l1 m n k hl1 hbehind hquote hafter
    (by simp only [List.length_append]; omega) (by simp only [List.length_append]; omega)
    (by simp only [List.length_append]; omega)
  refine ⟨hafter', l', hl'', ?_⟩
  have hadv : lexerAdvance D l = .ok next := by
    rw [hl.lexerAdvance, hl', lexerAdvance_gap hg']
    exact hnext
  rw [hl'] at hadv
  rw [hl', leftLoop, loopOp_token, hadv]
  simp only [bind, Except.bind]
  rw [heval]
  exact hloop

theorem evalLevel_chained {lvl lo : Level} (hlo : lvl.operand = some lo) (expr : Eval ν) (n : Nat)
    (l : Lexer ν) : evalLevel D v expr n lvl l =
      chained D (loopOp D lvl) (evalLevel D v expr n lo) n l := by
  cases lvl with
  | arith =>
      cases hlo
      rfl
  | and =>
      cases hlo
      rfl
  | or =>
      cases hlo
      rfl
  | _ => exact absurd hlo (by simp [Level.operand])

theorem evaluates_chain {lvl lo : Level} {left e : Expr} {t u : Bytes}
    (hlo : lvl.operand = some lo) (hu : ¬HasQuote u)
    (hfollows : ∀ rest, Follows D lvl rest → Follows D lo (u ++ rest))
    (iht : Evaluates D v lo left t) (ihu : EvaluatesTail D v lvl lo left e u) :
    Evaluates D v lvl e (t ++ u) := by
  intro rest l m n hl hbehind hquote hsigns hn hm
  rw [List.append_assoc] at hl hsigns hn hm
  have hurest : ¬HasQuote (u ++ rest) := not_hasQuote_append hu hquote
  have hspare : lvl.spare = 2 := by
    cases lvl with
    | primary => exact absurd hlo (by simp [Level.operand])
    | _ => rfl
  have hspare' : lo.spare ≤ 2 := by cases lo <;> decide
  simp only [List.length_append] at hn hm
  obtain ⟨hafter, l1, hl1, heval⟩ := iht (u ++ rest) l m n hl (hfollows rest hbehind) hurest hsigns
    (by simp only [List.length_append]; omega) (by simp only [List.length_append]; omega)
  obtain ⟨hafter', l', hl', hloop⟩ := ihu rest l1 m n n hl1 hbehind hquote hafter
    (by simp only [List.length_append]; omega) (by simp only [List.length_append]; omega)
    (by simp only [List.length_append]; omega)
  refine ⟨hafter', l', hl', ?_⟩
  rw [evalLevel_chained hlo, chained, heval]
  exact hloop

theorem evaluates_arith {e : Expr} {t : Bytes} (ih : Evaluates D v .arith e t) :
    Evaluates D v .cmp e t := by
  intro rest l m n hl hfollows hquote hsigns hn hm
  have hbehind : Follows D .arith rest :=
    ⟨hfollows.ends, fun l' hl' => (hfollows.refuses l' hl').1⟩
  obtain ⟨hafter, l', hl', heval⟩ := ih rest l m n hl hbehind hquote hsigns hn hm
  refine ⟨hafter, l', hl', ?_⟩
  rw [evalLevel] at heval
  rw [evalLevel, evalCmp, heval]
  simp only [bind, Except.bind]
  rw [(hfollows.refuses l' hl').2]

theorem cmpOp_token (op : CmpOp) :
    cmpOp D op.token = some fun left right => truth D (op.onDoubles D left right) := by
  cases op <;> rfl

theorem evaluates_cmp {op : CmpOp} {e1 e2 : Expr} {t g g' u : Bytes} (hg : IsGap g)
    (hg' : IsGap g') (hstart : StartsExpr u) (hu : ¬HasQuote u) (ihl : Evaluates D v .arith e1 t)
    (ihr : Evaluates D v .arith e2 u) :
    Evaluates D v .cmp (.cmp op e1 e2) (t ++ (g ++ (op.text ++ (g' ++ u)))) := by
  intro rest l m n hl hfollows hquote hsigns hn hm
  have htext : t ++ (g ++ (op.text ++ (g' ++ u))) ++ rest =
      t ++ (g ++ (op.text ++ (g' ++ (u ++ rest)))) := by simp
  rw [htext] at hl hsigns hn hm
  have hurest : ¬HasQuote (u ++ rest) := not_hasQuote_append hu hquote
  have hop : ¬HasQuote (g ++ (op.text ++ (g' ++ (u ++ rest)))) := by
    have htexts : ∀ w ∈ operatorTexts, w.contains (ch '\'') = false := by decide
    have hw := hg.not_hasQuote_append (htexts _ op.mem_operatorTexts)
    rw [← List.append_assoc]
    exact not_hasQuote_append hw (not_hasQuote_append hg'.not_hasQuote hurest)
  have hhead := gap_head hg' (hstart.append rest)
  have hlen : 0 < op.text.length := by cases op <;> decide
  simp only [List.length_append, Level.spare] at hn hm
  obtain ⟨hafter, l1, hl1, heval⟩ := ihl _ l m n hl (follows_cmpOp op hg hhead) hop hsigns
    (by simp only [List.length_append, Level.spare]; omega)
    (by simp only [List.length_append]; omega)
  have hl1' := ((at_gap hg).mp hl1).unique (at_cmpOp op hhead)
  have hright : misread false (u ++ rest) = false := by
    have hminus : op.text ≠ ascii "-" := by cases op <;> decide
    rwa [misread_gap hg, misread_op op.mem_operatorTexts (fun h => absurd h hminus),
      misread_gap hg'] at hafter
  obtain ⟨next, hnext⟩ := exists_at (D := D) hurest
  have hbehind : Follows D .arith rest :=
    ⟨hfollows.ends, fun l' hl' => (hfollows.refuses l' hl').1⟩
  obtain ⟨hafter', l', hl', heval'⟩ := ihr rest next m n hnext hbehind hquote hright
    (by simp only [List.length_append, Level.spare]; omega)
    (by simp only [List.length_append]; omega)
  refine ⟨hafter', l', hl', ?_⟩
  have hadv : lexerAdvance D l1 = .ok next := by
    rw [hl1.lexerAdvance, hl1', lexerAdvance_gap hg']
    exact hnext
  rw [hl1'] at hadv heval
  rw [evalLevel] at heval heval'
  rw [evalLevel, evalCmp, heval]
  simp only [bind, Except.bind]
  rw [cmpOp_token, hadv]
  simp only
  rw [heval']
  rfl

/-! ## Every text of an expression -/

def Holds (D : Doubles ν) (v : Value) : Phrase → Bytes → Prop
  | .expr .unary e, p =>
      Evaluates D v .unary e p ∧ (p.head? ≠ some (ch '!') → Evaluates D v .primary e p)
  | .expr lvl e, p => Evaluates D v lvl e p
  | .tail lvl left e, u => ∀ lo, lvl.operand = some lo →
      (∀ rest, Follows D lvl rest → Follows D lo (u ++ rest)) ∧ EvaluatesTail D v lvl lo left e u

theorem Holds.evaluates {lvl : Level} {e : Expr} {p : Bytes} (h : Holds D v (.expr lvl e) p) :
    Evaluates D v lvl e p := by
  cases lvl with
  | unary => exact h.1
  | _ => exact h

theorem Evaluates.holds {lvl lo : Level} (hlo : lvl.operand = some lo) {e : Expr} {p : Bytes}
    (h : Evaluates D v lvl e p) : Holds D v (.expr lvl e) p := by
  cases lvl with
  | unary => exact absurd hlo (by simp [Level.operand])
  | _ => exact h

theorem spells_holds (hD : ReadsNumerals D) {ph : Phrase} {p : Bytes} (h : Spells ph p)
    (hquote : ¬HasQuote p) : Holds D v ph p := by
  induction h with
  | num hds => exact evaluates_num hD hds
  | str => exact absurd List.mem_cons_self hquote
  | bool b => exact evaluates_bool b
  | value => exact evaluates_value
  | paren hg _ hg' ih =>
      have ht := fun h0 => hquote (List.mem_cons_of_mem _ (List.mem_append_right _
        (List.mem_append_left _ h0)))
      exact evaluates_paren hg hg' ht (ih ht)
  | primary _ ih => exact ⟨evaluates_unary (ih hquote), fun _ => ih hquote⟩
  | not hg ht ih =>
      have hq := fun h0 => hquote (List.mem_cons_of_mem _ (List.mem_append_right _ h0))
      refine ⟨evaluates_not hg ht.startsExpr hq (ih hq).1, fun hhead => ?_⟩
      exact absurd rfl hhead
  | neg hg ht ih =>
      have hq := fun h0 => hquote (List.mem_cons_of_mem _ (List.mem_append_right _ h0))
      have hprimary := evaluates_neg hD hg ht hq (ih hq).2
      exact ⟨evaluates_unary hprimary, fun _ => hprimary⟩
  | chain hlo _ _ iht ihu =>
      have ht := fun h0 => hquote (List.mem_append_left _ h0)
      have hu := fun h0 => hquote (List.mem_append_right _ h0)
      obtain ⟨hfollows, htail⟩ := ihu hu _ hlo
      exact (evaluates_chain hlo hu hfollows (iht ht).evaluates htail).holds hlo
  | last => exact fun lo hlo => ⟨fun rest h => h.operand hlo, evaluatesTail_last _ lo _⟩
  | more hlo hg hg' _ _ iht ihu =>
      simp only [hasQuote_append, not_or] at hquote
      obtain ⟨-, -, -, ht, hu⟩ := hquote
      intro lo' hlo'
      obtain rfl := Option.some.inj (hlo.symm.trans hlo')
      obtain ⟨hfollows, htail⟩ := ihu hu _ hlo
      refine ⟨?_, evaluatesTail_more hlo hg hg' ht hu hfollows (iht ht).evaluates htail⟩
      intro rest _
      simp only [List.append_assoc]
      exact follows_binOp hlo hg _
  | arith _ ih => exact evaluates_arith (ih hquote)
  | cmp _ hg hg' hr ihl ihr =>
      simp only [hasQuote_append, not_or] at hquote
      obtain ⟨ht, -, -, -, hu⟩ := hquote
      exact evaluates_cmp hg hg' hr.startsExpr hu (ihl ht) (ihr hu)

/-- **The interpreter computes in doubles** the expression whose text it is given. -/
theorem text_complete (hD : ReadsNumerals D) {e : Expr} {text : Bytes} (he : e.IsText text)
    (hquote : ¬HasQuote text) (hsigns : misread false text = false) {n : Nat}
    (hn : text.length + 3 ≤ n) :
    evalText D v n text = .ok (if isTrue D (e.rounded D v) then 1 else 0) := by
  obtain ⟨g, t, g', hg, ht, hg', rfl⟩ := he
  simp only [hasQuote_append, not_or] at hquote
  obtain ⟨-, htq, hgq⟩ := hquote
  have htgq : ¬HasQuote (t ++ g') := not_hasQuote_append htq hgq
  rw [misread_gap hg] at hsigns
  obtain ⟨l, hl⟩ := exists_at (D := D) htgq
  obtain ⟨n, rfl⟩ : ∃ n', n = n' + 1 := ⟨n - 1, by omega⟩
  simp only [List.length_append] at hn
  have hlen : (t ++ g').length + 2 ≤ n := by
    simp only [List.length_append]
    omega
  have hbehind : Follows D .or g' := follows_end hg'
  obtain ⟨-, l', hl', heval⟩ := (spells_holds hD (v := v) ht htq).evaluates g' l n n hl hbehind hgq
    hsigns hlen hlen
  have hend : l'.cur = .eof := by
    rw [← List.append_nil g', at_gap hg', At, lexerAdvance_nil] at hl'
    cases hl'
    rfl
  have hexpr : evalExpr D v (n + 1) l = .ok (e.rounded D v, l') := heval
  have hadv : lexerAdvance D (lexerInit (g ++ (t ++ g'))) = .ok l := by
    rw [lexerAdvance_gap hg]
    exact hl
  rw [evalText, hadv]
  simp only [bind, Except.bind]
  rw [hexpr]
  simp only
  rw [hend]

end

end BlessStar.Schema.CustomValidator
