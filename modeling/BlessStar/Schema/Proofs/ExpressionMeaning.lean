import BlessStar.Schema.Proofs.ExpressionCompleteness

/-!
# Custom validators mean what they say

The interpreter returns the truth value of an expression exactly where no string
literal is in the text, no `-` is misread, and rounding to doubles leaves the truth
value as it is; a text of integers that is no expression is never accepted.
-/

namespace BlessStar.Schema.CustomValidator

open Lib.ByteString
open Gate (ch isBlank)

theorem integersOnly_append {w rest : Bytes} (hw : ∀ c ∈ w, isDigit c = false)
    (h : integersOnly rest = true) : integersOnly (w ++ rest) = true := by
  induction w with
  | nil => exact h
  | cons c w ih =>
      have hc := hw c (by simp)
      have hrest := ih fun d hd => hw d (by simp [hd])
      rw [List.cons_append, integersOnly, hc, hrest]
      simp

theorem integersOnly_numeral {ds rest : Bytes} (hds : ∀ c ∈ ds, isDigit c = true)
    (hends : EndsWord rest) (h : integersOnly rest = true) : integersOnly (ds ++ rest) = true := by
  induction ds with
  | nil => exact h
  | cons c ds ih =>
      have hrest := ih fun d hd => hds d (by simp [hd])
      have hnext : (ds ++ rest).head?.any (fun d => fractionBytes.contains d) = false := by
        cases ds with
        | nil =>
            rw [List.nil_append]
            cases hr : rest.head? with
            | none => rfl
            | some d =>
                have hd := (hends.endsNumeral d hr).2
                simpa using hd
        | cons d ds =>
            have hd := hds d (by simp)
            have hall : ∀ c ∈ fractionBytes, isDigit c = false := by decide
            have hmem : d ∉ fractionBytes := by
              intro h0
              rw [hall d h0] at hd
              exact Bool.false_ne_true hd
            simpa using hmem
      rw [List.cons_append, integersOnly, hnext, hrest]
      simp

theorem isDigit_of_isGap {g : Bytes} (hg : IsGap g) : ∀ c ∈ g, isDigit c = false := by
  intro c hc
  by_contra hdigit
  rw [Bool.not_eq_false] at hdigit
  have hblank := hg c hc
  rw [isBlank_of_isAlnum (isAlnum_of_isDigit hdigit)] at hblank
  exact Bool.false_ne_true hblank

theorem isDigit_of_mem_operatorTexts : ∀ w ∈ operatorTexts, ∀ c ∈ w, isDigit c = false := by
  decide

theorem integersOnly_of_spells {ph : Phrase} {p : Bytes} (h : Spells ph p) (rest : Bytes)
    (hends : EndsWord rest) (hrest : integersOnly rest = true) :
    match ph with
    | .expr _ _ => integersOnly (p ++ rest) = true
    | .tail _ _ _ => EndsWord (p ++ rest) ∧ integersOnly (p ++ rest) = true := by
  induction h generalizing rest with
  | num hds => exact integersOnly_numeral hds.2 hends hrest
  | str => simp [integersOnly]
  | bool b => exact integersOnly_append (by cases b <;> decide) hrest
  | value => exact integersOnly_append (by decide) hrest
  | @paren e g t g' hg _ hg' ih =>
      have hclose : EndsWord (g' ++ ch ')' :: rest) := by
        apply endsWord_gap hg'
        intro c hc
        obtain rfl : ch ')' = c := Option.some.inj hc
        exact ⟨by decide, by decide⟩
      have hrest' : integersOnly (g' ++ ch ')' :: rest) = true := by
        apply integersOnly_append (isDigit_of_isGap hg')
        exact integersOnly_append (w := [ch ')']) (by decide) hrest
      have hinner := integersOnly_append (isDigit_of_isGap hg) (ih _ hclose hrest')
      have hopen := integersOnly_append (w := [ch '(']) (by decide) hinner
      simpa using hopen
  | primary _ ih => exact ih rest hends hrest
  | not hg _ ih =>
      have hinner := integersOnly_append (isDigit_of_isGap hg) (ih rest hends hrest)
      have hbang := integersOnly_append (w := [ch '!']) (by decide) hinner
      simpa using hbang
  | neg hg _ ih =>
      have hinner := integersOnly_append (isDigit_of_isGap hg) (ih rest hends hrest)
      have hminus := integersOnly_append (w := [ch '-']) (by decide) hinner
      simpa using hminus
  | chain _ _ _ iht ihu =>
      obtain ⟨hends', hrest'⟩ := ihu rest hends hrest
      rw [List.append_assoc]
      exact iht _ hends' hrest'
  | last => exact ⟨hends, hrest⟩
  | @more op _ _ _ _ _ _ _ _ _ hg hg' _ _ iht ihu =>
      obtain ⟨hends', hrest'⟩ := ihu rest hends hrest
      have hright := integersOnly_append (isDigit_of_isGap hg') (iht _ hends' hrest')
      have hop := integersOnly_append
        (isDigit_of_mem_operatorTexts _ op.mem_operatorTexts) hright
      have hall := integersOnly_append (isDigit_of_isGap hg) hop
      have hword := fun x => endsWord_gap hg (endsWord_op op.mem_operatorTexts x)
      simp only [List.append_assoc]
      exact ⟨hword _, hall⟩
  | arith _ ih => exact ih rest hends hrest
  | @cmp op _ _ _ _ _ _ _ hg hg' _ ihl ihr =>
      have hright := integersOnly_append (isDigit_of_isGap hg') (ihr rest hends hrest)
      have hop := integersOnly_append
        (isDigit_of_mem_operatorTexts _ op.mem_operatorTexts) hright
      have hall := integersOnly_append (isDigit_of_isGap hg) hop
      have hword := fun x => endsWord_gap hg (endsWord_op op.mem_operatorTexts x)
      simp only [List.append_assoc]
      exact ihl _ (hword _) hall

theorem Expr.IsText.integersOnly {e : Expr} {text : Bytes} (h : e.IsText text) :
    integersOnly text = true := by
  obtain ⟨g, t, g', hg, ht, hg', rfl⟩ := h
  have hends : EndsWord g' := by
    have := endsWord_gap hg' (x := []) (fun c hc => absurd hc (by simp))
    rwa [List.append_nil] at this
  have hrest : CustomValidator.integersOnly g' = true := by
    rw [← List.append_nil g']
    exact integersOnly_append (isDigit_of_isGap hg') rfl
  exact integersOnly_append (isDigit_of_isGap hg) (integersOnly_of_spells ht g' hends hrest)

def Expr.HasNoStr : Expr → Prop
  | .str _ => False
  | .num _ | .bool _ | .value => True
  | .not e | .neg e => e.HasNoStr
  | .bin _ l r | .cmp _ l r => l.HasNoStr ∧ r.HasNoStr

theorem hasNoStr_of_spells {ph : Phrase} {p : Bytes} (h : Spells ph p) (hquote : ¬HasQuote p) :
    match ph with
    | .expr _ e => e.HasNoStr
    | .tail _ left e => left.HasNoStr → e.HasNoStr := by
  induction h with
  | num => exact trivial
  | str => exact absurd List.mem_cons_self hquote
  | bool => exact trivial
  | value => exact trivial
  | paren _ _ _ ih =>
      exact ih fun h0 => hquote (List.mem_cons_of_mem _ (List.mem_append_right _
        (List.mem_append_left _ h0)))
  | primary _ ih => exact ih hquote
  | not _ _ ih => exact ih fun h0 => hquote (List.mem_cons_of_mem _ (List.mem_append_right _ h0))
  | neg _ _ ih => exact ih fun h0 => hquote (List.mem_cons_of_mem _ (List.mem_append_right _ h0))
  | chain _ _ _ iht ihu =>
      simp only [hasQuote_append, not_or] at hquote
      exact ihu hquote.2 (iht hquote.1)
  | last => exact id
  | more _ _ _ _ _ iht ihu =>
      simp only [hasQuote_append, not_or] at hquote
      exact fun hleft => ihu hquote.2.2.2.2 ⟨hleft, iht hquote.2.2.2.1⟩
  | arith _ ih => exact ih hquote
  | cmp _ _ _ _ ihl ihr =>
      simp only [hasQuote_append, not_or] at hquote
      exact ⟨ihl hquote.1, ihr hquote.2.2.2.2⟩

section

variable {ν : Type} {D : Doubles ν} {rep : ν → Int → Prop} (hx : ExactIntegers D rep) {v : Value}

include hx

theorem rep_truth (b : Bool) : rep (truth D b) (if b then 1 else 0) := by
  unfold truth
  cases b with
  | true => exact hx.ofInt (by decide)
  | false => exact hx.ofInt (by decide)

theorem isTrue_eq {x : ν} {n : Int} (h : rep x n) : isTrue D x = decide (n ≠ 0) := by
  have hzero : rep (D.ofInt 0) 0 := hx.ofInt (by decide)
  rw [isTrue, hx.eq h hzero, decide_not]

/-- What a double has to be, for an expression that denotes `d`. -/
def Agrees (D : Doubles ν) (rep : ν → Int → Prop) (v : Value) (e : Expr) : Datum → Prop
  | .int n => rep (e.rounded D v) n
  | .text s => e = .value ∧ v = .str s

omit hx in
theorem meaning_ofBool {b : Bool} : Datum.ofBool b = .int (if b then 1 else 0) := rfl

theorem agrees_ofBool {e : Expr} {b : Bool} (h : e.rounded D v = truth D b) :
    Agrees D rep v e (.ofBool b) := by
  rw [meaning_ofBool, Agrees, h]
  exact rep_truth hx b

omit hx in
theorem eq_int_of_int? {o : Option Datum} {n : Int} (h : o.bind Datum.int? = some n) :
    o = some (.int n) := by
  cases o with
  | none => exact absurd h (by simp)
  | some d =>
      cases d with
      | int m =>
          obtain rfl : m = n := Option.some.inj h
          rfl
      | text s => exact absurd h (by simp [Datum.int?])

theorem rounded_agrees (hnan : ∀ s, v = .str s → D.eq (D.strtod s).1 (D.strtod s).1 = true)
    {e : Expr} (hstr : e.HasNoStr) (hsmall : e.IsSmall v) {d : Datum}
    (hd : e.meaning v = some d) : Agrees D rep v e d := by
  induction e generalizing d with
  | num n =>
      cases hd
      exact hx.ofInt hsmall
  | str s => exact hstr.elim
  | bool b =>
      cases hd
      exact agrees_ofBool hx rfl
  | value =>
      cases v with
      | i32 n =>
          cases hd
          exact hx.ofInt (hsmall _ rfl)
      | i64 n =>
          cases hd
          exact hx.ofInt (hsmall _ rfl)
      | bool b =>
          cases hd
          exact agrees_ofBool hx rfl
      | str s =>
          cases hd
          exact ⟨rfl, rfl⟩
      | _ => exact absurd hd (by simp [Expr.meaning, valueDatum])
  | not e ih =>
      obtain ⟨n, hn, rfl⟩ := Option.map_eq_some_iff.mp hd
      have hrep : rep (e.rounded D v) n := ih hstr hsmall (eq_int_of_int? hn)
      apply agrees_ofBool hx
      rw [Expr.rounded, isTrue_eq hx hrep]
      simp
  | neg e ih =>
      obtain ⟨n, hn, rfl⟩ := Option.map_eq_some_iff.mp hd
      have hrep : rep (e.rounded D v) n := ih hstr hsmall (eq_int_of_int? hn)
      exact hx.neg hrep
  | bin op l r ihl ihr =>
      have hbin := hd
      obtain ⟨m, hm, hd⟩ := Option.bind_eq_some_iff.mp hd
      obtain ⟨n, hn, rfl⟩ := Option.map_eq_some_iff.mp hd
      have hl : rep (l.rounded D v) m := ihl hstr.1 hsmall.1 (eq_int_of_int? hm)
      have hr : rep (r.rounded D v) n := ihr hstr.2 hsmall.2.1 (eq_int_of_int? hn)
      cases op with
      | or =>
          apply agrees_ofBool hx
          simp only [Expr.rounded, BinOp.onDoubles, isTrue_eq hx hl, isTrue_eq hx hr]
      | and =>
          apply agrees_ofBool hx
          simp only [Expr.rounded, BinOp.onDoubles, isTrue_eq hx hl, isTrue_eq hx hr]
      | plus => exact hx.add hl hr (hsmall.2.2 _ hbin)
      | minus => exact hx.sub hl hr (hsmall.2.2 _ hbin)
  | cmp op l r ihl ihr =>
      obtain ⟨a, ha, hd⟩ := Option.bind_eq_some_iff.mp hd
      obtain ⟨b, hb, hd⟩ := Option.bind_eq_some_iff.mp hd
      obtain ⟨t, ht, rfl⟩ := Option.map_eq_some_iff.mp hd
      have hl := ihl hstr.1 hsmall.1 ha
      have hr := ihr hstr.2 hsmall.2 hb
      apply agrees_ofBool hx
      rw [Expr.rounded]
      cases a with
      | int m =>
          cases b with
          | int n =>
              obtain rfl : op.onInts m n = t := Option.some.inj ht
              cases op with
              | eq => simp [CmpOp.onDoubles, CmpOp.onInts, hx.eq hl hr]
              | ne => simp [CmpOp.onDoubles, CmpOp.onInts, hx.eq hl hr]
              | gt => simp [CmpOp.onDoubles, CmpOp.onInts, hx.lt hr hl]
              | lt => simp [CmpOp.onDoubles, CmpOp.onInts, hx.lt hl hr]
              | ge => simp [CmpOp.onDoubles, CmpOp.onInts, hx.le hr hl]
              | le => simp [CmpOp.onDoubles, CmpOp.onInts, hx.le hl hr]
          | text s => exact absurd ht (by simp [CmpOp.onData])
      | text s =>
          cases b with
          | int n => exact absurd ht (by simp [CmpOp.onData])
          | text s' =>
              obtain ⟨rfl, hv⟩ := hl
              obtain ⟨rfl, hv'⟩ := hr
              obtain rfl : s = s' := Value.str.inj (hv.symm.trans hv')
              have hself := hnan s hv
              cases op with
              | eq =>
                  obtain rfl : decide (s = s) = t := Option.some.inj ht
                  simp [CmpOp.onDoubles, Expr.rounded, hv, valueToNumber, hself]
              | ne =>
                  obtain rfl : decide (s ≠ s) = t := Option.some.inj ht
                  simp [CmpOp.onDoubles, Expr.rounded, hv, valueToNumber, hself]
              | _ => exact absurd ht (by simp [CmpOp.onData, CmpOp.onTexts])

theorem roundsWell_of_isSmall
    (hnan : ∀ s, v = .str s → D.eq (D.strtod s).1 (D.strtod s).1 = true) {e : Expr}
    (hstr : e.HasNoStr) (hsmall : e.IsSmall v) {b : Bool} (hb : e.truthValue v = some b) :
    e.RoundsWell D v := by
  obtain ⟨n, hn, rfl⟩ := Option.map_eq_some_iff.mp hb
  have hrep : rep (e.rounded D v) n := rounded_agrees hx hnan hstr hsmall (eq_int_of_int? hn)
  rw [Expr.RoundsWell, hb, isTrue_eq hx hrep]

end

section

variable {ν : Type} {D : Doubles ν} {v : Value}

theorem evalText_ne_syntaxError (n : Nat) (text : Bytes) :
    evalText D v n text ≠ .error .syntaxError := by
  unfold evalText
  cases hadv : lexerAdvance D (lexerInit text) with
  | error stop =>
      rw [(advance_error hadv).1]
      simp [bind, Except.bind]
  | ok l =>
      simp only [bind, Except.bind]
      cases evalExpr D v n l with
      | ok r =>
          simp only
          split <;> simp
      | error stop => cases stop <;> simp

theorem Returns.unique {text : Bytes} {rc rc' : Int} (h : Returns D v text rc)
    (h' : Returns D v text rc') : rc = rc' := by
  obtain ⟨n, hn⟩ := h
  obtain ⟨n', hn'⟩ := h'
  have heq := (hn _ (Nat.le_max_left n n')).symm.trans (hn' _ (Nat.le_max_right n n'))
  exact Except.ok.inj heq

variable (hD : ReadsNumerals D)

include hD

theorem accepted_of_returns {text : Bytes} (hint : integersOnly text = true) {rc : Int}
    (h : Returns D v text rc) (hrc : rc ≠ -1) : Accepted text := by
  obtain ⟨n, hn⟩ := h
  have hsound := text_sound hD (v := v) hint (Nat.le_max_right n (text.length + 3))
  rw [hn _ (Nat.le_max_left n _)] at hsound
  exact hsound hrc

theorem returns_of_isText {e : Expr} {text : Bytes} (he : e.IsText text) (hquote : ¬HasQuote text)
    (hsigns : misread false text = false) :
    Returns D v text (if isTrue D (e.rounded D v) then 1 else 0) :=
  ⟨text.length + 3, fun _ hm => text_complete hD he hquote hsigns hm⟩

theorem returns_error {text : Bytes} (hint : integersOnly text = true) (hquote : ¬HasQuote text)
    (h : ¬Accepted text) : Returns D v text (-1) := by
  refine ⟨text.length + 3, fun m hm => ?_⟩
  have hsound := text_sound hD (v := v) hint hm
  cases heval : evalText D v m text with
  | error stop =>
      rw [heval] at hsound
      cases stop with
      | undefined => exact absurd hsound hquote
      | syntaxError => exact absurd heval (evalText_ne_syntaxError m text)
      | fuel => exact hsound.elim
  | ok rc =>
      rw [heval] at hsound
      by_contra hrc
      exact h (hsound fun h0 => hrc (congrArg Except.ok h0))

end

/-- Doubles that hold every integer, as real ones do up to 2^53. -/
def wholeDoubles : Doubles Int where
  strtod s :=
    if s.head? = some (ch '-') then
      (-(numberOf ((s.drop 1).takeWhile isDigit)), ((s.drop 1).takeWhile isDigit).length + 1)
    else (numberOf (s.takeWhile isDigit), (s.takeWhile isDigit).length)
  ofInt n := n
  ofFloat _ := 0
  add := (· + ·)
  sub := (· - ·)
  neg x := -x
  eq x y := x = y
  lt x y := x < y
  le x y := x ≤ y

theorem takeWhile_numeral {ds rest : Bytes} (hds : IsNumeral ds) (hrest : EndsNumeral rest) :
    (ds ++ rest).takeWhile isDigit = ds := by
  rw [List.takeWhile_append_of_pos hds.2]
  cases rest with
  | nil => simp
  | cons c rest => simp [(hrest c rfl).1]

theorem readsNumerals_wholeDoubles : ReadsNumerals wholeDoubles where
  plain ds rest hds hrest := by
    have hhead : (ds ++ rest).head? ≠ some (ch '-') := by
      obtain ⟨d, ds', rfl⟩ := List.exists_cons_of_ne_nil hds.1
      have hd := ne_minus_of_isAlnum (hds.isAlnum d (by simp))
      simpa using hd
    simp only [wholeDoubles, if_neg hhead, takeWhile_numeral hds hrest]
  signed ds rest hds hrest := by
    simp only [wholeDoubles, List.head?_cons, if_true, List.drop_succ_cons, List.drop_zero,
      takeWhile_numeral hds hrest]

theorem isGap_space : IsGap (ascii " ") := by
  unfold IsGap
  decide

theorem spells_value : Spells (.expr .arith .value) (ascii "value" ++ []) :=
  .chain rfl (.primary .value) .last

theorem isNumeral_single {c : UInt8} (hc : isDigit c = true) : IsNumeral [c] :=
  ⟨by simp, by simpa using hc⟩

end BlessStar.Schema.CustomValidator
