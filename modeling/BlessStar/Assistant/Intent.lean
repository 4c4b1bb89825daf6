import BlessStar.Assistant.ExecutionTrace
import BlessStar.Lib.Occurrence

/-!
# Rules in sentences

`trie_dict.ts` and `trie_matcher.ts`: a sentence is compressed to an operation,
a domain and a rule, and the rule is an operator phrase with the number beside
it.  The words of the domains are registered by business adapters, so their
table is a parameter.
-/

namespace BlessStar.Assistant

open Lib.Occurrence Lib.Utf8Text

inductive RuleOp
  | gt
  | gte
  | lt
  | lte
  | eq
  | ne
  | isIn
  | notIn
  deriving DecidableEq, Repr

structure RuleFragment where
  op : RuleOp
  value : Utf16
  deriving DecidableEq, Repr

inductive Operation
  | read
  | write
  | gate
  | schema
  | search
  | list
  deriving DecidableEq, Repr

structure BlessStarIntent where
  domain : Utf16
  value : Option Utf16 := none
  operation : Operation
  rule : Option RuleFragment := none
  deriving DecidableEq, Repr

def opKw : List (Utf16 × Operation) :=
  [("改成", .write), ("改为", .write), ("设为", .write), ("设置", .write), ("写入", .write),
    ("修改", .write), ("更新", .write), ("变更", .write), ("禁用", .gate), ("启用", .gate),
    ("开启", .gate), ("关闭", .gate), ("限制", .gate), ("校验", .gate), ("检查", .gate),
    ("审核", .gate), ("删除", .schema), ("移除", .schema), ("新增", .schema), ("添加", .schema),
    ("查看", .read), ("读取", .read), ("显示", .list), ("列出", .list), ("搜索", .search),
    ("查找", .search)].map fun kw => (utf16Of kw.1, kw.2)

/-- `OP_MAP`, whose entries come in the order they are written in. -/
def opMap : List (Utf16 × RuleOp) :=
  [("大于", .gt), ("超过", .gt), ("高于", .gt), (">", .gt), ("小于", .lt), ("低于", .lt),
    ("<", .lt), ("等于", .eq), ("=", .eq), ("==", .eq), ("不等于", .ne), ("!=", .ne),
    ("大于等于", .gte), ("≥", .gte), (">=", .gte), ("小于等于", .lte), ("≤", .lte),
    ("<=", .lte), ("包含", .isIn), ("属于", .isIn), ("不包含", .notIn),
    ("不属于", .notIn)].map fun kw => (utf16Of kw.1, kw.2)

/-- `\d`. -/
def isDigitUnit (c : UInt16) : Bool := decide (48 ≤ c ∧ c ≤ 57)

/-- `[\d,.]`. -/
def isNumberUnit (c : UInt16) : Bool := isDigitUnit c || c = 44 || c = 46

/-- `\s`. -/
def isSpaceUnit (c : UInt16) : Bool :=
  decide ((9 ≤ c ∧ c ≤ 13) ∨ c = 32 ∨ c = 0xA0 ∨ c = 0x1680 ∨ (0x2000 ≤ c ∧ c ≤ 0x200A) ∨
    c = 0x2028 ∨ c = 0x2029 ∨ c = 0x202F ∨ c = 0x205F ∨ c = 0x3000 ∨ c = 0xFEFF)

/-- `/(\d[\d,.]*)/`. -/
def matchNumber : Utf16 → Option Utf16
  | [] => none
  | c :: s => if isDigitUnit c then some ((c :: s).takeWhile isNumberUnit) else matchNumber s

/-- `/(\d[\d,.]*)\s*$/`. -/
def matchNumberAtEnd : Utf16 → Option Utf16
  | [] => none
  | c :: s =>
      if isDigitUnit c ∧ ((c :: s).dropWhile isNumberUnit).all isSpaceUnit then
        some ((c :: s).takeWhile isNumberUnit)
      else matchNumberAtEnd s

/-- `/^\s*(\d[\d,.]*)/`. -/
def matchNumberAtStart (s : Utf16) : Option Utf16 :=
  match s.dropWhile isSpaceUnit with
  | [] => none
  | c :: s => if isDigitUnit c then some ((c :: s).takeWhile isNumberUnit) else none

/-- `.replace(/,/g, '')`. -/
def withoutCommas (s : Utf16) : Utf16 := s.filter (· ≠ 44)

def includes (sentence kw : Utf16) : Bool := (firstIndex kw sentence).isSome

def findLongestKeyword {α : Type} (sentence : Utf16) (table : List (Utf16 × α)) :
    Option (Utf16 × α) :=
  table.foldl (fun best kw =>
    if includes sentence kw.1 then
      match best with
      | none => some kw
      | some b => if b.1.length < kw.1.length then some kw else some b
    else best) none

/-- `numMatch`: the number in front of the phrase, or else behind it. -/
def numMatch (sentence phrase : Utf16) : Option Utf16 :=
  match firstIndex phrase sentence with
  | none => none
  | some idx =>
      match matchNumberAtEnd (sentence.take idx) with
      | some number => some number
      | none => matchNumberAtStart (sentence.drop (idx + phrase.length))

def numOnly (sentence : Utf16) : Option RuleFragment :=
  (matchNumber sentence).map fun number =>
    if includes sentence (utf16Of "以上") ∨ includes sentence (utf16Of "超过") then
      ⟨.gte, withoutCommas number⟩
    else if includes sentence (utf16Of "以下") ∨ includes sentence (utf16Of "低于") then
      ⟨.lt, withoutCommas number⟩
    else ⟨.eq, withoutCommas number⟩

def extractRuleFragment (sentence : Utf16) : Option RuleFragment :=
  match opMap.findSome? fun entry =>
    (numMatch sentence entry.1).map fun raw => ⟨entry.2, withoutCommas raw⟩ with
  | some rule => some rule
  | none => numOnly sentence

def compressIntent (domainKw : List (Utf16 × Utf16)) (sentence : Utf16) : Option BlessStarIntent :=
  if sentence = [] then none
  else
    match findLongestKeyword sentence opKw, findLongestKeyword sentence domainKw with
    | some opMatch, some domainMatch =>
        match extractRuleFragment sentence with
        | some rule =>
            some { domain := domainMatch.2, operation := opMatch.2, rule := some rule }
        | none =>
            some { domain := domainMatch.2, operation := opMatch.2,
                   value := (matchNumber sentence).map withoutCommas }
    | _, _ => none

structure Numeral where
  whole : Utf16
  groups : List Utf16
  fraction : Utf16
  whole_ne : whole ≠ []
  digits : ∀ c ∈ whole ++ groups.flatten ++ fraction, isDigitUnit c
  groups_three : ∀ g ∈ groups, g.length = 3

def Numeral.text (n : Numeral) : Utf16 :=
  n.whole ++ n.groups.flatMap (44 :: ·) ++ if n.fraction = [] then [] else 46 :: n.fraction

/-- A sentence with one maximal operator phrase and a number directly behind it.
Where any phrase stands in it, it stands inside the maximal one. -/
structure PhrasedSentence where
  before : Utf16
  phrase : Utf16
  op : RuleOp
  number : Numeral
  after : Utf16
  mem_opMap : (phrase, op) ∈ opMap
  maximal : ∀ entry ∈ opMap, ∀ i < (before ++ phrase ++ (number.text ++ after)).length,
    entry.1 <+: (before ++ phrase ++ (number.text ++ after)).drop i →
      before.length ≤ i ∧ i + entry.1.length ≤ before.length + phrase.length
  digitless_before : ∀ c ∈ before, ¬isDigitUnit c
  digitless_after : ∀ c ∈ after, ¬isDigitUnit c

namespace PhrasedSentence

variable (s : PhrasedSentence)

def text : Utf16 := s.before ++ s.phrase ++ (s.number.text ++ s.after)

def rule : RuleFragment := ⟨s.op, withoutCommas s.number.text⟩

/-- The rule is read from the sentence, and stands in every triple of it. -/
structure ReadInFull : Prop where
  fragment : extractRuleFragment s.text = some s.rule
  intent : ∀ domainKw intent, compressIntent domainKw s.text = some intent →
    intent.rule = some s.rule

def EndsOwn : Prop := ∀ entry ∈ opMap, entry.1 <:+ s.phrase → entry.2 = s.op

instance : Decidable s.EndsOwn := inferInstanceAs (Decidable (∀ entry ∈ opMap, _))

def EndsNumeral : Prop := 46 ∉ s.after.takeWhile isNumberUnit

end PhrasedSentence

variable {s t : Utf16} {c : UInt16}

theorem matchNumberAtEnd_digitless (h : ∀ c ∈ s, ¬isDigitUnit c) : matchNumberAtEnd s = none := by
  induction s with
  | nil => rfl
  | cons c s ih =>
      rw [List.forall_mem_cons] at h
      rw [matchNumberAtEnd, if_neg fun hc => h.1 hc.1]
      exact ih h.2

theorem not_space_of_digit (h : isDigitUnit c) : ¬isSpaceUnit c := by
  simp only [isDigitUnit, decide_eq_true_eq, UInt16.le_iff_toNat_le] at h
  simp only [isSpaceUnit, decide_eq_true_eq, UInt16.le_iff_toNat_le, ← UInt16.toNat_inj]
  simp only [UInt16.reduceToNat] at h ⊢
  omega

theorem matchNumberAtStart_digit (h : isDigitUnit c) (s : Utf16) :
    matchNumberAtStart (c :: s) = some ((c :: s).takeWhile isNumberUnit) := by
  rw [matchNumberAtStart, List.dropWhile_cons_of_neg (not_space_of_digit h)]
  exact if_pos h

theorem matchNumberAtStart_other (hdigit : ¬isDigitUnit c) (hspace : ¬isSpaceUnit c) (s : Utf16) :
    matchNumberAtStart (c :: s) = none := by
  rw [matchNumberAtStart, List.dropWhile_cons_of_neg hspace]
  exact if_neg hdigit

theorem plain_of_mem_opMap {entry : Utf16 × RuleOp} (h : entry ∈ opMap) :
    entry.1 ≠ [] ∧ ∀ c ∈ entry.1, ¬isDigitUnit c ∧ ¬isSpaceUnit c := by
  have hall : ∀ entry ∈ opMap, entry.1 ≠ [] ∧
      entry.1.all (fun c => !isDigitUnit c && !isSpaceUnit c) := by
    decide +kernel
  simpa using hall entry h

namespace Numeral

variable (n : Numeral)

theorem forall_mem_text : ∀ c ∈ n.text, isNumberUnit c := by
  have hdigits := n.digits
  simp only [List.mem_append, List.mem_flatten] at hdigits
  intro c hc
  have hunit : ∀ c, isDigitUnit c → isNumberUnit c := fun c hc => by simp [isNumberUnit, hc]
  simp only [text, List.mem_append, List.mem_flatMap, List.mem_cons] at hc
  rcases hc with (hc | ⟨g, hg, rfl | hc⟩) | hc
  · exact hunit c (hdigits c (Or.inl (Or.inl hc)))
  · decide
  · exact hunit c (hdigits c (Or.inl (Or.inr ⟨g, hg, hc⟩)))
  · split at hc
    · simp at hc
    · rcases List.mem_cons.mp hc with rfl | hc
      · decide
      · exact hunit c (hdigits c (Or.inr hc))

theorem exists_digit : ∃ c s, n.text = c :: s ∧ isDigitUnit c := by
  obtain ⟨c, s, hwhole⟩ := List.exists_cons_of_ne_nil n.whole_ne
  refine ⟨c, s ++ n.groups.flatMap (44 :: ·) ++ if n.fraction = [] then [] else 46 :: n.fraction,
    ?_, ?_⟩
  · rw [text, hwhole]
    rfl
  · exact n.digits c (by simp [hwhole])

end Numeral

def endsFirst (entry phrase : Utf16) : Bool :=
  decide (firstIndex entry phrase = some (phrase.length - entry.length))

def opRead (phrase : Utf16) : Option RuleOp :=
  opMap.findSome? fun entry => if endsFirst entry.1 phrase then some entry.2 else none

theorem exists_opRead {entry : Utf16 × RuleOp} (h : entry ∈ opMap) : ∃ op, opRead entry.1 = some op :=
  Option.isSome_iff_exists.mp
    ((by decide +kernel : ∀ entry ∈ opMap, (opRead entry.1).isSome) entry h)

theorem opRead_eq_iff {entry : Utf16 × RuleOp} (h : entry ∈ opMap) :
    opRead entry.1 = some entry.2 ↔ ∀ e ∈ opMap, e.1 <:+ entry.1 → e.2 = entry.2 :=
  (by decide +kernel : ∀ entry ∈ opMap, opRead entry.1 = some entry.2 ↔
    ∀ e ∈ opMap, e.1 <:+ entry.1 → e.2 = entry.2) entry h

namespace PhrasedSentence

variable (s : PhrasedSentence)

def run : Utf16 := s.number.text ++ s.after.takeWhile isNumberUnit

theorem takeWhile_number : (s.number.text ++ s.after).takeWhile isNumberUnit = s.run :=
  List.takeWhile_append_of_pos s.number.forall_mem_text

theorem firstIndex_text {entry : Utf16 × RuleOp} (h : entry ∈ opMap) :
    firstIndex entry.1 s.text = (firstIndex entry.1 s.phrase).map (s.before.length + ·) := by
  apply firstIndex_middle
  intro i hi
  refine s.maximal entry h i ?_ hi
  by_contra hlen
  rw [List.drop_of_length_le (by omega), List.prefix_nil] at hi
  exact (plain_of_mem_opMap h).1 hi

theorem numMatch_text {entry : Utf16 × RuleOp} (h : entry ∈ opMap) :
    numMatch s.text entry.1 = if endsFirst entry.1 s.phrase then some s.run else none := by
  obtain ⟨-, hplain⟩ := plain_of_mem_opMap s.mem_opMap
  rw [numMatch, s.firstIndex_text h, endsFirst]
  cases hidx : firstIndex entry.1 s.phrase with
  | none => simp
  | some k =>
      have hk := (firstIndex_eq_some.mp hidx).1
      have hlen := hk.length_le
      rw [List.length_drop] at hlen
      have hne := List.length_pos_of_ne_nil (plain_of_mem_opMap h).1
      have htake : s.text.take (s.before.length + k) = s.before ++ s.phrase.take k := by
        rw [text, List.append_assoc, List.take_length_add_append,
          List.take_append_of_le_length (by omega)]
      have hdrop : s.text.drop (s.before.length + k + entry.1.length) =
          s.phrase.drop (k + entry.1.length) ++ (s.number.text ++ s.after) := by
        rw [text, List.append_assoc, Nat.add_assoc, List.drop_length_add_append,
          List.drop_append_of_le_length (by omega)]
      have hbefore : matchNumberAtEnd (s.before ++ s.phrase.take k) = none := by
        apply matchNumberAtEnd_digitless
        intro c hc
        rcases List.mem_append.mp hc with hc | hc
        · exact s.digitless_before c hc
        · exact (hplain c (List.mem_of_mem_take hc)).1
      simp only [Option.map_some, htake, hbefore, hdrop, Option.some.injEq, decide_eq_true_eq]
      by_cases hend : k = s.phrase.length - entry.1.length
      · rw [if_pos hend, List.drop_of_length_le (by omega), List.nil_append]
        obtain ⟨c, rest, hnumber, hc⟩ := s.number.exists_digit
        rw [← s.takeWhile_number, hnumber]
        exact matchNumberAtStart_digit hc _
      · rw [if_neg hend]
        obtain ⟨c, rest, hrest⟩ := List.exists_cons_of_ne_nil
          (List.ne_nil_of_length_pos (l := s.phrase.drop (k + entry.1.length))
            (by rw [List.length_drop]; omega))
        have hc := hplain c (List.mem_of_mem_drop (hrest ▸ List.mem_cons_self))
        rw [hrest]
        exact matchNumberAtStart_other hc.1 hc.2 _

theorem extractRuleFragment_text :
    extractRuleFragment s.text = (opRead s.phrase).map (⟨·, withoutCommas s.run⟩) := by
  have hentries : ∀ l, l ⊆ opMap → (l.findSome? fun entry =>
      (numMatch s.text entry.1).map fun raw => (⟨entry.2, withoutCommas raw⟩ : RuleFragment)) =
      (l.findSome? fun entry => if endsFirst entry.1 s.phrase then some entry.2 else none).map
        (⟨·, withoutCommas s.run⟩) := by
    intro l hl
    induction l with
    | nil => rfl
    | cons entry l ih =>
        obtain ⟨hentry, hrest⟩ := List.cons_subset.mp hl
        rw [List.findSome?_cons, List.findSome?_cons, s.numMatch_text hentry]
        by_cases hends : endsFirst entry.1 s.phrase
        · simp [hends]
        · simpa [hends] using ih hrest
  obtain ⟨op, hop⟩ := exists_opRead s.mem_opMap
  rw [extractRuleFragment, hentries opMap fun _ => id, ← opRead, hop]
  rfl

theorem withoutCommas_run : withoutCommas s.run = withoutCommas s.number.text ↔ s.EndsNumeral := by
  have hunits : ∀ c ∈ s.after.takeWhile isNumberUnit, c = 44 ∨ c = 46 := by
    intro c hc
    have hdigit := s.digitless_after c ((List.takeWhile_sublist _).mem hc)
    simpa [isNumberUnit, hdigit] using List.mem_takeWhile_imp hc
  rw [run, withoutCommas, withoutCommas, List.filter_append, List.append_right_eq_self,
    List.filter_eq_nil_iff, EndsNumeral]
  constructor
  · intro h hpoint
    exact h 46 hpoint (by decide)
  · intro h c hc
    rcases hunits c hc with rfl | rfl
    · decide
    · exact absurd hc h

theorem compressIntent_rule {sentence : Utf16} {rule : RuleFragment}
    (h : extractRuleFragment sentence = some rule) {domainKw : List (Utf16 × Utf16)}
    {intent : BlessStarIntent} (hintent : compressIntent domainKw sentence = some intent) :
    intent.rule = some rule := by
  unfold compressIntent at hintent
  rw [h] at hintent
  split at hintent
  · simp at hintent
  · split at hintent
    · rw [← Option.some.inj hintent]
    · simp at hintent

def atLeastFive : PhrasedSentence where
  before := []
  phrase := utf16Of "大于等于"
  op := .gte
  number := ⟨utf16Of "5", [], [], by decide,
    by simpa using (by decide : (utf16Of "5").all isDigitUnit), by simp⟩
  after := []
  mem_opMap := by decide +kernel
  maximal := by decide +kernel
  digitless_before := by simp
  digitless_after := by simp

/-- The number is read with the phrase for an equality. -/
theorem not_readInFull_atLeastFive : ¬atLeastFive.ReadInFull := by
  intro h
  exact absurd h.fragment (by decide +kernel)

/-- The rule is read in full exactly if no phrase of another operator ends the
phrase and no point follows the number. -/
theorem readInFull_iff : s.ReadInFull ↔ s.EndsOwn ∧ s.EndsNumeral := by
  have hread : extractRuleFragment s.text = some s.rule ↔ s.EndsOwn ∧ s.EndsNumeral := by
    obtain ⟨op, hop⟩ := exists_opRead s.mem_opMap
    have howns := opRead_eq_iff s.mem_opMap
    rw [hop, Option.some.injEq] at howns
    rw [s.extractRuleFragment_text, hop, Option.map_some, Option.some.injEq, rule,
      RuleFragment.mk.injEq, s.withoutCommas_run, howns]
    rfl
  constructor
  · exact fun h => hread.mp h.fragment
  · intro h
    have hfragment := hread.mpr h
    exact ⟨hfragment, fun _ _ => compressIntent_rule hfragment⟩

end PhrasedSentence

end BlessStar.Assistant
