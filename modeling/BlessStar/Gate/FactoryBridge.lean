import BlessStar.Gate.RuleLoader
import BlessStar.Lib.UnicodeText

/-!
# The two gate factories

`inferSubCategory` and `buildStableKey` of `GateFactoryBridge.ts` beside
`bs_gate_factory_infer_sub_category` and the factories of the gate chain, which they
mirror.  A rule goes to C as its UTF-8 bytes.
-/

namespace BlessStar.Gate.FactoryBridge

open Lib.ByteString Lib.UnicodeText

structure Text where
  chars : List Char
  noNul : '\x00' ∉ chars
  deriving DecidableEq

inductive GateLayer
  | default
  | policy
  | custom
  deriving DecidableEq

/-- `GateRuleDef`; a missing part is `undefined` here and NULL in `bs_gate_rule_def_t`. -/
structure RuleDef where
  fieldKey : Option Text := none
  op : Option Text := none
  value : Option Text := none
  scenario : Option Text := none
  aiHint : Option Text := none
  layer : Option GateLayer := none
  deriving DecidableEq

namespace RuleDef

def factoryLayer (r : RuleDef) : GateLayer := r.layer.getD .default

end RuleDef

def bytes (t : Option Text) : Option Bytes := t.map fun t => encode t.chars

/-- `bs_gate_factory_infer_sub_category` of a rule; a NULL matches what "" does. -/
def ruleSubCategory (r : RuleDef) : Bytes :=
  Gate.inferSubCategory ((bytes r.op).getD []) ((bytes r.aiHint).getD [])

def produceNode (type : Bytes) (layer : Nat) (r : RuleDef) : GateScalars :=
  let sub := ruleSubCategory r
  let fk := (bytes r.fieldKey).getD (ascii "*")
  -- `snprintf` into a `char[512]`
  let key := ((bytes r.scenario).getD (ascii "default") ++ ascii ":" ++ fk ++ ascii ":" ++
    decimal layer ++ ascii ":" ++ sub).take 511
  { type := some type, id := some key, fieldKey := bytes r.fieldKey, op := bytes r.op,
    value := bytes r.value, stableKey := some key, layer := layer, subCategory := some sub }

def defaultProduce (r : RuleDef) : GateScalars := produceNode (ascii "bs_condition") 0 r

def policyProduce (r : RuleDef) : GateScalars := produceNode (ascii "bs_policy_attr") 1 r

def customProduce (r : RuleDef) : GateScalars := produceNode (ascii "bs_custom_gate") 2 r

/-- The node that the factory of `bs_gate_factory_by_layer` makes of a rule. -/
def factoryNode (r : RuleDef) : GateScalars :=
  match r.factoryLayer with
  | .default => defaultProduce r
  | .policy => policyProduce r
  | .custom => customProduce r

section

variable (toLowerCase : List Char → List Char)

def thresholdKeywords : List String :=
  ["阈值", "threshold", "限制", "limit", "上限", "下限", "max", "min"]

def approvalKeywords : List String := ["审批", "approve", "approval", "审核"]

def alertKeywords : List String := ["告警", "alert", "warn", "提醒"]

def enumCheckKeywords : List String := ["枚举", "enum", "选项"]

def formatKeywords : List String := ["格式", "format", "模式", "pattern"]

def keywordMatch (text : List Char) (keywords : List String) : Bool :=
  let lower := toLowerCase text
  keywords.any fun k => k.toList <:+: lower

/-- `part || ''`, for a text that may be missing. -/
def orEmpty (t : Option Text) : List Char := (t.map Text.chars).getD []

/-- `part || other`. -/
def orElse (t : Option Text) (other : String) : List Char :=
  if orEmpty t = [] then other.toList else orEmpty t

/-- `list.includes(op)`. -/
def includes (list : List String) (op : List Char) : Bool := list.any fun w => op = w.toList

def inferSubCategory (r : RuleDef) : String :=
  let op := orEmpty r.op
  let hint := orEmpty r.aiHint
  if includes ["gt", "lt", "gte", "lte", "range"] op then "threshold"
  else if includes ["eq", "ne"] op ∧ keywordMatch toLowerCase hint enumCheckKeywords then
    "enum_check"
  else if includes ["eq", "ne"] op ∧ keywordMatch toLowerCase hint formatKeywords then "format"
  else if includes ["eq", "ne"] op then "format"
  else if includes ["in"] op then "enum_check"
  else if includes ["match"] op then "format"
  else if keywordMatch toLowerCase hint thresholdKeywords then "threshold"
  else if keywordMatch toLowerCase hint approvalKeywords then "approval"
  else if keywordMatch toLowerCase hint alertKeywords then "alert"
  else if keywordMatch toLowerCase hint enumCheckKeywords then "enum_check"
  else if keywordMatch toLowerCase hint formatKeywords then "format"
  else "threshold"

def layerMap : GateLayer → String
  | .default => "0"
  | .policy => "1"
  | .custom => "2"

def buildStableKey (r : RuleDef) : List Char :=
  let scenario := orElse r.scenario "default"
  let fk := orElse r.fieldKey "*"
  let layer := r.layer.getD .default
  let sub := inferSubCategory toLowerCase r
  scenario ++ ":".toList ++ fk ++ ":".toList ++ (layerMap layer).toList ++ ":".toList ++ sub.toList

end

def hasWord (text : List Char) (words : List String) : Bool := words.any fun w => w.toList <:+: text

def fold (text : List Char) : List Char := text.map Char.toLower

def exactKeywords : List String :=
  ["enum", "枚举", "format", "格式", "阈值", "threshold", "限制", "limit", "上限", "下限", "max", "min",
    "审批", "approve", "approval", "告警", "alert", "warn"]

theorem any_mentions {words : List String} (hwords : words ⊆ exactKeywords) (hint : List Char) :
    words.any (mentions (encode hint)) = hasWord hint words := by
  have hutf8 : ∀ w ∈ exactKeywords, w.toUTF8.toList = encode w.toList ∧ w.toList ≠ [] := by
    decide +kernel
  rw [Bool.eq_iff_iff, hasWord, List.any_eq_true, List.any_eq_true]
  refine exists_congr fun w => and_congr_right fun hw => ?_
  obtain ⟨hbytes, hne⟩ := hutf8 w (hwords hw)
  rw [mentions, hbytes, decide_eq_true_iff, decide_eq_true_iff, encode_infix hne]

def foldedKeywords : List String :=
  thresholdKeywords ++ approvalKeywords ++ alertKeywords ++ enumCheckKeywords ++ formatKeywords

theorem keywordMatch_eq {toLowerCase : List Char → List Char} (hlower : TakesToLowerCase toLowerCase)
    {words : List String} (hwords : words ⊆ foldedKeywords) (text : List Char) :
    keywordMatch toLowerCase text words = hasWord (fold text) words := by
  have hplain : ∀ w ∈ foldedKeywords,
      ((w.toList.all fun c => decide (IsPlain c)) ∧ w.toList.getLast? ≠ some 'i') ∧
        w.toList ≠ [] := by
    decide +kernel
  rw [Bool.eq_iff_iff, keywordMatch, hasWord, List.any_eq_true, List.any_eq_true]
  refine exists_congr fun w => and_congr_right fun hw => ?_
  obtain ⟨hw, hne⟩ := hplain w (hwords hw)
  rw [decide_eq_true_iff, decide_eq_true_iff, hlower.infix_iff ⟨by simpa using hw.1, hw.2⟩ hne, fold]

theorem hasWord_fold {few words : List String} (hfew : few ⊆ words)
    (hlower : ∀ w ∈ few, fold w.toList = w.toList) {text : List Char} (h : hasWord text few) :
    hasWord (fold text) words := by
  rw [hasWord, List.any_eq_true] at h ⊢
  obtain ⟨w, hw, h⟩ := h
  refine ⟨w, hfew hw, ?_⟩
  rw [decide_eq_true_iff] at h ⊢
  rw [← hlower w hw]
  exact h.map Char.toLower

theorem encode_eq_ascii {w : String} (hw : ascii w = encode w.toList) (s : List Char) :
    encode s = ascii w ↔ s = w.toList := by
  rw [hw]
  exact ⟨encode_inj, congrArg encode⟩

/-- The sub-category that C gives to an operator and a hint, as texts. -/
def exactCategory (op hint : List Char) : String :=
  if includes ["eq", "ne"] op then
    if hasWord hint ["enum", "枚举", "format", "格式"] then "enum_check" else "format"
  else if includes ["gt", "lt", "gte", "lte"] op then "threshold"
  else if includes ["in"] op then "enum_check"
  else if includes ["range"] op then "threshold"
  else if includes ["match"] op then "format"
  else if hasWord hint ["阈值", "threshold", "限制", "limit", "上限", "下限", "max", "min"] then
    "threshold"
  else if hasWord hint ["审批", "approve", "approval"] then "approval"
  else if hasWord hint ["告警", "alert", "warn"] then "alert"
  else if hasWord hint ["枚举", "enum"] then "enum_check"
  else "threshold"

theorem inferSubCategory_encode (op hint : List Char) :
    Gate.inferSubCategory (encode op) (encode hint) = ascii (exactCategory op hint) := by
  have hops : ∀ w ∈ ["eq", "ne", "gt", "lt", "gte", "lte", "in", "range", "match"],
      ascii w = encode w.toList := by decide +kernel
  simp only [List.forall_mem_cons, List.not_mem_nil, false_imp_iff, implies_true, and_true] at hops
  obtain ⟨heq, hne, hgt, hlt, hgte, hlte, hin, hrange, hmatch⟩ := hops
  unfold Gate.inferSubCategory
  simp (disch := decide) only [any_mentions]
  simp only [exactCategory, includes, apply_ite ascii, List.any_cons,
    List.any_nil, Bool.or_false, Bool.or_eq_true, decide_eq_true_iff, encode_eq_ascii heq,
    encode_eq_ascii hne, encode_eq_ascii hgt, encode_eq_ascii hlt, encode_eq_ascii hgte,
    encode_eq_ascii hlte, encode_eq_ascii hin, encode_eq_ascii hrange, encode_eq_ascii hmatch]

/-- Where the hint decides: the first list that the folded hint has a word of is the first
that the hint itself has one of. -/
@[mk_iff] structure SameHint (hint : List Char) : Prop where
  threshold : hasWord (fold hint) thresholdKeywords → hasWord hint thresholdKeywords ∨
    (¬ hasWord hint ["审批", "approve", "approval"] ∧ ¬ hasWord hint ["告警", "alert", "warn"] ∧
      ¬ hasWord hint ["枚举", "enum"])
  approval : ¬ hasWord (fold hint) thresholdKeywords → hasWord (fold hint) approvalKeywords →
    hasWord hint ["审批", "approve", "approval"]
  alert : ¬ hasWord (fold hint) thresholdKeywords → ¬ hasWord (fold hint) approvalKeywords →
    hasWord (fold hint) alertKeywords → hasWord hint ["告警", "alert", "warn"]
  enumCheck : ¬ hasWord (fold hint) thresholdKeywords → ¬ hasWord (fold hint) approvalKeywords →
    ¬ hasWord (fold hint) alertKeywords → hasWord (fold hint) enumCheckKeywords →
    hasWord hint ["枚举", "enum"]
  format : ¬ hasWord (fold hint) thresholdKeywords → ¬ hasWord (fold hint) approvalKeywords →
    ¬ hasWord (fold hint) alertKeywords → ¬ hasWord (fold hint) enumCheckKeywords →
    ¬ hasWord (fold hint) formatKeywords

def decidingOps : List String := ["eq", "ne", "gt", "lt", "gte", "lte", "in", "range", "match"]

/-- The operator and the hint of a rule mean one sub-category to both. -/
structure SameCategory (op hint : List Char) : Prop where
  equality : includes ["eq", "ne"] op →
    (hasWord hint ["enum", "枚举", "format", "格式"] ↔ hasWord (fold hint) enumCheckKeywords)
  other : ¬ includes decidingOps op → SameHint hint

def foldedCategory (op hint : List Char) : String :=
  if includes ["gt", "lt", "gte", "lte", "range"] op then "threshold"
  else if includes ["eq", "ne"] op ∧ hasWord (fold hint) enumCheckKeywords then "enum_check"
  else if includes ["eq", "ne"] op ∧ hasWord (fold hint) formatKeywords then "format"
  else if includes ["eq", "ne"] op then "format"
  else if includes ["in"] op then "enum_check"
  else if includes ["match"] op then "format"
  else if hasWord (fold hint) thresholdKeywords then "threshold"
  else if hasWord (fold hint) approvalKeywords then "approval"
  else if hasWord (fold hint) alertKeywords then "alert"
  else if hasWord (fold hint) enumCheckKeywords then "enum_check"
  else if hasWord (fold hint) formatKeywords then "format"
  else "threshold"

theorem category_eq_of_equality {op : List Char} (hop : includes ["eq", "ne"] op) (hint : List Char) :
    exactCategory op hint = foldedCategory op hint ↔
      (hasWord hint ["enum", "枚举", "format", "格式"] ↔ hasWord (fold hint) enumCheckKeywords) := by
  have hcompare : ¬ includes ["gt", "lt", "gte", "lte", "range"] op := by
    simp only [includes, List.any_cons, List.any_nil, Bool.or_false, Bool.or_eq_true,
      decide_eq_true_iff] at hop ⊢
    rcases hop with rfl | rfl <;> decide
  rw [exactCategory, foldedCategory, if_pos hop, if_neg hcompare]
  by_cases hexact : hasWord hint ["enum", "枚举", "format", "格式"] <;>
    by_cases hfolded : hasWord (fold hint) enumCheckKeywords <;> simp [hop, hexact, hfolded]

theorem category_eq_of_deciding {op : List Char} (hop : includes decidingOps op)
    (hne : ¬ includes ["eq", "ne"] op) (hint : List Char) :
    exactCategory op hint = foldedCategory op hint := by
  simp only [includes, decidingOps, List.any_cons, List.any_nil, Bool.or_false, Bool.or_eq_true,
    decide_eq_true_iff] at hop hne
  rcases hop with rfl | rfl | rfl | rfl | rfl | rfl | rfl | rfl | rfl
  · simp at hne
  · simp at hne
  all_goals rfl

theorem not_includes {list few : List String} (hfew : few ⊆ list) {op : List Char}
    (h : ¬ includes list op) : ¬ includes few op := by
  simp only [includes, List.any_eq_true, not_exists, not_and] at h ⊢
  exact fun w hw => h w (hfew hw)

theorem category_eq_of_hint {op : List Char} (hop : ¬ includes decidingOps op) (hint : List Char) :
    exactCategory op hint = foldedCategory op hint ↔ SameHint hint := by
  have hcompare := not_includes (show ["gt", "lt", "gte", "lte", "range"] ⊆ decidingOps by decide) hop
  have hequal := not_includes (show ["eq", "ne"] ⊆ decidingOps by decide) hop
  have hbound := not_includes (show ["gt", "lt", "gte", "lte"] ⊆ decidingOps by decide) hop
  have hin := not_includes (show ["in"] ⊆ decidingOps by decide) hop
  have hrange := not_includes (show ["range"] ⊆ decidingOps by decide) hop
  have hmatch := not_includes (show ["match"] ⊆ decidingOps by decide) hop
  have hthreshold : hasWord hint thresholdKeywords → hasWord (fold hint) thresholdKeywords :=
    hasWord_fold (List.Subset.refl _) (by decide)
  have happroval : hasWord hint ["审批", "approve", "approval"] →
      hasWord (fold hint) approvalKeywords :=
    hasWord_fold (by decide) (by decide)
  have halert : hasWord hint ["告警", "alert", "warn"] → hasWord (fold hint) alertKeywords :=
    hasWord_fold (by decide) (by decide)
  have henum : hasWord hint ["枚举", "enum"] → hasWord (fold hint) enumCheckKeywords :=
    hasWord_fold (by decide) (by decide)
  have hboth (p : Prop) : ¬ (includes ["eq", "ne"] op ∧ p) := fun h => hequal h.1
  rw [exactCategory, if_neg hequal, if_neg hbound, if_neg hin, if_neg hrange, if_neg hmatch,
    foldedCategory, if_neg hcompare, if_neg (hboth _), if_neg (hboth _), if_neg hequal, if_neg hin,
    if_neg hmatch, sameHint_iff]
  change (if hasWord hint thresholdKeywords then _ else _) = _ ↔ _
  by_cases hF₁ : hasWord (fold hint) thresholdKeywords
  · simp only [hF₁, if_true, not_true_eq_false, false_imp_iff, true_imp_iff, and_true]
    split_ifs <;> simp_all
  have hE₁ := mt hthreshold hF₁
  by_cases hF₂ : hasWord (fold hint) approvalKeywords
  · rw [if_neg hE₁, if_neg hF₁, if_pos hF₂]
    simp only [hF₁, hF₂, not_true_eq_false, false_imp_iff, true_imp_iff]
    split_ifs <;> simp_all
  have hE₂ := mt happroval hF₂
  by_cases hF₃ : hasWord (fold hint) alertKeywords
  · rw [if_neg hE₁, if_neg hE₂, if_neg hF₁, if_neg hF₂, if_pos hF₃]
    simp only [hF₁, hF₂, hF₃, not_true_eq_false, false_imp_iff, true_imp_iff]
    split_ifs <;> simp_all
  have hE₃ := mt halert hF₃
  rw [if_neg hE₁, if_neg hE₂, if_neg hE₃, if_neg hF₁, if_neg hF₂, if_neg hF₃]
  by_cases hF₄ : hasWord (fold hint) enumCheckKeywords
  · rw [if_pos hF₄]
    split_ifs <;> simp_all
  · have hE₄ := mt henum hF₄
    rw [if_neg hE₄, if_neg hF₄]
    split_ifs <;> simp_all

section

variable {toLowerCase : List Char → List Char}

theorem inferSubCategory_eq_folded (hlower : TakesToLowerCase toLowerCase) (r : RuleDef) :
    inferSubCategory toLowerCase r = foldedCategory (orEmpty r.op) (orEmpty r.aiHint) := by
  have hthreshold := keywordMatch_eq hlower (show thresholdKeywords ⊆ foldedKeywords by decide)
  have happroval := keywordMatch_eq hlower (show approvalKeywords ⊆ foldedKeywords by decide)
  have halert := keywordMatch_eq hlower (show alertKeywords ⊆ foldedKeywords by decide)
  have henum := keywordMatch_eq hlower (show enumCheckKeywords ⊆ foldedKeywords by decide)
  have hformat := keywordMatch_eq hlower (show formatKeywords ⊆ foldedKeywords by decide)
  simp only [inferSubCategory, hthreshold, happroval, halert, henum, hformat, foldedCategory]

theorem category_eq_iff (op hint : List Char) :
    exactCategory op hint = foldedCategory op hint ↔ SameCategory op hint := by
  constructor
  · intro h
    exact ⟨fun hop => (category_eq_of_equality hop hint).mp h,
      fun hop => (category_eq_of_hint hop hint).mp h⟩
  · intro h
    by_cases hequal : includes ["eq", "ne"] op
    · exact (category_eq_of_equality hequal hint).mpr (h.equality hequal)
    · by_cases hop : includes decidingOps op
      · exact category_eq_of_deciding hop hequal hint
      · exact (category_eq_of_hint hop hint).mpr (h.other hop)

theorem ruleSubCategory_eq (r : RuleDef) :
    ruleSubCategory r = ascii (exactCategory (orEmpty r.op) (orEmpty r.aiHint)) := by
  have hbytes (t : Option Text) : (bytes t).getD [] = encode (orEmpty t) := by
    cases t <;> rfl
  rw [ruleSubCategory, hbytes, hbytes, inferSubCategory_encode]

def categoryNames : List String := ["threshold", "enum_check", "format", "approval", "alert"]

theorem exactCategory_mem (op hint : List Char) : exactCategory op hint ∈ categoryNames := by
  unfold exactCategory
  split_ifs <;> decide

theorem foldedCategory_mem (op hint : List Char) : foldedCategory op hint ∈ categoryNames := by
  unfold foldedCategory
  repeat' split
  all_goals simp [categoryNames]

structure Agree (toLowerCase : List Char → List Char) (r : RuleDef) : Prop where
  subCategory : (factoryNode r).subCategory = some (encode (inferSubCategory toLowerCase r).toList)
  stableKey : (factoryNode r).stableKey = some (encode (buildStableKey toLowerCase r))

def scenarioOf (r : RuleDef) : List Char := orElse r.scenario "default"

def fieldKeyOf (r : RuleDef) : List Char := orElse r.fieldKey "*"

/-- A scenario and a field key that are there are not empty, and the key fits the buffer of
the factory. -/
structure KeyFits (r : RuleDef) : Prop where
  scenario : ∀ t, r.scenario = some t → t.chars ≠ []
  fieldKey : ∀ t, r.fieldKey = some t → t.chars ≠ []
  room : (encode (scenarioOf r)).length + (encode (fieldKeyOf r)).length +
    (exactCategory (orEmpty r.op) (orEmpty r.aiHint)).length ≤ 507

def layerNumber : GateLayer → Nat
  | .default => 0
  | .policy => 1
  | .custom => 2

theorem factoryNode_eq (r : RuleDef) :
    ∃ type, factoryNode r = produceNode type (layerNumber r.factoryLayer) r := by
  unfold factoryNode
  cases r.factoryLayer with
  | default => exact ⟨_, rfl⟩
  | policy => exact ⟨_, rfl⟩
  | custom => exact ⟨_, rfl⟩

theorem decimal_layerNumber (layer : GateLayer) :
    decimal (layerNumber layer) = encode (layerMap layer).toList := by
  cases layer <;> decide +kernel

theorem ascii_eq_encode {a b : String} (ha : a ∈ categoryNames) (hb : b ∈ categoryNames) :
    ascii a = encode b.toList ↔ a = b := by
  have hall : ∀ a ∈ categoryNames, ∀ b ∈ categoryNames, ascii a = encode b.toList ↔ a = b := by
    decide +kernel
  exact hall a ha b hb

theorem bytes_getD (t : Option Text) (other : String) :
    (∀ u, t = some u → u.chars ≠ []) ∧ (bytes t).getD (encode other.toList) = encode (orElse t other) ∨
      (¬ ∀ u, t = some u → u.chars ≠ []) ∧ (bytes t).getD (encode other.toList) = [] ∧
        orElse t other = other.toList := by
  cases t with
  | none => exact .inl ⟨by simp, rfl⟩
  | some u =>
    by_cases hu : u.chars = []
    · exact .inr ⟨by simpa using hu, by simp [bytes, hu], by simp [orElse, orEmpty, hu]⟩
    · exact .inl ⟨by simpa using hu, by simp [bytes, orElse, orEmpty, hu]⟩

theorem encode_buildStableKey (toLowerCase : List Char → List Char) (r : RuleDef) :
    encode (buildStableKey toLowerCase r) =
      encode (scenarioOf r) ++ ascii ":" ++ encode (fieldKeyOf r) ++ ascii ":" ++
        decimal (layerNumber r.factoryLayer) ++ ascii ":" ++
          encode (inferSubCategory toLowerCase r).toList := by
  have hcolon : encode ":".toList = ascii ":" := by decide +kernel
  simp only [buildStableKey, encode_append, hcolon, decimal_layerNumber]
  rfl

theorem stableKey_eq_iff {toLowerCase : List Char → List Char} {r : RuleDef}
    (hsub : ruleSubCategory r = encode (inferSubCategory toLowerCase r).toList) :
    (factoryNode r).stableKey = some (encode (buildStableKey toLowerCase r)) ↔ KeyFits r := by
  obtain ⟨type, htype⟩ := factoryNode_eq r
  have hdefault : ascii "default" = encode "default".toList := by decide +kernel
  have hstar : ascii "*" = encode "*".toList := by decide +kernel
  have hcategory := ruleSubCategory_eq r
  have hdigit : (decimal (layerNumber r.factoryLayer)).length = 1 := by
    cases r.factoryLayer <;> decide +kernel
  have hcolon : (ascii ":").length = 1 := by decide
  rw [htype, produceNode, encode_buildStableKey, ← hsub]
  simp only [Option.some.injEq, hdefault, hstar]
  have hlength : (ruleSubCategory r).length =
      (exactCategory (orEmpty r.op) (orEmpty r.aiHint)).length := by
    rw [hcategory, ascii, List.length_map, String.length_toList]
  have hstarSize : (encode "*".toList).length = 1 := by decide +kernel
  have hdefaultSize : (encode "default".toList).length = 7 := by decide +kernel
  rcases bytes_getD r.scenario "default" with ⟨hscenario, hs⟩ | ⟨hscenario, hs, hdefaulted⟩
  · rcases bytes_getD r.fieldKey "*" with ⟨hfield, hf⟩ | ⟨hfield, hf, hstarred⟩
    · rw [hs, hf, scenarioOf, fieldKeyOf, List.take_eq_self_iff]
      have hroom : (encode (scenarioOf r)).length + (encode (fieldKeyOf r)).length +
          (exactCategory (orEmpty r.op) (orEmpty r.aiHint)).length ≤ 507 ↔ KeyFits r :=
        ⟨fun h => ⟨hscenario, hfield, h⟩, KeyFits.room⟩
      rw [← hroom, scenarioOf, fieldKeyOf]
      simp only [List.length_append]
      omega
    · refine iff_of_false (fun h => ?_) fun h => hfield h.fieldKey
      have hsize := congrArg List.length h
      rw [hs, hf, scenarioOf, fieldKeyOf, hstarred] at hsize
      simp only [List.length_take, List.length_append, List.length_nil] at hsize
      omega
  · refine iff_of_false (fun h => ?_) fun h => hscenario h.scenario
    have hsize := congrArg List.length h
    have hfield : ((bytes r.fieldKey).getD (encode "*".toList)).length ≤
        (encode (fieldKeyOf r)).length := by
      rcases bytes_getD r.fieldKey "*" with ⟨_, hf⟩ | ⟨_, hf, _⟩
      · rw [hf, fieldKeyOf]
      · rw [hf]
        exact Nat.zero_le _
    rw [hs, scenarioOf, hdefaulted] at hsize
    simp only [List.length_take, List.length_append, List.length_nil] at hsize
    omega

theorem agree_iff {toLowerCase : List Char → List Char} (hlower : TakesToLowerCase toLowerCase)
    (r : RuleDef) :
    Agree toLowerCase r ↔ SameCategory (orEmpty r.op) (orEmpty r.aiHint) ∧ KeyFits r := by
  obtain ⟨type, htype⟩ := factoryNode_eq r
  have hnode : (factoryNode r).subCategory = some (ruleSubCategory r) := by rw [htype, produceNode]
  have hsub : ruleSubCategory r = encode (inferSubCategory toLowerCase r).toList ↔
      SameCategory (orEmpty r.op) (orEmpty r.aiHint) := by
    rw [ruleSubCategory_eq, inferSubCategory_eq_folded hlower,
      ascii_eq_encode (exactCategory_mem _ _) (foldedCategory_mem _ _), category_eq_iff]
  constructor
  · rintro ⟨hcategory, hkey⟩
    rw [hnode, Option.some.injEq] at hcategory
    exact ⟨hsub.mp hcategory, (stableKey_eq_iff hcategory).mp hkey⟩
  · rintro ⟨hcategory, hfits⟩
    have hcategory := hsub.mpr hcategory
    exact ⟨by rw [hnode, hcategory], (stableKey_eq_iff hcategory).mpr hfits⟩

theorem append_colon_eq_iff (a b c d : List Char) :
    a ++ ':' :: b = c ++ ':' :: d ↔ (a = c ∧ b = d) ∨ (∃ t, c = a ++ ':' :: t ∧ b = t ++ ':' :: d) ∨
      ∃ t, a = c ++ ':' :: t ∧ d = t ++ ':' :: b := by
  constructor
  · intro h
    rw [List.append_eq_append_iff] at h
    rcases h with ⟨t, hc, hb⟩ | ⟨t, ha, hd⟩
    · cases t with
      | nil => exact .inl ⟨by simpa using hc.symm, (List.cons.inj hb).2⟩
      | cons x t =>
        obtain ⟨rfl, hrest⟩ := List.cons.inj hb
        exact .inr (.inl ⟨t, hc, hrest⟩)
    · cases t with
      | nil => exact .inl ⟨by simpa using ha, (List.cons.inj hd).2.symm⟩
      | cons x t =>
        obtain ⟨rfl, hrest⟩ := List.cons.inj hd
        exact .inr (.inr ⟨t, ha, hrest⟩)
  · rintro (⟨rfl, rfl⟩ | ⟨t, rfl, rfl⟩ | ⟨t, rfl, rfl⟩)
    · rfl
    · simp
    · simp

theorem append_colon_inj {a b c d : List Char} (hb : ':' ∉ b) (hd : ':' ∉ d) :
    a ++ ':' :: b = c ++ ':' :: d ↔ a = c ∧ b = d := by
  rw [append_colon_eq_iff, or_iff_left]
  rintro (⟨t, -, rfl⟩ | ⟨t, -, rfl⟩)
  · exact hb (by simp)
  · exact hd (by simp)

def parts (toLowerCase : List Char → List Char) (r : RuleDef) :
    Option Text × Option Text × String :=
  (r.scenario, r.fieldKey, inferSubCategory toLowerCase r)

/-- Both sides agree on each of two rules, and the rules have different keys if they have
one layer and different parts. -/
structure KeysAgree (toLowerCase : List Char → List Char) (r₁ r₂ : RuleDef) : Prop where
  first : Agree toLowerCase r₁
  second : Agree toLowerCase r₂
  apart : r₁.factoryLayer = r₂.factoryLayer → parts toLowerCase r₁ ≠ parts toLowerCase r₂ →
    buildStableKey toLowerCase r₁ ≠ buildStableKey toLowerCase r₂ ∧
      (factoryNode r₁).stableKey ≠ (factoryNode r₂).stableKey

def Shifted (r₁ r₂ : RuleDef) : Prop :=
  ∃ t, scenarioOf r₂ = scenarioOf r₁ ++ ':' :: t ∧ fieldKeyOf r₁ = t ++ ':' :: fieldKeyOf r₂

/-- No colon can be taken for another, and no part is left out that the other rule has
with the text that stands for it. -/
structure Unconfused (r₁ r₂ : RuleDef) : Prop where
  spelled : scenarioOf r₁ = scenarioOf r₂ → fieldKeyOf r₁ = fieldKeyOf r₂ →
    r₁.scenario = r₂.scenario ∧ r₁.fieldKey = r₂.fieldKey
  first : ¬ Shifted r₁ r₂
  second : ¬ Shifted r₂ r₁

theorem buildStableKey_eq_iff {toLowerCase : List Char → List Char}
    (hlower : TakesToLowerCase toLowerCase) {r₁ r₂ : RuleDef}
    (hlayer : r₁.factoryLayer = r₂.factoryLayer) :
    buildStableKey toLowerCase r₁ = buildStableKey toLowerCase r₂ ↔
      inferSubCategory toLowerCase r₁ = inferSubCategory toLowerCase r₂ ∧
        ((scenarioOf r₁ = scenarioOf r₂ ∧ fieldKeyOf r₁ = fieldKeyOf r₂) ∨ Shifted r₁ r₂ ∨
          Shifted r₂ r₁) := by
  have hcolon : ":".toList = [':'] := by decide
  have hplain : ∀ w ∈ categoryNames, ':' ∉ w.toList := by decide +kernel
  have hcategory (r : RuleDef) : ':' ∉ (inferSubCategory toLowerCase r).toList := by
    rw [inferSubCategory_eq_folded hlower]
    exact hplain _ (foldedCategory_mem _ _)
  have hdigit : ':' ∉ (layerMap r₂.factoryLayer).toList := by
    cases r₂.factoryLayer <;> decide
  have hkey (r : RuleDef) : buildStableKey toLowerCase r =
      ((scenarioOf r ++ ':' :: fieldKeyOf r) ++ ':' :: (layerMap r.factoryLayer).toList) ++
        ':' :: (inferSubCategory toLowerCase r).toList := by
    simp [buildStableKey, scenarioOf, fieldKeyOf, RuleDef.factoryLayer]
  rw [hkey, hkey, hlayer, append_colon_inj (hcategory _) (hcategory _),
    append_colon_inj hdigit hdigit, append_colon_eq_iff,
    @String.toList_inj (inferSubCategory toLowerCase r₁), and_comm]
  simp only [and_true, Shifted]

theorem not_shifted_of_scenario_eq {r₁ r₂ : RuleDef} (h : scenarioOf r₁ = scenarioOf r₂) :
    ¬ Shifted r₁ r₂ := by
  rintro ⟨t, hscenario, -⟩
  have hlength := congrArg List.length (h.trans hscenario)
  simp only [List.length_append, List.length_cons] at hlength
  omega

theorem unconfused_of_apart {r₁ r₂ : RuleDef}
    (h : (scenarioOf r₁ = scenarioOf r₂ ∧ fieldKeyOf r₁ = fieldKeyOf r₂) ∨ Shifted r₁ r₂ ∨
      Shifted r₂ r₁ → r₁.scenario = r₂.scenario ∧ r₁.fieldKey = r₂.fieldKey) :
    Unconfused r₁ r₂ := by
  have hscenario (h : r₁.scenario = r₂.scenario) : scenarioOf r₁ = scenarioOf r₂ := by
    rw [scenarioOf, h, scenarioOf]
  refine ⟨fun hs hf => h (.inl ⟨hs, hf⟩), fun hshifted => ?_, fun hshifted => ?_⟩
  · exact not_shifted_of_scenario_eq (hscenario (h (.inr (.inl hshifted))).1) hshifted
  · exact not_shifted_of_scenario_eq (hscenario (h (.inr (.inr hshifted))).1).symm hshifted

/-- For two rules of one layer: TypeScript and C agree on both and keep them apart exactly
where both hints are read alike, both keys fit and no part is taken for another. -/
theorem keysAgree_iff {toLowerCase : List Char → List Char} (hlower : TakesToLowerCase toLowerCase)
    (r₁ r₂ : RuleDef) :
    KeysAgree toLowerCase r₁ r₂ ↔
      (SameCategory (orEmpty r₁.op) (orEmpty r₁.aiHint) ∧ KeyFits r₁) ∧
      (SameCategory (orEmpty r₂.op) (orEmpty r₂.aiHint) ∧ KeyFits r₂) ∧
      (r₁.factoryLayer = r₂.factoryLayer →
        exactCategory (orEmpty r₁.op) (orEmpty r₁.aiHint) =
          exactCategory (orEmpty r₂.op) (orEmpty r₂.aiHint) → Unconfused r₁ r₂) := by
  rw [← agree_iff hlower, ← agree_iff hlower]
  have hcategory {r : RuleDef} (h : Agree toLowerCase r) :
      inferSubCategory toLowerCase r = exactCategory (orEmpty r.op) (orEmpty r.aiHint) := by
    rw [inferSubCategory_eq_folded hlower]
    exact ((category_eq_iff _ _).mpr ((agree_iff hlower r).mp h).1).symm
  have hsame (h₁ : Agree toLowerCase r₁) (h₂ : Agree toLowerCase r₂) :
      exactCategory (orEmpty r₁.op) (orEmpty r₁.aiHint) =
        exactCategory (orEmpty r₂.op) (orEmpty r₂.aiHint) ↔
      inferSubCategory toLowerCase r₁ = inferSubCategory toLowerCase r₂ := by
    rw [hcategory h₁, hcategory h₂]
  constructor
  · rintro ⟨h₁, h₂, hapart⟩
    refine ⟨h₁, h₂, fun hlayer hcategory => unconfused_of_apart fun hparts => ?_⟩
    have hsub := (hsame h₁ h₂).mp hcategory
    have hkey := (buildStableKey_eq_iff hlower hlayer).mpr ⟨hsub, hparts⟩
    by_contra hne
    exact (hapart hlayer fun heq => hne ⟨congrArg (·.1) heq, congrArg (·.2.1) heq⟩).1 hkey
  · rintro ⟨h₁, h₂, hunconfused⟩
    refine ⟨h₁, h₂, fun hlayer hparts => ?_⟩
    have hkey : buildStableKey toLowerCase r₁ ≠ buildStableKey toLowerCase r₂ := by
      rw [Ne, buildStableKey_eq_iff hlower hlayer]
      rintro ⟨hsub, hconfused⟩
      have hfree := hunconfused hlayer ((hsame h₁ h₂).mpr hsub)
      rcases hconfused with ⟨hscenario, hfield⟩ | hshifted | hshifted
      · obtain ⟨hs, hf⟩ := hfree.spelled hscenario hfield
        exact hparts (by rw [parts, parts, hs, hf, hsub])
      · exact hfree.first hshifted
      · exact hfree.second hshifted
    refine ⟨hkey, fun heq => hkey ?_⟩
    rw [h₁.stableKey, h₂.stableKey] at heq
    exact encode_inj (Option.some.inj heq)

end

def lowerChar (c : Char) : List Char :=
  if c = '\u0130' then ['i', '\u0307'] else if c = '\u212a' then ['k'] else [c.toLower]

/-- `toLowerCase` of texts whose letters are ASCII. -/
def lowerCase (s : List Char) : List Char := s.flatMap lowerChar

theorem lowersTo_lowerChar (c : Char) : LowersTo c (lowerChar c) := by
  unfold lowerChar
  by_cases hdotted : c = '\u0130'
  · subst hdotted
    exact .dottedCapital
  by_cases hkelvin : c = '\u212a'
  · subst hkelvin
    exact .kelvin
  rw [if_neg hdotted, if_neg hkelvin]
  by_cases hascii : c.toNat < 128
  · exact .ascii hascii
  have hself := toLower_eq_self (Nat.le_of_not_lt hascii)
  rw [hself]
  by_cases hhan : IsHan c
  · exact .han hhan
  · have hother : 128 ≤ c.toNat ∧ ¬ IsHan c := ⟨Nat.le_of_not_lt hascii, hhan⟩
    exact .other hother (by simp) (by simpa using hother)

theorem takesToLowerCase_lowerCase : TakesToLowerCase lowerCase := by
  intro s
  refine ⟨s.map lowerChar, ?_, List.flatMap_def ..⟩
  induction s with
  | nil => exact .nil
  | cons c s ih => exact .cons (lowersTo_lowerChar c) ih

def formatEquality : RuleDef where
  fieldKey := some ⟨"date".toList, by decide⟩
  op := some ⟨"eq".toList, by decide⟩
  aiHint := some ⟨"format".toList, by decide⟩

/-- C takes the hint for one about an enumeration. -/
theorem not_keysAgree_formatEquality : ¬ KeysAgree lowerCase formatEquality formatEquality := by
  intro h
  exact absurd h.first.subCategory (by decide +kernel)

def boundIn (scenario : Text) : RuleDef where
  fieldKey := some ⟨"age".toList, by decide⟩
  op := some ⟨"gt".toList, by decide⟩
  scenario := some scenario

theorem sameCategory_boundIn (scenario : Text) :
    SameCategory (orEmpty (boundIn scenario).op) (orEmpty (boundIn scenario).aiHint) where
  equality := by
    intro h
    change includes ["eq", "ne"] "gt".toList at h
    exact absurd h (by decide)
  other := by
    intro h
    change ¬ includes decidingOps "gt".toList at h
    exact absurd h (by decide)

theorem keyFits_boundIn {scenario : Text} (hne : scenario.chars ≠ [])
    (hroom : (encode scenario.chars).length ≤ 495) : KeyFits (boundIn scenario) where
  scenario := by
    rintro t ⟨⟩
    exact hne
  fieldKey := by
    rintro t ⟨⟩
    decide
  room := by
    have hscenario : scenarioOf (boundIn scenario) = scenario.chars := by
      simp [scenarioOf, orElse, orEmpty, boundIn, hne]
    have hfield : (encode (fieldKeyOf (boundIn scenario))).length = 3 := rfl
    have hsub : (exactCategory (orEmpty (boundIn scenario).op)
        (orEmpty (boundIn scenario).aiHint)).length = 9 := by
      change (exactCategory "gt".toList []).length = 9
      decide
    rw [hscenario, hsub]
    omega

theorem keysAgree_boundIn :
    KeysAgree lowerCase (boundIn ⟨"test".toList, by decide⟩) (boundIn ⟨"live".toList, by decide⟩) := by
  refine (keysAgree_iff takesToLowerCase_lowerCase _ _).mpr
    ⟨⟨sameCategory_boundIn _, keyFits_boundIn (by decide) (by decide)⟩,
      ⟨sameCategory_boundIn _, keyFits_boundIn (by decide) (by decide)⟩, fun _ _ => ⟨?_, ?_, ?_⟩⟩
  · intro h
    exact absurd h (by decide)
  · rintro ⟨t, h, -⟩
    exact absurd h (by simp [scenarioOf, orElse, orEmpty, boundIn])
  · rintro ⟨t, h, -⟩
    exact absurd h (by simp [scenarioOf, orElse, orEmpty, boundIn])

end BlessStar.Gate.FactoryBridge
