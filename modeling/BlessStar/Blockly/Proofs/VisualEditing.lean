import BlessStar.Blockly.Blocks
import Mathlib.Data.List.SplitBy

/-!
# What the visual editor gives back

A gate survives the editor when its fields show its strings, its statement
inputs are empty, and its value inputs hold operands that fit and survive.
-/

namespace BlessStar.Blockly

open Lib.Utf8Text Assistant

attribute [local simp] generate

/-! ## Lists rebuilt piece by piece -/

section Rebuilt

variable {α : Type} {f : α → Option (List α)}

theorem mapM_cons_eq_some {a : α} {l : List α} {bss : List (List α)} :
    (a :: l).mapM f = some bss ↔ ∃ bs rest, f a = some bs ∧ l.mapM f = some rest ∧
      bss = bs :: rest := by
  simp only [List.mapM_cons, Option.bind_eq_bind, Option.bind_eq_some_iff, Option.pure_def,
    Option.some.injEq]
  constructor
  · rintro ⟨bs, hbs, rest, hrest, rfl⟩
    exact ⟨bs, rest, hbs, hrest, rfl⟩
  · rintro ⟨bs, rest, hbs, hrest, rfl⟩
    exact ⟨bs, hbs, rest, hrest, rfl⟩

theorem exists_of_mem_flatten {l : List α} {bss : List (List α)} (h : l.mapM f = some bss)
    {b : α} (hb : b ∈ bss.flatten) : ∃ a ∈ l, ∃ bs, f a = some bs ∧ b ∈ bs := by
  induction l generalizing bss with
  | nil =>
      simp only [List.mapM_nil, Option.pure_def, Option.some.injEq] at h
      simp [← h] at hb
  | cons a l ih =>
      obtain ⟨bs, rest, hbs, hrest, rfl⟩ := mapM_cons_eq_some.mp h
      rcases List.mem_append.mp hb with hin | hin
      · exact ⟨a, List.mem_cons_self, bs, hbs, hin⟩
      · obtain ⟨a', ha', found⟩ := ih hrest hin
        exact ⟨a', List.mem_cons_of_mem a ha', found⟩

theorem length_le_flatten {l : List α} {bss : List (List α)} (h : l.mapM f = some bss)
    (hne : ∀ a ∈ l, f a ≠ some []) : l.length ≤ bss.flatten.length := by
  induction l generalizing bss with
  | nil => exact Nat.zero_le _
  | cons a l ih =>
      obtain ⟨bs, rest, hbs, hrest, rfl⟩ := mapM_cons_eq_some.mp h
      have hpos : 0 < bs.length := by
        apply List.length_pos_iff.mpr
        intro hnil
        exact hne a List.mem_cons_self (hnil ▸ hbs)
      have hle := ih hrest fun a' ha' => hne a' (List.mem_cons_of_mem a ha')
      simp only [List.length_cons, List.flatten_cons, List.length_append]
      omega

theorem flatten_eq_self_of_nonempty {l : List α} (hne : ∀ a ∈ l, f a ≠ some [])
    (h : (l.mapM f).map List.flatten = some l) : ∀ a ∈ l, f a = some [a] := by
  induction l with
  | nil => intro a ha; cases ha
  | cons a l ih =>
      obtain ⟨bss, hbss, hflat⟩ := Option.map_eq_some_iff.mp h
      obtain ⟨bs, rest, hbs, hrest, rfl⟩ := mapM_cons_eq_some.mp hbss
      have hne' : ∀ a' ∈ l, f a' ≠ some [] := fun a' ha' => hne a' (List.mem_cons_of_mem a ha')
      -- The pieces of the tail fill the tail, so the head's piece has length one.
      have hle := length_le_flatten hrest hne'
      have hlen : bs.length + rest.flatten.length = l.length + 1 := by
        simpa using congrArg List.length hflat
      cases bs with
      | nil => exact absurd hbs (hne a List.mem_cons_self)
      | cons b more =>
          have hmore : more = [] := by
            apply List.length_eq_zero_iff.mp
            simp only [List.length_cons] at hlen
            omega
          subst hmore
          simp only [List.flatten_cons, List.cons_append, List.nil_append, List.cons.injEq]
            at hflat
          obtain ⟨rfl, htail⟩ := hflat
          have hrec := ih hne' (by rw [hrest, Option.map_some, htail])
          intro a' ha'
          rcases List.mem_cons.mp ha' with rfl | ha'
          · exact hbs
          · exact hrec a' ha'

theorem flatten_eq_self_iff (hout : ∀ a bs, f a = some bs → ∀ b ∈ bs, f b ≠ some [])
    (l : List α) : (l.mapM f).map List.flatten = some l ↔ ∀ a ∈ l, f a = some [a] := by
  constructor
  · intro h
    apply flatten_eq_self_of_nonempty _ h
    intro a ha
    obtain ⟨bss, hbss, hflat⟩ := Option.map_eq_some_iff.mp h
    obtain ⟨a', -, bs, hbs, hin⟩ := exists_of_mem_flatten hbss (hflat ▸ ha)
    exact hout a' bs hbs a hin
  · intro h
    induction l with
    | nil => rfl
    | cons a l ih =>
        have hrec := ih fun a' ha' => h a' (List.mem_cons_of_mem a ha')
        obtain ⟨rest, hrest, hflat⟩ := Option.map_eq_some_iff.mp hrec
        have hcons := mapM_cons_eq_some.mpr ⟨[a], rest, h a List.mem_cons_self, hrest, rfl⟩
        rw [hcons, Option.map_some, List.flatten_cons, hflat]
        rfl

end Rebuilt

/-! ## Fields -/

def FieldsKept : GateJson → Prop
  | .gateDefault gateId scenario _ => gateId ≠ [] ∧ scenario ∈ scenarioOptions
  | .condition conditionId _ _ _ => conditionId ≠ []
  | .logicAnd _ _ => True
  | .logicOr _ _ => True
  | .metaRule field operator _ => field ≠ [] ∧ operator ∈ operatorOptions
  | .policyAttr key _ => key ≠ []
  | .customGate gateType vendor version _ => gateType ≠ [] ∧ vendor ≠ [] ∧ version ≠ []
  | .array _ => False
  | .text _ => False

theorem orDefault_eq_iff {v d : Utf16} (hd : d ≠ []) : orDefault v d = v ↔ v ≠ [] := by
  unfold orDefault
  by_cases hv : v = []
  · simp [hv, hd]
  · simp [hv]

@[simp] theorem orDefault_orDefault (v d : Utf16) : orDefault (orDefault v d) d = orDefault v d := by
  unfold orDefault
  by_cases hv : v = []
  · simp [hv]
  · simp [hv]

@[simp] theorem orDefault_nil_right (v : Utf16) : orDefault v [] = v := by
  unfold orDefault
  by_cases hv : v = []
  · simp [hv]
  · simp [hv]

theorem fieldOr_set_other {type : BlockType} {fields : Fields} {other name : FieldName}
    {v d : Utf16} (hne : name ≠ other) :
    fieldOr (setFieldValue type fields other v) name d = fieldOr fields name d := by
  unfold fieldOr setFieldValue
  cases fieldDef type other with
  | none => rfl
  | some def_ =>
      by_cases hacc : def_.accepts v
      · simp only [hacc, if_true, Function.update_of_ne hne]
      · simp only [hacc, if_false, Bool.false_eq_true]

theorem fieldOr_set_input {type : BlockType} {fields : Fields} {name : FieldName}
    {v d : Utf16} (h : ∃ text, fieldDef type name = some (.input text)) :
    fieldOr (setFieldValue type fields name v) name d = orDefault v d := by
  obtain ⟨text, htext⟩ := h
  simp [fieldOr, setFieldValue, htext, FieldDef.accepts]

theorem fieldOr_set_dropdown {type : BlockType} {fields : Fields} {name : FieldName}
    {options : List Utf16} {v d : Utf16} (h : fieldDef type name = some (.dropdown options)) :
    fieldOr (setFieldValue type fields name v) name d =
      if v ∈ options then orDefault v d else fieldOr fields name d := by
  simp only [fieldOr, setFieldValue, h, FieldDef.accepts, List.contains_iff_mem]
  by_cases hin : v ∈ options
  · simp [hin]
  · simp [hin]

theorem dropdown_eq_iff {options : List Utf16} {d v : Utf16} (hd : d ≠ []) (hmem : d ∈ options)
    (hnil : [] ∉ options) :
    (if orDefault v d ∈ options then orDefault v d else d) = v ↔ v ∈ options := by
  unfold orDefault
  by_cases hv : v = []
  · subst hv
    simp [hd, hnil]
  · simp only [if_neg hv]
    by_cases hin : v ∈ options
    · simp [hin]
    · simp only [hin, if_false, iff_false]
      intro hdv
      exact hin (hdv ▸ hmem)

/-! ## Generators -/

/-- A statement input that gives a `do` member back. -/
def DoShown (m : Option GateJson) (input : List Block) : Prop :=
  ∀ d, m = some d → ∃ code, statementToCode input = some code ∧ parseStatements code = some d

/-- A statement input that gives a `then` or `else` member back. -/
def BranchShown (m : Option GateJson) (input : List Block) : Prop :=
  ∃ code, statementToCode input = some code ∧ parseMember code = m

def ValueShown (m : Option GateJson) (input : Option Block) : Prop :=
  ∃ code, valueToCode input = some code ∧ parseMember code = m

@[simp] theorem branchShown_nil (m : Option GateJson) : BranchShown m [] ↔ m = none := by
  simp [BranchShown, statementToCode, parseMember, eq_comm]

@[simp] theorem valueShown_none (m : Option GateJson) : ValueShown m none ↔ m = none := by
  simp [ValueShown, valueToCode, parseMember, eq_comm]

theorem valueShown_some {m : Option GateJson} {block : Block} :
    ValueShown m (some block) ↔ ∃ j, generate block = some j ∧ m = some j := by
  unfold ValueShown
  simp only [valueToCode, Option.bind_eq_bind, Option.bind_eq_some_iff, Option.pure_def,
    Option.some.injEq]
  constructor
  · rintro ⟨_, ⟨j, hj, rfl⟩, rfl⟩
    exact ⟨j, hj, rfl⟩
  · rintro ⟨j, hj, rfl⟩
    exact ⟨[j], ⟨j, hj, rfl⟩, rfl⟩

/-- The fields after the `deserializer` of the node. -/
def shownFields (type : BlockType) (node : GateJson) : Fields :=
  (deserializer node).foldl (fun fs p => setFieldValue type fs p.1 p.2) (newFields type)

theorem fieldOr_scenario {fields : Fields} {v d : Utf16} :
    fieldOr (setFieldValue .gateDefault fields .scenario v) .scenario d =
      if v ∈ scenarioOptions then orDefault v d else fieldOr fields .scenario d :=
  fieldOr_set_dropdown rfl

theorem fieldOr_operator {fields : Fields} {v d : Utf16} :
    fieldOr (setFieldValue .metaRule fields .operator v) .operator d =
      if v ∈ operatorOptions then orDefault v d else fieldOr fields .operator d :=
  fieldOr_set_dropdown rfl

theorem fieldOr_new_scenario :
    fieldOr (newFields .gateDefault) .scenario (utf16Of "default") = utf16Of "default" := rfl

theorem fieldOr_new_operator :
    fieldOr (newFields .metaRule) .operator (utf16Of "eq") = utf16Of "eq" := rfl

theorem scenario_eq_iff {v : Utf16} :
    (if orDefault v (utf16Of "default") ∈ scenarioOptions then orDefault v (utf16Of "default")
      else utf16Of "default") = v ↔ v ∈ scenarioOptions :=
  dropdown_eq_iff (by decide) (by decide) (by decide)

theorem operator_eq_iff {v : Utf16} :
    (if orDefault v (utf16Of "eq") ∈ operatorOptions then orDefault v (utf16Of "eq")
      else utf16Of "eq") = v ↔ v ∈ operatorOptions :=
  dropdown_eq_iff (by decide) (by decide) (by decide)

theorem doShown_some {d : GateJson} {input : List Block} :
    DoShown (some d) input ↔
      ∃ code, statementToCode input = some code ∧ parseStatements code = some d := by
  simp [DoShown]

theorem doShown_nil {m : Option GateJson} :
    DoShown m [] ↔ ∀ d, m = some d → d = .array [] := by
  simp [DoShown, statementToCode, parseStatements, eq_comm]

theorem doShown_none (input : List Block) : DoShown none input := by
  intro d hd
  cases hd

structure InputsShown (node : GateJson) (if_ a b : Option Block) (do_ then_ else_ : List Block) :
    Prop where
  do_ : DoShown node.doMember do_
  then_ : BranchShown node.thenMember then_
  else_ : BranchShown node.elseMember else_
  if_ : ValueShown node.ifMember if_
  a : ValueShown node.aMember a
  b : ValueShown node.bMember b

theorem generate_gateDefault {gateId scenario : Utf16} {d : GateJson} {i a b : Option Block}
    {do_ t e : List Block} :
    generate (.mk .gateDefault (shownFields .gateDefault (.gateDefault gateId scenario d))
        i a b do_ t e) = some (.gateDefault gateId scenario d) ↔
      FieldsKept (.gateDefault gateId scenario d) ∧ DoShown (some d) do_ := by
  have hdefault : utf16Of "gate_id" ≠ [] := by decide
  simp (disch := first | exact ⟨_, rfl⟩ | decide) only [generate, shownFields, deserializer,
    List.foldl_cons, List.foldl_nil, fieldOr_set_input, fieldOr_scenario, fieldOr_set_other,
    orDefault_orDefault, fieldOr_new_scenario, Option.bind_eq_bind, Option.bind_eq_some_iff,
    Option.pure_def, Option.some.injEq, GateJson.gateDefault.injEq, orDefault_eq_iff hdefault,
    scenario_eq_iff, doShown_some, FieldsKept]
  constructor
  · rintro ⟨code, hcode, member, hmember, hid, hscenario, rfl⟩
    exact ⟨⟨hid, hscenario⟩, code, hcode, hmember⟩
  · rintro ⟨⟨hid, hscenario⟩, code, hcode, hmember⟩
    exact ⟨code, hcode, d, hmember, hid, hscenario, rfl⟩

theorem generate_customGate {gateType vendor version : Utf16} {d : GateJson}
    {i a b : Option Block} {do_ t e : List Block} :
    generate (.mk .customGate (shownFields .customGate (.customGate gateType vendor version d))
        i a b do_ t e) = some (.customGate gateType vendor version d) ↔
      FieldsKept (.customGate gateType vendor version d) ∧ DoShown (some d) do_ := by
  have htype : utf16Of "custom_type" ≠ [] := by decide
  have hvendor : utf16Of "default" ≠ [] := by decide
  have hversion : utf16Of "1.0.0" ≠ [] := by decide
  simp (disch := first | exact ⟨_, rfl⟩ | decide) only [generate, shownFields, deserializer,
    List.foldl_cons, List.foldl_nil, fieldOr_set_input, fieldOr_set_other,
    orDefault_orDefault, Option.bind_eq_bind, Option.bind_eq_some_iff,
    Option.pure_def, Option.some.injEq, GateJson.customGate.injEq, orDefault_eq_iff htype,
    orDefault_eq_iff hvendor, orDefault_eq_iff hversion, doShown_some, FieldsKept]
  constructor
  · rintro ⟨code, hcode, member, hmember, htype', hvendor', hversion', rfl⟩
    exact ⟨⟨htype', hvendor', hversion'⟩, code, hcode, hmember⟩
  · rintro ⟨⟨htype', hvendor', hversion'⟩, code, hcode, hmember⟩
    exact ⟨code, hcode, d, hmember, htype', hvendor', hversion', rfl⟩

theorem generate_condition {conditionId : Utf16} {ij tj ej : Option GateJson}
    {i a b : Option Block} {do_ t e : List Block} :
    generate (.mk .condition (shownFields .condition (.condition conditionId ij tj ej))
        i a b do_ t e) = some (.condition conditionId ij tj ej) ↔
      FieldsKept (.condition conditionId ij tj ej) ∧ ValueShown ij i ∧ BranchShown tj t ∧
        BranchShown ej e := by
  have hdefault : utf16Of "condition_id" ≠ [] := by decide
  simp (disch := first | exact ⟨_, rfl⟩ | decide) only [generate, shownFields, deserializer,
    List.foldl_cons, List.foldl_nil, fieldOr_set_input, orDefault_orDefault, Option.bind_eq_bind,
    Option.bind_eq_some_iff, Option.pure_def, Option.some.injEq, GateJson.condition.injEq,
    orDefault_eq_iff hdefault, FieldsKept, ValueShown, BranchShown]
  constructor
  · rintro ⟨ifCode, hif, thenCode, hthen, elseCode, helse, hid, rfl, rfl, rfl⟩
    exact ⟨hid, ⟨ifCode, hif, rfl⟩, ⟨thenCode, hthen, rfl⟩, elseCode, helse, rfl⟩
  · rintro ⟨hid, ⟨ifCode, hif, rfl⟩, ⟨thenCode, hthen, rfl⟩, elseCode, helse, rfl⟩
    exact ⟨ifCode, hif, thenCode, hthen, elseCode, helse, hid, rfl, rfl, rfl⟩

theorem generate_logic {aj bj : Option GateJson} {fields : Fields} {i a b : Option Block}
    {do_ t e : List Block} :
    (generate (.mk .logicAnd fields i a b do_ t e) = some (.logicAnd aj bj) ↔
        ValueShown aj a ∧ ValueShown bj b) ∧
      (generate (.mk .logicOr fields i a b do_ t e) = some (.logicOr aj bj) ↔
        ValueShown aj a ∧ ValueShown bj b) := by
  simp only [generate, Option.bind_eq_bind, Option.bind_eq_some_iff, Option.pure_def,
    Option.some.injEq, GateJson.logicAnd.injEq, GateJson.logicOr.injEq, ValueShown, and_self]
  constructor
  · rintro ⟨aCode, ha, bCode, hb, rfl, rfl⟩
    exact ⟨⟨aCode, ha, rfl⟩, bCode, hb, rfl⟩
  · rintro ⟨⟨aCode, ha, rfl⟩, bCode, hb, rfl⟩
    exact ⟨aCode, ha, bCode, hb, rfl, rfl⟩

theorem generate_metaRule {field operator value : Utf16} {i a b : Option Block}
    {do_ t e : List Block} :
    generate (.mk .metaRule (shownFields .metaRule (.metaRule field operator value))
        i a b do_ t e) = some (.metaRule field operator value) ↔
      FieldsKept (.metaRule field operator value) := by
  have hfield : utf16Of "metadata.field" ≠ [] := by decide
  simp (disch := first | exact ⟨_, rfl⟩ | decide) only [generate, shownFields, deserializer,
    List.foldl_cons, List.foldl_nil, fieldOr_set_input, fieldOr_operator, fieldOr_set_other,
    orDefault_orDefault, orDefault_nil_right, fieldOr_new_operator, Option.some.injEq,
    GateJson.metaRule.injEq, orDefault_eq_iff hfield, operator_eq_iff, and_true, FieldsKept]

theorem generate_policyAttr {key value : Utf16} {i a b : Option Block} {do_ t e : List Block} :
    generate (.mk .policyAttr (shownFields .policyAttr (.policyAttr key value))
        i a b do_ t e) = some (.policyAttr key value) ↔ FieldsKept (.policyAttr key value) := by
  have hkey : utf16Of "key" ≠ [] := by decide
  simp (disch := first | exact ⟨_, rfl⟩ | decide) only [generate, shownFields, deserializer,
    List.foldl_cons, List.foldl_nil, fieldOr_set_input, fieldOr_set_other, orDefault_orDefault,
    orDefault_nil_right, Option.some.injEq, GateJson.policyAttr.injEq, orDefault_eq_iff hkey,
    and_true, FieldsKept]

theorem generate_shown_iff {node : GateJson} {type : BlockType}
    (htype : findBlockType node = some type) {i a b : Option Block} {d t e : List Block}
    (hi : node.ifMember = none → i = none) (ha : node.aMember = none → a = none)
    (hb : node.bMember = none → b = none) (ht : node.thenMember = none → t = [])
    (he : node.elseMember = none → e = []) :
    generate (.mk type (shownFields type node) i a b d t e) = some node ↔
      FieldsKept node ∧ InputsShown node i a b d t e := by
  have hall : InputsShown node i a b d t e ↔
      DoShown node.doMember d ∧ BranchShown node.thenMember t ∧ BranchShown node.elseMember e ∧
        ValueShown node.ifMember i ∧ ValueShown node.aMember a ∧ ValueShown node.bMember b :=
    ⟨fun h => ⟨h.do_, h.then_, h.else_, h.if_, h.a, h.b⟩,
      fun ⟨h1, h2, h3, h4, h5, h6⟩ => ⟨h1, h2, h3, h4, h5, h6⟩⟩
  rw [hall]
  cases node with
  | gateDefault gateId scenario do_ =>
      cases htype
      rw [hi rfl, ha rfl, hb rfl, ht rfl, he rfl, generate_gateDefault]
      simp [GateJson.doMember, GateJson.thenMember, GateJson.elseMember, GateJson.ifMember,
        GateJson.aMember, GateJson.bMember]
  | condition conditionId if_ then_ else_ =>
      cases htype
      rw [ha rfl, hb rfl, generate_condition]
      simp only [GateJson.doMember, GateJson.thenMember, GateJson.elseMember, GateJson.ifMember,
        GateJson.aMember, GateJson.bMember, doShown_none, valueShown_none, true_and, and_true]
      constructor
      · rintro ⟨h, hi', ht', he'⟩
        exact ⟨h, ht', he', hi'⟩
      · rintro ⟨h, ht', he', hi'⟩
        exact ⟨h, hi', ht', he'⟩
  | logicAnd a' b' =>
      cases htype
      rw [hi rfl, ht rfl, he rfl, generate_logic.1]
      simp [GateJson.doMember, GateJson.thenMember, GateJson.elseMember, GateJson.ifMember,
        GateJson.aMember, GateJson.bMember, doShown_none, FieldsKept]
  | logicOr a' b' =>
      cases htype
      rw [hi rfl, ht rfl, he rfl, generate_logic.2]
      simp [GateJson.doMember, GateJson.thenMember, GateJson.elseMember, GateJson.ifMember,
        GateJson.aMember, GateJson.bMember, doShown_none, FieldsKept]
  | metaRule field operator value =>
      cases htype
      rw [hi rfl, ha rfl, hb rfl, ht rfl, he rfl, generate_metaRule]
      simp [GateJson.doMember, GateJson.thenMember, GateJson.elseMember, GateJson.ifMember,
        GateJson.aMember, GateJson.bMember, doShown_none]
  | policyAttr key value =>
      cases htype
      rw [hi rfl, ha rfl, hb rfl, ht rfl, he rfl, generate_policyAttr]
      simp [GateJson.doMember, GateJson.thenMember, GateJson.elseMember, GateJson.ifMember,
        GateJson.aMember, GateJson.bMember, doShown_none]
  | customGate gateType vendor version do_ =>
      cases htype
      rw [hi rfl, ha rfl, hb rfl, ht rfl, he rfl, generate_customGate]
      simp [GateJson.doMember, GateJson.thenMember, GateJson.elseMember, GateJson.ifMember,
        GateJson.aMember, GateJson.bMember]
  | array items => cases htype
  | text codes => cases htype

theorem findBlockType_of_generate {block : Block} {j : GateJson} (h : generate block = some j) :
    ∃ type, findBlockType j = some type := by
  cases block with
  | mk type fields i a b d t e =>
      cases type
      all_goals
        simp only [generate, Option.bind_eq_bind, Option.bind_eq_some_iff, Option.pure_def,
          Option.some.injEq] at h
      case gateDefault => obtain ⟨_, _, _, _, rfl⟩ := h; exact ⟨_, rfl⟩
      case condition => obtain ⟨_, _, _, _, _, _, rfl⟩ := h; exact ⟨_, rfl⟩
      case logicAnd => obtain ⟨_, _, _, _, rfl⟩ := h; exact ⟨_, rfl⟩
      case logicOr => obtain ⟨_, _, _, _, rfl⟩ := h; exact ⟨_, rfl⟩
      case metaRule => exact ⟨.metaRule, h ▸ rfl⟩
      case policyAttr => exact ⟨.policyAttr, h ▸ rfl⟩
      case customGate => obtain ⟨_, _, _, _, rfl⟩ := h; exact ⟨_, rfl⟩

theorem statementToCode_ne_array {blocks : List Block} {codes : List GateJson}
    (h : statementToCode blocks = some codes) {items : List GateJson} :
    GateJson.array items ∉ codes := by
  induction blocks generalizing codes with
  | nil =>
      simp only [statementToCode, Option.some.injEq] at h
      simp [← h]
  | cons block rest ih =>
      simp only [statementToCode, Option.bind_eq_bind, Option.bind_eq_some_iff, Option.pure_def,
        Option.some.injEq] at h
      obtain ⟨code, hcode, codes', hcodes, rfl⟩ := h
      simp only [List.mem_cons, not_or]
      constructor
      · rintro rfl
        obtain ⟨type, htype⟩ := findBlockType_of_generate hcode
        cases htype
      · exact ih hcodes

/-! ## Inputs -/

namespace Editor

variable {ed : Editor}

@[simp] theorem deserializeChildren_nil : ed.deserializeChildren [] = some ([], []) := by
  simp [deserializeChildren, stacked, List.splitBy_nil, connectStatement]

theorem code_eq_nil {m : Option GateJson} (hm : GateJson.elements m = [])
    {r : List Block × Workspace} (hr : ed.deserializeChildren (GateJson.elements m) = some r)
    {code : List GateJson} (hcode : statementToCode r.1 = some code) : code = [] := by
  rw [hm, deserializeChildren_nil, Option.some.injEq] at hr
  subst hr
  simpa [statementToCode, eq_comm] using hcode

theorem children_of_none {m : Option GateJson} (hm : m = none) :
    ed.deserializeChildren (GateJson.elements m) = some ([], []) := by
  subst hm
  exact deserializeChildren_nil

theorem branch_eq_nil {m : Option GateJson} (hm : m = none) {r : List Block × Workspace}
    (hr : ed.deserializeChildren (GateJson.elements m) = some r) : r.1 = [] := by
  rw [children_of_none hm, Option.some.injEq] at hr
  rw [← hr]

theorem children_of_no_do {m : Option GateJson} (hm : ∀ d, m = some d → d = .array []) :
    ed.deserializeChildren (GateJson.elements m) = some ([], []) := by
  cases m with
  | none => exact deserializeChildren_nil
  | some d =>
      rw [hm d rfl]
      exact deserializeChildren_nil

theorem elements_eq_nil {j : GateJson} (h : ∀ items, j ≠ .array items) :
    GateJson.elements (some j) = [] := by
  cases j with
  | array items => exact absurd rfl (h items)
  | _ => rfl

theorem doShown_iff {m : Option GateJson} {r : List Block × Workspace}
    (hr : ed.deserializeChildren (GateJson.elements m) = some r) :
    DoShown m r.1 ↔ ∀ d, m = some d → d = .array [] := by
  constructor
  · intro h d hd
    subst hd
    obtain ⟨code, hcode, hparse⟩ := h d rfl
    match code, hparse with
    | [], hparse => exact (Option.some.inj hparse).symm
    | [j], hparse =>
        obtain rfl := Option.some.inj hparse
        have hnot : ∀ items, j ≠ .array items := by
          rintro items rfl
          exact statementToCode_ne_array hcode List.mem_cons_self
        exact absurd (code_eq_nil (elements_eq_nil hnot) hr hcode) (List.cons_ne_nil _ _)
  · intro h d hd
    rw [children_of_no_do h, Option.some.injEq] at hr
    subst hr
    exact ⟨[], rfl, (h d hd).symm ▸ rfl⟩

theorem branchShown_iff {m : Option GateJson} {r : List Block × Workspace}
    (hr : ed.deserializeChildren (GateJson.elements m) = some r) :
    BranchShown m r.1 ↔ m = none := by
  constructor
  · rintro ⟨code, hcode, hparse⟩
    match code, hparse with
    | [], hparse => exact hparse.symm
    | [j], hparse =>
        subst hparse
        have hnot : ∀ items, j ≠ .array items := by
          rintro items rfl
          exact statementToCode_ne_array hcode List.mem_cons_self
        exact absurd (code_eq_nil (elements_eq_nil hnot) hr hcode) (List.cons_ne_nil _ _)
    | j :: k :: codes, hparse =>
        subst hparse
        exact absurd (code_eq_nil rfl hr hcode) (List.cons_ne_nil _ _)
  · intro h
    rw [children_of_none h, Option.some.injEq] at hr
    subst hr
    exact ⟨[], rfl, h.symm⟩

end Editor

/-! ## What survives -/

structure NoStatements (node : GateJson) : Prop where
  do_ : ∀ d, node.doMember = some d → d = .array []
  then_ : node.thenMember = none
  else_ : node.elseMember = none

namespace Editor

variable (ed : Editor)

def JoinsValue (node : GateJson) : Prop :=
  ∃ type, findBlockType node = some type ∧ ed.joinsValue type = true

structure OperandKept (node : GateJson) : Prop where
  joins : ed.JoinsValue node
  fields : FieldsKept node
  statements : NoStatements node
  if_ : node.ifMember = none
  a : node.aMember = none
  b : node.bMember = none

structure TestKept (node : GateJson) : Prop where
  joins : ed.JoinsValue node
  fields : FieldsKept node
  statements : NoStatements node
  if_ : node.ifMember = none
  a : ∀ c, node.aMember = some c → ed.OperandKept c
  b : ∀ c, node.bMember = some c → ed.OperandKept c

structure GateKept (node : GateJson) : Prop where
  fields : FieldsKept node
  statements : NoStatements node
  if_ : ∀ c, node.ifMember = some c → ed.TestKept c
  a : ∀ c, node.aMember = some c → ed.OperandKept c
  b : ∀ c, node.bMember = some c → ed.OperandKept c

end Editor

/-- The blocks of `getTopBlocks`. -/
def topBlocks (workspace : Workspace) : List Block := workspace.filterMap List.head?

@[simp] theorem topBlocks_nil : topBlocks [] = [] := rfl

@[simp] theorem topBlocks_append (w w' : Workspace) :
    topBlocks (w ++ w') = topBlocks w ++ topBlocks w' := List.filterMap_append

@[simp] theorem topBlocks_single (block : Block) (w : Workspace) :
    topBlocks ([block] :: w) = block :: topBlocks w := rfl

theorem deserializeSingleNode_eq {node : GateJson} {type : BlockType}
    (h : findBlockType node = some type) :
    deserializeSingleNode node = some (type, shownFields type node) := by
  rw [deserializeSingleNode, h]
  rfl

theorem deserializeSingleNode_eq_none {node : GateJson} (h : findBlockType node = none) :
    deserializeSingleNode node = none := by
  rw [deserializeSingleNode, h]
  rfl

namespace Editor

variable {ed : Editor}

theorem connectValue_iff {block : Block} {node : GateJson} :
    (topBlocks (ed.connectValue block).2 = [] ∧
        ValueShown (some node) (ed.connectValue block).1) ↔
      ed.joinsValue block.type = true ∧ generate block = some node := by
  unfold connectValue
  by_cases hjoin : ed.joinsValue block.type = true
  · rw [if_pos hjoin]
    simp only [topBlocks_nil, valueShown_some, Option.some.injEq, true_and, hjoin]
    constructor
    · rintro ⟨j, hj, hm⟩
      rw [hj, hm]
    · intro h
      exact ⟨node, h, rfl⟩
  · simp [hjoin]

theorem operand_iff {m : Option GateJson} :
    (topBlocks (ed.deserializeOperand m).2 = [] ∧ ValueShown m (ed.deserializeOperand m).1) ↔
      ∀ c, m = some c → ed.OperandKept c := by
  cases m with
  | none => simp [deserializeOperand]
  | some node =>
      simp only [deserializeOperand, Option.some.injEq, forall_eq']
      cases htype : findBlockType node with
      | none =>
          simp only [deserializeSingleNode_eq_none htype, valueShown_none, reduceCtorEq, and_false,
            false_iff]
          rintro ⟨⟨type, hsome, -⟩, -⟩
          rw [htype] at hsome
          cases hsome
      | some type =>
          rw [deserializeSingleNode_eq htype, connectValue_iff]
          have hgen := generate_shown_iff htype (i := none) (a := none) (b := none) (d := [])
            (t := []) (e := []) (fun _ => rfl) (fun _ => rfl) (fun _ => rfl) (fun _ => rfl)
            (fun _ => rfl)
          simp only [Block.single, Block.type, hgen]
          constructor
          · rintro ⟨hjoin, hfields, hin⟩
            exact ⟨⟨type, htype, hjoin⟩, hfields,
              ⟨doShown_nil.mp hin.do_, (branchShown_nil _).mp hin.then_,
                (branchShown_nil _).mp hin.else_⟩,
              (valueShown_none _).mp hin.if_, (valueShown_none _).mp hin.a,
              (valueShown_none _).mp hin.b⟩
          · rintro ⟨⟨type', htype', hjoin⟩, hfields, hst, hif, ha, hb⟩
            obtain rfl : type = type' := Option.some.inj (htype.symm.trans htype')
            exact ⟨hjoin, hfields, doShown_nil.mpr hst.do_, (branchShown_nil _).mpr hst.then_,
              (branchShown_nil _).mpr hst.else_, (valueShown_none _).mpr hif,
              (valueShown_none _).mpr ha, (valueShown_none _).mpr hb⟩

theorem test_iff {m : Option GateJson} :
    (topBlocks (ed.deserializeTest m).2 = [] ∧ ValueShown m (ed.deserializeTest m).1) ↔
      ∀ c, m = some c → ed.TestKept c := by
  cases m with
  | none => simp [deserializeTest]
  | some node =>
      simp only [deserializeTest, Option.some.injEq, forall_eq']
      cases htype : findBlockType node with
      | none =>
          simp only [deserializeSingleNode_eq_none htype, valueShown_none, reduceCtorEq, and_false,
            false_iff]
          rintro ⟨⟨type, hsome, -⟩, -⟩
          rw [htype] at hsome
          cases hsome
      | some type =>
          have hgen := generate_shown_iff htype (i := none)
            (a := (ed.deserializeOperand node.aMember).1)
            (b := (ed.deserializeOperand node.bMember).1) (d := []) (t := []) (e := [])
            (fun _ => rfl) (fun h => by rw [h]; rfl) (fun h => by rw [h]; rfl) (fun _ => rfl)
            (fun _ => rfl)
          have hconnect := @connectValue_iff ed
            ((Block.single (type, shownFields type node)).withOperands
              (ed.deserializeOperand node.aMember).1 (ed.deserializeOperand node.bMember).1) node
          simp only [Block.single, Block.withOperands, Block.type, hgen] at hconnect
          simp only [deserializeSingleNode_eq htype, Block.single, Block.withOperands,
            topBlocks_append, List.append_eq_nil_iff]
          constructor
          · rintro ⟨⟨⟨htop, htopA⟩, htopB⟩, hshown⟩
            obtain ⟨hjoin, hfields, hin⟩ := hconnect.mp ⟨htop, hshown⟩
            exact ⟨⟨type, htype, hjoin⟩, hfields,
              ⟨doShown_nil.mp hin.do_, (branchShown_nil _).mp hin.then_,
                (branchShown_nil _).mp hin.else_⟩,
              (valueShown_none _).mp hin.if_, operand_iff.mp ⟨htopA, hin.a⟩,
              operand_iff.mp ⟨htopB, hin.b⟩⟩
          · rintro ⟨⟨type', htype', hjoin⟩, hfields, hst, hif, ha, hb⟩
            obtain rfl : type = type' := Option.some.inj (htype.symm.trans htype')
            obtain ⟨htopA, hshownA⟩ := operand_iff.mpr ha
            obtain ⟨htopB, hshownB⟩ := operand_iff.mpr hb
            obtain ⟨htop, hshown⟩ := hconnect.mpr ⟨hjoin, hfields, doShown_nil.mpr hst.do_,
              (branchShown_nil _).mpr hst.then_, (branchShown_nil _).mpr hst.else_,
              (valueShown_none _).mpr hif, hshownA, hshownB⟩
            exact ⟨⟨⟨htop, htopA⟩, htopB⟩, hshown⟩

/-! ## Gates and documents -/

def gateOutputs (ed : Editor) (node : GateJson) : Option (List GateJson) :=
  (ed.deserializeGate node).bind fun workspace => (topBlocks workspace).mapM generate

theorem deserializeGate_eq_some_iff {node : GateJson} {type : BlockType}
    (htype : findBlockType node = some type) {workspace : Workspace} :
    ed.deserializeGate node = some workspace ↔
      ∃ do_ then_ else_, ed.deserializeChildren (GateJson.elements node.doMember) = some do_ ∧
        ed.deserializeChildren (GateJson.elements node.thenMember) = some then_ ∧
        ed.deserializeChildren (GateJson.elements node.elseMember) = some else_ ∧
        ed.initSvgCallable = true ∧
        workspace = [Block.mk type (shownFields type node) (ed.deserializeTest node.ifMember).1
            (ed.deserializeOperand node.aMember).1 (ed.deserializeOperand node.bMember).1
            do_.1 then_.1 else_.1] ::
          (do_.2 ++ then_.2 ++ else_.2 ++ (ed.deserializeTest node.ifMember).2 ++
            (ed.deserializeOperand node.aMember).2 ++ (ed.deserializeOperand node.bMember).2) := by
  simp only [deserializeGate, deserializeSingleNode_eq htype, Option.bind_eq_bind,
    Option.bind_eq_some_iff, Option.ite_none_right_eq_some, Option.some.injEq]
  constructor
  · rintro ⟨do_, hdo, then_, hthen, else_, helse, hcall, rfl⟩
    exact ⟨do_, then_, else_, hdo, hthen, helse, hcall, rfl⟩
  · rintro ⟨do_, then_, else_, hdo, hthen, helse, hcall, rfl⟩
    exact ⟨do_, hdo, then_, hthen, else_, helse, hcall, rfl⟩

theorem mapM_generate_eq_nil {blocks : List Block} (h : blocks.mapM generate = some []) :
    blocks = [] := by
  cases blocks with
  | nil => rfl
  | cons block rest => simp [Option.bind_eq_some_iff] at h

theorem mapM_generate_eq_single {block : Block} {rest : List Block} {node : GateJson} :
    (block :: rest).mapM generate = some [node] ↔ generate block = some node ∧ rest = [] := by
  constructor
  · intro h
    simp only [List.mapM_cons, Option.bind_eq_bind, Option.bind_eq_some_iff, Option.pure_def,
      Option.some.injEq, List.cons.injEq] at h
    obtain ⟨code, hcode, codes, hcodes, rfl, rfl⟩ := h
    exact ⟨hcode, mapM_generate_eq_nil hcodes⟩
  · rintro ⟨h, rfl⟩
    simp [h]

theorem exists_generate_of_mem {blocks : List Block} {codes : List GateJson}
    (h : blocks.mapM generate = some codes) {j : GateJson} (hj : j ∈ codes) :
    ∃ block, generate block = some j := by
  induction blocks generalizing codes with
  | nil =>
      simp only [List.mapM_nil, Option.pure_def, Option.some.injEq] at h
      simp [← h] at hj
  | cons block rest ih =>
      simp only [List.mapM_cons, Option.bind_eq_bind, Option.bind_eq_some_iff, Option.pure_def,
        Option.some.injEq] at h
      obtain ⟨code, hcode, codes', hcodes, rfl⟩ := h
      rcases List.mem_cons.mp hj with rfl | hin
      · exact ⟨block, hcode⟩
      · exact ih hcodes hin

theorem gateOutputs_ne_nil {node : GateJson} {type : BlockType}
    (htype : findBlockType node = some type) : gateOutputs ed node ≠ some [] := by
  intro h
  obtain ⟨workspace, hws, hgen⟩ := Option.bind_eq_some_iff.mp h
  obtain ⟨do_, then_, else_, -, -, -, -, rfl⟩ := (deserializeGate_eq_some_iff htype).mp hws
  have hnil := mapM_generate_eq_nil hgen
  rw [topBlocks_single] at hnil
  cases hnil

theorem findBlockType_of_fieldsKept {node : GateJson} (h : FieldsKept node) :
    ∃ type, findBlockType node = some type := by
  cases node with
  | array items => exact h.elim
  | text codes => exact h.elim
  | _ => exact ⟨_, rfl⟩

theorem gateOutputs_eq_self_iff {node : GateJson} :
    gateOutputs ed node = some [node] ↔ ed.initSvgCallable = true ∧ ed.GateKept node := by
  cases htype : findBlockType node with
  | none =>
      simp only [gateOutputs, deserializeGate, deserializeSingleNode_eq_none htype]
      constructor
      · intro h
        cases h
      · rintro ⟨-, hkept⟩
        obtain ⟨type, hsome⟩ := findBlockType_of_fieldsKept hkept.fields
        rw [htype] at hsome
        cases hsome
  | some type =>
      have hgen (d t e : List Block) (ht : node.thenMember = none → t = [])
          (he : node.elseMember = none → e = []) :=
        generate_shown_iff htype (i := (ed.deserializeTest node.ifMember).1)
          (a := (ed.deserializeOperand node.aMember).1)
          (b := (ed.deserializeOperand node.bMember).1) (d := d) (t := t) (e := e)
          (fun h => by rw [h]; rfl) (fun h => by rw [h]; rfl) (fun h => by rw [h]; rfl) ht he
      simp only [gateOutputs, Option.bind_eq_some_iff, deserializeGate_eq_some_iff htype]
      constructor
      · rintro ⟨_, ⟨do_, then_, else_, hdo, hthen, helse, hcall, rfl⟩, hout⟩
        rw [topBlocks_single, mapM_generate_eq_single, hgen _ _ _
          (fun h => branch_eq_nil h hthen) (fun h => branch_eq_nil h helse)] at hout
        obtain ⟨⟨hfields, hin⟩, htop⟩ := hout
        simp only [topBlocks_append, List.append_eq_nil_iff] at htop
        obtain ⟨⟨⟨-, htopIf⟩, htopA⟩, htopB⟩ := htop
        exact ⟨hcall, hfields,
          ⟨(doShown_iff hdo).mp hin.do_, (branchShown_iff hthen).mp hin.then_,
            (branchShown_iff helse).mp hin.else_⟩,
          test_iff.mp ⟨htopIf, hin.if_⟩, operand_iff.mp ⟨htopA, hin.a⟩,
          operand_iff.mp ⟨htopB, hin.b⟩⟩
      · rintro ⟨hcall, hfields, hst, hif, ha, hb⟩
        obtain ⟨htopIf, hshownIf⟩ := test_iff.mpr hif
        obtain ⟨htopA, hshownA⟩ := operand_iff.mpr ha
        obtain ⟨htopB, hshownB⟩ := operand_iff.mpr hb
        have hdo := @children_of_no_do ed _ hst.do_
        have hthen := @children_of_none ed _ hst.then_
        have helse := @children_of_none ed _ hst.else_
        refine ⟨_, ⟨_, _, _, hdo, hthen, helse, hcall, rfl⟩, ?_⟩
        rw [topBlocks_single, mapM_generate_eq_single, hgen _ _ _ (fun _ => rfl) (fun _ => rfl)]
        constructor
        · exact ⟨hfields, (doShown_iff hdo).mpr hst.do_, (branchShown_iff hthen).mpr hst.then_,
            (branchShown_iff helse).mpr hst.else_, hshownIf, hshownA, hshownB⟩
        · simp [htopIf, htopA, htopB]

theorem serialize_pieces (gates : List GateJson) :
    ((gates.mapM ed.deserializeGate).map List.flatten).bind
        (fun workspace => (topBlocks workspace).mapM generate) =
      (gates.mapM (gateOutputs ed)).map List.flatten := by
  induction gates with
  | nil => rfl
  | cons node rest ih =>
      simp only [List.mapM_cons, Option.bind_eq_bind, Option.pure_def]
      cases hnode : ed.deserializeGate node with
      | none => simp [gateOutputs, hnode]
      | some workspace =>
          have hout : gateOutputs ed node = (topBlocks workspace).mapM generate := by
            simp [gateOutputs, hnode]
          rw [hout]
          cases hrest : rest.mapM ed.deserializeGate with
          | none =>
              rw [hrest] at ih
              have hnone : rest.mapM (gateOutputs ed) = none :=
                Option.map_eq_none_iff.mp ih.symm
              simp [hnone]
          | some workspaces =>
              rw [hrest] at ih
              simp only [Option.map_some, Option.bind_some] at ih
              simp only [Option.bind_some, Option.map_some, List.flatten_cons, topBlocks_append,
                List.mapM_append, ih, Option.bind_eq_bind, Option.pure_def]
              cases (topBlocks workspace).mapM generate with
              | none => rfl
              | some codes =>
                  cases rest.mapM (gateOutputs ed) with
                  | none => rfl
                  | some pieces => rfl

theorem visualRoundTrip_eq (jsonDoc : GateChainDocument) :
    visualRoundTrip ed jsonDoc =
      ((jsonDoc.gates.mapM (gateOutputs ed)).map List.flatten).map
        fun gates => ⟨utf16Of "1.0", gates⟩ := by
  rw [← serialize_pieces, visualRoundTrip, deserializeToWorkspace]
  cases (jsonDoc.gates.mapM ed.deserializeGate).map List.flatten with
  | none => rfl
  | some workspace => rfl

end Editor

structure DocumentKept (ed : Editor) (jsonDoc : GateChainDocument) : Prop where
  version : jsonDoc.version = utf16Of "1.0"
  gates : ∀ node ∈ jsonDoc.gates, ed.initSvgCallable = true ∧ ed.GateKept node

/-- A document comes back from the visual editor exactly when its version is the one the
serializer writes and every gate survives. -/
theorem visual_editing_lossless_iff (ed : Editor) (jsonDoc : GateChainDocument) :
    visualRoundTrip ed jsonDoc = some jsonDoc ↔ DocumentKept ed jsonDoc := by
  have hout : ∀ node codes, Editor.gateOutputs ed node = some codes →
      ∀ j ∈ codes, Editor.gateOutputs ed j ≠ some [] := by
    intro node codes h j hj
    obtain ⟨workspace, -, hgen⟩ := Option.bind_eq_some_iff.mp h
    obtain ⟨block, hblock⟩ := Editor.exists_generate_of_mem hgen hj
    obtain ⟨type, htype⟩ := findBlockType_of_generate hblock
    exact Editor.gateOutputs_ne_nil htype
  have hself := flatten_eq_self_iff hout jsonDoc.gates
  simp only [Editor.gateOutputs_eq_self_iff] at hself
  rw [Editor.visualRoundTrip_eq]
  constructor
  · intro h
    obtain ⟨gates, hgates, hdoc⟩ := Option.map_eq_some_iff.mp h
    have hsame : gates = jsonDoc.gates := congrArg GateChainDocument.gates hdoc
    exact ⟨(congrArg GateChainDocument.version hdoc).symm, hself.mp (hsame ▸ hgates)⟩
  · intro h
    rw [hself.mpr h.gates, Option.map_some, ← h.version]

/-- A gate without a name comes back with the name `gate_id`. -/
theorem unnamed_gate_renamed :
    ¬∃ ed : Editor, visualRoundTrip ed
        ⟨utf16Of "1.0", [.gateDefault [] (utf16Of "default") (.array [])]⟩ =
      some ⟨utf16Of "1.0", [.gateDefault [] (utf16Of "default") (.array [])]⟩ := by
  rintro ⟨⟨connections, callable⟩, h⟩
  cases callable with
  | false => cases h
  | true =>
      have hgates := congrArg GateChainDocument.gates (Option.some.inj h)
      have hgate := List.head_eq_of_cons_eq hgates
      have hname : utf16Of "gate_id" = [] := (GateJson.gateDefault.inj hgate).1
      exact absurd hname (by decide)

end BlessStar.Blockly
