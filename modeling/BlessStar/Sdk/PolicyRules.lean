import BlessStar.Sdk.CommitBatch

/-!
# The policy gates of a session

`register_gate_rule_c` of `config_reload_session.cpp` for the gate type `policy`,
with `AppSession::registerGatePolicy` and `unregisterGatePolicy`.  Rules are
found in the JSON text by searching for bytes.
-/

namespace BlessStar.Sdk

open Lib.ByteString Lib.JsonText

inductive MetaOp
  | eq
  | ne
  | gt
  | lt
  | ge
  | le
  | exists
  | notExists
  | regex
  | contains
  deriving DecidableEq

structure MetaRule where
  instrName : Bytes
  key : Bytes
  op : MetaOp
  value : Bytes
  deriving DecidableEq

inductive ScenarioType
  | expenseReimburse
  | glMapping
  deriving DecidableEq

structure ScenarioPolicy where
  gateId : Bytes := []
  type : ScenarioType := .expenseReimburse
  metadataRules : List MetaRule := []
  deriving DecidableEq

/-- `policy_gates_`, which holds a gate once. -/
structure PolicyGates where
  policies : List ScenarioPolicy := []
  distinct : (policies.map (·.gateId)).Nodup

/-- The loop of `registerGatePolicy`. -/
def upsertPolicy (policy : ScenarioPolicy) : List ScenarioPolicy → List ScenarioPolicy
  | [] => [policy]
  | existing :: rest =>
      if existing.gateId = policy.gateId then policy :: rest
      else existing :: upsertPolicy policy rest

theorem mem_upsertPolicy {policy : ScenarioPolicy} {ps : List ScenarioPolicy} {id : Bytes}
    (h : id ∈ (upsertPolicy policy ps).map (·.gateId)) :
    id = policy.gateId ∨ id ∈ ps.map (·.gateId) := by
  induction ps with
  | nil => exact .inl (List.mem_singleton.mp h)
  | cons p ps ih =>
      by_cases hp : p.gateId = policy.gateId
      · rw [upsertPolicy, if_pos hp, List.map_cons] at h
        rcases List.mem_cons.mp h with h | h
        · exact .inl h
        · exact .inr (List.mem_cons_of_mem _ h)
      · rw [upsertPolicy, if_neg hp, List.map_cons] at h
        rcases List.mem_cons.mp h with h | h
        · exact .inr (h ▸ List.mem_cons_self)
        · exact (ih h).imp_right (List.mem_cons_of_mem _)

theorem nodup_upsertPolicy (policy : ScenarioPolicy) {ps : List ScenarioPolicy}
    (h : (ps.map (·.gateId)).Nodup) : ((upsertPolicy policy ps).map (·.gateId)).Nodup := by
  induction ps with
  | nil => exact List.nodup_singleton _
  | cons p ps ih =>
      obtain ⟨hp, hps⟩ := List.nodup_cons.mp h
      by_cases hid : p.gateId = policy.gateId
      · rw [upsertPolicy, if_pos hid, List.map_cons, ← hid]
        exact h
      · rw [upsertPolicy, if_neg hid, List.map_cons]
        refine List.nodup_cons.mpr ⟨fun hmem => ?_, ih hps⟩
        exact (mem_upsertPolicy hmem).elim hid hp

namespace PolicyGates

def registerGatePolicy (gates : PolicyGates) (gateId : Bytes) (policy : ScenarioPolicy) :
    PolicyGates where
  policies := upsertPolicy { policy with gateId } gates.policies
  distinct := nodup_upsertPolicy _ gates.distinct

def unregisterGatePolicy (gates : PolicyGates) (gateId : Bytes) : PolicyGates where
  policies := gates.policies.filter fun p => p.gateId ≠ gateId
  distinct := gates.distinct.sublist (List.filter_sublist.map _)

def policyOf (gates : PolicyGates) (gateId : Bytes) : Option ScenarioPolicy :=
  gates.policies.find? (·.gateId = gateId)

end PolicyGates

/-- What stands behind the first `"key":"` of a text, up to the next quote. -/
def firstValue (json : Bytes) (key : String) : Option Bytes :=
  let needle := ascii "\"" ++ ascii key ++ ascii "\":\""
  match fromFirst needle json with
  | none => none
  | some s =>
      match (s.drop needle.length).dropWhile (· ≠ 34) with
      | [] => none
      | _ => some ((s.drop needle.length).takeWhile (· ≠ 34))

def extractStr (json : Bytes) (key : String) (fallback : Bytes) : Bytes :=
  (firstValue json key).getD fallback

def metaOpOf (op : Bytes) : MetaOp :=
  if op = ascii "eq" then .eq
  else if op = ascii "neq" then .ne
  else if op = ascii "gt" then .gt
  else if op = ascii "lt" then .lt
  else if op = ascii "gte" then .ge
  else if op = ascii "lte" then .le
  else if op = ascii "in" then .contains
  else if op = ascii "match" then .regex
  else if op = ascii "exists" then .exists
  else if op = ascii "not_exists" then .notExists
  else .eq

def ruleOf (json obj : Bytes) : MetaRule where
  instrName := extractStr json "instr_name" obj
  key := extractStr json "key" obj
  op := metaOpOf (extractStr json "op" obj)
  value := extractStr json "value" obj

def walkObjects : Nat → Bytes → List Bytes
  | 0, _ => []
  | fuel + 1, s =>
      match s.dropWhile (· ≠ 123) with
      | [] => []
      | _ :: obj =>
          if 93 ∈ s.takeWhile (· ≠ 123) then []
          else
            match obj.dropWhile (· ≠ 125) with
            | [] => []
            | _ :: next => (123 :: (obj.takeWhile (· ≠ 125) ++ [125])) :: walkObjects fuel next

/-- The objects behind the first `"metadata_rules"`. -/
def ruleObjects (json : Bytes) : List Bytes :=
  match fromFirst (ascii "\"metadata_rules\"") json with
  | none => []
  | some s =>
      match s.dropWhile (· ≠ 91) with
      | [] => []
      | _ :: s => walkObjects (s.length + 1) s

/-- `register_gate_rule_c` with the gate type `policy`, on a session that is ok. -/
def registerGateRule (gates : PolicyGates) (json : Bytes) : Int × PolicyGates :=
  let gateId := extractStr json "gate_id" []
  let action := extractStr json "action" (ascii "add_rule")
  if action = ascii "remove_rule" then
    if gateId = [] then (-1, gates) else (0, gates.unregisterGatePolicy gateId)
  else
    let scenario := extractStr json "scenario" (ascii "production")
    let policy : ScenarioPolicy := {
      type := if scenario = ascii "production" then .expenseReimburse else .glMapping
      metadataRules := (ruleObjects json).map (ruleOf json) }
    if gateId = [] then (-1, gates) else (0, gates.registerGatePolicy gateId policy)

structure RuleObject where
  before : Bytes
  members : Members
  after : Bytes
  instrName : Bytes
  key : Bytes
  op : Bytes
  value : Bytes
  gaps : IsGap before ∧ IsGap after
  valid : members.Valid
  flat : ∀ c ∈ members.text, c ∉ ascii "\x7b\x7d[]"
  own : ∀ e ∈ [(ascii "instr_name", instrName), (ascii "key", key), (ascii "op", op),
    (ascii "value", value)], stringMember e.1 members.fields = some e.2
  clean : ∀ s ∈ [instrName, key, op, value], ∀ c ∈ s, c ∉ ascii "\"\\\x7b\x7d[]"

namespace RuleObject

def text (o : RuleObject) : Bytes := 123 :: (o.members.text ++ [125])

def rule (o : RuleObject) : MetaRule :=
  { instrName := o.instrName, key := o.key, op := metaOpOf o.op, value := o.value }

end RuleObject

def objectsText : List RuleObject → Bytes
  | [] => []
  | o :: os =>
      o.before ++ o.text ++ o.after ++ (if os.isEmpty then [] else [44]) ++ objectsText os

/-- A text with an array of rules; what stands around it is arbitrary. -/
structure PolicyDocument where
  before : Bytes
  colon : Bytes
  blank : Bytes
  rules : List RuleObject
  after : Bytes
  gaps : (∃ a b, colon = a ++ 58 :: b ∧ IsGap a ∧ IsGap b) ∧ IsGap blank

namespace PolicyDocument

def arrayText (d : PolicyDocument) : Bytes := d.blank ++ objectsText d.rules ++ 93 :: d.after

def text (d : PolicyDocument) : Bytes :=
  d.before ++ (ascii "\"metadata_rules\"" ++ d.colon ++ 91 :: d.arrayText)

end PolicyDocument

/-- The rules of the document, and no others, are those of its gate; other gates stay. -/
def RegistersRules (gates : PolicyGates) (d : PolicyDocument) : Prop :=
  (registerGateRule gates d.text).1 = 0 ∧
    ∃ policy, firstValue d.text "gate_id" = some policy.gateId ∧
      policy.metadataRules = d.rules.map (·.rule) ∧
      (registerGateRule gates d.text).2.policyOf policy.gateId = some policy ∧
      ∀ id, id ≠ policy.gateId →
        (registerGateRule gates d.text).2.policyOf id = gates.policyOf id

structure FirstValuesAgree (d : PolicyDocument) : Prop where
  gateId : ∃ id, id ≠ [] ∧ firstValue d.text "gate_id" = some id
  action : firstValue d.text "action" ≠ some (ascii "remove_rule")
  objects : (ruleObjects d.text).length = d.rules.length
  values : ∀ o ∈ d.rules, firstValue d.text "instr_name" = some o.instrName ∧
    firstValue d.text "key" = some o.key ∧ firstValue d.text "value" = some o.value ∧
    metaOpOf ((firstValue d.text "op").getD []) = metaOpOf o.op

theorem find?_upsertPolicy (policy : ScenarioPolicy) (ps : List ScenarioPolicy) (id : Bytes) :
    (upsertPolicy policy ps).find? (·.gateId = id) =
      if id = policy.gateId then some policy else ps.find? (·.gateId = id) := by
  induction ps with
  | nil =>
      by_cases h : id = policy.gateId
      · simp [upsertPolicy, h]
      · have hne : policy.gateId ≠ id := fun heq => h heq.symm
        simp [upsertPolicy, h, hne]
  | cons p ps ih =>
      by_cases hp : p.gateId = policy.gateId
      · by_cases h : id = policy.gateId
        · simp [upsertPolicy, hp, h]
        · have hne : policy.gateId ≠ id := fun heq => h heq.symm
          simp [upsertPolicy, hp, h, hne]
      · by_cases h' : p.gateId = id
        · have hne : id ≠ policy.gateId := fun heq => hp (h'.trans heq)
          simp [upsertPolicy, h', hne]
        · simp [upsertPolicy, hp, h', ih]

theorem policyOf_register (gates : PolicyGates) (gateId : Bytes) (policy : ScenarioPolicy)
    (id : Bytes) :
    (gates.registerGatePolicy gateId policy).policyOf id =
      if id = gateId then some { policy with gateId } else gates.policyOf id :=
  find?_upsertPolicy _ _ _

theorem policyOf_unregister (gates : PolicyGates) (gateId : Bytes) :
    (gates.unregisterGatePolicy gateId).policyOf gateId = none := by
  rw [PolicyGates.policyOf, List.find?_eq_none]
  intro p hp
  have hne := (List.mem_filter.mp hp).2
  simpa using hne

theorem mem_brace_of_walkObjects {fuel : Nat} {s obj : Bytes} (h : obj ∈ walkObjects fuel s) :
    (123 : UInt8) ∈ obj := by
  induction fuel generalizing s with
  | zero => exact absurd h List.not_mem_nil
  | succ fuel ih =>
      rw [walkObjects] at h
      split at h
      · exact absurd h List.not_mem_nil
      · split at h
        · exact absurd h List.not_mem_nil
        · split at h
          · exact absurd h List.not_mem_nil
          · rcases List.mem_cons.mp h with rfl | h
            · exact List.mem_cons_self
            · exact ih h

theorem mem_brace_of_ruleObjects {json obj : Bytes} (h : obj ∈ ruleObjects json) :
    (123 : UInt8) ∈ obj := by
  rw [ruleObjects] at h
  split at h
  · exact absurd h List.not_mem_nil
  · split at h
    · exact absurd h List.not_mem_nil
    · exact mem_brace_of_walkObjects h

theorem metaOpOf_object {obj : Bytes} (h : (123 : UInt8) ∈ obj) : metaOpOf obj = .eq := by
  have hnames : ∀ name ∈ ["eq", "neq", "gt", "lt", "gte", "lte", "in", "match", "exists",
      "not_exists"], (123 : UInt8) ∉ ascii name := by
    decide
  have hne : ∀ name ∈ ["eq", "neq", "gt", "lt", "gte", "lte", "in", "match", "exists",
      "not_exists"], obj ≠ ascii name :=
    fun name hmem heq => hnames name hmem (heq ▸ h)
  simp only [List.forall_mem_cons] at hne
  simp [metaOpOf, hne]

theorem ruleOf_eq_iff {json obj : Bytes} (hobj : (123 : UInt8) ∈ obj) (o : RuleObject) :
    ruleOf json obj = o.rule ↔
      firstValue json "instr_name" = some o.instrName ∧ firstValue json "key" = some o.key ∧
        firstValue json "value" = some o.value ∧
        metaOpOf ((firstValue json "op").getD []) = metaOpOf o.op := by
  have hclean : ∀ s ∈ [o.instrName, o.key, o.op, o.value], s ≠ obj := by
    intro s hs heq
    exact o.clean s hs 123 (heq ▸ hobj) (by decide)
  simp only [List.forall_mem_cons] at hclean
  have hstring : ∀ key s, s ≠ obj → (extractStr json key obj = s ↔ firstValue json key = some s) := by
    intro key s hne
    rw [extractStr]
    cases firstValue json key with
    | none => exact iff_of_false (fun heq => hne heq.symm) (Option.some_ne_none s).symm
    | some v => simp
  have hop : metaOpOf (extractStr json "op" obj) = metaOpOf ((firstValue json "op").getD []) := by
    rw [extractStr]
    cases firstValue json "op" with
    | none => exact metaOpOf_object hobj
    | some v => rfl
  rw [ruleOf, RuleObject.rule, MetaRule.mk.injEq, hstring _ _ hclean.1, hstring _ _ hclean.2.1,
    hstring _ _ hclean.2.2.2.1, hop]
  constructor
  · exact fun h => ⟨h.1, h.2.1, h.2.2.2, h.2.2.1⟩
  · exact fun h => ⟨h.1, h.2.1, h.2.2.2, h.2.2.1⟩

theorem registerGateRule_add {gates : PolicyGates} {json id : Bytes}
    (haction : firstValue json "action" ≠ some (ascii "remove_rule")) (hid : id ≠ [])
    (hgate : firstValue json "gate_id" = some id) :
    ∃ type, registerGateRule gates json = (0, gates.registerGatePolicy id
      { type, metadataRules := (ruleObjects json).map (ruleOf json) }) := by
  have hextract : extractStr json "action" (ascii "add_rule") ≠ ascii "remove_rule" := by
    rw [extractStr]
    intro heq
    cases hvalue : firstValue json "action" with
    | none =>
        rw [hvalue] at heq
        exact absurd heq (by decide)
    | some v =>
        rw [hvalue, Option.getD_some] at heq
        exact haction (hvalue.trans (congrArg some heq))
  have hgateId : extractStr json "gate_id" [] = id := by rw [extractStr, hgate, Option.getD_some]
  rw [registerGateRule]
  dsimp only
  rw [if_neg hextract, hgateId, if_neg hid]
  exact ⟨_, rfl⟩

theorem FirstValuesAgree.registers {d : PolicyDocument} (h : FirstValuesAgree d)
    (gates : PolicyGates) : RegistersRules gates d := by
  obtain ⟨id, hid, hgate⟩ := h.gateId
  obtain ⟨type, hresult⟩ := @registerGateRule_add gates d.text id h.action hid hgate
  have hrules : (ruleObjects d.text).map (ruleOf d.text) = d.rules.map (·.rule) := by
    apply List.ext_getElem
    · rw [List.length_map, List.length_map, h.objects]
    · intro i hi hi'
      rw [List.getElem_map, List.getElem_map]
      apply (ruleOf_eq_iff (mem_brace_of_ruleObjects (List.getElem_mem _)) _).mpr
      exact h.values _ (List.getElem_mem _)
  rw [RegistersRules, hresult]
  refine ⟨rfl, { gateId := id, type, metadataRules := d.rules.map (·.rule) }, hgate, rfl, ?_, ?_⟩
  · rw [policyOf_register, if_pos rfl, hrules]
  · intro other hother
    rw [policyOf_register, if_neg hother]

theorem RegistersRules.firstValuesAgree {gates : PolicyGates} {d : PolicyDocument}
    (h : RegistersRules gates d) : FirstValuesAgree d := by
  obtain ⟨hrc, policy, hgate, hrules, hpolicy, -⟩ := h
  have hgateId : extractStr d.text "gate_id" [] = policy.gateId := by
    rw [extractStr, hgate, Option.getD_some]
  have hid : policy.gateId ≠ [] := by
    intro hempty
    rw [registerGateRule, hgateId] at hrc
    dsimp only at hrc
    rw [if_pos hempty, if_pos hempty] at hrc
    have hne : (-1 : Int) ≠ 0 := by decide
    split at hrc <;> exact hne hrc
  have haction : firstValue d.text "action" ≠ some (ascii "remove_rule") := by
    intro hremove
    have hextract : extractStr d.text "action" (ascii "add_rule") = ascii "remove_rule" := by
      rw [extractStr, hremove, Option.getD_some]
    rw [registerGateRule, hgateId] at hpolicy
    dsimp only at hpolicy
    rw [if_pos hextract, if_neg hid, policyOf_unregister] at hpolicy
    exact absurd hpolicy (Option.some_ne_none policy).symm
  obtain ⟨type, hresult⟩ := @registerGateRule_add gates d.text policy.gateId haction hid hgate
  rw [hresult, policyOf_register, if_pos rfl, Option.some.injEq] at hpolicy
  have hmap : (ruleObjects d.text).map (ruleOf d.text) = d.rules.map (·.rule) := by
    rw [← hrules, ← hpolicy]
  have hlength : (ruleObjects d.text).length = d.rules.length := by
    have heq := congrArg List.length hmap
    rwa [List.length_map, List.length_map] at heq
  refine ⟨⟨policy.gateId, hid, hgate⟩, haction, hlength, ?_⟩
  intro o ho
  obtain ⟨i, hi, rfl⟩ := List.mem_iff_getElem.mp ho
  have hi' : i < (ruleObjects d.text).length := by omega
  have hrule := List.getElem_of_eq hmap (i := i) (by rw [List.length_map]; exact hi')
  rw [List.getElem_map, List.getElem_map] at hrule
  exact (ruleOf_eq_iff (mem_brace_of_ruleObjects (List.getElem_mem hi')) _).mp hrule

/-- **A policy gate gets its own rules** just when every object has the strings that stand
first in the text. -/
theorem registersRules_iff (gates : PolicyGates) (d : PolicyDocument) :
    RegistersRules gates d ↔ FirstValuesAgree d :=
  ⟨fun h => h.firstValuesAgree, fun h => h.registers gates⟩

/-- The members of a rule on the instruction `i` with the value `1`. -/
def sampleMembers (key : String) : Members :=
  compactMembers (ascii "instr_name", .string (ascii "i"))
    [(ascii "key", .string (ascii key)), (ascii "op", .string (ascii "eq")),
      (ascii "value", .string (ascii "1"))]

def sampleRule (key : String) (hkey : key ∈ ["a", "b"]) : RuleObject where
  before := []
  members := sampleMembers key
  after := []
  instrName := ascii "i"
  key := ascii key
  op := ascii "eq"
  value := ascii "1"
  gaps := ⟨.nil, .nil⟩
  valid := by
    have hplain : ∀ s ∈ ["instr_name", "i", "key", "op", "eq", "value", "1", "a", "b"],
        Lib.JsonText.IsPlain (ascii s) := by
      decide
    have hbody : ∀ s ∈ ["instr_name", "i", "key", "op", "eq", "value", "1", "a", "b"],
        IsBody (ascii s) := fun s hs => (hplain s hs).isBody
    have hown : key ∈ ["instr_name", "i", "key", "op", "eq", "value", "1", "a", "b"] := by
      revert key
      decide
    exact ⟨⟨.nil, hbody _ (by decide), .nil, .nil⟩, hbody _ (by decide), .nil,
      ⟨.nil, hbody _ (by decide), .nil, .nil⟩, hbody _ hown, .nil,
      ⟨.nil, hbody _ (by decide), .nil, .nil⟩, hbody _ (by decide), .nil,
      ⟨.nil, hbody _ (by decide), .nil, .nil⟩, hbody _ (by decide), .nil⟩
  flat := by
    revert key
    decide +kernel
  own := by
    revert key
    decide +kernel
  clean := by
    revert key
    decide +kernel

/-- Two rules on the keys `a` and `b`. -/
def twoRules : PolicyDocument where
  before := ascii "\x7b\"gate_id\":\"g\","
  colon := ascii ":"
  blank := []
  rules := [sampleRule "a" (by decide), sampleRule "b" (by decide)]
  after := ascii "\x7d"
  gaps := ⟨⟨[], [], rfl, .nil, .nil⟩, .nil⟩

/-- Both rules get the first key. -/
theorem second_rule_misread :
    ¬RegistersRules { policies := [], distinct := List.nodup_nil } twoRules := by
  intro h
  have hkey := (h.firstValuesAgree.values (sampleRule "b" (by decide)) (by simp [twoRules])).2.1
  exact absurd hkey (by decide +kernel)

end BlessStar.Sdk
