import BlessStar.Gate.Proofs.JsonRoundTrip
import BlessStar.Gate.Proofs.MapCorrectness
import BlessStar.Gate.Proofs.RuleLoading

/-!
# Building and enforcing a chain

Only the first node of a chain becomes its root and no node gets an edge, so a chain
enforces one rule at most, and that one as far as the evaluator knows its operator.
-/

namespace BlessStar.Gate

open Lib.ByteString

namespace Proofs.RuleEnforcement

section

variable {ν : Type} (D : CDouble ν) (fits : Bytes → Bytes → Prop)

theorem mem_splitTokens (thresh value : Bytes) :
    value ∈ splitTokens thresh ↔ value ≠ [] ∧ value ∈ thresh.splitOn (ch ',') := by
  rw [splitTokens, List.mem_filter, and_comm]
  simp only [ne_eq, decide_eq_true_eq]
  rfl

theorem evalOp_range (thresh value : Bytes) :
    evalOp D (ascii "range") thresh value = true ↔
      (ch ',' ∈ thresh → IsBetween D thresh value) := by
  by_cases hcomma : ch ',' ∈ thresh
  · have hmem : (44 : UInt8) ∈ thresh := hcomma
    simp +decide only [evalOp, if_pos hmem, IsBetween, hcomma, Bool.and_eq_true, true_and,
      true_implies, if_true, if_false]
    rfl
  · have hmem : (44 : UInt8) ∉ thresh := hcomma
    simp +decide only [evalOp, if_neg hmem, hcomma, if_true, if_false, false_implies]

theorem mem_of_mem_rangeInner {c : UInt8} {thresh : Bytes} (h : c ∈ rangeInner thresh) :
    c ∈ thresh := by
  have hskip : ∀ d, c ∈ jsonSkipByte (ch '[') thresh → d = thresh → c ∈ d := by
    rintro d hc rfl
    unfold jsonSkipByte at hc
    split at hc
    · exact List.mem_of_mem_tail hc
    · exact hc
  apply hskip _ _ rfl
  unfold rangeInner at h
  dsimp only at h
  split at h
  · exact List.mem_of_mem_dropLast h
  · exact h

theorem enforceable_range (thresh : Bytes) :
    (∀ value, ¬IsBetween D (rangeInner thresh) value →
        evalOp D (ascii "range") thresh value = false) ↔
      ch ',' ∈ thresh ∧
        ∀ value, IsBetween D thresh value → IsBetween D (rangeInner thresh) value := by
  simp only [← Bool.not_eq_true, evalOp_range]
  constructor
  · intro h
    refine ⟨?_, ?_⟩
    · by_contra hcomma
      have hin : IsBetween D (rangeInner thresh) [] := by
        by_contra hout
        exact h [] hout fun hc => absurd hc hcomma
      exact hcomma (mem_of_mem_rangeInner hin.1)
    · intro value hval
      by_contra hout
      exact h value hout fun _ => hval
  · rintro ⟨hcomma, h⟩ value hout heval
    exact hout (h value (heval hcomma))

/-- **The evaluator rejects every value that violates a rule exactly if it can enforce
the rule.** -/
theorem enforceable_iff (op thresh : Bytes) :
    (∀ value, ¬Satisfies D fits op thresh value → evalOp D op thresh value = false) ↔
      Enforceable D fits op thresh := by
  by_cases heq : op = ascii "eq"
  · subst heq
    simp +decide [Satisfies, Enforceable, evalOp]
  by_cases hne : op = ascii "ne"
  · subst hne
    simp +decide [Satisfies, Enforceable, evalOp]
  by_cases hgt : op = ascii "gt"
  · subst hgt
    simp +decide [Satisfies, Enforceable, evalOp, cmpNumeric]
    grind
  by_cases hlt : op = ascii "lt"
  · subst hlt
    simp +decide [Satisfies, Enforceable, evalOp, cmpNumeric]
    grind
  by_cases hgte : op = ascii "gte"
  · subst hgte
    simp +decide [Satisfies, Enforceable, evalOp, cmpNumeric]
    grind
  by_cases hlte : op = ascii "lte"
  · subst hlte
    simp +decide [Satisfies, Enforceable, evalOp, cmpNumeric]
    grind
  by_cases hin : op = ascii "in"
  · subst hin
    simp +decide [Satisfies, Enforceable, evalOp, mem_splitTokens]
  by_cases hrange : op = ascii "range"
  · subst hrange
    simpa +decide only [Satisfies, Enforceable, if_true, if_false] using enforceable_range D thresh
  by_cases hmatch : op = ascii "match"
  · subst hmatch
    simp +decide [Satisfies, Enforceable, evalOp]
  simp [Satisfies, Enforceable, heq, hne, hgt, hlt, hgte, hlte, hin, hrange, hmatch]

theorem type_ruleNode (r : GateRuleDef) :
    ∃ type, (ruleNode r).type = some type ∧ isLeafType type = true ∧
      type ≠ ascii "bs_logic_and" ∧ type ≠ ascii "bs_gate_root" ∧ type ≠ ascii "bs_logic_or" := by
  unfold ruleNode
  dsimp only
  split
  · exact ⟨_, rfl, by decide, by decide, by decide, by decide⟩
  · split
    · exact ⟨_, rfl, by decide, by decide, by decide, by decide⟩
    · exact ⟨_, rfl, by decide, by decide, by decide, by decide⟩

theorem condition_ruleNode (r : GateRuleDef) :
    (ruleNode r).fieldKey = some r.fieldKey ∧ (ruleNode r).op = some r.op ∧
      (ruleNode r).value = some r.value := by
  unfold ruleNode
  dsimp only
  split
  · exact ⟨rfl, rfl, rfl⟩
  · split <;> exact ⟨rfl, rfl, rfl⟩

theorem passed_ruleNode (r : GateRuleDef) (value : Bytes) :
    (gateEvaluatorEvaluate D ⟨some r.fieldKey, some value⟩
      { root := some (.mk (ruleNode r) [] []) }).passed = evalOp D r.op r.value value := by
  obtain ⟨type, htype, hleaf, hand, hroot, hor⟩ := type_ruleNode r
  obtain ⟨hfield, hop, hvalue⟩ := condition_ruleNode r
  have hnode : evalNodeRecursive D ⟨some r.fieldKey, some value⟩ (.mk (ruleNode r) [] []) {} =
      if evalOp D r.op r.value value then (true, {})
      else (false, GateFailure.at {} (ruleNode r).layer) := by
    simp [evalNodeRecursive, htype, hand, hroot, hor, hleaf, otherField, hfield, hop, hvalue,
      evalCondition, evalAll]
  simp only [gateEvaluatorEvaluate, hnode]
  cases evalOp D r.op r.value value <;> rfl

theorem length_le_one_of_ownNodes {chain : LinkedChain} {rules : List GateRuleDef}
    (h : OwnNodes chain rules) : rules.length ≤ 1 := by
  obtain ⟨ptrs, hnodup, hall⟩ := h
  have hsub : ptrs ⊆ chain.reachable := ((List.forall₂_and_left ptrs rules).mp hall).1
  have hlen := (List.subperm_of_subset hnodup hsub).length_le
  rw [← hall.length_eq]
  have hone : chain.reachable.length ≤ 1 := by
    unfold LinkedChain.reachable
    cases chain.root <;> simp
  omega

theorem buildGateChain_one (fuel : Nat) (r : GateRuleDef) :
    ∃ map, buildGateChain (fuel + 3) {} [r] =
      some { nodes := [ruleNode r], root := some 0, map := some map } := by
  obtain ⟨key, hkey⟩ : ∃ key, (ruleNode r).stableKey = some key := by
    unfold ruleNode
    dsimp only
    split
    · exact ⟨_, rfl⟩
    · split <;> exact ⟨_, rfl⟩
  obtain ⟨map, hinsert, -⟩ := MapCorrectness.insert_spec
    (MapCorrectness.follows_create (α := Nat) 16).valid key 0 fuel
  have hlookup : (GateMap.create (α := Nat) 16).lookup key = none := if_pos rfl
  have hupsert : LinkedChain.upsertNode (fuel + 3) {} (ruleNode r) =
      some { nodes := [ruleNode r], root := some 0, map := some map } := by
    simp [LinkedChain.upsertNode, hkey, hlookup, hinsert, LinkedChain.addNode]
  exact ⟨map, by simp [buildGateChain, hupsert]⟩

/-- **The chain of at most one rule enforces what the evaluator can.** -/
theorem enforced_iff (rules : List GateRuleDef) :
    (∀ fuel, ∃ chain, buildGateChain (fuel + 3) {} rules = some chain ∧ OwnNodes chain rules ∧
        ∀ r ∈ rules, Guards D fits chain r) ↔
      rules.length ≤ 1 ∧ ∀ r ∈ rules, Enforceable D fits r.op r.value := by
  have guards_one : ∀ (r : GateRuleDef) (map : GateMap Nat),
      Guards D fits { nodes := [ruleNode r], root := some 0, map := some map } r ↔
        Enforceable D fits r.op r.value := by
    intro r map
    rw [← enforceable_iff]
    apply forall_congr'
    intro value
    rw [← passed_ruleNode]
    rfl
  constructor
  · intro h
    obtain ⟨chain, hbuild, hown, hguards⟩ := h 0
    have hlen := length_le_one_of_ownNodes hown
    refine ⟨hlen, fun r hr => ?_⟩
    obtain ⟨r', rfl⟩ : ∃ r', rules = [r'] :=
      List.length_eq_one_iff.mp (Nat.le_antisymm hlen (List.length_pos_of_mem hr))
    obtain ⟨map, hone⟩ := buildGateChain_one 0 r'
    rw [hone] at hbuild
    injection hbuild with hchain
    have hr' : r = r' := List.mem_singleton.mp hr
    rw [hr', ← guards_one r' map, hchain]
    exact hguards r' List.mem_cons_self
  · rintro ⟨hlen, henf⟩ fuel
    cases rules with
    | nil => exact ⟨_, rfl, ⟨[], List.nodup_nil, .nil⟩, by simp⟩
    | cons r rules =>
        obtain rfl : rules = [] := List.length_eq_zero_iff.mp (by simpa using hlen)
        obtain ⟨map, hone⟩ := buildGateChain_one fuel r
        refine ⟨_, hone, ⟨[0], List.nodup_singleton 0, .cons ⟨?_, rfl⟩ .nil⟩, ?_⟩
        · exact List.mem_singleton.mpr rfl
        · intro r' hr'
          rw [List.mem_singleton.mp hr']
          exact (guards_one r map).mpr (henf r List.mem_cons_self)

end

end Proofs.RuleEnforcement

def sampleMember (name val : String) : RuleMember :=
  ⟨ascii name, ascii name, .string (ascii val) (ascii val)⟩

/-- The rule that a field is equal to `1`. -/
def sampleRule (key : String) : List RuleMember :=
  [sampleMember "field_key" key, sampleMember "op" "eq", sampleMember "value" "1",
    ⟨ascii "layer", ascii "layer", .nat 0⟩]

def sampleText (key : String) : Bytes :=
  ascii "\x7b\"field_key\":\"" ++ ascii key ++
    ascii "\",\"op\":\"eq\",\"value\":\"1\",\"layer\":0\x7d"

namespace Proofs.RuleEnforcement

theorem spells_self {s : Bytes} (h : ∀ c ∈ s, 32 ≤ c ∧ c ≠ ch '"' ∧ c ≠ ch '\\') :
    SpellsString s s ∧ SpellsJsonString s s := by
  induction s with
  | nil => exact ⟨.nil, .nil⟩
  | cons c s ih =>
      rw [List.forall_mem_cons] at h
      obtain ⟨hlow, hquote, hslash⟩ := h.1
      have hzero : c ≠ 0 := by
        rintro rfl
        exact absurd hlow (by decide)
      obtain ⟨hs, hjson⟩ := ih h.2
      exact ⟨.raw hzero hquote hslash hs, .raw hlow hquote hslash hjson⟩

theorem spells_names : ∀ name ∈ ["field_key", "op", "value", "layer", "eq", "1"],
    SpellsString (ascii name) (ascii name) ∧ SpellsJsonString (ascii name) (ascii name) := by
  intro name hname
  apply spells_self
  have hall : ∀ name ∈ ["field_key", "op", "value", "layer", "eq", "1"],
      ∀ c ∈ ascii name, 32 ≤ c ∧ c ≠ ch '"' ∧ c ≠ ch '\\' := by decide
  exact hall name hname

theorem typed_sampleMember {name : String} (hname : ascii name ∈ ascii "value" :: stringNames)
    (val : String) : (sampleMember name val).IsTyped := by
  have hother : ∀ n ∈ ascii "value" :: stringNames, n ≠ ascii "layer" ∧ n ≠ ascii "enabled" := by
    decide
  obtain ⟨hlayer, henabled⟩ := hother _ hname
  refine ⟨fun _ => ⟨_, _, rfl⟩, ?_, fun h => absurd h hlayer, fun h => absurd h henabled⟩
  intro _ text h
  cases h

theorem readable_sampleMember {name val : String} (hname : ascii name ≠ [])
    (hspelled : SpellsString (ascii name) (ascii name))
    (hval : SpellsString (ascii val) (ascii val)) : (sampleMember name val).IsReadable :=
  ⟨hspelled, hname, fun _ => hval⟩

theorem rule_sample {key : String} (hkey : SpellsString (ascii key) (ascii key) ∧
      SpellsJsonString (ascii key) (ascii key)) :
    SpellsRule (sampleRule key) (sampleText key) ∧ ∀ m ∈ sampleRule key, m.IsReadable := by
  have hnames := spells_names
  simp only [List.forall_mem_cons, List.not_mem_nil, false_implies, implies_true, and_true]
    at hnames
  obtain ⟨hfield, hop, hvalue, hlayer, heq, hone⟩ := hnames
  have hgap : IsGap [] := fun c hc => by cases hc
  have hdistinct : [ascii "field_key", ascii "op", ascii "value", ascii "layer"].Nodup := by decide
  refine ⟨⟨⟨?_, ?_, ?_, hdistinct⟩, ?_⟩, ?_⟩
  · simp only [sampleRule, List.forall_mem_cons, List.not_mem_nil, false_implies, implies_true,
      and_true]
    exact ⟨hfield.2, hop.2, hvalue.2, hlayer.2⟩
  · simp only [sampleRule, List.forall_mem_cons, List.not_mem_nil, false_implies, implies_true,
      and_true]
    exact ⟨hkey.2, heq.2, hone.2, trivial⟩
  · simp only [sampleRule, List.forall_mem_cons, List.not_mem_nil, false_implies, implies_true,
      and_true]
    refine ⟨typed_sampleMember (by decide) key, typed_sampleMember (by decide) _,
      typed_sampleMember (by decide) _, ?_⟩
    exact ⟨fun h => absurd h (by decide), fun h => absurd h (by decide),
      fun _ => ⟨0, by decide, rfl⟩, fun h => absurd h (by decide)⟩
  · have hlist : SpellsList SpellsMember (sampleRule key) _ :=
      .more hgap (.mk hgap hgap) hgap (.more hgap (.mk hgap hgap) hgap
        (.more hgap (.mk hgap hgap) hgap (.last hgap (.mk hgap hgap) hgap)))
    have hrule := @SpellsBracketed.list _ (ch '\x7b') (ch '\x7d') _ _ _ hlist
    simp only [sampleMember, RuleValue.text, List.append_assoc, List.cons_append,
      List.nil_append] at hrule
    convert hrule using 1
    simp only [sampleText, List.append_assoc]
    rfl
  · simp only [sampleRule, List.forall_mem_cons, List.not_mem_nil, false_implies, implies_true,
      and_true]
    exact ⟨readable_sampleMember (by decide) hfield.1 hkey.1,
      readable_sampleMember (by decide) hop.1 heq.1,
      readable_sampleMember (by decide) hvalue.1 hone.1, hlayer.1, by decide, trivial⟩

theorem spells_fields : ∀ key ∈ ["a", "b"],
    SpellsString (ascii key) (ascii key) ∧ SpellsJsonString (ascii key) (ascii key) := by
  intro key hkey
  apply spells_self
  have hall : ∀ key ∈ ["a", "b"], ∀ c ∈ ascii key, 32 ≤ c ∧ c ≠ ch '"' ∧ c ≠ ch '\\' := by decide
  exact hall key hkey

theorem file_one : SpellsFile [sampleRule "a"] (ascii "[" ++ sampleText "a" ++ ascii "]") := by
  have hgap : IsGap [] := fun c hc => by cases hc
  have hrule := (rule_sample (spells_fields "a" (by decide))).1
  have hfile := SpellsFile.mk hgap
    (@SpellsBracketed.list _ (ch '[') (ch ']') _ _ _ (.last hgap hrule hgap)) hgap
  convert hfile using 1
  simp only [List.append_assoc]
  rfl

theorem file_two : SpellsFile [sampleRule "a", sampleRule "b"]
    (ascii "[" ++ sampleText "a" ++ ascii "," ++ sampleText "b" ++ ascii "]") := by
  have hgap : IsGap [] := fun c hc => by cases hc
  have hrules := fun key hkey => (rule_sample (spells_fields key hkey)).1
  have hfile := SpellsFile.mk hgap (@SpellsBracketed.list _ (ch '[') (ch ']') _ _ _
    (.more hgap (hrules "a" (by decide)) hgap (.last hgap (hrules "b" (by decide)) hgap))) hgap
  convert hfile using 1
  simp only [List.append_assoc]
  rfl

end Proofs.RuleEnforcement

open Proofs.RuleEnforcement Proofs.RuleLoading

/-- At most one rule of the file is active, and the evaluator can enforce it. -/
def OneEnforceableRule {ν : Type} (D : CDouble ν) (fits : Bytes → Bytes → Prop) (junk : Int)
    (file : List (List RuleMember)) : Prop :=
  (activeRules junk file).length ≤ 1 ∧
    ∀ r ∈ activeRules junk file, Enforceable D fits r.op r.value

/-- **A rule file is enforced in full only if it has at most one active rule, with an
operator the evaluator can enforce; a file that the loader can read is then enforced.** -/
theorem gate_rules_enforced {ν : Type} (D : CDouble ν) (fits : Bytes → Bytes → Prop) (junk : Int)
    {file : List (List RuleMember)} {content : Bytes} (hfile : SpellsFile file content) :
    (EnforcedInFull D fits junk file content → OneEnforceableRule D fits junk file) ∧
      ((∀ ms ∈ file, ∀ m ∈ ms, m.IsReadable) →
        (EnforcedInFull D fits junk file content ↔ OneEnforceableRule D fits junk file)) := by
  have honly : EnforcedInFull D fits junk file content → OneEnforceableRule D fits junk file :=
    fun h => (enforced_iff D fits _).mp h.enforced
  refine ⟨honly, fun hread => ⟨honly, fun h => ?_⟩⟩
  exact ⟨loadGateRules_eq hfile hread junk, (enforced_iff D fits _).mpr h⟩

theorem gate_rules_enforced_one :
    EnforcedInFull Proofs.JsonRoundTrip.naturals.toCDouble (fun _ _ => False) 0 [sampleRule "a"]
      (ascii "[" ++ sampleText "a" ++ ascii "]") := by
  refine ((gate_rules_enforced _ _ 0 file_one).2 ?_).mpr ⟨by decide, ?_⟩
  · intro ms hms
    rw [List.mem_singleton.mp hms]
    exact (rule_sample (spells_fields "a" (by decide))).2
  · intro r hr
    have hactive : activeRules 0 [sampleRule "a"] = [ruleOf 0 (sampleRule "a")] := by decide
    rw [hactive, List.mem_singleton] at hr
    have hop : r.op = ascii "eq" := by
      rw [hr]
      decide
    simp +decide [Enforceable, hop]

/-- Of two rules on two fields only one is enforced. -/
theorem second_rule_unenforced :
    SpellsFile [sampleRule "a", sampleRule "b"]
        (ascii "[" ++ sampleText "a" ++ ascii "," ++ sampleText "b" ++ ascii "]") ∧
      ¬EnforcedInFull Proofs.JsonRoundTrip.naturals.toCDouble (fun _ _ => False) 0
        [sampleRule "a", sampleRule "b"]
        (ascii "[" ++ sampleText "a" ++ ascii "," ++ sampleText "b" ++ ascii "]") := by
  refine ⟨file_two, fun h => ?_⟩
  have hlen := ((enforced_iff _ _ _).mp h.enforced).1
  exact absurd hlen (by decide)

end BlessStar.Gate
