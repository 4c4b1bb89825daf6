import BlessStar.Gate.Proofs.Compilation

/-!
# What a compiled AST checks

The evaluator, run on the chain of a text, reports the gate reading of the AST.
-/

namespace BlessStar.Gate.Proofs.Meaning

open Lib.ByteString GateAst

section

variable {ν : Type} (D : CDouble ν)

section

variable (ctx : GateEvalContext)

theorem eval_register (n : GateNode) (fail : GateFailure) :
    evalNodeRecursive D ctx n.register fail = evalNodeRecursive D ctx n fail := by
  obtain ⟨s, children, doNodes⟩ := n
  unfold GateNode.register
  split <;> rfl

theorem evalAll_cons (n : GateNode) (ns : List GateNode) (fail : GateFailure) :
    (evalAll D ctx (n :: ns) fail).1 =
      ((evalNodeRecursive D ctx n fail).1 &&
        (evalAll D ctx ns (evalNodeRecursive D ctx n fail).2).1) := by
  rw [evalAll]
  cases h : (evalNodeRecursive D ctx n fail).1 <;> simp [h]

theorem evalAny_cons (n : GateNode) (ns : List GateNode) (fail : GateFailure) :
    (evalAny D ctx (n :: ns) fail).1 =
      ((evalNodeRecursive D ctx n fail).1 ||
        (evalAny D ctx ns (evalNodeRecursive D ctx n fail).2).1) := by
  rw [evalAny]
  cases h : (evalNodeRecursive D ctx n fail).1 <;> simp [h]

end

theorem register_scalars (n : GateNode) :
    n.register.scalars.fieldKey = n.scalars.fieldKey ∧ n.register.scalars.op = n.scalars.op ∧
      n.register.scalars.value = n.scalars.value := by
  obtain ⟨s, children, doNodes⟩ := n
  unfold GateNode.register
  split <;> exact ⟨rfl, rfl, rfl⟩

variable (field value : Bytes)

theorem passed_leaf {s : GateScalars} {type f op v : Bytes} (children doNodes : List GateNode)
    (fail : GateFailure) (htype : s.type = some type) (hleaf : isLeafType type = true)
    (hfield : s.fieldKey = some f) (hop : s.op = some op) (hvalue : s.value = some v) :
    (evalNodeRecursive D ⟨some field, some value⟩ (.mk s children doNodes) fail).1 =
      (f ≠ field ||
        (evalOp D op v value && (evalAll D ⟨some field, some value⟩ doNodes fail).1)) := by
  have hother : ∀ t, isLeafType t = true →
      t ≠ ascii "bs_logic_and" ∧ t ≠ ascii "bs_gate_root" ∧ t ≠ ascii "bs_logic_or" := by
    intro t ht
    simp only [isLeafType, Bool.or_eq_true, decide_eq_true_eq] at ht
    rcases ht with ((rfl | rfl) | rfl) | rfl <;> decide
  obtain ⟨hand, hroot, hor⟩ := hother type hleaf
  rw [evalNodeRecursive]
  simp only [htype, Option.getD_some, hand, hroot, hor, hleaf, or_self, if_false, if_true,
    otherField, hfield, hop, hvalue, evalCondition, reduceCtorEq]
  by_cases hf : f = field
  · by_cases hcond : evalOp D op v value = true
    · simp [hf, hcond]
    · simp [hf, hcond]
  · simp [hf]

theorem passed_and (l r : GateNode) (fail : GateFailure) {x y : Bool}
    (hl : ∀ fail, (evalNodeRecursive D ⟨some field, some value⟩ l fail).1 = x)
    (hr : ∀ fail, (evalNodeRecursive D ⟨some field, some value⟩ r fail).1 = y) :
    (evalNodeRecursive D ⟨some field, some value⟩
      (((GateNode.create (ascii "bs_logic_and") none).linkChild (some l)).linkChild (some r))
      fail).1 = (x && y) := by
  show (evalAll D ⟨some field, some value⟩ [l, r] fail).1 = (x && y)
  rw [evalAll_cons, evalAll_cons, hl, hr, evalAll, Bool.and_true]

theorem passed_or (l r : GateNode) (fail : GateFailure) {x y : Bool}
    (hl : ∀ fail, (evalNodeRecursive D ⟨some field, some value⟩ l fail).1 = x)
    (hr : ∀ fail, (evalNodeRecursive D ⟨some field, some value⟩ r fail).1 = y) :
    (evalNodeRecursive D ⟨some field, some value⟩
      (((GateNode.create (ascii "bs_logic_or") none).linkChild (some l)).linkChild (some r))
      fail).1 = (x || y) := by
  have hany : (evalAny D ⟨some field, some value⟩ [l, r] fail).1 = (x || y) := by
    rw [evalAny_cons, evalAny_cons, hl, hr, evalAny, Bool.or_false]
  rw [← hany]
  have hor : ascii "bs_logic_or" ≠ ascii "bs_logic_and" ∧
      ascii "bs_logic_or" ≠ ascii "bs_gate_root" := by decide
  simp only [GateNode.create, GateNode.linkChild, GateNode.scalars, GateNode.children,
    Option.toList_some, List.nil_append, List.cons_append]
  rw [evalNodeRecursive]
  cases h : (evalAny D ⟨some field, some value⟩ [l, r] fail).1 <;> simp [hor, h]

theorem leaf_scalars {a : GateAst} (h : a.IsLeaf) :
    ∃ f op v, a.node.scalars.fieldKey = some f ∧ a.node.scalars.op = some op ∧
      a.node.scalars.value = some v ∧ a.onOtherField field = decide (f ≠ field) ∧
      a.passes D field value = (f ≠ field || evalOp D op v value) := by
  induction a with
  | condition f op v => exact ⟨f, op, v, rfl, rfl, rfl, rfl, rfl⟩
  | action name v =>
      refine ⟨name, ascii "action", v, rfl, rfl, rfl, rfl, ?_⟩
      have hop : evalOp D (ascii "action") v value = true := rfl
      simp [passes, hop]
  | not a ih =>
      obtain ⟨f, op, v, hf, hop, hv, hother, hpasses⟩ := ih h
      obtain ⟨hf', hop', hv'⟩ := register_scalars a.node
      exact ⟨f, op, v, hf'.trans hf, hop'.trans hop, hv'.trans hv, hother, hpasses⟩
  | and l r | or l r | thenDo w d => exact absurd h id

theorem passed_then {w : GateAst} (hw : w.IsLeaf) (d : GateNode) (fail : GateFailure) {y : Bool}
    (hd : ∀ fail, (evalNodeRecursive D ⟨some field, some value⟩ d fail).1 = y) :
    (evalNodeRecursive D ⟨some field, some value⟩ (thenNode (some w.node) (some d)) fail).1 =
      (w.onOtherField field || (w.passes D field value && y)) := by
  obtain ⟨f, op, v, hf, hop, hv, hother, hpasses⟩ := leaf_scalars D field value hw
  have hdo : (evalAll D ⟨some field, some value⟩ [d] fail).1 = y := by
    rw [evalAll_cons, hd, evalAll, Bool.and_true]
  have hleaf := passed_leaf D field value w.node.children [d] fail
    (s := { type := some (ascii "bs_condition"), fieldKey := w.node.scalars.fieldKey,
            op := w.node.scalars.op, value := w.node.scalars.value })
    rfl (by decide) hf hop hv
  have hnode : thenNode (some w.node) (some d) =
      .mk { type := some (ascii "bs_condition"), fieldKey := w.node.scalars.fieldKey,
            op := w.node.scalars.op, value := w.node.scalars.value } w.node.children [d] := rfl
  rw [hnode, hleaf, hdo, hother, hpasses]
  cases decide (f ≠ field) <;> simp

/-- **The node of an AST passes as the AST does**, whatever failure was found
before it. -/
theorem passed_node {a : GateAst} (h : a.ThenOnLeaves) (fail : GateFailure) :
    (evalNodeRecursive D ⟨some field, some value⟩ a.node fail).1 = a.passes D field value := by
  induction a generalizing fail with
  | condition f op v =>
      rw [node, eval_register, passed_leaf D field value [] [] fail rfl (by decide) rfl rfl rfl]
      simp [evalAll, passes]
  | and l r ihl ihr =>
      rw [node, eval_register]
      exact passed_and D field value l.node r.node fail (ihl h.1) (ihr h.2)
  | or l r ihl ihr =>
      rw [node, eval_register]
      exact passed_or D field value l.node r.node fail (ihl h.1) (ihr h.2)
  | not a ih =>
      rw [node, eval_register]
      exact ih h fail
  | thenDo w d _ ihd =>
      rw [node, eval_register]
      exact passed_then D field value h.1 d.node fail (ihd h.2)
  | action name v =>
      have hop : evalOp D (ascii "action") v value = true := rfl
      rw [node, eval_register, passed_leaf D field value [] [] fail rfl (by decide) rfl rfl rfl]
      simp [evalAll, passes, hop]

theorem passes_eq_holds {a : GateAst} (h : a.IsPositive) :
    a.passes D field value = a.holds D field value := by
  induction a with
  | condition f op v => rfl
  | and l r ihl ihr => rw [passes, holds, ihl h.1, ihr h.2]
  | or l r ihl ihr => rw [passes, holds, ihl h.1, ihr h.2]
  | action name v => rfl
  | not a => exact absurd h id
  | thenDo w d => exact absurd h id

theorem evaluate_node {a : GateAst} (h : a.ThenOnLeaves) :
    (gateEvaluatorEvaluate D ⟨some field, some value⟩ { root := some a.node }).passed =
      a.passes D field value := by
  rw [← passed_node D field value h {}]
  simp only [gateEvaluatorEvaluate]
  split
  · next hpass => exact hpass.symm
  · next hfail => simpa using hfail

/-- **Compilation keeps the gate reading.**  The chain of a JSON text of an AST
passes for a field and a value if and only if the AST does. -/
theorem gate_ast_compile_preserves {a : GateAst} {ts : List (Astok ν)} {json : Bytes}
    (htokens : a.Tokens ts) (hspell : Spells ts json) (hthen : a.ThenOnLeaves) :
    ∃ chain, gateAstCompile D json = some chain ∧
      (gateEvaluatorEvaluate D ⟨some field, some value⟩ chain).passed =
        a.passes D field value :=
  ⟨_, Compilation.gateAstCompile_text htokens hspell, evaluate_node D field value hthen⟩

end

def wholeNumbers : CDouble Int where
  strtod s :=
    let digits := digitsPrefix 10 s
    (digits.foldl (fun acc d => acc * 10 + d) 0, digits.length)
  formatG n := decimal n.toNat
  lt a b := a < b
  le a b := a ≤ b

/-- A gate that asks a price over 10 to be under 20 fails at 25. -/
theorem gate_ast_compile_preserves_price :
    ∃ chain, gateAstCompile wholeNumbers
        (GateAst.thenDo (.condition (ascii "price") (ascii "gt") (ascii "10"))
          (.condition (ascii "price") (ascii "lt") (ascii "20"))).json = some chain ∧
      (gateEvaluatorEvaluate wholeNumbers ⟨some (ascii "price"), some (ascii "25")⟩
        chain).passed = false := by
  have hnul : (GateAst.thenDo (.condition (ascii "price") (ascii "gt") (ascii "10"))
      (.condition (ascii "price") (ascii "lt") (ascii "20"))).NoNul := by
    refine ⟨⟨?_, ?_, ?_⟩, ?_, ?_, ?_⟩ <;> decide
  obtain ⟨ts, htokens, hspell⟩ := TokenReading.exists_tokens hnul
  obtain ⟨chain, hchain, hpassed⟩ := gate_ast_compile_preserves wholeNumbers (ascii "price")
    (ascii "25") htokens hspell ⟨trivial, trivial⟩
  exact ⟨chain, hchain, hpassed.trans (by decide)⟩

/-- The verdict on the plain text of an AST is not its Boolean reading. -/
def Misread (field value : Bytes) (a : GateAst) : Prop :=
  ∃ chain, gateAstCompile wholeNumbers a.json = some chain ∧
    (gateEvaluatorEvaluate wholeNumbers ⟨some field, some value⟩ chain).passed ≠
      a.holds wholeNumbers field value

theorem misread_of_passes {field value : Bytes} {a : GateAst} (hnul : a.NoNul)
    (hthen : a.ThenOnLeaves)
    (hne : a.passes wholeNumbers field value ≠ a.holds wholeNumbers field value) :
    Misread field value a := by
  obtain ⟨ts, htokens, hspell⟩ := TokenReading.exists_tokens hnul
  refine ⟨_, Compilation.gateAstCompile_text htokens hspell, ?_⟩
  rwa [evaluate_node wholeNumbers field value hthen]

/-- A `not` stands for its operand; a `then` about the field fails when its
when-part does, and one about another field passes. -/
theorem not_and_then_misread :
    Misread (ascii "price") (ascii "25")
        (.not (.condition (ascii "price") (ascii "gt") (ascii "10"))) ∧
      Misread (ascii "price") (ascii "5")
        (.thenDo (.condition (ascii "price") (ascii "gt") (ascii "10"))
          (.condition (ascii "price") (ascii "lt") (ascii "20"))) ∧
      Misread (ascii "price") (ascii "25")
        (.thenDo (.condition (ascii "region") (ascii "eq") (ascii "EU"))
          (.condition (ascii "price") (ascii "lt") (ascii "20"))) := by
  refine ⟨misread_of_passes ?_ trivial (by decide),
    misread_of_passes ⟨?_, ?_⟩ ⟨trivial, trivial⟩ (by decide),
    misread_of_passes ⟨?_, ?_⟩ ⟨trivial, trivial⟩ (by decide)⟩ <;>
    exact ⟨by decide, by decide, by decide⟩

end BlessStar.Gate.Proofs.Meaning
