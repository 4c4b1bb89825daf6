import BlessStar.Gate.Types

/-!
# The gate evaluator

`bs_gate_evaluator_evaluate` of `gate_evaluator.c`: a depth-first walk over the
nodes with one field value.
-/

namespace BlessStar.Gate

open Lib.ByteString

structure GateEvalContext where
  fieldKey : Option Bytes
  fieldValue : Option Bytes

structure GateEvalResult where
  passed : Bool
  failedLayer : Nat := 0
  failedNodeIndex : Nat := 0
  errorMessage : Option Bytes := none

/-- The failure found so far: `out_failed_layer` and `out_failed_depth`. -/
structure GateFailure where
  layer : Int := -1
  depth : Nat := 0

def GateFailure.at (fail : GateFailure) (layer : Int) : GateFailure :=
  { layer := layer, depth := fail.depth + 1 }

/-- `strtok` over all of a string: the non-empty parts between commas. -/
def splitTokens (s : Bytes) : List Bytes := (s.splitOn 44).filter (· ≠ [])

section

variable {ν : Type} (D : CDouble ν)

def cmpNumeric (a b : Bytes) : Int :=
  let x := (D.strtod a).1
  let y := (D.strtod b).1
  if D.lt x y then -1 else if D.lt y x then 1 else 0

/-- `eval_condition` on an operator, a threshold and a value. -/
def evalOp (op thresh fieldValue : Bytes) : Bool :=
  if op = ascii "eq" then fieldValue = thresh
  else if op = ascii "ne" then fieldValue ≠ thresh
  else if op = ascii "gt" then 0 < cmpNumeric D fieldValue thresh
  else if op = ascii "lt" then cmpNumeric D fieldValue thresh < 0
  else if op = ascii "gte" then 0 ≤ cmpNumeric D fieldValue thresh
  else if op = ascii "lte" then cmpNumeric D fieldValue thresh ≤ 0
  else if op = ascii "in" then fieldValue ∈ splitTokens thresh
  else if op = ascii "range" then
    if (44 : UInt8) ∈ thresh then
      let low := thresh.takeWhile (· ≠ 44)
      let high := (thresh.dropWhile (· ≠ 44)).tail
      let val := (D.strtod fieldValue).1
      D.le (D.strtod low).1 val && D.le val (D.strtod high).1
    else true
  else true

def evalCondition (s : GateScalars) (fieldValue : Option Bytes) : Bool :=
  match s.op, s.value, fieldValue with
  | some op, some thresh, some fieldValue => evalOp D op thresh fieldValue
  | _, _, _ => true

def otherField (s : GateScalars) (ctx : GateEvalContext) : Bool :=
  match s.fieldKey, ctx.fieldKey with
  | some field, some ctxField => field ≠ ctxField
  | _, _ => false

def isLeafType (type : Bytes) : Bool :=
  type = ascii "bs_condition" || type = ascii "bs_meta_rule" || type = ascii "bs_policy_attr" ||
    type = ascii "bs_custom_gate"

variable (ctx : GateEvalContext)

mutual

def evalNodeRecursive : GateNode → GateFailure → Bool × GateFailure
  | .mk s children doNodes, fail =>
      let type := s.type.getD []
      if type = ascii "bs_logic_and" ∨ type = ascii "bs_gate_root" then evalAll children fail
      else if type = ascii "bs_logic_or" then
        if children.isEmpty then (true, fail)
        else
          let r := evalAny children fail
          if r.1 then r else (false, r.2.at s.layer)
      else if isLeafType type then
        if otherField s ctx then (true, fail)
        else if s.op = none ∨ s.value = none then evalAll doNodes fail
        else if evalCondition D s ctx.fieldValue then evalAll doNodes fail
        else (false, fail.at s.layer)
      else (true, fail)

/-- The loop of AND, and `eval_do_nodes`: up to the first node that fails. -/
def evalAll : List GateNode → GateFailure → Bool × GateFailure
  | [], fail => (true, fail)
  | n :: ns, fail =>
      let r := evalNodeRecursive n fail
      if r.1 then evalAll ns r.2 else r

def evalAny : List GateNode → GateFailure → Bool × GateFailure
  | [], fail => (false, fail)
  | n :: ns, fail =>
      let r := evalNodeRecursive n fail
      if r.1 then r else evalAny ns r.2

end

def gateEvaluatorEvaluate (chain : GateChain) : GateEvalResult :=
  match chain.root with
  | none => { passed := true }
  | some root =>
      let r := evalNodeRecursive D ctx root {}
      if r.1 then { passed := true }
      else
        { passed := false
          failedLayer := r.2.layer.toNat
          failedNodeIndex := r.2.depth
          errorMessage := some (ascii "Gate check failed: unknown node") }

end

end BlessStar.Gate
