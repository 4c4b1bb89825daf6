import BlessStar.Lib.ByteString

/-!
# Gate results

The gate cache of an `AttachContext` (`attach_context.cpp`), the version that
readers watch, and the instructions it holds (`ir.h`).  Strings are C strings
without their NUL.
-/

namespace BlessStar.Session

open Lib.ByteString

/-- `IRInstruction`, with its metadata chain in order. -/
structure IRInstruction where
  type : Option Bytes
  name : Option Bytes
  metadata : List (Option Bytes × Option Bytes)
  version : UInt64
  timestamp : UInt64
  deriving DecidableEq

abbrev IRInstructionList := List IRInstruction

/-- The part of an `AttachContext` that has to do with gate results. -/
structure GateResults where
  gateCache : Bytes → Option IRInstructionList := fun _ => none
  hotUpdateVersion : UInt64 := 0

namespace GateResults

/-- `bs_adapter_attach_ctx_get_gate_result`. -/
def getGateResult (ctx : GateResults) (uri : Bytes) : Option IRInstructionList := ctx.gateCache uri

/-- `bs_adapter_attach_ctx_set_gate_result`; the list is copied. -/
def setGateResult (ctx : GateResults) (uri : Bytes) (list : IRInstructionList) : GateResults :=
  { ctx with gateCache := Function.update ctx.gateCache uri (some list) }

/-- `bs_adapter_attach_ctx_increment_hot_update_version`. -/
def incrementHotUpdateVersion (ctx : GateResults) : GateResults :=
  { ctx with hotUpdateVersion := ctx.hotUpdateVersion + 1 }

def setGateResults (ctx : GateResults) (gated : List (Bytes × IRInstructionList)) : GateResults :=
  gated.foldl (fun ctx g => ctx.setGateResult g.1 g.2) ctx

def reloadRun (ctx : GateResults) (gated : List (Bytes × IRInstructionList)) (allOk : Bool) :
    GateResults :=
  let ctx := ctx.setGateResults gated
  if allOk then ctx.incrementHotUpdateVersion else ctx

/-- What `ConfigReloadSession::Commit` does here: the run over its file URIs, when
there are any, and then the results of its keys in memory. -/
def sessionCommit (ctx : GateResults) (files : Option (List (Bytes × IRInstructionList) × Bool))
    (mems : List (Bytes × IRInstructionList)) : GateResults :=
  match files with
  | none => ctx.setGateResults mems
  | some (gated, allOk) =>
      let ctx := ctx.reloadRun gated allOk
      if allOk then ctx.setGateResults mems else ctx

@[simp] theorem setGateResults_hotUpdateVersion (ctx : GateResults)
    (gated : List (Bytes × IRInstructionList)) :
    (ctx.setGateResults gated).hotUpdateVersion = ctx.hotUpdateVersion := by
  induction gated generalizing ctx with
  | nil => rfl
  | cons g gated ih => exact ih _

end GateResults

end BlessStar.Session
