import BlessStar.Orchestration.ReloadBatch
import BlessStar.Session.GateCache
import BlessStar.Lib.Lockstep

/-!
# Gating and the gate cache

`gate_path_work` of `reload_batch_controller.cpp` with the instructions that it
leaves to a path, and the runs of one `AttachContext`, which put them into its
gate cache.  The parser and the check of what it parsed are parameters.
-/

namespace BlessStar.Orchestration

open Lib.ByteString Lib.Transition Persistence Session

/-- `BS_RELOAD_GATE_OK`, `BS_RELOAD_GATE_PARSE_FAIL` and `BS_RELOAD_GATE_IR_REJECT`. -/
def reloadGateOk : Int := 0
def reloadGateParseFail : Int := 1
def reloadGateIrReject : Int := 2

/-- `bs_adapter_parser_parse_bytes`, with the instructions and the active
requirements of a parse, and `bs_adapter_requirement_filter_verify_instructions`. -/
structure ConfigParser (ρ : Type) where
  parseBytes : Bytes → Option (IRInstructionList × ρ)
  verifyInstructions : IRInstructionList → ρ → Bool

abbrev ReloadPathGateFn (σ : Type) := Bytes → Bytes → σ → Int × σ

section Gate

variable {ρ σ : Type} (P : ConfigParser ρ)

/-- `bs_adapter_attach_reload_parse_and_verify_bytes`. -/
def parseAndVerifyBytes (data : Bytes) : Except Int IRInstructionList :=
  if data = [] then .error reloadGateParseFail
  else
    match P.parseBytes data with
    | none => .error reloadGateParseFail
    | some (instructions, activeRequirements) =>
        if P.verifyInstructions instructions activeRequirements then .ok instructions
        else .error reloadGateIrReject

/-- `bs_adapter_attach_reload_default_path_gate`. -/
def defaultPathGate : ReloadPathGateFn σ := fun _ data s =>
  match parseAndVerifyBytes P data with
  | .ok _ => (reloadGateOk, s)
  | .error rc => (rc, s)

/-- `gate_path_work`: `none` when the gate rejects, else the instructions for the
path, if any.  Without a callback the gate is the default one. -/
def gatePathWork (gateFn : Option (ReloadPathGateFn σ)) (poolReady : Bool) (uri data : Bytes)
    (s : σ) : Option (Option IRInstructionList) × σ :=
  if poolReady = false then
    let gate := gateFn.getD (defaultPathGate P) uri data s
    if gate.1 ≠ reloadGateOk then (none, gate.2)
    else (some (parseAndVerifyBytes P data).toOption, gate.2)
  else
    match parseAndVerifyBytes P data with
    | .error _ => (none, s)
    | .ok instructions =>
        match gateFn with
        | none => (some (some instructions), s)
        | some gateFn =>
            let gate := gateFn uri data s
            if gate.1 ≠ reloadGateOk then (none, gate.2) else (some (some instructions), gate.2)

end Gate

/-- The gate results of a context and what surrounds it.  `passed` is the history
of the URIs and bytes that a gate has let pass, the last first. -/
structure Gated (σ : Type) where
  results : GateResults := {}
  passed : List (Bytes × Bytes) := []
  s : σ

/-- A run: its surroundings, its gate callback and its controller.  Of the
surroundings `gatePathWork` is not used. -/
structure BatchCall (σ : Type) where
  env : ReloadEnv σ
  gateFn : Option (ReloadPathGateFn σ) := none
  ctrl : ReloadBatchController σ

section Calls

variable {ρ σ : Type}

def gatedFrame (σ : Type) : StateFrame (Gated σ) σ where
  inner g := g.s
  put s g := { g with s := s }

def gatePath (P : ConfigParser ρ) (call : BatchCall σ) (uri data : Bytes) (g : Gated σ) :
    Option Bool × Gated σ :=
  let gate := gatePathWork P call.gateFn (call.env.poolWarmed g.s) uri data g.s
  match gate.1 with
  | none => (none, { g with s := gate.2 })
  | some none => (some false, { g with passed := (uri, data) :: g.passed, s := gate.2 })
  | some (some instructions) =>
      (some true,
        { results := g.results.setGateResult uri instructions
          passed := (uri, data) :: g.passed
          s := gate.2 })

def BatchCall.gatedEnv (P : ConfigParser ρ) (call : BatchCall σ) : ReloadEnv (Gated σ) :=
  { call.env.frame (gatedFrame σ) with gatePathWork := gatePath P call }

/-- `bs_adapter_attach_reload_batch_run` on the context, with the version that a
run without failures makes. -/
def gatedRun (P : ConfigParser ρ) (call : BatchCall σ) (g : Gated σ) :
    Int × ReloadBatchController (Gated σ) × Gated σ :=
  let run := reloadBatchRun (call.gatedEnv P) (call.ctrl.frame (gatedFrame σ)) g
  if run.1 = 0 ∧ run.2.1.outcome = .allOk then
    (run.1, run.2.1, { run.2.2 with results := run.2.2.results.incrementHotUpdateVersion })
  else run

def batchMachine (P : ConfigParser ρ) (s : σ) : Machine (Gated σ) (BatchCall σ) where
  init := { s := s }
  step g call := some (gatedRun P call g).2.2

def FreshPaths (_ : Gated σ) (call : BatchCall σ) : Prop :=
  ∀ w ∈ call.ctrl.paths, w.gatedIr = false

/-- The instructions of the last bytes of the URI that have passed, that parse and
that verify. -/
def lastParsed (P : ConfigParser ρ) (passed : List (Bytes × Bytes)) (uri : Bytes) :
    Option IRInstructionList :=
  passed.findSome? fun p => if p.1 = uri then (parseAndVerifyBytes P p.2).toOption else none

end Calls

end BlessStar.Orchestration

/-!
## Runs with and without the kernel pool

The kernel pool and the IR snapshots of an `AttachContext`, kept apart from what
else is around the controller, and one run of a batch on both.  In this way two
runs can differ in the state of the pool and in nothing else.
-/

namespace BlessStar.Orchestration

open Lib.ByteString Lib.Lockstep
open Persistence Session

structure KernelPool (π : Type) where
  isWarmed : π → Bool
  snapshotPublish : Bytes → UInt64 → π → Nat × π
  execParsedIr : Nat → π → Int × π
  snapshotRemove : Nat → π → Int × π
  snapshotClearAll : π → π
  resetAllPipelines : π → Int × π

/-- On the states `Good` the pool is warmed, and every execution, snapshot
operation and reset succeeds. -/
structure KernelPool.Serves {π : Type} (pool : KernelPool π) (Good : π → Prop) : Prop where
  isWarmed : ∀ p, Good p → pool.isWarmed p = true
  snapshotPublish : ∀ uri rev p, Good p →
    (pool.snapshotPublish uri rev p).1 ≠ 0 ∧ Good (pool.snapshotPublish uri rev p).2
  execParsedIr : ∀ handle p, handle ≠ 0 → Good p →
    (pool.execParsedIr handle p).1 = 0 ∧ Good (pool.execParsedIr handle p).2
  snapshotRemove : ∀ handle p, handle ≠ 0 → Good p →
    (pool.snapshotRemove handle p).1 = 0 ∧ Good (pool.snapshotRemove handle p).2
  resetAllPipelines : ∀ p, Good p →
    (pool.resetAllPipelines p).1 = 0 ∧ Good (pool.resetAllPipelines p).2

section Pooled

variable {ρ σ π : Type}

def poolFrame (σ π : Type) : StateFrame (σ × π) σ where
  inner t := t.1
  put s t := (s, t.2)

/-- `bs_adapter_attach_post_config_sync`: what it does to the session, and
`kernel_reset_all_pipelines`, which leaves a pool alone that is not warmed. -/
def postConfigSync (env : ReloadEnv σ) (pool : KernelPool π) (uri : Bytes) (rev : UInt64)
    (t : σ × π) : Int × σ × π :=
  let post := env.postConfigSync uri rev t.1
  if pool.isWarmed t.2 then
    let reset := pool.resetAllPipelines t.2
    (if reset.1 ≠ 0 then -1 else post.1, post.2, reset.2)
  else (post.1, post.2, t.2)

def pooledEnv (env : ReloadEnv σ) (pool : KernelPool π) : ReloadEnv (σ × π) :=
  { env.frame (poolFrame σ π) with
    poolWarmed := fun t => pool.isWarmed t.2
    snapshotPublish := fun uri rev t =>
      let published := pool.snapshotPublish uri rev t.2
      (published.1, t.1, published.2)
    execParsedIr := fun handle t =>
      let exec := pool.execParsedIr handle t.2
      (exec.1, t.1, exec.2)
    snapshotRemove := fun handle t =>
      let removed := pool.snapshotRemove handle t.2
      (removed.1, t.1, removed.2)
    snapshotClearAll := fun t => (t.1, pool.snapshotClearAll t.2)
    postConfigSync := postConfigSync env pool }

def fixedGate (verdict : Bytes → Bytes → Int) : ReloadPathGateFn (σ × π) :=
  fun uri data t => (verdict uri data, t)

structure PooledBatch (σ : Type) where
  env : ReloadEnv σ
  verdict : Option (Bytes → Bytes → Int) := none
  ctrl : ReloadBatchController σ

def PooledBatch.call (batch : PooledBatch σ) (pool : KernelPool π) : BatchCall (σ × π) where
  env := pooledEnv batch.env pool
  gateFn := batch.verdict.map fixedGate
  ctrl := batch.ctrl.frame (poolFrame σ π)

def PooledBatch.run (batch : PooledBatch σ) (P : ConfigParser ρ) (pool : KernelPool π)
    (results : GateResults) (t : σ × π) :
    Int × ReloadBatchController (Gated (σ × π)) × Gated (σ × π) :=
  gatedRun P (batch.call pool) { results, s := t }

def pathStates {τ : Type} (ctrl : ReloadBatchController τ) :
    List (Bytes × PathOrchestrationState) :=
  ctrl.paths.map fun w => (w.uri, w.state)

/-- Two runs end alike: in what they return and report, and in what they have committed. -/
structure EndAlike (fileAt : Path → σ → Option Bytes)
    (run run' : Int × ReloadBatchController (Gated (σ × π)) × Gated (σ × π)) : Prop where
  returnCode : run.1 = run'.1
  outcome : run.2.1.outcome = run'.2.1.outcome
  states : pathStates run.2.1 = pathStates run'.2.1
  revisions : run.2.1.attachStore.map (·.manifest) = run'.2.1.attachStore.map (·.manifest)
  bytes : ∀ path, fileAt path run.2.2.s.1 = fileAt path run'.2.2.s.1

end Pooled

section Agreement

variable {σ : Type}

structure IoAgrees (R : σ → σ → Prop) (io : PersistIo σ) : Prop where
  walAppendBatch : ∀ epoch es, Agrees R (io.walAppendBatch epoch es)
  writeFileAtomic : ∀ path data, Agrees R (io.writeFileAtomic path data)
  walAppendPhaseMark : ∀ epoch phase hash, Agrees R (io.walAppendPhaseMark epoch phase hash)
  saveManifestFile : ∀ m, Agrees R (io.saveManifestFile m)
  walAppendCommitted : ∀ epoch, Agrees R (io.walAppendCommitted epoch)
  walRotate : ∀ epoch, Agrees R (io.walRotate epoch)
  walPurge : ∀ epoch last, Agrees R (io.walPurge epoch last)

structure SyncAgrees (R : σ → σ → Prop) (env : ReloadEnv σ) : Prop where
  hasManager : ∀ s t, R s t → env.hasManager s = env.hasManager t
  configSyncPath : ∀ uri data, Agrees R (env.configSyncPath uri data)
  postConfigSync : ∀ uri rev, Agrees R (env.postConfigSync uri rev)

/-- The EXEC mark of a batch is written, and neither the file operations nor the config manager
nor a reader of the files sees it.  Only batches in the per-batch scheme have one. -/
structure ExecMarkUnseen (batch : PooledBatch σ) (fileAt : Path → σ → Option Bytes)
    (E : σ → σ → Prop) : Prop where
  refl : ∀ s, E s s
  mark : batch.ctrl.scheme = .perBatch → ∀ epoch hash s t, E s t →
    (batch.env.io.walAppendPhaseMark epoch WalRecoverPhase.exec.toUInt32 hash t).1 = .ok ∧
      E s (batch.env.io.walAppendPhaseMark epoch WalRecoverPhase.exec.toUInt32 hash t).2
  io : IoAgrees E batch.env.io
  sync : SyncAgrees E batch.env
  fileAt : ∀ path s t, E s t → fileAt path s = fileAt path t

end Agreement

end BlessStar.Orchestration
