import BlessStar.Persistence.Store

/-!
# The reload batch controller

`bs_adapter_attach_reload_batch_run` of `reload_batch_controller.cpp` in both
schemes.  The callbacks, the kernel pool, the config manager and the file
operations are functions on a state `σ` that stands for everything outside the
controller and its store.
-/

namespace BlessStar.Orchestration

open Lib.ByteString Persistence

inductive BatchOutcome
  | allOk
  | completedWithFailures
  deriving DecidableEq, Repr

inductive PathOrchestrationState
  | pending
  | reading
  | gating
  | committed
  | gateRejected
  | failedRead
  | persistRejected
  | staged
  | executing
  | execRejected
  deriving DecidableEq, Repr

inductive AttachScheme
  | unset
  | perPath
  | perBatch
  deriving DecidableEq, Repr

/-- `PathWork`; of the gated IR only whether there is one.  URIs come from C
strings. -/
structure PathWork where
  uri : Bytes
  state : PathOrchestrationState := .pending
  baseRevision : UInt64 := 0
  stagedPayload : Bytes := []
  gatedIr : Bool := false
  irSnapshotHandle : Nat := 0
  noNul : (0 : UInt8) ∉ uri

/-- A read callback: the bytes read, or `none` for any error. -/
abbrev ReloadPathReadFn (σ : Type) := Bytes → σ → Option Bytes × σ

/-- `ReloadBatchController`.  The gate callback is part of the gating below. -/
structure ReloadBatchController (σ : Type) where
  maxInflight : Nat := 8
  maxRetry : Nat := 0
  paths : List PathWork := []
  outcome : BatchOutcome := .allOk
  readFn : Option (ReloadPathReadFn σ) := none
  scheme : AttachScheme := .unset
  manifestPath : Bytes := []
  sessionMemoryCap : Nat := 16 * 1024 * 1024
  sessionBytesUsed : Nat := 0
  attachStore : Option AttachStore := none

/-- What the controller calls.  `execParsedIr`, `snapshotRemove` and the sync
functions return `0` on success. -/
structure ReloadEnv (σ : Type) where
  io : PersistIo σ
  inStateCallback : σ → Bool
  logBusBound : σ → Bool
  openStore : Bytes → σ → Option AttachStore × σ
  sidecarInvalidate : Bytes → σ → σ
  /-- `gate_path_work`: `none` when the gate rejects, else whether there is IR. -/
  gatePathWork : Bytes → Bytes → σ → Option Bool × σ
  poolWarmed : σ → Bool
  snapshotPublish : Bytes → UInt64 → σ → Nat × σ
  execParsedIr : Nat → σ → Int × σ
  snapshotRemove : Nat → σ → Int × σ
  snapshotClearAll : σ → σ
  hasManager : σ → Bool
  configSyncPath : Bytes → Bytes → σ → Int × σ
  postConfigSync : Bytes → UInt64 → σ → Int × σ

structure BatchRun (σ : Type) where
  store : AttachStore
  paths : List PathWork := []
  bytesUsed : Nat := 0
  outcome : BatchOutcome := .allOk
  hadFailure : Bool := false
  s : σ

/-- `BsAttachWalRecoverPhase`, as far as the controller writes it. -/
inductive WalRecoverPhase
  | stage
  | gate
  | exec
  | persist
  deriving DecidableEq, Repr

def WalRecoverPhase.toUInt32 : WalRecoverPhase → UInt32
  | stage => 1
  | gate => 2
  | exec => 3
  | persist => 4

/-- `BS_ATTACH_ERR_IO` and `BS_ATTACH_CONC_ERR_REENTRANT` as return codes. -/
def attachErrIo : Int := -4
def concErrReentrant : Int := -301

/-! ## Helpers -/

/-- `std::string` order. -/
def uriLe : Bytes → Bytes → Bool
  | [], _ => true
  | _ :: _, [] => false
  | a :: as, b :: bs => if a = b then uriLe as bs else a < b

def uriSetHashForCtrl (paths : List PathWork) : UInt32 :=
  let blob := ((paths.map (·.uri)).mergeSort uriLe).flatMap (· ++ [0])
  if blob = [] then 0
  else blob.foldl (fun h c => (h ^^^ c.toUInt32) * 16777619) 2166136261

/-- `bs_adapter_attach_reload_batch_add_path`. -/
def ReloadBatchController.addPath {σ : Type} (ctrl : ReloadBatchController σ) (uri : Bytes) :
    Int × ReloadBatchController σ :=
  if cstr uri = [] then (-1, ctrl)
  else if ctrl.maxInflight ≤ ctrl.paths.length then (-1, ctrl)
  else (0, { ctrl with
    paths := ctrl.paths ++ [{ uri := cstr uri, noNul := not_zero_mem_cstr uri }] })

/-- `gc_path_work`: the state stays. -/
def PathWork.gc (w : PathWork) : PathWork := { w with gatedIr := false, stagedPayload := [] }

def PathWork.endIn (w : PathWork) (state : PathOrchestrationState) : PathWork :=
  { w with state := state }.gc

namespace BatchRun

variable {σ : Type}

def fail (b : BatchRun σ) : BatchRun σ :=
  { b with outcome := .completedWithFailures, hadFailure := true }

def failOutcome (b : BatchRun σ) : BatchRun σ := { b with outcome := .completedWithFailures }

def abort (b : BatchRun σ) : BatchRun σ := { b with store := b.store.batchAbort }

end BatchRun

section Run

variable {σ : Type} (env : ReloadEnv σ) (ctrl : ReloadBatchController σ)

def writePhaseMark (b : BatchRun σ) (phase : WalRecoverPhase) : AttachStatus × BatchRun σ :=
  if ctrl.scheme ≠ .perBatch then (.ok, b)
  else
    let mark := storeAppendPhaseMark env.io b.store (b.store.manifest.batchEpoch + 1)
      phase.toUInt32 (uriSetHashForCtrl b.paths) b.s
    (mark.1, { b with s := mark.2 })

/-- `run_read_with_retry`, with the retries that are left. -/
def runReadWithRetry (readFn : ReloadPathReadFn σ) (uri : Bytes) : Nat → σ → Option Bytes × σ
  | 0, s => readFn uri s
  | n + 1, s =>
      match readFn uri s with
      | (some data, s) => (some data, s)
      | (none, s) => runReadWithRetry readFn uri n s

def publishPathIr (w : PathWork) (s : σ) : Bool × PathWork × σ :=
  if w.gatedIr = false then (false, w, s)
  else
    let published := env.snapshotPublish w.uri w.baseRevision s
    (published.1 ≠ 0, { w with irSnapshotHandle := published.1, gatedIr := false }, published.2)

/-- `exec_path_ir`: whether it succeeds, and the path and the run after it. -/
def execPathIr (w : PathWork) (b : BatchRun σ) : Bool × PathWork × BatchRun σ :=
  if w.irSnapshotHandle = 0 then (false, w, b)
  else
    let exec := env.execParsedIr w.irSnapshotHandle b.s
    if exec.1 ≠ 0 then
      (false, { w with state := .execRejected }, { b with s := exec.2 }.failOutcome)
    else
      let removed := env.snapshotRemove w.irSnapshotHandle exec.2
      if removed.1 ≠ 0 then
        (false, { w with state := .execRejected }, { b with s := removed.2 }.failOutcome)
      else
        (true, { w with irSnapshotHandle := 0, state := .staged }, { b with s := removed.2 })

/-- The sync after a commit: `config_sync_path`, then `post_config_sync`, when
there is a config manager and something to sync. -/
def configSync (store : AttachStore) (uri payload : Bytes) (s : σ) : Bool × σ :=
  if env.hasManager s = false ∨ payload = [] then (true, s)
  else
    let sync := env.configSyncPath uri payload s
    if sync.1 ≠ 0 then (false, sync.2)
    else
      let post := env.postConfigSync uri (store.manifest.revisionOf uri) sync.2
      (post.1 = 0, post.2)

def persistPerPath (w : PathWork) (data : Bytes) (b : BatchRun σ) : Bool × PathWork × BatchRun σ :=
  let commit := storeCommitPerPath env.io b.store w.uri data w.baseRevision b.s
  let b := { b with store := commit.2.1, s := commit.2.2 }
  if commit.1 ≠ .ok then (false, { w with state := .persistRejected }, b)
  else
    let sync := configSync env b.store w.uri data b.s
    (sync.1, { w with state := if sync.1 then .committed else .persistRejected },
      { b with s := sync.2 })

/-! ## The loop over the paths -/

def stagePath (w : PathWork) (data : Bytes) (b : BatchRun σ) : PathWork × BatchRun σ :=
  let poolReady := env.poolWarmed b.s
  let published := if poolReady then publishPathIr env w b.s else (true, w, b.s)
  let w := published.2.1
  let b := { b with s := published.2.2 }
  if published.1 = false then (w.endIn .gateRejected, b.fail)
  else if ctrl.scheme = .perPath then
    let exec := if poolReady then execPathIr env w b else (true, w, b)
    if exec.1 = false then (exec.2.1.gc, { exec.2.2 with hadFailure := true })
    else
      let persisted := persistPerPath env exec.2.1 data exec.2.2
      (persisted.2.1.gc, if persisted.1 then persisted.2.2 else persisted.2.2.failOutcome)
  else
    let w := { w with state := .staged, stagedPayload := data }
    let stage := b.store.batchStage w.uri data w.baseRevision
    let b := { b with store := stage.2 }
    if stage.1 ≠ .ok then (w.endIn .persistRejected, b.fail) else (w, b)

def runPath (readFn : ReloadPathReadFn σ) (w : PathWork) (b : BatchRun σ) :
    PathWork × BatchRun σ :=
  let read := runReadWithRetry readFn w.uri ctrl.maxRetry b.s
  let b := { b with s := read.2 }
  match read.1 with
  | none => (w.endIn .failedRead, b.fail)
  | some data =>
      -- `account_session_bytes`
      if ctrl.sessionMemoryCap < data.length ∨
          ctrl.sessionMemoryCap - b.bytesUsed < data.length then
        (w.endIn .failedRead, b.fail)
      else
        let b := { b with bytesUsed := b.bytesUsed + data.length }
        let gate := env.gatePathWork w.uri data b.s
        let b := { b with s := gate.2 }
        match gate.1 with
        | none => (w.endIn .gateRejected, b.fail)
        | some gatedIr => stagePath env ctrl { w with state := .gating, gatedIr := gatedIr } data b

def runPaths (readFn : ReloadPathReadFn σ) : List PathWork → BatchRun σ → List PathWork × BatchRun σ
  | [], b => ([], b)
  | w :: ws, b =>
      let turn := runPath env ctrl readFn w b
      let rest := runPaths readFn ws turn.2
      (turn.1 :: rest.1, rest.2)

/-! ## After the loop -/

def execPaths : List PathWork → BatchRun σ → Bool × List PathWork × BatchRun σ
  | [], b => (false, [], b)
  | w :: ws, b =>
      if w.state ≠ .staged then
        let rest := execPaths ws b
        (rest.1, w :: rest.2.1, rest.2.2)
      else
        let exec := execPathIr env w b
        let rest := execPaths ws exec.2.2
        (!exec.1 || rest.1, exec.2.1 :: rest.2.1, rest.2.2)

def hasStaged (paths : List PathWork) : Bool := paths.any fun w => w.state = .staged

def runExec (b : BatchRun σ) : BatchRun σ :=
  if b.hadFailure ∨ ¬(env.poolWarmed b.s = true ∧ hasStaged b.paths = true) then b
  else
    let exec := execPaths env b.paths b
    let b := { exec.2.2 with paths := exec.2.1 }
    if exec.1 then { b with s := env.snapshotClearAll b.s }.fail
    else
      let mark := writePhaseMark env ctrl b .exec
      if mark.1 ≠ .ok then mark.2.fail else mark.2

def syncPaths (store : AttachStore) : List PathWork → BatchRun σ → List PathWork × BatchRun σ
  | [], b => ([], b)
  | w :: ws, b =>
      if w.state ≠ .staged then
        let rest := syncPaths store ws b
        (w.gc :: rest.1, rest.2)
      else
        let sync := configSync env store w.uri w.stagedPayload b.s
        let b := { b with s := sync.2 }
        let rest := syncPaths store ws (if sync.1 then b else b.fail)
        (w.endIn (if sync.1 then .committed else .persistRejected) :: rest.1, rest.2)

def finishBatch (b : BatchRun σ) : Int × BatchRun σ :=
  if b.hadFailure then
    let paths := b.paths.map fun w => if w.state = .staged then w.endIn .persistRejected else w
    (0, { b with paths := paths }.abort)
  else if b.paths = [] then (0, b.abort)
  else
    let mark := writePhaseMark env ctrl b .persist
    if mark.1 ≠ .ok then (attachErrIo, mark.2.failOutcome.abort)
    else
      let commit := storeBatchCommit env.io mark.2.store mark.2.s
      let b := { mark.2 with store := commit.2.1, s := commit.2.2 }
      if commit.1 ≠ .ok then
        let paths := b.paths.map fun w =>
          if w.state = .staged then w.endIn .persistRejected else w.gc
        (0, { b with paths := paths }.failOutcome)
      else
        let synced := syncPaths env b.store b.paths b
        (0, { synced.2 with paths := synced.1 })

def runReads (readFn : ReloadPathReadFn σ) (b : BatchRun σ) : BatchRun σ :=
  let turns := runPaths env ctrl readFn b.paths b
  { turns.2 with paths := turns.1 }

def writeGateMark (b : BatchRun σ) : AttachStatus × BatchRun σ :=
  if b.hadFailure = false ∧ hasStaged b.paths = true then writePhaseMark env ctrl b .gate
  else (.ok, b)

def runSession (readFn : ReloadPathReadFn σ) (b : BatchRun σ) : Int × BatchRun σ :=
  let stageMark := writePhaseMark env ctrl b .stage
  if stageMark.1 ≠ .ok then (attachErrIo, stageMark.2)
  else
    let b := runReads env ctrl readFn stageMark.2
    if ctrl.scheme ≠ .perBatch then (0, b)
    else
      let gateMark := writeGateMark env ctrl b
      if gateMark.1 ≠ .ok then (attachErrIo, gateMark.2)
      else finishBatch env ctrl (runExec env ctrl gateMark.2)

def ensureAttachStore (s : σ) : Option AttachStore × σ :=
  match ctrl.attachStore with
  | some store => (some store, s)
  | none => env.openStore ctrl.manifestPath s

/-- `load_session_revisions`: the store with the manifest reloaded, `none` when
there is no store, and whether it succeeds. -/
def loadSessionRevisions (s : σ) : Bool × Option AttachStore × σ :=
  let opened := ensureAttachStore env ctrl s
  match opened.1 with
  | none => (false, none, opened.2)
  | some store =>
      let reload := storeReloadManifest env.io store opened.2
      (reload.1 = .ok, some reload.2.1, reload.2.2)

/-- The state in which the loop over the paths finds the session. -/
def beginSession (store : AttachStore) (s : σ) : BatchRun σ where
  store := if ctrl.scheme = .perBatch then store.batchBegin else store
  paths := ctrl.paths.map fun w => { w with baseRevision := store.manifest.revisionOf w.uri }
  s := if ctrl.manifestPath = [] then s else env.sidecarInvalidate ctrl.manifestPath s

/-- `bs_adapter_attach_reload_batch_run`. -/
def reloadBatchRun (s : σ) : Int × ReloadBatchController σ × σ :=
  match ctrl.readFn with
  | none => (-1, ctrl, s)
  | some readFn =>
      if ctrl.scheme = .unset then (-4, ctrl, s)
      else if env.inStateCallback s then (concErrReentrant, ctrl, s)
      else if env.logBusBound s = false then (-2, ctrl, s)
      else
        match loadSessionRevisions env ctrl s with
        | (_, none, s) => (-1, ctrl, s)
        | (false, some store, s) => (-1, { ctrl with attachStore := some store }, s)
        | (true, some store, s) =>
            let session := runSession env ctrl readFn (beginSession env ctrl store s)
            (session.1,
              { ctrl with
                paths := session.2.paths
                outcome := session.2.outcome
                sessionBytesUsed := session.2.bytesUsed
                attachStore := some session.2.store },
              session.2.s)

end Run

end BlessStar.Orchestration

/-!
## The controller in a larger state

The functions around the controller work on a state; here that state is part of
a larger one, the rest of which they leave alone.
-/

namespace BlessStar.Orchestration

open Lib.ByteString Persistence

structure StateFrame (τ σ : Type) where
  inner : τ → σ
  put : σ → τ → τ

section Frame

variable {τ σ α : Type} (F : StateFrame τ σ)

def StateFrame.lift (f : σ → α × σ) (t : τ) : α × τ :=
  let result := f (F.inner t)
  (result.1, F.put result.2 t)

def framePersistIo (io : PersistIo σ) : PersistIo τ where
  walAppendBatch epoch es := F.lift (io.walAppendBatch epoch es)
  writeFileAtomic path data := F.lift (io.writeFileAtomic path data)
  walAppendPhaseMark epoch phase hash := F.lift (io.walAppendPhaseMark epoch phase hash)
  saveManifestFile m := F.lift (io.saveManifestFile m)
  walAppendCommitted epoch := F.lift (io.walAppendCommitted epoch)
  walRotate epoch := F.lift (io.walRotate epoch)
  walPurge epoch last := F.lift (io.walPurge epoch last)
  loadManifestFile m t :=
    let load := io.loadManifestFile m (F.inner t)
    (load.1, load.2.1, F.put load.2.2 t)

def ReloadEnv.frame (env : ReloadEnv σ) : ReloadEnv τ where
  io := framePersistIo F env.io
  inStateCallback t := env.inStateCallback (F.inner t)
  logBusBound t := env.logBusBound (F.inner t)
  openStore path := F.lift (env.openStore path)
  sidecarInvalidate path t := F.put (env.sidecarInvalidate path (F.inner t)) t
  gatePathWork uri data := F.lift (env.gatePathWork uri data)
  poolWarmed t := env.poolWarmed (F.inner t)
  snapshotPublish uri rev := F.lift (env.snapshotPublish uri rev)
  execParsedIr handle := F.lift (env.execParsedIr handle)
  snapshotRemove handle := F.lift (env.snapshotRemove handle)
  snapshotClearAll t := F.put (env.snapshotClearAll (F.inner t)) t
  hasManager t := env.hasManager (F.inner t)
  configSyncPath uri data := F.lift (env.configSyncPath uri data)
  postConfigSync uri rev := F.lift (env.postConfigSync uri rev)

def ReloadBatchController.frame (ctrl : ReloadBatchController σ) : ReloadBatchController τ where
  maxInflight := ctrl.maxInflight
  maxRetry := ctrl.maxRetry
  paths := ctrl.paths
  outcome := ctrl.outcome
  readFn := ctrl.readFn.map fun readFn uri => F.lift (readFn uri)
  scheme := ctrl.scheme
  manifestPath := ctrl.manifestPath
  sessionMemoryCap := ctrl.sessionMemoryCap
  sessionBytesUsed := ctrl.sessionBytesUsed
  attachStore := ctrl.attachStore

end Frame

end BlessStar.Orchestration
