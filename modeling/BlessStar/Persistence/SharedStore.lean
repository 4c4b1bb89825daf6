import BlessStar.Persistence.Store

/-!
# A store shared with readers

One committer beside any number of snapshot readers of the same store.  A
commit is taken in two steps: everything up to its update of the recorded
fields, and the manifest save with what follows it.  A reader reloads the
manifest in one step, whatever the committer is doing.
-/

namespace BlessStar.Persistence

open Lib.ByteString Lib.Transition

section Operations

variable {σ : Type} (io : PersistIo σ)

/-- `commit_per_path` up to its manifest save. -/
def commitPerPathUpdate (store : AttachStore) (uri data : Bytes) (expectedRev : UInt64) (s : σ) :
    AttachStatus × AttachStore × σ :=
  match uriToPath (cstr uri) pathCap with
  | none => (.invalidArg, store, s)
  | some path =>
      let one := commitOne io store (cstr uri) path data expectedRev s
      if one.1 ≠ .ok then one
      else
        let m := one.2.1.manifest
        (.ok, { one.2.1 with manifest := { m with batchEpoch := m.batchEpoch + 1 } }, one.2.2)

/-- `batch_commit` up to its manifest save. -/
def batchCommitUpdate (store : AttachStore) (s : σ) : AttachStatus × AttachStore × σ :=
  let nextEpoch := store.manifest.batchEpoch + 1
  if store.batchOpen = false then (.invalidArg, store, s)
  else if casHolds store.manifest store.staged = false then (.conflict, store.batchAbort, s)
  else
    let pre :=
      if store.memoryOnly then (AttachStatus.ok, s)
      else walAppendAndStage io nextEpoch store.staged s
    if pre.1 ≠ .ok then (pre.1, store.batchAbort, pre.2)
    else
      (.ok,
        { store with
          manifest := flipManifest store.manifest nextEpoch store.staged
          batchOpen := false
          staged := [] },
        if store.memoryOnly then pre.2
        else (io.walAppendPhaseMark nextEpoch walPhaseCommit 0 pre.2).2)

/-- `batch_commit` from its manifest save on. -/
def batchCommitFinish (nextEpoch : UInt64) (store : AttachStore) (s : σ) :
    AttachStatus × AttachStore × σ :=
  let man := saveManifest io store s
  if man.1 ≠ .ok then (man.1, store, man.2)
  else
    let s := if store.memoryOnly then man.2 else (walMarkCommitted io nextEpoch man.2).2
    let purge := purgeWalForStore io store s
    (.ok, purge.1, purge.2)

end Operations

inductive PendingCommit
  | perPath (uri : Bytes) (rev : UInt64)
  | batch (nextEpoch : UInt64) (staged : List StagedEntry)

def PendingCommit.revisions : PendingCommit → List (Bytes × UInt64)
  | perPath uri rev => [(uri, rev)]
  | batch _ staged => staged.map fun e => (e.uri, e.expectedRev + 1)

def PendingCommit.finish {σ : Type} (io : PersistIo σ) (store : AttachStore) (s : σ) :
    PendingCommit → AttachStatus × AttachStore × σ
  | perPath _ _ =>
      let man := saveManifest io store s
      (man.1, store, man.2)
  | batch nextEpoch _ => batchCommitFinish io nextEpoch store s

def acknowledge (c : Bytes → Option UInt64) (revisions : List (Bytes × UInt64)) :
    Bytes → Option UInt64 :=
  revisions.foldl (fun c kv => Function.update c kv.1 (some kv.2)) c

/-- The disk and the open store, the commit in progress and, for the statements
only, the last revision of each URI that a commit returned OK for. -/
structure SharedStore where
  disk : AttachDisk
  store : AttachStore
  pending : Option PendingCommit := none
  acknowledged : Bytes → Option UInt64 := fun _ => none

inductive SharedEvent
  | commitPerPath (uri data : Bytes) (expectedRev : UInt64)
  | batchBegin
  | batchStage (uri data : Bytes) (expectedRev : UInt64)
  | batchAbort
  | batchCommit
  | save
  | reload

section Machine

variable (order : IterOrder) (manifestPath : Path)

/-- One step; the committer is one thread, so its calls wait for the save. -/
def SharedStore.step (w : SharedStore) : SharedEvent → Option SharedStore
  | .commitPerPath uri data expectedRev =>
      if w.pending.isSome then none
      else
        let r := commitPerPathUpdate (diskIo order manifestPath) w.store uri data expectedRev w.disk
        some { w with
          disk := r.2.2
          store := r.2.1
          pending := if r.1 = .ok then some (.perPath (cstr uri) (expectedRev + 1)) else none }
  | .batchBegin =>
      if w.pending.isSome then none else some { w with store := w.store.batchBegin }
  | .batchStage uri data expectedRev =>
      if w.pending.isSome then none
      else some { w with store := (w.store.batchStage uri data expectedRev).2 }
  | .batchAbort =>
      if w.pending.isSome then none else some { w with store := w.store.batchAbort }
  | .batchCommit =>
      if w.pending.isSome then none
      else
        let r := batchCommitUpdate (diskIo order manifestPath) w.store w.disk
        some { w with
          disk := r.2.2
          store := r.2.1
          pending :=
            if r.1 = .ok then some (.batch (w.store.manifest.batchEpoch + 1) w.store.staged)
            else none }
  | .save => w.pending.map fun commit =>
      let r := commit.finish (diskIo order manifestPath) w.store w.disk
      { disk := r.2.2
        store := r.2.1
        pending := none
        acknowledged :=
          if r.1 = .ok then acknowledge w.acknowledged commit.revisions else w.acknowledged }
  | .reload =>
      let r := storeReloadManifest (diskIo order manifestPath) w.store w.disk
      some { w with
        disk := r.2.2
        store := r.2.1 }

def sharedStore (d : AttachDisk) (store : AttachStore) : Machine SharedStore SharedEvent where
  init := { disk := d, store := store }
  step := SharedStore.step order manifestPath

end Machine

def savedRevision (manifestPath : Path) (d : AttachDisk) (uri : Bytes) : Option UInt64 :=
  let load := loadManifestFileSync d manifestPath {}
  if load.1 = .ok then load.2.1.revisions.lookup uri else none

end BlessStar.Persistence
