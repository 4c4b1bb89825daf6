import BlessStar.Persistence.Manifest
import BlessStar.Persistence.WalRecover
import BlessStar.Lib.Transition

/-!
# The attach store

`BsAttachStore` and its operations from `attach_store.cpp`: opening, per-path
commits and batches.  The operations are written over a record of the file
operations they call, so that one text serves the disk without failures, the
disk that a crash cuts short, and file operations with any outcome.
-/

namespace BlessStar.Persistence

open Lib.ByteString Lib.FileSystem
open Persistence.Crc32 Persistence.Wal

/-- `StagedEntry`.  Entries come from `batch_stage` only, which takes the path
from the URI. -/
structure StagedEntry where
  uri : Bytes
  path : Path
  data : Bytes
  expectedRev : UInt64
  accepted : uriToPath uri pathCap = some path
  noNul : (0 : UInt8) ∉ uri

/-- `BsAttachStore`.  A file-backed store has its WAL open: `open_wal` fails
only when memory runs out. -/
structure AttachStore where
  memoryOnly : Bool := false
  manifest : Manifest := {}
  staged : List StagedEntry := []
  batchOpen : Bool := false
  walExecRollback : Option UInt64 := none
  walLastPurgeThrough : UInt64 := 0

/-- The file operations of a store, on a state `σ` that stands for the disk. -/
structure PersistIo (σ : Type) where
  walAppendBatch : UInt64 → List WalEntry → σ → AttachStatus × σ
  writeFileAtomic : Path → Bytes → σ → AttachStatus × σ
  walAppendPhaseMark : UInt64 → UInt32 → UInt32 → σ → AttachStatus × σ
  saveManifestFile : Manifest → σ → AttachStatus × σ
  walAppendCommitted : UInt64 → σ → AttachStatus × σ
  walRotate : UInt64 → σ → AttachStatus × σ
  walPurge : UInt64 → UInt64 → σ → UInt64 × σ
  loadManifestFile : Manifest → σ → AttachStatus × Manifest × σ

/-- `BS_ATTACH_WAL_PHASE_COMMIT`. -/
def walPhaseCommit : UInt32 := 5

/-- `bs_adapter_attach_persist_store_batch_begin`. -/
def AttachStore.batchBegin (store : AttachStore) : AttachStore :=
  { store with staged := [], batchOpen := true }

/-- `bs_adapter_attach_persist_store_batch_abort`. -/
def AttachStore.batchAbort (store : AttachStore) : AttachStore :=
  { store with staged := [], batchOpen := false }

/-- The entry `batch_stage` appends; `none` when the URI is refused. -/
def stagedEntry (uri data : Bytes) (expectedRev : UInt64) : Option StagedEntry :=
  match h : uriToPath (cstr uri) pathCap with
  | none => none
  | some path => some ⟨cstr uri, path, data, expectedRev, h, not_zero_mem_cstr uri⟩

/-- `bs_adapter_attach_persist_store_batch_stage`. -/
def AttachStore.batchStage (store : AttachStore) (uri data : Bytes) (expectedRev : UInt64) :
    AttachStatus × AttachStore :=
  if store.batchOpen = false then (.invalidArg, store)
  else
    match stagedEntry uri data expectedRev with
    | none => (.invalidArg, store)
    | some e => (.ok, { store with staged := store.staged ++ [e] })

/-- `staging_paths[i]`. -/
def StagedEntry.stagingPath (nextEpoch : UInt64) (e : StagedEntry) : Path :=
  makeStagingPath e.path nextEpoch (e.expectedRev + 1)

/-- `wal_entries[i]`. -/
def StagedEntry.walEntry (nextEpoch : UInt64) (e : StagedEntry) : WalEntry where
  uri := e.uri
  stagingPath := e.stagingPath nextEpoch
  expectedRev := e.expectedRev
  newRev := e.expectedRev + 1
  payloadChecksum := crc32 e.data

/-- The in-memory flip of `batch_commit`. -/
def flipManifest (m : Manifest) (nextEpoch : UInt64) (staged : List StagedEntry) : Manifest :=
  { staged.foldl (fun m e => m.record e.uri (e.expectedRev + 1) (e.stagingPath nextEpoch)) m with
    batchEpoch := nextEpoch }

/-- The compare-and-swap check of `batch_commit`. -/
def casHolds (m : Manifest) (staged : List StagedEntry) : Bool :=
  staged.all fun e => m.revisionOf e.uri = e.expectedRev

section Operations

variable {σ : Type} (io : PersistIo σ)

/-- The staging writes of `batch_commit`, up to the first that fails. -/
def writeStagingFiles (nextEpoch : UInt64) : List StagedEntry → σ → AttachStatus × σ
  | [], s => (.ok, s)
  | e :: es, s =>
      let wr := io.writeFileAtomic (e.stagingPath nextEpoch) e.data s
      if wr.1 ≠ .ok then wr else writeStagingFiles nextEpoch es wr.2

/-- What `batch_commit` does on a file-backed store before the flip. -/
def walAppendAndStage (nextEpoch : UInt64) (staged : List StagedEntry) (s : σ) :
    AttachStatus × σ :=
  let wr := io.walAppendBatch nextEpoch (staged.map (·.walEntry nextEpoch)) s
  if wr.1 ≠ .ok then wr else writeStagingFiles io nextEpoch staged wr.2

/-- `bs_adapter_attach_persist_wal_mark_committed`. -/
def walMarkCommitted (epoch : UInt64) (s : σ) : AttachStatus × σ :=
  let rc := io.walAppendCommitted epoch s
  if rc.1 ≠ .ok then rc
  else
    let rot := io.walRotate epoch rc.2
    (if rot.1 = .ok then .ok else .io, rot.2)

/-- `save_manifest_file`. -/
def saveManifest (store : AttachStore) (s : σ) : AttachStatus × σ :=
  if store.memoryOnly then (.ok, s) else io.saveManifestFile store.manifest s

def purgeWalForStore (store : AttachStore) (s : σ) : AttachStore × σ :=
  if store.memoryOnly then (store, s)
  else
    let purge := io.walPurge store.manifest.batchEpoch store.walLastPurgeThrough s
    ({ store with walLastPurgeThrough := purge.1 }, purge.2)

def commitOne (store : AttachStore) (uri : Bytes) (path : Path) (data : Bytes)
    (expectedRev : UInt64) (s : σ) : AttachStatus × AttachStore × σ :=
  if store.manifest.revisionOf uri ≠ expectedRev then (.conflict, store, s)
  else
    let wr := if store.memoryOnly then (AttachStatus.ok, s) else io.writeFileAtomic path data s
    if wr.1 ≠ .ok then (wr.1, store, wr.2)
    else
      (.ok, { store with manifest := store.manifest.record uri (expectedRev + 1) path }, wr.2)

/-- `bs_adapter_attach_persist_store_commit_per_path`. -/
def storeCommitPerPath (store : AttachStore) (uri data : Bytes) (expectedRev : UInt64) (s : σ) :
    AttachStatus × AttachStore × σ :=
  match uriToPath (cstr uri) pathCap with
  | none => (.invalidArg, store, s)
  | some path =>
      let one := commitOne io store (cstr uri) path data expectedRev s
      if one.1 ≠ .ok then one
      else
        let m := one.2.1.manifest
        let store :=
          { one.2.1 with manifest := { m with batchEpoch := m.batchEpoch + 1 } }
        let man := saveManifest io store one.2.2
        (man.1, store, man.2)

/-- The part of `batch_commit` from the flip of the in-memory state on. -/
def storeBatchFlip (store : AttachStore) (s : σ) : AttachStatus × AttachStore × σ :=
  let nextEpoch := store.manifest.batchEpoch + 1
  let store :=
    { store with
      manifest := flipManifest store.manifest nextEpoch store.staged
      batchOpen := false
      staged := [] }
  let s := if store.memoryOnly then s else (io.walAppendPhaseMark nextEpoch walPhaseCommit 0 s).2
  let man := saveManifest io store s
  if man.1 ≠ .ok then (man.1, store, man.2)
  else
    let s := if store.memoryOnly then man.2 else (walMarkCommitted io nextEpoch man.2).2
    let purge := purgeWalForStore io store s
    (.ok, purge.1, purge.2)

/-- `bs_adapter_attach_persist_store_batch_commit`. -/
def storeBatchCommit (store : AttachStore) (s : σ) : AttachStatus × AttachStore × σ :=
  if store.batchOpen = false then (.invalidArg, store, s)
  else if casHolds store.manifest store.staged = false then (.conflict, store.batchAbort, s)
  else
    let pre :=
      if store.memoryOnly then (AttachStatus.ok, s)
      else walAppendAndStage io (store.manifest.batchEpoch + 1) store.staged s
    if pre.1 ≠ .ok then (pre.1, store.batchAbort, pre.2)
    else storeBatchFlip io store pre.2

/-- `bs_adapter_attach_persist_store_append_phase_mark`. -/
def storeAppendPhaseMark (store : AttachStore) (batchEpoch : UInt64) (phase uriSetHash : UInt32)
    (s : σ) : AttachStatus × σ :=
  if store.memoryOnly then (.ok, s) else io.walAppendPhaseMark batchEpoch phase uriSetHash s

/-- `bs_adapter_attach_persist_store_reload_manifest`. -/
def storeReloadManifest (store : AttachStore) (s : σ) : AttachStatus × AttachStore × σ :=
  if store.memoryOnly then (.ok, store, s)
  else
    let load := io.loadManifestFile store.manifest s
    (load.1, { store with manifest := load.2.1 }, load.2.2)

end Operations

def deriveWalPath (manifestPath : Path) : Path := manifestPath ++ ascii ".wal"

/-- The disk steps of `write_file_atomic_disk`. -/
def writeFileAtomicDisk (path : Path) (data : Bytes) (d : AttachDisk) : AttachDisk :=
  runSteps [fun d => d.write (tmpPath path) data, fun d => d.remove path,
    fun d => d.rename (tmpPath path) path] d

/-- The file operations of the store at `manifestPath` when none of them fails. -/
def diskIo (order : IterOrder) (manifestPath : Path) : PersistIo AttachDisk where
  walAppendBatch epoch entries d :=
    let app := walAppendBatch epoch entries
    (app.2, if entries = [] then d else appendFile d (deriveWalPath manifestPath) app.1)
  writeFileAtomic path data d := (.ok, writeFileAtomicDisk path data d)
  walAppendPhaseMark batchEpoch phase uriSetHash d :=
    let app := walAppendPhaseMark batchEpoch phase uriSetHash
    (app.2, if batchEpoch = 0 ∨ phase = 0 then d
      else appendFile d (deriveWalPath manifestPath) app.1)
  saveManifestFile m d := (.ok, saveManifestFileSync order manifestPath m d)
  walAppendCommitted epoch d :=
    let app := walAppendCommitted epoch
    (app.2, appendFile d (deriveWalPath manifestPath) app.1)
  walRotate epoch d :=
    let rot := walRotateActiveSegment d (deriveWalPath manifestPath) epoch
    (rot.2, rot.1)
  walPurge manifestEpoch lastPurgedThrough d :=
    let purge := walPurgeOldSegmentsEx d (deriveWalPath manifestPath) manifestEpoch
      lastPurgedThrough
    (purge.2, purge.1)
  loadManifestFile m d := loadManifestFileSync d manifestPath m

/-- `bs_adapter_attach_persist_store_open` for a manifest path; `none` when the
manifest cannot be loaded. -/
def storeOpen (manifestPath : Path) (d : AttachDisk) : Option AttachStore × AttachDisk :=
  let load := loadManifestFileSync d manifestPath {}
  if load.1 ≠ .ok then (none, load.2.2)
  else
    let m := load.2.1
    let recovered := walRecoverUnfinished load.2.2 (deriveWalPath manifestPath) m.batchEpoch
    let purge := walPurgeOldSegmentsEx recovered.1 (deriveWalPath manifestPath) m.batchEpoch 0
    (some { manifest := m, walExecRollback := recovered.2.execRollback,
            walLastPurgeThrough := purge.2 }, purge.1)

/-- File operations that take effect `n` times and then no more: the number is
part of the state. -/
def crashIo {σ : Type} (io : PersistIo σ) : PersistIo (Nat × σ) where
  walAppendBatch epoch entries
    | (0, s) => (.ok, 0, s)
    | (n + 1, s) => ((io.walAppendBatch epoch entries s).1, n, (io.walAppendBatch epoch entries s).2)
  writeFileAtomic path data
    | (0, s) => (.ok, 0, s)
    | (n + 1, s) => ((io.writeFileAtomic path data s).1, n, (io.writeFileAtomic path data s).2)
  walAppendPhaseMark batchEpoch phase uriSetHash
    | (0, s) => (.ok, 0, s)
    | (n + 1, s) =>
        ((io.walAppendPhaseMark batchEpoch phase uriSetHash s).1, n,
          (io.walAppendPhaseMark batchEpoch phase uriSetHash s).2)
  saveManifestFile m
    | (0, s) => (.ok, 0, s)
    | (n + 1, s) => ((io.saveManifestFile m s).1, n, (io.saveManifestFile m s).2)
  walAppendCommitted epoch
    | (0, s) => (.ok, 0, s)
    | (n + 1, s) => ((io.walAppendCommitted epoch s).1, n, (io.walAppendCommitted epoch s).2)
  walRotate epoch
    | (0, s) => (.ok, 0, s)
    | (n + 1, s) => ((io.walRotate epoch s).1, n, (io.walRotate epoch s).2)
  walPurge manifestEpoch lastPurgedThrough
    | (0, s) => (lastPurgedThrough, 0, s)
    | (n + 1, s) =>
        ((io.walPurge manifestEpoch lastPurgedThrough s).1, n,
          (io.walPurge manifestEpoch lastPurgedThrough s).2)
  loadManifestFile m
    | (0, s) => (.ok, m, 0, s)
    | (n + 1, s) =>
        ((io.loadManifestFile m s).1, (io.loadManifestFile m s).2.1, n,
          (io.loadManifestFile m s).2.2)

@[simp] theorem crashIo_walAppendBatch_zero {σ : Type} (io : PersistIo σ) (epoch : UInt64)
    (entries : List WalEntry) (s : σ) :
    (crashIo io).walAppendBatch epoch entries (0, s) = (.ok, 0, s) := rfl

@[simp] theorem crashIo_walAppendBatch_succ {σ : Type} (io : PersistIo σ) (epoch : UInt64)
    (entries : List WalEntry) (k : Nat) (s : σ) :
    (crashIo io).walAppendBatch epoch entries (k + 1, s) =
      ((io.walAppendBatch epoch entries s).1, k, (io.walAppendBatch epoch entries s).2) := rfl

/-- The disk after the first `k` disk steps of `batch_commit`. -/
def crashBatchCommit (order : IterOrder) (manifestPath : Path) (store : AttachStore) (k : Nat)
    (d : AttachDisk) : AttachDisk :=
  (storeBatchCommit (crashIo (diskIo order manifestPath)) store (k, d)).2.2.2

@[simp] theorem writeFileAtomicDisk_same (path : Path) (data : Bytes) (d : AttachDisk) :
    writeFileAtomicDisk path data d path = some data := by
  have hsrc : ((d.write (tmpPath path) data).remove path) (tmpPath path) = some data := by
    rw [Disk.remove_other (tmpPath_ne path), Disk.write_same]
  simp only [writeFileAtomicDisk, runSteps, List.foldl_cons, List.foldl_nil]
  rw [Disk.rename_of_eq_some hsrc, Disk.write_same]

theorem writeFileAtomicDisk_other {path q : Path} {data : Bytes} {d : AttachDisk} (h : q ≠ path)
    (htmp : q ≠ tmpPath path) : writeFileAtomicDisk path data d q = d q := by
  simp only [writeFileAtomicDisk, runSteps, List.foldl_cons, List.foldl_nil]
  rw [Disk.rename_other htmp h, Disk.remove_other h, Disk.write_other htmp]

end BlessStar.Persistence

/-!
## Runs of a store

The life of a file-backed store as a state machine: the calls of its API, a
close and reopen, and a crash within `batch_commit` followed by a reopen.
-/

namespace BlessStar.Persistence

open Lib.ByteString Lib.FileSystem Lib.Transition

/-- The disk, the open store (`none` when opening failed) and, for the
statements only, the bytes last committed for each revision of each URI. -/
structure StoreWorld where
  disk : AttachDisk
  store : Option AttachStore
  committed : Bytes → UInt64 → Option Bytes

inductive StoreEvent
  | reopen
  | commitPerPath (uri data : Bytes) (expectedRev : UInt64)
  | batchBegin
  | batchStage (uri data : Bytes) (expectedRev : UInt64)
  | batchCommit
  | batchAbort
  | appendPhaseMark (batchEpoch : UInt64) (phase uriSetHash : UInt32)
  | crashBatchCommit (k : Nat)

def StoreEvent.InProcess : StoreEvent → Prop
  | reopen => False
  | crashBatchCommit _ => False
  | _ => True

def noteCommitted (c : Bytes → UInt64 → Option Bytes) (uri : Bytes) (rev : UInt64) (data : Bytes) :
    Bytes → UInt64 → Option Bytes :=
  Function.update c uri (Function.update (c uri) rev (some data))

def noteStaged (c : Bytes → UInt64 → Option Bytes) (staged : List StagedEntry) :
    Bytes → UInt64 → Option Bytes :=
  staged.foldl (fun c e => noteCommitted c e.uri (e.expectedRev + 1) e.data) c

section Machine

variable (order : IterOrder) (manifestPath : Path)

def StoreWorld.opened (d : AttachDisk) (committed : Bytes → UInt64 → Option Bytes) :
    StoreWorld where
  disk := (storeOpen manifestPath d).2
  store := (storeOpen manifestPath d).1
  committed := committed

def StoreWorld.step (w : StoreWorld) : StoreEvent → Option StoreWorld
  | .reopen => some (StoreWorld.opened manifestPath w.disk w.committed)
  | .commitPerPath uri data expectedRev => w.store.map fun store =>
      let r := storeCommitPerPath (diskIo order manifestPath) store uri data expectedRev w.disk
      { disk := r.2.2
        store := some r.2.1
        committed :=
          if r.1 = .ok then noteCommitted w.committed (cstr uri) (expectedRev + 1) data
          else w.committed }
  | .batchBegin => w.store.map fun store => { w with store := some store.batchBegin }
  | .batchStage uri data expectedRev => w.store.map fun store =>
      { w with store := some (store.batchStage uri data expectedRev).2 }
  | .batchCommit => w.store.map fun store =>
      let r := storeBatchCommit (diskIo order manifestPath) store w.disk
      { disk := r.2.2
        store := some r.2.1
        committed := if r.1 = .ok then noteStaged w.committed store.staged else w.committed }
  | .batchAbort => w.store.map fun store => { w with store := some store.batchAbort }
  | .appendPhaseMark batchEpoch phase uriSetHash => w.store.map fun store =>
      { w with
        disk :=
          (storeAppendPhaseMark (diskIo order manifestPath) store batchEpoch phase uriSetHash
            w.disk).2 }
  | .crashBatchCommit k => w.store.map fun store =>
      StoreWorld.opened manifestPath (crashBatchCommit order manifestPath store k w.disk)
        (if (storeBatchCommit (diskIo order manifestPath) store w.disk).1 = .ok then
          noteStaged w.committed store.staged
        else w.committed)

/-- The store at `manifestPath`, first opened on the disk `d`. -/
def storeMachine (d : AttachDisk) : Machine StoreWorld StoreEvent where
  init := StoreWorld.opened manifestPath d fun _ _ => none
  step := StoreWorld.step order manifestPath

end Machine

/-- The files a store keeps for itself: the manifest with its `.prev` and
`.bs.tmp`, the WAL and its segments. -/
inductive OwnFile (manifestPath : Path) : Path → Prop
  | manifest : OwnFile manifestPath manifestPath
  | prev : OwnFile manifestPath (prevPath manifestPath)
  | tmp : OwnFile manifestPath (tmpPath manifestPath)
  | wal : OwnFile manifestPath (deriveWalPath manifestPath)
  | segment (epoch : UInt64) {p : Path} :
      Wal.walBuildSegmentPath (deriveWalPath manifestPath) epoch = some p → OwnFile manifestPath p

end BlessStar.Persistence
