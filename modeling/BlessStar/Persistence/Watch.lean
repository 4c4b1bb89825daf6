import BlessStar.Persistence.Store

/-!
# Watch events of a batch commit

The events that `batch_commit` hands to `watch_publish`, beside what it does to
the store and the disk.  A failed publication is ignored.
-/

namespace BlessStar.Persistence

open Lib.ByteString Persistence.Wal

/-- `BsAttachWatchStage`. -/
inductive WatchStage
  | cas
  | walFsync
  | canonicalWrite
  | manifestFlip
  | walCommit
  | recoverConservative
  deriving DecidableEq, Repr

/-- `BsAttachWatchResult`. -/
inductive WatchResult
  | ok
  | fail
  deriving DecidableEq, Repr

/-- `BsAttachWatchEvent`. -/
structure WatchEvent where
  epoch : UInt64
  uri : Bytes
  stage : WatchStage
  result : WatchResult
  deriving DecidableEq, Repr

/-- `publish_watch_event` for each entry. -/
def publishEach (epoch : UInt64) (stage : WatchStage) (result : WatchResult)
    (staged : List StagedEntry) : List WatchEvent :=
  staged.map fun e => ⟨epoch, e.uri, stage, result⟩

section Operations

variable {σ : Type} (io : PersistIo σ)

/-- `writeStagingFiles` with its events. -/
def writeStagingFilesWatched (nextEpoch : UInt64) :
    List StagedEntry → σ → List WatchEvent × AttachStatus × σ
  | [], s => ([], .ok, s)
  | e :: es, s =>
      let wr := io.writeFileAtomic (e.stagingPath nextEpoch) e.data s
      if wr.1 ≠ .ok then ([⟨nextEpoch, e.uri, .canonicalWrite, .fail⟩], wr)
      else
        let rest := writeStagingFilesWatched nextEpoch es wr.2
        (⟨nextEpoch, e.uri, .canonicalWrite, .ok⟩ :: rest.1, rest.2)

/-- `walAppendAndStage` with its events. -/
def walAppendAndStageWatched (nextEpoch : UInt64) (staged : List StagedEntry) (s : σ) :
    List WatchEvent × AttachStatus × σ :=
  let wr := io.walAppendBatch nextEpoch (staged.map (·.walEntry nextEpoch)) s
  if wr.1 ≠ .ok then (publishEach nextEpoch .walFsync .fail staged, wr)
  else
    let rest := writeStagingFilesWatched io nextEpoch staged wr.2
    (publishEach nextEpoch .walFsync .ok staged ++ rest.1, rest.2)

/-- `storeBatchFlip` with its events; the staged entries are gone when its loops
run. -/
def storeBatchFlipWatched (store : AttachStore) (s : σ) :
    List WatchEvent × AttachStatus × AttachStore × σ :=
  let nextEpoch := store.manifest.batchEpoch + 1
  let store :=
    { store with
      manifest := flipManifest store.manifest nextEpoch store.staged
      batchOpen := false
      staged := [] }
  let s := if store.memoryOnly then s else (io.walAppendPhaseMark nextEpoch walPhaseCommit 0 s).2
  let man := saveManifest io store s
  if man.1 ≠ .ok then
    (publishEach nextEpoch .manifestFlip .fail store.staged, man.1, store, man.2)
  else
    let committed := if store.memoryOnly then (AttachStatus.ok, man.2)
      else walMarkCommitted io nextEpoch man.2
    let commitEvents := if store.memoryOnly then []
      else publishEach nextEpoch .walCommit (if committed.1 = .ok then .ok else .fail) store.staged
    let purge := purgeWalForStore io store committed.2
    (publishEach nextEpoch .manifestFlip .ok store.staged ++ commitEvents, .ok, purge.1, purge.2)

/-- `bs_adapter_attach_persist_store_batch_commit` with its events. -/
def storeBatchCommitWatched (store : AttachStore) (s : σ) :
    List WatchEvent × AttachStatus × AttachStore × σ :=
  if store.batchOpen = false then ([], .invalidArg, store, s)
  else
    let nextEpoch := store.manifest.batchEpoch + 1
    match store.staged.find? fun e => store.manifest.revisionOf e.uri ≠ e.expectedRev with
    | some e => ([⟨nextEpoch, e.uri, .cas, .fail⟩], .conflict, store.batchAbort, s)
    | none =>
        let casEvents := publishEach nextEpoch .cas .ok store.staged
        let pre := if store.memoryOnly then ([], AttachStatus.ok, s)
          else walAppendAndStageWatched io nextEpoch store.staged s
        if pre.2.1 ≠ .ok then (casEvents ++ pre.1, pre.2.1, store.batchAbort, pre.2.2)
        else
          let flip := storeBatchFlipWatched io store pre.2.2
          (casEvents ++ pre.1 ++ flip.1, flip.2)

end Operations

end BlessStar.Persistence
