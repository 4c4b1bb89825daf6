import BlessStar.Persistence.WalAppend

/-!
# WAL scanning, recovery and purge

`wal_scan_last_committed_epoch`, `wal_max_committed_across_segments`,
`wal_recover_unfinished` and `wal_purge_old_segments_ex` of `attach_wal.c`.

Recovery reads the active file twice: a first pass over it and over the
segments in a window below the manifest epoch looks for framing errors and the
highest COMMITTED epoch, a second pass over the active file deletes the staging
files of orphan batches as it meets them.
-/

namespace BlessStar.Persistence.Wal

open Lib.ByteString
open Persistence Persistence.Crc32

def lastCommittedStep (last : UInt64) (r : WalRecord) : UInt64 :=
  if r.type = recCommitted ∧ r.payload.length = 8 then
    if last < readU64Le r.payload then readU64Le r.payload else last
  else last

/-- `wal_scan_last_committed_epoch`: the highest committed epoch and
`*corrupted_out`. -/
def walScanLastCommittedEpoch (f : Bytes) : UInt64 × Bool :=
  let read := walRecords f
  (read.1.foldl lastCommittedStep 0, read.2 ≠ .eof)

def walBuildSegmentPath (activePath : Path) (epoch : UInt64) : Option Path :=
  let num := decimal epoch.toNat
  if pathCap < activePath.length + 2 + num.length + 1 then none
  else some (activePath ++ ascii ".e" ++ num)

/-- The epochs `lo ..= hi` whose segments are scanned.  (At `hi = UINT64_MAX`
the C loop would not end; the list does.) -/
def walSegmentEpochs (manifestEpoch : UInt64) : List UInt64 :=
  let lo := if walPurgeKeepEpochs < manifestEpoch then manifestEpoch - walPurgeKeepEpochs else 1
  let hi := manifestEpoch + 1
  (List.range (hi.toNat + 1 - lo.toNat)).map fun i => lo + UInt64.ofNat i

def walScannedFiles (d : AttachDisk) (activePath : Path) (manifestEpoch : UInt64) : List Bytes :=
  (d activePath).toList ++
    (walSegmentEpochs manifestEpoch).filterMap fun e => (walBuildSegmentPath activePath e).bind d

/-- The scanning loop over files; a corrupted file ends it with `0`. -/
def walMaxCommittedOf : List Bytes → UInt64 → UInt64 × Bool
  | [], maxC => (maxC, false)
  | f :: fs, maxC =>
      let scan := walScanLastCommittedEpoch f
      if scan.2 then (0, true)
      else walMaxCommittedOf fs (if maxC < scan.1 then scan.1 else maxC)

def walMaxCommittedAcrossSegments (d : AttachDisk) (activePath : Path) (manifestEpoch : UInt64) :
    UInt64 × Bool :=
  walMaxCommittedOf (walScannedFiles d activePath manifestEpoch) 0

/-- `BS_ATTACH_WAL_PHASE_EXEC`. -/
def walPhaseExec : UInt32 := 3

/-- `BS_ATTACH_WAL_MAX_PHASE_TRACK`. -/
def walMaxPhaseTrack : Nat := 32

/-- The update loop of `wal_phase_track_update` over the tracks it has. -/
def phaseTrackRaise (epoch : UInt64) (phase : UInt32) :
    List (UInt64 × UInt32) → Option (List (UInt64 × UInt32))
  | [] => none
  | t :: ts =>
      if t.1 = epoch then some ((t.1, if t.2 < phase then phase else t.2) :: ts)
      else (phaseTrackRaise epoch phase ts).map (t :: ·)

def walPhaseTrackUpdate (tracks : List (UInt64 × UInt32)) (epoch : UInt64) (phase : UInt32) :
    List (UInt64 × UInt32) :=
  if epoch = 0 then tracks
  else
    match phaseTrackRaise epoch phase tracks with
    | some tracks' => tracks'
    | none => if walMaxPhaseTrack ≤ tracks.length then tracks else tracks ++ [(epoch, phase)]

def walMaxPhaseForEpoch (tracks : List (UInt64 × UInt32)) (epoch : UInt64) : UInt32 :=
  (tracks.lookup epoch).getD 0

inductive EntryRead
  | path (p : Path)
  | malformed
  | outOfBounds

/-- The parsing of an ENTRY payload.  The offsets are `uint32_t`, so a huge
length wraps around the checks; what the code then reads lies outside the
payload. -/
def parseStagingPath (payload : Bytes) : EntryRead :=
  let len := UInt32.ofNat payload.length
  if len < 4 then .malformed
  else
    let uriN := readU32Le payload
    if 4 + uriN + 4 > len then .malformed
    else
      let off := 4 + uriN
      if payload.length < off.toNat + 4 then .outOfBounds
      else
        let pathN := readU32Le (payload.drop off.toNat)
        let off := off + 4
        if off + pathN > len then .malformed
        else if payload.length < off.toNat + pathN.toNat then .outOfBounds
        else .path (cstr ((payload.drop off.toNat).take pathN.toNat))

structure WalBatch where
  epoch : UInt64
  count : UInt32
  stagingPaths : List Path
  deriving DecidableEq, Repr

inductive RecoverHalt
  | corrupted
  | outOfBounds
  deriving DecidableEq, Repr

/-- The variables of the second pass.  `stagingPaths` holds the entries seen of
the open batch, so its length is `current_entry_seen`.  Two fields keep the
history: `removed` the paths handed to `remove`, `accepted` the batches whose
BATCH_END was accepted. -/
structure RecoverState where
  currentBatchEpoch : UInt64 := 0
  currentBatchCount : UInt32 := 0
  entryCrcs : List UInt32 := []
  stagingPaths : List Path := []
  inBatch : Bool := false
  phaseTracks : List (UInt64 × UInt32) := []
  execRollback : Option UInt64 := none
  removed : List Path := []
  accepted : List WalBatch := []
  halt : Option RecoverHalt := none

def IsOrphan (lastCommitted manifestEpoch epoch : UInt64) : Prop :=
  lastCommitted < epoch ∨ manifestEpoch < epoch

instance (lastCommitted manifestEpoch epoch : UInt64) :
    Decidable (IsOrphan lastCommitted manifestEpoch epoch) := by
  unfold IsOrphan; infer_instance

section Recover

variable (lastCommitted manifestEpoch : UInt64)

/-- What recovery does with the open batch when it ends: delete the staging
files of an orphan and note an EXEC rollback. -/
def RecoverState.closeBatch (s : RecoverState) : RecoverState :=
  if IsOrphan lastCommitted manifestEpoch s.currentBatchEpoch then
    { s with
      removed := s.removed ++ s.stagingPaths.filter (· ≠ [])
      execRollback :=
        if walPhaseExec ≤ walMaxPhaseForEpoch s.phaseTracks s.currentBatchEpoch then
          some s.currentBatchEpoch
        else s.execRollback }
  else s

@[simp] theorem RecoverState.closeBatch_halt (s : RecoverState) :
    (s.closeBatch lastCommitted manifestEpoch).halt = s.halt := by
  unfold closeBatch
  split <;> rfl

@[simp] theorem RecoverState.closeBatch_accepted (s : RecoverState) :
    (s.closeBatch lastCommitted manifestEpoch).accepted = s.accepted := by
  unfold closeBatch
  split <;> rfl

def orphanPaths (epoch : UInt64) (stagingPaths : List Path) : List Path :=
  if IsOrphan lastCommitted manifestEpoch epoch then stagingPaths.filter (· ≠ []) else []

@[simp] theorem RecoverState.closeBatch_removed (s : RecoverState) :
    (s.closeBatch lastCommitted manifestEpoch).removed =
      s.removed ++ orphanPaths lastCommitted manifestEpoch s.currentBatchEpoch s.stagingPaths := by
  unfold closeBatch orphanPaths
  split <;> simp

def recoverRecord (s : RecoverState) (r : WalRecord) : RecoverState :=
  if s.halt.isSome then s
  else if r.type = recBatchBegin ∧ r.payload.length = 12 then
    if s.inBatch then { s with halt := some .corrupted }
    else
      { s with
        currentBatchEpoch := readU64Le r.payload
        currentBatchCount := readU32Le (r.payload.drop 8)
        entryCrcs := []
        stagingPaths := []
        inBatch := true }
  else if r.type = recEntry ∧ s.inBatch then
    if s.currentBatchCount.toNat ≤ s.stagingPaths.length then { s with halt := some .corrupted }
    else
      match parseStagingPath r.payload with
      | .malformed => { s with halt := some .corrupted }
      | .outOfBounds => { s with halt := some .outOfBounds }
      | .path p =>
          { s with
            entryCrcs := s.entryCrcs ++ [crc32 r.payload]
            stagingPaths := s.stagingPaths ++ [p] }
  else if r.type = recBatchEnd ∧ s.inBatch ∧ r.payload.length = 16 then
    let endEpoch := readU64Le r.payload
    let endCount := readU32Le (r.payload.drop 8)
    let endHash := readU32Le (r.payload.drop 12)
    if endEpoch ≠ s.currentBatchEpoch ∨ endCount ≠ s.currentBatchCount ∨
        endCount.toNat ≠ s.stagingPaths.length ∨ endHash ≠ crc32 (crcBytes s.entryCrcs) then
      { s with halt := some .corrupted, inBatch := false }
    else
      { s.closeBatch lastCommitted manifestEpoch with
        accepted := s.accepted ++ [⟨s.currentBatchEpoch, s.currentBatchCount, s.stagingPaths⟩]
        inBatch := false }
  else if r.type = recPhaseMark ∧ r.payload.length = 16 then
    let markEpoch := readU64Le r.payload
    let markPhase := readU32Le (r.payload.drop 8)
    { s with
      phaseTracks := walPhaseTrackUpdate s.phaseTracks markEpoch markPhase
      execRollback :=
        if lastCommitted < markEpoch ∧ manifestEpoch < markEpoch ∧ walPhaseExec ≤ markPhase then
          some markEpoch
        else s.execRollback }
  else s

/-- The second pass over a file, up to and including the batch still open at
its end. -/
def recoverScan (f : Bytes) : RecoverState :=
  let read := walRecords f
  let s := read.1.foldl (recoverRecord lastCommitted manifestEpoch) {}
  let s := if s.halt = none ∧ read.2 = .corrupt then { s with halt := some .corrupted } else s
  if s.inBatch ∧ s.halt = none then s.closeBatch lastCommitted manifestEpoch else s

end Recover

/-- `bs_adapter_attach_persist_wal_recover_unfinished`: the disk afterwards and
the final variables (`halt` is set when corruption was met in either pass). -/
def walRecoverUnfinished (d : AttachDisk) (walPath : Path) (manifestEpoch : UInt64) :
    AttachDisk × RecoverState :=
  let scan := walMaxCommittedAcrossSegments d walPath manifestEpoch
  if scan.2 then (d, { halt := some .corrupted })
  else
    match d walPath with
    | none => (d, {})
    | some f =>
        let s := recoverScan scan.1 manifestEpoch f
        (d.removeAll s.removed, s)

/-- `wal_rotate_active_segment`; an empty or missing active file stays. -/
def walRotateActiveSegment (d : AttachDisk) (activePath : Path) (epoch : UInt64) :
    AttachDisk × AttachStatus :=
  if activePath = [] then (d, .invalidArg)
  else if (d activePath).getD [] = [] then (d, .ok)
  else
    match walBuildSegmentPath activePath epoch with
    | none => (d, .limit)
    | some seg => ((d.remove seg).rename activePath seg, .ok)

/-- One turn of `wal_purge_segment_epoch_range`. -/
def walPurgeSegment (activePath : Path) (d : AttachDisk) (epoch : UInt64) : AttachDisk :=
  match walBuildSegmentPath activePath epoch with
  | none => d
  | some seg =>
      match d seg with
      | none => d
      | some f =>
          let scan := walScanLastCommittedEpoch f
          if scan.2 ∨ scan.1 ≠ epoch then d else d.remove seg

/-- `wal_purge_old_segments_ex`: the disk and `*inout_last_purged_through`. -/
def walPurgeOldSegmentsEx (d : AttachDisk) (activePath : Path)
    (manifestEpoch lastPurgedThrough : UInt64) : AttachDisk × UInt64 :=
  if (walMaxCommittedAcrossSegments d activePath manifestEpoch).2 then (d, lastPurgedThrough)
  else if manifestEpoch ≤ walPurgeKeepEpochs then (d, lastPurgedThrough)
  else
    let purgeThrough := manifestEpoch - walPurgeKeepEpochs
    let start := if 0 < lastPurgedThrough then lastPurgedThrough + 1 else 1
    if purgeThrough < start then (d, lastPurgedThrough)
    else
      let epochs := (List.range (purgeThrough.toNat + 1 - start.toNat)).map fun i =>
        start + UInt64.ofNat i
      (epochs.foldl (walPurgeSegment activePath) d, purgeThrough)

/-- `wal_purge_old_segments`: without a cursor the purge starts at epoch 1. -/
def walPurgeOldSegments (d : AttachDisk) (activePath : Path) (manifestEpoch : UInt64) :
    AttachDisk :=
  (walPurgeOldSegmentsEx d activePath manifestEpoch 0).1

end BlessStar.Persistence.Wal
