import BlessStar.Persistence.WalRecord

/-!
# WAL appends

The three functions that append to the active file: `wal_append_batch`,
`wal_append_phase_mark` and the record half of `wal_mark_committed`.  Each is
given as the bytes it adds to the file and the status it returns.
-/

namespace BlessStar.Persistence.Wal

open Lib.ByteString Persistence Persistence.Crc32

/-- `BsAttachWalEntry`; the two strings are read up to their NUL. -/
structure WalEntry where
  uri : Bytes
  stagingPath : Bytes
  expectedRev : UInt64
  newRev : UInt64
  payloadChecksum : UInt32
  deriving DecidableEq, Repr

def entryPayload (e : WalEntry) : Bytes :=
  writeU32Le (UInt32.ofNat (cstr e.uri).length) ++ cstr e.uri ++
    writeU32Le (UInt32.ofNat (cstr e.stagingPath).length) ++ cstr e.stagingPath ++
    writeU64Le e.expectedRev ++ writeU64Le e.newRev ++ writeU32Le e.payloadChecksum

def beginPayload (epoch : UInt64) (count : UInt32) : Bytes := writeU64Le epoch ++ writeU32Le count

/-- The `entry_crcs` array as bytes (of a little-endian host). -/
def crcBytes (crcs : List UInt32) : Bytes := crcs.flatMap writeU32Le

def endPayload (epoch : UInt64) (count : UInt32) (crcs : List UInt32) : Bytes :=
  writeU64Le epoch ++ writeU32Le count ++ writeU32Le (crc32 (crcBytes crcs))

/-- The entry loop of `wal_append_batch`: bytes written, `entry_crcs`, status. -/
def walWriteEntries : List WalEntry → Bytes × List UInt32 × AttachStatus
  | [] => ([], [], .ok)
  | e :: es =>
      if walMaxRecordBytes < (cstr e.uri).length ∨ walMaxRecordBytes < (cstr e.stagingPath).length then
        ([], [], .limit)
      else if walMaxRecordBytes < (entryPayload e).length then ([], [], .limit)
      else
        match walWriteRecord recEntry (entryPayload e) with
        | .error rc => ([], [], rc)
        | .ok bytes =>
            let next := walWriteEntries es
            (bytes ++ next.1, crc32 (entryPayload e) :: next.2.1, next.2.2)

/-- `bs_adapter_attach_persist_wal_append_batch`. -/
def walAppendBatch (epoch : UInt64) (entries : List WalEntry) : Bytes × AttachStatus :=
  if entries = [] then ([], .invalidArg)
  else if 0xFFFFFFFF < entries.length then ([], .limit)
  else
    let count := UInt32.ofNat entries.length
    match walWriteRecord recBatchBegin (beginPayload epoch count) with
    | .error rc => ([], rc)
    | .ok first =>
        let body := walWriteEntries entries
        if body.2.2 ≠ .ok then (first ++ body.1, body.2.2)
        else
          match walWriteRecord recBatchEnd (endPayload epoch count body.2.1) with
          | .error rc => (first ++ body.1, rc)
          | .ok last => (first ++ body.1 ++ last, .ok)

/-- The COMMITTED record of `bs_adapter_attach_persist_wal_mark_committed`. -/
def walAppendCommitted (epoch : UInt64) : Bytes × AttachStatus :=
  match walWriteRecord recCommitted (writeU64Le epoch) with
  | .error rc => ([], rc)
  | .ok bytes => (bytes, .ok)

/-- `bs_adapter_attach_persist_wal_append_phase_mark`. -/
def walAppendPhaseMark (batchEpoch : UInt64) (phase uriSetHash : UInt32) : Bytes × AttachStatus :=
  if batchEpoch = 0 ∨ phase = 0 then ([], .invalidArg)
  else
    match walWriteRecord recPhaseMark
        (writeU64Le batchEpoch ++ writeU32Le phase ++ writeU32Le uriSetHash) with
    | .error rc => ([], rc)
    | .ok bytes => (bytes, .ok)

/-! ## Histories of appends -/

inductive WalAppend
  | batch (epoch : UInt64) (entries : List WalEntry)
  | phaseMark (epoch : UInt64) (phase uriSetHash : UInt32)
  | committed (epoch : UInt64)

namespace WalAppend

def run : WalAppend → Bytes × AttachStatus
  | batch epoch entries => walAppendBatch epoch entries
  | phaseMark epoch phase uriSetHash => walAppendPhaseMark epoch phase uriSetHash
  | committed epoch => walAppendCommitted epoch

/-- The call returned `BS_ATTACH_OK`. -/
def Succeeds (a : WalAppend) : Prop := a.run.2 = .ok

instance (a : WalAppend) : Decidable a.Succeeds := by unfold Succeeds; infer_instance

def records : WalAppend → List WalRecord
  | batch epoch entries =>
      ⟨recBatchBegin, beginPayload epoch (UInt32.ofNat entries.length)⟩ ::
        entries.map (fun e => ⟨recEntry, entryPayload e⟩) ++
        [⟨recBatchEnd, endPayload epoch (UInt32.ofNat entries.length)
          (entries.map fun e => crc32 (entryPayload e))⟩]
  | phaseMark epoch phase uriSetHash =>
      [⟨recPhaseMark, writeU64Le epoch ++ writeU32Le phase ++ writeU32Le uriSetHash⟩]
  | committed epoch => [⟨recCommitted, writeU64Le epoch⟩]

end WalAppend

def walFile (as : List WalAppend) : Bytes := as.flatMap fun a => a.run.1

def walFileRecords (as : List WalAppend) : List WalRecord := as.flatMap WalAppend.records

@[simp] theorem length_beginPayload (epoch : UInt64) (count : UInt32) :
    (beginPayload epoch count).length = 12 := by
  simp [beginPayload]

@[simp] theorem length_endPayload (epoch : UInt64) (count : UInt32) (crcs : List UInt32) :
    (endPayload epoch count crcs).length = 16 := by
  simp [endPayload]

theorem length_entryPayload (e : WalEntry) :
    (entryPayload e).length = 28 + (cstr e.uri).length + (cstr e.stagingPath).length := by
  simp [entryPayload]
  omega

theorem walWriteRecord_of_fits {type : UInt16} {payload : Bytes}
    (h : payload.length ≤ walMaxRecordBytes) :
    walWriteRecord type payload = .ok (frame ⟨type, payload⟩) := by
  rw [walWriteRecord, if_neg (by omega)]

theorem walWriteEntries_eq (es : List WalEntry) :
    ((walWriteEntries es).2.2 = .ok ↔ ∀ e ∈ es, (entryPayload e).length ≤ walMaxRecordBytes) ∧
      ((walWriteEntries es).2.2 = .ok →
        (walWriteEntries es).1 = frames (es.map fun e => ⟨recEntry, entryPayload e⟩) ∧
        (walWriteEntries es).2.1 = es.map fun e => crc32 (entryPayload e)) := by
  induction es with
  | nil => simp [walWriteEntries]
  | cons e es ih =>
      obtain ⟨ihIff, ihEq⟩ := ih
      by_cases hfit : (entryPayload e).length ≤ walMaxRecordBytes
      · have hlen := length_entryPayload e
        have hstep : walWriteEntries (e :: es) =
            (frame ⟨recEntry, entryPayload e⟩ ++ (walWriteEntries es).1,
              crc32 (entryPayload e) :: (walWriteEntries es).2.1, (walWriteEntries es).2.2) := by
          rw [walWriteEntries, if_neg (by omega), if_neg (by omega), walWriteRecord_of_fits hfit]
        rw [hstep]
        refine ⟨by simp [ihIff, hfit], fun hok => ?_⟩
        obtain ⟨hbytes, hcrcs⟩ := ihEq hok
        simp only at hbytes hcrcs ⊢
        rw [hbytes, hcrcs, List.map_cons, List.map_cons, frames_cons]
        exact ⟨rfl, rfl⟩
      · have hstep : (walWriteEntries (e :: es)).2.2 = .limit := by
          rw [walWriteEntries]
          split
          · rfl
          · rw [if_pos (by omega)]
        rw [hstep]
        refine ⟨?_, by simp⟩
        simp only [reduceCtorEq, false_iff]
        exact fun h => hfit (h e (by simp))

theorem walAppendBatch_ok_iff (epoch : UInt64) (entries : List WalEntry) :
    (walAppendBatch epoch entries).2 = .ok ↔
      entries ≠ [] ∧ entries.length ≤ 0xFFFFFFFF ∧
        ∀ e ∈ entries, (entryPayload e).length ≤ walMaxRecordBytes := by
  obtain ⟨hiff, -⟩ := walWriteEntries_eq entries
  unfold walAppendBatch
  by_cases hnil : entries = []
  · simp [hnil]
  · rw [if_neg hnil]
    by_cases hcount : 0xFFFFFFFF < entries.length
    · rw [if_pos hcount]
      simp only [reduceCtorEq, false_iff]
      omega
    · rw [if_neg hcount]
      simp only
      rw [walWriteRecord_of_fits (by simp [walMaxRecordBytes]),
        walWriteRecord_of_fits (by simp [walMaxRecordBytes])]
      simp only [← hiff]
      split
      · rename_i hbad
        simp [hbad]
      · rename_i hgood
        simp only [ne_eq, not_not] at hgood
        simp [hgood, hnil]
        omega

theorem walAppendBatch_bytes {epoch : UInt64} {entries : List WalEntry}
    (h : (walAppendBatch epoch entries).2 = .ok) :
    (walAppendBatch epoch entries).1 = frames (WalAppend.batch epoch entries).records := by
  obtain ⟨hnil, hcount, hfits⟩ := (walAppendBatch_ok_iff epoch entries).mp h
  obtain ⟨hiff, heq⟩ := walWriteEntries_eq entries
  obtain ⟨hbytes, hcrcs⟩ := heq (hiff.mpr hfits)
  unfold walAppendBatch
  rw [if_neg hnil, if_neg (by omega)]
  simp only
  rw [walWriteRecord_of_fits (by simp [walMaxRecordBytes]),
    walWriteRecord_of_fits (by simp [walMaxRecordBytes])]
  simp only
  rw [if_neg (by simp [hiff.mpr hfits]), hbytes, hcrcs]
  simp [WalAppend.records, frames]

namespace WalAppend

theorem succeeds_phaseMark_iff (epoch : UInt64) (phase uriSetHash : UInt32) :
    (phaseMark epoch phase uriSetHash).Succeeds ↔ epoch ≠ 0 ∧ phase ≠ 0 := by
  change (walAppendPhaseMark epoch phase uriSetHash).2 = .ok ↔ _
  unfold walAppendPhaseMark
  rw [walWriteRecord_of_fits (by simp [walMaxRecordBytes])]
  split
  · rename_i h
    simp only [reduceCtorEq, false_iff]
    intro hne
    exact h.elim hne.1 hne.2
  · rename_i h
    simpa using h

theorem succeeds_committed (epoch : UInt64) : (committed epoch).Succeeds := by
  change (walAppendCommitted epoch).2 = .ok
  rw [walAppendCommitted, walWriteRecord_of_fits (by simp [walMaxRecordBytes])]

theorem run_bytes {a : WalAppend} (h : a.Succeeds) : a.run.1 = frames a.records := by
  cases a with
  | batch epoch entries => exact walAppendBatch_bytes h
  | phaseMark epoch phase uriSetHash =>
      have hne := (succeeds_phaseMark_iff epoch phase uriSetHash).mp h
      simp only [run, walAppendPhaseMark, records]
      rw [if_neg (not_or.mpr hne), walWriteRecord_of_fits (by simp [walMaxRecordBytes])]
      simp [frames]
  | committed epoch =>
      simp only [run, walAppendCommitted, records]
      rw [walWriteRecord_of_fits (by simp [walMaxRecordBytes])]
      simp [frames]

theorem records_fit {a : WalAppend} (h : a.Succeeds) : ∀ r ∈ a.records, r.Fits := by
  cases a with
  | batch epoch entries =>
      obtain ⟨-, -, hfits⟩ := (walAppendBatch_ok_iff epoch entries).mp h
      intro r hr
      simp only [records, List.mem_append, List.mem_cons, List.mem_map, List.not_mem_nil,
        or_false] at hr
      rcases hr with (rfl | ⟨e, he, rfl⟩) | rfl
      · simp [WalRecord.Fits, walMaxRecordBytes]
      · exact hfits e he
      · simp [WalRecord.Fits, walMaxRecordBytes]
  | phaseMark epoch phase uriSetHash =>
      intro r hr
      simp only [records, List.mem_singleton] at hr
      subst hr
      simp [WalRecord.Fits, walMaxRecordBytes]
  | committed epoch =>
      intro r hr
      simp only [records, List.mem_singleton] at hr
      subst hr
      simp [WalRecord.Fits, walMaxRecordBytes]

end WalAppend

theorem walFile_append (as bs : List WalAppend) : walFile (as ++ bs) = walFile as ++ walFile bs := by
  simp [walFile]

theorem walFileRecords_append (as bs : List WalAppend) :
    walFileRecords (as ++ bs) = walFileRecords as ++ walFileRecords bs := by
  simp [walFileRecords]

theorem walFile_eq_frames {as : List WalAppend} (h : ∀ a ∈ as, a.Succeeds) :
    walFile as = frames (walFileRecords as) := by
  induction as with
  | nil => rfl
  | cons a as ih =>
      have ha : a.Succeeds := h a (by simp)
      have ih' := ih fun x hx => h x (by simp [hx])
      simp only [walFile, walFileRecords, List.flatMap_cons, frames_append] at ih' ⊢
      rw [ih', WalAppend.run_bytes ha]

theorem walFileRecords_fit {as : List WalAppend} (h : ∀ a ∈ as, a.Succeeds) :
    ∀ r ∈ walFileRecords as, r.Fits := by
  intro r hr
  simp only [walFileRecords, List.mem_flatMap] at hr
  obtain ⟨a, ha, hr⟩ := hr
  exact WalAppend.records_fit (h a ha) r hr

end BlessStar.Persistence.Wal
