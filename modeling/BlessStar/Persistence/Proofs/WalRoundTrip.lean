import BlessStar.Persistence.Proofs.WalGrammar

/-!
# What recovery reads back from successful appends

The two passes of recovery are separate readers of the format the three append
functions write.  Each pass is related here to the sequence of calls: the first
to the epochs passed to `mark_committed`, the second to the batches.
-/

namespace BlessStar.Persistence.Proofs.WalRoundTrip

open Lib.ByteString Persistence Persistence.Crc32
open Persistence.Wal Persistence.Proofs.WalGrammar

def committedEpochs (as : List WalAppend) : List UInt64 :=
  as.filterMap fun
    | .committed epoch => some epoch
    | _ => none

/-- The highest committed epoch, `0` when there is none. -/
def maxCommitted (as : List WalAppend) : UInt64 := (committedEpochs as).foldl max 0

def batchOf : WalAppend → Option WalBatch
  | .batch epoch entries =>
      some ⟨epoch, UInt32.ofNat entries.length, entries.map fun e => cstr e.stagingPath⟩
  | _ => none

def batchesOf (as : List WalAppend) : List WalBatch := as.filterMap batchOf

theorem batchesOf_append (as bs : List WalAppend) :
    batchesOf (as ++ bs) = batchesOf as ++ batchesOf bs := by
  simp [batchesOf]

theorem committedEpochs_append (as bs : List WalAppend) :
    committedEpochs (as ++ bs) = committedEpochs as ++ committedEpochs bs := by
  simp [committedEpochs]

theorem max_eq_ite (a b : UInt64) : max a b = if a < b then b else a := by
  have hle : max a b = if a ≤ b then b else a := rfl
  rw [hle]
  by_cases hlt : a < b
  · rw [if_pos hlt, if_pos (UInt64.le_of_lt hlt)]
  · rw [if_neg hlt]
    split
    · rename_i h
      exact UInt64.le_antisymm (UInt64.not_lt.mp hlt) h
    · rfl

theorem lastCommittedStep_committed (last epoch : UInt64) :
    lastCommittedStep last ⟨recCommitted, writeU64Le epoch⟩ = max last epoch := by
  unfold lastCommittedStep
  rw [if_pos ⟨rfl, length_writeU64Le epoch⟩]
  simp only [readU64Le_writeU64Le_nil]
  rw [max_eq_ite]

theorem lastCommittedStep_other {last : UInt64} {r : WalRecord} (h : r.type ≠ recCommitted) :
    lastCommittedStep last r = last := by
  rw [lastCommittedStep, if_neg fun hc => h hc.1]

theorem foldl_lastCommittedStep_other {rs : List WalRecord} (h : ∀ r ∈ rs, r.type ≠ recCommitted)
    (last : UInt64) : rs.foldl lastCommittedStep last = last := by
  induction rs with
  | nil => rfl
  | cons r rs ih =>
      rw [List.foldl_cons, lastCommittedStep_other (h r (by simp))]
      exact ih fun x hx => h x (by simp [hx])

theorem records_type_ne_committed {a : WalAppend} (h : ∀ epoch, a ≠ .committed epoch) :
    ∀ r ∈ a.records, r.type ≠ recCommitted := by
  cases a with
  | batch epoch entries =>
      intro r hr
      simp only [WalAppend.records, List.mem_append, List.mem_cons, List.mem_map, List.not_mem_nil,
        or_false] at hr
      rcases hr with (rfl | ⟨e, -, rfl⟩) | rfl
      · simp [recBatchBegin, recCommitted]
      · simp [recEntry, recCommitted]
      · simp [recBatchEnd, recCommitted]
  | phaseMark epoch phase uriSetHash =>
      intro r hr
      simp only [WalAppend.records, List.mem_singleton] at hr
      subst hr
      simp [recPhaseMark, recCommitted]
  | committed epoch => exact absurd rfl (h epoch)

theorem foldl_lastCommittedStep_call (a : WalAppend) (last : UInt64) :
    a.records.foldl lastCommittedStep last = (committedEpochs [a]).foldl max last := by
  cases a with
  | committed epoch =>
      rw [WalAppend.records, List.foldl_cons, List.foldl_nil, lastCommittedStep_committed]
      simp [committedEpochs]
  | batch epoch entries =>
      rw [foldl_lastCommittedStep_other (records_type_ne_committed (by simp))]
      simp [committedEpochs]
  | phaseMark epoch phase uriSetHash =>
      rw [foldl_lastCommittedStep_other (records_type_ne_committed (by simp))]
      simp [committedEpochs]

theorem foldl_lastCommittedStep_records (as : List WalAppend) (last : UInt64) :
    (walFileRecords as).foldl lastCommittedStep last = (committedEpochs as).foldl max last := by
  induction as generalizing last with
  | nil => rfl
  | cons a as ih =>
      have hrecords : walFileRecords (a :: as) = a.records ++ walFileRecords as := by
        simp [walFileRecords]
      have hepochs : committedEpochs (a :: as) = committedEpochs [a] ++ committedEpochs as :=
        committedEpochs_append [a] as
      rw [hrecords, List.foldl_append, ih, foldl_lastCommittedStep_call, hepochs,
        List.foldl_append]

theorem scan_walFile {as : List WalAppend} (h : ∀ a ∈ as, a.Succeeds) :
    walScanLastCommittedEpoch (walFile as) = (maxCommitted as, false) := by
  rw [walScanLastCommittedEpoch, walFile_eq_frames h, walRecords_frames (walFileRecords_fit h)]
  simp only [foldl_lastCommittedStep_records]
  rfl

theorem parseStagingPath_entryPayload {e : WalEntry}
    (hfit : (entryPayload e).length ≤ walMaxRecordBytes) :
    parseStagingPath (entryPayload e) = .path (cstr e.stagingPath) := by
  have hlen := length_entryPayload e
  have hfits : (entryPayload e).length ≤ 65536 := hfit
  set uri := cstr e.uri with huri
  set path := cstr e.stagingPath with hpath
  have huriN : (UInt32.ofNat uri.length).toNat = uri.length := by
    rw [UInt32.toNat_ofNat']
    exact Nat.mod_eq_of_lt (by omega)
  have hpathN : (UInt32.ofNat path.length).toNat = path.length := by
    rw [UInt32.toNat_ofNat']
    exact Nat.mod_eq_of_lt (by omega)
  have hlenN : (UInt32.ofNat (entryPayload e).length).toNat = (entryPayload e).length := by
    rw [UInt32.toNat_ofNat']
    exact Nat.mod_eq_of_lt (by omega)
  have hreadUri : readU32Le (entryPayload e) = UInt32.ofNat uri.length := by
    simp only [entryPayload, List.append_assoc]
    exact readU32Le_writeU32Le _ _
  have hoff : (4 + UInt32.ofNat uri.length).toNat = 4 + uri.length := by
    rw [UInt32.toNat_add, huriN]
    exact Nat.mod_eq_of_lt (by simp; omega)
  have hoff4 : (4 + UInt32.ofNat uri.length + 4).toNat = 8 + uri.length := by
    rw [UInt32.toNat_add, hoff]
    simp only [UInt32.reduceToNat]
    omega
  -- the payload from the length of the path on
  have hdrop : (entryPayload e).drop (4 + uri.length) =
      writeU32Le (UInt32.ofNat path.length) ++ (path ++
        (writeU64Le e.expectedRev ++ (writeU64Le e.newRev ++ writeU32Le e.payloadChecksum))) := by
    rw [entryPayload, ← huri, ← hpath]
    simp only [List.append_assoc]
    rw [← List.append_assoc (writeU32Le _) uri]
    exact List.drop_left' (by simp)
  have hreadPath : readU32Le ((entryPayload e).drop (4 + uri.length)) =
      UInt32.ofNat path.length := by
    rw [hdrop]
    exact readU32Le_writeU32Le _ _
  have hdrop8 : (entryPayload e).drop (8 + uri.length) = path ++
      (writeU64Le e.expectedRev ++ (writeU64Le e.newRev ++ writeU32Le e.payloadChecksum)) := by
    rw [show 8 + uri.length = (4 + uri.length) + 4 by omega, ← List.drop_drop, hdrop]
    exact List.drop_left' (by simp)
  have hend : (4 + UInt32.ofNat uri.length + 4 + UInt32.ofNat path.length).toNat =
      8 + uri.length + path.length := by
    rw [UInt32.toNat_add, hoff4, hpathN]
    exact Nat.mod_eq_of_lt (by omega)
  unfold parseStagingPath
  rw [if_neg (by rw [UInt32.lt_iff_toNat_lt, hlenN]; simp; omega)]
  simp only [hreadUri]
  rw [if_neg (by rw [gt_iff_lt, UInt32.lt_iff_toNat_lt, hlenN, hoff4]; omega)]
  rw [if_neg (by rw [hoff]; omega)]
  simp only [hoff, hreadPath]
  rw [if_neg (by rw [gt_iff_lt, UInt32.lt_iff_toNat_lt, hlenN, hend]; omega)]
  rw [if_neg (by rw [hoff4, hpathN]; omega)]
  rw [hoff4, hpathN, hdrop8, List.take_left, hpath]
  congr 1
  exact cstr_eq_self (not_zero_mem_cstr e.stagingPath)

theorem epochOf_begin (epoch : UInt64) (count : UInt32) :
    epochOf ⟨recBatchBegin, beginPayload epoch count⟩ = epoch := readU64Le_writeU64Le _ _

theorem countOf_begin (epoch : UInt64) (count : UInt32) :
    countOf ⟨recBatchBegin, beginPayload epoch count⟩ = count := by
  rw [countOf, beginPayload, List.drop_left' (length_writeU64Le epoch)]
  exact readU32Le_writeU32Le_nil count

theorem isEnd_endPayload (epoch : UInt64) (count : UInt32) (crcs : List UInt32) :
    IsEnd ⟨recBatchEnd, endPayload epoch count crcs⟩ := ⟨rfl, length_endPayload _ _ _⟩

theorem matches_endPayload {b : WalRecord} {paths : List Path} (crcs : List UInt32)
    (hseen : (countOf b).toNat = paths.length) :
    Matches b paths crcs ⟨recBatchEnd, endPayload (epochOf b) (countOf b) crcs⟩ := by
  have hepoch : epochOf ⟨recBatchEnd, endPayload (epochOf b) (countOf b) crcs⟩ = epochOf b := by
    simp only [epochOf, endPayload, List.append_assoc]
    exact readU64Le_writeU64Le _ _
  have hcount : countOf ⟨recBatchEnd, endPayload (epochOf b) (countOf b) crcs⟩ = countOf b := by
    simp only [countOf, endPayload, List.append_assoc]
    rw [List.drop_left' (length_writeU64Le _)]
    exact readU32Le_writeU32Le _ _
  have hhash : hashOf ⟨recBatchEnd, endPayload (epochOf b) (countOf b) crcs⟩ =
      crc32 (crcBytes crcs) := by
    rw [hashOf, endPayload, List.drop_left' (by simp)]
    exact readU32Le_writeU32Le_nil _
  exact ⟨hepoch, hcount, by rw [hcount, hseen], hhash⟩

theorem open_entries {b : WalRecord} (es : List WalEntry)
    (hroom : es.length ≤ (countOf b).toNat)
    (hfit : ∀ e ∈ es, (entryPayload e).length ≤ walMaxRecordBytes) :
    Open b (es.map fun e => ⟨recEntry, entryPayload e⟩) (es.map fun e => cstr e.stagingPath)
      (es.map fun e => crc32 (entryPayload e)) := by
  induction es using List.reverseRecOn with
  | nil => exact .start
  | append_singleton es e ih =>
      rw [List.length_append, List.length_singleton] at hroom
      have hopen := ih (by omega) fun x hx => hfit x (by simp [hx])
      have hparse := parseStagingPath_entryPayload (hfit e (by simp))
      simp only [List.map_append, List.map_cons, List.map_nil]
      exact hopen.entry rfl (by rw [List.length_map]; omega) hparse

theorem countOf_begin_toNat {entries : List WalEntry} (epoch : UInt64)
    (hcount : entries.length ≤ 0xFFFFFFFF) :
    (countOf ⟨recBatchBegin, beginPayload epoch (UInt32.ofNat entries.length)⟩).toNat =
      entries.length := by
  rw [countOf_begin, UInt32.toNat_ofNat']
  exact Nat.mod_eq_of_lt (by omega)

theorem complete_records {a : WalAppend} (hok : a.Succeeds) :
    Complete a.records (batchOf a).toList := by
  cases a with
  | batch epoch entries =>
      obtain ⟨-, hcount, hfit⟩ := (walAppendBatch_ok_iff epoch entries).mp hok
      have hcountN := countOf_begin_toNat epoch hcount
      have hopen := open_entries entries hcountN.ge hfit
      have hmatch := matches_endPayload (entries.map fun e => crc32 (entryPayload e))
        (hcountN.trans (List.length_map fun e => cstr e.stagingPath).symm)
      have hall := Complete.nil.batch ⟨rfl, length_beginPayload _ _⟩ hopen
        (isEnd_endPayload _ _ _) hmatch
      rw [epochOf_begin, countOf_begin] at hall
      exact hall
  | phaseMark epoch phase uriSetHash =>
      have hne : recPhaseMark ≠ recBatchBegin := by decide
      exact Complete.nil.skip fun h => hne h.1
  | committed epoch =>
      have hne : recCommitted ≠ recBatchBegin := by decide
      exact Complete.nil.skip fun h => hne h.1

theorem complete_walFileRecords {as : List WalAppend} (hok : ∀ a ∈ as, a.Succeeds) :
    Complete (walFileRecords as) (batchesOf as) := by
  induction as with
  | nil => exact .nil
  | cons a as ih =>
      have hrecords : walFileRecords (a :: as) = a.records ++ walFileRecords as := by
        simp [walFileRecords]
      have hbatches : batchesOf (a :: as) = (batchOf a).toList ++ batchesOf as := by
        cases hb : batchOf a <;> simp [batchesOf, hb]
      rw [hrecords, hbatches]
      exact (complete_records (hok a (by simp))).append (ih fun x hx => hok x (by simp [hx]))

theorem between_recoverScan_walFile {as : List WalAppend} (hok : ∀ a ∈ as, a.Succeeds)
    (lastCommitted manifestEpoch : UInt64) :
    Between lastCommitted manifestEpoch
      (recoverScan lastCommitted manifestEpoch (walFile as)) (batchesOf as) := by
  have h : Between lastCommitted manifestEpoch _ _ := (complete_walFileRecords hok).between
  rw [recoverScan, walFile_eq_frames hok, walRecords_frames (walFileRecords_fit hok)]
  simp only [reduceCtorEq, and_false, if_false]
  rw [if_neg (by simp [h.inBatch])]
  exact h

/-- **WAL round trip.**  For successful appends of any kind and in any order,
the first pass finds no corruption and the highest committed epoch, and the
second pass accepts exactly the appended batches, each with its epoch, count
and staging paths, and reaches the end of the file outside any batch. -/
theorem wal_round_trip (as : List WalAppend) (hok : ∀ a ∈ as, a.Succeeds) :
    walScanLastCommittedEpoch (walFile as) = (maxCommitted as, false) ∧
      ∀ lastCommitted manifestEpoch,
        (recoverScan lastCommitted manifestEpoch (walFile as)).accepted = batchesOf as ∧
        (recoverScan lastCommitted manifestEpoch (walFile as)).halt = none ∧
        (recoverScan lastCommitted manifestEpoch (walFile as)).inBatch = false := by
  refine ⟨scan_walFile hok, fun lastCommitted manifestEpoch => ?_⟩
  have h := between_recoverScan_walFile hok lastCommitted manifestEpoch
  exact ⟨h.accepted, h.halt, h.inBatch⟩

theorem wal_round_trip_three_calls :
    let as : List WalAppend := [.phaseMark 7 3 0,
      .batch 7 [⟨ascii "file:///a", ascii "/a.bs.staging.e7.r1", 0, 1, 5⟩], .committed 7]
    walScanLastCommittedEpoch (walFile as) = (7, false) ∧
      ∀ lastCommitted manifestEpoch,
        (recoverScan lastCommitted manifestEpoch (walFile as)).accepted =
          [⟨7, 1, [ascii "/a.bs.staging.e7.r1"]⟩] ∧
        (recoverScan lastCommitted manifestEpoch (walFile as)).halt = none ∧
        (recoverScan lastCommitted manifestEpoch (walFile as)).inBatch = false :=
  wal_round_trip [.phaseMark 7 3 0,
    .batch 7 [⟨ascii "file:///a", ascii "/a.bs.staging.e7.r1", 0, 1, 5⟩], .committed 7] (by decide)

end BlessStar.Persistence.Proofs.WalRoundTrip
