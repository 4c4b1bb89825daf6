import BlessStar.Persistence.Proofs.TornHeader
import BlessStar.Persistence.Proofs.WalCorruption
import BlessStar.Persistence.Proofs.StoreFiles

/-!
# What a failed append leaves

A batch that is too long for its records is refused after its BATCH_BEGIN has
been written.  The log is then as recovery leaves a crash, and the next batch is
a nested one.
-/

namespace BlessStar.Persistence.Proofs.FailedAppend

open Lib.ByteString Persistence
open Persistence.Crc32 Persistence.Wal
open WalGrammar WalRoundTrip WalCorruption WalFraming TornHeader StoreFiles

/-- The disk after `append_batch`, which does not open the file for an empty
batch. -/
def afterAppend (d : AttachDisk) (walPath : Path) (epoch : UInt64) (entries : List WalEntry) :
    AttachDisk :=
  if entries = [] then d else appendFile d walPath (walAppendBatch epoch entries).1

def logOf (d : AttachDisk) (walPath : Path) : Bytes := (d walPath).getD []

/-- After this call, whatever is appended with success is recovered as without
the call, and nothing is corrupted. -/
def LeavesUsable (d : AttachDisk) (walPath : Path) (m : UInt64) (epoch : UInt64)
    (entries : List WalEntry) : Prop :=
  ∀ epoch' entries', (walAppendBatch epoch' entries').2 = .ok →
    (walRecoverUnfinished
        (afterAppend (afterAppend d walPath epoch entries) walPath epoch' entries') walPath m).2 =
      (walRecoverUnfinished (afterAppend d walPath epoch' entries') walPath m).2 ∧
    (walRecoverUnfinished
      (afterAppend (afterAppend d walPath epoch entries) walPath epoch' entries') walPath m).2.halt =
        none

def RefusedAtOnce (entries : List WalEntry) : Prop := entries = [] ∨ 0xFFFFFFFF < entries.length

def EndsBetweenBatches (f : Bytes) : Prop :=
  frames (walRecords f).1 = f ∧ ∃ bs, Complete (walRecords f).1 bs

def segmentFiles (d : AttachDisk) (walPath : Path) (m : UInt64) : List Bytes :=
  (walSegmentEpochs m).filterMap fun e => (walBuildSegmentPath walPath e).bind d

theorem segmentFiles_appendFile (d : AttachDisk) (walPath : Path) (m : UInt64) (bytes : Bytes) :
    segmentFiles (appendFile d walPath bytes) walPath m = segmentFiles d walPath m := by
  unfold segmentFiles
  apply List.filterMap_congr
  intro e _
  cases hp : walBuildSegmentPath walPath e with
  | none => rfl
  | some p => exact appendFile_other (segment_ne_active hp)

theorem walMaxCommittedOf_clean_iff (fs : List Bytes) :
    ∀ c, (walMaxCommittedOf fs c).2 = false ↔ ∀ f ∈ fs, (walRecords f).2 = .eof := by
  induction fs with
  | nil => simp [walMaxCommittedOf]
  | cons f fs ih =>
      intro c
      rw [walMaxCommittedOf, List.forall_mem_cons]
      by_cases hf : (walRecords f).2 = .eof
      · have hscan : ¬(walScanLastCommittedEpoch f).2 = true := by simp [walScanLastCommittedEpoch, hf]
        rw [if_neg hscan, ih]
        exact ⟨fun h => ⟨hf, h⟩, fun h => h.2⟩
      · have hscan : (walScanLastCommittedEpoch f).2 = true := by
          simpa [walScanLastCommittedEpoch] using hf
        rw [if_pos hscan]
        exact iff_of_false (by simp) fun h => hf h.1

theorem segments_of_clean {d : AttachDisk} {walPath : Path} {m : UInt64}
    (h : (walRecoverUnfinished d walPath m).2.halt = none) :
    (walMaxCommittedAcrossSegments d walPath m).2 = false ∧
      ∀ g ∈ segmentFiles d walPath m, (walRecords g).2 = .eof := by
  have hscan : (walMaxCommittedAcrossSegments d walPath m).2 = false := by
    by_contra hcorrupt
    rw [Bool.not_eq_false] at hcorrupt
    rw [walRecoverUnfinished] at h
    simp only [hcorrupt, if_true] at h
    cases h
  refine ⟨hscan, fun g hg => ?_⟩
  exact (walMaxCommittedOf_clean_iff _ _).mp hscan g (List.mem_append_right _ hg)

/-- **Recovery reports no corruption** of a log that is read to its end and
whose batches are unbroken, and only of such a log. -/
theorem recover_clean_iff {d : AttachDisk} {walPath : Path} {m : UInt64} {f : Bytes}
    (hf : d walPath = some f) (hsegments : ∀ g ∈ segmentFiles d walPath m, (walRecords g).2 = .eof) :
    (walRecoverUnfinished d walPath m).2.halt = none ↔
      (walRecords f).2 = .eof ∧ ∃ bs, Unbroken (walRecords f).1 bs := by
  have hfiles : walScannedFiles d walPath m = f :: segmentFiles d walPath m := by
    rw [walScannedFiles, hf]
    rfl
  by_cases heof : (walRecords f).2 = .eof
  · have hscan : (walMaxCommittedAcrossSegments d walPath m).2 = false := by
      apply (walMaxCommittedOf_clean_iff _ _).mpr
      rw [hfiles, List.forall_mem_cons]
      exact ⟨heof, hsegments⟩
    have hrun : (walRecoverUnfinished d walPath m).2 =
        recoverScan (walMaxCommittedAcrossSegments d walPath m).1 m f := by
      simp [walRecoverUnfinished, hscan, hf]
    rw [hrun]
    constructor
    · intro hhalt
      rcases unbroken_or_broken (walRecords f).1 with hunbroken | ⟨bs, hbroken⟩
      · exact ⟨heof, hunbroken⟩
      · exact absurd hhalt (hbroken.recoverScan _ m).halt
    · rintro ⟨-, bs, hunbroken⟩
      exact (hunbroken.recoverScan (walRecords_active hf hscan) _ m).2
  · have hscan : (walMaxCommittedAcrossSegments d walPath m).2 = true := by
      by_contra hclean
      rw [Bool.not_eq_true] at hclean
      exact heof ((walMaxCommittedOf_clean_iff _ _).mp hclean f (by rw [hfiles]; simp))
    constructor
    · intro hhalt
      rw [walRecoverUnfinished] at hhalt
      simp only [hscan, if_true] at hhalt
      cases hhalt
    · exact fun h => absurd h.1 heof

theorem exists_walWriteEntries (es : List WalEntry) :
    ∃ written, written <+: es ∧ (∀ e ∈ written, (entryPayload e).length ≤ walMaxRecordBytes) ∧
      (walWriteEntries es).1 = frames (written.map fun e => ⟨recEntry, entryPayload e⟩) := by
  induction es with
  | nil => exact ⟨[], List.prefix_rfl, by simp, rfl⟩
  | cons e es ih =>
      obtain ⟨written, hstart, hfits, hbytes⟩ := ih
      have hnothing : ∃ written, written <+: e :: es ∧
          (∀ e ∈ written, (entryPayload e).length ≤ walMaxRecordBytes) ∧
            ([] : Bytes) = frames (written.map fun e => ⟨recEntry, entryPayload e⟩) :=
        ⟨[], List.nil_prefix, by simp, rfl⟩
      rw [walWriteEntries]
      split
      · exact hnothing
      split
      · exact hnothing
      rename_i hfit
      have hfit' : (entryPayload e).length ≤ walMaxRecordBytes := by omega
      rw [walWriteRecord_of_fits hfit']
      refine ⟨e :: written, (List.prefix_cons_inj e).mpr hstart, ?_, ?_⟩
      · exact List.forall_mem_cons.mpr ⟨hfit', hfits⟩
      · dsimp only
        rw [hbytes, List.map_cons, frames_cons]

theorem exists_walAppendBatch_late {epoch : UInt64} {entries : List WalEntry}
    (hfail : (walAppendBatch epoch entries).2 ≠ .ok) (hlate : ¬RefusedAtOnce entries) :
    ∃ written, written <+: entries ∧
      (∀ e ∈ written, (entryPayload e).length ≤ walMaxRecordBytes) ∧
      (walAppendBatch epoch entries).1 =
        frames (⟨recBatchBegin, beginPayload epoch (UInt32.ofNat entries.length)⟩ ::
          written.map fun e => ⟨recEntry, entryPayload e⟩) := by
  obtain ⟨written, hstart, hfits, hbytes⟩ := exists_walWriteEntries entries
  refine ⟨written, hstart, hfits, ?_⟩
  unfold RefusedAtOnce at hlate
  rw [not_or] at hlate
  have hbody : (walWriteEntries entries).2.2 ≠ .ok := by
    intro hok
    apply hfail
    rw [walAppendBatch_ok_iff]
    exact ⟨hlate.1, by omega, (walWriteEntries_eq entries).1.mp hok⟩
  unfold walAppendBatch
  rw [if_neg hlate.1, if_neg hlate.2]
  dsimp only
  rw [walWriteRecord_of_fits (by simp [walMaxRecordBytes])]
  dsimp only
  rw [if_pos hbody, hbytes, frames_cons]

theorem open_written {epoch : UInt64} {entries written : List WalEntry}
    (hstart : written <+: entries) (hcount : entries.length ≤ 0xFFFFFFFF)
    (hfits : ∀ e ∈ written, (entryPayload e).length ≤ walMaxRecordBytes) :
    Open ⟨recBatchBegin, beginPayload epoch (UInt32.ofNat entries.length)⟩
      (written.map fun e => ⟨recEntry, entryPayload e⟩) (written.map fun e => cstr e.stagingPath)
      (written.map fun e => crc32 (entryPayload e)) := by
  apply open_entries written _ hfits
  rw [countOf_begin_toNat epoch hcount]
  exact hstart.length_le

theorem walRecords_frames_records {rs : List WalRecord} (hfit : ∀ r ∈ rs, r.Fits) {a : WalAppend}
    (ha : a.Succeeds) :
    walRecords (frames rs ++ a.run.1) = (rs ++ a.records, .eof) := by
  rw [WalAppend.run_bytes ha, ← frames_append]
  apply walRecords_frames
  intro r hr
  rcases List.mem_append.mp hr with hr | hr
  · exact hfit r hr
  · exact WalAppend.records_fit ha r hr

theorem broken_of_open {pre mid : List WalRecord} {bs : List WalBatch} {b : WalRecord}
    {paths : List Path} {crcs : List UInt32} (hpre : Complete pre bs) (hb : IsBegin b)
    (hopen : Open b mid paths crcs) (epoch : UInt64) (entries : List WalEntry) :
    Broken (pre ++ b :: mid ++ (WalAppend.batch epoch entries).records) bs :=
  ⟨⟨pre, b, mid, paths, crcs, _, _, rfl, hpre, hb, hopen, .nested ⟨rfl, length_beginPayload _ _⟩⟩⟩

theorem not_unbroken_of_broken {rs : List WalRecord} {bs cs : List WalBatch} (h : Broken rs bs) :
    ¬Unbroken rs cs := by
  intro hunbroken
  have hstopped : Stopped 0 0 (rs.foldl (recoverRecord 0 0) {}) bs := h.stopped
  exact hstopped.halt (Unbroken.running hunbroken).1

section Logs

variable {d : AttachDisk} {walPath : Path} {m : UInt64}

theorem walAppendBatch_refused {epoch : UInt64} {entries : List WalEntry}
    (h : RefusedAtOnce entries) : (walAppendBatch epoch entries).1 = [] := by
  unfold walAppendBatch
  by_cases hnil : entries = []
  · rw [if_pos hnil]
  · rcases h with h | h
    · exact absurd h hnil
    · rw [if_neg hnil, if_pos h]

theorem logOf_afterAppend (d : AttachDisk) (walPath : Path) (epoch : UInt64)
    (entries : List WalEntry) :
    logOf (afterAppend d walPath epoch entries) walPath =
      logOf d walPath ++ (walAppendBatch epoch entries).1 := by
  unfold afterAppend logOf
  split
  · rename_i hnil
    rw [walAppendBatch_refused (Or.inl hnil), List.append_nil]
  · rw [appendFile_same]
    rfl

theorem segmentFiles_afterAppend (d : AttachDisk) (walPath : Path) (m epoch : UInt64)
    (entries : List WalEntry) :
    segmentFiles (afterAppend d walPath epoch entries) walPath m = segmentFiles d walPath m := by
  unfold afterAppend
  split
  · rfl
  · exact segmentFiles_appendFile d walPath m _

theorem afterAppend_file (d : AttachDisk) (walPath : Path) {epoch : UInt64}
    {entries : List WalEntry} (hok : (walAppendBatch epoch entries).2 = .ok) :
    afterAppend d walPath epoch entries walPath =
      some (logOf d walPath ++ (walAppendBatch epoch entries).1) := by
  have hne := ((walAppendBatch_ok_iff epoch entries).mp hok).1
  unfold afterAppend
  rw [if_neg hne, appendFile_same]
  rfl

theorem recover_after_append_iff {epoch : UInt64} {entries : List WalEntry}
    (hsegments : ∀ g ∈ segmentFiles d walPath m, (walRecords g).2 = .eof)
    (hok : (walAppendBatch epoch entries).2 = .ok) :
    (walRecoverUnfinished (afterAppend d walPath epoch entries) walPath m).2.halt = none ↔
      (walRecords (logOf d walPath ++ (walAppendBatch epoch entries).1)).2 = .eof ∧
        ∃ bs, Unbroken (walRecords (logOf d walPath ++ (walAppendBatch epoch entries).1)).1 bs := by
  apply recover_clean_iff (afterAppend_file d walPath hok)
  rw [segmentFiles_afterAppend]
  exact hsegments

theorem log_of_clean (h : (walRecoverUnfinished d walPath m).2.halt = none) :
    ∃ tail bs, logOf d walPath = frames (walRecords (logOf d walPath)).1 ++ tail ∧
      tail.length < 16 ∧ (∀ r ∈ (walRecords (logOf d walPath)).1, r.Fits) ∧
        Unbroken (walRecords (logOf d walPath)).1 bs := by
  obtain ⟨-, hsegments⟩ := segments_of_clean h
  obtain ⟨tail, hsplit, hfits, hend⟩ := walRecords_sound (logOf d walPath)
  cases hf : d walPath with
  | none =>
      have hlog : logOf d walPath = [] := by rw [logOf, hf]; rfl
      have hrecords : walRecords (logOf d walPath) = ([], .eof) := by rw [hlog, walRecords_nil]
      refine ⟨tail, [], hsplit, hend (by rw [hrecords]), hfits, ?_⟩
      rw [hrecords]
      exact .complete .nil
  | some f =>
      have hlog : logOf d walPath = f := by rw [logOf, hf]; rfl
      obtain ⟨heof, bs, hunbroken⟩ := (recover_clean_iff hf hsegments).mp h
      rw [hlog] at hsplit hfits hend ⊢
      exact ⟨tail, bs, hsplit, hend heof, hfits, hunbroken⟩

end Logs

theorem afterAppend_refused {entries entries' : List WalEntry} {epoch epoch' : UInt64}
    (h : RefusedAtOnce entries) (hne : entries' ≠ []) (d : AttachDisk) (walPath : Path) :
    afterAppend (afterAppend d walPath epoch entries) walPath epoch' entries' =
      afterAppend d walPath epoch' entries' := by
  by_cases hnil : entries = []
  · rw [afterAppend, afterAppend, if_pos hnil]
    rfl
  · unfold afterAppend
    rw [if_neg hnil, if_neg hne, if_neg hne, walAppendBatch_refused h]
    funext q
    by_cases hq : q = walPath
    · rw [hq, appendFile_same, appendFile_same, appendFile_same, Option.getD_some, List.append_nil]
    · rw [appendFile_other hq, appendFile_other hq, appendFile_other hq]

/-- **A failed append leaves a usable log** exactly when it is refused before it
writes and the log ends behind a complete batch. -/
theorem failed_append_harmless_iff (d : AttachDisk) (walPath : Path) (m epoch : UInt64)
    (entries : List WalEntry) (hclean : (walRecoverUnfinished d walPath m).2.halt = none)
    (hfail : (walAppendBatch epoch entries).2 ≠ .ok) :
    LeavesUsable d walPath m epoch entries ↔
      RefusedAtOnce entries ∧ EndsBetweenBatches (logOf d walPath) := by
  obtain ⟨-, hsegments⟩ := segments_of_clean hclean
  obtain ⟨tail, bs, hlog, htail, hfits, hunbroken⟩ := log_of_clean hclean
  constructor
  · intro husable
    have hwithout : ∀ epoch' entries', (walAppendBatch epoch' entries').2 = .ok →
        (walRecoverUnfinished (afterAppend d walPath epoch' entries') walPath m).2.halt = none := by
      intro epoch' entries' hok
      obtain ⟨hsame, hnone⟩ := husable epoch' entries' hok
      rw [← hsame]
      exact hnone
    have hgood : (walAppendBatch 0 (oneEntry [])).2 = .ok := oneEntry_ok 0 (by decide)
    -- a torn header at the end would corrupt some append
    have htorn : tail = [] := by
      by_contra hne
      obtain ⟨epoch', entries', hok, hstop⟩ :=
        exists_corrupted_append (List.length_pos_iff.mpr hne) htail
      have hend := ((recover_after_append_iff hsegments hok).mp (hwithout _ _ hok)).1
      rw [hlog, List.append_assoc, walRecords_frames_append hfits] at hend
      exact hstop hend
    rw [htorn, List.append_nil] at hlog
    -- so would an open batch
    have hcomplete : ∃ bs, Complete (walRecords (logOf d walPath)).1 bs := by
      cases hunbroken with
      | complete hcomplete => exact ⟨bs, hcomplete⟩
      | opened hpre hb hopen hrs =>
          obtain ⟨-, cs, hafter⟩ := (recover_after_append_iff hsegments hgood).mp (hwithout _ _ hgood)
          have hrecords := walRecords_frames_records (a := .batch 0 (oneEntry [])) hfits hgood
          rw [← hlog] at hrecords
          rw [show walRecords (logOf d walPath ++ (walAppendBatch 0 (oneEntry [])).1) = _ from
            hrecords, hrs] at hafter
          exact absurd hafter (not_unbroken_of_broken (broken_of_open hpre hb hopen _ _))
    refine ⟨?_, hlog.symm, hcomplete⟩
    by_contra hlate
    obtain ⟨written, hstart, hwritten, hbytes⟩ := exists_walAppendBatch_late hfail hlate
    obtain ⟨cs, hcs⟩ := hcomplete
    unfold RefusedAtOnce at hlate
    rw [not_or] at hlate
    have hclean' := (husable _ _ hgood).2
    have hbegin : IsBegin ⟨recBatchBegin, beginPayload epoch (UInt32.ofNat entries.length)⟩ :=
      ⟨rfl, length_beginPayload _ _⟩
    rw [recover_after_append_iff (by rw [segmentFiles_afterAppend]; exact hsegments) hgood,
      logOf_afterAppend, hlog, hbytes, ← frames_append] at hclean'
    have hfits' : ∀ r ∈ (walRecords (logOf d walPath)).1 ++
        ⟨recBatchBegin, beginPayload epoch (UInt32.ofNat entries.length)⟩ ::
          written.map fun e => ⟨recEntry, entryPayload e⟩, r.Fits := by
      intro r hr
      rcases List.mem_append.mp hr with hr | hr
      · exact hfits r hr
      · rcases List.mem_cons.mp hr with rfl | hr
        · rw [WalRecord.Fits, length_beginPayload]
          decide
        · obtain ⟨e, he, rfl⟩ := List.mem_map.mp hr
          exact hwritten e he
    have hrecords := walRecords_frames_records (a := .batch 0 (oneEntry [])) hfits' hgood
    obtain ⟨-, cs', hafter⟩ := hclean'
    rw [show walRecords (_ ++ (walAppendBatch 0 (oneEntry [])).1) = _ from hrecords] at hafter
    exact not_unbroken_of_broken
      (broken_of_open hcs hbegin (open_written hstart (by omega) hwritten) _ _) hafter
  · rintro ⟨hrefused, hends, cs, hcomplete⟩ epoch' entries' hok
    have hne := ((walAppendBatch_ok_iff epoch' entries').mp hok).1
    rw [afterAppend_refused hrefused hne]
    refine ⟨rfl, (recover_after_append_iff hsegments hok).mpr ?_⟩
    have hrecords := walRecords_frames_records (a := .batch epoch' entries') hfits hok
    rw [hends] at hrecords
    rw [show walRecords (logOf d walPath ++ (walAppendBatch epoch' entries').1) = _ from hrecords]
    exact ⟨rfl, _, .complete (hcomplete.append (complete_records hok))⟩

theorem failed_append_harmless_empty_batch :
    LeavesUsable (fun _ => none) (ascii "/m.wal") 0 1 [] :=
  (failed_append_harmless_iff (fun _ => none) (ascii "/m.wal") 0 1 [] (by decide) (by decide)).mpr
    ⟨Or.inl rfl, rfl, [], .nil⟩

def tooLong : List WalEntry := [⟨List.replicate 65537 120, [], 0, 0, 0⟩]

theorem walAppendBatch_tooLong :
    walAppendBatch 1 tooLong = (frames [⟨recBatchBegin, beginPayload 1 1⟩], .limit) := by
  have huri : cstr (List.replicate 65537 (120 : UInt8)) = List.replicate 65537 120 := by
    apply cstr_eq_self
    intro h
    exact absurd (List.eq_of_mem_replicate h) (by decide)
  have hbody : walWriteEntries tooLong = ([], [], .limit) := by
    rw [tooLong, walWriteEntries]
    apply if_pos
    left
    dsimp only
    rw [huri, List.length_replicate]
    decide
  have hne : tooLong ≠ [] := List.cons_ne_nil _ _
  have hone : tooLong.length = 1 := rfl
  unfold walAppendBatch
  rw [hbody, if_neg hne, hone, if_neg (by decide)]
  dsimp only
  rw [walWriteRecord_of_fits (by simp [walMaxRecordBytes])]
  rfl

/-- The log of the refused batch has its BATCH_BEGIN, and every later batch is
nested in it. -/
theorem too_long_uri_corrupts_log :
    (walRecoverUnfinished (fun _ => none) (ascii "/m.wal") 0).2.halt = none ∧
      (walAppendBatch 1 tooLong).2 = .limit ∧
      ¬LeavesUsable (fun _ => none) (ascii "/m.wal") 0 1 tooLong := by
  refine ⟨by decide, by rw [walAppendBatch_tooLong], fun husable => ?_⟩
  have hgood : (WalAppend.batch 2 (oneEntry [])).Succeeds := oneEntry_ok 2 (by decide)
  have hclean := (husable 2 (oneEntry []) hgood).2
  have hsegments : ∀ g ∈ segmentFiles (afterAppend (fun _ => none) (ascii "/m.wal") 1 tooLong)
      (ascii "/m.wal") 0, (walRecords g).2 = .eof := by
    rw [segmentFiles_afterAppend]
    exact (segments_of_clean (by decide)).2
  rw [recover_after_append_iff hsegments hgood, logOf_afterAppend, walAppendBatch_tooLong] at hclean
  have hfits : ∀ r ∈ [(⟨recBatchBegin, beginPayload 1 1⟩ : WalRecord)], r.Fits := by decide
  have hrecords := walRecords_frames_records hfits hgood
  obtain ⟨-, bs, hunbroken⟩ := hclean
  rw [show walRecords (logOf (fun _ => none) (ascii "/m.wal") ++
      frames [⟨recBatchBegin, beginPayload 1 1⟩] ++ (walAppendBatch 2 (oneEntry [])).1) = _ from
    hrecords] at hunbroken
  exact not_unbroken_of_broken
    (broken_of_open .nil ⟨rfl, length_beginPayload _ _⟩ .start 2 (oneEntry [])) hunbroken

end BlessStar.Persistence.Proofs.FailedAppend
