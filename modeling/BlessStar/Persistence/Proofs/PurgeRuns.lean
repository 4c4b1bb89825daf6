import BlessStar.Persistence.WalRecover

/-!
# Runs of purge calls

A purge that carries a cursor leaves the segments that a purge from epoch 1 would
leave: what a call has passed is gone or was not to be purged, and rotation only makes
segments behind the cursor.
-/

namespace BlessStar.Persistence.Proofs.PurgeRuns

open Lib.ByteString Lib.FileSystem Persistence
open Persistence.Wal

variable {activePath : Path}

/-- The segment of this epoch is at `p`, intact, and its epoch is the last it commits. -/
def Purges (activePath : Path) (d : AttachDisk) (epoch : UInt64) (p : Path) : Prop :=
  walBuildSegmentPath activePath epoch = some p ∧
    ∃ f, d p = some f ∧ walScanLastCommittedEpoch f = (epoch, false)

theorem walPurgeSegment_of_purges {d : AttachDisk} {epoch : UInt64} {p : Path}
    (h : Purges activePath d epoch p) : walPurgeSegment activePath d epoch = d.remove p := by
  obtain ⟨hpath, f, hf, hscan⟩ := h
  simp [walPurgeSegment, hpath, hf, hscan]

theorem walPurgeSegment_of_not {d : AttachDisk} {epoch : UInt64}
    (h : ∀ p, ¬Purges activePath d epoch p) : walPurgeSegment activePath d epoch = d := by
  unfold walPurgeSegment
  split
  · rfl
  · rename_i seg hpath
    split
    · rfl
    · rename_i f hf
      apply if_pos
      by_contra hscan
      rw [not_or, Bool.not_eq_true, not_not] at hscan
      exact h seg ⟨hpath, f, hf, Prod.ext hscan.2 hscan.1⟩

theorem walPurgeSegment_apply (activePath : Path) (d : AttachDisk) (epoch : UInt64) (q : Path) :
    (Purges activePath d epoch q ∧ walPurgeSegment activePath d epoch q = none) ∨
      (¬Purges activePath d epoch q ∧ walPurgeSegment activePath d epoch q = d q) := by
  by_cases hq : Purges activePath d epoch q
  · rw [walPurgeSegment_of_purges hq]
    exact .inl ⟨hq, Disk.remove_same d q⟩
  · right
    by_cases h : ∃ p, Purges activePath d epoch p
    · obtain ⟨p, hp⟩ := h
      have hne : q ≠ p := by
        rintro rfl
        exact hq hp
      rw [walPurgeSegment_of_purges hp]
      exact ⟨hq, Disk.remove_other hne⟩
    · rw [walPurgeSegment_of_not (not_exists.mp h)]
      exact ⟨hq, rfl⟩

theorem purges_after (activePath : Path) (d : AttachDisk) (epoch e : UInt64) (q : Path) :
    Purges activePath (walPurgeSegment activePath d epoch) e q ↔
      Purges activePath d e q ∧ ¬Purges activePath d epoch q := by
  rcases walPurgeSegment_apply activePath d epoch q with ⟨hq, hnone⟩ | ⟨hq, hsame⟩
  · have hgone : ¬Purges activePath (walPurgeSegment activePath d epoch) e q := by
      rintro ⟨-, f, hf, -⟩
      rw [hnone] at hf
      cases hf
    exact ⟨fun h => absurd h hgone, fun h => absurd hq h.2⟩
  · have hiff : Purges activePath (walPurgeSegment activePath d epoch) e q ↔
        Purges activePath d e q := by
      unfold Purges
      rw [hsame]
    rw [hiff]
    exact ⟨fun h => ⟨h, hq⟩, And.left⟩

theorem foldl_walPurgeSegment (activePath : Path) (epochs : List UInt64) (d : AttachDisk) (q : Path) :
    ((∃ e ∈ epochs, Purges activePath d e q) ∧
        epochs.foldl (walPurgeSegment activePath) d q = none) ∨
      ((∀ e ∈ epochs, ¬Purges activePath d e q) ∧
        epochs.foldl (walPurgeSegment activePath) d q = d q) := by
  induction epochs generalizing d with
  | nil => exact .inr ⟨by simp, rfl⟩
  | cons e epochs ih =>
      rw [List.foldl_cons]
      have hturn := walPurgeSegment_apply activePath d e q
      rcases ih (walPurgeSegment activePath d e) with ⟨⟨e', he', hp⟩, hnone⟩ | ⟨hall, hsame⟩
      · left
        exact ⟨⟨e', List.mem_cons_of_mem e he', ((purges_after activePath d e e' q).mp hp).1⟩, hnone⟩
      · rcases hturn with ⟨hq, hnone⟩ | ⟨hq, hkept⟩
        · exact .inl ⟨⟨e, List.mem_cons_self, hq⟩, hsame.trans hnone⟩
        · right
          refine ⟨fun e' he' hp => ?_, hsame.trans hkept⟩
          rcases List.mem_cons.mp he' with rfl | he'
          · exact hq hp
          · exact hall e' he' ((purges_after activePath d e e' q).mpr ⟨hp, hq⟩)

theorem foldl_walPurgeSegment_congr {epochs epochs' : List UInt64} {d : AttachDisk}
    (h : ∀ e q, Purges activePath d e q → (e ∈ epochs ↔ e ∈ epochs')) :
    epochs.foldl (walPurgeSegment activePath) d = epochs'.foldl (walPurgeSegment activePath) d := by
  funext q
  rcases foldl_walPurgeSegment activePath epochs d q with
    ⟨⟨e, he, hp⟩, hnone⟩ | ⟨hall, hsame⟩
  · rcases foldl_walPurgeSegment activePath epochs' d q with
      ⟨-, hnone'⟩ | ⟨hall', -⟩
    · rw [hnone, hnone']
    · exact absurd hp (hall' e ((h e q hp).mp he))
  · rcases foldl_walPurgeSegment activePath epochs' d q with
      ⟨⟨e, he, hp⟩, -⟩ | ⟨-, hsame'⟩
    · exact absurd hp (hall e ((h e q hp).mpr he))
    · rw [hsame, hsame']

theorem mem_purgeEpochs {start through e : UInt64} :
    e ∈ (List.range (through.toNat + 1 - start.toNat)).map (fun i => start + UInt64.ofNat i) ↔
      start ≤ e ∧ e ≤ through := by
  have hstart := start.toNat_lt
  have hthrough := through.toNat_lt
  rw [List.mem_map, UInt64.le_iff_toNat_le, UInt64.le_iff_toNat_le]
  constructor
  · rintro ⟨i, hi, rfl⟩
    rw [List.mem_range] at hi
    rw [UInt64.toNat_add, UInt64.toNat_ofNat']
    omega
  · intro he
    refine ⟨e.toNat - start.toNat, ?_, ?_⟩
    · rw [List.mem_range]
      omega
    · apply UInt64.toNat_inj.mp
      rw [UInt64.toNat_add, UInt64.toNat_ofNat']
      omega

def KeepsPassed (activePath : Path) (cursor : UInt64) (d d' : AttachDisk) : Prop :=
  ∀ e p, 0 < e → e ≤ cursor → walBuildSegmentPath activePath e = some p → d' p = d p

/-- The disks and cursors of runs of purge calls, whatever their manifest epochs.
Between two calls other files come and go, new segments among them. -/
inductive PurgeRun (activePath : Path) : AttachDisk → UInt64 → Prop
  | start (d : AttachDisk) : PurgeRun activePath d 0
  | change {d d' : AttachDisk} {cursor : UInt64} : PurgeRun activePath d cursor →
      KeepsPassed activePath cursor d d' → PurgeRun activePath d' cursor
  | purge {d : AttachDisk} {cursor : UInt64} (manifestEpoch : UInt64) :
      PurgeRun activePath d cursor →
      PurgeRun activePath (walPurgeOldSegmentsEx d activePath manifestEpoch cursor).1
        (walPurgeOldSegmentsEx d activePath manifestEpoch cursor).2

theorem walPurgeOldSegmentsEx_cases (d : AttachDisk) (activePath : Path)
    (manifestEpoch cursor : UInt64) :
    ((walMaxCommittedAcrossSegments d activePath manifestEpoch).2 = true ∨ manifestEpoch ≤ 2 ∨
        manifestEpoch - 2 < (if 0 < cursor then cursor + 1 else 1)) ∧
        walPurgeOldSegmentsEx d activePath manifestEpoch cursor = (d, cursor) ∨
      ¬((walMaxCommittedAcrossSegments d activePath manifestEpoch).2 = true) ∧
        2 < manifestEpoch ∧ ∃ epochs : List UInt64,
        (∀ e, e ∈ epochs ↔ (if 0 < cursor then cursor + 1 else 1) ≤ e ∧ e ≤ manifestEpoch - 2) ∧
        walPurgeOldSegmentsEx d activePath manifestEpoch cursor =
          (epochs.foldl (walPurgeSegment activePath) d, manifestEpoch - 2) := by
  by_cases hcorrupt : (walMaxCommittedAcrossSegments d activePath manifestEpoch).2 = true
  · exact .inl ⟨.inl hcorrupt, if_pos hcorrupt⟩
  by_cases hkeep : manifestEpoch ≤ 2
  · refine .inl ⟨.inr (.inl hkeep), ?_⟩
    unfold walPurgeOldSegmentsEx
    rw [if_neg hcorrupt]
    exact if_pos hkeep
  by_cases hstart : manifestEpoch - 2 < (if 0 < cursor then cursor + 1 else 1)
  · refine .inl ⟨.inr (.inr hstart), ?_⟩
    unfold walPurgeOldSegmentsEx
    rw [if_neg hcorrupt]
    exact (if_neg hkeep).trans (if_pos hstart)
  · refine .inr ⟨hcorrupt, UInt64.not_le.mp hkeep, _, fun e => mem_purgeEpochs, ?_⟩
    unfold walPurgeOldSegmentsEx
    rw [if_neg hcorrupt]
    exact (if_neg hkeep).trans (if_neg hstart)

def Passed (activePath : Path) (d : AttachDisk) (cursor : UInt64) : Prop :=
  ∀ e p, 0 < e → e ≤ cursor → ¬Purges activePath d e p

theorem behind_cursor {cursor e : UInt64} (he : 0 < e) (hcursor : cursor < e) :
    (if 0 < cursor then cursor + 1 else 1) ≤ e := by
  rw [UInt64.lt_iff_toNat_lt] at he hcursor
  have hlt := e.toNat_lt
  split
  · rw [UInt64.le_iff_toNat_le, UInt64.toNat_add]
    rw [UInt64.toNat_one]
    omega
  · rw [UInt64.le_iff_toNat_le, UInt64.toNat_one]
    exact he

theorem first_pos (cursor : UInt64) (hmax : cursor ≠ 0xFFFFFFFFFFFFFFFF) :
    0 < (if 0 < cursor then cursor + 1 else 1) := by
  split
  · rw [UInt64.lt_iff_toNat_lt, UInt64.toNat_add]
    have hlt := cursor.toNat_lt
    have hne : cursor.toNat ≠ 2 ^ 64 - 1 := fun h => hmax (UInt64.toNat_inj.mp h)
    rw [UInt64.toNat_zero, UInt64.toNat_one]
    omega
  · decide

theorem PurgeRun.passed {d : AttachDisk} {cursor : UInt64} (h : PurgeRun activePath d cursor) :
    Passed activePath d cursor := by
  induction h with
  | start d =>
      intro e p hpos hle
      exact absurd (UInt64.lt_of_lt_of_le hpos hle) (UInt64.lt_irrefl 0)
  | @change d d' cursor _ hkeeps ih =>
      rintro e p hpos hle ⟨hpath, f, hf, hscan⟩
      rw [hkeeps e p hpos hle hpath] at hf
      exact ih e p hpos hle ⟨hpath, f, hf, hscan⟩
  | @purge d cursor manifestEpoch _ ih =>
      rcases walPurgeOldSegmentsEx_cases d activePath manifestEpoch cursor with
        ⟨-, hsame⟩ | ⟨-, -, epochs, hmem, hpurged⟩
      · rw [hsame]
        exact ih
      · rw [hpurged]
        rintro e p hpos hle ⟨hpath, f, hf, hscan⟩
        dsimp only at hf
        rcases foldl_walPurgeSegment activePath epochs d p with ⟨-, hnone⟩ | ⟨hall, hkept⟩
        · rw [hnone] at hf
          cases hf
        · rw [hkept] at hf
          by_cases hcursor : e ≤ cursor
          · exact ih e p hpos hcursor ⟨hpath, f, hf, hscan⟩
          · exact hall e ((hmem e).mpr ⟨behind_cursor hpos (UInt64.not_le.mp hcursor), hle⟩)
              ⟨hpath, f, hf, hscan⟩

theorem PurgeRun.ne_max {d : AttachDisk} {cursor : UInt64} (h : PurgeRun activePath d cursor) :
    cursor ≠ 0xFFFFFFFFFFFFFFFF := by
  induction h with
  | start d => decide
  | change _ _ ih => exact ih
  | @purge d cursor manifestEpoch _ ih =>
      rcases walPurgeOldSegmentsEx_cases d activePath manifestEpoch cursor with
        ⟨-, hsame⟩ | ⟨-, hkeep, epochs, -, hpurged⟩
      · rwa [hsame]
      · rw [hpurged]
        intro hmax
        have hval := congrArg UInt64.toNat hmax
        rw [UInt64.toNat_sub_of_le _ _ (UInt64.le_of_lt hkeep)] at hval
        have hlt := manifestEpoch.toNat_lt
        have hnum : (0xFFFFFFFFFFFFFFFF : UInt64).toNat = 2 ^ 64 - 1 := rfl
        have htwo : (2 : UInt64).toNat = 2 := rfl
        omega

theorem mem_scanned_corrupted {files : List Bytes} {f : Bytes} (hf : f ∈ files)
    (hcorrupt : (walScanLastCommittedEpoch f).2 = true) (maxC : UInt64) :
    (walMaxCommittedOf files maxC).2 = true := by
  induction files generalizing maxC with
  | nil => cases hf
  | cons g files ih =>
      rw [walMaxCommittedOf]
      split
      · rfl
      · rename_i hg
        rcases List.mem_cons.mp hf with rfl | hf
        · exact absurd hcorrupt hg
        · exact ih hf _

/-- The cursor spares work and no segment: every call leaves what a purge from epoch 1
leaves, removes intact segments only that commit up to their own epoch and no further,
two epochs below the manifest's, and none where a file of the first pass is corrupted. -/
theorem coalesced_purge_safe {d : AttachDisk} {cursor : UInt64}
    (h : PurgeRun activePath d cursor) (manifestEpoch : UInt64) :
    let d' := (walPurgeOldSegmentsEx d activePath manifestEpoch cursor).1
    d' = walPurgeOldSegments d activePath manifestEpoch ∧
      (∀ p, d' p ≠ d p → d' p = none ∧ ∃ e f, walBuildSegmentPath activePath e = some p ∧
        d p = some f ∧ walScanLastCommittedEpoch f = (e, false) ∧ 0 < e ∧
        e.toNat + 2 ≤ manifestEpoch.toNat) ∧
      ((∃ f ∈ walScannedFiles d activePath manifestEpoch,
        (walScanLastCommittedEpoch f).2 = true) → d' = d) := by
  have hpassed := h.passed
  have hfirstPos := first_pos cursor h.ne_max
  have hfirst : (if (0 : UInt64) < 0 then (0 : UInt64) + 1 else 1) = 1 := rfl
  have hone : ∀ e : UInt64, 1 ≤ e ↔ 0 < e := fun e => by
    rw [UInt64.le_iff_toNat_le, UInt64.lt_iff_toNat_lt]
    exact Iff.rfl
  unfold walPurgeOldSegments
  rcases walPurgeOldSegmentsEx_cases d activePath manifestEpoch cursor with
    ⟨hwhy, hsame⟩ | ⟨hclean, hkeep, epochs, hmem, hpurged⟩
  · rw [hsame]
    refine ⟨?_, fun p hp => absurd rfl hp, fun _ => rfl⟩
    rcases walPurgeOldSegmentsEx_cases d activePath manifestEpoch 0 with
      ⟨-, hfull⟩ | ⟨hclean, hkeep, epochs, hmem, hfull⟩
    · rw [hfull]
    · -- all epochs of the full purge are behind the cursor
      rw [hfull]
      funext q
      rcases foldl_walPurgeSegment activePath epochs d q with ⟨⟨e, he, hp⟩, -⟩ | ⟨-, hkept⟩
      · rw [hmem, hfirst, hone] at he
        rcases hwhy with hcorrupt | hsmall | hstart
        · exact absurd hcorrupt hclean
        · exact absurd hkeep (UInt64.not_lt.mpr hsmall)
        · by_cases hcursor : e ≤ cursor
          · exact absurd hp (hpassed e q he.1 hcursor)
          · have hlt := behind_cursor he.1 (UInt64.not_le.mp hcursor)
            exact absurd hstart (UInt64.not_lt.mpr (UInt64.le_trans hlt he.2))
      · exact hkept.symm
  · rw [hpurged]
    refine ⟨?_, fun p hp => ?_, fun ⟨f, hf, hcorrupt⟩ => ?_⟩
    · rcases walPurgeOldSegmentsEx_cases d activePath manifestEpoch 0 with
        ⟨hwhy, hfull⟩ | ⟨-, -, epochs', hmem', hfull⟩
      · rw [hfull]
        funext q
        rcases foldl_walPurgeSegment activePath epochs d q with ⟨⟨e, he, hp⟩, -⟩ | ⟨-, hkept⟩
        · rw [hmem] at he
          rcases hwhy with hcorrupt | hsmall | hstart
          · exact absurd hcorrupt hclean
          · exact absurd hkeep (UInt64.not_lt.mpr hsmall)
          · rw [hfirst] at hstart
            have hpos := hfirstPos
            exact absurd (UInt64.le_trans (UInt64.le_trans ((hone _).mpr hpos) he.1) he.2)
              (UInt64.not_le.mpr hstart)
        · exact hkept
      · rw [hfull]
        apply foldl_walPurgeSegment_congr
        intro e q hp
        rw [hmem, hmem', hfirst, hone]
        constructor
        · rintro ⟨hstart, hthrough⟩
          exact ⟨UInt64.lt_of_lt_of_le (hfirstPos) hstart, hthrough⟩
        · rintro ⟨hpos, hthrough⟩
          refine ⟨behind_cursor hpos (UInt64.not_le.mp fun hcursor => ?_), hthrough⟩
          exact hpassed e q hpos hcursor hp
    · rcases foldl_walPurgeSegment activePath epochs d p with ⟨⟨e, he, hq⟩, hnone⟩ | ⟨-, hkept⟩
      · obtain ⟨hpath, f, hf, hscan⟩ := hq
        rw [hmem] at he
        refine ⟨hnone, e, f, hpath, hf, hscan, UInt64.lt_of_lt_of_le (hfirstPos) he.1, ?_⟩
        have hthrough := UInt64.le_iff_toNat_le.mp he.2
        rw [UInt64.toNat_sub_of_le _ _ (UInt64.le_of_lt hkeep)] at hthrough
        have htwo := UInt64.lt_iff_toNat_lt.mp hkeep
        have hval : (2 : UInt64).toNat = 2 := rfl
        omega
      · exact absurd hkept hp
    · exact absurd (mem_scanned_corrupted hf hcorrupt 0) hclean

theorem walBuildSegmentPath_eq_some {e : UInt64} {p : Path}
    (h : walBuildSegmentPath activePath e = some p) :
    p = activePath ++ (ascii ".e" ++ decimal e.toNat) := by
  dsimp only [walBuildSegmentPath] at h
  split at h
  · cases h
  · rw [← Option.some.inj h, List.append_assoc]

theorem keepsPassed_rotate (d : AttachDisk) {cursor epoch : UInt64} (h : cursor < epoch) :
    KeepsPassed activePath cursor d (walRotateActiveSegment d activePath epoch).1 := by
  intro e p _ hle hpath
  have hp := walBuildSegmentPath_eq_some hpath
  have hactive : p ≠ activePath := by
    intro heq
    have hlen := congrArg List.length (heq.symm.trans hp)
    have htwo : (ascii ".e").length = 2 := rfl
    rw [List.length_append, List.length_append] at hlen
    omega
  unfold walRotateActiveSegment
  split
  · rfl
  · split
    · rfl
    · split
      · rfl
      · rename_i seg hseg
        have hother : p ≠ seg := by
          rintro rfl
          have hsame := hp.symm.trans (walBuildSegmentPath_eq_some hseg)
          rw [List.append_cancel_left_eq, List.append_cancel_left_eq] at hsame
          have hepoch := UInt64.toNat_inj.mp (decimal_inj hsame)
          rw [hepoch] at hle
          exact absurd h (UInt64.not_lt.mpr hle)
        exact (Disk.rename_other hactive hother).trans (Disk.remove_other hother)

/-- Two purges of an empty directory with a rotation between them. -/
theorem coalesced_purge_safe_rotated :
    ∃ d cursor, PurgeRun (ascii "a.wal") d cursor ∧
      (walPurgeOldSegmentsEx d (ascii "a.wal") 9 cursor).1 =
        walPurgeOldSegments d (ascii "a.wal") 9 := by
  have hfirst := PurgeRun.purge 3 (@PurgeRun.start (ascii "a.wal") fun _ => none)
  have hcursor : (walPurgeOldSegmentsEx (fun _ => none) (ascii "a.wal") 3 0).2 < 4 := by
    rcases walPurgeOldSegmentsEx_cases (fun _ => none) (ascii "a.wal") 3 0 with
      ⟨-, h⟩ | ⟨-, -, epochs, -, h⟩
    · rw [h]
      exact (by decide : (0 : UInt64) < 4)
    · rw [h]
      exact (by decide : (3 - 2 : UInt64) < 4)
  have hrotated := hfirst.change (keepsPassed_rotate _ hcursor)
  exact ⟨_, _, hrotated, (coalesced_purge_safe hrotated 9).1⟩

end BlessStar.Persistence.Proofs.PurgeRuns
