import BlessStar.Persistence.Proofs.WalRoundTrip
import Mathlib.Data.Bool.AllAny

/-!
# Corruption and deletions

ATOM-REC-SAFE-2: recovery that meets corruption deletes nothing.  The first
pass checks the framing of all files before anything is deleted; the faults of
a batch are found by the second pass, which deletes as it goes.
-/

namespace BlessStar.Persistence.Proofs.WalCorruption

open Lib.ByteString Lib.FileSystem Persistence
open Persistence.Wal
open Persistence.Proofs.WalGrammar Persistence.Proofs.WalRoundTrip

def MeetsCorruption (d : AttachDisk) (walPath : Path) (manifestEpoch : UInt64) : Prop :=
  (walRecoverUnfinished d walPath manifestEpoch).2.halt ≠ none

/-- No orphan batch that is complete before a fault names an existing file. -/
def FaultFirst (d : AttachDisk) (lastCommitted manifestEpoch : UInt64) (f : Bytes) : Prop :=
  ∀ bs, Broken (walRecords f).1 bs → ∀ b ∈ bs, IsOrphan lastCommitted manifestEpoch b.epoch →
    ∀ p ∈ b.stagingPaths, p ≠ [] → d p = none

theorem walMaxCommittedOf_sound {fs : List Bytes} {maxC : UInt64}
    (h : (walMaxCommittedOf fs maxC).2 = false) :
    ∀ f ∈ fs, (walRecords f).2 = .eof := by
  induction fs generalizing maxC with
  | nil => simp
  | cons f fs ih =>
      rw [walMaxCommittedOf] at h
      split at h
      · cases h
      · rename_i hscan
        intro g hg
        rcases List.mem_cons.mp hg with rfl | hg
        · simpa [walScanLastCommittedEpoch] using hscan
        · exact ih h g hg

theorem walRecords_active {d : AttachDisk} {walPath : Path} {m : UInt64} {f : Bytes}
    (hf : d walPath = some f) (h : (walMaxCommittedAcrossSegments d walPath m).2 = false) :
    walRecords f = ((walRecords f).1, .eof) := by
  have heof := walMaxCommittedOf_sound h f (by simp [walScannedFiles, hf])
  rw [← heof]

theorem mem_flatMap_orphanPaths {last m : UInt64} {bs : List WalBatch} {p : Path} :
    p ∈ (bs.flatMap fun b => orphanPaths last m b.epoch b.stagingPaths) ↔
      ∃ b ∈ bs, IsOrphan last m b.epoch ∧ p ∈ b.stagingPaths ∧ p ≠ [] := by
  rw [List.mem_flatMap]
  refine exists_congr fun b => and_congr_right fun _ => ?_
  unfold orphanPaths
  split <;> simp_all

theorem walRecoverUnfinished_broken {d : AttachDisk} {walPath : Path} {m : UInt64} {f : Bytes}
    (hf : d walPath = some f) (hscan : (walMaxCommittedAcrossSegments d walPath m).2 = false)
    {bs : List WalBatch} (hbroken : Broken (walRecords f).1 bs) :
    MeetsCorruption d walPath m ∧
      ((walRecoverUnfinished d walPath m).1 = d ↔ ∀ b ∈ bs,
        IsOrphan (walMaxCommittedAcrossSegments d walPath m).1 m b.epoch →
          ∀ p ∈ b.stagingPaths, p ≠ [] → d p = none) := by
  have hstopped := hbroken.recoverScan (walMaxCommittedAcrossSegments d walPath m).1 m
  have hrun : walRecoverUnfinished d walPath m =
      (d.removeAll (recoverScan (walMaxCommittedAcrossSegments d walPath m).1 m f).removed,
        recoverScan (walMaxCommittedAcrossSegments d walPath m).1 m f) := by
    simp [walRecoverUnfinished, hscan, hf]
  refine ⟨by rw [MeetsCorruption, hrun]; exact hstopped.halt, ?_⟩
  rw [hrun, hstopped.removed]
  simp only [Disk.removeAll_eq_self_iff, mem_flatMap_orphanPaths]
  constructor
  · exact fun h b hb horphan p hp hne => h p ⟨b, hb, horphan, hp, hne⟩
  · rintro h p ⟨b, hb, horphan, hp, hne⟩
    exact h b hb horphan p hp hne

/-- **Corruption and deletions.**  Meeting corruption means no deletion exactly
when the first pass already flags the files, or there is no active file, or no
orphan batch with a file to delete is complete before the first fault. -/
theorem corruption_deletes_nothing_iff (d : AttachDisk) (walPath : Path) (manifestEpoch : UInt64) :
    (MeetsCorruption d walPath manifestEpoch →
      (walRecoverUnfinished d walPath manifestEpoch).1 = d) ↔
    ∀ f, d walPath = some f →
      (walMaxCommittedAcrossSegments d walPath manifestEpoch).2 = false →
      FaultFirst d (walMaxCommittedAcrossSegments d walPath manifestEpoch).1 manifestEpoch f := by
  constructor
  · intro h f hf hscan bs hbroken
    obtain ⟨hmeets, hiff⟩ := walRecoverUnfinished_broken hf hscan hbroken
    exact hiff.mp (h hmeets)
  · intro h hmeets
    by_cases hscan : (walMaxCommittedAcrossSegments d walPath manifestEpoch).2 = true
    · simp [walRecoverUnfinished, hscan]
    · rw [Bool.not_eq_true] at hscan
      cases hf : d walPath with
      | none => simp [walRecoverUnfinished, hscan, hf]
      | some f =>
          rcases unbroken_or_broken (walRecords f).1 with ⟨bs, hunbroken⟩ | ⟨bs, hbroken⟩
          · have hend := hunbroken.recoverScan (walRecords_active hf hscan)
              (walMaxCommittedAcrossSegments d walPath manifestEpoch).1 manifestEpoch
            rw [MeetsCorruption] at hmeets
            simp [walRecoverUnfinished, hscan, hf, hend.2] at hmeets
          · exact (walRecoverUnfinished_broken hf hscan hbroken).2.mpr (h f hf hscan bs hbroken)

def nestedBeginRecords : List WalRecord :=
  (WalAppend.batch 5 [⟨ascii "file:///a", ascii "/a.s", 0, 1, 0⟩]).records ++
    [⟨recBatchBegin, beginPayload 6 1⟩, ⟨recBatchBegin, beginPayload 7 1⟩]

/-- The files around a store whose manifest epoch is `4`. -/
def nestedBeginDisk : AttachDisk := fun p =>
  if p = ascii "/m.wal" then some (frames nestedBeginRecords)
  else if p = ascii "/a.s" then some (ascii "payload")
  else none

theorem broken_nestedBegin : Broken nestedBeginRecords [⟨5, 1, [ascii "/a.s"]⟩] := by
  have hok : (WalAppend.batch 5 [⟨ascii "file:///a", ascii "/a.s", 0, 1, 0⟩]).Succeeds := by decide
  have hbegin : ∀ epoch, IsBegin ⟨recBatchBegin, beginPayload epoch 1⟩ := fun epoch =>
    ⟨rfl, length_beginPayload _ _⟩
  exact ⟨⟨_, _, [], [], [], _, [], rfl, complete_records hok, hbegin 6, .start, .nested (hbegin 7)⟩⟩

/-- The orphan batch is complete, so its staging file goes before the nested
BATCH_BEGIN is met. -/
theorem nestedBegin_deletes :
    ¬ ∀ (d : AttachDisk) (walPath : Path) (manifestEpoch : UInt64),
      MeetsCorruption d walPath manifestEpoch →
        (walRecoverUnfinished d walPath manifestEpoch).1 = d := by
  intro h
  have hfit : ∀ r ∈ nestedBeginRecords, r.Fits := by decide
  have hread : walRecords (frames nestedBeginRecords) = (nestedBeginRecords, .eof) :=
    walRecords_frames hfit
  have hsegments : ∀ e ∈ walSegmentEpochs 4,
      (walBuildSegmentPath (ascii "/m.wal") e).bind nestedBeginDisk = none :=
    List.all_iff_forall_prop.mp (by decide)
  have hfiles : walScannedFiles nestedBeginDisk (ascii "/m.wal") 4 = [frames nestedBeginRecords] := by
    rw [walScannedFiles, List.filterMap_eq_nil_iff.mpr hsegments]
    rfl
  have hscan : walMaxCommittedAcrossSegments nestedBeginDisk (ascii "/m.wal") 4 = (0, false) := by
    have hlast : nestedBeginRecords.foldl lastCommittedStep 0 = 0 :=
      foldl_lastCommittedStep_other (by decide) 0
    rw [walMaxCommittedAcrossSegments, hfiles]
    simp [walMaxCommittedOf, walScanLastCommittedEpoch, hread, hlast]
  have hbroken : Broken (walRecords (frames nestedBeginRecords)).1 [⟨5, 1, [ascii "/a.s"]⟩] := by
    rw [hread]
    exact broken_nestedBegin
  obtain ⟨hmeets, hiff⟩ := @walRecoverUnfinished_broken nestedBeginDisk (ascii "/m.wal") 4 _
    rfl (by rw [hscan]) _ hbroken
  have hkept := hiff.mp (h _ _ _ hmeets) _ (List.mem_singleton_self _)
    (by rw [hscan]; decide) (ascii "/a.s") (by simp) (by decide)
  exact absurd hkept (by decide)

end BlessStar.Persistence.Proofs.WalCorruption
