import BlessStar.Persistence.Proofs.StoreSteps

/-!
# Which files a store touches

Frame lemmas for the disk steps of a store: its own files are apart from each
other, staging files are apart from them unless the manifest itself has such a
name, and every step leaves the files it does not name alone.
-/

namespace BlessStar.Persistence.Proofs.StoreFiles

open Lib.ByteString Lib.FileSystem
open Persistence Persistence.Wal Persistence.Proofs.StoreSteps

theorem deriveWalPath_ne (manifestPath : Path) : deriveWalPath manifestPath ≠ manifestPath := by
  simp [deriveWalPath, ascii]

theorem deriveWalPath_ne_prevPath (manifestPath : Path) :
    deriveWalPath manifestPath ≠ prevPath manifestPath := by
  intro h
  have hlen := congrArg List.length h
  simp [deriveWalPath, prevPath, ascii] at hlen

theorem deriveWalPath_ne_tmpPath (manifestPath : Path) :
    deriveWalPath manifestPath ≠ tmpPath manifestPath := by
  intro h
  have hlen := congrArg List.length h
  simp [deriveWalPath, tmpPath, ascii] at hlen

theorem segment_eq {activePath seg : Path} {epoch : UInt64}
    (h : walBuildSegmentPath activePath epoch = some seg) :
    seg = activePath ++ ascii ".e" ++ decimal epoch.toNat := by
  unfold walBuildSegmentPath at h
  simp only at h
  split at h
  · cases h
  · exact (Option.some.inj h).symm

theorem segment_ne_active {activePath seg : Path} {epoch : UInt64}
    (h : walBuildSegmentPath activePath epoch = some seg) : seg ≠ activePath := by
  rw [segment_eq h]
  simp [ascii]

theorem segment_ne_manifest {manifestPath seg : Path} {epoch : UInt64}
    (h : walBuildSegmentPath (deriveWalPath manifestPath) epoch = some seg) :
    seg ≠ manifestPath := by
  rw [segment_eq h]
  simp [deriveWalPath, ascii]

theorem getLast?_decimal (xs : Bytes) (n : Nat) :
    ∃ c, (xs ++ decimal n).getLast? = some c ∧ IsDigit 10 c := by
  cases hlast : (decimal n).getLast? with
  | none => exact absurd (List.getLast?_eq_none_iff.mp hlast) (numeral_ne_nil 10 n)
  | some c =>
      refine ⟨c, by rw [List.getLast?_append, hlast]; rfl, ?_⟩
      exact isDigit_of_mem_numeral (by decide) (List.mem_of_getLast? hlast)

theorem makeStagingPath_ne_append {basePath xs suffix : Path} {epoch rev : UInt64} {c : UInt8}
    (hc : c.toNat < 48 ∨ 57 < c.toNat) (hsuffix : suffix.getLast? = some c) :
    makeStagingPath basePath epoch rev ≠ xs ++ suffix := by
  intro h
  obtain ⟨b, hb, hdigit⟩ := getLast?_decimal
    (basePath ++ ascii ".bs.staging.e" ++ decimal epoch.toNat ++ ascii ".r") rev.toNat
  have hletter : ∀ b ∈ (xs ++ suffix).getLast?, ¬IsDigit 10 b := not_isDigit_getLast? hc hsuffix
  have hb' : (xs ++ suffix).getLast? = some b := by
    rw [← h]
    exact hb
  exact hletter b hb' hdigit

theorem makeStagingPath_ne_tmpPath (basePath p : Path) (epoch rev : UInt64) :
    makeStagingPath basePath epoch rev ≠ tmpPath p := by
  have hlast : (ascii ".bs.tmp").getLast? = some 112 := by decide
  exact makeStagingPath_ne_append (by decide) hlast

theorem not_ownFile_makeStagingPath {manifestPath basePath : Path} {epoch rev : UInt64}
    (h : makeStagingPath basePath epoch rev ≠ manifestPath) :
    ¬OwnFile manifestPath (makeStagingPath basePath epoch rev) := by
  have hletter : (ascii ".prev").getLast? = some 118 ∧ (ascii ".wal").getLast? = some 108 ∧
      (ascii ".e").getLast? = some 101 ∧ (ascii ".r").getLast? = some 114 := by decide
  generalize hp : makeStagingPath basePath epoch rev = p at h
  intro hown
  cases hown with
  | manifest => exact h rfl
  | prev => exact makeStagingPath_ne_append (by decide) hletter.1 hp
  | tmp => exact makeStagingPath_ne_tmpPath _ _ _ _ hp
  | wal => exact makeStagingPath_ne_append (by decide) hletter.2.1 hp
  | segment n hseg =>
      rw [segment_eq hseg] at hp
      obtain ⟨hhead, -⟩ := append_decimal_inj
        (not_isDigit_getLast? (by decide) hletter.2.2.2)
        (not_isDigit_getLast? (by decide) hletter.2.2.1) hp
      have hr : (basePath ++ ascii ".bs.staging.e" ++ decimal epoch.toNat ++
          ascii ".r").getLast? = some 114 := by
        rw [List.getLast?_append, hletter.2.2.2]
        rfl
      have he : (deriveWalPath manifestPath ++ ascii ".e").getLast? = some 101 := by
        rw [List.getLast?_append, hletter.2.2.1]
        rfl
      rw [hhead, he] at hr
      exact absurd hr (by decide)

theorem not_ownFile_tmpPath {manifestPath p : Path} (h : p ≠ manifestPath)
    (htmp : tmpPath p ≠ manifestPath) : ¬OwnFile manifestPath (tmpPath p) := by
  have hletter : (ascii ".bs.tmp").getLast? = some 112 ∧ (ascii ".prev").getLast? = some 118 ∧
      (ascii ".wal").getLast? = some 108 := by decide
  have hlast : ∀ {q suffix : Path} {c : UInt8}, suffix.getLast? = some c →
      tmpPath p = q ++ suffix → c = 112 := by
    intro q suffix c hsuffix heq
    have hends := congrArg List.getLast? heq
    rw [tmpPath, List.getLast?_append, List.getLast?_append, hletter.1, hsuffix] at hends
    exact (Option.some.inj hends).symm
  generalize hp : tmpPath p = q at htmp
  intro hown
  cases hown with
  | manifest => exact htmp rfl
  | prev => exact absurd (hlast hletter.2.1 hp) (by decide)
  | tmp => exact h (List.append_cancel_right hp)
  | wal => exact absurd (hlast hletter.2.2 hp) (by decide)
  | segment n hseg =>
      rw [segment_eq hseg] at hp
      obtain ⟨c, hc, hdigit⟩ := getLast?_decimal (deriveWalPath manifestPath ++ ascii ".e") n.toNat
      have hends := congrArg List.getLast? hp
      rw [hc, tmpPath, List.getLast?_append, hletter.1] at hends
      exact hdigit.ne_of_toNat (by decide) (Or.inr (by decide)) (Option.some.inj hends).symm

section Frames

variable {order : IterOrder} {manifestPath q : Path} {d : AttachDisk}

theorem walRotateActiveSegment_other {activePath : Path} {epoch : UInt64} (hactive : q ≠ activePath)
    (hseg : walBuildSegmentPath activePath epoch ≠ some q) :
    (walRotateActiveSegment d activePath epoch).1 q = d q := by
  unfold walRotateActiveSegment
  split
  · rfl
  · split
    · rfl
    · cases hs : walBuildSegmentPath activePath epoch with
      | none => rfl
      | some seg =>
          have hne : q ≠ seg := fun h => hseg (by rw [hs, h])
          simp only
          rw [Disk.rename_other hactive hne, Disk.remove_other hne]

theorem walPurgeSegment_other {activePath : Path} {epoch : UInt64}
    (hseg : walBuildSegmentPath activePath epoch ≠ some q) :
    walPurgeSegment activePath d epoch q = d q := by
  unfold walPurgeSegment
  cases hs : walBuildSegmentPath activePath epoch with
  | none => rfl
  | some seg =>
      have hne : q ≠ seg := fun h => hseg (by rw [hs, h])
      cases hd : d seg with
      | none => simp [hd]
      | some f =>
          simp only [hd]
          split
          · rfl
          · exact Disk.remove_other hne

theorem walPurgeOldSegmentsEx_other {activePath : Path} {manifestEpoch last : UInt64}
    (hseg : ∀ epoch, walBuildSegmentPath activePath epoch ≠ some q) :
    (walPurgeOldSegmentsEx d activePath manifestEpoch last).1 q = d q := by
  have hfold : ∀ (epochs : List UInt64) (d : AttachDisk),
      epochs.foldl (walPurgeSegment activePath) d q = d q := by
    intro epochs
    induction epochs with
    | nil => exact fun d => rfl
    | cons e es ih => exact fun d => (ih _).trans (walPurgeSegment_other (hseg e))
  unfold walPurgeOldSegmentsEx
  split
  · rfl
  · split
    · rfl
    · simp only
      generalize (if 0 < last then last + 1 else 1) = start
      split
      · rfl
      · exact hfold _ d

theorem flipSteps_other (store : AttachStore) (hq : ¬OwnFile manifestPath q) :
    ∀ f ∈ flipSteps (diskIo order manifestPath) store, ∀ d, f d q = d q := by
  have hwal : q ≠ deriveWalPath manifestPath := fun h => hq (h ▸ .wal)
  have hm : q ≠ manifestPath := fun h => hq (h ▸ .manifest)
  have hprev : q ≠ prevPath manifestPath := fun h => hq (h ▸ .prev)
  have htmp : q ≠ tmpPath manifestPath := fun h => hq (h ▸ .tmp)
  have hseg : ∀ epoch, walBuildSegmentPath (deriveWalPath manifestPath) epoch ≠ some q :=
    fun epoch h => hq (.segment epoch h)
  intro f hf d
  simp only [flipSteps, List.mem_cons, List.not_mem_nil, or_false] at hf
  rcases hf with rfl | rfl | rfl | rfl | rfl
  · simp only [diskIo]
    split
    · rfl
    · exact appendFile_other hwal
  · exact saveManifestFileSync_other hm hprev htmp
  · exact appendFile_other hwal
  · exact walRotateActiveSegment_other hwal (hseg _)
  · exact walPurgeOldSegmentsEx_other hseg

theorem runSteps_other {steps : List (AttachDisk → AttachDisk)} (h : ∀ f ∈ steps, ∀ d, f d q = d q)
    (d : AttachDisk) : runSteps steps d q = d q := by
  induction steps generalizing d with
  | nil => rfl
  | cons f steps ih =>
      rw [runSteps_cons, ih fun g hg => h g (by simp [hg]), h f (by simp)]

theorem flipSteps_manifest (store : AttachStore) (d : AttachDisk) :
    runSteps (flipSteps (diskIo order manifestPath) store) d manifestPath =
      some (manifestText order (flipManifest store.manifest (store.manifest.batchEpoch + 1)
        store.staged)) := by
  have hwal : manifestPath ≠ deriveWalPath manifestPath := (deriveWalPath_ne manifestPath).symm
  have hseg : ∀ epoch, walBuildSegmentPath (deriveWalPath manifestPath) epoch ≠
      some manifestPath := fun epoch h => segment_ne_manifest h rfl
  simp only [flipSteps, runSteps_cons, runSteps_nil, diskIo]
  rw [walPurgeOldSegmentsEx_other hseg, walRotateActiveSegment_other hwal (hseg _),
    appendFile_other hwal, saveManifestFileSync_same]

end Frames

end BlessStar.Persistence.Proofs.StoreFiles
