import BlessStar.Persistence.Proofs.StoreSteps

/-!
# What a failed commit leaves

Both commit calls prepare on the disk, update the fields in memory and save the
manifest.  A failure while preparing leaves the fields; a failure of the save
comes after the update.
-/

namespace BlessStar.Persistence.Proofs.CommitFailures

open Lib.ByteString
open Persistence StoreSteps

/-- A call of `batch_commit` or `commit_per_path`. -/
inductive CommitCall
  | batch
  | perPath (uri data : Bytes) (expectedRev : UInt64)

section Calls

variable {σ : Type} (io : PersistIo σ) (store : AttachStore) (s : σ)

def CommitCall.run : CommitCall → AttachStatus × AttachStore × σ
  | .batch => storeBatchCommit io store s
  | .perPath uri data expectedRev => storeCommitPerPath io store uri data expectedRev s

/-- The steps before the update in memory: the checks of the arguments, CAS, the
WAL append and the writes of staging or canonical files. -/
def CommitCall.prepare : CommitCall → AttachStatus × σ
  | .batch =>
      if store.batchOpen = false then (.invalidArg, s)
      else if casHolds store.manifest store.staged = false then (.conflict, s)
      else if store.memoryOnly then (.ok, s)
      else walAppendAndStage io (store.manifest.batchEpoch + 1) store.staged s
  | .perPath uri data expectedRev =>
      match uriToPath (cstr uri) pathCap with
      | none => (.invalidArg, s)
      | some path =>
          if store.manifest.revisionOf (cstr uri) ≠ expectedRev then (.conflict, s)
          else if store.memoryOnly then (.ok, s)
          else io.writeFileAtomic path data s

/-- `reload_manifest` would load the fields that the store has. -/
def LoadsAs : Prop :=
  (storeReloadManifest io store s).1 = .ok ∧
    (storeReloadManifest io store s).2.1.manifest = store.manifest

/-- After the call the fields are those before it and those on the disk. -/
def ErrorAtomic (c : CommitCall) : Prop :=
  (c.run io store s).2.1.manifest = store.manifest ∧
    LoadsAs io (c.run io store s).2.1 (c.run io store s).2.2

variable {io store s}

theorem loadsAs_congr {store' : AttachStore} (hmanifest : store'.manifest = store.manifest)
    (hmem : store'.memoryOnly = store.memoryOnly) :
    LoadsAs io store' s ↔ LoadsAs io store s := by
  unfold LoadsAs storeReloadManifest
  rw [hmanifest, hmem]
  split <;> simp [hmanifest]

theorem run_of_prepare_failed {c : CommitCall} (h : (c.prepare io store s).1 ≠ .ok) :
    (c.run io store s).2.1.manifest = store.manifest ∧
      (c.run io store s).2.1.memoryOnly = store.memoryOnly ∧
      (c.run io store s).2.2 = (c.prepare io store s).2 := by
  cases c with
  | batch =>
      unfold CommitCall.run CommitCall.prepare storeBatchCommit at *
      dsimp only at h ⊢
      by_cases hopen : store.batchOpen = false
      · rw [if_pos hopen, if_pos hopen]
        exact ⟨rfl, rfl, rfl⟩
      by_cases hcas : casHolds store.manifest store.staged = false
      · rw [if_neg hopen, if_pos hcas, if_neg hopen, if_pos hcas]
        exact ⟨rfl, rfl, rfl⟩
      rw [if_neg hopen, if_neg hcas] at h ⊢
      rw [if_pos h, if_neg hopen, if_neg hcas]
      exact ⟨rfl, rfl, rfl⟩
  | perPath uri data expectedRev =>
      unfold CommitCall.run CommitCall.prepare storeCommitPerPath commitOne at *
      dsimp only at h ⊢
      cases hpath : uriToPath (cstr uri) pathCap with
      | none => exact ⟨rfl, rfl, rfl⟩
      | some path =>
          rw [hpath] at h
          dsimp only at h ⊢
          by_cases hrev : store.manifest.revisionOf (cstr uri) ≠ expectedRev
          · rw [if_pos hrev, if_pos hrev]
            exact ⟨rfl, rfl, rfl⟩
          rw [if_neg hrev] at h ⊢
          rw [if_neg hrev, if_pos h, if_pos h]
          exact ⟨rfl, rfl, rfl⟩

theorem run_of_prepared {c : CommitCall} (h : (c.prepare io store s).1 = .ok) :
    (c.run io store s).2.1.manifest.batchEpoch = store.manifest.batchEpoch + 1 := by
  cases c with
  | batch =>
      unfold CommitCall.run CommitCall.prepare storeBatchCommit at *
      dsimp only at h ⊢
      by_cases hopen : store.batchOpen = false
      · rw [if_pos hopen] at h
        cases h
      by_cases hcas : casHolds store.manifest store.staged = false
      · rw [if_neg hopen, if_pos hcas] at h
        cases h
      rw [if_neg hopen, if_neg hcas] at h ⊢
      rw [if_neg (not_not.mpr h), (storeBatchFlip_store io store _).1]
      rfl
  | perPath uri data expectedRev =>
      unfold CommitCall.run CommitCall.prepare storeCommitPerPath commitOne at *
      dsimp only at h ⊢
      cases hpath : uriToPath (cstr uri) pathCap with
      | none =>
          rw [hpath] at h
          cases h
      | some path =>
          rw [hpath] at h
          dsimp only at h ⊢
          by_cases hrev : store.manifest.revisionOf (cstr uri) ≠ expectedRev
          · rw [if_pos hrev] at h
            cases h
          rw [if_neg hrev] at h ⊢
          rw [if_neg (not_not.mpr h), if_neg (not_not.mpr rfl)]
          rfl

theorem add_one_ne_self (n : UInt64) : n + 1 ≠ n := by
  intro h
  have hone : (1 : UInt64) = 0 := by
    calc (1 : UInt64) = n + 1 - n := by rw [UInt64.add_comm, UInt64.add_sub_cancel]
      _ = 0 := by rw [h, UInt64.sub_self]
  exact absurd hone (by decide)

end Calls

section Bystanders

variable {σ : Type} {io : PersistIo σ}

end Bystanders

theorem errorAtomic_iff {σ : Type} {io : PersistIo σ} {store : AttachStore} {s : σ}
    {c : CommitCall} :
    ErrorAtomic io store s c ↔
      (c.prepare io store s).1 ≠ .ok ∧ LoadsAs io store (c.prepare io store s).2 := by
  by_cases hprepare : (c.prepare io store s).1 = .ok
  · refine iff_of_false (fun hatomic => ?_) fun h => h.1 hprepare
    have hepoch := run_of_prepared hprepare
    rw [hatomic.1] at hepoch
    exact add_one_ne_self _ hepoch.symm
  · obtain ⟨hmanifest, hmem, hdisk⟩ := run_of_prepare_failed hprepare
    unfold ErrorAtomic
    rw [hdisk, loadsAs_congr hmanifest hmem]
    exact ⟨fun h => ⟨hprepare, h.2⟩, fun h => ⟨hmanifest, h.2⟩⟩

noncomputable def fullDisk : PersistIo AttachDisk :=
  { diskIo IterOrder.someOrder (ascii "/m") with saveManifestFile := fun _ d => (.io, d) }

end BlessStar.Persistence.Proofs.CommitFailures
