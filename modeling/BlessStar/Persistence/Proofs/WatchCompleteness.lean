import BlessStar.Persistence.Watch
import BlessStar.Persistence.Proofs.BatchWrites

/-!
# Which watch events a batch commit publishes

The loops for MANIFEST_FLIP and WAL_COMMIT run over the staged entries after
they have been cleared.
-/

namespace BlessStar.Persistence.Proofs.WatchCompleteness

open Lib.ByteString
open Persistence StoreSteps BatchWrites

section Forget

variable {σ : Type} (io : PersistIo σ)

theorem writeStagingFilesWatched_snd (nextEpoch : UInt64) (es : List StagedEntry) :
    ∀ s, (writeStagingFilesWatched io nextEpoch es s).2 = writeStagingFiles io nextEpoch es s := by
  induction es with
  | nil => exact fun s => rfl
  | cons e es ih =>
      intro s
      rw [writeStagingFilesWatched, writeStagingFiles]
      split
      · rfl
      · exact ih _

theorem walAppendAndStageWatched_snd (nextEpoch : UInt64) (staged : List StagedEntry) (s : σ) :
    (walAppendAndStageWatched io nextEpoch staged s).2 = walAppendAndStage io nextEpoch staged s := by
  unfold walAppendAndStageWatched walAppendAndStage
  dsimp only
  split
  · rfl
  · exact writeStagingFilesWatched_snd io nextEpoch staged _

theorem storeBatchFlipWatched_snd (store : AttachStore) (s : σ) :
    (storeBatchFlipWatched io store s).2 = storeBatchFlip io store s := by
  unfold storeBatchFlipWatched storeBatchFlip
  cases store.memoryOnly with
  | true =>
      simp only [if_true]
      split <;> rfl
  | false =>
      simp only [Bool.false_eq_true, if_false]
      split <;> rfl

theorem casHolds_eq_false_iff (m : Manifest) (staged : List StagedEntry) :
    casHolds m staged = false ↔
      (staged.find? fun e => m.revisionOf e.uri ≠ e.expectedRev).isSome := by
  rw [← Bool.not_eq_true, casHolds, List.all_eq_true, List.find?_isSome]
  simp

/-- **The events change nothing**: without them the commit is the plain one. -/
theorem storeBatchCommitWatched_snd (store : AttachStore) (s : σ) :
    (storeBatchCommitWatched io store s).2 = storeBatchCommit io store s := by
  have hcas := casHolds_eq_false_iff store.manifest store.staged
  unfold storeBatchCommitWatched storeBatchCommit
  by_cases hopen : store.batchOpen = false
  · rw [if_pos hopen, if_pos hopen]
  rw [if_neg hopen, if_neg hopen]
  dsimp only
  cases hfind : store.staged.find? fun e => store.manifest.revisionOf e.uri ≠ e.expectedRev with
  | some e => rw [if_pos (hcas.mpr (by rw [hfind]; rfl))]
  | none =>
      have hholds : ¬casHolds store.manifest store.staged = false := by
        rw [hcas, hfind]
        exact Bool.false_ne_true
      rw [if_neg hholds]
      have hpre : (if store.memoryOnly then ([], AttachStatus.ok, s)
          else walAppendAndStageWatched io (store.manifest.batchEpoch + 1) store.staged s).2 =
          if store.memoryOnly then (AttachStatus.ok, s)
          else walAppendAndStage io (store.manifest.batchEpoch + 1) store.staged s := by
        split
        · rfl
        · exact walAppendAndStageWatched_snd io _ _ s
      dsimp only
      rw [hpre]
      generalize (if store.memoryOnly then (AttachStatus.ok, s)
        else walAppendAndStage io (store.manifest.batchEpoch + 1) store.staged s) = pre
      by_cases hfail : pre.1 ≠ .ok
      · rw [if_pos hfail, if_pos hfail]
      · rw [if_neg hfail, if_neg hfail]
        exact storeBatchFlipWatched_snd io store pre.2

end Forget

section Events

variable {σ : Type} {io : PersistIo σ}

theorem writeStagingFilesWatched_events {nextEpoch : UInt64} (es : List StagedEntry) :
    ∀ {s}, (writeStagingFiles io nextEpoch es s).1 = .ok →
      (writeStagingFilesWatched io nextEpoch es s).1 =
        publishEach nextEpoch .canonicalWrite .ok es := by
  induction es with
  | nil => exact fun _ => rfl
  | cons e es ih =>
      intro s hok
      rw [writeStagingFiles] at hok
      rw [writeStagingFilesWatched]
      dsimp only at hok ⊢
      split at hok
      · rename_i hfail
        exact absurd hok hfail
      · rename_i hwrite
        rw [if_neg hwrite, ih hok]
        rfl

theorem storeBatchFlipWatched_events (store : AttachStore) (s : σ) :
    (storeBatchFlipWatched io store s).1 = [] := by
  unfold storeBatchFlipWatched
  cases store.memoryOnly with
  | true =>
      simp only [if_true]
      split <;> rfl
  | false =>
      simp only [Bool.false_eq_true, if_false]
      split <;> rfl

/-- **What a commit publishes**: three of the five stages. -/
theorem storeBatchCommitWatched_events {store : AttachStore} {s : σ}
    (hmem : store.memoryOnly = false) (hok : (storeBatchCommit io store s).1 = .ok) :
    (storeBatchCommitWatched io store s).1 =
      publishEach (store.manifest.batchEpoch + 1) .cas .ok store.staged ++
        publishEach (store.manifest.batchEpoch + 1) .walFsync .ok store.staged ++
        publishEach (store.manifest.batchEpoch + 1) .canonicalWrite .ok store.staged := by
  have hcas := casHolds_eq_false_iff store.manifest store.staged
  unfold storeBatchCommit at hok
  split at hok
  · cases hok
  rename_i hopen
  split at hok
  · cases hok
  rename_i hholds
  rw [hmem] at hok
  simp only [Bool.false_eq_true, if_false] at hok
  split at hok
  · rename_i hfail
    exact absurd hok hfail
  rename_i hpre
  have hfind : (store.staged.find? fun e => store.manifest.revisionOf e.uri ≠ e.expectedRev) =
      none := by
    rw [hcas, Option.not_isSome_iff_eq_none] at hholds
    exact hholds
  have hevents : (walAppendAndStageWatched io (store.manifest.batchEpoch + 1) store.staged s).1 =
      publishEach (store.manifest.batchEpoch + 1) .walFsync .ok store.staged ++
        publishEach (store.manifest.batchEpoch + 1) .canonicalWrite .ok store.staged := by
    unfold walAppendAndStage at hpre
    unfold walAppendAndStageWatched
    dsimp only at hpre ⊢
    split at hpre
    · rename_i hwal
      exact absurd hwal hpre
    · rename_i hwal
      rw [if_neg hwal, writeStagingFilesWatched_events store.staged (not_not.mp hpre)]
  unfold storeBatchCommitWatched
  rw [if_neg hopen]
  dsimp only
  rw [hfind, hmem]
  dsimp only
  rw [if_neg Bool.false_ne_true, walAppendAndStageWatched_snd, if_neg hpre,
    storeBatchFlipWatched_events, hevents, List.append_nil, List.append_assoc]

end Events

def commitStages : List WatchStage := [.cas, .walFsync, .canonicalWrite, .manifestFlip, .walCommit]

/-- Each staged entry has one event for each stage, in the order of the stages
and with the batch's epoch. -/
structure EventsComplete (epoch : UInt64) (staged : List StagedEntry) (events : List WatchEvent) :
    Prop where
  once : ∀ stage ∈ commitStages, ∀ uri,
    (events.countP fun ev => ev.stage = stage ∧ ev.uri = uri) = staged.countP (·.uri = uri)
  ordered : ∀ uri, (events.filter (·.uri = uri)).Pairwise fun a b =>
    commitStages.idxOf a.stage ≤ commitStages.idxOf b.stage
  epoch : ∀ ev ∈ events, ev.epoch = epoch

theorem eventsComplete_iff {σ : Type} {io : PersistIo σ} {store : AttachStore} {s : σ}
    (hmem : store.memoryOnly = false) (hok : (storeBatchCommit io store s).1 = .ok) :
    EventsComplete (store.manifest.batchEpoch + 1) store.staged
        (storeBatchCommitWatched io store s).1 ↔ store.staged = [] := by
  rw [storeBatchCommitWatched_events hmem hok]
  constructor
  · intro h
    cases hstaged : store.staged with
    | nil => rfl
    | cons e es =>
        have hcount := h.once .manifestFlip (by decide) e.uri
        have hnone : ((publishEach (store.manifest.batchEpoch + 1) .cas .ok store.staged ++
            publishEach (store.manifest.batchEpoch + 1) .walFsync .ok store.staged ++
            publishEach (store.manifest.batchEpoch + 1) .canonicalWrite .ok store.staged).countP
              fun ev => ev.stage = .manifestFlip ∧ ev.uri = e.uri) = 0 := by
          rw [List.countP_eq_zero]
          intro ev hev
          simp only [publishEach, List.mem_append, List.mem_map] at hev
          rcases hev with (⟨f, -, rfl⟩ | ⟨f, -, rfl⟩) | ⟨f, -, rfl⟩ <;> simp
        have hsome : 0 < store.staged.countP (·.uri = e.uri) :=
          List.countP_pos_iff.mpr ⟨e, by simp [hstaged], by simp⟩
        omega
  · intro hnil
    rw [hnil]
    exact ⟨fun _ _ _ => rfl, fun _ => List.Pairwise.nil, fun ev hev => absurd hev List.not_mem_nil⟩

/-- **The watch events of a commit are complete** only for an empty batch. -/
theorem watch_events_complete_iff {σ : Type} (io : PersistIo σ) (store : AttachStore) (s : σ)
    (hmem : store.memoryOnly = false) (hok : (storeBatchCommitWatched io store s).2.1 = .ok) :
    EventsComplete (store.manifest.batchEpoch + 1) store.staged
        (storeBatchCommitWatched io store s).1 ↔ store.staged = [] := by
  rw [storeBatchCommitWatched_snd] at hok
  exact eventsComplete_iff hmem hok

def oneWrite : AttachStore := firstWrites [[1]]

theorem oneWrite_ok : (storeBatchCommitWatched (diskIo IterOrder.someOrder (ascii "m")) oneWrite
    fun _ => none).2.1 = .ok := by
  have hcommits : Commits oneWrite := ⟨rfl, rfl, by decide, by decide⟩
  rw [storeBatchCommitWatched_snd]
  exact (storeBatchCommit_diskIo IterOrder.someOrder (ascii "m") hcommits fun _ => none).1

theorem watch_events_incomplete_one_write :
    EventsComplete (oneWrite.manifest.batchEpoch + 1) oneWrite.staged
        (storeBatchCommitWatched (diskIo IterOrder.someOrder (ascii "m")) oneWrite
          fun _ => none).1 ↔ oneWrite.staged = [] :=
  watch_events_complete_iff (diskIo IterOrder.someOrder (ascii "m")) oneWrite (fun _ => none) rfl
    oneWrite_ok

/-- Its flip and its commit go unreported. -/
theorem flip_unreported :
    ¬ ∀ (io : PersistIo AttachDisk) (store : AttachStore) (d : AttachDisk),
      store.memoryOnly = false → (storeBatchCommitWatched io store d).2.1 = .ok →
        EventsComplete (store.manifest.batchEpoch + 1) store.staged
          (storeBatchCommitWatched io store d).1 := by
  intro h
  have hcomplete := h _ _ _ rfl oneWrite_ok
  have hok := oneWrite_ok
  rw [storeBatchCommitWatched_snd] at hok
  exact absurd ((eventsComplete_iff rfl hok).mp hcomplete) (List.cons_ne_nil _ _)

end BlessStar.Persistence.Proofs.WatchCompleteness
