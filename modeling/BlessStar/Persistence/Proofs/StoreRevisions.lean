import BlessStar.Persistence.Proofs.StoreSafety

/-!
# Batches and revisions over the runs of a store

A crash within a batch commit loses the batch or nothing of it, and no step that a store
survives takes a revision back or skips one.
-/

namespace BlessStar.Persistence.Proofs.StoreRevisions

open Lib.ByteString
open Persistence Persistence.Proofs.StoreSteps Persistence.Proofs.BatchWrites
open Persistence.Proofs.StoreSound Persistence.Proofs.CrashSafety
open Persistence.Proofs.StoreSafety

variable {order : IterOrder} {manifestPath : Path} {m : Manifest} {w w' : StoreWorld}

def Advances (m m' : Manifest) : Prop :=
  ∀ uri, m'.revisionOf uri = m.revisionOf uri ∨ m'.revisionOf uri = m.revisionOf uri + 1

theorem Advances.refl (m : Manifest) : Advances m m := fun _ => Or.inl rfl

theorem advances_flip {staged : List StagedEntry} (hcas : casHolds m staged = true)
    (nextEpoch : UInt64) : Advances m (flipManifest m nextEpoch staged) := by
  intro uri
  by_cases huri : uri ∈ staged.map (·.uri)
  · obtain ⟨e, he, rfl⟩ := List.mem_map.mp huri
    exact Or.inr (flipManifest_revisionOf m nextEpoch hcas he)
  · exact Or.inl (flipManifest_other m nextEpoch huri).1

theorem advances_record {uri : Bytes} {path : Path} (epoch : UInt64) :
    Advances m { m.record uri (m.revisionOf uri + 1) path with batchEpoch := epoch } := by
  intro u
  by_cases hu : u = uri
  · subst hu
    right
    simp [Manifest.record, Manifest.revisionOf]
  · left
    simp [Manifest.record, Manifest.revisionOf, Finmap.lookup_insert_of_ne _ hu]

theorem opened_manifest {d : AttachDisk} {c : Committed} (h : Sound order manifestPath d m c) :
    ∃ store, (StoreWorld.opened manifestPath d c).store = some store ∧ store.manifest = m := by
  obtain ⟨store, hstore, hm, -, -⟩ := h.open
  exact ⟨store, hstore, hm⟩

/-- The store that is opened behind a crash has the manifest before the batch or the one
after it. -/
theorem crash_manifest {store : AttachStore} {k : Nat} (hstore : w.store = some store)
    (hcommits : Commits store)
    (hsound : Sound order manifestPath w.disk store.manifest w.committed)
    (hspares : Spares manifestPath w (.crashBatchCommit k)) :
    ∃ w' store', StoreWorld.step order manifestPath w (.crashBatchCommit k) = some w' ∧
      w'.store = some store' ∧
      store'.manifest = if k < store.staged.length + 3 then store.manifest
        else flipManifest store.manifest (store.manifest.batchEpoch + 1) store.staged := by
  obtain ⟨hbatch, hk⟩ := hspares store hstore hcommits
  simp only [StoreWorld.step, hstore, Option.map_some, Option.some.injEq, exists_and_left,
    exists_eq_left']
  rw [crashBatchCommit_eq hcommits,
    if_pos (storeBatchCommit_diskIo order manifestPath hcommits w.disk).1]
  rcases sound_crash hcommits hbatch hsound hk with ⟨hlt, hafter⟩ | ⟨hlt, hafter⟩
  · rw [if_pos hlt]
    exact opened_manifest hafter
  · rw [if_neg (by omega)]
    exact opened_manifest hafter

theorem advances_step {store : AttachStore} {e : StoreEvent} (hstore : w.store = some store)
    (hmem : store.memoryOnly = false)
    (hsound : Sound order manifestPath w.disk store.manifest w.committed)
    (hspares : Spares manifestPath w e)
    (hstep : StoreWorld.step order manifestPath w e = some w') :
    ∃ store', w'.store = some store' ∧ Advances store.manifest store'.manifest := by
  cases e with
  | reopen =>
      cases hstep
      obtain ⟨store', hstore', hm⟩ := opened_manifest hsound
      exact ⟨store', hstore', hm ▸ .refl _⟩
  | crashBatchCommit k =>
      simp only [StoreWorld.step, hstore, Option.map_some, Option.some.injEq] at hstep
      subst hstep
      by_cases hcommits : Commits store
      · obtain ⟨w₁, store', hstep, hstore', hm⟩ :=
          @crash_manifest order _ _ _ _ hstore hcommits hsound hspares
        simp only [StoreWorld.step, hstore, Option.map_some, Option.some.injEq] at hstep
        subst hstep
        refine ⟨store', hstore', hm ▸ ?_⟩
        split
        · exact .refl _
        · exact advances_flip hcommits.cas _
      · rw [if_neg (storeBatchCommit_refused order manifestPath hmem hcommits w.disk).1]
        obtain ⟨store', hstore', hm⟩ := opened_manifest
          (sound_untouched hsound (crashBatchCommit_refused hmem hcommits k w.disk))
        exact ⟨store', hstore', hm ▸ .refl _⟩
  | commitPerPath uri data expectedRev =>
      simp only [StoreWorld.step, hstore, Option.map_some, Option.some.injEq] at hstep
      subst hstep
      refine ⟨_, rfl, ?_⟩
      rcases storeCommitPerPath_cases (diskIo order manifestPath) store uri data expectedRev
        w.disk with ⟨hrun, -⟩ | ⟨path, -, hrev, hrun⟩
      · rw [hrun]
        exact .refl _
      · rw [hrun, ← hrev]
        exact advances_record _
  | batchCommit =>
      simp only [StoreWorld.step, hstore, Option.map_some, Option.some.injEq] at hstep
      subst hstep
      refine ⟨_, rfl, ?_⟩
      rcases storeBatchCommit_cases (diskIo order manifestPath) store w.disk with
        ⟨-, hrun⟩ | ⟨rc, d', -, hrun⟩ | ⟨-, hcas, d', hrun⟩
      · rw [hrun]
        exact .refl _
      · rw [hrun]
        exact .refl _
      · rw [hrun, (storeBatchFlip_store _ _ _).1]
        exact advances_flip hcas _
  | batchStage uri data expectedRev =>
      simp only [StoreWorld.step, hstore, Option.map_some, Option.some.injEq] at hstep
      subst hstep
      refine ⟨_, rfl, ?_⟩
      rcases batchStage_cases store uri data expectedRev with hrun | ⟨e, -, -, hrun⟩
      · rw [hrun]
        exact .refl _
      · rw [hrun]
        exact .refl _
  | _ =>
      simp only [StoreWorld.step, hstore, Option.map_some, Option.some.injEq] at hstep
      subst hstep
      exact ⟨_, rfl, .refl _⟩

/-- **Revisions.**  Over any further steps that the store survives, crashes and reopenings
included, the revision of a URI advances by at most one a step and never goes back. -/
theorem revisions_advance (order : IterOrder) (manifestPath : Path) {d : AttachDisk}
    (hm : d manifestPath = none) (hwal : d (deriveWalPath manifestPath) = none)
    (h : (storeMachine order manifestPath d).ReachableMeeting (Spares manifestPath) w)
    {es : List StoreEvent} (hes : (storeMachine order manifestPath d).RunMeets (Spares manifestPath) w es)
    (hrun : (storeMachine order manifestPath d).run w es = some w') :
    ∃ store store', w.store = some store ∧ w'.store = some store' ∧ ∀ uri, ∃ n ≤ es.length,
      store'.manifest.revisionOf uri = store.manifest.revisionOf uri + UInt64.ofNat n := by
  have hsound : WorldSound order manifestPath w :=
    h.invariant (worldSound_opened (Sound.fresh hm hwal))
      fun _ _ _ hw hspares hstep => worldSound_step hw hspares hstep
  clear h
  induction es generalizing w with
  | nil =>
      cases hrun
      obtain ⟨store, hstore, -⟩ := hsound
      exact ⟨store, store, hstore, hstore, fun _ => ⟨0, le_rfl, by simp⟩⟩
  | cons e es ih =>
      obtain ⟨w₁, hstep, hrest⟩ := Option.bind_eq_some_iff.mp hrun
      obtain ⟨hspares, hes⟩ := hes
      rw [hstep] at hes
      obtain ⟨store, hstore, hmem, hdisk⟩ := id hsound
      obtain ⟨store₁, hstore₁, hadvances⟩ := advances_step hstore hmem hdisk hspares hstep
      obtain ⟨s₁, store', hs₁, hstore', hlater⟩ :=
        ih hes hrest (worldSound_step hsound hspares hstep)
      obtain rfl : store₁ = s₁ := Option.some.inj (hstore₁.symm.trans hs₁)
      refine ⟨store, store', hstore, hstore', fun uri => ?_⟩
      obtain ⟨n, hn, heq⟩ := hlater uri
      rcases hadvances uri with hsame | hnext
      · exact ⟨n, by simp; omega, by rw [heq, hsame]⟩
      · refine ⟨n + 1, by simpa using hn, ?_⟩
        rw [heq, hnext, UInt64.add_assoc, UInt64.add_comm 1, ← UInt64.ofNat_one, ← UInt64.ofNat_add]

theorem revisions_advance_first_batch : ∃ w store store', stagedWorld.store = some store ∧
    (storeMachine .someOrder (ascii "m") emptyDisk).run stagedWorld [.batchCommit, .reopen] =
      some w ∧ w.store = some store' ∧ ∀ uri, ∃ n ≤ 2,
        store'.manifest.revisionOf uri = store.manifest.revisionOf uri + UInt64.ofNat n := by
  have hspares : Spares (ascii "m") stagedWorld .batchCommit := by
    intro store hstore _
    cases hstore
    exact sparesBatch_stagedWorld
  have hmeets : (storeMachine .someOrder (ascii "m") emptyDisk).RunMeets (Spares (ascii "m"))
      stagedWorld [.batchCommit, .reopen] := ⟨hspares, trivial, trivial⟩
  obtain ⟨store, store', hstore, hstore', hrevs⟩ := revisions_advance .someOrder (ascii "m") rfl rfl
    (reachable_stagedWorld _ (fun _ => trivial) fun _ => trivial) hmeets rfl
  exact ⟨_, store, store', hstore, rfl, hstore', hrevs⟩

end BlessStar.Persistence.Proofs.StoreRevisions
