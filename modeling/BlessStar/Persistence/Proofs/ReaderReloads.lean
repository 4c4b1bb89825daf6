import BlessStar.Persistence.Proofs.StoreFiles
import BlessStar.Persistence.SharedStore

/-!
# Commits beside readers that reload

A reader that reloads between a commit's update of the recorded fields and its
save takes the update back, and the save then writes the old revisions.  With no
reload at that place the saved manifest is that of the store whenever no commit
is in progress, so reloads change nothing.
-/

namespace BlessStar.Persistence.Proofs.ReaderReloads

open Lib.ByteString Lib.Transition
open Persistence Persistence.Wal
open Persistence.Proofs.ManifestRoundTrip
open Persistence.Proofs.StoreFiles Persistence.Proofs.StoreSteps

/-- With no commit in progress the store and the saved manifest hold the last
revision acknowledged for each URI. -/
def CommitsKept (manifestPath : Path) (w : SharedStore) : Prop :=
  w.pending = none → ∀ uri rev, w.acknowledged uri = some rev →
    w.store.manifest.revisions.lookup uri = some rev ∧
      savedRevision manifestPath w.disk uri = some rev

/-- No reload falls between the update of a commit and its save, and the URIs
committed hold no line feed. -/
def ReloadsOutside (w : SharedStore) : SharedEvent → Prop
  | .reload => w.pending = none
  | .commitPerPath uri _ _ => LF ∉ cstr uri
  | .batchCommit => ∀ e ∈ w.store.staged, LF ∉ e.uri
  | _ => True

def SavedAs (order : IterOrder) (manifestPath : Path) (d : AttachDisk) (m : Manifest) : Prop :=
  d manifestPath = some (manifestText order m) ∨ (d manifestPath = none ∧ m = {})

/-- A file-backed store as it opens on a manifest of its own. -/
structure OpenedOn (order : IterOrder) (manifestPath : Path) (d : AttachDisk)
    (store : AttachStore) : Prop where
  fileBacked : store.memoryOnly = false
  accepted : Accepted store.manifest
  noLineFeed : ∀ uri ∈ store.manifest.revisions, LF ∉ uri
  saved : SavedAs order manifestPath d store.manifest

variable {order : IterOrder} {manifestPath : Path}

theorem loadManifestFileSync_savedAs {d : AttachDisk} {m m₀ : Manifest} (hm : LineSafe m)
    (h : SavedAs order manifestPath d m) : loadManifestFileSync d manifestPath m₀ = (.ok, m, d) := by
  rcases h with htext | ⟨hnone, rfl⟩
  · exact loadManifestFileSync_manifestText hm htext m₀
  · rw [loadManifestFileSync, if_pos hnone]

theorem savedRevision_of_savedAs {d : AttachDisk} {m : Manifest} (hm : LineSafe m)
    (h : SavedAs order manifestPath d m) (uri : Bytes) :
    savedRevision manifestPath d uri = m.revisions.lookup uri := by
  simp [savedRevision, loadManifestFileSync_savedAs hm h]

theorem commitPerPathUpdate_cases {store : AttachStore} (hmem : store.memoryOnly = false)
    (uri data : Bytes) (expectedRev : UInt64) (d : AttachDisk) :
    (∃ rc, rc ≠ .ok ∧
      commitPerPathUpdate (diskIo order manifestPath) store uri data expectedRev d =
        (rc, store, d)) ∨
    ∃ path, uriToPath (cstr uri) pathCap = some path ∧
      (commitPerPathUpdate (diskIo order manifestPath) store uri data expectedRev d).1 = .ok ∧
      (commitPerPathUpdate (diskIo order manifestPath) store uri data expectedRev d).2.1 =
        { store with
          manifest :=
            { store.manifest.record (cstr uri) (expectedRev + 1) path with
              batchEpoch := store.manifest.batchEpoch + 1 } } := by
  unfold commitPerPathUpdate commitOne
  cases hpath : uriToPath (cstr uri) pathCap with
  | none => exact Or.inl ⟨.invalidArg, by simp, rfl⟩
  | some path =>
      by_cases hrev : store.manifest.revisionOf (cstr uri) = expectedRev
      · apply Or.inr
        refine ⟨path, rfl, ?_, ?_⟩
        · simp [hrev, hmem, diskIo]
        · simp [hrev, hmem, diskIo, Manifest.record]
      · apply Or.inl
        refine ⟨.conflict, by simp, ?_⟩
        simp [hrev]

theorem batchCommitUpdate_cases {store : AttachStore} (hmem : store.memoryOnly = false)
    (d : AttachDisk) :
    ((batchCommitUpdate (diskIo order manifestPath) store d).1 ≠ .ok ∧
      (batchCommitUpdate (diskIo order manifestPath) store d).2.1.manifest = store.manifest ∧
      (batchCommitUpdate (diskIo order manifestPath) store d).2.1.memoryOnly = false ∧
      (batchCommitUpdate (diskIo order manifestPath) store d).2.2 manifestPath =
        d manifestPath) ∨
    ((batchCommitUpdate (diskIo order manifestPath) store d).1 = .ok ∧
      (batchCommitUpdate (diskIo order manifestPath) store d).2.1 =
        { store with
          manifest := flipManifest store.manifest (store.manifest.batchEpoch + 1) store.staged
          batchOpen := false
          staged := [] }) := by
  have hwal : manifestPath ≠ deriveWalPath manifestPath := (deriveWalPath_ne manifestPath).symm
  unfold batchCommitUpdate
  by_cases hopen : store.batchOpen = false
  · simp [hopen, hmem]
  · by_cases hcas : casHolds store.manifest store.staged = false
    · simp [hopen, hcas, AttachStore.batchAbort, hmem]
    · simp only [hopen, hcas, hmem, walAppendAndStage, writeStagingFiles_diskIo]
      set app := (diskIo order manifestPath).walAppendBatch (store.manifest.batchEpoch + 1)
        (store.staged.map (·.walEntry (store.manifest.batchEpoch + 1))) d with happ
      by_cases hok : app.1 = .ok
      · simp [hok]
      · have hsame : app.2 manifestPath = d manifestPath := by
          rw [happ]
          simp only [diskIo]
          split
          · rfl
          · exact appendFile_other hwal
        simp [hok, AttachStore.batchAbort, hmem, hsame]

theorem finish_spec (commit : PendingCommit) {store : AttachStore} (hmem : store.memoryOnly = false)
    (d : AttachDisk) :
    (commit.finish (diskIo order manifestPath) store d).1 = .ok ∧
      (commit.finish (diskIo order manifestPath) store d).2.1.manifest = store.manifest ∧
      (commit.finish (diskIo order manifestPath) store d).2.1.memoryOnly = false ∧
      (commit.finish (diskIo order manifestPath) store d).2.2 manifestPath =
        some (manifestText order store.manifest) := by
  have hwal : manifestPath ≠ deriveWalPath manifestPath := (deriveWalPath_ne manifestPath).symm
  have hseg : ∀ epoch, walBuildSegmentPath (deriveWalPath manifestPath) epoch ≠
      some manifestPath := fun epoch h => segment_ne_manifest h rfl
  cases commit with
  | perPath uri rev =>
      simp [PendingCommit.finish, saveManifest, hmem, diskIo, saveManifestFileSync_same]
  | batch nextEpoch staged =>
      have hcommitted : (walAppendCommitted nextEpoch).2 = .ok := WalAppend.succeeds_committed _
      simp only [PendingCommit.finish, batchCommitFinish, saveManifest, walMarkCommitted,
        purgeWalForStore, hmem, diskIo, hcommitted, Bool.false_eq_true, if_false, ne_eq, not_true]
      refine ⟨trivial, trivial, trivial, ?_⟩
      rw [walPurgeOldSegmentsEx_other hseg, walRotateActiveSegment_other hwal (hseg _),
        appendFile_other hwal, saveManifestFileSync_same]

theorem lookup_record_other {m : Manifest} {uri uri' : Bytes} {rev : UInt64} {path : Path}
    (h : uri' ≠ uri) : (m.record uri rev path).revisions.lookup uri' = m.revisions.lookup uri' :=
  Finmap.lookup_insert_of_ne _ h

theorem lookup_flip_of_acknowledge (staged : List StagedEntry) (nextEpoch : UInt64) {m : Manifest}
    {c : Bytes → Option UInt64}
    (h : ∀ uri rev, c uri = some rev → m.revisions.lookup uri = some rev) (uri : Bytes)
    (rev : UInt64)
    (hack : acknowledge c (staged.map fun e => (e.uri, e.expectedRev + 1)) uri = some rev) :
    (flipManifest m nextEpoch staged).revisions.lookup uri = some rev := by
  rw [flipManifest]
  simp only
  induction staged generalizing m c with
  | nil => exact h uri rev hack
  | cons e es ih =>
      rw [List.foldl_cons]
      apply ih (c := Function.update c e.uri (some (e.expectedRev + 1))) ?_ hack
      intro uri' rev' hack'
      by_cases huri : uri' = e.uri
      · subst huri
        rw [Function.update_self] at hack'
        rw [Manifest.record, Finmap.lookup_insert, hack']
      · rw [Function.update_of_ne huri] at hack'
        rw [lookup_record_other huri]
        exact h uri' rev' hack'

theorem mem_flip {staged : List StagedEntry} {nextEpoch : UInt64} {m : Manifest} {uri : Bytes}
    (h : uri ∈ (flipManifest m nextEpoch staged).revisions) :
    uri ∈ m.revisions ∨ ∃ e ∈ staged, e.uri = uri := by
  rw [flipManifest] at h
  simp only at h
  induction staged generalizing m with
  | nil => exact Or.inl h
  | cons e es ih =>
      rw [List.foldl_cons] at h
      rcases ih h with hm | ⟨e', he', huri⟩
      · rcases Finmap.mem_insert.mp hm with rfl | hm
        · exact Or.inr ⟨e, List.mem_cons_self, rfl⟩
        · exact Or.inl hm
      · exact Or.inr ⟨e', List.mem_cons_of_mem _ he', huri⟩

def SharedStore.promised (w : SharedStore) : Bytes → Option UInt64 :=
  match w.pending with
  | none => w.acknowledged
  | some commit => acknowledge w.acknowledged commit.revisions

/-- The store holds what is acknowledged or about to be, in a form that can be
saved, and it is saved unless a commit is in progress. -/
structure Kept (order : IterOrder) (manifestPath : Path) (w : SharedStore) : Prop where
  fileBacked : w.store.memoryOnly = false
  accepted : Accepted w.store.manifest
  noLineFeed : ∀ uri ∈ w.store.manifest.revisions, LF ∉ uri
  saved : w.pending = none → SavedAs order manifestPath w.disk w.store.manifest
  recorded : ∀ uri rev, SharedStore.promised w uri = some rev →
    w.store.manifest.revisions.lookup uri = some rev

theorem Kept.lineSafe {w : SharedStore} (h : Kept order manifestPath w) :
    LineSafe w.store.manifest := h.accepted.lineSafe h.noLineFeed

theorem Kept.init {d : AttachDisk} {store : AttachStore}
    (h : OpenedOn order manifestPath d store) :
    Kept order manifestPath (sharedStore order manifestPath d store).init where
  fileBacked := h.fileBacked
  accepted := h.accepted
  noLineFeed := h.noLineFeed
  saved _ := h.saved
  recorded uri rev hrev := by cases hrev

theorem Kept.of_same {w w' : SharedStore} (h : Kept order manifestPath w)
    (hidle : w.pending = none) (hidle' : w'.pending = none)
    (hack : w'.acknowledged = w.acknowledged) (hmem : w'.store.memoryOnly = false)
    (hm : w'.store.manifest = w.store.manifest)
    (hd : w'.disk manifestPath = w.disk manifestPath) : Kept order manifestPath w' where
  fileBacked := hmem
  accepted := hm ▸ h.accepted
  noLineFeed := hm ▸ h.noLineFeed
  saved _ := by
    rw [SavedAs, hm, hd]
    exact h.saved hidle
  recorded uri rev hrev := by
    rw [SharedStore.promised, hidle'] at hrev
    rw [hm]
    apply h.recorded uri rev
    rw [SharedStore.promised, hidle, ← hack]
    exact hrev

theorem Kept.commitPerPath {w w' : SharedStore} (h : Kept order manifestPath w)
    {uri data : Bytes} {expectedRev : UInt64} (hlf : LF ∉ cstr uri)
    (hs : w.step order manifestPath (.commitPerPath uri data expectedRev) = some w') :
    Kept order manifestPath w' := by
  simp only [SharedStore.step] at hs
  split at hs
  · cases hs
  rename_i hidle
  replace hidle : w.pending = none := by simpa using hidle
  rcases @commitPerPathUpdate_cases order manifestPath _ h.fileBacked uri
    data expectedRev w.disk with ⟨rc, hrc, heq⟩ | ⟨path, hpath, hok, hstore⟩
  · rw [heq] at hs
    cases hs
    exact h.of_same hidle (by simp [hrc]) rfl h.fileBacked rfl rfl
  · cases hs
    constructor
    · simp only [hstore]
      exact h.fileBacked
    · simp only [hstore]
      exact (h.accepted.record hpath (not_zero_mem_cstr uri) (Or.inl rfl)).withEpoch _
    · simp only [hstore]
      intro uri' huri'
      rcases Finmap.mem_insert.mp huri' with rfl | huri'
      · exact hlf
      · exact h.noLineFeed uri' huri'
    · intro hpending
      simp [hok] at hpending
    · intro uri' rev hrev
      simp only [SharedStore.promised, hok, if_true] at hrev
      simp only [hstore]
      rw [PendingCommit.revisions, acknowledge, List.foldl_cons, List.foldl_nil] at hrev
      by_cases huri : uri' = cstr uri
      · subst huri
        rw [Function.update_self] at hrev
        rw [Manifest.record, Finmap.lookup_insert, hrev]
      · rw [Function.update_of_ne huri] at hrev
        rw [lookup_record_other huri]
        apply h.recorded uri' rev
        rw [SharedStore.promised, hidle]
        exact hrev

theorem Kept.batchCommit {w w' : SharedStore} (h : Kept order manifestPath w)
    (hlf : ∀ e ∈ w.store.staged, LF ∉ e.uri)
    (hs : w.step order manifestPath .batchCommit = some w') : Kept order manifestPath w' := by
  simp only [SharedStore.step] at hs
  split at hs
  · cases hs
  rename_i hidle
  replace hidle : w.pending = none := by simpa using hidle
  cases hs
  rcases @batchCommitUpdate_cases order manifestPath _ h.fileBacked
    w.disk with ⟨hrc, hm, hmem, hd⟩ | ⟨hok, hstore⟩
  · exact h.of_same hidle (by simp [hrc]) rfl hmem hm hd
  · constructor
    · simp only [hstore]
      exact h.fileBacked
    · simp only [hstore]
      exact h.accepted.flip _ _
    · simp only [hstore]
      intro uri huri
      rcases mem_flip huri with huri | ⟨e, he, rfl⟩
      · exact h.noLineFeed uri huri
      · exact hlf e he
    · intro hpending
      simp [hok] at hpending
    · intro uri rev hrev
      simp only [SharedStore.promised, hok, if_true, PendingCommit.revisions] at hrev
      simp only [hstore]
      apply lookup_flip_of_acknowledge w.store.staged _ ?_ uri rev hrev
      intro uri' rev' hack
      apply h.recorded uri' rev'
      rw [SharedStore.promised, hidle]
      exact hack

theorem Kept.save {w w' : SharedStore} (h : Kept order manifestPath w)
    (hs : w.step order manifestPath .save = some w') : Kept order manifestPath w' := by
  simp only [SharedStore.step] at hs
  obtain ⟨commit, hcommit, rfl⟩ := Option.map_eq_some_iff.mp hs
  obtain ⟨hok, hm, hmem, hd⟩ := @finish_spec order manifestPath commit _
    h.fileBacked w.disk
  constructor
  · exact hmem
  · simp only [hm]
    exact h.accepted
  · simp only [hm]
    exact h.noLineFeed
  · intro _
    simp only [hm]
    exact Or.inl hd
  · intro uri rev hrev
    simp only [SharedStore.promised, hok, if_true] at hrev
    simp only [hm]
    apply h.recorded uri rev
    rw [SharedStore.promised, hcommit]
    exact hrev

theorem Kept.reload {w w' : SharedStore} (h : Kept order manifestPath w)
    (hidle : w.pending = none) (hs : w.step order manifestPath .reload = some w') :
    Kept order manifestPath w' := by
  have hload : storeReloadManifest (diskIo order manifestPath) w.store w.disk =
      (.ok, w.store, w.disk) := by
    rw [storeReloadManifest, if_neg (by simp [h.fileBacked])]
    simp only [diskIo, loadManifestFileSync_savedAs h.lineSafe (h.saved hidle)]
  simp only [SharedStore.step, hload] at hs
  cases hs
  exact h

theorem Kept.step {w w' : SharedStore} {e : SharedEvent} (h : Kept order manifestPath w)
    (he : ReloadsOutside w e) (hs : w.step order manifestPath e = some w') :
    Kept order manifestPath w' := by
  cases e with
  | commitPerPath uri data expectedRev => exact h.commitPerPath he hs
  | batchCommit => exact h.batchCommit he hs
  | save => exact h.save hs
  | reload => exact h.reload he hs
  | batchBegin =>
      simp only [SharedStore.step] at hs
      split at hs
      · cases hs
      · rename_i hidle
        replace hidle : w.pending = none := by simpa using hidle
        cases hs
        exact h.of_same hidle hidle rfl h.fileBacked rfl rfl
  | batchAbort =>
      simp only [SharedStore.step] at hs
      split at hs
      · cases hs
      · rename_i hidle
        replace hidle : w.pending = none := by simpa using hidle
        cases hs
        exact h.of_same hidle hidle rfl h.fileBacked rfl rfl
  | batchStage uri data expectedRev =>
      simp only [SharedStore.step] at hs
      split at hs
      · cases hs
      · rename_i hidle
        replace hidle : w.pending = none := by simpa using hidle
        cases hs
        rcases batchStage_cases w.store uri data expectedRev with heq | ⟨e, -, -, heq⟩
        · exact h.of_same hidle hidle rfl (by simp [heq, h.fileBacked]) (by simp [heq]) rfl
        · exact h.of_same hidle hidle rfl (by simp [heq, h.fileBacked]) (by simp [heq]) rfl

/-- **Readers lose no commit** in a run whose reloads all fall outside the
commits. -/
theorem commits_survive_reloads {d : AttachDisk} {store : AttachStore}
    (hopen : OpenedOn order manifestPath d store) {w : SharedStore}
    (h : (sharedStore order manifestPath d store).ReachableMeeting ReloadsOutside w) :
    CommitsKept manifestPath w := by
  have hkept : Kept order manifestPath w := by
    apply h.invariant (I := Kept order manifestPath) (Kept.init hopen)
    intro s e s' hs he hstep
    exact hs.step he hstep
  intro hidle uri rev hack
  have hrecorded := hkept.recorded uri rev (by rwa [SharedStore.promised, hidle])
  refine ⟨hrecorded, ?_⟩
  rw [savedRevision_of_savedAs hkept.lineSafe (hkept.saved hidle), hrecorded]

/-- A first commit with no reader between its steps. -/
theorem commits_survive_reloads_alone :
    ∃ w, (sharedStore IterOrder.someOrder (ascii "m") (fun _ => none) {}).run
        (sharedStore IterOrder.someOrder (ascii "m") (fun _ => none) {}).init
        [.commitPerPath (ascii "file:///a") [1] 0, .save, .reload] = some w ∧
      w.acknowledged (ascii "file:///a") = some 1 ∧ CommitsKept (ascii "m") w := by
  have hopen : OpenedOn IterOrder.someOrder (ascii "m") (fun _ => none) {} :=
    ⟨rfl, Accepted.empty, fun uri huri => absurd huri Finmap.notMem_empty, Or.inr ⟨rfl, rfl⟩⟩
  have hmeets : (sharedStore IterOrder.someOrder (ascii "m") (fun _ => none) {}).RunMeets
      ReloadsOutside (sharedStore IterOrder.someOrder (ascii "m") (fun _ => none) {}).init
      [.commitPerPath (ascii "file:///a") [1] 0, .save, .reload] := by
    refine And.intro ?_ (And.intro trivial (And.intro rfl trivial))
    have hlf : LF ∉ cstr (ascii "file:///a") := by decide
    exact hlf
  refine ⟨_, rfl, rfl, ?_⟩
  exact commits_survive_reloads hopen (Machine.ReachableMeeting.run (.init _ _) hmeets rfl)

/-- A reader that reloads before the save takes a first commit back. -/
theorem reload_before_save_loses_commit :
    ∃ w, (sharedStore IterOrder.someOrder (ascii "m") (fun _ => none) {}).Reachable w ∧
      w.acknowledged (ascii "file:///a") = some 1 ∧
      w.store.manifest.revisions.lookup (ascii "file:///a") = none ∧
      ¬CommitsKept (ascii "m") w := by
  refine ⟨_, Machine.reachable_of_run
    [.commitPerPath (ascii "file:///a") [1] 0, .reload, .save] rfl, rfl, rfl, ?_⟩
  intro hkept
  have hlookup := (hkept rfl (ascii "file:///a") 1 rfl).1
  cases hlookup

end BlessStar.Persistence.Proofs.ReaderReloads
