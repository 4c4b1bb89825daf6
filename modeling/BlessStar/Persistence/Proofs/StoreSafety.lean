import BlessStar.Persistence.Proofs.CrashSafety

/-!
# Safety of a store over its runs

Every event of a store's life keeps its disk sound, unless a batch commit is
cut short between the flip of the manifest and the COMMITTED record or a
commit writes over a file that is in use.
-/

namespace BlessStar.Persistence.Proofs.StoreSafety

open Lib.ByteString Lib.FileSystem Lib.Transition
open Persistence Persistence.Wal
open Persistence.Proofs.WalRoundTrip
open Persistence.Proofs.WalCorruption Persistence.Proofs.ManifestRoundTrip
open Persistence.Proofs.StoreSteps
open Persistence.Proofs.StoreFiles Persistence.Proofs.BatchWrites
open Persistence.Proofs.StoreSound Persistence.Proofs.CrashSafety

variable {order : IterOrder} {manifestPath : Path} {d : AttachDisk} {store : AttachStore}
  {c : Committed}

def Untouched (manifestPath : Path) (d d' : AttachDisk) : Prop :=
  d' = d ∨ d' = appendFile d (deriveWalPath manifestPath) []

theorem sound_untouched {m : Manifest} {d' : AttachDisk} (h : Sound order manifestPath d m c)
    (hd : Untouched manifestPath d d') : Sound order manifestPath d' m c := by
  rcases hd with rfl | rfl
  · exact h
  · refine h.of_agree (appendFile_other (deriveWalPath_ne manifestPath).symm) (by simp)
      fun uri p hp => appendFile_other fun heq => (h.files uri p hp).1 (heq ▸ .wal)

theorem walAppendBatch_refused {nextEpoch : UInt64} {staged : List StagedEntry}
    (h : (walAppendBatch nextEpoch (staged.map (·.walEntry nextEpoch))).2 ≠ .ok) :
    (walAppendBatch nextEpoch (staged.map (·.walEntry nextEpoch))).1 = [] := by
  rw [ne_eq, walAppendBatch_ok_iff] at h
  unfold walAppendBatch
  by_cases hnil : staged.map (·.walEntry nextEpoch) = []
  · rw [if_pos hnil]
  · rw [if_neg hnil]
    by_cases hcount : 0xFFFFFFFF < (staged.map (·.walEntry nextEpoch)).length
    · rw [if_pos hcount]
    · refine absurd ⟨hnil, by omega, fun w hw => ?_⟩ h
      obtain ⟨e, -, rfl⟩ := List.mem_map.mp hw
      exact walEntry_fits e nextEpoch

theorem untouched_append {nextEpoch : UInt64} {staged : List StagedEntry}
    (h : (walAppendBatch nextEpoch (staged.map (·.walEntry nextEpoch))).2 ≠ .ok)
    (d : AttachDisk) :
    Untouched manifestPath d ((diskIo order manifestPath).walAppendBatch nextEpoch
      (staged.map (·.walEntry nextEpoch)) d).2 := by
  simp only [diskIo]
  split
  · exact Or.inl rfl
  · rw [walAppendBatch_refused h]
    exact Or.inr rfl

theorem refused_cases (hmem : store.memoryOnly = false) (h : ¬Commits store) :
    store.batchOpen = false ∨
    (store.batchOpen = true ∧ casHolds store.manifest store.staged = false) ∨
    (store.batchOpen = true ∧ casHolds store.manifest store.staged = true ∧
      (walAppendBatch (store.manifest.batchEpoch + 1)
        (store.staged.map (·.walEntry (store.manifest.batchEpoch + 1)))).2 ≠ .ok) := by
  cases hopen : store.batchOpen with
  | false => exact Or.inl rfl
  | true =>
      cases hcas : casHolds store.manifest store.staged with
      | false => exact Or.inr (Or.inl ⟨rfl, rfl⟩)
      | true => exact Or.inr (Or.inr ⟨rfl, rfl, fun happend => h ⟨hmem, hopen, hcas, happend⟩⟩)

theorem storeBatchCommit_refused (order : IterOrder) (manifestPath : Path)
    (hmem : store.memoryOnly = false) (h : ¬Commits store)
    (d : AttachDisk) :
    (storeBatchCommit (diskIo order manifestPath) store d).1 ≠ .ok ∧
      (storeBatchCommit (diskIo order manifestPath) store d).2.1.manifest = store.manifest ∧
      (storeBatchCommit (diskIo order manifestPath) store d).2.1.memoryOnly = false ∧
      Untouched manifestPath d (storeBatchCommit (diskIo order manifestPath) store d).2.2 := by
  unfold storeBatchCommit
  rcases refused_cases hmem h with hopen | ⟨hopen, hcas⟩ | ⟨hopen, hcas, happend⟩
  · rw [if_pos hopen]
    exact ⟨by simp, rfl, hmem, Or.inl rfl⟩
  · rw [if_neg (by simp [hopen]), if_pos hcas]
    exact ⟨by simp, rfl, hmem, Or.inl rfl⟩
  · rw [if_neg (by simp [hopen]), if_neg (by simp [hcas])]
    have hstatus : ((diskIo order manifestPath).walAppendBatch (store.manifest.batchEpoch + 1)
        (store.staged.map (·.walEntry (store.manifest.batchEpoch + 1))) d).1 ≠ .ok := happend
    simp only [hmem, Bool.false_eq_true, if_false, walAppendAndStage, hstatus, ne_eq,
      not_false_eq_true, if_true]
    exact ⟨trivial, rfl, hmem, untouched_append happend d⟩

theorem crashBatchCommit_refused (hmem : store.memoryOnly = false) (h : ¬Commits store) (k : Nat)
    (d : AttachDisk) : Untouched manifestPath d (crashBatchCommit order manifestPath store k d) := by
  unfold crashBatchCommit storeBatchCommit
  rcases refused_cases hmem h with hopen | ⟨hopen, hcas⟩ | ⟨hopen, hcas, happend⟩
  · rw [if_pos hopen]
    exact Or.inl rfl
  · rw [if_neg (by simp [hopen]), if_pos hcas]
    exact Or.inl rfl
  · rw [if_neg (by simp [hopen]), if_neg (by simp [hcas])]
    cases k with
    | zero =>
        left
        simp [hmem, walAppendAndStage, writeStagingFiles_crashIo, storeBatchFlip_crashIo]
    | succ k =>
        have hstatus : ((diskIo order manifestPath).walAppendBatch (store.manifest.batchEpoch + 1)
            (store.staged.map (·.walEntry (store.manifest.batchEpoch + 1))) d).1 ≠ .ok := happend
        simp only [hmem, Bool.false_eq_true, if_false, walAppendAndStage,
          crashIo_walAppendBatch_succ, hstatus, ne_eq, not_false_eq_true, if_true]
        exact untouched_append happend d

theorem sound_batchCommit (hcommits : Commits store)
    (hspares : SparesBatch manifestPath store.manifest store.staged)
    (h : Sound order manifestPath d store.manifest c) :
    Sound order manifestPath (storeBatchCommit (diskIo order manifestPath) store d).2.2
      (storeBatchCommit (diskIo order manifestPath) store d).2.1.manifest
      (noteStaged c store.staged) := by
  obtain ⟨-, hmanifest, hdisk⟩ := storeBatchCommit_diskIo order manifestPath hcommits d
  have hlen : (batchCommitSteps order manifestPath store).length = store.staged.length + 6 := by
    simp [batchCommitSteps, stageSteps, flipSteps]
  rw [hmanifest, hdisk, ← crashAfter_all (k := store.staged.length + 6) hlen.le]
  rcases sound_crash hcommits hspares h (by omega : store.staged.length + 6 ≠ _) with
    ⟨hlt, -⟩ | ⟨-, hsound⟩
  · omega
  · exact hsound

theorem storeBatchCommit_memoryOnly {σ : Type} (io : PersistIo σ) (store : AttachStore) (s : σ) :
    (storeBatchCommit io store s).2.1.memoryOnly = store.memoryOnly := by
  rcases storeBatchCommit_cases io store s with ⟨-, hrun⟩ | ⟨rc, s', -, hrun⟩ | ⟨-, -, s', hrun⟩
  · rw [hrun]
  · rw [hrun]
    rfl
  · rw [hrun]
    exact (storeBatchFlip_store io store s').2.2.2

theorem storeCommitPerPath_outcome (order : IterOrder) (manifestPath : Path)
    (store : AttachStore) (uri data : Bytes) (expectedRev : UInt64) (d : AttachDisk) :
    (∃ rc, rc ≠ .ok ∧
      storeCommitPerPath (diskIo order manifestPath) store uri data expectedRev d =
        (rc, store, d)) ∨
    ∃ path, uriToPath (cstr uri) pathCap = some path ∧
      store.manifest.revisionOf (cstr uri) = expectedRev := by
  cases hpath : uriToPath (cstr uri) pathCap with
  | none => exact Or.inl ⟨.invalidArg, by simp, by simp [storeCommitPerPath, hpath]⟩
  | some path =>
      by_cases hrev : store.manifest.revisionOf (cstr uri) = expectedRev
      · exact Or.inr ⟨path, rfl, hrev⟩
      · exact Or.inl ⟨.conflict, by simp, by simp [storeCommitPerPath, commitOne, hpath, hrev]⟩

theorem orphanFile_of_mem {m : Manifest} {ops : List WalAppend}
    (hops : WalSound manifestPath d m ops) {b : WalBatch} (hb : b ∈ batchesOf ops)
    (horphan : IsOrphan (maxCommitted ops) m.batchEpoch b.epoch) {p : Path}
    (hp : p ∈ b.stagingPaths) : OrphanFile manifestPath d m p := by
  unfold OrphanFile
  simp only [hops.bytes, scan_walFile hops.succeeds,
    (between_recoverScan_walFile hops.succeeds _ _).accepted]
  exact ⟨b, hb, horphan, hp⟩

theorem sound_commitPerPath {m : Manifest} (h : Sound order manifestPath d m c) {uri : Bytes}
    {path : Path} (hpath : uriToPath uri pathCap = some path) (hnul : (0 : UInt8) ∉ uri)
    (hspares : SparesPath manifestPath d m uri path) (rev : UInt64) (data : Bytes) :
    Sound order manifestPath
      (saveManifestFileSync order manifestPath
        { m.record uri rev path with batchEpoch := m.batchEpoch + 1 }
        (writeFileAtomicDisk path data d))
      { m.record uri rev path with batchEpoch := m.batchEpoch + 1 }
      (noteCommitted c uri rev data) := by
  have hother : ∀ q, ¬OwnFile manifestPath q → saveManifestFileSync order manifestPath
      { m.record uri rev path with batchEpoch := m.batchEpoch + 1 }
      (writeFileAtomicDisk path data d) q = writeFileAtomicDisk path data d q := fun q hq =>
    saveManifestFileSync_other (fun heq => hq (heq ▸ .manifest)) (fun heq => hq (heq ▸ .prev))
      fun heq => hq (heq ▸ .tmp)
  refine ⟨Or.inl (saveManifestFileSync_same _ _ _ _),
    (h.accepted.record hpath hnul (Or.inl rfl)).withEpoch _, fun u hu => ?_, fun u p hp => ?_, ?_⟩
  · rcases Finmap.mem_insert.mp hu with rfl | hu
    · exact hspares.lf
    · exact h.lf u hu
  · by_cases hu : u = uri
    · subst hu
      obtain rfl : path = p := by simpa [Manifest.record] using hp
      refine ⟨hspares.own.1, data, ?_, ?_⟩
      · simp [Manifest.record, Manifest.revisionOf, noteCommitted_same]
      · rw [hother _ hspares.own.1, writeFileAtomicDisk_same]
    · have hold : m.canonicalPaths.lookup u = some p := by
        simpa [Manifest.record, Finmap.lookup_insert_of_ne _ hu] using hp
      obtain ⟨hown, bytes, hnoted, hfile⟩ := h.files u p hold
      obtain ⟨hne, hnetmp⟩ := hspares.others u p hu hold
      refine ⟨hown, bytes, ?_, ?_⟩
      · rw [noteCommitted_other (Or.inl hu)]
        simpa [Manifest.record, Manifest.revisionOf, Finmap.lookup_insert_of_ne _ hu] using hnoted
      · rw [hother _ hown, writeFileAtomicDisk_other hne hnetmp, hfile]
  · obtain ⟨ops, hops⟩ := h.wal
    have hepoch : (m.batchEpoch + 1).toNat = m.batchEpoch.toNat + 1 := toNat_nextEpoch hspares.epoch
    refine ⟨ops, hops.succeeds, ?_, fun b hb => ?_, fun b hb horphan p hp => ?_⟩
    · rw [saveManifestFileSync_other (deriveWalPath_ne manifestPath)
        (deriveWalPath_ne_prevPath manifestPath) (deriveWalPath_ne_tmpPath manifestPath),
        writeFileAtomicDisk_other (fun heq => hspares.own.1 (by rw [← heq]; exact .wal))
          fun heq => hspares.own.2 (by rw [← heq]; exact .wal)]
      exact hops.bytes
    · exact (hops.epochs b hb).trans (by simp only; omega)
    · have hold : IsOrphan (maxCommitted ops) m.batchEpoch b.epoch := by
        rcases horphan with hlt | hlt
        · exact Or.inl hlt
        · right
          have hlt' : m.batchEpoch + 1 < b.epoch := hlt
          rw [UInt64.lt_iff_toNat_lt] at hlt' ⊢
          omega
      obtain ⟨hown, hunref⟩ := hops.orphans b hb hold p hp
      refine ⟨hown, fun u hu => ?_⟩
      by_cases huri : u = uri
      · subst huri
        obtain rfl : path = p := by simpa [Manifest.record] using hu
        exact hspares.orphan (orphanFile_of_mem hops hb hold hp)
      · apply hunref u
        simpa [Manifest.record, Finmap.lookup_insert_of_ne _ huri] using hu

/-- The steps a store survives: a commit that is accepted stays clear of the
files in use, and a crash does not fall between the flip of the manifest and
the COMMITTED record. -/
def Spares (manifestPath : Path) (w : StoreWorld) : StoreEvent → Prop
  | .commitPerPath uri _ expectedRev => ∀ store ∈ w.store, ∀ path,
      uriToPath (cstr uri) pathCap = some path →
      store.manifest.revisionOf (cstr uri) = expectedRev →
      SparesPath manifestPath w.disk store.manifest (cstr uri) path
  | .batchCommit => ∀ store ∈ w.store, Commits store →
      SparesBatch manifestPath store.manifest store.staged
  | .crashBatchCommit k => ∀ store ∈ w.store, Commits store →
      SparesBatch manifestPath store.manifest store.staged ∧ k ≠ store.staged.length + 3
  | _ => True

def WorldSound (order : IterOrder) (manifestPath : Path) (w : StoreWorld) : Prop :=
  ∃ store, w.store = some store ∧ store.memoryOnly = false ∧
    Sound order manifestPath w.disk store.manifest w.committed

theorem worldSound_opened {m : Manifest} (h : Sound order manifestPath d m c) :
    WorldSound order manifestPath (StoreWorld.opened manifestPath d c) := by
  obtain ⟨store, hstore, hm, hmem, hsound⟩ := h.open
  refine ⟨store, hstore, hmem, ?_⟩
  rw [hm]
  exact hsound

theorem worldSound_step {w w' : StoreWorld} {e : StoreEvent}
    (h : WorldSound order manifestPath w) (hspares : Spares manifestPath w e)
    (hstep : StoreWorld.step order manifestPath w e = some w') :
    WorldSound order manifestPath w' := by
  obtain ⟨store, hstore, hmem, hsound⟩ := h
  cases e with
  | reopen =>
      cases hstep
      exact worldSound_opened hsound
  | commitPerPath uri data expectedRev =>
      simp only [StoreWorld.step, hstore, Option.map_some, Option.some.injEq] at hstep
      subst hstep
      rcases storeCommitPerPath_outcome order manifestPath store uri data expectedRev
        w.disk with ⟨rc, hrc, hrun⟩ | ⟨path, hpath, hrev⟩
      · refine ⟨store, by rw [hrun], hmem, ?_⟩
        simp only [hrun, hrc, if_false]
        exact hsound
      · have hrun := storeCommitPerPath_diskIo order manifestPath hmem data hpath hrev w.disk
        refine ⟨_, rfl, ?_, ?_⟩
        · rw [hrun]
          exact hmem
        · simp only [hrun, if_true]
          exact sound_commitPerPath hsound hpath (not_zero_mem_cstr uri)
            (hspares store hstore path hpath hrev) _ _
  | batchBegin =>
      simp only [StoreWorld.step, hstore, Option.map_some, Option.some.injEq] at hstep
      subst hstep
      exact ⟨_, rfl, hmem, hsound⟩
  | batchStage uri data expectedRev =>
      simp only [StoreWorld.step, hstore, Option.map_some, Option.some.injEq] at hstep
      subst hstep
      rcases batchStage_cases store uri data expectedRev with hrun | ⟨e, -, -, hrun⟩
      · exact ⟨_, rfl, by rw [hrun]; exact hmem, by rw [hrun]; exact hsound⟩
      · exact ⟨_, rfl, by rw [hrun]; exact hmem, by rw [hrun]; exact hsound⟩
  | batchCommit =>
      simp only [StoreWorld.step, hstore, Option.map_some, Option.some.injEq] at hstep
      subst hstep
      refine ⟨_, rfl, (storeBatchCommit_memoryOnly _ _ _).trans hmem, ?_⟩
      by_cases hcommits : Commits store
      · simp only [(storeBatchCommit_diskIo order manifestPath hcommits w.disk).1, if_true]
        exact sound_batchCommit hcommits (hspares store hstore hcommits) hsound
      · obtain ⟨hrc, hm, -, hdisk⟩ :=
          storeBatchCommit_refused order manifestPath hmem hcommits w.disk
        simp only [hrc, if_false, hm]
        exact sound_untouched hsound hdisk
  | batchAbort =>
      simp only [StoreWorld.step, hstore, Option.map_some, Option.some.injEq] at hstep
      subst hstep
      exact ⟨_, rfl, hmem, hsound⟩
  | appendPhaseMark epoch phase uriSetHash =>
      simp only [StoreWorld.step, hstore, Option.map_some, Option.some.injEq] at hstep
      subst hstep
      refine ⟨_, rfl, hmem, ?_⟩
      simp only [storeAppendPhaseMark, hmem, Bool.false_eq_true, if_false]
      exact sound_phaseMark hsound _ _ _
  | crashBatchCommit k =>
      simp only [StoreWorld.step, hstore, Option.map_some, Option.some.injEq] at hstep
      subst hstep
      by_cases hcommits : Commits store
      · obtain ⟨hbatch, hk⟩ := hspares store hstore hcommits
        rw [crashBatchCommit_eq hcommits,
          if_pos (storeBatchCommit_diskIo order manifestPath hcommits w.disk).1]
        rcases sound_crash hcommits hbatch hsound hk with ⟨-, hafter⟩ | ⟨-, hafter⟩
        · exact worldSound_opened hafter
        · exact worldSound_opened hafter
      · rw [if_neg (storeBatchCommit_refused order manifestPath hmem hcommits w.disk).1]
        exact worldSound_opened (sound_untouched hsound (crashBatchCommit_refused hmem hcommits k w.disk))

/-- Every canonical path that the store records names a file with the bytes
committed for the revision of its URI. -/
def CanonicalFilesHold (w : StoreWorld) : Prop :=
  ∃ store, w.store = some store ∧ ∀ uri p, store.manifest.canonicalPaths.lookup uri = some p →
    ∃ data, w.committed uri (store.manifest.revisionOf uri) = some data ∧ w.disk p = some data

/-- **Canonical files survive.**  A store first opened where there is neither
manifest nor WAL keeps the files of its canonical paths through every run of
steps it survives, crashes of batch commits included. -/
theorem canonical_files_survive (order : IterOrder) (manifestPath : Path) {d : AttachDisk}
    (hm : d manifestPath = none) (hwal : d (deriveWalPath manifestPath) = none) {w : StoreWorld}
    (h : (storeMachine order manifestPath d).ReachableMeeting (Spares manifestPath) w) :
    CanonicalFilesHold w := by
  have hinit : WorldSound order manifestPath (storeMachine order manifestPath d).init :=
    worldSound_opened (Sound.fresh hm hwal)
  obtain ⟨store, hstore, -, hsound⟩ :=
    h.invariant hinit fun w e w' hw hspares hstep => worldSound_step hw hspares hstep
  exact ⟨store, hstore, fun uri p hp => (hsound.files uri p hp).2⟩

def emptyDisk : AttachDisk := fun _ => none

/-- The store at `m`, on an empty disk, with a first write of `file://a` staged. -/
def stagedWorld : StoreWorld := ⟨emptyDisk, some (firstWrites [[1]]), fun _ _ => none⟩

theorem storeOpen_emptyDisk (manifestPath : Path) :
    storeOpen manifestPath emptyDisk = (some {}, emptyDisk) := by
  have hfiles : walScannedFiles emptyDisk (deriveWalPath manifestPath) 0 = [] := by
    simp [walScannedFiles, emptyDisk]
  have hscan : walMaxCommittedAcrossSegments emptyDisk (deriveWalPath manifestPath) 0 =
      (0, false) := by
    rw [walMaxCommittedAcrossSegments, hfiles, walMaxCommittedOf]
  have hload : loadManifestFileSync emptyDisk manifestPath {} = (.ok, {}, emptyDisk) := by
    simp [loadManifestFileSync, emptyDisk]
  unfold storeOpen
  rw [hload]
  simp [walRecoverUnfinished, walPurgeOldSegmentsEx, hscan, emptyDisk]

theorem reachable_stagedWorld (meets : StoreWorld → StoreEvent → Prop)
    (hbegin : ∀ w, meets w .batchBegin)
    (hstage : ∀ w, meets w (.batchStage (ascii "file://a") [1] 0)) :
    (storeMachine IterOrder.someOrder (ascii "m") emptyDisk).ReachableMeeting meets
      stagedWorld := by
  have hinit : (storeMachine IterOrder.someOrder (ascii "m") emptyDisk).init =
      ⟨emptyDisk, some {}, fun _ _ => none⟩ := by
    simp [storeMachine, StoreWorld.opened, storeOpen_emptyDisk]
  have h0 := Machine.ReachableMeeting.init
    (storeMachine IterOrder.someOrder (ascii "m") emptyDisk) meets
  rw [hinit] at h0
  have h1 := h0.step (hbegin _) rfl
  exact h1.step (hstage _) rfl

theorem commits_stagedWorld : Commits (firstWrites [[1]]) := ⟨rfl, rfl, by decide, by decide⟩

theorem sparesBatch_stagedWorld :
    SparesBatch (ascii "m") (firstWrites [[1]]).manifest (firstWrites [[1]]).staged := by
  have hone : ∀ e ∈ (firstWrites [[1]]).staged, e = firstWrite [1] := fun e he =>
    List.mem_singleton.mp he
  refine ⟨fun e he => ?_, fun e he => ?_, fun e he f hf huri => ?_, by decide⟩
  · rw [hone e he]
    decide
  · rw [hone e he]
    exact ⟨⟨not_ownFile_makeStagingPath (by decide), by simp [firstWrites]⟩,
      not_ownFile_tmpPath (by decide) (by decide), by simp [firstWrites]⟩
  · rw [hone e he, hone f hf] at huri
    exact absurd rfl huri

theorem canonical_files_survive_first_batch :
    ∃ w, StoreWorld.step IterOrder.someOrder (ascii "m") stagedWorld .batchCommit = some w ∧
      CanonicalFilesHold w := by
  have hspares : Spares (ascii "m") stagedWorld .batchCommit := by
    intro store hstore _
    cases hstore
    exact sparesBatch_stagedWorld
  have hstaged := reachable_stagedWorld (Spares (ascii "m")) (fun _ => trivial) fun _ => trivial
  exact ⟨_, rfl, canonical_files_survive IterOrder.someOrder (ascii "m") (d := emptyDisk) rfl rfl
    (hstaged.step hspares rfl)⟩

theorem walRecoverUnfinished_deletes {walPath p : Path} {m : UInt64} {ops : List WalAppend}
    (hok : ∀ a ∈ ops, a.Succeeds) (hfile : d walPath = some (walFile ops))
    (hsegments : ∀ epoch seg, walBuildSegmentPath walPath epoch = some seg → d seg = none)
    {b : WalBatch} (hb : b ∈ batchesOf ops) (horphan : IsOrphan (maxCommitted ops) m b.epoch)
    (hp : p ∈ b.stagingPaths) (hne : p ≠ []) : (walRecoverUnfinished d walPath m).1 p = none := by
  have hfiles : walScannedFiles d walPath m = [walFile ops] := by
    rw [walScannedFiles, hfile, List.filterMap_eq_nil_iff.mpr, Option.toList_some,
      List.append_nil]
    intro epoch _
    cases hseg : walBuildSegmentPath walPath epoch with
    | none => rfl
    | some seg => exact hsegments epoch seg hseg
  have hscan : walMaxCommittedAcrossSegments d walPath m = (maxCommitted ops, false) := by
    rw [walMaxCommittedAcrossSegments, hfiles, walMaxCommittedOf, scan_walFile hok]
    simp only [Bool.false_eq_true, if_false, walMaxCommittedOf]
    congr 1
    split
    · rfl
    · rename_i hlt
      rw [UInt64.lt_iff_toNat_lt] at hlt
      apply UInt64.toNat_inj.mp
      simp only [UInt64.toNat_zero] at hlt ⊢
      omega
  have hremoved := (between_recoverScan_walFile hok (maxCommitted ops) m).removed
  simp only [walRecoverUnfinished, hscan, hfile, Bool.false_eq_true, if_false]
  apply Disk.removeAll_eq_none
  rw [hremoved, mem_flatMap_orphanPaths]
  exact Or.inl ⟨b, hb, horphan, hp, hne⟩

theorem storeOpen_of_load {m : Manifest}
    (hload : loadManifestFileSync d manifestPath {} = (.ok, m, d))
    (hepoch : m.batchEpoch ≤ walPurgeKeepEpochs) :
    (∃ store, (storeOpen manifestPath d).1 = some store ∧ store.manifest = m) ∧
      (storeOpen manifestPath d).2 =
        (walRecoverUnfinished d (deriveWalPath manifestPath) m.batchEpoch).1 := by
  unfold storeOpen
  rw [hload]
  refine ⟨⟨_, rfl, rfl⟩, ?_⟩
  simp only [ne_eq, not_true_eq_false, if_false, walPurgeOldSegmentsEx, hepoch, if_true, ite_self]

noncomputable def flippedDisk : AttachDisk :=
  crashBatchCommit IterOrder.someOrder (ascii "m") (firstWrites [[1]]) 4 emptyDisk

def flippedManifest : Manifest := flipManifest {} 1 [firstWrite [1]]

def flippedWal : List WalAppend :=
  [.batch 1 [(firstWrite [1]).walEntry 1], .phaseMark 1 walPhaseCommit 0]

theorem flippedDisk_eq : flippedDisk =
    saveManifestFileSync IterOrder.someOrder (ascii "m") flippedManifest
      (appendFile (writeFileAtomicDisk (ascii "a.bs.staging.e1.r1") [1]
        (appendFile emptyDisk (ascii "m.wal") (walAppendBatch 1 [(firstWrite [1]).walEntry 1]).1))
        (ascii "m.wal") (walAppendPhaseMark 1 walPhaseCommit 0).1) := by
  rw [flippedDisk, crashBatchCommit_eq commits_stagedWorld]
  rfl

theorem flippedDisk_load :
    loadManifestFileSync flippedDisk (ascii "m") {} = (.ok, flippedManifest, flippedDisk) := by
  refine loadManifestFileSync_manifestText ?_
    (by rw [flippedDisk_eq, saveManifestFileSync_same]) {}
  apply (Accepted.empty.flip 1 [firstWrite [1]]).lineSafe
  intro uri huri
  rcases mem_flipManifest_revisions huri with huri | huri
  · rw [List.map_singleton, List.mem_singleton] at huri
    rw [huri]
    decide
  · exact absurd huri Finmap.notMem_empty

theorem flippedDisk_wal : flippedDisk (deriveWalPath (ascii "m")) = some (walFile flippedWal) := by
  rw [flippedDisk_eq, saveManifestFileSync_other (deriveWalPath_ne _)
    (deriveWalPath_ne_prevPath _) (deriveWalPath_ne_tmpPath _)]
  have hwal : deriveWalPath (ascii "m") = ascii "m.wal" := by decide
  rw [hwal, appendFile_same, writeFileAtomicDisk_other (by decide) (by decide), appendFile_same]
  simp [walFile, flippedWal, WalAppend.run, emptyDisk]

theorem flippedDisk_segment {epoch : UInt64} {seg : Path}
    (h : walBuildSegmentPath (deriveWalPath (ascii "m")) epoch = some seg) :
    flippedDisk seg = none := by
  have hhead : seg.take 7 = ascii "m.wal.e" := by
    rw [segment_eq h]
    exact List.take_left' (by decide)
  have hne : ∀ q : Path, q.take 7 ≠ ascii "m.wal.e" → seg ≠ q := fun q hq heq =>
    hq (heq ▸ hhead)
  rw [flippedDisk_eq, saveManifestFileSync_other (hne _ (by decide)) (hne _ (by decide))
    (hne _ (by decide)), appendFile_other (hne _ (by decide)),
    writeFileAtomicDisk_other (hne _ (by decide)) (hne _ (by decide)),
    appendFile_other (hne _ (by decide))]
  rfl

theorem flippedDisk_reopen :
    (∃ store, (storeOpen (ascii "m") flippedDisk).1 = some store ∧
      store.manifest = flippedManifest) ∧
    (storeOpen (ascii "m") flippedDisk).2 (ascii "a.bs.staging.e1.r1") = none := by
  have hdeleted : (walRecoverUnfinished flippedDisk (deriveWalPath (ascii "m"))
      flippedManifest.batchEpoch).1 (ascii "a.bs.staging.e1.r1") = none := by
    have hbatch : ⟨1, 1, [ascii "a.bs.staging.e1.r1"]⟩ ∈ batchesOf flippedWal := by decide
    exact walRecoverUnfinished_deletes (by decide) flippedDisk_wal
      (fun _ _ => flippedDisk_segment) hbatch (by decide) (by decide) (by decide)
  obtain ⟨hstore, hdisk⟩ := storeOpen_of_load flippedDisk_load (by decide)
  exact ⟨hstore, by rw [hdisk, hdeleted]⟩

/-- The first batch, cut short before its COMMITTED record: the manifest names
the staging file, and the reopened store has deleted it. -/
theorem crash_after_flip_loses_file :
    ¬ ∀ (order : IterOrder) (manifestPath : Path) (d : AttachDisk), d manifestPath = none →
      d (deriveWalPath manifestPath) = none →
      ∀ w, (storeMachine order manifestPath d).Reachable w → CanonicalFilesHold w := by
  intro h
  have hstaged := reachable_stagedWorld (fun _ _ => True) (fun _ => trivial) fun _ => trivial
  obtain ⟨store, hstore, hhold⟩ := h IterOrder.someOrder (ascii "m") emptyDisk rfl rfl _
    (hstaged.step (e := .crashBatchCommit 4) trivial rfl)
  obtain ⟨⟨store', hstore', hmanifest⟩, hgone⟩ := flippedDisk_reopen
  obtain rfl : store = store' := Option.some.inj (hstore.symm.trans hstore')
  obtain ⟨data, -, hdata⟩ := hhold (ascii "file://a") (ascii "a.bs.staging.e1.r1")
    (by rw [hmanifest]; rfl)
  exact absurd (hdata.symm.trans hgone) (by simp)

end BlessStar.Persistence.Proofs.StoreSafety
