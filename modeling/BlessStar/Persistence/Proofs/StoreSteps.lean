import BlessStar.Persistence.Store
import BlessStar.Persistence.Proofs.ManifestRoundTrip

/-!
# What the store operations do

One lemma per operation: the recorded fields afterwards, and for a batch commit
the list of its disk steps.  A batch commit takes all of them, a crash a prefix.
-/

namespace BlessStar.Persistence.Proofs.StoreSteps

open Lib.ByteString Lib.FileSystem
open Persistence Persistence.Wal

section Fields

variable {σ : Type} (io : PersistIo σ)

@[simp] theorem purgeWalForStore_manifest (store : AttachStore) (s : σ) :
    (purgeWalForStore io store s).1.manifest = store.manifest := by
  unfold purgeWalForStore
  split <;> rfl

@[simp] theorem purgeWalForStore_staged (store : AttachStore) (s : σ) :
    (purgeWalForStore io store s).1.staged = store.staged := by
  unfold purgeWalForStore
  split <;> rfl

@[simp] theorem purgeWalForStore_batchOpen (store : AttachStore) (s : σ) :
    (purgeWalForStore io store s).1.batchOpen = store.batchOpen := by
  unfold purgeWalForStore
  split <;> rfl

@[simp] theorem purgeWalForStore_memoryOnly (store : AttachStore) (s : σ) :
    (purgeWalForStore io store s).1.memoryOnly = store.memoryOnly := by
  unfold purgeWalForStore
  split <;> rfl

theorem batchStage_cases (store : AttachStore) (uri data : Bytes) (expectedRev : UInt64) :
    store.batchStage uri data expectedRev = (.invalidArg, store) ∨
    ∃ e : StagedEntry, e.uri = cstr uri ∧ e.expectedRev = expectedRev ∧
      store.batchStage uri data expectedRev =
        (.ok, { store with staged := store.staged ++ [e] }) := by
  unfold AttachStore.batchStage
  split
  · exact Or.inl rfl
  · unfold stagedEntry
    split
    · exact Or.inl rfl
    · rename_i e he
      split at he
      · cases he
      · cases he
        exact Or.inr ⟨_, rfl, rfl, rfl⟩

theorem storeBatchFlip_store (store : AttachStore) (s : σ) :
    (storeBatchFlip io store s).2.1.manifest =
        flipManifest store.manifest (store.manifest.batchEpoch + 1) store.staged ∧
      (storeBatchFlip io store s).2.1.staged = [] ∧
      (storeBatchFlip io store s).2.1.batchOpen = false ∧
      (storeBatchFlip io store s).2.1.memoryOnly = store.memoryOnly := by
  unfold storeBatchFlip
  simp only
  generalize saveManifest io _ _ = man
  by_cases hman : man.1 = .ok <;> simp [hman]

/-- **The outcomes of a batch commit**: refused before the flip, with the batch
aborted unless none was open, or flipped. -/
theorem storeBatchCommit_cases (store : AttachStore) (s : σ) :
    (store.batchOpen = false ∧ storeBatchCommit io store s = (.invalidArg, store, s)) ∨
    (∃ rc s', rc ≠ .ok ∧ storeBatchCommit io store s = (rc, store.batchAbort, s')) ∨
    (store.batchOpen = true ∧ casHolds store.manifest store.staged = true ∧
      ∃ s', storeBatchCommit io store s = storeBatchFlip io store s') := by
  unfold storeBatchCommit
  by_cases hopen : store.batchOpen = false
  · exact Or.inl ⟨hopen, by rw [if_pos hopen]⟩
  · rw [if_neg hopen]
    by_cases hcas : casHolds store.manifest store.staged = false
    · rw [if_pos hcas]
      exact Or.inr (Or.inl ⟨.conflict, s, by simp, rfl⟩)
    · rw [if_neg hcas]
      generalize hpre : (if store.memoryOnly = true then (AttachStatus.ok, s)
        else walAppendAndStage io (store.manifest.batchEpoch + 1) store.staged s) = pre
      by_cases hok : pre.1 = .ok
      · rw [if_neg (by simp [hok])]
        exact Or.inr (Or.inr ⟨by simpa using hopen, by simpa using hcas, pre.2, rfl⟩)
      · rw [if_pos hok]
        exact Or.inr (Or.inl ⟨pre.1, pre.2, hok, rfl⟩)

theorem commitOne_cases (store : AttachStore) (uri : Bytes) (path : Path) (data : Bytes)
    (expectedRev : UInt64) (s : σ) :
    (∃ rc s', rc ≠ .ok ∧ commitOne io store uri path data expectedRev s = (rc, store, s')) ∨
    (store.manifest.revisionOf uri = expectedRev ∧ ∃ s',
      commitOne io store uri path data expectedRev s =
        (.ok, { store with manifest := store.manifest.record uri (expectedRev + 1) path }, s')) := by
  unfold commitOne
  by_cases hrev : store.manifest.revisionOf uri = expectedRev
  · rw [if_neg (by simp [hrev])]
    simp only
    generalize (if store.memoryOnly = true then (AttachStatus.ok, s)
      else io.writeFileAtomic path data s) = wr
    by_cases hok : wr.1 = .ok
    · rw [if_neg (by simp [hok])]
      exact Or.inr ⟨hrev, wr.2, rfl⟩
    · rw [if_pos hok]
      exact Or.inl ⟨wr.1, wr.2, hok, rfl⟩
  · rw [if_pos hrev]
    exact Or.inl ⟨.conflict, s, by simp, rfl⟩

/-- **The outcomes of a per-path commit**: nothing recorded, or the write and
the next epoch. -/
theorem storeCommitPerPath_cases (store : AttachStore) (uri data : Bytes) (expectedRev : UInt64)
    (s : σ) :
    ((storeCommitPerPath io store uri data expectedRev s).2.1 = store ∧
      (storeCommitPerPath io store uri data expectedRev s).1 ≠ .ok) ∨
    ∃ path, uriToPath (cstr uri) pathCap = some path ∧
      store.manifest.revisionOf (cstr uri) = expectedRev ∧
      (storeCommitPerPath io store uri data expectedRev s).2.1 =
        { store with
          manifest :=
            { store.manifest.record (cstr uri) (expectedRev + 1) path with
              batchEpoch := store.manifest.batchEpoch + 1 } } := by
  unfold storeCommitPerPath
  cases hpath : uriToPath (cstr uri) pathCap with
  | none => exact Or.inl ⟨rfl, by simp⟩
  | some path =>
      rcases commitOne_cases io store (cstr uri) path data expectedRev s with
        ⟨rc, s', hrc, hone⟩ | ⟨hrev, s', hone⟩
      · exact Or.inl (by simp [hone, hrc])
      · exact Or.inr ⟨path, rfl, hrev, by simp [hone, Manifest.record]⟩

end Fields

theorem storeCommitPerPath_diskIo (order : IterOrder) (manifestPath : Path) {store : AttachStore}
    (hmem : store.memoryOnly = false) {uri : Bytes} (data : Bytes) {expectedRev : UInt64}
    {path : Path} (hpath : uriToPath (cstr uri) pathCap = some path)
    (hrev : store.manifest.revisionOf (cstr uri) = expectedRev) (d : AttachDisk) :
    let m :=
      { store.manifest.record (cstr uri) (expectedRev + 1) path with
        batchEpoch := store.manifest.batchEpoch + 1 }
    storeCommitPerPath (diskIo order manifestPath) store uri data expectedRev d =
      (.ok, { store with manifest := m },
        saveManifestFileSync order manifestPath m (writeFileAtomicDisk path data d)) := by
  simp [storeCommitPerPath, commitOne, saveManifest, hpath, hrev, hmem, diskIo, Manifest.record]

/-- The disk steps of `batch_commit` before the flip: the WAL batch and the
staging files. -/
def stageSteps (io : PersistIo AttachDisk) (store : AttachStore) :
    List (AttachDisk → AttachDisk) :=
  let nextEpoch := store.manifest.batchEpoch + 1
  (fun d => (io.walAppendBatch nextEpoch (store.staged.map (·.walEntry nextEpoch)) d).2) ::
    store.staged.map fun e d => (io.writeFileAtomic (e.stagingPath nextEpoch) e.data d).2

def flipSteps (io : PersistIo AttachDisk) (store : AttachStore) :
    List (AttachDisk → AttachDisk) :=
  let nextEpoch := store.manifest.batchEpoch + 1
  [fun d => (io.walAppendPhaseMark nextEpoch walPhaseCommit 0 d).2,
    fun d => (io.saveManifestFile (flipManifest store.manifest nextEpoch store.staged) d).2,
    fun d => (io.walAppendCommitted nextEpoch d).2,
    fun d => (io.walRotate nextEpoch d).2,
    fun d => (io.walPurge nextEpoch store.walLastPurgeThrough d).2]

def batchCommitSteps (order : IterOrder) (manifestPath : Path) (store : AttachStore) :
    List (AttachDisk → AttachDisk) :=
  stageSteps (diskIo order manifestPath) store ++ flipSteps (diskIo order manifestPath) store

/-- What `batch_commit` checks before it writes anything. -/
structure Commits (store : AttachStore) : Prop where
  fileBacked : store.memoryOnly = false
  batchOpen : store.batchOpen = true
  cas : casHolds store.manifest store.staged = true
  append : (walAppendBatch (store.manifest.batchEpoch + 1)
    (store.staged.map (·.walEntry (store.manifest.batchEpoch + 1)))).2 = .ok

section DiskSteps

variable {order : IterOrder} {manifestPath : Path} {store : AttachStore}

theorem writeStagingFiles_diskIo (nextEpoch : UInt64) (es : List StagedEntry) (d : AttachDisk) :
    writeStagingFiles (diskIo order manifestPath) nextEpoch es d =
      (.ok, runSteps (es.map fun e d =>
        ((diskIo order manifestPath).writeFileAtomic (e.stagingPath nextEpoch) e.data d).2) d) := by
  induction es generalizing d with
  | nil => rfl
  | cons e es ih =>
      rw [writeStagingFiles, List.map_cons, runSteps_cons, ← ih]
      rfl

theorem writeStagingFiles_crashIo (nextEpoch : UInt64) (es : List StagedEntry) (k : Nat)
    (d : AttachDisk) :
    writeStagingFiles (crashIo (diskIo order manifestPath)) nextEpoch es (k, d) =
      (.ok, k - es.length, crashAfter k (es.map fun e d =>
        ((diskIo order manifestPath).writeFileAtomic (e.stagingPath nextEpoch) e.data d).2) d) := by
  induction es generalizing k d with
  | nil => simp [writeStagingFiles]
  | cons e es ih =>
      cases k with
      | zero =>
          rw [writeStagingFiles]
          simpa [crashIo] using ih 0 d
      | succ k =>
          rw [writeStagingFiles, List.map_cons, crashAfter_succ_cons, List.length_cons,
            Nat.add_sub_add_right, ← ih]
          rfl

theorem storeBatchFlip_diskIo (order : IterOrder) (manifestPath : Path) (hmem : store.memoryOnly = false) (d : AttachDisk) :
    (storeBatchFlip (diskIo order manifestPath) store d).1 = .ok ∧
      (storeBatchFlip (diskIo order manifestPath) store d).2.2 =
        runSteps (flipSteps (diskIo order manifestPath) store) d := by
  have hcommitted : (walAppendCommitted (store.manifest.batchEpoch + 1)).2 = .ok :=
    WalAppend.succeeds_committed _
  simp [storeBatchFlip, saveManifest, walMarkCommitted, purgeWalForStore, hmem, diskIo, flipSteps,
    hcommitted, flipManifest]

theorem storeBatchFlip_crashIo (hmem : store.memoryOnly = false) (k : Nat) (d : AttachDisk) :
    (storeBatchFlip (crashIo (diskIo order manifestPath)) store (k, d)).2.2.2 =
      crashAfter k (flipSteps (diskIo order manifestPath) store) d := by
  have hcommitted : (walAppendCommitted (store.manifest.batchEpoch + 1)).2 = .ok :=
    WalAppend.succeeds_committed _
  match k with
  | 0 => simp [storeBatchFlip, saveManifest, walMarkCommitted, purgeWalForStore, hmem, crashIo]
  | 1 =>
      simp [storeBatchFlip, saveManifest, walMarkCommitted, purgeWalForStore, hmem, crashIo, diskIo,
        flipSteps]
  | 2 =>
      simp [storeBatchFlip, saveManifest, walMarkCommitted, purgeWalForStore, hmem, crashIo, diskIo,
        flipSteps]
  | 3 =>
      simp [storeBatchFlip, saveManifest, walMarkCommitted, purgeWalForStore, hmem, crashIo, diskIo,
        flipSteps, hcommitted]
  | 4 =>
      simp [storeBatchFlip, saveManifest, walMarkCommitted, purgeWalForStore, hmem, crashIo, diskIo,
        flipSteps, hcommitted]
  | k + 5 =>
      simp [storeBatchFlip, saveManifest, walMarkCommitted, purgeWalForStore, hmem, crashIo, diskIo,
        flipSteps, hcommitted, flipManifest]

/-- **A batch commit takes its disk steps**, all of them. -/
theorem storeBatchCommit_diskIo (order : IterOrder) (manifestPath : Path) (h : Commits store) (d : AttachDisk) :
    (storeBatchCommit (diskIo order manifestPath) store d).1 = .ok ∧
      (storeBatchCommit (diskIo order manifestPath) store d).2.1.manifest =
        flipManifest store.manifest (store.manifest.batchEpoch + 1) store.staged ∧
      (storeBatchCommit (diskIo order manifestPath) store d).2.2 =
        runSteps (batchCommitSteps order manifestPath store) d := by
  have hrun : storeBatchCommit (diskIo order manifestPath) store d =
      storeBatchFlip (diskIo order manifestPath) store
        (runSteps (stageSteps (diskIo order manifestPath) store) d) := by
    unfold storeBatchCommit walAppendAndStage
    rw [if_neg (by simp [h.batchOpen]), if_neg (by simp [h.cas])]
    have happend : ((diskIo order manifestPath).walAppendBatch (store.manifest.batchEpoch + 1)
        (store.staged.map (·.walEntry (store.manifest.batchEpoch + 1))) d).1 = .ok := h.append
    simp [h.fileBacked, happend, writeStagingFiles_diskIo, stageSteps]
  obtain ⟨hok, hdisk⟩ := storeBatchFlip_diskIo order manifestPath h.fileBacked
    (runSteps (stageSteps (diskIo order manifestPath) store) d)
  rw [hrun, batchCommitSteps, runSteps_append]
  exact ⟨hok, (storeBatchFlip_store _ _ _).1, hdisk⟩

theorem crashBatchCommit_eq (h : Commits store) (k : Nat) (d : AttachDisk) :
    crashBatchCommit order manifestPath store k d =
      crashAfter k (batchCommitSteps order manifestPath store) d := by
  have hrun : storeBatchCommit (crashIo (diskIo order manifestPath)) store (k, d) =
      storeBatchFlip (crashIo (diskIo order manifestPath)) store
        (k - (stageSteps (diskIo order manifestPath) store).length,
          crashAfter k (stageSteps (diskIo order manifestPath) store) d) := by
    unfold storeBatchCommit walAppendAndStage
    rw [if_neg (by simp [h.batchOpen]), if_neg (by simp [h.cas])]
    have happend : ((diskIo order manifestPath).walAppendBatch (store.manifest.batchEpoch + 1)
        (store.staged.map (·.walEntry (store.manifest.batchEpoch + 1))) d).1 = .ok := h.append
    cases k with
    | zero => simp [h.fileBacked, writeStagingFiles_crashIo]
    | succ k => simp [h.fileBacked, happend, writeStagingFiles_crashIo, stageSteps]
  rw [crashBatchCommit, hrun, storeBatchFlip_crashIo h.fileBacked, batchCommitSteps,
    crashAfter_append]

theorem commits_of_ok (hmem : store.memoryOnly = false) {d : AttachDisk}
    (hok : (storeBatchCommit (diskIo order manifestPath) store d).1 = .ok) : Commits store := by
  unfold storeBatchCommit walAppendAndStage at hok
  split at hok
  · cases hok
  · rename_i hopen
    split at hok
    · cases hok
    · rename_i hcas
      refine ⟨hmem, by simpa using hopen, by simpa using hcas, ?_⟩
      by_contra happend
      have hfirst : ((diskIo order manifestPath).walAppendBatch (store.manifest.batchEpoch + 1)
          (store.staged.map (·.walEntry (store.manifest.batchEpoch + 1))) d).1 ≠ .ok := happend
      simp [hmem, hfirst] at hok

end DiskSteps

structure Accepted (m : Manifest) : Prop where
  uri : ∀ uri ∈ m.revisions, ∃ path, uriToPath uri pathCap = some path ∧ (0 : UInt8) ∉ uri
  path : ∀ uri p, m.canonicalPaths.lookup uri = some p →
    ∃ path, uriToPath uri pathCap = some path ∧
      (p = path ∨ ∃ epoch rev, p = makeStagingPath path epoch rev)
  keys : ∀ uri ∈ m.canonicalPaths, uri ∈ m.revisions

theorem Accepted.empty : Accepted {} where
  uri uri h := absurd h Finmap.notMem_empty
  path uri p h := by simp at h
  keys uri h := absurd h Finmap.notMem_empty

theorem Accepted.record {m : Manifest} (h : Accepted m) {uri : Bytes} {path p : Path} {rev : UInt64}
    (hpath : uriToPath uri pathCap = some path) (hnul : (0 : UInt8) ∉ uri)
    (hp : p = path ∨ ∃ epoch rev, p = makeStagingPath path epoch rev) :
    Accepted (m.record uri rev p) where
  uri uri' h' := by
    rcases Finmap.mem_insert.mp h' with rfl | h'
    · exact ⟨path, hpath, hnul⟩
    · exact h.uri uri' h'
  path uri' p' h' := by
    by_cases hu : uri' = uri
    · subst hu
      obtain rfl : p = p' := by simpa [Manifest.record] using h'
      exact ⟨path, hpath, hp⟩
    · rw [Manifest.record, Finmap.lookup_insert_of_ne _ hu] at h'
      exact h.path uri' p' h'
  keys uri' h' := by
    rcases Finmap.mem_insert.mp h' with rfl | h'
    · exact Finmap.mem_insert.mpr (Or.inl rfl)
    · exact Finmap.mem_insert.mpr (Or.inr (h.keys uri' h'))

theorem Accepted.withEpoch {m : Manifest} (h : Accepted m) (epoch : UInt64) :
    Accepted { m with batchEpoch := epoch } := ⟨h.uri, h.path, h.keys⟩

theorem Accepted.flip {m : Manifest} (h : Accepted m) (nextEpoch : UInt64)
    (staged : List StagedEntry) : Accepted (flipManifest m nextEpoch staged) := by
  have hfold : ∀ staged : List StagedEntry, ∀ m, Accepted m → Accepted (staged.foldl
      (fun m e => m.record e.uri (e.expectedRev + 1) (e.stagingPath nextEpoch)) m) := by
    intro staged
    induction staged with
    | nil => exact fun m h => h
    | cons e es ih =>
        exact fun m h => ih _ (h.record e.accepted e.noNul (Or.inr ⟨_, _, rfl⟩))
  exact (hfold staged m h).withEpoch nextEpoch

theorem Accepted.lineSafe {m : Manifest} (h : Accepted m) (hlf : ∀ uri ∈ m.revisions, LF ∉ uri) :
    ManifestRoundTrip.LineSafe m where
  uri_ne_nil uri huri := by
    obtain ⟨path, hpath, -⟩ := h.uri uri huri
    exact uri_ne_nil_of_uriToPath hpath
  uri_line uri huri := by
    obtain ⟨path, hpath, hnul⟩ := h.uri uri huri
    obtain ⟨-, -, hcap, hlen⟩ := uriToPath_spec hpath
    rw [cstr_eq_self hnul] at hlen
    rw [pathCap] at hcap
    exact ⟨hlf uri huri, by omega⟩
  path_line uri p hp := by
    have huri := h.keys uri (Finmap.mem_of_lookup_eq_some hp)
    obtain ⟨path, hpath, hshape⟩ := h.path uri p hp
    obtain ⟨-, -, hnul⟩ := h.uri uri huri
    obtain ⟨hsuffix, -, hcap, -⟩ := uriToPath_spec hpath
    rw [cstr_eq_self hnul] at hsuffix
    rw [pathCap] at hcap
    have hclean : LF ∉ path := fun hmem => hlf uri huri (hsuffix.subset hmem)
    rcases hshape with rfl | ⟨epoch, rev, rfl⟩
    · exact ⟨hclean, by omega⟩
    · have hlen := length_makeStagingPath_le path epoch rev
      have hdec : ∀ n, LF ∉ decimal n :=
        ManifestRoundTrip.lf_not_mem_numeral (by decide) (by decide)
      have htext : LF ∉ ascii ".bs.staging.e" ∧ LF ∉ ascii ".r" := by decide
      refine ⟨?_, by omega⟩
      simp only [makeStagingPath, List.mem_append, not_or]
      exact ⟨⟨⟨⟨hclean, htext.1⟩, hdec _⟩, htext.2⟩, hdec _⟩
  keys := h.keys

end BlessStar.Persistence.Proofs.StoreSteps
