import BlessStar.Persistence.Proofs.StoreFiles

/-!
# The writes of a batch

Which staged writes survive a batch commit that returns OK.  Each entry is
compared with the revision before the batch, and its file is named by path,
epoch and revision; entries that agree in those share one file.
-/

namespace BlessStar.Persistence.Proofs.BatchWrites

open Lib.ByteString Lib.FileSystem
open Persistence Persistence.Wal
open Persistence.Proofs.StoreSteps Persistence.Proofs.StoreFiles

section Staging

variable {order : IterOrder} {manifestPath : Path} {nextEpoch : UInt64}

def stageWrites (nextEpoch : UInt64) (es : List StagedEntry) : List (AttachDisk → AttachDisk) :=
  es.map fun e => writeFileAtomicDisk (e.stagingPath nextEpoch) e.data

theorem runSteps_stageWrites {q : Path} {data : Bytes} {es : List StagedEntry}
    (hagree : ∀ e ∈ es, e.stagingPath nextEpoch = q → e.data = data)
    (htmp : ∀ e : StagedEntry, q ≠ tmpPath (e.stagingPath nextEpoch)) (d : AttachDisk)
    (hq : (∃ e ∈ es, e.stagingPath nextEpoch = q) ∨ d q = some data) :
    runSteps (stageWrites nextEpoch es) d q = some data := by
  induction es generalizing d with
  | nil =>
      rcases hq with ⟨e, he, -⟩ | hq
      · cases he
      · exact hq
  | cons e es ih =>
      rw [stageWrites, List.map_cons, runSteps_cons]
      apply ih fun f hf => hagree f (by simp [hf])
      by_cases he : e.stagingPath nextEpoch = q
      · right
        rw [he, hagree e (by simp) he, writeFileAtomicDisk_same]
      · rcases hq with ⟨f, hf, hfq⟩ | hq
        · rcases List.mem_cons.mp hf with rfl | hf
          · exact absurd hfq he
          · exact Or.inl ⟨f, hf, hfq⟩
        · right
          rw [writeFileAtomicDisk_other (Ne.symm he) (htmp e), hq]

theorem stageSteps_eq (store : AttachStore) :
    stageSteps (diskIo order manifestPath) store =
      (fun d => ((diskIo order manifestPath).walAppendBatch (store.manifest.batchEpoch + 1)
        (store.staged.map (·.walEntry (store.manifest.batchEpoch + 1))) d).2) ::
        stageWrites (store.manifest.batchEpoch + 1) store.staged := rfl

end Staging

section Flip

variable (m : Manifest) (nextEpoch : UInt64) {staged : List StagedEntry}

theorem foldl_record_lookup (nextEpoch : UInt64) (staged : List StagedEntry) (m : Manifest)
    (uri : Bytes) :
    let m' := staged.foldl
      (fun m e => m.record e.uri (e.expectedRev + 1) (e.stagingPath nextEpoch)) m
    (uri ∉ staged.map (·.uri) →
      m'.revisions.lookup uri = m.revisions.lookup uri ∧
        m'.canonicalPaths.lookup uri = m.canonicalPaths.lookup uri) ∧
    (uri ∈ staged.map (·.uri) → ∃ e ∈ staged, e.uri = uri ∧
      m'.revisions.lookup uri = some (e.expectedRev + 1) ∧
        m'.canonicalPaths.lookup uri = some (e.stagingPath nextEpoch)) := by
  induction staged generalizing m with
  | nil => simp
  | cons e es ih =>
      obtain ⟨ihNot, ihMem⟩ := ih (m.record e.uri (e.expectedRev + 1) (e.stagingPath nextEpoch))
      simp only [List.foldl_cons, List.map_cons, List.mem_cons, not_or]
      refine ⟨fun hnot => ?_, fun hmem => ?_⟩
      · obtain ⟨hrev, hpath⟩ := ihNot hnot.2
        rw [hrev, hpath]
        exact ⟨Finmap.lookup_insert_of_ne _ hnot.1, Finmap.lookup_insert_of_ne _ hnot.1⟩
      · by_cases htail : uri ∈ es.map (·.uri)
        · obtain ⟨f, hf, hrest⟩ := ihMem htail
          exact ⟨f, Or.inr hf, hrest⟩
        · obtain rfl : uri = e.uri := hmem.resolve_right htail
          obtain ⟨hrev, hpath⟩ := ihNot htail
          refine ⟨e, Or.inl rfl, rfl, ?_, ?_⟩
          · rw [hrev]
            exact Finmap.lookup_insert _
          · rw [hpath]
            exact Finmap.lookup_insert _

theorem flipManifest_staged {uri : Bytes} (h : uri ∈ staged.map (·.uri)) :
    ∃ e ∈ staged, e.uri = uri ∧
      (flipManifest m nextEpoch staged).revisionOf uri = e.expectedRev + 1 ∧
      (flipManifest m nextEpoch staged).canonicalPaths.lookup uri =
        some (e.stagingPath nextEpoch) := by
  obtain ⟨e, he, huri, hrev, hpath⟩ := (foldl_record_lookup nextEpoch staged m uri).2 h
  refine ⟨e, he, huri, ?_, hpath⟩
  rw [Manifest.revisionOf, flipManifest, hrev]
  rfl

theorem flipManifest_other {uri : Bytes} (h : uri ∉ staged.map (·.uri)) :
    (flipManifest m nextEpoch staged).revisionOf uri = m.revisionOf uri ∧
      (flipManifest m nextEpoch staged).canonicalPaths.lookup uri =
        m.canonicalPaths.lookup uri := by
  obtain ⟨hrev, hpath⟩ := (foldl_record_lookup nextEpoch staged m uri).1 h
  exact ⟨by rw [Manifest.revisionOf, flipManifest, hrev]; rfl, hpath⟩

theorem flipManifest_revisionOf (hcas : casHolds m staged = true) {e : StagedEntry}
    (he : e ∈ staged) :
    (flipManifest m nextEpoch staged).revisionOf e.uri = m.revisionOf e.uri + 1 := by
  obtain ⟨f, hf, huri, hrev, -⟩ :=
    flipManifest_staged m nextEpoch (List.mem_map_of_mem he)
  have hexpected : m.revisionOf f.uri = f.expectedRev := by
    simpa using List.all_eq_true.mp hcas f hf
  rw [hrev, ← hexpected, huri]

end Flip

/-- The entry's data is in the file of its URI, and the revision of the URI has
advanced by the number of its entries. -/
def Kept (before after : Manifest) (d : AttachDisk) (staged : List StagedEntry)
    (e : StagedEntry) : Prop :=
  (∃ p, after.canonicalPaths.lookup e.uri = some p ∧ d p = some e.data) ∧
    after.revisionOf e.uri =
      before.revisionOf e.uri + UInt64.ofNat (staged.countP fun f => f.uri = e.uri)

theorem countP_uri (staged : List StagedEntry) (uri : Bytes) :
    (staged.countP fun f => f.uri = uri) = (staged.map (·.uri)).count uri := by
  rw [List.count, List.countP_map]
  congr 1
  funext f
  exact (beq_eq_decide f.uri uri).symm

theorem nodup_of_revisions {staged : List StagedEntry} (hlen : staged.length < 2 ^ 64)
    (h : ∀ e ∈ staged, (1 : UInt64) = UInt64.ofNat (staged.countP fun f => f.uri = e.uri)) :
    (staged.map (·.uri)).Nodup := by
  rw [List.nodup_iff_count_le_one]
  intro uri
  by_cases huri : uri ∈ staged.map (·.uri)
  · obtain ⟨e, he, rfl⟩ := List.mem_map.mp huri
    have hle : (staged.countP fun f => f.uri = e.uri) ≤ staged.length := List.countP_le_length
    have hone := congrArg UInt64.toNat (h e he)
    rw [UInt64.toNat_ofNat', Nat.mod_eq_of_lt (by omega), countP_uri] at hone
    exact hone.symm.le
  · rw [List.count_eq_zero_of_not_mem huri]
    omega

theorem length_lt_of_commits {store : AttachStore} (h : Commits store) :
    store.staged.length < 2 ^ 64 := by
  obtain ⟨-, hcount, -⟩ := (walAppendBatch_ok_iff _ _).mp h.append
  rw [List.length_map] at hcount
  omega

theorem runSteps_batchCommitSteps {order : IterOrder} {manifestPath : Path} {store : AttachStore}
    {e : StagedEntry} (he : e ∈ store.staged)
    (hagree : ∀ f ∈ store.staged, f.path = e.path → f.expectedRev = e.expectedRev →
      f.data = e.data)
    (hne : e.stagingPath (store.manifest.batchEpoch + 1) ≠ manifestPath) (d : AttachDisk) :
    runSteps (batchCommitSteps order manifestPath store) d
      (e.stagingPath (store.manifest.batchEpoch + 1)) = some e.data := by
  have hshared : ∀ f ∈ store.staged, f.stagingPath (store.manifest.batchEpoch + 1) =
      e.stagingPath (store.manifest.batchEpoch + 1) → f.data = e.data := by
    intro f hf hpath
    obtain ⟨hbase, -, hrev⟩ := makeStagingPath_inj hpath
    exact hagree f hf hbase (by simpa using hrev)
  have hown : ¬OwnFile manifestPath (e.stagingPath (store.manifest.batchEpoch + 1)) :=
    not_ownFile_makeStagingPath hne
  rw [batchCommitSteps, runSteps_append, runSteps_other (flipSteps_other store hown),
    stageSteps_eq, runSteps_cons]
  exact runSteps_stageWrites hshared (fun f => makeStagingPath_ne_tmpPath _ _ _ _) _
    (Or.inl ⟨e, he, rfl⟩)

/-- **Accepted writes.**  Of a batch whose commit returns OK every write is kept
exactly when no URI is staged twice, entries with one path and one revision
have the same data, and no staging file takes the place of the manifest. -/
theorem batch_commit_keeps_iff (order : IterOrder) (manifestPath : Path) {store : AttachStore}
    (hmem : store.memoryOnly = false) {d : AttachDisk}
    (hok : (storeBatchCommit (diskIo order manifestPath) store d).1 = .ok) :
    (∀ e ∈ store.staged,
      Kept store.manifest (storeBatchCommit (diskIo order manifestPath) store d).2.1.manifest
        (storeBatchCommit (diskIo order manifestPath) store d).2.2 store.staged e) ↔
    (store.staged.map (·.uri)).Nodup ∧
      (∀ e ∈ store.staged, ∀ f ∈ store.staged, f.path = e.path → f.expectedRev = e.expectedRev →
        f.data = e.data) ∧
      ∀ e ∈ store.staged, e.stagingPath (store.manifest.batchEpoch + 1) = manifestPath →
        e.data = manifestText order (flipManifest store.manifest (store.manifest.batchEpoch + 1)
          store.staged) := by
  have hcommits := commits_of_ok hmem hok
  obtain ⟨-, hmanifest, hdisk⟩ :=
    storeBatchCommit_diskIo order manifestPath hcommits d
  rw [hmanifest, hdisk]
  set next := store.manifest.batchEpoch + 1 with hnext
  set after := flipManifest store.manifest next store.staged with hafter
  set final := runSteps (batchCommitSteps order manifestPath store) d with hfinal
  have hmanifestFile : final manifestPath = some (manifestText order after) := by
    rw [hfinal, batchCommitSteps, runSteps_append, flipSteps_manifest]
  -- without repeated URIs the file of an entry's URI is its own staging file
  have hown : (store.staged.map (·.uri)).Nodup → ∀ e ∈ store.staged,
      after.canonicalPaths.lookup e.uri = some (e.stagingPath next) := by
    intro hnodup e he
    obtain ⟨f, hf, huri, -, hpath⟩ :=
      flipManifest_staged store.manifest next (List.mem_map_of_mem he)
    rw [hafter, hpath, List.inj_on_of_nodup_map hnodup hf he huri]
  constructor
  · intro hkept
    have hnodup : (store.staged.map (·.uri)).Nodup := by
      apply nodup_of_revisions (length_lt_of_commits hcommits)
      intro e he
      have hrev := (hkept e he).2
      rw [hafter, flipManifest_revisionOf _ _ hcommits.cas he] at hrev
      simpa using hrev
    have hfile : ∀ e ∈ store.staged, final (e.stagingPath next) = some e.data := by
      intro e he
      obtain ⟨⟨p, hp, hdata⟩, -⟩ := hkept e he
      rw [hown hnodup e he] at hp
      rwa [Option.some.inj hp]
    refine ⟨hnodup, fun e he f hf hpath hrev => ?_, fun e he hpath => ?_⟩
    · have hsame : f.stagingPath next = e.stagingPath next := by
        rw [StagedEntry.stagingPath, StagedEntry.stagingPath, hpath, hrev]
      have hdata := hfile f hf
      rw [hsame, hfile e he] at hdata
      exact (Option.some.inj hdata).symm
    · have hdata := hfile e he
      rw [hpath, hmanifestFile] at hdata
      exact (Option.some.inj hdata).symm
  · rintro ⟨hnodup, hagree, hmanifestData⟩ e he
    refine ⟨⟨e.stagingPath next, hown hnodup e he, ?_⟩, ?_⟩
    · by_cases hpath : e.stagingPath next = manifestPath
      · rw [hpath, hmanifestFile, hmanifestData e he hpath]
      · exact runSteps_batchCommitSteps he (hagree e he) hpath d
    · rw [countP_uri, List.count_eq_one_of_mem hnodup (List.mem_map_of_mem he), hafter,
        flipManifest_revisionOf _ _ hcommits.cas he]
      rfl

/-- A first write of `file://a`. -/
def firstWrite (data : Bytes) : StagedEntry := ⟨ascii "file://a", ascii "a", data, 0, rfl, by decide⟩

def firstWrites (datas : List Bytes) : AttachStore :=
  { batchOpen := true, staged := datas.map firstWrite }

/-- Both writes pass the check against revision `0`, and the revision advances
by one. -/
theorem repeated_uri_loses_write :
    ¬ ∀ (order : IterOrder) (manifestPath : Path) (store : AttachStore), store.memoryOnly = false →
      ∀ d : AttachDisk, (storeBatchCommit (diskIo order manifestPath) store d).1 = .ok →
      ∀ e ∈ store.staged,
        Kept store.manifest (storeBatchCommit (diskIo order manifestPath) store d).2.1.manifest
          (storeBatchCommit (diskIo order manifestPath) store d).2.2 store.staged e := by
  intro h
  have hcommits : Commits (firstWrites [[1], [2]]) := ⟨rfl, rfl, by decide, by decide⟩
  obtain ⟨hok, hmanifest, -⟩ := storeBatchCommit_diskIo IterOrder.someOrder (ascii "m") hcommits
    fun _ => none
  have hfirst : firstWrite [1] ∈ (firstWrites [[1], [2]]).staged := List.mem_cons_self
  have hrev := (h _ _ _ rfl _ hok _ hfirst).2
  rw [hmanifest, flipManifest_revisionOf _ _ hcommits.cas hfirst] at hrev
  exact absurd hrev (by decide)

theorem batch_commit_keeps_single :
    Kept {} (storeBatchCommit (diskIo IterOrder.someOrder (ascii "m")) (firstWrites [[1]])
        fun _ => none).2.1.manifest
      (storeBatchCommit (diskIo IterOrder.someOrder (ascii "m")) (firstWrites [[1]])
        fun _ => none).2.2 (firstWrites [[1]]).staged (firstWrite [1]) := by
  have hcommits : Commits (firstWrites [[1]]) := ⟨rfl, rfl, by decide, by decide⟩
  have hok := (storeBatchCommit_diskIo IterOrder.someOrder (ascii "m") hcommits fun _ => none).1
  refine (batch_commit_keeps_iff IterOrder.someOrder (ascii "m") rfl hok).mpr
    ⟨by decide, ?_, ?_⟩ (firstWrite [1]) List.mem_cons_self
  · intro e he f hf _ _
    rw [List.mem_singleton.mp he, List.mem_singleton.mp hf]
  · intro e he hpath
    rw [List.mem_singleton.mp he] at hpath
    exact absurd hpath (by decide)

end BlessStar.Persistence.Proofs.BatchWrites
