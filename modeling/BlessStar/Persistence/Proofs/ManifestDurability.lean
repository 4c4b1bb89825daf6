import BlessStar.Persistence.Proofs.StoreSteps

/-!
# Durability of the manifest

What a later load makes of the manifest file: after a completed save, for every
state that accepted commits reach, and after a crash within a save.
-/

namespace BlessStar.Persistence.Proofs.ManifestDurability

open Lib.ByteString Lib.FileSystem Lib.Transition
open Persistence Persistence.Proofs.ManifestRoundTrip
open Persistence.Proofs.StoreSteps

def AcceptedWorld (w : StoreWorld) : Prop :=
  ∃ store, w.store = some store ∧ Accepted store.manifest

theorem loadManifestFileSync_fresh {d : AttachDisk} {manifestPath : Path}
    (h : d manifestPath = none) (m : Manifest) :
    loadManifestFileSync d manifestPath m = (.ok, {}, d) := by
  rw [loadManifestFileSync, if_pos h]

theorem storeOpen_of_load {manifestPath : Path} {d d' : AttachDisk} {m : Manifest}
    (h : loadManifestFileSync d manifestPath {} = (.ok, m, d')) :
    ∃ store, (storeOpen manifestPath d).1 = some store ∧ store.manifest = m ∧
      store.memoryOnly = false ∧ store.staged = [] ∧ store.batchOpen = false := by
  unfold storeOpen
  rw [h]
  exact ⟨_, rfl, rfl, rfl, rfl, rfl⟩

theorem AcceptedWorld.init {order : IterOrder} {manifestPath : Path} {d : AttachDisk}
    (h : d manifestPath = none) : AcceptedWorld (storeMachine order manifestPath d).init := by
  obtain ⟨store, hstore, hm, -⟩ := storeOpen_of_load (loadManifestFileSync_fresh h {})
  exact ⟨store, hstore, by rw [hm]; exact Accepted.empty⟩

theorem AcceptedWorld.step {order : IterOrder} {manifestPath : Path} {w w' : StoreWorld}
    {e : StoreEvent} (h : AcceptedWorld w) (he : e.InProcess)
    (hs : w.step order manifestPath e = some w') : AcceptedWorld w' := by
  obtain ⟨store, hstore, haccepted⟩ := h
  cases e with
  | reopen => exact he.elim
  | crashBatchCommit k => exact he.elim
  | commitPerPath uri data expectedRev =>
      simp only [StoreWorld.step, hstore, Option.map_some, Option.some.injEq] at hs
      subst hs
      refine ⟨_, rfl, ?_⟩
      rcases storeCommitPerPath_cases (diskIo order manifestPath) store uri data expectedRev
        w.disk with ⟨hsame, -⟩ | ⟨path, hpath, -, hnew⟩
      · rw [hsame]
        exact haccepted
      · rw [hnew]
        exact (haccepted.record hpath (not_zero_mem_cstr uri) (Or.inl rfl)).withEpoch _
  | batchBegin =>
      simp only [StoreWorld.step, hstore, Option.map_some, Option.some.injEq] at hs
      subst hs
      exact ⟨_, rfl, haccepted⟩
  | batchStage uri data expectedRev =>
      simp only [StoreWorld.step, hstore, Option.map_some, Option.some.injEq] at hs
      subst hs
      refine ⟨_, rfl, ?_⟩
      rcases batchStage_cases store uri data expectedRev with hrun | ⟨e, -, -, hrun⟩
      · rw [hrun]
        exact haccepted
      · rw [hrun]
        exact haccepted
  | batchCommit =>
      simp only [StoreWorld.step, hstore, Option.map_some, Option.some.injEq] at hs
      subst hs
      refine ⟨_, rfl, ?_⟩
      rcases storeBatchCommit_cases (diskIo order manifestPath) store w.disk with
        ⟨-, hrun⟩ | ⟨rc, s', -, hrun⟩ | ⟨-, -, s', hrun⟩
      · rw [hrun]
        exact haccepted
      · rw [hrun]
        exact haccepted
      · rw [hrun, (storeBatchFlip_store _ store s').1]
        exact haccepted.flip _ _
  | batchAbort =>
      simp only [StoreWorld.step, hstore, Option.map_some, Option.some.injEq] at hs
      subst hs
      exact ⟨_, rfl, haccepted⟩
  | appendPhaseMark batchEpoch phase uriSetHash =>
      simp only [StoreWorld.step, hstore, Option.map_some, Option.some.injEq] at hs
      subst hs
      exact ⟨store, rfl, haccepted⟩

/-- **Manifest round trip.**  In every state that calls of the API reach from a
fresh store, loading what a save writes gives the recorded fields back exactly
when no URI holds a line feed. -/
theorem manifest_round_trip_iff {order : IterOrder} {manifestPath : Path} {fresh : AttachDisk}
    (hfresh : fresh manifestPath = none) {w : StoreWorld}
    (hw : (storeMachine order manifestPath fresh).ReachableMeeting (fun _ e => e.InProcess) w)
    {store : AttachStore} (hstore : w.store = some store) (d : AttachDisk) (m₀ : Manifest) :
    loadManifestFromPath (saveManifestFileSync order manifestPath store.manifest d) manifestPath
        true m₀ = (.ok, store.manifest) ↔
      ∀ uri ∈ store.manifest.revisions, LF ∉ uri := by
  have hworld : AcceptedWorld w := Machine.ReachableMeeting.invariant (AcceptedWorld.init hfresh)
    (fun w e w' h he hs => h.step he hs) hw
  obtain ⟨store', hstore', haccepted⟩ := hworld
  obtain rfl : store' = store := Option.some.inj (hstore'.symm.trans hstore)
  constructor
  · exact lf_not_mem_of_loadManifestFromPath
  · intro hlf
    exact loadManifestFromPath_manifestText (haccepted.lineSafe hlf)
      (saveManifestFileSync_same order manifestPath store'.manifest d) true m₀

theorem reachable_commitPerPath (order : IterOrder) (manifestPath : Path) (fresh : AttachDisk)
    (hfresh : fresh manifestPath = none) (uri path : Bytes)
    (hpath : uriToPath (cstr uri) pathCap = some path) (data : Bytes) :
    ∃ w store,
      (storeMachine order manifestPath fresh).ReachableMeeting (fun _ e => e.InProcess) w ∧
      w.store = some store ∧ store.manifest.revisions = Finmap.insert (cstr uri) 1 ∅ := by
  obtain ⟨store, hstore, hm, hmem, -⟩ := storeOpen_of_load (loadManifestFileSync_fresh hfresh {})
  have hrev : store.manifest.revisionOf (cstr uri) = 0 := by
    rw [hm, Manifest.revisionOf, Finmap.lookup_empty]
    rfl
  have hcommit := storeCommitPerPath_diskIo order manifestPath hmem data hpath hrev
  have hinit := Machine.ReachableMeeting.init (storeMachine order manifestPath fresh)
    fun _ e => e.InProcess
  have hcall : (StoreEvent.commitPerPath uri data 0).InProcess := trivial
  have hstep := hinit.step hcall
    (by simp only [storeMachine, StoreWorld.step, StoreWorld.opened, hstore]; rfl)
  refine ⟨_, _, hstep, rfl, ?_⟩
  simp only [hcommit, hm, Manifest.record]
  rfl

/-- A committed URI with a line feed is not read back. -/
theorem manifest_line_feed_lost :
    ¬ ∀ (order : IterOrder) (manifestPath : Path) (fresh : AttachDisk),
      fresh manifestPath = none → ∀ (w : StoreWorld),
      (storeMachine order manifestPath fresh).ReachableMeeting (fun _ e => e.InProcess) w →
      ∀ store : AttachStore, w.store = some store → ∀ (d : AttachDisk) (m₀ : Manifest),
      loadManifestFromPath (saveManifestFileSync order manifestPath store.manifest d) manifestPath
        true m₀ = (.ok, store.manifest) := by
  intro h
  obtain ⟨w, store, hw, hstore, hrevs⟩ := reachable_commitPerPath IterOrder.someOrder (ascii "m")
    (fun _ => none) rfl (ascii "file://a\nb") (ascii "a\nb") rfl []
  have hload := h _ _ _ rfl w hw store hstore (fun _ => none) {}
  have hlost := lf_not_mem_of_loadManifestFromPath hload (ascii "file://a\nb")
    (by rw [hrevs]; exact Finmap.mem_insert.mpr (Or.inl rfl))
  exact hlost (by decide)

theorem manifest_round_trip_one_file :
    ∃ (w : StoreWorld) (store : AttachStore), w.store = some store ∧
      ascii "file://a" ∈ store.manifest.revisions ∧
      loadManifestFromPath
        (saveManifestFileSync IterOrder.someOrder (ascii "m") store.manifest fun _ => none)
        (ascii "m") true {} = (.ok, store.manifest) := by
  obtain ⟨w, store, hw, hstore, hrevs⟩ := reachable_commitPerPath IterOrder.someOrder (ascii "m")
    (fun _ => none) rfl (ascii "file://a") (ascii "a") rfl []
  refine ⟨w, store, hstore, ?_, (manifest_round_trip_iff rfl hw hstore _ _).mpr ?_⟩
  · rw [hrevs]
    exact Finmap.mem_insert.mpr (Or.inl rfl)
  · intro uri huri
    rw [hrevs] at huri
    rcases Finmap.mem_insert.mp huri with rfl | huri
    · decide
    · exact absurd huri Finmap.notMem_empty

def LoadsOneOf (d : AttachDisk) (manifestPath : Path) (old new : Manifest) : Prop :=
  (loadManifestFileSync d manifestPath {}).1 = .ok ∧
    ((loadManifestFileSync d manifestPath {}).2.1 = old ∨
      (loadManifestFileSync d manifestPath {}).2.1 = new)

/-- The disk after a save of `old` and the first `k` disk steps of a save of
`new`. -/
def crashedSave (order : IterOrder) (manifestPath : Path) (old new : Manifest) (d : AttachDisk)
    (k : Nat) : AttachDisk :=
  let saved := saveManifestFileSync order manifestPath old d
  crashAfter k (saveManifestSteps manifestPath (manifestText order new) saved) saved

theorem crashedSave_manifest (order : IterOrder) (manifestPath : Path) (old new : Manifest)
    (d : AttachDisk) (k : Nat) :
    crashedSave order manifestPath old new d k manifestPath =
      if k < 3 then some (manifestText order old)
      else if k = 3 then none
      else some (manifestText order new) := by
  have hold := saveManifestFileSync_same order manifestPath old d
  unfold crashedSave
  generalize saveManifestFileSync order manifestPath old d = saved at hold
  have hsome : (saved manifestPath).isSome := by rw [hold]; rfl
  have hcopy : copyFileSyncDisk manifestPath (prevPath manifestPath) saved manifestPath =
      some (manifestText order old) := by
    rw [copyFileSyncDisk_other (prevPath_ne manifestPath).symm, hold]
  simp only [saveManifestSteps, if_pos hsome, crashAfter, runSteps]
  obtain rfl | rfl | rfl | rfl | hk : k = 0 ∨ k = 1 ∨ k = 2 ∨ k = 3 ∨ 4 ≤ k := by omega
  · simpa using hold
  · simpa using hcopy
  · simpa [Disk.write_other (tmpPath_ne manifestPath).symm] using hcopy
  · simp
  · have hsave := saveManifestFileSync_same order manifestPath new saved
    simp only [saveManifestFileSync, saveManifestSteps, if_pos hsome, runSteps] at hsave
    rw [List.take_of_length_le (by simpa using hk), if_neg (by omega), if_neg (by omega)]
    exact hsave

/-- The manifest is gone between `remove` and `rename`; a fresh store then
loads the empty state. -/
theorem crash_before_rename_loads_empty :
    ¬ ∀ (order : IterOrder) (manifestPath : Path) (old new : Manifest) (d : AttachDisk) (k : Nat),
      LineSafe old → LineSafe new →
      LoadsOneOf (crashedSave order manifestPath old new d k) manifestPath old new := by
  intro h
  have hloads := h IterOrder.someOrder (ascii "m") { batchEpoch := 1 } { batchEpoch := 2 }
    (fun _ => none) 3 (LineSafe.empty.withEpoch 1) (LineSafe.empty.withEpoch 2)
  have hgone : crashedSave IterOrder.someOrder (ascii "m") { batchEpoch := 1 } { batchEpoch := 2 }
      (fun _ => none) 3 (ascii "m") = none := by
    rw [crashedSave_manifest]
    simp
  rw [LoadsOneOf, loadManifestFileSync_fresh hgone] at hloads
  rcases hloads.2 with heq | heq
  · exact absurd (congrArg Manifest.batchEpoch heq) (by decide)
  · exact absurd (congrArg Manifest.batchEpoch heq) (by decide)

/-- **Crash atomicity of a save.**  For states that fit the manifest's lines, a
fresh store loads the old or the new state exactly when the crash does not fall
between the removal of the manifest and the rename, or one of the states is the
empty one a missing manifest stands for. -/
theorem save_crash_atomic_iff {order : IterOrder} {manifestPath : Path} {old new : Manifest}
    (hold : LineSafe old) (hnew : LineSafe new) (d : AttachDisk) (k : Nat) :
    LoadsOneOf (crashedSave order manifestPath old new d k) manifestPath old new ↔
      k ≠ 3 ∨ old = {} ∨ new = {} := by
  have hdisk := crashedSave_manifest order manifestPath old new d k
  by_cases hlow : k < 3
  · rw [if_pos hlow] at hdisk
    rw [LoadsOneOf, loadManifestFileSync_manifestText hold hdisk]
    simp
    omega
  · rw [if_neg hlow] at hdisk
    by_cases hk : k = 3
    · rw [if_pos hk] at hdisk
      rw [LoadsOneOf, loadManifestFileSync_fresh hdisk]
      simp [hk, eq_comm]
    · rw [if_neg hk] at hdisk
      rw [LoadsOneOf, loadManifestFileSync_manifestText hnew hdisk]
      simp [hk]

theorem save_crash_atomic_first_save :
    LoadsOneOf (crashedSave IterOrder.someOrder (ascii "m") {} { batchEpoch := 1 }
      (fun _ => none) 3) (ascii "m") {} { batchEpoch := 1 } :=
  (save_crash_atomic_iff LineSafe.empty (LineSafe.empty.withEpoch 1) (fun _ => none) 3).mpr
    (Or.inr (Or.inl rfl))

end BlessStar.Persistence.Proofs.ManifestDurability
