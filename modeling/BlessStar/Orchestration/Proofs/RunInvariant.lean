import BlessStar.Orchestration.ReloadBatch

/-!
# What a run keeps

A property of the state around the controller that no function of the
environment breaks holds after a run when it holds before.
-/

namespace BlessStar.Orchestration.Proofs.RunInvariant

open Lib.ByteString Persistence Orchestration

variable {σ : Type} {U : Bytes → Prop} {P : σ → Prop}

/-- No file operation breaks `P`. -/
structure IoKeeps (P : σ → Prop) (io : PersistIo σ) : Prop where
  walAppendBatch : ∀ epoch es s, P s → P (io.walAppendBatch epoch es s).2
  writeFileAtomic : ∀ path data s, P s → P (io.writeFileAtomic path data s).2
  walAppendPhaseMark : ∀ epoch phase hash s, P s → P (io.walAppendPhaseMark epoch phase hash s).2
  saveManifestFile : ∀ m s, P s → P (io.saveManifestFile m s).2
  walAppendCommitted : ∀ epoch s, P s → P (io.walAppendCommitted epoch s).2
  walRotate : ∀ epoch s, P s → P (io.walRotate epoch s).2
  walPurge : ∀ epoch last s, P s → P (io.walPurge epoch last s).2
  loadManifestFile : ∀ m s, P s → P (io.loadManifestFile m s).2.2

/-- No function of the kernel pool breaks `P`. -/
structure PoolKeeps (P : σ → Prop) (env : ReloadEnv σ) : Prop where
  snapshotPublish : ∀ uri rev s, P s → P (env.snapshotPublish uri rev s).2
  execParsedIr : ∀ handle s, P s → P (env.execParsedIr handle s).2
  snapshotRemove : ∀ handle s, P s → P (env.snapshotRemove handle s).2
  snapshotClearAll : ∀ s, P s → P (env.snapshotClearAll s)

/-- No function that the controller calls breaks `P`, where the URIs that are synced
are in `U`. -/
structure EnvKeeps (U : Bytes → Prop) (P : σ → Prop) (env : ReloadEnv σ) : Prop where
  io : IoKeeps P env.io
  pool : PoolKeeps P env
  openStore : ∀ path s, P s → P (env.openStore path s).2
  sidecarInvalidate : ∀ path s, P s → P (env.sidecarInvalidate path s)
  gatePathWork : ∀ uri data s, P s → P (env.gatePathWork uri data s).2
  configSyncPath : ∀ uri data s, U uri → P s → P (env.configSyncPath uri data s).2
  postConfigSync : ∀ uri rev s, P s → P (env.postConfigSync uri rev s).2

/-! ## Frames -/

section Frame

variable {τ : Type} {Q : τ → Prop} {F : StateFrame τ σ}

theorem ioKeeps_frame (h : ∀ t s, Q t → Q (F.put s t)) (io : PersistIo σ) :
    IoKeeps Q (framePersistIo F io) where
  walAppendBatch _ _ t := h t _
  writeFileAtomic _ _ t := h t _
  walAppendPhaseMark _ _ _ t := h t _
  saveManifestFile _ t := h t _
  walAppendCommitted _ t := h t _
  walRotate _ t := h t _
  walPurge _ _ t := h t _
  loadManifestFile _ t := h t _

theorem envKeeps_frame (h : ∀ t s, Q t → Q (F.put s t)) (env : ReloadEnv σ) :
    EnvKeeps U Q (env.frame F) where
  io := ioKeeps_frame h env.io
  pool :=
    { snapshotPublish := fun _ _ t => h t _
      execParsedIr := fun _ t => h t _
      snapshotRemove := fun _ t => h t _
      snapshotClearAll := fun t => h t _ }
  openStore _ t := h t _
  sidecarInvalidate _ t := h t _
  gatePathWork _ _ t := h t _
  configSyncPath _ _ t _ := h t _
  postConfigSync _ _ t := h t _

end Frame

/-! ## The store -/

section Store

variable {io : PersistIo σ} {s : σ}

theorem keeps_writeStagingFiles (h : IoKeeps P io) (epoch : UInt64) (es : List StagedEntry)
    (hs : P s) : P (writeStagingFiles io epoch es s).2 := by
  induction es generalizing s with
  | nil => exact hs
  | cons e es ih =>
      have hwrite := h.writeFileAtomic (e.stagingPath epoch) e.data s hs
      rw [writeStagingFiles]
      split
      · exact hwrite
      · exact ih hwrite

theorem keeps_walAppendAndStage (h : IoKeeps P io) (epoch : UInt64) (es : List StagedEntry)
    (hs : P s) : P (walAppendAndStage io epoch es s).2 := by
  have happend := h.walAppendBatch epoch (es.map (·.walEntry epoch)) s hs
  rw [walAppendAndStage]
  split
  · exact happend
  · exact keeps_writeStagingFiles h epoch es happend

theorem keeps_walMarkCommitted (h : IoKeeps P io) (epoch : UInt64) (hs : P s) :
    P (walMarkCommitted io epoch s).2 := by
  have happend := h.walAppendCommitted epoch s hs
  rw [walMarkCommitted]
  split
  · exact happend
  · exact h.walRotate epoch _ happend

theorem keeps_saveManifest (h : IoKeeps P io) (store : AttachStore) (hs : P s) :
    P (saveManifest io store s).2 := by
  rw [saveManifest]
  split
  · exact hs
  · exact h.saveManifestFile store.manifest s hs

theorem keeps_purgeWalForStore (h : IoKeeps P io) (store : AttachStore) (hs : P s) :
    P (purgeWalForStore io store s).2 := by
  rw [purgeWalForStore]
  split
  · exact hs
  · exact h.walPurge store.manifest.batchEpoch store.walLastPurgeThrough s hs

theorem keeps_storeCommitPerPath (h : IoKeeps P io) (store : AttachStore) (uri data : Bytes)
    (rev : UInt64) (hs : P s) : P (storeCommitPerPath io store uri data rev s).2.2 := by
  unfold storeCommitPerPath
  split
  · exact hs
  · rename_i path hpath
    have hone : P (commitOne io store (cstr uri) path data rev s).2.2 := by
      unfold commitOne
      split
      · exact hs
      · have hwrite : P (if store.memoryOnly then (AttachStatus.ok, s)
            else io.writeFileAtomic path data s).2 := by
          split
          · exact hs
          · exact h.writeFileAtomic path data s hs
        dsimp only
        generalize (if store.memoryOnly then (AttachStatus.ok, s)
            else io.writeFileAtomic path data s) = wr at hwrite ⊢
        split
        · exact hwrite
        · exact hwrite
    dsimp only
    split
    · exact hone
    · exact keeps_saveManifest h _ hone

theorem keeps_storeBatchFlip (h : IoKeeps P io) (store : AttachStore) (hs : P s) :
    P (storeBatchFlip io store s).2.2 := by
  have hmark : P (if store.memoryOnly then s
      else (io.walAppendPhaseMark (store.manifest.batchEpoch + 1) walPhaseCommit 0 s).2) := by
    split
    · exact hs
    · exact h.walAppendPhaseMark _ _ _ s hs
  unfold storeBatchFlip
  dsimp only
  generalize (if store.memoryOnly then s
      else (io.walAppendPhaseMark (store.manifest.batchEpoch + 1) walPhaseCommit 0 s).2)
    = marked at hmark ⊢
  have hman := keeps_saveManifest h { store with
    manifest := flipManifest store.manifest (store.manifest.batchEpoch + 1) store.staged
    batchOpen := false
    staged := [] } hmark
  split
  · exact hman
  · apply keeps_purgeWalForStore h
    split
    · exact hman
    · exact keeps_walMarkCommitted h _ hman

theorem keeps_storeBatchCommit (h : IoKeeps P io) (store : AttachStore) (hs : P s) :
    P (storeBatchCommit io store s).2.2 := by
  have hpre : P (if store.memoryOnly then (AttachStatus.ok, s)
      else walAppendAndStage io (store.manifest.batchEpoch + 1) store.staged s).2 := by
    split
    · exact hs
    · exact keeps_walAppendAndStage h _ _ hs
  unfold storeBatchCommit
  dsimp only
  generalize (if store.memoryOnly then (AttachStatus.ok, s)
      else walAppendAndStage io (store.manifest.batchEpoch + 1) store.staged s) = pre at hpre ⊢
  split
  · exact hs
  split
  · exact hs
  split
  · exact hpre
  · exact keeps_storeBatchFlip h store hpre

theorem keeps_storeAppendPhaseMark (h : IoKeeps P io) (store : AttachStore) (epoch : UInt64)
    (phase hash : UInt32) (hs : P s) : P (storeAppendPhaseMark io store epoch phase hash s).2 := by
  rw [storeAppendPhaseMark]
  split
  · exact hs
  · exact h.walAppendPhaseMark epoch phase hash s hs

theorem keeps_storeReloadManifest (h : IoKeeps P io) (store : AttachStore) (hs : P s) :
    P (storeReloadManifest io store s).2.2 := by
  rw [storeReloadManifest]
  split
  · exact hs
  · exact h.loadManifestFile store.manifest s hs

end Store

/-! ## The paths -/

section Run

variable {env : ReloadEnv σ} {ctrl : ReloadBatchController σ} {b : BatchRun σ} {s : σ}
  {readFn : ReloadPathReadFn σ}

theorem keeps_writePhaseMark (h : EnvKeeps U P env) (ctrl : ReloadBatchController σ)
    (phase : WalRecoverPhase) (hs : P b.s) : P (writePhaseMark env ctrl b phase).2.s := by
  unfold writePhaseMark
  split
  · exact hs
  · exact keeps_storeAppendPhaseMark h.io b.store _ _ _ hs

theorem keeps_runReadWithRetry (hread : ∀ uri s, P s → P (readFn uri s).2) (uri : Bytes)
    (retries : Nat) (hs : P s) : P (runReadWithRetry readFn uri retries s).2 := by
  induction retries generalizing s with
  | zero => exact hread uri s hs
  | succ n ih =>
      have hnext := hread uri s hs
      rw [runReadWithRetry]
      split
      · rename_i heq
        rw [heq] at hnext
        exact hnext
      · rename_i heq
        rw [heq] at hnext
        exact ih hnext

theorem keeps_publishPathIr (h : PoolKeeps P env) (w : PathWork) (hs : P s) :
    P (publishPathIr env w s).2.2 := by
  unfold publishPathIr
  split
  · exact hs
  · exact h.snapshotPublish w.uri w.baseRevision s hs

theorem keeps_execPathIr (h : PoolKeeps P env) (w : PathWork) (hs : P b.s) :
    P (execPathIr env w b).2.2.s := by
  have hexec := h.execParsedIr w.irSnapshotHandle b.s hs
  unfold execPathIr
  dsimp only
  split
  · exact hs
  split
  · exact hexec
  split
  · exact h.snapshotRemove _ _ hexec
  · exact h.snapshotRemove _ _ hexec

theorem keeps_configSync (h : EnvKeeps U P env) (store : AttachStore) {uri : Bytes} (data : Bytes)
    (huri : U uri) (hs : P s) : P (configSync env store uri data s).2 := by
  have hsync := h.configSyncPath uri data s huri hs
  unfold configSync
  dsimp only
  split
  · exact hs
  split
  · exact hsync
  · exact h.postConfigSync _ _ _ hsync

theorem isSome_of_storeCommitPerPath {io : PersistIo σ} {store : AttachStore} {uri data : Bytes}
    {rev : UInt64} {s : σ} (h : (storeCommitPerPath io store uri data rev s).1 = .ok) :
    (uriToPath (cstr uri) pathCap).isSome := by
  unfold storeCommitPerPath at h
  split at h
  · cases h
  · rename_i path hpath
    rw [hpath]
    rfl

theorem keeps_persistPerPath (h : EnvKeeps U P env) {w : PathWork} (data : Bytes)
    (hw : (uriToPath (cstr w.uri) pathCap).isSome → U w.uri) (hs : P b.s) : P (persistPerPath env w data b).2.2.s := by
  have hcommit := keeps_storeCommitPerPath h.io b.store w.uri data w.baseRevision hs
  unfold persistPerPath
  dsimp only
  split
  · exact hcommit
  · rename_i hok
    exact keeps_configSync h _ _ (hw (isSome_of_storeCommitPerPath (not_not.mp hok))) hcommit

theorem uri_publishPathIr (env : ReloadEnv σ) (w : PathWork) (s : σ) :
    (publishPathIr env w s).2.1.uri = w.uri := by
  unfold publishPathIr
  split
  · rfl
  · rfl

theorem uri_execPathIr (env : ReloadEnv σ) (w : PathWork) (b : BatchRun σ) :
    (execPathIr env w b).2.1.uri = w.uri := by
  unfold execPathIr
  dsimp only
  split
  · rfl
  split
  · rfl
  split
  · rfl
  · rfl

theorem keeps_stagePath (h : EnvKeeps U P env) (ctrl : ReloadBatchController σ) {w : PathWork}
    (data : Bytes) (hw : (uriToPath (cstr w.uri) pathCap).isSome → U w.uri) (hs : P b.s) :
    P (stagePath env ctrl w data b).2.s := by
  have hpublished : P (if env.poolWarmed b.s then publishPathIr env w b.s
      else (true, w, b.s)).2.2 ∧ (if env.poolWarmed b.s then publishPathIr env w b.s
      else (true, w, b.s)).2.1.uri = w.uri := by
    split
    · exact ⟨keeps_publishPathIr h.pool w hs, uri_publishPathIr env w b.s⟩
    · exact ⟨hs, rfl⟩
  unfold stagePath
  dsimp only
  generalize (if env.poolWarmed b.s then publishPathIr env w b.s
      else (true, w, b.s)) = published at hpublished ⊢
  obtain ⟨hkept, huri⟩ := hpublished
  split
  · exact hkept
  split
  · have hexec : P (if env.poolWarmed b.s then
        execPathIr env published.2.1 { b with s := published.2.2 }
      else (true, published.2.1, { b with s := published.2.2 })).2.2.s ∧
        (if env.poolWarmed b.s then
          execPathIr env published.2.1 { b with s := published.2.2 }
        else (true, published.2.1, { b with s := published.2.2 })).2.1.uri = published.2.1.uri := by
      split
      · exact ⟨keeps_execPathIr h.pool _ hkept, uri_execPathIr env _ _⟩
      · exact ⟨hkept, rfl⟩
    generalize (if env.poolWarmed b.s then
        execPathIr env published.2.1 { b with s := published.2.2 }
      else (true, published.2.1, { b with s := published.2.2 })) = exec at hexec ⊢
    split
    · exact hexec.1
    · have hexecUri : (uriToPath (cstr exec.2.1.uri) pathCap).isSome → U exec.2.1.uri := by
        rw [hexec.2, huri]
        exact hw
      have hpersisted := keeps_persistPerPath h data hexecUri hexec.1
      split
      · exact hpersisted
      · exact hpersisted
  · split
    · exact hkept
    · exact hkept

theorem keeps_runPath (h : EnvKeeps U P env) (hread : ∀ uri s, P s → P (readFn uri s).2)
    (ctrl : ReloadBatchController σ) {w : PathWork}
    (hw : (uriToPath (cstr w.uri) pathCap).isSome → U w.uri) (hs : P b.s) :
    P (runPath env ctrl readFn w b).2.s := by
  have hdata := keeps_runReadWithRetry hread w.uri ctrl.maxRetry hs
  unfold runPath
  dsimp only
  split
  · exact hdata
  · rename_i data _
    have hgate := h.gatePathWork w.uri data _ hdata
    split
    · exact hdata
    split
    · exact hgate
    · rename_i gatedIr _
      exact keeps_stagePath (w := { w with state := .gating, gatedIr := gatedIr }) h ctrl data hw
        hgate

theorem keeps_runPaths (h : EnvKeeps U P env) (hread : ∀ uri s, P s → P (readFn uri s).2)
    (ctrl : ReloadBatchController σ) {ws : List PathWork}
    (hws : ∀ w ∈ ws, (uriToPath (cstr w.uri) pathCap).isSome → U w.uri) (hs : P b.s) :
    P (runPaths env ctrl readFn ws b).2.s := by
  induction ws generalizing b with
  | nil => exact hs
  | cons w ws ih =>
      apply ih fun x hx => hws x (List.mem_cons_of_mem w hx)
      exact keeps_runPath h hread ctrl (hws w List.mem_cons_self) hs

theorem keeps_execPaths (h : PoolKeeps P env) (ws : List PathWork) (hs : P b.s) :
    P (execPaths env ws b).2.2.s := by
  induction ws generalizing b with
  | nil => exact hs
  | cons w ws ih =>
      rw [execPaths]
      split
      · exact ih hs
      · exact ih (keeps_execPathIr h w hs)

/-! ## The whole run -/

theorem keeps_runExec (h : EnvKeeps U P env) (ctrl : ReloadBatchController σ) (hs : P b.s) :
    P (runExec env ctrl b).s := by
  have hexec := keeps_execPaths h.pool b.paths hs
  unfold runExec
  dsimp only
  split
  · exact hs
  split
  · exact h.pool.snapshotClearAll _ hexec
  · have hmark := keeps_writePhaseMark (b := { (execPaths env b.paths b).2.2 with
        paths := (execPaths env b.paths b).2.1 }) h ctrl .exec hexec
    split
    · exact hmark
    · exact hmark

theorem keeps_syncPaths (h : EnvKeeps U P env) (hall : ∀ uri, U uri) (store : AttachStore)
    (ws : List PathWork) (hs : P b.s) : P (syncPaths env store ws b).2.s := by
  induction ws generalizing b with
  | nil => exact hs
  | cons w ws ih =>
      rw [syncPaths]
      split
      · exact ih hs
      · apply ih
        have hsync := keeps_configSync h store w.stagedPayload (hall w.uri) hs
        split
        · exact hsync
        · exact hsync

theorem keeps_finishBatch (h : EnvKeeps U P env) (hall : ∀ uri, U uri)
    (ctrl : ReloadBatchController σ) (hs : P b.s) : P (finishBatch env ctrl b).2.s := by
  have hmark := keeps_writePhaseMark h ctrl .persist hs
  have hcommit := keeps_storeBatchCommit h.io (writePhaseMark env ctrl b .persist).2.store hmark
  unfold finishBatch
  dsimp only
  split
  · exact hs
  split
  · exact hs
  split
  · exact hmark
  split
  · exact hcommit
  · exact keeps_syncPaths h hall _ _ hcommit

theorem writePhaseMark_paths (env : ReloadEnv σ) (ctrl : ReloadBatchController σ) (b : BatchRun σ)
    (phase : WalRecoverPhase) : (writePhaseMark env ctrl b phase).2.paths = b.paths := by
  unfold writePhaseMark
  split
  · rfl
  · rfl

theorem keeps_runSession (h : EnvKeeps U P env) (hread : ∀ uri s, P s → P (readFn uri s).2)
    (hall : ctrl.scheme = .perBatch → ∀ uri, U uri)
    (hpaths : ∀ w ∈ b.paths, (uriToPath (cstr w.uri) pathCap).isSome → U w.uri) (hs : P b.s) :
    P (runSession env ctrl readFn b).2.s := by
  have hmark := keeps_writePhaseMark h ctrl .stage hs
  have hreads : P (runReads env ctrl readFn (writePhaseMark env ctrl b .stage).2).s :=
    keeps_runPaths h hread ctrl (by rwa [writePhaseMark_paths]) hmark
  have hgate : P (writeGateMark env ctrl
      (runReads env ctrl readFn (writePhaseMark env ctrl b .stage).2)).2.s := by
    unfold writeGateMark
    split
    · exact keeps_writePhaseMark h ctrl .gate hreads
    · exact hreads
  unfold runSession
  dsimp only
  split
  · exact hmark
  split
  · exact hreads
  · rename_i hscheme
    split
    · exact hgate
    · exact keeps_finishBatch h (hall (not_not.mp hscheme)) ctrl (keeps_runExec h ctrl hgate)

theorem keeps_loadSessionRevisions (hio : IoKeeps P env.io)
    (hopen : ∀ path s, P s → P (env.openStore path s).2) (ctrl : ReloadBatchController σ)
    (hs : P s) : P (loadSessionRevisions env ctrl s).2.2 := by
  have hopened : P (ensureAttachStore env ctrl s).2 := by
    unfold ensureAttachStore
    split
    · exact hs
    · exact hopen ctrl.manifestPath s hs
  unfold loadSessionRevisions
  dsimp only
  split
  · exact hopened
  · exact keeps_storeReloadManifest hio _ hopened

theorem keeps_beginSession (hsidecar : ∀ path s, P s → P (env.sidecarInvalidate path s))
    (ctrl : ReloadBatchController σ) (store : AttachStore) (hs : P s) :
    P (beginSession env ctrl store s).s := by
  unfold beginSession
  dsimp only
  split
  · exact hs
  · exact hsidecar ctrl.manifestPath s hs

/-- **The rule.**  A run keeps what its environment keeps on those URIs of its paths
that name a file; in the per-batch scheme, on all URIs. -/
theorem keeps_reloadBatchRun (h : EnvKeeps U P env)
    (hread : ∀ readFn ∈ ctrl.readFn, ∀ uri s, P s → P (readFn uri s).2)
    (hall : ctrl.scheme = .perBatch → ∀ uri, U uri)
    (hpaths : ∀ w ∈ ctrl.paths, (uriToPath (cstr w.uri) pathCap).isSome → U w.uri) (hs : P s) :
    P (reloadBatchRun env ctrl s).2.2 := by
  have hload := keeps_loadSessionRevisions h.io h.openStore ctrl hs
  unfold reloadBatchRun
  split
  · exact hs
  · rename_i readFn hsome
    split
    · exact hs
    split
    · exact hs
    split
    · exact hs
    split
    · rename_i heq
      rw [heq] at hload
      exact hload
    · rename_i heq
      rw [heq] at hload
      exact hload
    · rename_i store s' heq
      rw [heq] at hload
      apply keeps_runSession h (hread readFn hsome) hall
      · intro w hw
        obtain ⟨w, hmem, rfl⟩ := List.mem_map.mp hw
        exact hpaths w hmem
      · exact keeps_beginSession h.sidecarInvalidate ctrl store hload

theorem perPath_reloadBatchRun (hscheme : ctrl.scheme = .perPath)
    (h : (reloadBatchRun env ctrl s).1 = 0) :
    ∃ readFn ∈ ctrl.readFn, ∃ b : BatchRun σ,
      b.paths.map (·.uri) = ctrl.paths.map (·.uri) ∧
      (∀ P : σ → Prop, IoKeeps P env.io → (∀ path s, P s → P (env.openStore path s).2) →
        (∀ path s, P s → P (env.sidecarInvalidate path s)) → P s → P b.s) ∧
      (reloadBatchRun env ctrl s).2.2 = (runPaths env ctrl readFn b.paths b).2.s ∧
      (reloadBatchRun env ctrl s).2.1.outcome = (runPaths env ctrl readFn b.paths b).2.outcome := by
  have hbatch : ctrl.scheme ≠ .perBatch := by simp [hscheme]
  unfold reloadBatchRun at h ⊢
  split
  · rename_i hnone
    rw [hnone] at h
    cases h
  · rename_i readFn hsome
    rw [hsome] at h
    dsimp only at h
    split at h
    · cases h
    rename_i hset
    rw [if_neg hset]
    split at h
    · cases h
    rename_i hcallback
    rw [if_neg hcallback]
    split at h
    · cases h
    rename_i hbound
    rw [if_neg hbound]
    split at h
    · cases h
    · cases h
    · rename_i store s' hload
      refine ⟨readFn, hsome, beginSession env ctrl store s', ?_, ?_, ?_⟩
      · simp [beginSession]
      · intro P hio hopen hsidecar hs
        have hloaded := keeps_loadSessionRevisions hio hopen ctrl hs
        rw [hload] at hloaded
        exact keeps_beginSession hsidecar ctrl store hloaded
      · unfold runSession
        rw [writePhaseMark, if_pos hbatch]
        simp only [ne_eq, not_true_eq_false, if_false, if_pos hbatch]
        exact ⟨rfl, rfl⟩

end Run

end BlessStar.Orchestration.Proofs.RunInvariant
