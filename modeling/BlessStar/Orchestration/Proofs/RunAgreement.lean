import BlessStar.Orchestration.GatedRun
import BlessStar.Orchestration.Proofs.RunInvariant

/-!
# Turns that agree

One batch is run on two related states, of which the first has a cold pool and
the second a warmed one.  What the store, the phase marks and the config manager
do is the same on both, and so is a turn of the loop over the paths, unless a
gate lets bytes pass in the first run that it rejects in the second.
-/

namespace BlessStar.Orchestration.Proofs.RunAgreement

open Lib.ByteString Lib.Lockstep Persistence
open Orchestration Orchestration.Proofs.RunInvariant

variable {σ : Type} {R R' : σ → σ → Prop} {Q : σ → Prop}

section Store

variable {io : PersistIo σ} {s t : σ}

def StoreAgrees {α : Type} (R : σ → σ → Prop) (f : σ → α × AttachStore × σ) : Prop :=
  ∀ s t, R s t →
    (f s).1 = (f t).1 ∧ (f s).2.1 = (f t).2.1 ∧ R (f s).2.2 (f t).2.2

theorem agrees_writeStagingFiles (h : IoAgrees R io) (epoch : UInt64) (es : List StagedEntry) :
    Agrees R (writeStagingFiles io epoch es) := by
  induction es with
  | nil => exact fun s t hst => ⟨rfl, hst⟩
  | cons e es ih =>
      intro s t hst
      obtain ⟨hrc, hafter⟩ := h.writeFileAtomic (e.stagingPath epoch) e.data s t hst
      simp only [writeStagingFiles, hrc]
      split
      · exact ⟨hrc, hafter⟩
      · exact ih _ _ hafter

theorem agrees_walAppendAndStage (h : IoAgrees R io) (epoch : UInt64) (es : List StagedEntry) :
    Agrees R (walAppendAndStage io epoch es) := by
  intro s t hst
  obtain ⟨hrc, hafter⟩ := h.walAppendBatch epoch (es.map (·.walEntry epoch)) s t hst
  simp only [walAppendAndStage, hrc]
  split
  · exact ⟨hrc, hafter⟩
  · exact agrees_writeStagingFiles h epoch es _ _ hafter

theorem agrees_walMarkCommitted (h : IoAgrees R io) (epoch : UInt64) :
    Agrees R (walMarkCommitted io epoch) := by
  intro s t hst
  obtain ⟨hrc, hafter⟩ := h.walAppendCommitted epoch s t hst
  obtain ⟨hrot, hrotated⟩ := h.walRotate epoch _ _ hafter
  simp only [walMarkCommitted, hrc, hrot]
  split
  · exact ⟨hrc, hafter⟩
  · exact ⟨rfl, hrotated⟩

theorem agrees_saveManifest (h : IoAgrees R io) (store : AttachStore) :
    Agrees R (saveManifest io store) := by
  intro s t hst
  unfold saveManifest
  split
  · exact ⟨rfl, hst⟩
  · exact h.saveManifestFile store.manifest s t hst

theorem agrees_purgeWalForStore (h : IoAgrees R io) (store : AttachStore) :
    Agrees R (purgeWalForStore io store) := by
  intro s t hst
  obtain ⟨hlast, hafter⟩ := h.walPurge store.manifest.batchEpoch store.walLastPurgeThrough s t hst
  simp only [purgeWalForStore, hlast]
  split
  · exact ⟨rfl, hst⟩
  · exact ⟨rfl, hafter⟩

theorem agrees_storeAppendPhaseMark (h : IoAgrees R io) (store : AttachStore) (epoch : UInt64)
    (phase hash : UInt32) : Agrees R (storeAppendPhaseMark io store epoch phase hash) := by
  intro s t hst
  unfold storeAppendPhaseMark
  split
  · exact ⟨rfl, hst⟩
  · exact h.walAppendPhaseMark epoch phase hash s t hst

theorem agrees_commitOne (h : IoAgrees R io) (store : AttachStore) (uri : Bytes) (path : Path)
    (data : Bytes) (rev : UInt64) : StoreAgrees R (commitOne io store uri path data rev) := by
  intro s t hst
  obtain ⟨hrc, hafter⟩ := h.writeFileAtomic path data s t hst
  unfold commitOne
  split
  · exact ⟨rfl, rfl, hst⟩
  cases store.memoryOnly with
  | true => exact ⟨rfl, rfl, hst⟩
  | false =>
      simp only [Bool.false_eq_true, if_false, hrc]
      split
      · exact ⟨rfl, rfl, hafter⟩
      · exact ⟨rfl, rfl, hafter⟩

theorem agrees_storeCommitPerPath (h : IoAgrees R io) (store : AttachStore) (uri data : Bytes)
    (rev : UInt64) : StoreAgrees R (storeCommitPerPath io store uri data rev) := by
  intro s t hst
  unfold storeCommitPerPath
  split
  · exact ⟨rfl, rfl, hst⟩
  · rename_i path _
    obtain ⟨hrc, hstore, hafter⟩ := agrees_commitOne h store (cstr uri) path data rev s t hst
    simp only [hrc, hstore]
    split
    · exact ⟨hrc, hstore, hafter⟩
    · exact ⟨(agrees_saveManifest h _ _ _ hafter).1, rfl, (agrees_saveManifest h _ _ _ hafter).2⟩

theorem agrees_storeBatchFlip (h : IoAgrees R io) (store : AttachStore) :
    StoreAgrees R (storeBatchFlip io store) := by
  intro s t hst
  unfold storeBatchFlip
  dsimp only
  generalize flipManifest store.manifest (store.manifest.batchEpoch + 1) store.staged = m
  cases hmem : store.memoryOnly with
  | true => exact ⟨rfl, rfl, hst⟩
  | false =>
      simp only [Bool.false_eq_true, if_false]
      have hmark := (h.walAppendPhaseMark (store.manifest.batchEpoch + 1) walPhaseCommit 0).after hst
      obtain ⟨hman, hsaved⟩ := agrees_saveManifest h
        { store with memoryOnly := false, manifest := m, batchOpen := false, staged := [] } _ _ hmark
      simp only [hman]
      split
      · exact ⟨rfl, rfl, hsaved⟩
      · have hcommitted :=
          (agrees_walMarkCommitted h (store.manifest.batchEpoch + 1)).after hsaved
        obtain ⟨hpurge, hpurged⟩ := agrees_purgeWalForStore h
          { store with memoryOnly := false, manifest := m, batchOpen := false, staged := [] } _ _
          hcommitted
        exact ⟨rfl, hpurge, hpurged⟩

theorem agrees_storeBatchCommit (h : IoAgrees R io) (store : AttachStore) :
    StoreAgrees R (storeBatchCommit io store) := by
  intro s t hst
  unfold storeBatchCommit
  split
  · exact ⟨rfl, rfl, hst⟩
  split
  · exact ⟨rfl, rfl, hst⟩
  cases store.memoryOnly with
  | true => exact agrees_storeBatchFlip h store s t hst
  | false =>
      obtain ⟨hrc, hafter⟩ :=
        agrees_walAppendAndStage h (store.manifest.batchEpoch + 1) store.staged s t hst
      simp only [Bool.false_eq_true, if_false, hrc]
      split
      · exact ⟨rfl, rfl, hafter⟩
      · exact agrees_storeBatchFlip h store _ _ hafter

end Store

def shown (w : PathWork) : Bytes × PathOrchestrationState × UInt64 × Bytes :=
  (w.uri, w.state, w.baseRevision, w.stagedPayload)

structure Beside (R : σ → σ → Prop) (b b' : BatchRun σ) : Prop where
  store : b.store = b'.store
  paths : b.paths.map shown = b'.paths.map shown
  bytesUsed : b.bytesUsed = b'.bytesUsed
  outcome : b.outcome = b'.outcome
  hadFailure : b.hadFailure = b'.hadFailure
  s : R b.s b'.s

section Run

variable {env : ReloadEnv σ} {ctrl : ReloadBatchController σ} {readFn : ReloadPathReadFn σ}
  {b b' : BatchRun σ} {w w' : PathWork} {ws ws' : List PathWork}

theorem uris_of_shown (h : ws.map shown = ws'.map shown) : ws.map (·.uri) = ws'.map (·.uri) := by
  have huris := congrArg (List.map Prod.fst) h
  rwa [List.map_map, List.map_map] at huris

theorem states_of_shown (h : ws.map shown = ws'.map shown) :
    ws.map (·.state) = ws'.map (·.state) := by
  have hstates := congrArg (List.map fun x => x.2.1) h
  rwa [List.map_map, List.map_map] at hstates

theorem hasStaged_of_shown (h : ws.map shown = ws'.map shown) : hasStaged ws = hasStaged ws' := by
  have hany : ∀ xs : List PathWork, hasStaged xs = (xs.map (·.state)).any (· = .staged) := by
    intro xs
    rw [List.any_map]
    rfl
  rw [hany, hany, states_of_shown h]

theorem Beside.mono (h : Beside R b b') (hR : ∀ s t, R s t → R' s t) : Beside R' b b' :=
  { h with s := hR _ _ h.s }

theorem Beside.put (h : Beside R b b') {s s' : σ} (hs : R' s s') :
    Beside R' { b with s := s } { b' with s := s' } :=
  { h with s := hs }

theorem Beside.fail (h : Beside R b b') : Beside R b.fail b'.fail :=
  { h with
    outcome := rfl
    hadFailure := rfl }

theorem Beside.failOutcome (h : Beside R b b') : Beside R b.failOutcome b'.failOutcome :=
  { h with outcome := rfl }

theorem Beside.abort (h : Beside R b b') : Beside R b.abort b'.abort :=
  { h with store := congrArg AttachStore.batchAbort h.store }

theorem beside_writePhaseMark (hio : IoAgrees R env.io) (ctrl : ReloadBatchController σ)
    (phase : WalRecoverPhase) (h : Beside R b b') :
    (writePhaseMark env ctrl b phase).1 = (writePhaseMark env ctrl b' phase).1 ∧
      Beside R (writePhaseMark env ctrl b phase).2 (writePhaseMark env ctrl b' phase).2 := by
  have hhash : uriSetHashForCtrl b.paths = uriSetHashForCtrl b'.paths := by
    rw [uriSetHashForCtrl, uris_of_shown h.paths]
    rfl
  obtain ⟨hrc, hafter⟩ := agrees_storeAppendPhaseMark hio b'.store
    (b'.store.manifest.batchEpoch + 1) phase.toUInt32 (uriSetHashForCtrl b'.paths) _ _ h.s
  unfold writePhaseMark
  split
  · exact ⟨rfl, h⟩
  · rw [h.store, hhash]
    exact ⟨hrc, { h with store := rfl, s := hafter }⟩

theorem agrees_runReadWithRetry {readFn : ReloadPathReadFn σ} (hread : ∀ uri, Agrees R (readFn uri))
    (uri : Bytes) (retries : Nat) : Agrees R (runReadWithRetry readFn uri retries) := by
  induction retries with
  | zero => exact hread uri
  | succ n ih =>
      intro s t hst
      obtain ⟨hdata, hafter⟩ := hread uri s t hst
      unfold runReadWithRetry
      cases hs : readFn uri s with
      | mk data s' =>
          cases ht : readFn uri t with
          | mk data' t' =>
              rw [hs, ht] at hdata hafter
              obtain rfl : data = data' := hdata
              cases data with
              | none => exact ih s' t' hafter
              | some data => exact ⟨rfl, hafter⟩

theorem agrees_configSync (h : SyncAgrees R env) (store : AttachStore) (uri payload : Bytes) :
    Agrees R (configSync env store uri payload) := by
  intro s t hst
  obtain ⟨hsync, hsynced⟩ := h.configSyncPath uri payload s t hst
  obtain ⟨hpost, hafter⟩ := h.postConfigSync uri (store.manifest.revisionOf uri) _ _ hsynced
  simp only [configSync, h.hasManager s t hst, hsync, hpost]
  split
  · exact ⟨rfl, hst⟩
  split
  · exact ⟨rfl, hsynced⟩
  · exact ⟨rfl, hafter⟩

structure TurnsAlike (R : σ → σ → Prop) (turn turn' : PathWork × BatchRun σ) : Prop where
  shown : shown turn.1 = shown turn'.1
  handle : turn'.1.state = .staged → turn'.1.irSnapshotHandle ≠ 0
  run : Beside R turn.2 turn'.2

def settlePath (env : ReloadEnv σ) (ctrl : ReloadBatchController σ) (w : PathWork) (data : Bytes)
    (b : BatchRun σ) : PathWork × BatchRun σ :=
  if ctrl.scheme = .perPath then
    let persisted := persistPerPath env w data b
    (persisted.2.1.gc, if persisted.1 then persisted.2.2 else persisted.2.2.failOutcome)
  else
    let w := { w with state := .staged, stagedPayload := data }
    let stage := b.store.batchStage w.uri data w.baseRevision
    let b := { b with store := stage.2 }
    if stage.1 ≠ .ok then (w.endIn .persistRejected, b.fail) else (w, b)

theorem beside_persistPerPath (hio : IoAgrees R env.io) (hsync : SyncAgrees R env)
    (huri : w.uri = w'.uri) (hrev : w.baseRevision = w'.baseRevision) (data : Bytes)
    (h : Beside R b b') :
    (persistPerPath env w data b).1 = (persistPerPath env w' data b').1 ∧
      Beside R (persistPerPath env w data b).2.2 (persistPerPath env w' data b').2.2 := by
  obtain ⟨hrc, hstore, hafter⟩ := agrees_storeCommitPerPath hio b'.store w'.uri data
    w'.baseRevision _ _ h.s
  unfold persistPerPath
  simp only [huri, hrev, h.store, hrc, hstore]
  split
  · exact ⟨rfl, { h with store := rfl, s := hafter }⟩
  · obtain ⟨hok, hsynced⟩ := agrees_configSync hsync
      (storeCommitPerPath env.io b'.store w'.uri data w'.baseRevision b'.s).2.1 w'.uri data _ _
      hafter
    simp only [hok]
    exact ⟨trivial, { h with store := rfl, s := hsynced }⟩

theorem persistPerPath_path (env : ReloadEnv σ) (w : PathWork) (data : Bytes) (b : BatchRun σ) :
    (persistPerPath env w data b).2.1 =
      { w with
        state := if (persistPerPath env w data b).1 then .committed else .persistRejected } := by
  unfold persistPerPath
  dsimp only
  split
  · rfl
  · rfl

theorem beside_settlePath (hio : IoAgrees R env.io) (hsync : SyncAgrees R env)
    (huri : w.uri = w'.uri) (hrev : w.baseRevision = w'.baseRevision)
    (hhandle : w'.irSnapshotHandle ≠ 0 ∨ ctrl.scheme = .perPath) (data : Bytes)
    (h : Beside R b b') :
    TurnsAlike R (settlePath env ctrl w data b) (settlePath env ctrl w' data b') := by
  unfold settlePath
  by_cases hscheme : ctrl.scheme = .perPath
  · rw [if_pos hscheme, if_pos hscheme]
    obtain ⟨hok, hrun⟩ := beside_persistPerPath hio hsync huri hrev data h
    dsimp only
    rw [persistPerPath_path, persistPerPath_path, hok]
    refine ⟨by simp [shown, PathWork.gc, huri, hrev], ?_, ?_⟩
    · intro hstaged
      simp only [PathWork.gc] at hstaged
      split at hstaged
      · cases hstaged
      · cases hstaged
    · dsimp only
      split
      · exact hrun
      · exact hrun.failOutcome
  · rw [if_neg hscheme, if_neg hscheme]
    have hstage : b.store.batchStage w.uri data w.baseRevision =
        b'.store.batchStage w'.uri data w'.baseRevision := by
      rw [h.store, huri, hrev]
    simp only [hstage]
    split
    · refine ⟨by simp [shown, PathWork.endIn, PathWork.gc, huri, hrev], ?_,
        { h.fail with store := rfl }⟩
      intro hstaged
      cases hstaged
    · exact ⟨by simp [shown, huri, hrev], fun _ => hhandle.resolve_right hscheme,
        { h with store := rfl }⟩

def Agreeing (gate gate' : Option Bool) : Prop :=
  (gate = none ∧ gate' = none) ∨ (gate = some true ∧ gate' = some true)

/-- Of two related states the first has a cold pool, and the second one on which everything
succeeds; a gate decides alike on both, but for what it lets pass in the first only, which `Q`
then tells. -/
structure ColdWarm (R : σ → σ → Prop) (Q : σ → Prop) (env : ReloadEnv σ) : Prop where
  io : IoAgrees R env.io
  sync : SyncAgrees R env
  cold : ∀ s t, R s t → env.poolWarmed s = false
  warm : ∀ s t, R s t → env.poolWarmed t = true
  publish : ∀ uri rev s t, R s t →
    (env.snapshotPublish uri rev t).1 ≠ 0 ∧ R s (env.snapshotPublish uri rev t).2
  exec : ∀ handle s t, handle ≠ 0 → R s t →
    (env.execParsedIr handle t).1 = 0 ∧ R s (env.execParsedIr handle t).2
  remove : ∀ handle s t, handle ≠ 0 → R s t →
    (env.snapshotRemove handle t).1 = 0 ∧ R s (env.snapshotRemove handle t).2
  gate : ∀ uri data s t, R s t →
    (Agreeing (env.gatePathWork uri data s).1 (env.gatePathWork uri data t).1 ∧
        R (env.gatePathWork uri data s).2 (env.gatePathWork uri data t).2) ∨
      ((env.gatePathWork uri data s).1 ≠ none ∧ (env.gatePathWork uri data t).1 = none ∧
        env.poolWarmed (env.gatePathWork uri data s).2 = false ∧
          Q (env.gatePathWork uri data s).2)

theorem execPathIr_warm (h : ColdWarm R Q env) {s : σ} (hs : R s b.s)
    (hhandle : w.irSnapshotHandle ≠ 0) :
    ∃ s', R s s' ∧
      execPathIr env w b =
        (true, { w with irSnapshotHandle := 0, state := .staged }, { b with s := s' }) := by
  obtain ⟨hexec, hexecuted⟩ := h.exec w.irSnapshotHandle s b.s hhandle hs
  obtain ⟨hremove, hremoved⟩ := h.remove w.irSnapshotHandle s _ hhandle hexecuted
  refine ⟨_, hremoved, ?_⟩
  rw [execPathIr, if_neg hhandle]
  dsimp only
  rw [if_neg (not_not.mpr hexec), if_neg (not_not.mpr hremove)]

theorem stagePath_cold (ctrl : ReloadBatchController σ) (w : PathWork) (data : Bytes)
    (hcold : env.poolWarmed b.s = false) :
    stagePath env ctrl w data b = settlePath env ctrl w data b := by
  unfold stagePath settlePath
  simp [hcold]

theorem stagePath_warm (h : ColdWarm R Q env) (ctrl : ReloadBatchController σ) (data : Bytes)
    {s : σ} (hs : R s b.s) (hir : w.gatedIr = true) :
    ∃ w' s', R s s' ∧ w'.uri = w.uri ∧ w'.baseRevision = w.baseRevision ∧
      (w'.irSnapshotHandle ≠ 0 ∨ ctrl.scheme = .perPath) ∧
        stagePath env ctrl w data b = settlePath env ctrl w' data { b with s := s' } := by
  obtain ⟨hhandle, hpublished⟩ := h.publish w.uri w.baseRevision s b.s hs
  have hpublish : publishPathIr env w b.s =
      (true, { w with
        irSnapshotHandle := (env.snapshotPublish w.uri w.baseRevision b.s).1, gatedIr := false },
        (env.snapshotPublish w.uri w.baseRevision b.s).2) := by
    rw [publishPathIr, if_neg (by rw [hir]; exact Bool.noConfusion)]
    simp [hhandle]
  unfold stagePath
  simp only [h.warm s b.s hs, if_true, hpublish, Bool.true_eq_false, if_false]
  by_cases hscheme : ctrl.scheme = .perPath
  · obtain ⟨s', hs', hexec⟩ := @execPathIr_warm σ R Q env
      { b with s := (env.snapshotPublish w.uri w.baseRevision b.s).2 }
      { w with
        irSnapshotHandle := (env.snapshotPublish w.uri w.baseRevision b.s).1, gatedIr := false }
      h s hpublished hhandle
    refine ⟨{ w with irSnapshotHandle := 0, gatedIr := false, state := .staged }, s', hs', rfl,
      rfl, Or.inr hscheme, ?_⟩
    rw [if_pos hscheme, hexec, settlePath, if_pos hscheme]
    rfl
  · refine ⟨{ w with
        irSnapshotHandle := (env.snapshotPublish w.uri w.baseRevision b.s).1, gatedIr := false },
      _, hpublished, rfl, rfl, Or.inl hhandle, ?_⟩
    rw [if_neg hscheme, settlePath, if_neg hscheme]

structure TurnsApart (Q : σ → Prop) (turn turn' : PathWork × BatchRun σ) : Prop where
  passed : turn.1.state ≠ .gateRejected
  rejected : turn'.1.state = .gateRejected
  seen : Q turn.2.s

theorem settlePath_ne_gateRejected (env : ReloadEnv σ) (ctrl : ReloadBatchController σ)
    (w : PathWork) (data : Bytes) (b : BatchRun σ) :
    (settlePath env ctrl w data b).1.state ≠ .gateRejected := by
  unfold settlePath
  dsimp only
  split
  · rw [persistPerPath_path]
    dsimp only [PathWork.gc]
    split
    · exact PathOrchestrationState.noConfusion
    · exact PathOrchestrationState.noConfusion
  split
  · exact PathOrchestrationState.noConfusion
  · exact PathOrchestrationState.noConfusion

/-- **A turn** of two runs at the same point. -/
theorem beside_runPath (h : ColdWarm R Q env) (hQ : EnvKeeps (fun _ => True) Q env)
    (hread : ∀ uri, Agrees R (readFn uri)) (hw : shown w = shown w') (hb : Beside R b b') :
    TurnsAlike R (runPath env ctrl readFn w b) (runPath env ctrl readFn w' b') ∨
      TurnsApart Q (runPath env ctrl readFn w b) (runPath env ctrl readFn w' b') := by
  obtain ⟨uri, state, rev, payload, ir, handle, hnul⟩ := w
  obtain ⟨uri', state', rev', payload', ir', handle', hnul'⟩ := w'
  simp only [shown, Prod.mk.injEq] at hw
  obtain ⟨rfl, rfl, rfl, rfl⟩ := hw
  obtain ⟨hdata, hafter⟩ := agrees_runReadWithRetry hread uri ctrl.maxRetry _ _ hb.s
  have hrejected : ∀ {ended : PathOrchestrationState} {b b' : BatchRun σ} (state : PathOrchestrationState), state ≠ .staged →
      Beside R b b' →
        TurnsAlike R (PathWork.endIn ⟨uri, ended, rev, payload, ir, handle, hnul⟩ state, b)
          (PathWork.endIn ⟨uri, ended, rev, payload, ir', handle', hnul⟩ state, b') := by
    intro ended b b' state hstate hb
    exact ⟨rfl, fun hstaged => absurd hstaged hstate, hb⟩
  unfold runPath
  dsimp only
  rw [hdata]
  cases hbytes : (runReadWithRetry readFn uri ctrl.maxRetry b'.s).1 with
  | none =>
      exact Or.inl (hrejected .failedRead PathOrchestrationState.noConfusion (hb.put hafter).fail)
  | some data =>
      dsimp only
      have hroom : (ctrl.sessionMemoryCap < data.length ∨
          ctrl.sessionMemoryCap - b.bytesUsed < data.length) ↔
            (ctrl.sessionMemoryCap < data.length ∨
              ctrl.sessionMemoryCap - b'.bytesUsed < data.length) := by rw [hb.bytesUsed]
      by_cases hcap : ctrl.sessionMemoryCap < data.length ∨
          ctrl.sessionMemoryCap - b'.bytesUsed < data.length
      · rw [if_pos (hroom.mpr hcap), if_pos hcap]
        exact Or.inl (hrejected .failedRead PathOrchestrationState.noConfusion (hb.put hafter).fail)
      rw [if_neg (mt hroom.mp hcap), if_neg hcap]
      have hbytesUsed : b.bytesUsed + data.length = b'.bytesUsed + data.length := by
        rw [hb.bytesUsed]
      rcases h.gate uri data _ _ hafter with ⟨hagree, hgated⟩ | ⟨hpassed, hrejectedGate, hcold, hseen⟩
      · have hgate : Beside R
            { b with
              bytesUsed := b.bytesUsed + data.length
              s := (env.gatePathWork uri data
                (runReadWithRetry readFn uri ctrl.maxRetry b.s).2).2 }
            { b' with
              bytesUsed := b'.bytesUsed + data.length
              s := (env.gatePathWork uri data
                (runReadWithRetry readFn uri ctrl.maxRetry b'.s).2).2 } :=
          { hb with
            bytesUsed := hbytesUsed
            s := hgated }
        rcases hagree with ⟨hcold, hwarm⟩ | ⟨hcold, hwarm⟩
        · rw [hcold, hwarm]
          exact Or.inl (hrejected .gateRejected PathOrchestrationState.noConfusion hgate.fail)
        · rw [hcold, hwarm]
          dsimp only
          obtain ⟨w₁, s₁, hs₁, huri₁, hrev₁, hhandle, hstage⟩ :=
            @stagePath_warm σ R Q env
              { b' with
                bytesUsed := b'.bytesUsed + data.length
                s := (env.gatePathWork uri data
                  (runReadWithRetry readFn uri ctrl.maxRetry b'.s).2).2 }
              ⟨uri, .gating, rev, payload, true, handle', hnul⟩ h ctrl data _ hgated rfl
          rw [stagePath_cold ctrl _ data (h.cold _ _ hgated), hstage]
          exact Or.inl (beside_settlePath (w := ⟨uri, .gating, rev, payload, true, handle, hnul⟩) h.io h.sync
            huri₁.symm hrev₁.symm hhandle data (hgate.put hs₁))
      · obtain ⟨ir, hir⟩ := Option.ne_none_iff_exists'.mp hpassed
        rw [hir, hrejectedGate]
        dsimp only
        refine Or.inr ⟨?_, rfl, ?_⟩
        · rw [stagePath_cold ctrl _ data hcold]
          exact settlePath_ne_gateRejected env ctrl _ data _
        · exact keeps_stagePath hQ ctrl data (fun _ => trivial) hseen

end Run

end BlessStar.Orchestration.Proofs.RunAgreement
