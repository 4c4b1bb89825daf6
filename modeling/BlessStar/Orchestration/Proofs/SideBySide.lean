import BlessStar.Orchestration.Proofs.RunAgreement

/-!
# Two runs side by side

Turn for turn the run on a cold pool and the run on a warmed one do the same.
Once a gate has told them apart, a path is rejected in the second run and not in
the first, and whatever follows keeps it so.
-/

namespace BlessStar.Orchestration.Proofs.SideBySide

open Lib.ByteString Lib.Lockstep Persistence
open Orchestration Orchestration.Proofs.RunInvariant
open Orchestration.Proofs.RunAgreement

section Run

variable {σ : Type} {R R' : σ → σ → Prop} {Q : σ → Prop} {env : ReloadEnv σ}
  {ctrl : ReloadBatchController σ} {readFn : ReloadPathReadFn σ} {b b' : BatchRun σ}
  {w w' : PathWork} {ws ws' : List PathWork}

/-! ## The loop -/

def isRejected (w : PathWork) : Bool := w.state = .gateRejected

structure LoopsAlike (R : σ → σ → Prop) (loop loop' : List PathWork × BatchRun σ) : Prop where
  shown : loop.1.map shown = loop'.1.map shown
  handle : ∀ w ∈ loop'.1, w.state = .staged → w.irSnapshotHandle ≠ 0
  run : Beside R loop.2 loop'.2

theorem beside_runPaths (h : ColdWarm R Q env) (hQ : EnvKeeps (fun _ => True) Q env)
    (hread : ∀ uri, Agrees R (readFn uri)) (hreadQ : ∀ uri s, Q s → Q (readFn uri s).2) :
    ∀ (ws ws' : List PathWork) {b b' : BatchRun σ}, ws.map shown = ws'.map shown → Beside R b b' →
      LoopsAlike R (runPaths env ctrl readFn ws b) (runPaths env ctrl readFn ws' b') ∨
        ((runPaths env ctrl readFn ws b).1.map isRejected ≠
            (runPaths env ctrl readFn ws' b').1.map isRejected ∧
          Q (runPaths env ctrl readFn ws b).2.s) := by
  intro ws
  induction ws with
  | nil =>
      intro ws' b b' hws hb
      obtain rfl : ws' = [] := by
        rw [List.map_nil] at hws
        exact List.map_eq_nil_iff.mp hws.symm
      exact Or.inl ⟨rfl, fun w hw => absurd hw List.not_mem_nil, hb⟩
  | cons w ws ih =>
      intro ws' b b' hws hb
      cases ws' with
      | nil => cases hws
      | cons w' ws' =>
          rw [List.map_cons, List.map_cons, List.cons.injEq] at hws
          rw [runPaths, runPaths, List.map_cons, List.map_cons]
          rcases @beside_runPath σ R Q env ctrl readFn b b' w w' h hQ hread hws.1 hb with
            halike | hapart
          · rcases ih ws' hws.2 halike.run with hrest | ⟨hdiffer, hseen⟩
            · left
              refine ⟨?_, ?_, hrest.run⟩
              · rw [List.map_cons, List.map_cons, halike.shown, hrest.shown]
              · intro x hx
                rcases List.mem_cons.mp hx with rfl | hx
                · exact halike.handle
                · exact hrest.handle x hx
            · exact Or.inr ⟨fun heq => hdiffer (List.cons.inj heq).2, hseen⟩
          · right
            refine ⟨?_, keeps_runPaths hQ hreadQ ctrl (fun _ _ _ => trivial) hapart.seen⟩
            intro heq
            have hhead := (List.cons.inj heq).1
            rw [isRejected, isRejected, hapart.rejected, decide_eq_decide] at hhead
            exact hapart.passed (hhead.mpr rfl)

/-! ## After the loop -/

theorem execPaths_warm (h : ColdWarm R Q env) {s : σ} : ∀ (ws : List PathWork) {b : BatchRun σ},
    (∀ w ∈ ws, w.state = .staged → w.irSnapshotHandle ≠ 0) → R s b.s →
      ∃ ws' s', ws'.map shown = ws.map shown ∧ R s s' ∧
        execPaths env ws b = (false, ws', { b with s := s' }) := by
  intro ws
  induction ws with
  | nil => exact fun _ hs => ⟨[], _, rfl, hs, rfl⟩
  | cons w ws ih =>
      intro b hhandle hs
      have hrest := fun x hx => hhandle x (List.mem_cons_of_mem w hx)
      rw [execPaths]
      by_cases hstaged : w.state = .staged
      · obtain ⟨s₁, hs₁, hexec⟩ := execPathIr_warm h hs (hhandle w List.mem_cons_self hstaged)
        obtain ⟨ws', s', hshown, hs', hloop⟩ := @ih { b with s := s₁ } hrest hs₁
        rw [if_neg (not_not.mpr hstaged), hexec]
        dsimp only
        rw [hloop]
        refine ⟨_, s', ?_, hs', rfl⟩
        rw [List.map_cons, List.map_cons, hshown, shown, shown, hstaged]
      · obtain ⟨ws', s', hshown, hs', hloop⟩ := ih hrest hs
        rw [if_pos hstaged, hloop]
        exact ⟨w :: ws', s', by rw [List.map_cons, List.map_cons, hshown], hs', rfl⟩

/-- The EXEC mark leads from `R` to `R'`. -/
structure MarksExec (R R' : σ → σ → Prop) (scheme : AttachScheme) (io : PersistIo σ) : Prop where
  mono : ∀ s t, R s t → R' s t
  mark : scheme = .perBatch → ∀ epoch hash s t, R s t →
    (io.walAppendPhaseMark epoch WalRecoverPhase.exec.toUInt32 hash t).1 = .ok ∧
      R' s (io.walAppendPhaseMark epoch WalRecoverPhase.exec.toUInt32 hash t).2

theorem beside_runExec (h : ColdWarm R Q env) (hmark : MarksExec R R' ctrl.scheme env.io) (hb : Beside R b b')
    (hhandle : ∀ w ∈ b'.paths, w.state = .staged → w.irSnapshotHandle ≠ 0) :
    Beside R' (runExec env ctrl b) (runExec env ctrl b') := by
  have hcold : runExec env ctrl b = b := by
    rw [runExec, if_pos]
    right
    rw [h.cold _ _ hb.s]
    exact fun hwarm => Bool.noConfusion hwarm.1
  rw [hcold]
  unfold runExec
  split
  · exact hb.mono hmark.mono
  · obtain ⟨ws, s, hshown, hs, hexec⟩ := execPaths_warm h b'.paths hhandle hb.s
    rw [hexec]
    have hpaths : b.paths.map shown = ws.map shown := hb.paths.trans hshown.symm
    have hmarked : ∀ m : AttachStatus × BatchRun σ, m.1 = .ok → Beside R' b m.2 →
        Beside R' b (if m.1 ≠ .ok then m.2.fail else m.2) := by
      intro m hok hm
      rwa [if_neg (not_not.mpr hok)]
    simp only [Bool.false_eq_true, if_false]
    apply hmarked
    · unfold writePhaseMark storeAppendPhaseMark
      split
      · rfl
      rename_i hscheme
      dsimp only
      split
      · rfl
      · exact (hmark.mark (not_not.mp hscheme) _ _ _ _ hs).1
    · unfold writePhaseMark storeAppendPhaseMark
      split
      · exact { hb with
          paths := hpaths
          s := hmark.mono _ _ hs }
      rename_i hscheme
      dsimp only
      split
      · exact { hb with
          paths := hpaths
          s := hmark.mono _ _ hs }
      · exact { hb with
          paths := hpaths
          s := (hmark.mark (not_not.mp hscheme) _ _ _ _ hs).2 }

theorem beside_syncPaths (hsync : SyncAgrees R env) (store : AttachStore) :
    ∀ (ws ws' : List PathWork) {b b' : BatchRun σ}, ws.map shown = ws'.map shown → Beside R b b' →
      (syncPaths env store ws b).1.map shown = (syncPaths env store ws' b').1.map shown ∧
        Beside R (syncPaths env store ws b).2 (syncPaths env store ws' b').2 := by
  intro ws
  induction ws with
  | nil =>
      intro ws' b b' hws hb
      obtain rfl : ws' = [] := by
        rw [List.map_nil] at hws
        exact List.map_eq_nil_iff.mp hws.symm
      exact ⟨rfl, hb⟩
  | cons w ws ih =>
      intro ws' b b' hws hb
      cases ws' with
      | nil => cases hws
      | cons w' ws' =>
          rw [List.map_cons, List.map_cons, List.cons.injEq] at hws
          obtain ⟨uri, state, rev, payload, ir, handle, hnul⟩ := w
          obtain ⟨uri', state', rev', payload', ir', handle', hnul'⟩ := w'
          simp only [shown, Prod.mk.injEq] at hws
          obtain ⟨⟨rfl, rfl, rfl, rfl⟩, hrest⟩ := hws
          rw [syncPaths, syncPaths]
          dsimp only
          by_cases hstaged : state = .staged
          · rw [if_neg (not_not.mpr hstaged), if_neg (not_not.mpr hstaged)]
            obtain ⟨hok, hsynced⟩ := agrees_configSync hsync store uri payload _ _ hb.s
            rw [hok]
            have hrun := hb.put hsynced
            have hnext : Beside R
                (if (configSync env store uri payload b'.s).1 then
                  { b with s := (configSync env store uri payload b.s).2 }
                else { b with s := (configSync env store uri payload b.s).2 }.fail)
                (if (configSync env store uri payload b'.s).1 then
                  { b' with s := (configSync env store uri payload b'.s).2 }
                else { b' with s := (configSync env store uri payload b'.s).2 }.fail) := by
              split
              · exact hrun
              · exact hrun.fail
            obtain ⟨hshown, hbeside⟩ := ih ws' hrest hnext
            exact ⟨congrArg₂ List.cons rfl hshown, hbeside⟩
          · rw [if_pos hstaged, if_pos hstaged]
            obtain ⟨hshown, hbeside⟩ := ih ws' hrest hb
            exact ⟨congrArg₂ List.cons rfl hshown, hbeside⟩

theorem shown_map {f : PathWork → PathWork} (hf : ∀ w w', shown w = shown w' → shown (f w) = shown (f w'))
    (h : ws.map shown = ws'.map shown) : (ws.map f).map shown = (ws'.map f).map shown := by
  induction ws generalizing ws' with
  | nil =>
      obtain rfl : ws' = [] := by
        rw [List.map_nil] at h
        exact List.map_eq_nil_iff.mp h.symm
      rfl
  | cons w ws ih =>
      cases ws' with
      | nil => cases h
      | cons w' ws' =>
          rw [List.map_cons, List.map_cons, List.cons.injEq] at h
          simp only [List.map_cons, List.cons.injEq]
          exact ⟨hf w w' h.1, ih h.2⟩

theorem shown_gc (h : shown w = shown w') : shown w.gc = shown w'.gc := by
  simp only [shown, Prod.mk.injEq] at h
  simp only [shown, PathWork.gc, Prod.mk.injEq]
  exact ⟨h.1, h.2.1, h.2.2.1, trivial⟩

theorem shown_rejectStaged {f : PathWork → PathWork}
    (hf : ∀ w w', shown w = shown w' → shown (f w) = shown (f w')) (h : shown w = shown w') :
    shown (if w.state = .staged then w.endIn .persistRejected else f w) =
      shown (if w'.state = .staged then w'.endIn .persistRejected else f w') := by
  have hstate : w.state = w'.state := congrArg (fun x => x.2.1) h
  rw [hstate]
  split
  · simp only [shown, Prod.mk.injEq] at h
    simp only [shown, PathWork.endIn, PathWork.gc, Prod.mk.injEq]
    exact ⟨h.1, trivial, h.2.2.1, trivial⟩
  · exact hf w w' h

theorem beside_finishBatch (hio : IoAgrees R env.io) (hsync : SyncAgrees R env)
    (ctrl : ReloadBatchController σ) (hb : Beside R b b') :
    (finishBatch env ctrl b).1 = (finishBatch env ctrl b').1 ∧
      Beside R (finishBatch env ctrl b).2 (finishBatch env ctrl b').2 := by
  obtain ⟨hmark, hmarked⟩ := beside_writePhaseMark hio ctrl .persist hb
  unfold finishBatch
  by_cases hfailed : b'.hadFailure = true
  · rw [if_pos (hb.hadFailure.trans hfailed), if_pos hfailed]
    exact ⟨rfl, Beside.abort { hb with
      paths := shown_map (fun _ _ h => shown_rejectStaged (fun _ _ h => h) h) hb.paths }⟩
  rw [if_neg (by rwa [hb.hadFailure]), if_neg hfailed]
  have hnil : b.paths = [] ↔ b'.paths = [] := by
    rw [← List.map_eq_nil_iff (f := shown), hb.paths, List.map_eq_nil_iff]
  by_cases hempty : b'.paths = []
  · rw [if_pos (hnil.mpr hempty), if_pos hempty]
    exact ⟨rfl, hb.abort⟩
  rw [if_neg (mt hnil.mp hempty), if_neg hempty]
  dsimp only
  rw [hmark]
  split
  · exact ⟨rfl, hmarked.failOutcome.abort⟩
  obtain ⟨hrc, hstore, hafter⟩ :=
    agrees_storeBatchCommit hio (writePhaseMark env ctrl b' .persist).2.store _ _ hmarked.s
  rw [hmarked.store, hrc, hstore]
  have hcommitted : Beside R
      { (writePhaseMark env ctrl b .persist).2 with
        store := (storeBatchCommit env.io (writePhaseMark env ctrl b' .persist).2.store
          (writePhaseMark env ctrl b' .persist).2.s).2.1
        s := (storeBatchCommit env.io (writePhaseMark env ctrl b' .persist).2.store
          (writePhaseMark env ctrl b .persist).2.s).2.2 }
      { (writePhaseMark env ctrl b' .persist).2 with
        store := (storeBatchCommit env.io (writePhaseMark env ctrl b' .persist).2.store
          (writePhaseMark env ctrl b' .persist).2.s).2.1
        s := (storeBatchCommit env.io (writePhaseMark env ctrl b' .persist).2.store
          (writePhaseMark env ctrl b' .persist).2.s).2.2 } :=
    { hmarked with
      store := rfl
      s := hafter }
  split
  · refine ⟨rfl, Beside.failOutcome { hcommitted with paths := ?_ }⟩
    exact shown_map (fun _ _ h => shown_rejectStaged (fun _ _ h => shown_gc h) h) hmarked.paths
  · obtain ⟨hshown, hsynced⟩ := beside_syncPaths hsync
      (storeBatchCommit env.io (writePhaseMark env ctrl b' .persist).2.store
        (writePhaseMark env ctrl b' .persist).2.s).2.1 _ _ hmarked.paths hcommitted
    exact ⟨rfl, { hsynced with paths := hshown }⟩

/-! ## Rejected paths -/

theorem isRejected_execPathIr (env : ReloadEnv σ) (b : BatchRun σ) (hstaged : w.state = .staged) :
    isRejected (execPathIr env w b).2.1 = isRejected w := by
  unfold execPathIr isRejected
  dsimp only
  rw [hstaged]
  split
  · rw [hstaged]
  split
  · rfl
  split
  · rfl
  · rfl

theorem isRejected_execPaths (env : ReloadEnv σ) (ws : List PathWork) :
    ∀ b, (execPaths env ws b).2.1.map isRejected = ws.map isRejected := by
  induction ws with
  | nil => exact fun _ => rfl
  | cons w ws ih =>
      intro b
      rw [execPaths]
      by_cases hstaged : w.state = .staged
      · rw [if_neg (not_not.mpr hstaged), List.map_cons, List.map_cons, ih,
          isRejected_execPathIr env b hstaged]
      · rw [if_pos hstaged, List.map_cons, List.map_cons, ih]

theorem isRejected_runExec (env : ReloadEnv σ) (ctrl : ReloadBatchController σ) (b : BatchRun σ) :
    (runExec env ctrl b).paths.map isRejected = b.paths.map isRejected := by
  have hpaths := isRejected_execPaths env b.paths b
  unfold runExec
  dsimp only
  split
  · rfl
  split
  · exact hpaths
  split
  · rw [BatchRun.fail, writePhaseMark_paths]
    exact hpaths
  · rw [writePhaseMark_paths]
    exact hpaths

theorem isRejected_syncPaths (env : ReloadEnv σ) (store : AttachStore) (ws : List PathWork) :
    ∀ b, (syncPaths env store ws b).1.map isRejected = ws.map isRejected := by
  induction ws with
  | nil => exact fun _ => rfl
  | cons w ws ih =>
      intro b
      rw [syncPaths]
      by_cases hstaged : w.state = .staged
      · rw [if_neg (not_not.mpr hstaged), List.map_cons, List.map_cons, ih]
        congr 1
        unfold isRejected PathWork.endIn PathWork.gc
        rw [hstaged]
        split
        · rfl
        · rfl
      · rw [if_pos hstaged, List.map_cons, List.map_cons, ih]
        rfl

theorem isRejected_rejectStaged {f : PathWork → PathWork} (hf : ∀ w, isRejected (f w) = isRejected w)
    (ws : List PathWork) :
    (ws.map fun w => if w.state = .staged then w.endIn .persistRejected else f w).map isRejected =
      ws.map isRejected := by
  rw [List.map_map]
  apply List.map_congr_left
  intro w _
  rw [Function.comp_apply]
  split
  · rename_i hstaged
    rw [isRejected, isRejected, hstaged]
    rfl
  · exact hf w

theorem isRejected_finishBatch (env : ReloadEnv σ) (ctrl : ReloadBatchController σ)
    (b : BatchRun σ) : (finishBatch env ctrl b).2.paths.map isRejected = b.paths.map isRejected := by
  have hmark := writePhaseMark_paths env ctrl b .persist
  unfold finishBatch
  dsimp only
  split
  · exact isRejected_rejectStaged (fun _ => rfl) b.paths
  split
  · rfl
  split
  · rw [BatchRun.abort, BatchRun.failOutcome, hmark]
  split
  · rw [BatchRun.failOutcome, hmark]
    exact isRejected_rejectStaged (f := PathWork.gc) (fun _ => rfl) b.paths
  · rw [hmark]
    exact isRejected_syncPaths env _ b.paths _

/-! ## Whole runs -/

def afterReads (env : ReloadEnv σ) (ctrl : ReloadBatchController σ) (b : BatchRun σ) :
    Int × BatchRun σ :=
  if ctrl.scheme ≠ .perBatch then (0, b)
  else
    let gateMark := writeGateMark env ctrl b
    if gateMark.1 ≠ .ok then (attachErrIo, gateMark.2)
    else finishBatch env ctrl (runExec env ctrl gateMark.2)

theorem writeGateMark_paths (env : ReloadEnv σ) (ctrl : ReloadBatchController σ) (b : BatchRun σ) :
    (writeGateMark env ctrl b).2.paths = b.paths := by
  unfold writeGateMark
  split
  · exact writePhaseMark_paths env ctrl b .gate
  · rfl

theorem isRejected_afterReads (env : ReloadEnv σ) (ctrl : ReloadBatchController σ)
    (b : BatchRun σ) : (afterReads env ctrl b).2.paths.map isRejected = b.paths.map isRejected := by
  unfold afterReads
  dsimp only
  split
  · rfl
  split
  · rw [writeGateMark_paths]
  · rw [isRejected_finishBatch, isRejected_runExec, writeGateMark_paths]

theorem keeps_afterReads (hQ : EnvKeeps (fun _ => True) Q env) (ctrl : ReloadBatchController σ)
    (hs : Q b.s) : Q (afterReads env ctrl b).2.s := by
  have hgate : Q (writeGateMark env ctrl b).2.s := by
    unfold writeGateMark
    split
    · exact keeps_writePhaseMark hQ ctrl .gate hs
    · exact hs
  unfold afterReads
  dsimp only
  split
  · exact hs
  split
  · exact hgate
  · exact keeps_finishBatch hQ (fun _ => trivial) ctrl (keeps_runExec hQ ctrl hgate)

theorem beside_afterReads (h : ColdWarm R Q env) (hmark : MarksExec R R' ctrl.scheme env.io)
    (hio : IoAgrees R' env.io) (hsync : SyncAgrees R' env) (hb : Beside R b b')
    (hhandle : ∀ w ∈ b'.paths, w.state = .staged → w.irSnapshotHandle ≠ 0) :
    (afterReads env ctrl b).1 = (afterReads env ctrl b').1 ∧
      Beside R' (afterReads env ctrl b).2 (afterReads env ctrl b').2 := by
  have hgate : (writeGateMark env ctrl b).1 = (writeGateMark env ctrl b').1 ∧
      Beside R (writeGateMark env ctrl b).2 (writeGateMark env ctrl b').2 := by
    unfold writeGateMark
    rw [hasStaged_of_shown hb.paths, hb.hadFailure]
    split
    · exact beside_writePhaseMark h.io ctrl .gate hb
    · exact ⟨rfl, hb⟩
  unfold afterReads
  dsimp only
  split
  · exact ⟨rfl, hb.mono hmark.mono⟩
  rw [hgate.1]
  split
  · exact ⟨rfl, hgate.2.mono hmark.mono⟩
  · apply beside_finishBatch hio hsync
    apply beside_runExec h hmark hgate.2
    rwa [writeGateMark_paths]

theorem runSession_eq (env : ReloadEnv σ) (ctrl : ReloadBatchController σ)
    (readFn : ReloadPathReadFn σ) (b : BatchRun σ) :
    runSession env ctrl readFn b =
      if (writePhaseMark env ctrl b .stage).1 ≠ .ok then
        (attachErrIo, (writePhaseMark env ctrl b .stage).2)
      else afterReads env ctrl (runReads env ctrl readFn (writePhaseMark env ctrl b .stage).2) :=
  rfl

/-- **A session** ends alike in both runs, or in different states of its paths. -/
theorem beside_runSession (h : ColdWarm R Q env) (hQ : EnvKeeps (fun _ => True) Q env)
    (hread : ∀ uri, Agrees R (readFn uri)) (hreadQ : ∀ uri s, Q s → Q (readFn uri s).2)
    (hmark : MarksExec R R' ctrl.scheme env.io) (hio : IoAgrees R' env.io) (hsync : SyncAgrees R' env)
    (hb : Beside R b b') :
    ((runSession env ctrl readFn b).1 = (runSession env ctrl readFn b').1 ∧
        Beside R' (runSession env ctrl readFn b).2 (runSession env ctrl readFn b').2) ∨
      ((runSession env ctrl readFn b).2.paths.map isRejected ≠
          (runSession env ctrl readFn b').2.paths.map isRejected ∧
        Q (runSession env ctrl readFn b).2.s) := by
  obtain ⟨hstage, hstaged⟩ := beside_writePhaseMark h.io ctrl .stage hb
  rw [runSession_eq, runSession_eq, hstage]
  split
  · exact Or.inl ⟨rfl, hstaged.mono hmark.mono⟩
  rcases @beside_runPaths σ R Q env ctrl readFn h hQ hread hreadQ _ _ _ _ hstaged.paths hstaged with
    halike | ⟨hdiffer, hseen⟩
  · exact Or.inl (beside_afterReads h hmark hio hsync { halike.run with paths := halike.shown }
      halike.handle)
  · right
    rw [isRejected_afterReads, isRejected_afterReads]
    exact ⟨hdiffer, keeps_afterReads (b := runReads env ctrl readFn _) hQ ctrl hseen⟩

structure BeginsAlike (R : σ → σ → Prop) (env : ReloadEnv σ) : Prop where
  inStateCallback : ∀ s t, R s t → env.inStateCallback s = env.inStateCallback t
  logBusBound : ∀ s t, R s t → env.logBusBound s = env.logBusBound t
  openStore : ∀ path, Agrees R (env.openStore path)
  sidecarInvalidate : ∀ path s t, R s t →
    R (env.sidecarInvalidate path s) (env.sidecarInvalidate path t)
  loadManifestFile : ∀ m s t, R s t →
    (env.io.loadManifestFile m s).1 = (env.io.loadManifestFile m t).1 ∧
      (env.io.loadManifestFile m s).2.1 = (env.io.loadManifestFile m t).2.1 ∧
        R (env.io.loadManifestFile m s).2.2 (env.io.loadManifestFile m t).2.2

theorem beside_loadSessionRevisions (h : BeginsAlike R env) (ctrl : ReloadBatchController σ)
    {s t : σ} (hst : R s t) :
    (loadSessionRevisions env ctrl s).1 = (loadSessionRevisions env ctrl t).1 ∧
      (loadSessionRevisions env ctrl s).2.1 = (loadSessionRevisions env ctrl t).2.1 ∧
        R (loadSessionRevisions env ctrl s).2.2 (loadSessionRevisions env ctrl t).2.2 := by
  have hopens : Agrees R (ensureAttachStore env ctrl) := by
    intro s t hst
    unfold ensureAttachStore
    split
    · exact ⟨rfl, hst⟩
    · exact h.openStore ctrl.manifestPath s t hst
  have hreloads : ∀ store, StoreAgrees R (storeReloadManifest env.io store) := by
    intro store s t hst
    obtain ⟨hrc, hm, hloaded⟩ := h.loadManifestFile store.manifest s t hst
    unfold storeReloadManifest
    split
    · exact ⟨rfl, rfl, hst⟩
    · exact ⟨hrc, by simp only [hm], hloaded⟩
  obtain ⟨hopen, hopened⟩ := hopens s t hst
  unfold loadSessionRevisions
  dsimp only
  rw [hopen]
  cases (ensureAttachStore env ctrl t).1 with
  | none => exact ⟨rfl, rfl, hopened⟩
  | some store =>
      obtain ⟨hrc, hstore, hloaded⟩ := hreloads store _ _ hopened
      exact ⟨by simp only [hrc], congrArg some hstore, hloaded⟩

theorem beside_beginSession (h : BeginsAlike R env) (ctrl : ReloadBatchController σ)
    (store : AttachStore) {s t : σ} (hst : R s t) :
    Beside R (beginSession env ctrl store s) (beginSession env ctrl store t) where
  store := rfl
  paths := rfl
  bytesUsed := rfl
  outcome := rfl
  hadFailure := rfl
  s := by
    unfold beginSession
    dsimp only
    split
    · exact hst
    · exact h.sidecarInvalidate ctrl.manifestPath s t hst

structure EndsBeside (R : σ → σ → Prop) (run run' : Int × ReloadBatchController σ × σ) : Prop where
  returnCode : run.1 = run'.1
  outcome : run.2.1.outcome = run'.2.1.outcome
  states : pathStates run.2.1 = pathStates run'.2.1
  revisions : run.2.1.attachStore.map (·.manifest) = run'.2.1.attachStore.map (·.manifest)
  s : R run.2.2 run'.2.2

theorem pathStates_of_shown (h : ws.map shown = ws'.map shown) :
    ws.map (fun w => (w.uri, w.state)) = ws'.map fun w => (w.uri, w.state) := by
  have hstates := congrArg (List.map fun x => (x.1, x.2.1)) h
  rwa [List.map_map, List.map_map] at hstates

theorem isRejected_of_pathStates
    (h : ws.map (fun w => (w.uri, w.state)) = ws'.map fun w => (w.uri, w.state)) :
    ws.map isRejected = ws'.map isRejected := by
  have hrejected := congrArg
    (List.map fun x : Bytes × PathOrchestrationState => decide (x.2 = .gateRejected)) h
  rwa [List.map_map, List.map_map] at hrejected

/-- **A run** on both states ends alike, or with different states of its paths. -/
theorem beside_reloadBatchRun (h : ColdWarm R Q env) (hQ : EnvKeeps (fun _ => True) Q env)
    (hbegin : BeginsAlike R env) (ctrl : ReloadBatchController σ)
    (hread : ∀ readFn ∈ ctrl.readFn, ∀ uri, Agrees R (readFn uri) ∧ ∀ s, Q s → Q (readFn uri s).2)
    (hmark : MarksExec R R' ctrl.scheme env.io) (hio : IoAgrees R' env.io) (hsync : SyncAgrees R' env)
    {s t : σ} (hst : R s t) :
    EndsBeside R' (reloadBatchRun env ctrl s) (reloadBatchRun env ctrl t) ∨
      (pathStates (reloadBatchRun env ctrl s).2.1 ≠ pathStates (reloadBatchRun env ctrl t).2.1 ∧
        Q (reloadBatchRun env ctrl s).2.2) := by
  have hsame : ∀ {rc : Int} {ctrl : ReloadBatchController σ} {s t : σ}, R s t →
      EndsBeside R' (rc, ctrl, s) (rc, ctrl, t) :=
    fun hst => ⟨rfl, rfl, rfl, rfl, hmark.mono _ _ hst⟩
  obtain ⟨hok, hstore, hloaded⟩ := beside_loadSessionRevisions hbegin ctrl hst
  unfold reloadBatchRun
  rw [hbegin.inStateCallback s t hst, hbegin.logBusBound s t hst]
  cases hreadFn : ctrl.readFn with
  | none => exact Or.inl (hsame hst)
  | some readFn =>
      dsimp only
      split
      · exact Or.inl (hsame hst)
      split
      · exact Or.inl (hsame hst)
      split
      · exact Or.inl (hsame hst)
      cases hs : loadSessionRevisions env ctrl s with
      | mk ok rest =>
          obtain ⟨store, s'⟩ := rest
          cases ht : loadSessionRevisions env ctrl t with
          | mk ok' rest' =>
              obtain ⟨store', t'⟩ := rest'
              rw [hs, ht] at hok hstore hloaded
              obtain rfl : ok = ok' := hok
              obtain rfl : store = store' := hstore
              cases store with
              | none => exact Or.inl (hsame hloaded)
              | some store =>
                  cases ok with
                  | false => exact Or.inl (hsame hloaded)
                  | true =>
                      have hsession := @beside_runSession σ R R' Q env ctrl readFn _ _ h hQ
                        (fun uri => (hread readFn hreadFn uri).1)
                        (fun uri => (hread readFn hreadFn uri).2) hmark hio hsync
                        (beside_beginSession hbegin ctrl store hloaded)
                      rcases hsession with ⟨hrc, hb⟩ | ⟨hdiffer, hseen⟩
                      · refine Or.inl ⟨hrc, hb.outcome, pathStates_of_shown hb.paths, ?_, hb.s⟩
                        exact congrArg (fun store => some store.manifest) hb.store
                      · refine Or.inr ⟨fun heq => hdiffer ?_, hseen⟩
                        exact isRejected_of_pathStates heq

end Run

end BlessStar.Orchestration.Proofs.SideBySide
