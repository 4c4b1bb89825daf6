import BlessStar.Orchestration.ReloadBatch
import BlessStar.Persistence.Proofs.BatchWrites

/-!
# The outcome of a reload batch

Up to the commit a batch run changes no revision and no path is committed; the
commit takes all paths or none.  A sync that fails after the commit rejects its
path all the same.
-/

namespace BlessStar.Orchestration.Proofs.ReloadOutcome

open Lib.ByteString Persistence Orchestration
open Persistence.Proofs.StoreSteps Persistence.Proofs.BatchWrites

variable {σ : Type} {env : ReloadEnv σ} {ctrl : ReloadBatchController σ}

def key (w : PathWork) : Bytes × UInt64 := (w.uri, w.baseRevision)

def StagedAs (w : PathWork) (e : StagedEntry) : Prop :=
  w.state = .staged ∧ e.uri = w.uri ∧ e.expectedRev = w.baseRevision

structure InSession (m : Manifest) (keys : List (Bytes × UInt64)) (b : BatchRun σ) : Prop where
  manifest : b.store.manifest = m
  batchOpen : b.store.batchOpen = true
  keys : b.paths.map key = keys
  notCommitted : ∀ w ∈ b.paths, w.state ≠ .committed
  staged : b.hadFailure = false → List.Forall₂ StagedAs b.paths b.store.staged

structure Turn (w w' : PathWork) (b b' : BatchRun σ) : Prop where
  key : key w' = key w
  manifest : b'.store.manifest = b.store.manifest
  batchOpen : b'.store.batchOpen = b.store.batchOpen
  notCommitted : w'.state ≠ .committed
  outcome : b'.hadFailure = true ∨ b'.hadFailure = b.hadFailure ∧
    ∃ e, b'.store.staged = b.store.staged ++ [e] ∧ StagedAs w' e

theorem turn_fail {w : PathWork} {b b' : BatchRun σ} {state : PathOrchestrationState}
    (hstate : state ≠ .committed) (hstore : b'.store.manifest = b.store.manifest)
    (hopen : b'.store.batchOpen = b.store.batchOpen) :
    Turn w (w.endIn state) b b'.fail :=
  ⟨rfl, hstore, hopen, hstate, Or.inl rfl⟩

theorem key_publishPathIr (w : PathWork) (s : σ) :
    key (publishPathIr env w s).2.1 = key w := by
  unfold publishPathIr
  split <;> rfl

theorem turn_stagePath (hscheme : ctrl.scheme = .perBatch) (w : PathWork) (data : Bytes)
    (b : BatchRun σ) :
    Turn w (stagePath env ctrl w data b).1 b (stagePath env ctrl w data b).2 := by
  unfold stagePath
  simp only [hscheme, reduceCtorEq, if_false]
  generalize hpublished : (if env.poolWarmed b.s = true then publishPathIr env w b.s
    else (true, w, b.s)) = published
  have hkey : key published.2.1 = key w := by
    rw [← hpublished]
    split
    · exact key_publishPathIr w b.s
    · rfl
  by_cases hok : published.1 = false
  · rw [if_pos hok]
    exact ⟨hkey, rfl, rfl, by simp [PathWork.endIn, PathWork.gc], Or.inl rfl⟩
  · rw [if_neg hok]
    rcases batchStage_cases b.store published.2.1.uri data published.2.1.baseRevision with
      hstage | ⟨e, huri, hrev, hstage⟩
    · rw [hstage, if_pos (by simp)]
      exact ⟨hkey, rfl, rfl, by simp [PathWork.endIn, PathWork.gc], Or.inl rfl⟩
    · rw [hstage, if_neg (by simp)]
      refine ⟨hkey, rfl, rfl, by simp, Or.inr ⟨rfl, e, rfl, rfl, ?_, hrev⟩⟩
      rw [huri, cstr_eq_self published.2.1.noNul]

theorem turn_runPath (env : ReloadEnv σ) (hscheme : ctrl.scheme = .perBatch) (readFn : ReloadPathReadFn σ)
    (w : PathWork) (b : BatchRun σ) :
    Turn w (runPath env ctrl readFn w b).1 b (runPath env ctrl readFn w b).2 := by
  unfold runPath
  simp only
  split
  · exact turn_fail (by simp) rfl rfl
  · rename_i data hread
    split
    · exact turn_fail (by simp) rfl rfl
    · split
      · exact turn_fail (by simp) rfl rfl
      · rename_i gatedIr hgate
        obtain ⟨hkey, hm, hopen, hstate, hout⟩ := turn_stagePath hscheme
          { w with state := .gating, gatedIr := gatedIr } data _
        exact ⟨hkey, hm, hopen, hstate, hout⟩

structure Turns (ws ws' : List PathWork) (b b' : BatchRun σ) : Prop where
  keys : ws'.map key = ws.map key
  manifest : b'.store.manifest = b.store.manifest
  batchOpen : b'.store.batchOpen = b.store.batchOpen
  notCommitted : ∀ w ∈ ws', w.state ≠ .committed
  outcome : b'.hadFailure = true ∨ b'.hadFailure = b.hadFailure ∧
    ∃ es, b'.store.staged = b.store.staged ++ es ∧ List.Forall₂ StagedAs ws' es

theorem turns_runPaths (env : ReloadEnv σ) (hscheme : ctrl.scheme = .perBatch) (readFn : ReloadPathReadFn σ)
    (ws : List PathWork) (b : BatchRun σ) :
    Turns ws (runPaths env ctrl readFn ws b).1 b (runPaths env ctrl readFn ws b).2 := by
  induction ws generalizing b with
  | nil => exact ⟨rfl, rfl, rfl, by simp [runPaths], Or.inr ⟨rfl, [], by simp [runPaths], .nil⟩⟩
  | cons w ws ih =>
      have hturn := turn_runPath env hscheme readFn w b
      have hrest := ih (runPath env ctrl readFn w b).2
      rw [runPaths]
      refine ⟨?_, hrest.manifest.trans hturn.manifest, hrest.batchOpen.trans hturn.batchOpen,
        fun x hx => ?_, ?_⟩
      · rw [List.map_cons, List.map_cons, hturn.key, hrest.keys]
      · rcases List.mem_cons.mp hx with rfl | hx
        · exact hturn.notCommitted
        · exact hrest.notCommitted x hx
      · rcases hrest.outcome with hfail | ⟨hsame, es, hes, hstaged⟩
        · exact Or.inl hfail
        · rcases hturn.outcome with hfail | ⟨hsame', e, he, hstagedAs⟩
          · exact Or.inl (hsame.trans hfail)
          · exact Or.inr ⟨hsame.trans hsame', e :: es, by rw [hes, he, List.append_assoc]; rfl,
              .cons hstagedAs hstaged⟩

theorem writePhaseMark_same (env : ReloadEnv σ) (ctrl : ReloadBatchController σ) (b : BatchRun σ)
    (phase : WalRecoverPhase) :
    (writePhaseMark env ctrl b phase).2.paths = b.paths ∧
      (writePhaseMark env ctrl b phase).2.store = b.store ∧
      (writePhaseMark env ctrl b phase).2.hadFailure = b.hadFailure := by
  unfold writePhaseMark
  split <;> exact ⟨rfl, rfl, rfl⟩

theorem InSession.mark {m : Manifest} {keys : List (Bytes × UInt64)} {b : BatchRun σ}
    (h : InSession m keys b) (phase : WalRecoverPhase) :
    InSession m keys (writePhaseMark env ctrl b phase).2 := by
  unfold writePhaseMark
  split
  · exact h
  · exact ⟨h.manifest, h.batchOpen, h.keys, h.notCommitted, h.staged⟩

theorem InSession.gateMark {m : Manifest} {keys : List (Bytes × UInt64)} {b : BatchRun σ}
    (h : InSession m keys b) : InSession m keys (writeGateMark env ctrl b).2 := by
  unfold writeGateMark
  split
  · exact h.mark .gate
  · exact h

theorem InSession.fail {m : Manifest} {keys : List (Bytes × UInt64)} {b : BatchRun σ}
    (h : InSession m keys b) : InSession m keys b.fail :=
  ⟨h.manifest, h.batchOpen, h.keys, h.notCommitted, fun hf => by simp [BatchRun.fail] at hf⟩

theorem execPathIr_spec (env : ReloadEnv σ) (w : PathWork) (b : BatchRun σ) (hw : w.state = .staged) :
    key (execPathIr env w b).2.1 = key w ∧ (execPathIr env w b).2.1.state ≠ .committed ∧
      (execPathIr env w b).2.2.store = b.store ∧
      (execPathIr env w b).2.2.hadFailure = b.hadFailure ∧
      ((execPathIr env w b).1 = true → (execPathIr env w b).2.1.state = .staged) := by
  unfold execPathIr
  split
  · exact ⟨rfl, by simp [hw], rfl, rfl, by simp⟩
  · simp only
    split
    · exact ⟨rfl, by simp, rfl, rfl, by simp⟩
    · split
      · exact ⟨rfl, by simp, rfl, rfl, by simp⟩
      · exact ⟨rfl, by simp, rfl, rfl, by simp⟩

theorem execPaths_spec (env : ReloadEnv σ) (ws : List PathWork) (b : BatchRun σ) (hws : ∀ w ∈ ws, w.state ≠ .committed) :
    (execPaths env ws b).2.1.map key = ws.map key ∧
      (∀ w ∈ (execPaths env ws b).2.1, w.state ≠ .committed) ∧
      (execPaths env ws b).2.2.store = b.store ∧
      (execPaths env ws b).2.2.hadFailure = b.hadFailure ∧
      ∀ es, (execPaths env ws b).1 = false → List.Forall₂ StagedAs ws es →
        List.Forall₂ StagedAs (execPaths env ws b).2.1 es := by
  induction ws generalizing b with
  | nil => exact ⟨rfl, by simp [execPaths], rfl, rfl, fun es _ h => h⟩
  | cons w ws ih =>
      have htail : ∀ x ∈ ws, x.state ≠ .committed := fun x hx => hws x (List.mem_cons_of_mem _ hx)
      rw [execPaths]
      by_cases hw : w.state = .staged
      · rw [if_neg (by simp [hw])]
        obtain ⟨hkey, hstate, hstore, hfail, hok⟩ := execPathIr_spec env w b hw
        obtain ⟨hkeys, hstates, hstore', hfail', hstaged⟩ := ih (execPathIr env w b).2.2 htail
        refine ⟨?_, fun x hx => ?_, hstore'.trans hstore, hfail'.trans hfail, fun es hes h => ?_⟩
        · rw [List.map_cons, List.map_cons, hkey, hkeys]
        · rcases List.mem_cons.mp hx with rfl | hx
          · exact hstate
          · exact hstates x hx
        · simp only [Bool.or_eq_false_iff, Bool.not_eq_false'] at hes
          cases h with
          | cons hhead hrest =>
              refine .cons ⟨hok hes.1, ?_, ?_⟩ (hstaged _ hes.2 hrest)
              · exact hhead.2.1.trans (congrArg Prod.fst hkey).symm
              · exact hhead.2.2.trans (congrArg Prod.snd hkey).symm
      · rw [if_pos hw]
        obtain ⟨hkeys, hstates, hstore, hfail, hstaged⟩ := ih b htail
        refine ⟨?_, fun x hx => ?_, hstore, hfail, fun es hes h => ?_⟩
        · rw [List.map_cons, List.map_cons, hkeys]
        · rcases List.mem_cons.mp hx with rfl | hx
          · exact hws x List.mem_cons_self
          · exact hstates x hx
        · cases h with
          | cons hhead hrest => exact absurd hhead.1 hw

theorem InSession.runExec {m : Manifest} {keys : List (Bytes × UInt64)} {b : BatchRun σ}
    (h : InSession m keys b) : InSession m keys (runExec env ctrl b) := by
  unfold Orchestration.runExec
  split
  · exact h
  · rename_i hrun
    obtain ⟨hkeys, hstates, hstore, hfail, hstaged⟩ :=
      execPaths_spec env b.paths b h.notCommitted
    have hnofail : b.hadFailure = false := by
      rw [not_or] at hrun
      simpa using hrun.1
    simp only
    split
    · exact ⟨by rw [← h.manifest, ← hstore]; rfl, by rw [← h.batchOpen, ← hstore]; rfl,
        hkeys.trans h.keys, hstates, fun hf => by simp [BatchRun.fail] at hf⟩
    · rename_i hexec
      rw [Bool.not_eq_true] at hexec
      have hafter : InSession m keys { (execPaths env b.paths b).2.2 with
          paths := (execPaths env b.paths b).2.1 } := by
        refine ⟨by rw [← h.manifest, ← hstore], by rw [← h.batchOpen, ← hstore],
          hkeys.trans h.keys, hstates, fun _ => ?_⟩
        simp only [hstore]
        exact hstaged _ hexec (h.staged hnofail)
      split
      · exact (hafter.mark .exec).fail
      · exact hafter.mark .exec

def ManifestSaves (io : PersistIo σ) : Prop := ∀ m s, (io.saveManifestFile m s).1 = .ok

def StateOfSync (env : ReloadEnv σ) (store : AttachStore) (w : PathWork) : Prop :=
  ∃ payload s, w.state =
    if (configSync env store w.uri payload s).1 then .committed else .persistRejected

structure Persisted (env : ReloadEnv σ) (m : Manifest) (store : AttachStore)
    (paths : List PathWork) : Prop where
  advanced : ∀ w ∈ paths, store.manifest.revisionOf w.uri = m.revisionOf w.uri + 1
  others : ∀ uri, uri ∉ paths.map (·.uri) →
    store.manifest.revisionOf uri = m.revisionOf uri
  states : ∀ w ∈ paths, StateOfSync env store w

/-- The batch is not committed: no revision changes and no path is committed. -/
structure NotPersisted (m : Manifest) (store : AttachStore) (paths : List PathWork) : Prop where
  revisions : ∀ uri, store.manifest.revisionOf uri = m.revisionOf uri
  states : ∀ w ∈ paths, w.state ≠ .committed

structure AllOrNone (env : ReloadEnv σ) (m : Manifest) (uris : List Bytes) (store : AttachStore)
    (paths : List PathWork) : Prop where
  uris : paths.map (·.uri) = uris
  batchClosed : store.batchOpen = false
  outcome : Persisted env m store paths ∨ NotPersisted m store paths

theorem storeBatchFlip_ok {io : PersistIo σ} (hsave : ManifestSaves io) (store : AttachStore)
    (s : σ) : (storeBatchFlip io store s).1 = .ok := by
  have hman : ∀ (store : AttachStore) s, (saveManifest io store s).1 = .ok := by
    intro store s
    unfold saveManifest
    split
    · rfl
    · exact hsave _ _
  unfold storeBatchFlip
  simp [hman]

theorem syncPaths_spec (env : ReloadEnv σ) (store : AttachStore) (ws : List PathWork)
    (b : BatchRun σ) (hws : ∀ w ∈ ws, w.state = .staged) :
    (syncPaths env store ws b).1.map (·.uri) = ws.map (·.uri) ∧
      (syncPaths env store ws b).2.store = b.store ∧
      ∀ w ∈ (syncPaths env store ws b).1, StateOfSync env store w := by
  induction ws generalizing b with
  | nil => exact ⟨rfl, rfl, by simp [syncPaths]⟩
  | cons w ws ih =>
      rw [syncPaths, if_neg (by simp [hws w List.mem_cons_self])]
      simp only
      generalize hnext : (if (configSync env store w.uri w.stagedPayload b.s).1 = true then
        { b with s := (configSync env store w.uri w.stagedPayload b.s).2 }
        else { b with s := (configSync env store w.uri w.stagedPayload b.s).2 }.fail) = next
      have hsame : next.store = b.store := by
        rw [← hnext]
        split <;> rfl
      obtain ⟨huris, hstore, hstates⟩ := ih next fun x hx => hws x (List.mem_cons_of_mem _ hx)
      refine ⟨by rw [List.map_cons, List.map_cons, huris]; rfl, hstore.trans hsame, fun x hx => ?_⟩
      rcases List.mem_cons.mp hx with rfl | hx
      · exact ⟨w.stagedPayload, b.s, rfl⟩
      · exact hstates x hx

theorem forall₂_uris {ws : List PathWork} {es : List StagedEntry}
    (h : List.Forall₂ StagedAs ws es) : es.map (·.uri) = ws.map (·.uri) := by
  induction h with
  | nil => rfl
  | cons hhead _ ih => rw [List.map_cons, List.map_cons, hhead.2.1, ih]

theorem forall₂_staged {ws : List PathWork} {es : List StagedEntry}
    (h : List.Forall₂ StagedAs ws es) : ∀ w ∈ ws, w.state = .staged := by
  induction h with
  | nil => simp
  | cons hhead _ ih =>
      intro x hx
      rcases List.mem_cons.mp hx with rfl | hx
      · exact hhead.1
      · exact ih x hx

theorem flip_revisions {m : Manifest} {ws : List PathWork} {es : List StagedEntry}
    (hcas : casHolds m es = true) (h : List.Forall₂ StagedAs ws es) (nextEpoch : UInt64) :
    (∀ uri ∈ ws.map (·.uri), (flipManifest m nextEpoch es).revisionOf uri = m.revisionOf uri + 1) ∧
      ∀ uri, uri ∉ ws.map (·.uri) →
        (flipManifest m nextEpoch es).revisionOf uri = m.revisionOf uri := by
  rw [← forall₂_uris h]
  refine ⟨fun uri huri => ?_, fun uri huri => (flipManifest_other m nextEpoch huri).1⟩
  obtain ⟨e, he, rfl⟩ := List.mem_map.mp huri
  exact flipManifest_revisionOf m nextEpoch hcas he

theorem map_uri_of_keys {ws ws' : List PathWork} (h : ws'.map key = ws.map key) :
    ws'.map (·.uri) = ws.map (·.uri) := by
  have huris := congrArg (List.map Prod.fst) h
  rw [List.map_map, List.map_map] at huris
  exact huris

theorem rejectStaged_states {ws : List PathWork} (hws : ∀ w ∈ ws, w.state ≠ .committed)
    {f : PathWork → PathWork} (hf : ∀ w, (f w).state = w.state) :
    ∀ w ∈ ws.map (fun w => if w.state = .staged then w.endIn .persistRejected else f w),
      w.state ≠ .committed := by
  intro x hx
  obtain ⟨w, hw, rfl⟩ := List.mem_map.mp hx
  split
  · simp [PathWork.endIn, PathWork.gc]
  · rw [hf]
    exact hws w hw

theorem rejectStaged_uris (ws : List PathWork) {f : PathWork → PathWork}
    (hf : ∀ w, (f w).uri = w.uri) :
    (ws.map fun w => if w.state = .staged then w.endIn .persistRejected else f w).map (·.uri) =
      ws.map (·.uri) := by
  rw [List.map_map]
  refine List.map_congr_left fun w _ => ?_
  simp only [Function.comp]
  split
  · rfl
  · exact hf w

/-- **The end of a batch.**  It commits all of its paths or none. -/
theorem allOrNone_finishBatch (hsave : ManifestSaves env.io) {m : Manifest}
    {keys : List (Bytes × UInt64)} {b : BatchRun σ} (h : InSession m keys b) :
    AllOrNone env m (b.paths.map (·.uri)) (finishBatch env ctrl b).2.store
      (finishBatch env ctrl b).2.paths := by
  unfold finishBatch
  by_cases hfail : b.hadFailure = true
  · rw [if_pos hfail]
    refine ⟨rejectStaged_uris b.paths fun _ => rfl, rfl, Or.inr ⟨fun uri => ?_, ?_⟩⟩
    · rw [← h.manifest]
      rfl
    · exact rejectStaged_states h.notCommitted fun _ => rfl
  · rw [if_neg hfail]
    by_cases hpaths : b.paths = []
    · rw [if_pos hpaths]
      refine ⟨rfl, rfl, Or.inr ⟨fun uri => ?_, h.notCommitted⟩⟩
      rw [← h.manifest]
      rfl
    · rw [if_neg hpaths]
      obtain ⟨hsame, -, hnofail⟩ := writePhaseMark_same env ctrl b .persist
      have hmark : InSession m keys (writePhaseMark env ctrl b .persist).2 := h.mark .persist
      generalize writePhaseMark env ctrl b .persist = mark at hsame hnofail hmark
      rw [← hsame]
      simp only
      split
      · refine ⟨rfl, rfl, Or.inr ⟨fun uri => ?_, hmark.notCommitted⟩⟩
        rw [← hmark.manifest]
        rfl
      · have hstaged := hmark.staged (by rw [hnofail]; simpa using hfail)
        rcases storeBatchCommit_cases env.io mark.2.store mark.2.s with
          ⟨hclosed, -⟩ | ⟨rc, s', hrc, hrun⟩ | ⟨-, hcas, s', hrun⟩
        · rw [hmark.batchOpen] at hclosed
          cases hclosed
        · simp only [hrun, ne_eq, hrc, not_false_eq_true, if_true]
          refine ⟨rejectStaged_uris _ fun _ => rfl, rfl, Or.inr ⟨fun uri => ?_, ?_⟩⟩
          · rw [← hmark.manifest]
            rfl
          · exact rejectStaged_states hmark.notCommitted fun _ => rfl
        · obtain ⟨hm, -, hclosed, -⟩ := storeBatchFlip_store env.io mark.2.store s'
          simp only [hrun, storeBatchFlip_ok hsave, ne_eq, not_true_eq_false, if_false]
          generalize storeBatchFlip env.io mark.2.store s' = flip at hm hclosed
          obtain ⟨huris, hstore, hstates⟩ := syncPaths_spec env flip.2.1 mark.2.paths
            { mark.2 with store := flip.2.1, s := flip.2.2 } (forall₂_staged hstaged)
          obtain ⟨hadvanced, hothers⟩ := flip_revisions hcas hstaged
            (mark.2.store.manifest.batchEpoch + 1)
          rw [← hm, hmark.manifest] at hadvanced hothers
          refine ⟨huris, by rw [hstore]; exact hclosed, Or.inl ⟨fun w hw => ?_, ?_, ?_⟩⟩
          · rw [hstore]
            exact hadvanced w.uri (huris ▸ List.mem_map_of_mem hw)
          · rw [hstore, huris]
            exact hothers
          · rw [hstore]
            exact hstates

/-- Neither the STAGE mark nor the GATE mark of a session fails. -/
def MarksHold (env : ReloadEnv σ) (ctrl : ReloadBatchController σ) (readFn : ReloadPathReadFn σ)
    (b : BatchRun σ) : Prop :=
  (writePhaseMark env ctrl b .stage).1 = .ok ∧
    (writeGateMark env ctrl (runReads env ctrl readFn (writePhaseMark env ctrl b .stage).2)).1 = .ok

structure NotBegun (ctrl ctrl' : ReloadBatchController σ) : Prop where
  paths : ctrl'.paths = ctrl.paths
  batchOpen : ∀ store ∈ ctrl.attachStore, ∃ store' ∈ ctrl'.attachStore,
    store'.batchOpen = store.batchOpen

theorem inSession_runReads (env : ReloadEnv σ) (hscheme : ctrl.scheme = .perBatch)
    (readFn : ReloadPathReadFn σ)
    {b : BatchRun σ} (hopen : b.store.batchOpen = true) (hstaged : b.store.staged = []) :
    InSession b.store.manifest (b.paths.map key) (runReads env ctrl readFn b) := by
  have hturns := turns_runPaths env hscheme readFn b.paths b
  refine ⟨hturns.manifest, hturns.batchOpen.trans hopen, hturns.keys, hturns.notCommitted, ?_⟩
  intro hnofail
  rcases hturns.outcome with hfail | ⟨-, es, hes, hall⟩
  · exact absurd (hnofail.symm.trans hfail) (by simp)
  · rw [hstaged, List.nil_append] at hes
    simp only [runReads]
    rw [hes]
    exact hall

theorem allOrNone_runSession (hscheme : ctrl.scheme = .perBatch) (hsave : ManifestSaves env.io)
    {readFn : ReloadPathReadFn σ} {b : BatchRun σ} (hopen : b.store.batchOpen = true)
    (hstaged : b.store.staged = []) (hmarks : MarksHold env ctrl readFn b) :
    AllOrNone env b.store.manifest (b.paths.map (·.uri)) (runSession env ctrl readFn b).2.store
      (runSession env ctrl readFn b).2.paths := by
  obtain ⟨hsame, hstore, -⟩ := writePhaseMark_same env ctrl b .stage
  unfold runSession
  simp only [hmarks.1, hmarks.2, hscheme, ne_eq, not_true_eq_false, if_false]
  have hreads := inSession_runReads env hscheme readFn
    (b := (writePhaseMark env ctrl b .stage).2) (by rw [hstore, hopen]) (by rw [hstore, hstaged])
  rw [hstore, hsame] at hreads
  set reads := runReads env ctrl readFn (writePhaseMark env ctrl b .stage).2
  have hgate : InSession b.store.manifest (b.paths.map key) (writeGateMark env ctrl reads).2 :=
    hreads.gateMark
  have hexec : InSession b.store.manifest (b.paths.map key)
      (runExec env ctrl (writeGateMark env ctrl reads).2) := hgate.runExec
  rw [← map_uri_of_keys hexec.keys]
  exact allOrNone_finishBatch hsave hexec

theorem batchOpen_load {s s' : σ} {ok : Bool} {store store' : AttachStore}
    (hattached : ctrl.attachStore = some store)
    (hload : loadSessionRevisions env ctrl s = (ok, some store', s')) :
    store'.batchOpen = store.batchOpen := by
  unfold loadSessionRevisions ensureAttachStore at hload
  rw [hattached] at hload
  simp only [Prod.mk.injEq, Option.some.injEq] at hload
  rw [← hload.2.1, storeReloadManifest]
  split <;> rfl

theorem beginSession_spec (env : ReloadEnv σ) (hscheme : ctrl.scheme = .perBatch)
    (store : AttachStore) (s : σ) :
    (beginSession env ctrl store s).store.manifest = store.manifest ∧
      (beginSession env ctrl store s).store.batchOpen = true ∧
      (beginSession env ctrl store s).store.staged = [] ∧
      (beginSession env ctrl store s).paths.map (·.uri) = ctrl.paths.map (·.uri) := by
  unfold beginSession
  rw [hscheme, if_pos rfl]
  exact ⟨rfl, rfl, rfl, by simp⟩

def memoryIo : PersistIo Unit where
  walAppendBatch _ _ _ := (.ok, ())
  writeFileAtomic _ _ _ := (.ok, ())
  walAppendPhaseMark _ _ _ _ := (.ok, ())
  saveManifestFile _ _ := (.ok, ())
  walAppendCommitted _ _ := (.ok, ())
  walRotate _ _ := (.ok, ())
  walPurge _ last _ := (last, ())
  loadManifestFile m _ := (.ok, m, ())

/-- Everything goes well but the sync, which returns `syncRc`. -/
def memoryEnv (syncRc : Int) : ReloadEnv Unit where
  io := memoryIo
  inStateCallback _ := false
  logBusBound _ := true
  openStore _ _ := (none, ())
  sidecarInvalidate _ _ := ()
  gatePathWork _ _ _ := (some true, ())
  poolWarmed _ := false
  snapshotPublish _ _ _ := (0, ())
  execParsedIr _ _ := (0, ())
  snapshotRemove _ _ := (0, ())
  snapshotClearAll _ := ()
  hasManager _ := true
  configSyncPath _ _ _ := (syncRc, ())
  postConfigSync _ _ _ := (0, ())

theorem not_zero_mem_fileA : (0 : UInt8) ∉ ascii "file://a" := by decide

/-- One path, `file://a`, on a fresh store in memory. -/
def onePath : ReloadBatchController Unit where
  paths := [{ uri := ascii "file://a", noNul := not_zero_mem_fileA }]
  readFn := some fun _ _ => (some [1], ())
  scheme := .perBatch
  attachStore := some { memoryOnly := true }

end BlessStar.Orchestration.Proofs.ReloadOutcome
