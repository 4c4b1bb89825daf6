import BlessStar.Orchestration.Proofs.RunInvariant
import BlessStar.Sdk.Proofs.SessionCommit

/-!
# The file URIs of a commit

The run over the file URIs changes the configuration of no other URI, and when it
goes well it has read, gated and synced each URI that its controller took.
-/

namespace BlessStar.Sdk.Proofs.SessionFiles

open Lib.ByteString Persistence Orchestration Session
open State Orchestration.Proofs.RunInvariant
open Sdk.Proofs.SessionCommit

variable {ρ σ : Type} {E : SessionEnv ρ σ} {session : ConfigReloadSession σ}
  {P : Gated (CommitState σ) → Prop} {g : Gated (CommitState σ)}

/-! ## The surroundings of the first phase -/

abbrev filesEnv (E : SessionEnv ρ σ) (session : ConfigReloadSession σ) :
    ReloadEnv (Gated (CommitState σ)) := (sessionCall E session).gatedEnv E.parser

abbrev filesCtrl (E : SessionEnv ρ σ) (session : ConfigReloadSession σ) :
    ReloadBatchController (Gated (CommitState σ)) :=
  (sessionCall E session).ctrl.frame (gatedFrame (CommitState σ))

theorem gatePathWork_snd {τ : Type} (gate : Bytes → Int) (poolReady : Bool) (uri data : Bytes)
    (s : τ) : (gatePathWork E.parser (some fun _ data s => (gate data, s)) poolReady uri data s).2
      = s := by
  unfold gatePathWork
  dsimp only [Option.getD_some]
  split
  · split
    · rfl
    · rfl
  · split
    · rfl
    · split
      · rfl
      · rfl

theorem gatePath_s (E : SessionEnv ρ σ) (session : ConfigReloadSession σ) (uri data : Bytes)
    (g : Gated (CommitState σ)) :
    (gatePath E.parser (sessionCall E session) uri data g).2.s = g.s := by
  have hs := gatePathWork_snd (E := E) (sessionGate E.parser session.gates)
    ((sessionCall E session).env.poolWarmed g.s) uri data g.s
  unfold gatePath
  dsimp only
  split
  · exact hs
  · exact hs
  · exact hs

theorem gatePath_passed {uri data : Bytes} {gatedIr : Bool}
    (h : (gatePath E.parser (sessionCall E session) uri data g).1 = some gatedIr) :
    (gatePath E.parser (sessionCall E session) uri data g).2.passed = (uri, data) :: g.passed := by
  unfold gatePath at h ⊢
  dsimp only at h ⊢
  split
  · rename_i hgate
    rw [hgate] at h
    cases h
  · rfl
  · rfl

theorem sessionGate_of_gatePath {uri data : Bytes} {gatedIr : Bool}
    (h : (gatePath E.parser (sessionCall E session) uri data g).1 = some gatedIr) :
    sessionGate E.parser session.gates data = reloadGateOk := by
  have hgate : (gatePathWork E.parser (sessionCall E session).gateFn
      ((sessionCall E session).env.poolWarmed g.s) uri data g.s).1 ≠ none := by
    intro hnone
    unfold gatePath at h
    dsimp only at h
    rw [hnone] at h
    cases h
  by_contra hreject
  apply hgate
  unfold gatePathWork sessionCall
  dsimp only [Option.getD_some]
  split
  · rfl
  · split
    · rfl
    · rfl

theorem poolKeeps_files (h : ∀ g s, P g → P { g with s := { g.s with s := s } }) :
    PoolKeeps P (filesEnv E session) where
  snapshotPublish _ _ g := h g _
  execParsedIr _ g := h g _
  snapshotRemove _ g := h g _
  snapshotClearAll g := h g _

theorem ioKeeps_files (h : ∀ g s, P g → P { g with s := { g.s with s := s } }) :
    IoKeeps P (filesEnv E session).io where
  walAppendBatch _ _ g := h g _
  writeFileAtomic _ _ g := h g _
  walAppendPhaseMark _ _ _ g := h g _
  saveManifestFile _ g := h g _
  walAppendCommitted _ g := h g _
  walRotate _ g := h g _
  walPurge _ _ g := h g _
  loadManifestFile _ g := h g _

theorem envKeeps_files {U : Bytes → Prop} {uri : Bytes} {impl : Option StateEntryImpl}
    (hU : ∀ other, U other → uri ≠ other) :
    EnvKeeps U (fun g => g.s.stateBus uri = impl) (filesEnv E session) where
  io := ioKeeps_files fun _ _ h => h
  pool := poolKeeps_files fun _ _ h => h
  openStore _ _ h := h
  sidecarInvalidate _ _ h := h
  gatePathWork path data g h := by
    rw [show ((filesEnv E session).gatePathWork path data g).2.s = g.s from
      gatePath_s E session path data g]
    exact h
  configSyncPath path data g hpath h := by
    rw [← h]
    exact configSyncPath_of_ne (hU path hpath)
  postConfigSync _ _ _ h := h

/-! ## Adding URIs -/

theorem addUris_ctrl (uris : List Bytes) (report : CommitReport)
    (ctrl : ReloadBatchController σ) :
    (addUris uris report ctrl).2 = { ctrl with paths := (addUris uris report ctrl).2.paths } := by
  induction uris generalizing report ctrl with
  | nil => rfl
  | cons uri uris ih =>
      rw [addUris]
      have hadd : (ctrl.addPath uri).2 = { ctrl with paths := (ctrl.addPath uri).2.paths } := by
        unfold ReloadBatchController.addPath
        split
        · rfl
        split
        · rfl
        · rfl
      rw [ih, hadd]

theorem addUris_status (uris : List Bytes) (report : CommitReport)
    (ctrl : ReloadBatchController σ) :
    (addUris uris report ctrl).1.status = report.status := by
  induction uris generalizing report ctrl with
  | nil => rfl
  | cons uri uris ih =>
      rw [addUris, ih]
      split
      · rfl
      · rfl

theorem addUris_paths {uris : List Bytes} (report : CommitReport)
    (ctrl : ReloadBatchController σ) (hnonempty : ∀ uri ∈ uris, uri ≠ [])
    (hnoNul : ∀ uri ∈ uris, (0 : UInt8) ∉ uri) :
    (addUris uris report ctrl).2.paths.map (·.uri) =
      ctrl.paths.map (·.uri) ++ uris.take (ctrl.maxInflight - ctrl.paths.length) := by
  induction uris generalizing report ctrl with
  | nil => simp [addUris]
  | cons uri uris ih =>
      have hcstr : cstr uri = uri := cstr_eq_self (hnoNul uri List.mem_cons_self)
      have hne : ¬cstr uri = [] := by
        rw [hcstr]
        exact hnonempty uri List.mem_cons_self
      rw [addUris]
      rw [ih _ _ (fun x hx => hnonempty x (List.mem_cons_of_mem uri hx))
        fun x hx => hnoNul x (List.mem_cons_of_mem uri hx)]
      unfold ReloadBatchController.addPath
      rw [if_neg hne]
      by_cases hfull : ctrl.maxInflight ≤ ctrl.paths.length
      · rw [if_pos hfull]
        have hzero : ctrl.maxInflight - ctrl.paths.length = 0 := by omega
        rw [hzero, List.take_zero, List.take_zero]
      · rw [if_neg hfull]
        have hsucc : ctrl.maxInflight - ctrl.paths.length =
            ctrl.maxInflight - (ctrl.paths.length + 1) + 1 := by omega
        rw [hsucc, List.take_succ_cons]
        simp [hcstr]

/-! ## A turn that goes well -/

variable {ctrl : ReloadBatchController (Gated (CommitState σ))}
  {readFn : ReloadPathReadFn (Gated (CommitState σ))} {b : BatchRun (Gated (CommitState σ))}
  {w : PathWork} {data : Bytes}

def SameConfigs (g g' : Gated (CommitState σ)) : Prop :=
  g'.passed = g.passed ∧ g'.s.stateBus = g.s.stateBus

theorem sameConfigs_put (g g' : Gated (CommitState σ)) (s : σ) (h : SameConfigs g g') :
    SameConfigs g { g' with s := { g'.s with s := s } } := h

theorem readFn_keeps (h : ∀ g s, P g → P { g with s := { g.s with s := s } })
    (hread : readFn ∈ (filesCtrl E session).readFn)
    (uri : Bytes) (g : Gated (CommitState σ)) (hg : P g) : P (readFn uri g).2 := by
  obtain ⟨callback, hcallback, rfl⟩ := Option.map_eq_some_iff.mp hread
  rw [sessionCall, addUris_ctrl] at hcallback
  obtain ⟨user, -, rfl⟩ := Option.map_eq_some_iff.mp hcallback
  unfold sessionReadFn gatedFrame StateFrame.lift
  dsimp only
  split
  · exact hg
  · exact h g _ hg

def IsRead (readFn : ReloadPathReadFn (Gated (CommitState σ))) (uri data : Bytes) : Prop :=
  ∃ g, (readFn uri g).1 = some data

theorem isRead_of_runReadWithRetry {uri : Bytes} {retries : Nat}
    (h : (runReadWithRetry readFn uri retries g).1 = some data) : IsRead readFn uri data := by
  induction retries generalizing g with
  | zero => exact ⟨g, h⟩
  | succ n ih =>
      rw [runReadWithRetry] at h
      split at h
      · rename_i heq
        have hdata := congrArg Prod.fst heq
        exact ⟨g, hdata.trans h⟩
      · exact ih h

def Synced (inCallback : Bool) (uri data : Bytes) (g g' : Gated (CommitState σ)) : Prop :=
  g'.passed = g.passed ∧ (data ≠ [] → ∃ c : CommitState σ, c.stateBus = g.s.stateBus ∧
    (configSyncPath inCallback uri data c).1 = 0 ∧
    g'.s.stateBus = (configSyncPath inCallback uri data c).2.stateBus)

theorem synced_configSync {store : AttachStore} {uri : Bytes}
    (h : (configSync (filesEnv E session) store uri data g).1 = true) :
    Synced E.inCallback uri data g (configSync (filesEnv E session) store uri data g).2 := by
  unfold configSync at h ⊢
  dsimp only at h ⊢
  split
  · rename_i hskip
    have hdata : data = [] := hskip.resolve_left fun hmanager => by cases hmanager
    exact ⟨rfl, fun hne => absurd hdata hne⟩
  · rename_i hskip
    rw [if_neg hskip] at h
    split
    · rename_i hfailed
      rw [if_pos hfailed] at h
      cases h
    · rename_i hok
      exact ⟨rfl, fun _ => ⟨g.s, rfl, not_not.mp hok, rfl⟩⟩

theorem persistPerPath_ok (h : (persistPerPath (filesEnv E session) w data b).1 = true) :
    (persistPerPath (filesEnv E session) w data b).2.2.outcome = b.outcome ∧
      (uriToPath (cstr w.uri) pathCap).isSome ∧ Synced E.inCallback w.uri data b.s
        (persistPerPath (filesEnv E session) w data b).2.2.s := by
  have hcommit : SameConfigs b.s
      (storeCommitPerPath (filesEnv E session).io b.store w.uri data w.baseRevision b.s).2.2 :=
    keeps_storeCommitPerPath (ioKeeps_files (sameConfigs_put b.s)) b.store w.uri data
      w.baseRevision ⟨rfl, rfl⟩
  unfold persistPerPath at h ⊢
  dsimp only at h ⊢
  split
  · rename_i hfailed
    rw [if_pos hfailed] at h
    cases h
  · rename_i hok
    rw [if_neg hok] at h
    obtain ⟨hpassed, hsynced⟩ := synced_configSync h
    rw [hcommit.1] at hpassed
    rw [hcommit.2] at hsynced
    exact ⟨rfl, isSome_of_storeCommitPerPath (not_not.mp hok), hpassed, hsynced⟩

theorem execPathIr_outcome (E : SessionEnv ρ σ) (session : ConfigReloadSession σ)
    (b : BatchRun (Gated (CommitState σ))) (hhandle : w.irSnapshotHandle ≠ 0) :
    (execPathIr (filesEnv E session) w b).2.2.outcome =
      if (execPathIr (filesEnv E session) w b).1 then b.outcome else .completedWithFailures := by
  unfold execPathIr
  dsimp only
  rw [if_neg hhandle]
  split
  · rfl
  split
  · rfl
  · rfl

theorem handle_of_publishPathIr (h : (publishPathIr (filesEnv E session) w g).1 = true) :
    (publishPathIr (filesEnv E session) w g).2.1.irSnapshotHandle ≠ 0 := by
  unfold publishPathIr at h ⊢
  split
  · rename_i hgated
    rw [if_pos hgated] at h
    cases h
  · rename_i hgated
    rw [if_neg hgated] at h
    simpa using h

theorem synced_stagePath (hscheme : ctrl.scheme = .perPath)
    (h : (stagePath (filesEnv E session) ctrl w data b).2.outcome = .allOk) :
    b.outcome = .allOk ∧ (uriToPath (cstr w.uri) pathCap).isSome ∧
      Synced E.inCallback w.uri data b.s (stagePath (filesEnv E session) ctrl w data b).2.s := by
  have hpool : PoolKeeps (SameConfigs b.s) (filesEnv E session) :=
    poolKeeps_files (sameConfigs_put b.s)
  have hpublished := keeps_publishPathIr (s := b.s) hpool w ⟨rfl, rfl⟩
  have huri := uri_publishPathIr (filesEnv E session) w b.s
  have hhandle : (publishPathIr (filesEnv E session) w b.s).1 = true →
      (publishPathIr (filesEnv E session) w b.s).2.1.irSnapshotHandle ≠ 0 :=
    handle_of_publishPathIr
  unfold stagePath at h ⊢
  dsimp only at h ⊢
  rw [if_pos hscheme] at h ⊢
  cases hwarmed : (filesEnv E session).poolWarmed b.s with
  | false =>
      rw [hwarmed] at h
      simp only [Bool.false_eq_true, Bool.true_eq_false, if_false] at h ⊢
      cases hpersist : (persistPerPath (filesEnv E session) w data b).1 with
      | false =>
          rw [hpersist] at h
          cases h
      | true =>
          obtain ⟨houtcome, hpath, hsynced⟩ := persistPerPath_ok hpersist
          rw [hpersist] at h
          exact ⟨houtcome.symm.trans h, hpath, hsynced⟩
  | true =>
      rw [hwarmed] at h
      simp only [if_true] at h ⊢
      generalize publishPathIr (filesEnv E session) w b.s = published
        at h hpublished huri hhandle ⊢
      obtain ⟨ok, w', s'⟩ := published
      dsimp only at h hpublished huri hhandle ⊢
      cases ok with
      | false => cases h
      | true =>
          simp only [Bool.true_eq_false, if_false] at h ⊢
          have hexec := keeps_execPathIr (b := { b with s := s' }) hpool w' hpublished
          have houtcome := execPathIr_outcome E session { b with s := s' } (hhandle rfl)
          have hexecUri := uri_execPathIr (filesEnv E session) w' { b with s := s' }
          generalize execPathIr (filesEnv E session) w' { b with s := s' } = exec
            at h hexec houtcome hexecUri ⊢
          obtain ⟨ok, w'', b''⟩ := exec
          dsimp only at h hexec houtcome hexecUri ⊢
          cases ok with
          | false =>
              rw [if_pos rfl] at h
              rw [if_neg Bool.false_ne_true] at houtcome
              have hbad : BatchOutcome.completedWithFailures = .allOk := houtcome.symm.trans h
              cases hbad
          | true =>
              simp only [Bool.true_eq_false, if_false] at h ⊢
              rw [if_pos rfl] at houtcome
              cases hpersist : (persistPerPath (filesEnv E session) w'' data b'').1 with
              | false =>
                  rw [hpersist] at h
                  cases h
              | true =>
                  obtain ⟨hsame, hpath, hpassed, hsynced⟩ := persistPerPath_ok hpersist
                  rw [hpersist] at h
                  rw [hexecUri, huri] at hpath
                  rw [hexec.1] at hpassed
                  rw [hexec.2, hexecUri, huri] at hsynced
                  exact ⟨(hsame.trans houtcome).symm.trans h, hpath, hpassed, hsynced⟩

/-- **A turn of the loop.**  A path whose turn does not show in the outcome is read,
gated and synced. -/
theorem runPath_ok
    (hread : readFn ∈ (filesCtrl E session).readFn)
    (hscheme : ctrl.scheme = .perPath)
    (h : (runPath (filesEnv E session) ctrl readFn w b).2.outcome = .allOk) :
    b.outcome = .allOk ∧ (uriToPath (cstr w.uri) pathCap).isSome ∧
      ∃ data, IsRead readFn w.uri data ∧
      sessionGate E.parser session.gates data = reloadGateOk ∧
      (runPath (filesEnv E session) ctrl readFn w b).2.s.passed = (w.uri, data) :: b.s.passed ∧
      (data ≠ [] →
        getConfigByUri (runPath (filesEnv E session) ctrl readFn w b).2.s.s w.uri = .ok data) := by
  have hsame := keeps_runReadWithRetry (readFn_keeps (sameConfigs_put b.s) hread) w.uri
    ctrl.maxRetry ⟨rfl, rfl⟩
  unfold runPath at h ⊢
  dsimp only at h ⊢
  split
  · rename_i hfailed
    rw [hfailed] at h
    cases h
  · rename_i data hdata
    have hisRead := isRead_of_runReadWithRetry hdata
    rw [hdata] at h
    dsimp only at h
    generalize (runReadWithRetry readFn w.uri ctrl.maxRetry b.s).2 = g at h hsame ⊢
    split
    · rename_i hcap
      rw [if_pos hcap] at h
      cases h
    · rename_i hcap
      rw [if_neg hcap] at h
      split
      · rename_i hgate
        rw [hgate] at h
        cases h
      · rename_i gatedIr hgate
        rw [hgate] at h
        have hpassed := gatePath_passed hgate
        obtain ⟨houtcome, hpath, hpassed', hsynced⟩ := synced_stagePath hscheme h
        refine ⟨houtcome, hpath, data, hisRead, sessionGate_of_gatePath hgate, ?_, ?_⟩
        · rw [hpassed', ← hsame.1]
          exact hpassed
        · intro hne
          obtain ⟨c, -, hok, hbus⟩ := hsynced hne
          have hc := getConfigByUri_sync hne hok
          unfold getConfigByUri at hc ⊢
          rw [hbus]
          exact hc

/-! ## The run -/

theorem file_of_isSome {uri : Bytes} (h : (uriToPath (cstr uri) pathCap).isSome)
    (hnoNul : (0 : UInt8) ∉ uri) : ascii "file://" <+: uri := by
  by_contra hnot
  rw [cstr_eq_self hnoNul] at h
  unfold uriToPath at h
  rw [cstr_eq_self hnoNul] at h
  simp [hnot] at h

def Filed (E : SessionEnv ρ σ) (session : ConfigReloadSession σ)
    (readFn : ReloadPathReadFn (Gated (CommitState σ))) (g : Gated (CommitState σ))
    (uri : Bytes) : Prop :=
  ascii "file://" <+: uri ∧ ∃ data, lastPassed g.passed uri = some data ∧ IsRead readFn uri data ∧
    sessionGate E.parser session.gates data = reloadGateOk ∧
    (data ≠ [] → getConfigByUri g.s uri = .ok data)

/-- **The loop.**  When nothing shows in the outcome, every path is filed. -/
theorem runPaths_ok
    (hread : readFn ∈ (filesCtrl E session).readFn)
    (hscheme : ctrl.scheme = .perPath) (ws : List PathWork)
    (h : (runPaths (filesEnv E session) ctrl readFn ws b).2.outcome = .allOk) :
    b.outcome = .allOk ∧
      (∃ news, (runPaths (filesEnv E session) ctrl readFn ws b).2.s.passed =
        news ++ b.s.passed ∧ ∀ p ∈ news, p.1 ∈ ws.map (·.uri)) ∧
      ∀ uri ∈ ws.map (·.uri),
        Filed E session readFn (runPaths (filesEnv E session) ctrl readFn ws b).2.s uri := by
  induction ws generalizing b with
  | nil => exact ⟨h, ⟨[], rfl, by simp⟩, by simp⟩
  | cons w ws ih =>
      rw [runPaths] at h ⊢
      dsimp only at h ⊢
      have hrest : ∀ x ∈ ws, (uriToPath (cstr x.uri) pathCap).isSome →
          x.uri ∈ ws.map (·.uri) := fun x hx _ => List.mem_map_of_mem hx
      obtain ⟨hturn, ⟨news, hnews, hmem⟩, hfiled⟩ := ih h
      obtain ⟨houtcome, hpath, data, hisRead, hgate, hpassed, hconfig⟩ :=
        runPath_ok hread hscheme hturn
      generalize (runPath (filesEnv E session) ctrl readFn w b).2 = b' at *
      refine ⟨houtcome, ⟨news ++ [(w.uri, data)], ?_, ?_⟩, ?_⟩
      · rw [hnews, hpassed, List.append_assoc]
        rfl
      · intro p hp
        rcases List.mem_append.mp hp with hp | hp
        · exact List.mem_cons_of_mem w.uri (hmem p hp)
        · obtain rfl := List.mem_singleton.mp hp
          exact List.mem_cons_self
      · intro uri huri
        by_cases hlater : uri ∈ ws.map (·.uri)
        · exact hfiled uri hlater
        · obtain rfl : uri = w.uri := (List.mem_cons.mp huri).resolve_right hlater
          refine ⟨file_of_isSome hpath w.noNul, data, ?_, hisRead, hgate, ?_⟩
          · have hnot : ∀ p ∈ news, p.1 ≠ w.uri := by
              intro p hp heq
              rw [← heq] at hlater
              exact hlater (hmem p hp)
            rw [hnews, lastPassed_append_right hnot, hpassed]
            exact lastPassed_cons_self w.uri data b.s.passed
          · intro hne
            have hother : ∀ other ∈ ws.map (·.uri), w.uri ≠ other := by
              intro other hmem heq
              rw [heq] at hlater
              exact hlater hmem
            have hframe : (runPaths (filesEnv E session) ctrl readFn ws b').2.s.s.stateBus w.uri =
                b'.s.s.stateBus w.uri :=
              keeps_runPaths (envKeeps_files hother)
                (readFn_keeps (fun _ _ hg => hg) hread) ctrl hrest rfl
            have hc := hconfig hne
            unfold getConfigByUri pinSnapshot at hc ⊢
            rw [hframe]
            exact hc

theorem sessionCall_paths (E : SessionEnv ρ σ) (session : ConfigReloadSession σ) :
    (sessionCall E session).ctrl.paths.map (·.uri) = session.pendingUris.take 8 := by
  have h := addUris_paths {} (sessionController session) session.urisNonempty session.urisNoNul
  have hempty : (sessionController session).paths = [] := rfl
  rw [hempty] at h
  exact h

theorem filesCtrl_scheme (E : SessionEnv ρ σ) (session : ConfigReloadSession σ) :
    (filesCtrl E session).scheme = .perPath := by
  change (addUris session.pendingUris {} (sessionController session)).2.scheme = .perPath
  rw [addUris_ctrl]
  rfl

theorem gatedRun_of_ne {uri : Bytes}
    (h : ∀ other ∈ session.pendingUris, ascii "file://" <+: other → uri ≠ other)
    (g : Gated (CommitState σ)) :
    (gatedRun E.parser (sessionCall E session) g).2.2.s.stateBus uri = g.s.stateBus uri := by
  have hfile : ∀ w ∈ (filesCtrl E session).paths,
      (uriToPath (cstr w.uri) pathCap).isSome → uri ≠ w.uri := by
    intro w hw hsome
    have hmem : w.uri ∈ session.pendingUris.take 8 := by
      rw [← sessionCall_paths E session]
      exact List.mem_map_of_mem hw
    exact h w.uri (List.mem_of_mem_take hmem) (file_of_isSome hsome w.noNul)
  have hkept : (reloadBatchRun (filesEnv E session) (filesCtrl E session) g).2.2.s.stateBus uri =
      g.s.stateBus uri := by
    apply keeps_reloadBatchRun (P := fun g' => g'.s.stateBus uri = g.s.stateBus uri)
      (envKeeps_files fun other hother => hother) ?_ ?_ hfile rfl
    · intro readFn hread
      exact readFn_keeps (fun _ _ hg => hg) hread
    · intro hbatch
      rw [filesCtrl_scheme] at hbatch
      cases hbatch
  unfold gatedRun
  dsimp only
  split
  · exact hkept
  · exact hkept

/-- **The run over the files.**  When it goes well, all that the controller took is
filed, and nothing else has passed. -/
theorem gatedRun_ok (hnone : g.passed = [])
    (hrc : (gatedRun E.parser (sessionCall E session) g).1 = 0)
    (houtcome : (gatedRun E.parser (sessionCall E session) g).2.1.outcome = .allOk) :
    (∃ readFn ∈ (filesCtrl E session).readFn, ∀ uri ∈ session.pendingUris.take 8,
      Filed E session readFn (gatedRun E.parser (sessionCall E session) g).2.2 uri) ∧
      ∀ p ∈ (gatedRun E.parser (sessionCall E session) g).2.2.passed,
        p.1 ∈ session.pendingUris.take 8 := by
  have hscheme := filesCtrl_scheme E session
  have hpaths : (filesCtrl E session).paths.map (·.uri) = session.pendingUris.take 8 :=
    sessionCall_paths E session
  have hok : (reloadBatchRun (filesEnv E session) (filesCtrl E session) g).1 = 0 ∧
      (reloadBatchRun (filesEnv E session) (filesCtrl E session) g).2.1.outcome = .allOk := by
    unfold gatedRun at hrc houtcome
    dsimp only at hrc houtcome
    split at hrc
    · assumption
    · rename_i hnot
      rw [if_neg hnot] at houtcome
      exact ⟨hrc, houtcome⟩
  obtain ⟨readFn, hread, b, huris, hstart, hs, hout⟩ := perPath_reloadBatchRun hscheme hok.1
  have hsame : SameConfigs g b.s := hstart (SameConfigs g) (ioKeeps_files (sameConfigs_put g))
    (fun _ _ h => h) (fun _ _ h => h) ⟨rfl, rfl⟩
  obtain ⟨-, ⟨news, hnews, hmem⟩, hfiled⟩ :=
    runPaths_ok (E := E) hread hscheme b.paths (hout.symm.trans hok.2)
  rw [huris, hpaths] at hfiled hmem
  have hresult : (gatedRun E.parser (sessionCall E session) g).2.2.passed =
      (runPaths (filesEnv E session) (filesCtrl E session) readFn b.paths b).2.s.passed ∧
      (gatedRun E.parser (sessionCall E session) g).2.2.s =
      (runPaths (filesEnv E session) (filesCtrl E session) readFn b.paths b).2.s.s := by
    rw [← hs]
    unfold gatedRun
    dsimp only
    split
    · exact ⟨rfl, rfl⟩
    · exact ⟨rfl, rfl⟩
  refine ⟨⟨readFn, hread, ?_⟩, ?_⟩
  · intro uri huri
    rw [Filed, hresult.1, hresult.2]
    exact hfiled uri huri
  · rw [hresult.1, hnews, hsame.1, hnone, List.append_nil]
    exact hmem

end BlessStar.Sdk.Proofs.SessionFiles
