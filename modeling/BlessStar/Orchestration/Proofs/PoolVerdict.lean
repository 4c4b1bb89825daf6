import BlessStar.Orchestration.Proofs.GateCache
import BlessStar.Orchestration.Proofs.SideBySide

/-!
# The pool and the verdict

Without a warmed pool a gate callback alone decides on a path; with one the
bytes have to parse and verify as well.  That is the only way in which the state
of the pool shows in what becomes of a batch.
-/

namespace BlessStar.Orchestration.Proofs.PoolVerdict

open Lib.ByteString Lib.Lockstep
open Persistence Session Orchestration
open Orchestration.Proofs.RunInvariant Orchestration.Proofs.RunAgreement
open Orchestration.Proofs.SideBySide
open Orchestration.Proofs.ReloadOutcome (memoryIo memoryEnv onePath not_zero_mem_fileA)
open Orchestration.Proofs.GateCache (oneInstruction)

section Frame

variable {τ σ α : Type} {F : StateFrame τ σ} {R : σ → σ → Prop} {S : τ → τ → Prop}

structure Frames (F : StateFrame τ σ) (R : σ → σ → Prop) (S : τ → τ → Prop) : Prop where
  inner : ∀ s t, S s t → R (F.inner s) (F.inner t)
  put : ∀ s t a b, S s t → R a b → S (F.put a s) (F.put b t)

theorem agrees_lift (hF : Frames F R S) {f : σ → α × σ} (h : Agrees R f) : Agrees S (F.lift f) := by
  intro s t hst
  obtain ⟨hanswer, hafter⟩ := h _ _ (hF.inner s t hst)
  exact ⟨hanswer, hF.put s t _ _ hst hafter⟩

theorem ioAgrees_frame (hF : Frames F R S) {io : PersistIo σ} (h : IoAgrees R io) :
    IoAgrees S (framePersistIo F io) where
  walAppendBatch epoch es := agrees_lift hF (h.walAppendBatch epoch es)
  writeFileAtomic path data := agrees_lift hF (h.writeFileAtomic path data)
  walAppendPhaseMark epoch phase hash := agrees_lift hF (h.walAppendPhaseMark epoch phase hash)
  saveManifestFile m := agrees_lift hF (h.saveManifestFile m)
  walAppendCommitted epoch := agrees_lift hF (h.walAppendCommitted epoch)
  walRotate epoch := agrees_lift hF (h.walRotate epoch)
  walPurge epoch last := agrees_lift hF (h.walPurge epoch last)

theorem syncAgrees_frame (hF : Frames F R S) {env : ReloadEnv σ} (h : SyncAgrees R env) :
    SyncAgrees S (env.frame F) where
  hasManager s t hst := h.hasManager _ _ (hF.inner s t hst)
  configSyncPath uri data := agrees_lift hF (h.configSyncPath uri data)
  postConfigSync uri rev := agrees_lift hF (h.postConfigSync uri rev)

theorem beginsAlike_frame (hF : Frames F R S) {env : ReloadEnv σ} (h : BeginsAlike R env) :
    BeginsAlike S (env.frame F) where
  inStateCallback s t hst := h.inStateCallback _ _ (hF.inner s t hst)
  logBusBound s t hst := h.logBusBound _ _ (hF.inner s t hst)
  openStore path := agrees_lift hF (h.openStore path)
  sidecarInvalidate path s t hst :=
    hF.put s t _ _ hst (h.sidecarInvalidate path _ _ (hF.inner s t hst))
  loadManifestFile m s t hst := by
    obtain ⟨hrc, hm, hafter⟩ := h.loadManifestFile m _ _ (hF.inner s t hst)
    exact ⟨hrc, hm, hF.put s t _ _ hst hafter⟩

theorem ioAgrees_eq (io : PersistIo σ) : IoAgrees (· = ·) io where
  walAppendBatch _ _ := agrees_eq _
  writeFileAtomic _ _ := agrees_eq _
  walAppendPhaseMark _ _ _ := agrees_eq _
  saveManifestFile _ := agrees_eq _
  walAppendCommitted _ := agrees_eq _
  walRotate _ := agrees_eq _
  walPurge _ _ := agrees_eq _

theorem syncAgrees_eq (env : ReloadEnv σ) : SyncAgrees (· = ·) env where
  hasManager _ _ := congrArg env.hasManager
  configSyncPath _ _ := agrees_eq _
  postConfigSync _ _ := agrees_eq _

theorem beginsAlike_eq (env : ReloadEnv σ) : BeginsAlike (· = ·) env where
  inStateCallback _ _ := congrArg env.inStateCallback
  logBusBound _ _ := congrArg env.logBusBound
  openStore _ := agrees_eq _
  sidecarInvalidate path _ _ := congrArg (env.sidecarInvalidate path)
  loadManifestFile m s t h := by
    subst h
    exact ⟨rfl, rfl, rfl⟩

end Frame

section Pool

variable {ρ σ π : Type} {P : ConfigParser ρ} {pool : KernelPool π} {Good : π → Prop}
  {E : σ → σ → Prop} {env : ReloadEnv σ}

def Parses (P : ConfigParser ρ) (data : Bytes) : Prop :=
  ∃ instructions, parseAndVerifyBytes P data = .ok instructions

structure BesidePools (pool : KernelPool π) (Good : π → Prop) (E : σ → σ → Prop)
    (s t : σ × π) : Prop where
  rest : E s.1 t.1
  cold : pool.isWarmed s.2 = false
  good : Good t.2

structure BesideContexts (P : ConfigParser ρ) (pool : KernelPool π) (Good : π → Prop)
    (E : σ → σ → Prop) (g h : Gated (σ × π)) : Prop where
  pools : BesidePools pool Good E g.s h.s
  parses : ∀ p ∈ g.passed, Parses P p.2

def PassedUnparsed (P : ConfigParser ρ) (g : Gated (σ × π)) : Prop := ∃ p ∈ g.passed, ¬Parses P p.2

theorem frames_pool : Frames (poolFrame σ π) E (BesidePools pool Good E) where
  inner _ _ h := h.rest
  put _ _ _ _ h hab := ⟨hab, h.cold, h.good⟩

theorem frames_context : Frames (gatedFrame (σ × π)) (BesidePools pool Good E)
    (BesideContexts P pool Good E) where
  inner _ _ h := h.pools
  put _ _ _ _ h hab := ⟨hab, h.parses⟩

theorem agrees_postConfigSync (hpool : pool.Serves Good) (hsync : SyncAgrees E env) (uri : Bytes)
    (rev : UInt64) : Agrees (BesidePools pool Good E) (postConfigSync env pool uri rev) := by
  intro s t h
  obtain ⟨hpost, hposted⟩ := hsync.postConfigSync uri rev _ _ h.rest
  obtain ⟨hreset, hgood⟩ := hpool.resetAllPipelines t.2 h.good
  unfold postConfigSync
  dsimp only
  rw [h.cold, hpool.isWarmed t.2 h.good, hreset, hpost]
  exact ⟨rfl, hposted, h.cold, hgood⟩

theorem syncAgrees_pooled (hpool : pool.Serves Good) (hsync : SyncAgrees E env) :
    SyncAgrees (BesidePools pool Good E) (pooledEnv env pool) where
  hasManager := (syncAgrees_frame frames_pool hsync).hasManager
  configSyncPath := (syncAgrees_frame frames_pool hsync).configSyncPath
  postConfigSync := agrees_postConfigSync hpool hsync

theorem parseAndVerifyBytes_error {data : Bytes} {rc : Int}
    (h : parseAndVerifyBytes P data = .error rc) : rc ≠ reloadGateOk := by
  unfold parseAndVerifyBytes at h
  split at h
  · cases h
    decide
  split at h
  · cases h
    decide
  split at h
  · cases h
  · cases h
    decide

variable {batch : PooledBatch σ} {g h : Gated (σ × π)} {uri data : Bytes}

def Rejects (verdict : Option (Bytes → Bytes → Int)) (uri data : Bytes) : Prop :=
  ∃ v ∈ verdict, v uri data ≠ reloadGateOk

theorem not_rejects_none : ¬Rejects none uri data := by
  rintro ⟨v, hv, -⟩
  cases hv

theorem rejects_some_iff {v : Bytes → Bytes → Int} :
    Rejects (some v) uri data ↔ v uri data ≠ reloadGateOk := by
  constructor
  · rintro ⟨v', hv', hrejects⟩
    obtain rfl := Option.some.inj hv'
    exact hrejects
  · exact fun hrejects => ⟨v, rfl, hrejects⟩

theorem gatePathWork_of_parses {verdict : Option (Bytes → Bytes → Int)} (poolReady : Bool)
    {instructions : IRInstructionList} (hparse : parseAndVerifyBytes P data = .ok instructions)
    (t : σ × π) :
    (Rejects verdict uri data →
        gatePathWork P (verdict.map fixedGate) poolReady uri data t = (none, t)) ∧
      (¬Rejects verdict uri data →
        gatePathWork P (verdict.map fixedGate) poolReady uri data t =
          (some (some instructions), t)) := by
  unfold gatePathWork
  cases verdict with
  | none =>
      refine ⟨fun h => absurd h not_rejects_none, fun _ => ?_⟩
      cases poolReady with
      | false =>
          simp only [if_true, Option.map_none, Option.getD_none, defaultPathGate, hparse]
          rfl
      | true => simp only [Bool.true_eq_false, if_false, hparse, Option.map_none]
  | some v =>
      rw [rejects_some_iff]
      cases poolReady with
      | false =>
          simp only [if_true, Option.map_some, Option.getD_some, fixedGate, hparse]
          exact ⟨fun h => if_pos h, fun h => if_neg h⟩
      | true =>
          simp only [Bool.true_eq_false, if_false, hparse, Option.map_some, fixedGate]
          exact ⟨fun h => if_pos h, fun h => if_neg h⟩

theorem gatePathWork_of_error {verdict : Option (Bytes → Bytes → Int)} {rc : Int}
    (hparse : parseAndVerifyBytes P data = .error rc) (t : σ × π) :
    gatePathWork P (verdict.map fixedGate) true uri data t = (none, t) ∧
      (gatePathWork P (verdict.map fixedGate) false uri data t = (none, t) ∨
        gatePathWork P (verdict.map fixedGate) false uri data t = (some none, t)) := by
  unfold gatePathWork
  simp only [Bool.true_eq_false, if_false, if_true, hparse, true_and]
  cases verdict with
  | none =>
      left
      simp only [Option.map_none, Option.getD_none, defaultPathGate, hparse]
      exact if_pos (parseAndVerifyBytes_error hparse)
  | some v =>
      simp only [Option.map_some, Option.getD_some, fixedGate]
      by_cases hpasses : v uri data = reloadGateOk
      · exact Or.inr (if_neg (not_not.mpr hpasses))
      · exact Or.inl (if_pos hpasses)

theorem gate_besideContexts (hpool : pool.Serves Good) (hgh : BesideContexts P pool Good E g h) :
    (Agreeing (gatePath P (batch.call pool) uri data g).1 (gatePath P (batch.call pool) uri data h).1 ∧
        BesideContexts P pool Good E (gatePath P (batch.call pool) uri data g).2
          (gatePath P (batch.call pool) uri data h).2) ∨
      ((gatePath P (batch.call pool) uri data g).1 ≠ none ∧
        (gatePath P (batch.call pool) uri data h).1 = none ∧
        pool.isWarmed (gatePath P (batch.call pool) uri data g).2.s.2 = false ∧
          PassedUnparsed P (gatePath P (batch.call pool) uri data g).2) := by
  have hwarmed : ∀ x : Gated (σ × π),
      (batch.call pool).env.poolWarmed x.s = pool.isWarmed x.s.2 := fun _ => rfl
  have hfn : (batch.call pool).gateFn = batch.verdict.map fixedGate := rfl
  unfold gatePath
  dsimp only
  rw [hfn, hwarmed, hwarmed, hgh.pools.cold, hpool.isWarmed _ hgh.pools.good]
  cases hparse : parseAndVerifyBytes P data with
  | ok instructions =>
      left
      have hall : ∀ p ∈ (uri, data) :: g.passed, Parses P p.2 := by
        intro p hp
        rcases List.mem_cons.mp hp with rfl | hp
        · exact ⟨instructions, hparse⟩
        · exact hgh.parses p hp
      by_cases hrejects : Rejects batch.verdict uri data
      · rw [(gatePathWork_of_parses false hparse g.s).1 hrejects,
          (gatePathWork_of_parses true hparse h.s).1 hrejects]
        exact ⟨Or.inl ⟨rfl, rfl⟩, hgh⟩
      · rw [(gatePathWork_of_parses false hparse g.s).2 hrejects,
          (gatePathWork_of_parses true hparse h.s).2 hrejects]
        exact ⟨Or.inr ⟨rfl, rfl⟩, hgh.pools, hall⟩
  | error rc =>
      rw [(gatePathWork_of_error hparse h.s).1]
      rcases (gatePathWork_of_error hparse g.s).2 with hcold | hcold
      · rw [hcold]
        exact Or.inl ⟨Or.inl ⟨rfl, rfl⟩, hgh⟩
      · rw [hcold]
        refine Or.inr ⟨by simp, rfl, hgh.pools.cold, (uri, data), List.mem_cons_self, ?_⟩
        rintro ⟨instructions, hok⟩
        rw [hparse] at hok
        cases hok

theorem coldWarm_gatedEnv (hpool : pool.Serves Good) (hio : IoAgrees E batch.env.io)
    (hsync : SyncAgrees E batch.env) :
    ColdWarm (BesideContexts P pool Good E) (PassedUnparsed P) ((batch.call pool).gatedEnv P) where
  io := ioAgrees_frame frames_context (ioAgrees_frame frames_pool hio)
  sync := by
    have hframe := syncAgrees_frame (@frames_context ρ σ π P pool Good E)
      (syncAgrees_pooled hpool hsync)
    exact ⟨hframe.hasManager, hframe.configSyncPath, hframe.postConfigSync⟩
  cold _ _ h := h.pools.cold
  warm _ _ h := hpool.isWarmed _ h.pools.good
  publish uri rev s t h := by
    obtain ⟨hhandle, hgood⟩ := hpool.snapshotPublish uri rev t.s.2 h.pools.good
    exact ⟨hhandle, ⟨h.pools.rest, h.pools.cold, hgood⟩, h.parses⟩
  exec handle s t hhandle h := by
    obtain ⟨hrc, hgood⟩ := hpool.execParsedIr handle t.s.2 hhandle h.pools.good
    exact ⟨hrc, ⟨h.pools.rest, h.pools.cold, hgood⟩, h.parses⟩
  remove handle s t hhandle h := by
    obtain ⟨hrc, hgood⟩ := hpool.snapshotRemove handle t.s.2 hhandle h.pools.good
    exact ⟨hrc, ⟨h.pools.rest, h.pools.cold, hgood⟩, h.parses⟩
  gate _ _ _ _ h := gate_besideContexts hpool h

theorem keeps_passedUnparsed (P : ConfigParser ρ) (call : BatchCall σ) :
    EnvKeeps (fun _ => True) (fun g : Gated σ => ∃ p ∈ g.passed, ¬Parses P p.2)
      (call.gatedEnv P) := by
  have h : EnvKeeps (fun _ => True) (fun g : Gated σ => ∃ p ∈ g.passed, ¬Parses P p.2)
      (call.env.frame (gatedFrame σ)) := envKeeps_frame (fun _ _ h => h) call.env
  refine { h with pool := { h.pool with }, gatePathWork := ?_ }
  rintro uri data g ⟨p, hp, hparse⟩
  change ∃ p ∈ (gatePath P call uri data g).2.passed, ¬Parses P p.2
  unfold gatePath
  dsimp only
  split
  · exact ⟨p, hp, hparse⟩
  · exact ⟨p, List.mem_cons_of_mem _ hp, hparse⟩
  · exact ⟨p, List.mem_cons_of_mem _ hp, hparse⟩

theorem gatedRun_spec (P : ConfigParser ρ) (call : BatchCall σ) (g : Gated σ) :
    (gatedRun P call g).1 =
        (reloadBatchRun (call.gatedEnv P) (call.ctrl.frame (gatedFrame σ)) g).1 ∧
      (gatedRun P call g).2.1 =
        (reloadBatchRun (call.gatedEnv P) (call.ctrl.frame (gatedFrame σ)) g).2.1 ∧
      (gatedRun P call g).2.2.s =
        (reloadBatchRun (call.gatedEnv P) (call.ctrl.frame (gatedFrame σ)) g).2.2.s ∧
      (gatedRun P call g).2.2.passed =
        (reloadBatchRun (call.gatedEnv P) (call.ctrl.frame (gatedFrame σ)) g).2.2.passed := by
  unfold gatedRun
  dsimp only
  split
  · exact ⟨rfl, rfl, rfl, rfl⟩
  · exact ⟨rfl, rfl, rfl, rfl⟩

variable {fileAt : Path → σ → Option Bytes}

theorem run_dichotomy (hpool : pool.Serves Good) (hmark : ExecMarkUnseen batch fileAt E)
    (results : GateResults) (s : σ) {cold warm : π} (hcold : pool.isWarmed cold = false)
    (hwarm : Good warm) :
    EndsBeside (BesideContexts P pool Good E) (batch.run P pool results (s, cold))
        (batch.run P pool results (s, warm)) ∨
      (pathStates (batch.run P pool results (s, cold)).2.1 ≠
          pathStates (batch.run P pool results (s, warm)).2.1 ∧
        PassedUnparsed P (batch.run P pool results (s, cold)).2.2) := by
  have hstart : BesideContexts P pool Good (· = ·) { results, s := (s, cold) }
      { results, s := (s, warm) } :=
    ⟨⟨rfl, hcold, hwarm⟩, fun p hp => absurd hp List.not_mem_nil⟩
  have hmarks : MarksExec (BesideContexts P pool Good (· = ·)) (BesideContexts P pool Good E)
      batch.ctrl.scheme ((batch.call pool).gatedEnv P).io := by
    constructor
    · intro g h hgh
      exact ⟨⟨hgh.pools.rest ▸ hmark.refl _, hgh.pools.cold, hgh.pools.good⟩, hgh.parses⟩
    · intro hscheme epoch hash g h hgh
      obtain ⟨hok, hafter⟩ :=
        hmark.mark hscheme epoch hash g.s.1 h.s.1 (hgh.pools.rest ▸ hmark.refl _)
      exact ⟨hok, ⟨hafter, hgh.pools.cold, hgh.pools.good⟩, hgh.parses⟩
  have hbegins : BeginsAlike (BesideContexts P pool Good (· = ·))
      ((batch.call pool).gatedEnv P) := by
    have hframe := beginsAlike_frame (@frames_context ρ σ π P pool Good (· = ·))
      (beginsAlike_frame (@frames_pool σ π pool Good (· = ·)) (beginsAlike_eq batch.env))
    exact ⟨hframe.inStateCallback, hframe.logBusBound, hframe.openStore, hframe.sidecarInvalidate,
      hframe.loadManifestFile⟩
  have hagain := @coldWarm_gatedEnv ρ σ π P pool Good E batch hpool hmark.io hmark.sync
  have hread : ∀ readFn ∈ ((batch.call pool).ctrl.frame (gatedFrame (σ × π))).readFn, ∀ uri,
      Agrees (BesideContexts P pool Good (· = ·)) (readFn uri) ∧
        ∀ g, PassedUnparsed P g → PassedUnparsed P (readFn uri g).2 := by
    intro readFn hreadFn uri
    obtain ⟨framed, hframed, rfl⟩ := Option.map_eq_some_iff.mp hreadFn
    obtain ⟨callback, -, rfl⟩ := Option.map_eq_some_iff.mp hframed
    exact ⟨agrees_lift frames_context (agrees_lift frames_pool (agrees_eq (callback uri))),
      fun _ h => h⟩
  have hruns := beside_reloadBatchRun
    (coldWarm_gatedEnv hpool (ioAgrees_eq batch.env.io) (syncAgrees_eq batch.env))
    (keeps_passedUnparsed P (batch.call pool)) hbegins ((batch.call pool).ctrl.frame (gatedFrame _))
    hread hmarks hagain.io hagain.sync hstart
  obtain ⟨hrc, hctrl, hs, hpassed⟩ := gatedRun_spec P (batch.call pool) { results, s := (s, cold) }
  obtain ⟨hrc', hctrl', hs', -⟩ := gatedRun_spec P (batch.call pool) { results, s := (s, warm) }
  unfold PooledBatch.run
  rcases hruns with hends | ⟨hdiffer, p, hp, hparse⟩
  · left
    refine ⟨?_, ?_, ?_, ?_, ?_, ?_⟩
    · rw [hrc, hrc', hends.returnCode]
    · rw [hctrl, hctrl', hends.outcome]
    · rw [hctrl, hctrl', hends.states]
    · rw [hctrl, hctrl', hends.revisions]
    · rw [hs, hs']
      exact hends.s.pools
    · rw [hpassed]
      exact hends.s.parses
  · right
    rw [hctrl, hctrl']
    refine ⟨hdiffer, p, ?_, hparse⟩
    rwa [hpassed]

end Pool

def readyPool : KernelPool Bool where
  isWarmed p := p
  snapshotPublish _ _ p := (1, p)
  execParsedIr _ p := (0, p)
  snapshotRemove _ p := (0, p)
  snapshotClearAll p := p
  resetAllPipelines p := (0, p)

theorem serves_readyPool : readyPool.Serves (· = true) where
  isWarmed _ h := h
  snapshotPublish _ _ _ h := ⟨Nat.one_ne_zero, h⟩
  execParsedIr _ _ _ h := ⟨rfl, h⟩
  snapshotRemove _ _ _ h := ⟨rfl, h⟩
  resetAllPipelines _ h := ⟨rfl, h⟩

def inMemory : PooledBatch Unit where
  env := memoryEnv 0
  verdict := some fun _ _ => reloadGateOk
  ctrl := onePath

noncomputable def onDisk : PooledBatch AttachDisk where
  env :=
    { io := diskIo IterOrder.someOrder (ascii "m")
      inStateCallback := fun _ => false
      logBusBound := fun _ => true
      openStore := storeOpen
      sidecarInvalidate := fun _ d => d
      gatePathWork := fun _ _ d => (some true, d)
      poolWarmed := fun _ => false
      snapshotPublish := fun _ _ d => (0, d)
      execParsedIr := fun _ d => (0, d)
      snapshotRemove := fun _ d => (0, d)
      snapshotClearAll := fun d => d
      hasManager := fun _ => false
      configSyncPath := fun _ _ d => (0, d)
      postConfigSync := fun _ _ d => (0, d) }
  verdict := some fun _ _ => reloadGateOk
  ctrl :=
    { paths := [{ uri := ascii "file://a", noNul := not_zero_mem_fileA }]
      readFn := some fun _ d => (some [1], d)
      scheme := .perPath
      manifestPath := ascii "m" }

theorem execMarkUnseen_eq {σ : Type} {batch : PooledBatch σ} (fileAt : Path → σ → Option Bytes)
    (hmark : batch.ctrl.scheme = .perBatch → ∀ epoch hash s,
      batch.env.io.walAppendPhaseMark epoch WalRecoverPhase.exec.toUInt32 hash s = (.ok, s)) :
    ExecMarkUnseen batch fileAt (· = ·) where
  refl _ := rfl
  mark hscheme epoch hash s t h := by
    subst h
    rw [hmark hscheme]
    exact ⟨rfl, rfl⟩
  io := ioAgrees_eq batch.env.io
  sync := syncAgrees_eq batch.env
  fileAt path _ _ h := congrArg (fileAt path) h

def nothingParses : ConfigParser Unit where
  parseBytes _ := none
  verifyInstructions _ _ := true

def withoutExecMark : PooledBatch Unit where
  env :=
    { memoryEnv 0 with
      io :=
        { memoryIo with
          walAppendPhaseMark := fun _ phase _ _ =>
            (if phase = WalRecoverPhase.exec.toUInt32 then .io else .ok, ()) } }
  verdict := some fun _ _ => reloadGateOk
  ctrl := { onePath with attachStore := some {} }

end BlessStar.Orchestration.Proofs.PoolVerdict
