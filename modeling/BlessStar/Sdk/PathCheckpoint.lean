import BlessStar.Sdk.ReloadSession

/-!
# Checkpoints of a path

`bs_adapter_attach_config_checkpoint_path` and
`bs_adapter_attach_config_rollback_path` of `attach_config.cpp`, and the calls
that may come between them.
-/

namespace BlessStar.Sdk

open Lib.ByteString Orchestration Session State

/-- `BsAttachConfigPathCheckpoint`; no data is the empty string. -/
structure PathCheckpoint where
  hadPrior : Bool := false
  priorState : ConfigState := .initial
  priorData : Bytes := []

/-- `bs_config_manager_get_config_snapshot`. -/
def configSnapshot (bus : StateBus) (path : Bytes) : SnapshotResult :=
  copySnapshot (pinSnapshot bus path) true

/-- `bs_adapter_attach_config_checkpoint_path`, with what it leaves in `out`. -/
def configCheckpointPath (bus : StateBus) (path : Bytes) : Int × PathCheckpoint :=
  match bus.getState path with
  | none => (0, {})
  | some entry =>
      let out : PathCheckpoint := { hadPrior := true, priorState := entry.state }
      match configSnapshot bus path with
      | .ok data => (0, { out with priorData := data })
      | _ => (-1, out)

def configCall (op : ConfigOp) (bus : StateBus) (path : Bytes) : Int × StateBus :=
  let (found, current) := lookupState bus path
  match op.emissions found current with
  | .error rc => (rc, bus)
  | .ok emissions => (0, emitTransitions bus path emissions)

/-- `bs_adapter_attach_config_rollback_path`. -/
def configRollbackPath (inCallback : Bool) (path : Bytes) (checkpoint : PathCheckpoint)
    (bus : StateBus) : Int × StateBus :=
  if inCallback then (concErrReentrant, bus)
  else if checkpoint.hadPrior = false then configCall .unload bus path
  else if checkpoint.priorState = .closed ∨ checkpoint.priorState = .initial then
    configCall .unload bus path
  else if checkpoint.priorState = .active then
    if checkpoint.priorData ≠ [] then configCall (.hotUpdate checkpoint.priorData) bus path
    else configCall .unload bus path
  else if checkpoint.priorData ≠ [] then configCall (.reload checkpoint.priorData) bus path
  else configCall .unload bus path

/-- A call on the path between a checkpoint and its rollback. -/
inductive PathCall
  | sync (inCallback : Bool) (data : Bytes)
  | unload
  | reload (data : Bytes)

def PathCall.run (path : Bytes) (bus : StateBus) : PathCall → StateBus
  | sync inCallback data => (configSyncPath inCallback path data ⟨bus, ()⟩).2.stateBus
  | unload => (configCall .unload bus path).2
  | reload data => (configCall (.reload data) bus path).2

/-- What `bs_state_bus_set_state` makes of a new bus. -/
inductive BusRun : StateBus → Prop
  | init : BusRun fun _ => none
  | set {bus : StateBus} (h : BusRun bus) (path : Bytes) (state : ConfigState) (data : Bytes) :
      BusRun (bus.setState path state data true)

/-! ## What a rollback restores -/

section Rollback

variable {bus before : StateBus} {path : Bytes}

theorem BusRun.emit (h : BusRun bus) (path : Bytes) (emissions : List Emission) :
    BusRun (emitTransitions bus path emissions) := by
  induction emissions generalizing bus with
  | nil => exact h
  | cons e rest ih => exact ih (h.set path e.toState e.data)

theorem BusRun.call (h : BusRun bus) (op : ConfigOp) (path : Bytes) :
    BusRun (configCall op bus path).2 := by
  unfold configCall
  split
  split
  · exact h
  · exact h.emit path _

theorem BusRun.pathCall (h : BusRun bus) (path : Bytes) (call : PathCall) :
    BusRun (call.run path bus) := by
  cases call with
  | sync inCallback data =>
      dsimp only [PathCall.run]
      unfold configSyncPath
      split
      · exact h
      · split
        · exact h
        · exact h.emit path _
  | unload => exact h.call .unload path
  | reload data => exact h.call (.reload data) path

theorem BusRun.pathCalls (h : BusRun bus) (path : Bytes) (calls : List PathCall) :
    BusRun (calls.foldl (PathCall.run path) bus) := by
  induction calls generalizing bus with
  | nil => exact h
  | cons call rest ih => exact ih (h.pathCall path call)

theorem BusRun.snapshot (h : BusRun bus) {entry : StateEntry}
    (hentry : bus.getState path = some entry) :
    configSnapshot bus path =
      if entry.dataSnapshot = [] then .notFound else .ok entry.dataSnapshot := by
  induction h with
  | init => cases hentry
  | set h other state data ih =>
      by_cases hpath : path = other
      · subst hpath
        rw [StateBus.getState, StateBus.setState, Function.update_self] at hentry
        cases hentry
        rw [configSnapshot, pinSnapshot, StateBus.setState, Function.update_self]
        rfl
      · rw [StateBus.getState, StateBus.setState, Function.update_of_ne hpath] at hentry
        rw [configSnapshot, pinSnapshot, StateBus.setState, Function.update_of_ne hpath]
        exact ih hentry

/-- The path has the state and the snapshot that it had; one that did not exist is
not found or closed. -/
def Restored (path : Bytes) (before after : StateBus) : Prop :=
  match before.getState path with
  | none => ∀ entry, after.getState path = some entry → entry.state = .closed
  | some entry => (∃ entry', after.getState path = some entry' ∧ entry'.state = entry.state) ∧
      configSnapshot after path = configSnapshot before path

theorem getState_setState (bus : StateBus) (path : Bytes) (state : ConfigState) (data : Bytes) :
    ∃ entry, (bus.setState path state data true).getState path = some entry ∧
      entry.state = state ∧ entry.dataSnapshot = data := by
  rw [StateBus.getState, StateBus.setState, Function.update_self]
  exact ⟨_, rfl, rfl, rfl⟩

theorem configCall_of_none {op : ConfigOp} (h : bus.getState path = none) {rc : Int}
    (hop : op.emissions false .initial = .error rc) : configCall op bus path = (rc, bus) := by
  simp only [configCall, lookupState, h, hop]

theorem unload_of_some {entry : StateEntry} (h : bus.getState path = some entry) :
    configCall .unload bus path =
      if entry.state = .initial then (-2, bus) else (0, bus.setState path .closed [] true) := by
  by_cases hinitial : entry.state = .initial
  · simp [configCall, lookupState, h, ConfigOp.emissions, unloadConfig, hinitial]
  · simp [configCall, lookupState, h, ConfigOp.emissions, unloadConfig, hinitial, emitTransitions]

theorem hotUpdate_of_some {entry : StateEntry} (h : bus.getState path = some entry)
    (data : Bytes) :
    configCall (.hotUpdate data) bus path =
      if entry.state = .active then
        (0, (bus.setState path .updating data true).setState path .active data true)
      else (-2, bus) := by
  by_cases hactive : entry.state = .active
  · simp [configCall, lookupState, h, ConfigOp.emissions, State.hotUpdate, hactive,
      emitTransitions]
  · simp [configCall, lookupState, h, ConfigOp.emissions, State.hotUpdate, hactive]

theorem active_of_reload {data : Bytes} (h : (configCall (.reload data) bus path).1 = 0) :
    ∃ entry, (configCall (.reload data) bus path).2.getState path = some entry ∧
      entry.state = .active := by
  unfold configCall ConfigOp.emissions reloadConfig at h ⊢
  dsimp only at h ⊢
  by_cases hrefused : (!(lookupState bus path).1 || ((lookupState bus path).2 ≠ .active &&
      (lookupState bus path).2 ≠ .error)) = true
  · rw [if_pos hrefused] at h
    exact absurd h (by simp)
  · rw [if_neg hrefused]
    obtain ⟨entry, hentry, hstate, -⟩ := getState_setState
      (bus.setState path .updating [] true) path .active data
    exact ⟨entry, hentry, hstate⟩

/-- The condition on the path at the checkpoint and at the rollback. -/
def CanRollBack (prior current : Option StateEntry) : Prop :=
  match prior with
  | none => ∃ entry, current = some entry ∧ entry.state ≠ .initial
  | some entry =>
      (entry.state = .closed ∧ entry.dataSnapshot = [] ∧
        ∃ entry', current = some entry' ∧ entry'.state ≠ .initial) ∨
      (entry.state = .active ∧ entry.dataSnapshot ≠ [] ∧
        ∃ entry', current = some entry' ∧ entry'.state = .active)

/-- The rollback after these calls succeeds and restores the path. -/
def RollsBack (inCallback : Bool) (path : Bytes) (before : StateBus) (calls : List PathCall) :
    Prop :=
  let rollback := configRollbackPath inCallback path (configCheckpointPath before path).2
    (calls.foldl (PathCall.run path) before)
  rollback.1 = 0 ∧ Restored path before rollback.2

theorem unload_restores_iff (h : BusRun before) (hbus : BusRun bus) :
    ((configCall .unload bus path).1 = 0 ∧ Restored path before (configCall .unload bus path).2) ↔
      (∃ entry, bus.getState path = some entry ∧ entry.state ≠ .initial) ∧
        ∀ entry, before.getState path = some entry →
          entry.state = .closed ∧ entry.dataSnapshot = [] := by
  cases hcurrent : bus.getState path with
  | none =>
      rw [configCall_of_none hcurrent rfl]
      simp
  | some current =>
      rw [unload_of_some hcurrent]
      by_cases hinitial : current.state = .initial
      · simp [hinitial]
      · have hrun := hbus.set path .closed []
        obtain ⟨closed, hclosed, hstate, hdata⟩ := getState_setState bus path .closed []
        rw [if_neg hinitial]
        simp only [Option.some.injEq, exists_eq_left', ne_eq, hinitial, not_false_eq_true, true_and]
        unfold Restored
        cases hprior : before.getState path with
        | none => simp [hclosed, hstate]
        | some prior =>
            simp only [hclosed, Option.some.injEq, exists_eq_left', forall_eq', hstate,
              h.snapshot hprior, hrun.snapshot hclosed, hdata, if_true]
            by_cases hempty : prior.dataSnapshot = []
            · simp [hempty, eq_comm]
            · simp [hempty]

theorem configCheckpointPath_spec (h : BusRun before) (path : Bytes) :
    ((configCheckpointPath before path).1 = 0 ↔
        ∀ entry, before.getState path = some entry → entry.dataSnapshot ≠ []) ∧
      (configCheckpointPath before path).2 =
        match before.getState path with
        | none => {}
        | some entry => ⟨true, entry.state, entry.dataSnapshot⟩ := by
  unfold configCheckpointPath
  cases hprior : before.getState path with
  | none => simp
  | some prior =>
      dsimp only
      rw [h.snapshot hprior]
      by_cases hempty : prior.dataSnapshot = []
      · simp [hempty]
      · simp [hempty]

theorem restored_active {prior entry : StateEntry} {after : StateBus} (h : BusRun before)
    (hafter : BusRun after) (hprior : before.getState path = some prior)
    (hentry : after.getState path = some entry) :
    Restored path before after ↔
      entry.state = prior.state ∧ entry.dataSnapshot = prior.dataSnapshot := by
  unfold Restored
  rw [hprior]
  dsimp only
  rw [h.snapshot hprior, hafter.snapshot hentry, hentry]
  simp only [Option.some.injEq, exists_eq_left']
  apply and_congr_right'
  by_cases hempty : prior.dataSnapshot = []
  · by_cases hempty' : entry.dataSnapshot = []
    · simp [hempty, hempty']
    · simp [hempty, hempty']
  · by_cases hempty' : entry.dataSnapshot = []
    · simp [hempty, hempty', eq_comm]
    · simp [hempty, hempty']

theorem configRollbackPath_prior (state : ConfigState) (data : Bytes) (bus : StateBus) :
    configRollbackPath false path ⟨true, state, data⟩ bus =
      if state = .active ∧ data ≠ [] then configCall (.hotUpdate data) bus path
      else if state ≠ .closed ∧ state ≠ .initial ∧ data ≠ [] then
        configCall (.reload data) bus path
      else configCall .unload bus path := by
  cases state
  all_goals
    by_cases hdata : data = []
    all_goals simp [configRollbackPath, hdata]

theorem hotUpdate_restores_iff {prior : StateEntry} (h : BusRun before) (hbus : BusRun bus)
    (hprior : before.getState path = some prior) (hactive : prior.state = .active) :
    ((configCall (.hotUpdate prior.dataSnapshot) bus path).1 = 0 ∧
        Restored path before (configCall (.hotUpdate prior.dataSnapshot) bus path).2) ↔
      ∃ entry, bus.getState path = some entry ∧ entry.state = .active := by
  cases hcurrent : bus.getState path with
  | none =>
      rw [configCall_of_none hcurrent rfl]
      simp
  | some current =>
      rw [hotUpdate_of_some hcurrent]
      by_cases hnow : current.state = .active
      · obtain ⟨entry, hentry, hstate, hdata⟩ := getState_setState
          (bus.setState path .updating prior.dataSnapshot true) path .active prior.dataSnapshot
        have hafter := (hbus.set path .updating prior.dataSnapshot).set path .active
          prior.dataSnapshot
        simp [hnow, restored_active h hafter hprior hentry, hstate, hdata, hactive]
      · simp [hnow]

/-- **A rollback restores its checkpoint** exactly when it is made outside a state
callback, of a path that had no entry or an empty closed one and has come into
use, or of one that was active with bytes and is active. -/
theorem rollsBack_iff (h : BusRun before) (inCallback : Bool) (path : Bytes)
    (calls : List PathCall) :
    ((configCheckpointPath before path).1 = 0 ↔
        ∀ entry, before.getState path = some entry → entry.dataSnapshot ≠ []) ∧
      (RollsBack inCallback path before calls ↔ inCallback = false ∧
        CanRollBack (before.getState path)
          ((calls.foldl (PathCall.run path) before).getState path)) := by
  obtain ⟨htaken, hout⟩ := configCheckpointPath_spec h path
  refine ⟨htaken, ?_⟩
  have hbus := h.pathCalls path calls
  unfold RollsBack
  rw [hout]
  generalize calls.foldl (PathCall.run path) before = bus at hbus ⊢
  cases inCallback with
  | true => simp [configRollbackPath, concErrReentrant]
  | false =>
      have hunload := @unload_restores_iff bus before path h hbus
      cases hprior : before.getState path with
      | none =>
          simp only [hprior, reduceCtorEq, false_implies, implies_true, and_true] at hunload
          simpa [configRollbackPath, CanRollBack] using hunload
      | some prior =>
          simp only [hprior, Option.some.injEq, forall_eq'] at hunload
          dsimp only
          rw [configRollbackPath_prior]
          by_cases hhot : prior.state = .active ∧ prior.dataSnapshot ≠ []
          · rw [if_pos hhot, hotUpdate_restores_iff h hbus hprior hhot.1]
            simp [CanRollBack, hhot]
          rw [if_neg hhot]
          by_cases hreload : prior.state ≠ .closed ∧ prior.state ≠ .initial ∧
              prior.dataSnapshot ≠ []
          · rw [if_pos hreload]
            refine iff_of_false ?_ ?_
            · rintro ⟨hok, hrestored⟩
              obtain ⟨entry, hentry, hactive⟩ := active_of_reload hok
              have hbus' := hbus.call (.reload prior.dataSnapshot) path
              have hstate := ((restored_active h hbus' hprior hentry).mp hrestored).1
              exact hhot ⟨hstate.symm.trans hactive, hreload.2.2⟩
            · rintro ⟨-, hclosed | hactive⟩
              · exact hreload.1 hclosed.1
              · exact hhot ⟨hactive.1, hactive.2.1⟩
          · rw [if_neg hreload, hunload]
            constructor
            · rintro ⟨hcurrent, hclosed, hempty⟩
              exact ⟨rfl, Or.inl ⟨hclosed, hempty, hcurrent⟩⟩
            · rintro ⟨-, ⟨hclosed, hempty, hcurrent⟩ | hactive⟩
              · exact ⟨hcurrent, hclosed, hempty⟩
              · exact absurd ⟨hactive.1, hactive.2.1⟩ hhot

def syncedBus (path data : Bytes) : StateBus :=
  PathCall.run path (fun _ => none) (.sync false data)

theorem syncedBus_run (path data : Bytes) : BusRun (syncedBus path data) :=
  BusRun.init.pathCall path _

/-- An unload after the checkpoint is not rolled back. -/
theorem unload_not_rolledBack :
    ¬RollsBack false (ascii "mem://a") (syncedBus (ascii "mem://a") (ascii "1")) [.unload] := by
  rintro ⟨hok, -⟩
  exact absurd hok (by decide)

theorem sync_rolledBack :
    RollsBack false (ascii "mem://a") (syncedBus (ascii "mem://a") (ascii "1"))
      [.sync false (ascii "2")] := by
  refine ((rollsBack_iff (syncedBus_run _ _) false (ascii "mem://a")
    [.sync false (ascii "2")]).2.mpr ⟨rfl, Or.inr ⟨rfl, by decide, _, rfl, rfl⟩⟩)

end Rollback

end BlessStar.Sdk
