import BlessStar.Lib.Places
import BlessStar.State.ConfigManager

/-!
# The events of a path

Whatever calls run at the same time, each event of a path is a transition of
the state machine or one that the guards of the manager allow beside it.  The
versions are consecutive when a commit is published before the next one, and
the events form a walk when calls on a path take turns.
-/

namespace BlessStar.State.Proofs.ConfigEvents

open Lib.ByteString Lib.Transition Lib.Places

variable {s s' : ConfigManager} {bus : StateBus} {path : Bytes} {published : List ConfigEvent}

/-! ## One step of a call -/

inductive Advances (s : ConfigManager) (path : Bytes) (memory : EventMemory) :
    ConfigCallAt → StateBus → List ConfigEvent → ConfigCallAt → Prop
  | refused (op : ConfigOp) (rc : Int) :
      Advances s path memory (.lookup op) s.stateBus s.published (.returned rc)
  | planned (op : ConfigOp) (emissions : List Emission)
      (h : op.emissions (lookupState s.stateBus path).1 (lookupState s.stateBus path).2 =
        .ok emissions) :
      Advances s path memory (.lookup op) s.stateBus s.published (.emit emissions)
  | committed (e : Emission) (rest : List Emission) (copied : Bool) :
      Advances s path memory (.commit e rest)
        (s.stateBus.setState path e.toState e.data copied) s.published (.read e rest)
  | lost (e : Emission) (rest : List Emission) (h : s.stateBus.getState path = none) :
      Advances s path memory (.read e rest) s.stateBus s.published (.returned (-1))
  | read (e : Emission) (rest : List Emission) (entry : StateEntry)
      (h : s.stateBus.getState path = some entry) :
      Advances s path memory (.read e rest) s.stateBus s.published
        (.publish e entry.version rest)
  | unpublished (e : Emission) (version : UInt64) (rest : List Emission)
      (h : memory.event = false) :
      Advances s path memory (.publish e version rest) s.stateBus s.published (.returned (-1))
  | published (e : Emission) (version : UInt64) (rest : List Emission) (event : ConfigEvent)
      (h : configEventCreate memory path (eventTypeForState e.toState) e.fromState e.toState
        version = some event) :
      Advances s path memory (.publish e version rest) s.stateBus (s.published ++ [event])
        (.notify rest)
  | notified (rest : List Emission) :
      Advances s path memory (.notify rest) s.stateBus s.published (.emit rest)

theorem advances_of_advance {call : Nat} {copied : Bool} {memory : EventMemory}
    {place : ConfigCallAt} (h : s.advance call copied memory path place = some s') :
    ∃ bus published next, Advances s path memory place bus published next ∧
      s' = ⟨bus, published, s.calls.set call ⟨path, next⟩⟩ := by
  cases place with
  | lookup op =>
      simp only [ConfigManager.advance] at h
      split at h
      · cases h
        exact ⟨_, _, _, .refused op _, rfl⟩
      · next emissions hok =>
          cases h
          exact ⟨_, _, _, .planned op emissions hok, rfl⟩
  | commit e rest =>
      cases h
      exact ⟨_, _, _, .committed e rest copied, rfl⟩
  | read e rest =>
      simp only [ConfigManager.advance] at h
      split at h
      · next hnone =>
          cases h
          exact ⟨_, _, _, .lost e rest hnone, rfl⟩
      · next entry hentry =>
          cases h
          exact ⟨_, _, _, .read e rest entry hentry, rfl⟩
  | publish e version rest =>
      simp only [ConfigManager.advance] at h
      split at h
      · next hnone =>
          cases h
          have hmemory : memory.event = false := by
            by_contra hne
            rw [configEventCreate, if_pos (by simpa using hne)] at hnone
            cases hnone
          exact ⟨_, _, _, .unpublished e version rest hmemory, rfl⟩
      · next event hevent =>
          cases h
          exact ⟨_, _, _, .published e version rest event hevent, rfl⟩
  | notify rest =>
      cases h
      exact ⟨_, _, _, .notified rest, rfl⟩
  | returned rc => cases h

theorem step_cases {e : ConfigStep} (h : configManager.step s e = some s') :
    (∃ path op, e = .call path op ∧ s' = { s with calls := s.calls ++ [⟨path, .lookup op⟩] }) ∨
    ∃ call copied memory path place bus published next,
      e = .advance call copied memory ∧ s.calls[call]? = some ⟨path, place⟩ ∧
      Advances s path memory place bus published next ∧
      s' = ⟨bus, published, s.calls.set call ⟨path, next⟩⟩ := by
  cases e with
  | call path op => exact Or.inl ⟨path, op, rfl, (Option.some.inj h).symm⟩
  | advance call copied memory =>
      obtain ⟨⟨path, place⟩, hcall, hadvance⟩ := Option.bind_eq_some_iff.mp h
      obtain ⟨bus, published, next, hadv, hs'⟩ := advances_of_advance hadvance
      exact Or.inr ⟨call, copied, memory, path, place, bus, published, next, rfl, hcall, hadv, hs'⟩

/-! ## Transitions -/

def closings : List StateTransition :=
  [⟨.closed, .loading⟩, ⟨.closed, .closed⟩, ⟨.loading, .closed⟩, ⟨.updating, .closed⟩]

def reopenings : List StateTransition := [⟨.closed, .loading⟩, ⟨.closed, .closed⟩]

def Legal (others : List StateTransition) (fromState toState : ConfigState) : Prop :=
  isValidTransition fromState toState = true ∨ ⟨fromState, toState⟩ ∈ others

instance (others : List StateTransition) (fromState toState : ConfigState) :
    Decidable (Legal others fromState toState) :=
  inferInstanceAs (Decidable (_ ∨ _))

def entered : List ConfigState := [.loading, .active, .updating, .closed]

def settled : List ConfigState := [.initial, .active, .closed]

section Emissions

variable {op : ConfigOp} {found : Bool} {current : ConfigState} {emissions : List Emission}

theorem emissions_cases (h : op.emissions found current = .ok emissions)
    (hfound : found = false → current = .initial) :
    (∃ data, emissions = [⟨current, .loading, []⟩, ⟨.loading, .active, data⟩] ∧
      (current = .initial ∨ current = .closed)) ∨
    (∃ first data, emissions = [⟨current, .updating, first⟩, ⟨.updating, .active, data⟩] ∧
      (current = .active ∨ current = .error)) ∨
    (emissions = [⟨current, .closed, []⟩] ∧ current ≠ .initial) := by
  cases op with
  | load data =>
      simp only [ConfigOp.emissions, loadConfig] at h
      split at h
      · cases h
      · next hguard =>
          cases h
          refine Or.inl ⟨data, rfl, ?_⟩
          cases found with
          | false => exact Or.inl (hfound rfl)
          | true => cases current <;> simp at hguard ⊢
  | reload data =>
      simp only [ConfigOp.emissions, reloadConfig] at h
      split at h
      · cases h
      · next hguard =>
          cases h
          refine Or.inr (Or.inl ⟨[], data, rfl, ?_⟩)
          cases current <;> simp at hguard ⊢
  | unload =>
      simp only [ConfigOp.emissions, unloadConfig] at h
      split at h
      · cases h
      · next hguard =>
          cases h
          refine Or.inr (Or.inr ⟨rfl, ?_⟩)
          cases current <;> simp at hguard ⊢
  | hotUpdate data =>
      simp only [ConfigOp.emissions, hotUpdate] at h
      split at h
      · cases h
      · next hguard =>
          cases h
          refine Or.inr (Or.inl ⟨data, data, rfl, ?_⟩)
          cases current <;> simp at hguard ⊢

theorem emissions_legal (h : op.emissions found current = .ok emissions)
    (hfound : found = false → current = .initial)
    (hcurrent : current ∈ ConfigState.initial :: entered) :
    ∀ e ∈ emissions, Legal closings e.fromState e.toState ∧ e.toState ∈ entered := by
  rcases emissions_cases h hfound with
    ⟨data, rfl, rfl | rfl⟩ | ⟨first, data, rfl, rfl | rfl⟩ | ⟨rfl, hne⟩
  · simp only [List.forall_mem_cons]
    decide
  · simp only [List.forall_mem_cons]
    decide
  · simp only [List.forall_mem_cons]
    decide
  · exact absurd hcurrent (by decide)
  · simp only [List.forall_mem_cons]
    revert hcurrent hne
    cases current <;> decide

theorem emissions_reopening (h : op.emissions found current = .ok emissions)
    (hfound : found = false → current = .initial) (hcurrent : current ∈ settled) :
    ∀ e ∈ emissions, Legal reopenings e.fromState e.toState := by
  rcases emissions_cases h hfound with
    ⟨data, rfl, rfl | rfl⟩ | ⟨first, data, rfl, rfl | rfl⟩ | ⟨rfl, hne⟩
  · simp only [List.forall_mem_cons]
    decide
  · simp only [List.forall_mem_cons]
    decide
  · simp only [List.forall_mem_cons]
    decide
  · exact absurd hcurrent (by decide)
  · simp only [List.forall_mem_cons]
    revert hcurrent hne
    cases current <;> decide

theorem emissions_walk (h : op.emissions found current = .ok emissions)
    (hfound : found = false → current = .initial) :
    IsWalk Emission.fromState Emission.toState current emissions ∧
      walkEnd Emission.toState current emissions ∈ settled := by
  rcases emissions_cases h hfound with ⟨data, rfl, -⟩ | ⟨first, data, rfl, -⟩ | ⟨rfl, -⟩
  all_goals simp [IsWalk, walkEnd, settled]

end Emissions

def todo : ConfigCallAt → List Emission
  | .commit e rest | .read e rest | .publish e _ rest => e :: rest
  | .notify rest => rest
  | .lookup _ | .returned _ => []

def openEmission : ConfigCallAt → List Emission
  | .read e _ | .publish e _ _ => [e]
  | _ => []

theorem todo_emit (emissions : List Emission) : todo (.emit emissions) = emissions := by
  cases emissions <;> rfl

theorem openEmission_emit (emissions : List Emission) :
    openEmission (.emit emissions) = [] := by
  cases emissions <;> rfl

theorem configEventCreate_transition {memory : EventMemory} {type : ConfigEventType}
    {fromState toState : ConfigState} {version : UInt64} {event : ConfigEvent}
    (h : configEventCreate memory path type fromState toState version = some event) :
    event.fromState = fromState ∧ event.toState = toState := by
  unfold configEventCreate at h
  split at h
  · cases h
    exact ⟨rfl, rfl⟩
  · cases h

theorem getState_setState_ne_none (path other : Bytes) (state : ConfigState)
    (data : Bytes) (copied : Bool) (h : other = path ∨ bus.getState other ≠ none) :
    (bus.setState path state data copied).getState other ≠ none := by
  by_cases hother : other = path
  · subst hother
    rw [StateBus.getState, StateBus.setState, Function.update_self]
    simp
  · rw [StateBus.getState, StateBus.setState, Function.update_of_ne hother]
    exact h.resolve_left hother

structure PairsSound (s : ConfigManager) : Prop where
  committed : ∀ path, (lookupState s.stateBus path).2 ∈ ConfigState.initial :: entered
  present : ∀ c ∈ s.calls, openEmission c.place ≠ [] → s.stateBus.getState c.path ≠ none
  planned : ∀ c ∈ s.calls, ∀ e ∈ todo c.place,
    Legal closings e.fromState e.toState ∧ e.toState ∈ entered
  published : ∀ event ∈ s.published, Legal closings event.fromState event.toState

theorem lookupState_setState (bus : StateBus) (path other : Bytes) (state : ConfigState)
    (data : Bytes) (copied : Bool) :
    (lookupState (bus.setState path state data copied) other).2 =
      if other = path then state else (lookupState bus other).2 := by
  by_cases hother : other = path
  · subst hother
    rw [if_pos rfl, lookupState, StateBus.getState, StateBus.setState, Function.update_self]
    rfl
  · rw [if_neg hother, lookupState, lookupState, StateBus.getState, StateBus.setState,
      Function.update_of_ne hother]
    rfl

theorem todo_of_advances {memory : EventMemory} {place next : ConfigCallAt}
    (h : Advances s path memory place bus published next) :
    (∃ op, place = .lookup op) ∨ ∀ e ∈ todo next, e ∈ todo place := by
  cases h with
  | refused op | planned op => exact Or.inl ⟨op, rfl⟩
  | committed | read => exact Or.inr fun e he => he
  | lost | unpublished => exact Or.inr (by simp [todo])
  | published => exact Or.inr fun e he => List.mem_cons_of_mem _ he
  | notified rest =>
      rw [todo_emit]
      exact Or.inr fun e he => he

theorem lookupState_not_found (h : (lookupState bus path).1 = false) :
    (lookupState bus path).2 = .initial := by
  unfold lookupState at h ⊢
  split at h
  · rfl
  · cases h

theorem pairsSound_init : PairsSound configManager.init where
  committed := fun _ => List.mem_cons_self
  present := by simp [configManager]
  planned := by simp [configManager]
  published := by simp [configManager]

theorem PairsSound.step (h : PairsSound s) {e : ConfigStep}
    (hstep : configManager.step s e = some s') : PairsSound s' := by
  rcases step_cases hstep with ⟨path, op, -, rfl⟩ |
    ⟨call, copied, memory, path, place, bus, published, next, -, hcall, hadv, rfl⟩
  · refine { h with present := ?_, planned := ?_ }
    · simp only [List.forall_mem_append, List.forall_mem_singleton]
      exact ⟨h.present, by simp [openEmission]⟩
    · simp only [List.forall_mem_append, List.forall_mem_singleton]
      exact ⟨h.planned, by simp [todo]⟩
  have hmem := List.mem_of_getElem? hcall
  refine ⟨fun other => ?_, ?_, forall_mem_set h.planned ?_, ?_⟩
  · cases hadv with
    | committed e rest copied =>
        rw [lookupState_setState]
        split
        · exact List.mem_cons_of_mem _ (h.planned _ hmem e List.mem_cons_self).2
        · exact h.committed other
    | _ => exact h.committed other
  · apply forall_mem_set
    · intro c hc hopen
      cases hadv with
      | committed e rest copied =>
          exact getState_setState_ne_none path c.path _ _ _ (Or.inr (h.present c hc hopen))
      | _ => exact h.present c hc hopen
    · cases hadv with
      | committed e rest copied =>
          exact fun _ => getState_setState_ne_none path path _ _ _ (Or.inl rfl)
      | read e rest entry hentry =>
          intro _
          rw [hentry]
          simp
      | planned | notified => exact fun hne => absurd (openEmission_emit _) hne
      | _ => exact fun hne => absurd rfl hne
  · rcases todo_of_advances hadv with ⟨op, rfl⟩ | hsub
    · cases hadv with
      | refused => simp [todo]
      | planned _ emissions hok =>
          rw [todo_emit]
          exact emissions_legal hok lookupState_not_found (h.committed path)
    · exact fun e he => h.planned _ hmem e (hsub e he)
  · cases hadv with
    | published e version rest event hevent =>
        obtain ⟨hfrom, hto⟩ := configEventCreate_transition hevent
        simp only [List.forall_mem_append, List.forall_mem_singleton]
        refine ⟨h.published, ?_⟩
        rw [hfrom, hto]
        exact (h.planned _ hmem e List.mem_cons_self).1
    | _ => exact h.published

theorem pairsSound_of_reachable (h : configManager.Reachable s) : PairsSound s := by
  apply Machine.ReachableMeeting.invariant (I := PairsSound) pairsSound_init _ h
  intro s e s' hs _ hstep
  exact hs.step hstep

/-! ## Versions -/

def eventsOf (path : Bytes) (published : List ConfigEvent) : List ConfigEvent :=
  published.filter fun event => event.configPath = some path

def versionAt (bus : StateBus) (path : Bytes) : UInt64 :=
  ((bus.getState path).getD {}).version

def openFor (path : Bytes) (calls : List ConfigCall) : List Emission :=
  calls.flatMap fun c => if c.path = path then openEmission c.place else []

/-- The versions `1, 2, ..., n`. -/
def versionsTo (n : Nat) : List UInt64 := (List.range n).map fun i => UInt64.ofNat (i + 1)

/-- There is memory for every event, and a call commits a state of a path only
while no other call has one to publish. -/
def PublishesAtOnce (s : ConfigManager) : ConfigStep → Prop
  | .call _ _ => True
  | .advance call _ memory => memory.enough = true ∧
      ∀ path e rest, s.calls[call]? = some ⟨path, .commit e rest⟩ → openFor path s.calls = []

structure VersionsSound (s : ConfigManager) : Prop where
  one : ∀ path, (openFor path s.calls).length ≤ 1
  count : ∀ path, versionAt s.stateBus path =
    UInt64.ofNat ((eventsOf path s.published).length + (openFor path s.calls).length)
  read : ∀ c ∈ s.calls, ∀ e version rest, c.place = .publish e version rest →
    version = versionAt s.stateBus c.path
  versions : ∀ path, (eventsOf path s.published).map ConfigEvent.version =
    versionsTo (eventsOf path s.published).length

theorem versionAt_setState (bus : StateBus) (path other : Bytes) (state : ConfigState)
    (data : Bytes) (copied : Bool) :
    versionAt (bus.setState path state data copied) other =
      if other = path then versionAt bus path + 1 else versionAt bus other := by
  by_cases hother : other = path
  · subst hother
    rw [if_pos rfl, versionAt, StateBus.getState, StateBus.setState, Function.update_self,
      versionAt, StateBus.getState]
    cases bus other <;> rfl
  · rw [if_neg hother, versionAt, versionAt, StateBus.getState, StateBus.setState,
      Function.update_of_ne hother]
    rfl

theorem eventsOf_append (path : Bytes) (published : List ConfigEvent) (event : ConfigEvent) :
    eventsOf path (published ++ [event]) =
      eventsOf path published ++ if event.configPath = some path then [event] else [] := by
  rw [eventsOf, List.filter_append, eventsOf]
  by_cases hpath : event.configPath = some path <;> simp [hpath]

theorem configEventCreate_of_enough {memory : EventMemory} {path : Bytes} {type : ConfigEventType}
    {fromState toState : ConfigState} {version : UInt64} {event : ConfigEvent}
    (hmemory : memory.enough = true)
    (h : configEventCreate memory path type fromState toState version = some event) :
    event = ⟨some path, type, fromState, toState, version⟩ := by
  obtain ⟨hevent, hname⟩ := Bool.and_eq_true_iff.mp hmemory
  rw [configEventCreate, if_pos hevent, if_pos hname] at h
  exact (Option.some.inj h).symm

theorem versionsTo_succ (n : Nat) : versionsTo (n + 1) = versionsTo n ++ [UInt64.ofNat (n + 1)] := by
  rw [versionsTo, List.range_succ, List.map_append]
  rfl

theorem openFor_set_self {call : Nat} {place : ConfigCallAt} {calls : List ConfigCall}
    (hcall : calls[call]? = some ⟨path, place⟩) (next : ConfigCallAt) :
    (openFor path (calls.set call ⟨path, next⟩)).length + (openEmission place).length =
      (openFor path calls).length + (openEmission next).length := by
  have hlength := length_flatMap_set hcall
    (fun c => if c.path = path then openEmission c.place else []) ⟨path, next⟩
  rwa [if_pos rfl, if_pos rfl, ← openFor, ← openFor] at hlength

theorem openFor_set_ne {call : Nat} {place : ConfigCallAt} {calls : List ConfigCall}
    (hcall : calls[call]? = some ⟨path, place⟩) (next : ConfigCallAt) {other : Bytes}
    (hother : other ≠ path) :
    (openFor other (calls.set call ⟨path, next⟩)).length = (openFor other calls).length := by
  have hlength := length_flatMap_set hcall
    (fun c => if c.path = other then openEmission c.place else []) ⟨path, next⟩
  rwa [if_neg hother.symm, if_neg hother.symm] at hlength

theorem openEmission_eq_nil_of_openFor (h : openFor path s.calls = []) {c : ConfigCall}
    (hc : c ∈ s.calls) (hpath : c.path = path) : openEmission c.place = [] := by
  have hnil := List.flatMap_eq_nil_iff.mp h c hc
  rwa [if_pos hpath] at hnil

theorem versionsSound_init : VersionsSound configManager.init where
  one := fun _ => Nat.zero_le 1
  count := fun _ => rfl
  read := by simp [configManager]
  versions := fun _ => rfl

theorem VersionsSound.call (h : VersionsSound s) (path : Bytes) (op : ConfigOp) :
    VersionsSound { s with calls := s.calls ++ [⟨path, .lookup op⟩] } := by
  have hopen : ∀ other, openFor other (s.calls ++ [⟨path, .lookup op⟩]) =
      openFor other s.calls := by
    intro other
    rw [openFor, List.flatMap_append]
    simp [openEmission, openFor]
  refine ⟨fun other => ?_, fun other => ?_, ?_, h.versions⟩
  · rw [hopen]
    exact h.one other
  · rw [hopen]
    exact h.count other
  · simp only [List.forall_mem_append, List.forall_mem_singleton]
    exact ⟨h.read, by simp⟩

theorem advances_other {memory : EventMemory} {place next : ConfigCallAt} {other : Bytes}
    (h : Advances s path memory place bus published next) (hmemory : memory.enough = true)
    (hother : other ≠ path) :
    bus.getState other = s.stateBus.getState other ∧
      eventsOf other published = eventsOf other s.published := by
  cases h with
  | committed e rest copied =>
      refine ⟨?_, rfl⟩
      rw [StateBus.getState, StateBus.setState, Function.update_of_ne hother, StateBus.getState]
  | published e version rest event hevent =>
      obtain rfl := configEventCreate_of_enough hmemory hevent
      refine ⟨rfl, ?_⟩
      rw [eventsOf_append, if_neg (by simpa using hother.symm), List.append_nil]
  | _ => exact ⟨rfl, rfl⟩

structure PathCounted (bus : StateBus) (events : List ConfigEvent) (opened : Nat)
    (path : Bytes) : Prop where
  one : opened ≤ 1
  count : versionAt bus path = UInt64.ofNat (events.length + opened)
  versions : events.map ConfigEvent.version = versionsTo events.length

theorem PathCounted.commit {events : List ConfigEvent} (h : PathCounted bus events 0 path)
    (state : ConfigState) (data : Bytes) (copied : Bool) :
    PathCounted (bus.setState path state data copied) events 1 path where
  one := Nat.le_refl 1
  count := by
    rw [versionAt_setState, if_pos rfl, h.count, Nat.add_zero, UInt64.ofNat_add]
    rfl
  versions := h.versions

theorem PathCounted.publish {events : List ConfigEvent} (h : PathCounted bus events 1 path)
    {event : ConfigEvent} (hversion : event.version = versionAt bus path) :
    PathCounted bus (events ++ [event]) 0 path where
  one := Nat.zero_le 1
  count := by
    rw [h.count, List.length_append, List.length_singleton]
  versions := by
    rw [List.map_append, h.versions, List.length_append, List.length_singleton, versionsTo_succ,
      List.map_singleton, hversion, h.count]

theorem VersionsSound.counted (h : VersionsSound s) (path : Bytes) :
    PathCounted s.stateBus (eventsOf path s.published) (openFor path s.calls).length path :=
  ⟨h.one path, h.count path, h.versions path⟩

theorem VersionsSound.counted_advance (h : VersionsSound s) (hpairs : PairsSound s) {memory : EventMemory} {call : Nat}
    {place next : ConfigCallAt} (hcall : s.calls[call]? = some ⟨path, place⟩)
    (hadv : Advances s path memory place bus published next) (hmemory : memory.enough = true)
    (hfree : ∀ e rest, place = .commit e rest → openFor path s.calls = []) :
    PathCounted bus (eventsOf path published)
      (openFor path (s.calls.set call ⟨path, next⟩)).length path := by
  have hmem := List.mem_of_getElem? hcall
  have hopen := openFor_set_self hcall next
  have hcounted := h.counted path
  generalize (openFor path (s.calls.set call ⟨path, next⟩)).length = opened at hopen ⊢
  cases hadv with
  | refused =>
      obtain rfl : opened = (openFor path s.calls).length := hopen
      exact hcounted
  | planned | notified =>
      rw [openEmission_emit] at hopen
      obtain rfl : opened = (openFor path s.calls).length := hopen
      exact hcounted
  | committed e rest copied =>
      have hzero := hfree e rest rfl
      rw [hzero] at hopen hcounted
      obtain rfl : opened = 1 := hopen
      exact hcounted.commit e.toState e.data copied
  | lost e rest hnone => exact absurd hnone (hpairs.present _ hmem (by simp [openEmission]))
  | read e rest entry hentry =>
      obtain rfl : opened = (openFor path s.calls).length := Nat.add_right_cancel hopen
      exact hcounted
  | unpublished e version rest hevent =>
      rw [EventMemory.enough, hevent] at hmemory
      cases hmemory
  | published e version rest event hevent =>
      obtain rfl := configEventCreate_of_enough hmemory hevent
      have hfull : opened + 1 = (openFor path s.calls).length := hopen
      have hone := h.one path
      obtain rfl : opened = 0 := by omega
      rw [← hfull] at hcounted
      rw [eventsOf_append, if_pos rfl]
      exact hcounted.publish (h.read _ hmem e version rest rfl)

theorem VersionsSound.advance (h : VersionsSound s) (hpairs : PairsSound s) {memory : EventMemory} {call : Nat}
    {place next : ConfigCallAt} (hcall : s.calls[call]? = some ⟨path, place⟩)
    (hadv : Advances s path memory place bus published next) (hmemory : memory.enough = true)
    (hfree : ∀ e rest, place = .commit e rest → openFor path s.calls = []) :
    VersionsSound ⟨bus, published, s.calls.set call ⟨path, next⟩⟩ := by
  have hmem := List.mem_of_getElem? hcall
  have hcounted : ∀ other, PathCounted bus (eventsOf other published)
      (openFor other (s.calls.set call ⟨path, next⟩)).length other := by
    intro other
    by_cases hother : other = path
    · subst hother
      exact h.counted_advance hpairs hcall hadv hmemory hfree
    · obtain ⟨hstate, hevents⟩ := advances_other hadv hmemory hother
      have hold := h.counted other
      rw [hevents, openFor_set_ne hcall next hother]
      refine ⟨hold.one, ?_, hold.versions⟩
      rw [versionAt, hstate]
      exact hold.count
  refine ⟨fun other => (hcounted other).one, fun other => (hcounted other).count, ?_,
    fun other => (hcounted other).versions⟩
  · apply forall_mem_set
    · intro c hc e version rest hplace
      cases hadv with
      | committed e' rest' copied =>
          rw [versionAt_setState]
          split
          · next hpath =>
              have hnil := openEmission_eq_nil_of_openFor (hfree e' rest' rfl) hc hpath
              rw [hplace] at hnil
              cases hnil
          · exact h.read c hc e version rest hplace
      | _ => exact h.read c hc e version rest hplace
    · intro e version rest hplace
      cases hadv with
      | read e' rest' entry hentry =>
          cases hplace
          rw [versionAt, hentry]
          rfl
      | planned _ emissions => cases emissions <;> cases hplace
      | notified emissions => cases emissions <;> cases hplace
      | _ => cases hplace

theorem VersionsSound.step (h : VersionsSound s) (hpairs : PairsSound s) {e : ConfigStep}
    (hmeets : PublishesAtOnce s e) (hstep : configManager.step s e = some s') :
    VersionsSound s' := by
  rcases step_cases hstep with ⟨path, op, -, rfl⟩ |
    ⟨call, copied, memory, path, place, bus, published, next, rfl, hcall, hadv, rfl⟩
  · exact h.call path op
  · refine h.advance hpairs hcall hadv hmeets.1 fun e rest hplace => ?_
    rw [hplace] at hcall
    exact hmeets.2 path e rest hcall

theorem versionsSound_of_reachable (h : configManager.ReachableMeeting PublishesAtOnce s) :
    VersionsSound s := by
  have hboth : PairsSound s ∧ VersionsSound s := by
    apply h.invariant (I := fun s => PairsSound s ∧ VersionsSound s)
      ⟨pairsSound_init, versionsSound_init⟩
    intro s e s' hs hmeets hstep
    exact ⟨hs.1.step hstep, hs.2.step hs.1 hmeets hstep⟩
  exact hboth.2

/-! ## Turns -/

def pendingFor (path : Bytes) (calls : List ConfigCall) : List Emission :=
  calls.flatMap fun c => if c.path = path then todo c.place else []

def lastState (events : List ConfigEvent) : ConfigState :=
  walkEnd ConfigEvent.toState .initial events

/-- There is memory for every event, and a call looks a path up only while no
call on it has anything left to publish. -/
def TakesTurns (s : ConfigManager) : ConfigStep → Prop
  | .call _ _ => True
  | .advance call _ memory => memory.enough = true ∧
      ∀ path op, s.calls[call]? = some ⟨path, .lookup op⟩ → pendingFor path s.calls = []

structure PathTurns (bus : StateBus) (path : Bytes) (events : List ConfigEvent)
    (pending opened : List Emission) : Prop where
  walk : IsWalk ConfigEvent.fromState ConfigEvent.toState .initial events
  next : IsWalk Emission.fromState Emission.toState (lastState events) pending
  ends : walkEnd Emission.toState (lastState events) pending ∈ settled
  committed : ∀ e ∈ opened, (lookupState bus path).2 = e.toState
  resting : pending = [] → (lookupState bus path).2 = lastState events
  planned : ∀ e ∈ pending, Legal reopenings e.fromState e.toState
  legal : ∀ event ∈ events, Legal reopenings event.fromState event.toState

structure TurnsSound (s : ConfigManager) : Prop where
  alone : ∀ (i j : Nat) c d, s.calls[i]? = some c → s.calls[j]? = some d → c.path = d.path →
    todo c.place ≠ [] → todo d.place ≠ [] → i = j
  turns : ∀ path, PathTurns s.stateBus path (eventsOf path s.published)
    (pendingFor path s.calls) (openFor path s.calls)

namespace PathTurns

variable {events : List ConfigEvent} {pending opened : List Emission}

theorem plan (h : PathTurns bus path events [] opened) {op : ConfigOp} {emissions : List Emission}
    (hok : op.emissions (lookupState bus path).1 (lookupState bus path).2 = .ok emissions) :
    PathTurns bus path events emissions [] := by
  have hrest := h.resting rfl
  have hsettled : (lookupState bus path).2 ∈ settled := by
    rw [hrest]
    exact h.ends
  obtain ⟨hwalk, hend⟩ := emissions_walk hok lookupState_not_found
  rw [hrest] at hwalk hend
  exact
    { walk := h.walk
      next := hwalk
      ends := hend
      committed := by simp
      resting := fun _ => hrest
      planned := emissions_reopening hok lookupState_not_found hsettled
      legal := h.legal }

theorem commit {e : Emission} {rest : List Emission}
    (h : PathTurns bus path events (e :: rest) opened) (copied : Bool) :
    PathTurns (bus.setState path e.toState e.data copied) path events (e :: rest) [e] where
  walk := h.walk
  next := h.next
  ends := h.ends
  committed := by
    simp only [List.forall_mem_singleton]
    rw [lookupState_setState, if_pos rfl]
  resting := by simp
  planned := h.planned
  legal := h.legal

theorem publish {e : Emission} {rest : List Emission}
    (h : PathTurns bus path events (e :: rest) [e]) {event : ConfigEvent}
    (hfrom : event.fromState = e.fromState) (hto : event.toState = e.toState) :
    PathTurns bus path (events ++ [event]) rest [] := by
  have hlast : lastState (events ++ [event]) = e.toState := by
    rw [lastState, walkEnd_append_singleton, hto]
  obtain ⟨hstart, hrest⟩ := h.next
  obtain ⟨hlegal, hplanned⟩ := List.forall_mem_cons.mp h.planned
  have hends : walkEnd Emission.toState e.toState rest ∈ settled := h.ends
  exact
    { walk := isWalk_append_singleton.mpr ⟨h.walk, hfrom.trans hstart⟩
      next := by rwa [hlast]
      ends := by rwa [hlast]
      committed := by simp
      resting := fun _ => by rw [hlast, h.committed e List.mem_cons_self]
      planned := hplanned
      legal := by
        simp only [List.forall_mem_append, List.forall_mem_singleton]
        refine ⟨h.legal, ?_⟩
        rwa [hfrom, hto] }

end PathTurns

theorem turnsSound_init : TurnsSound configManager.init where
  alone := by simp [configManager]
  turns := fun path =>
    { walk := trivial
      next := trivial
      ends := List.mem_cons_self
      committed := by simp [configManager, openFor]
      resting := fun _ => rfl
      planned := by simp [configManager, pendingFor]
      legal := by simp [configManager, eventsOf] }

def OthersIdle (path : Bytes) (calls : List ConfigCall) (call : Nat) : Prop :=
  ∀ j, j ≠ call → ∀ d, calls[j]? = some d → d.path = path → todo d.place = []

section Idle

variable {calls : List ConfigCall} {call : Nat} {place : ConfigCallAt}

theorem othersIdle_of_pendingFor (h : pendingFor path calls = []) : OthersIdle path calls call := by
  intro j _ d hd hpath
  have hnil := List.flatMap_eq_nil_iff.mp h d (List.mem_of_getElem? hd)
  rwa [if_pos hpath] at hnil

theorem TurnsSound.othersIdle (h : TurnsSound s) (hcall : s.calls[call]? = some ⟨path, place⟩)
    (hwork : todo place ≠ []) : OthersIdle path s.calls call := by
  intro j hne d hd hpath
  by_contra htodo
  exact hne (h.alone j call d ⟨path, place⟩ hd hcall hpath htodo hwork)

theorem OthersIdle.set (h : OthersIdle path calls call) (c : ConfigCall) :
    OthersIdle path (calls.set call c) call := by
  intro j hne d hd
  rw [get_set_ne hne] at hd
  exact h j hne d hd

theorem openEmission_eq_nil (h : todo place = []) : openEmission place = [] := by
  cases place with
  | read e rest => cases h
  | publish e version rest => cases h
  | _ => rfl

theorem OthersIdle.work (h : OthersIdle path calls call)
    (hcall : calls[call]? = some ⟨path, place⟩) :
    pendingFor path calls = todo place ∧ openFor path calls = openEmission place := by
  constructor
  · apply (flatMap_eq_of_others hcall _).trans (if_pos rfl)
    intro j hne d hd
    split
    · next hpath => exact h j hne d hd hpath
    · rfl
  · apply (flatMap_eq_of_others hcall _).trans (if_pos rfl)
    intro j hne d hd
    split
    · next hpath => exact openEmission_eq_nil (h j hne d hd hpath)
    · rfl

theorem pendingFor_set_eq (hcall : calls[call]? = some ⟨path, place⟩) {next : ConfigCallAt}
    {other : Bytes} (h : other = path → todo next = todo place) :
    pendingFor other (calls.set call ⟨path, next⟩) = pendingFor other calls := by
  apply flatMap_set_eq hcall
  show (if path = other then _ else _) = if path = other then _ else _
  split
  · next hpath => exact h hpath.symm
  · rfl

theorem openFor_set_eq (hcall : calls[call]? = some ⟨path, place⟩) {next : ConfigCallAt}
    {other : Bytes} (h : other = path → openEmission next = openEmission place) :
    openFor other (calls.set call ⟨path, next⟩) = openFor other calls := by
  apply flatMap_set_eq hcall
  show (if path = other then _ else _) = if path = other then _ else _
  split
  · next hpath => exact h hpath.symm
  · rfl

end Idle

theorem PathTurns.of_state {events : List ConfigEvent} {pending opened : List Emission}
    {bus' : StateBus} (h : PathTurns bus path events pending opened)
    (hstate : bus'.getState path = bus.getState path) :
    PathTurns bus' path events pending opened := by
  have hlookup : lookupState bus' path = lookupState bus path := by
    rw [lookupState, hstate, ← lookupState]
  refine { h with committed := ?_, resting := ?_ }
  · rw [hlookup]
    exact h.committed
  · rw [hlookup]
    exact h.resting

theorem TurnsSound.turns_advance (h : TurnsSound s) (hpairs : PairsSound s) {memory : EventMemory} {call : Nat}
    {place next : ConfigCallAt} (hcall : s.calls[call]? = some ⟨path, place⟩)
    (hadv : Advances s path memory place bus published next) (hmemory : memory.enough = true)
    (hfree : ∀ op, place = .lookup op → pendingFor path s.calls = []) :
    PathTurns bus path (eventsOf path published)
      (pendingFor path (s.calls.set call ⟨path, next⟩))
      (openFor path (s.calls.set call ⟨path, next⟩)) := by
  have hturns := h.turns path
  -- a call at work is the only one, before and after its step
  have hwork : OthersIdle path s.calls call →
      pendingFor path s.calls = todo place ∧ openFor path s.calls = openEmission place ∧
      pendingFor path (s.calls.set call ⟨path, next⟩) = todo next ∧
      openFor path (s.calls.set call ⟨path, next⟩) = openEmission next := by
    intro hidle
    obtain ⟨hpending, hopen⟩ := hidle.work hcall
    obtain ⟨hpending', hopen'⟩ := (hidle.set ⟨path, next⟩).work (get_set_self hcall _)
    exact ⟨hpending, hopen, hpending', hopen'⟩
  have hstill : todo next = todo place → openEmission next = openEmission place →
      pendingFor path (s.calls.set call ⟨path, next⟩) = pendingFor path s.calls ∧
      openFor path (s.calls.set call ⟨path, next⟩) = openFor path s.calls :=
    fun htodo hopen => ⟨pendingFor_set_eq hcall fun _ => htodo, openFor_set_eq hcall fun _ => hopen⟩
  cases hadv with
  | refused op =>
      obtain ⟨hpending, hopen⟩ := hstill rfl rfl
      rwa [hpending, hopen]
  | planned op emissions hok =>
      obtain ⟨hpending, -, hpending', hopen'⟩ := hwork (othersIdle_of_pendingFor (hfree op rfl))
      rw [hpending', hopen', todo_emit, openEmission_emit]
      rw [hpending] at hturns
      exact hturns.plan hok
  | committed e rest copied =>
      obtain ⟨hpending, -, hpending', hopen'⟩ := hwork (h.othersIdle hcall (by simp [todo]))
      rw [hpending', hopen']
      rw [hpending] at hturns
      exact hturns.commit copied
  | lost e rest hnone =>
      exact absurd hnone (hpairs.present _ (List.mem_of_getElem? hcall) (by simp [openEmission]))
  | read e rest entry hentry =>
      obtain ⟨hpending, hopen⟩ := hstill rfl rfl
      rwa [hpending, hopen]
  | unpublished e version rest hevent =>
      rw [EventMemory.enough, hevent] at hmemory
      cases hmemory
  | published e version rest event hevent =>
      obtain rfl := configEventCreate_of_enough hmemory hevent
      obtain ⟨hpending, hopen, hpending', hopen'⟩ := hwork (h.othersIdle hcall (by simp [todo]))
      rw [hpending', hopen', eventsOf_append, if_pos rfl]
      rw [hpending, hopen] at hturns
      exact hturns.publish rfl rfl
  | notified rest =>
      obtain ⟨hpending, hopen⟩ := hstill (todo_emit rest) (openEmission_emit rest)
      rwa [hpending, hopen]

theorem TurnsSound.othersIdle_advance (h : TurnsSound s) {memory : EventMemory} {call : Nat}
    {place next : ConfigCallAt} (hcall : s.calls[call]? = some ⟨path, place⟩)
    (hadv : Advances s path memory place bus published next)
    (hfree : ∀ op, place = .lookup op → pendingFor path s.calls = []) (hnext : todo next ≠ []) :
    OthersIdle path s.calls call := by
  rcases todo_of_advances hadv with ⟨op, hplace⟩ | hsub
  · exact othersIdle_of_pendingFor (hfree op hplace)
  · obtain ⟨e, he⟩ := List.exists_mem_of_ne_nil _ hnext
    exact h.othersIdle hcall (List.ne_nil_of_mem (hsub e he))

theorem TurnsSound.advance (h : TurnsSound s) (hpairs : PairsSound s) {memory : EventMemory}
    {call : Nat} {place next : ConfigCallAt} (hcall : s.calls[call]? = some ⟨path, place⟩)
    (hadv : Advances s path memory place bus published next) (hmemory : memory.enough = true)
    (hfree : ∀ op, place = .lookup op → pendingFor path s.calls = []) :
    TurnsSound ⟨bus, published, s.calls.set call ⟨path, next⟩⟩ := by
  have hself : ∀ {c}, (s.calls.set call ⟨path, next⟩)[call]? = some c → c = ⟨path, next⟩ :=
    fun hc => Option.some.inj (hc.symm.trans (get_set_self hcall _))
  refine ⟨fun i j c d hc hd hpath hcwork hdwork => ?_, fun other => ?_⟩
  · by_cases hi : i = call
    · subst hi
      by_contra hne
      obtain rfl := hself hc
      have hidle := h.othersIdle_advance hcall hadv hfree hcwork
      rw [get_set_ne (Ne.symm hne)] at hd
      exact hdwork (hidle j (Ne.symm hne) d hd hpath.symm)
    · by_cases hj : j = call
      · subst hj
        obtain rfl := hself hd
        have hidle := h.othersIdle_advance hcall hadv hfree hdwork
        rw [get_set_ne hi] at hc
        exact absurd (hidle i hi c hc hpath) hcwork
      · rw [get_set_ne hi] at hc
        rw [get_set_ne hj] at hd
        exact h.alone i j c d hc hd hpath hcwork hdwork
  · by_cases hother : other = path
    · subst hother
      exact h.turns_advance hpairs hcall hadv hmemory hfree
    · obtain ⟨hstate, hevents⟩ := advances_other hadv hmemory hother
      show PathTurns bus other (eventsOf other published) (pendingFor other _) (openFor other _)
      rw [hevents, pendingFor_set_eq hcall fun heq => absurd heq hother,
        openFor_set_eq hcall fun heq => absurd heq hother]
      exact (h.turns other).of_state hstate

theorem TurnsSound.call (h : TurnsSound s) (path : Bytes) (op : ConfigOp) :
    TurnsSound { s with calls := s.calls ++ [⟨path, .lookup op⟩] } := by
  have hget : ∀ {i : Nat} {c}, (s.calls ++ [⟨path, .lookup op⟩])[i]? = some c → todo c.place ≠ [] →
      s.calls[i]? = some c := by
    intro i c hc hwork
    rcases get_concat hc with hold | ⟨-, rfl⟩
    · exact hold
    · exact absurd rfl hwork
  refine ⟨fun i j c d hc hd hpath hcwork hdwork => ?_, fun other => ?_⟩
  · exact h.alone i j c d (hget hc hcwork) (hget hd hdwork) hpath hcwork hdwork
  · have hpending : pendingFor other (s.calls ++ [⟨path, .lookup op⟩]) =
        pendingFor other s.calls := by
      rw [pendingFor, List.flatMap_append]
      simp [todo, pendingFor]
    have hopen : openFor other (s.calls ++ [⟨path, .lookup op⟩]) = openFor other s.calls := by
      rw [openFor, List.flatMap_append]
      simp [openEmission, openFor]
    show PathTurns s.stateBus other _ (pendingFor other _) (openFor other _)
    rw [hpending, hopen]
    exact h.turns other

theorem TurnsSound.step (h : TurnsSound s) (hpairs : PairsSound s) {e : ConfigStep}
    (hmeets : TakesTurns s e) (hstep : configManager.step s e = some s') : TurnsSound s' := by
  rcases step_cases hstep with ⟨path, op, -, rfl⟩ |
    ⟨call, copied, memory, path, place, bus, published, next, rfl, hcall, hadv, rfl⟩
  · exact h.call path op
  · refine h.advance hpairs hcall hadv hmeets.1 fun op hplace => ?_
    rw [hplace] at hcall
    exact hmeets.2 path op hcall

theorem TurnsSound.publishesAtOnce (h : TurnsSound s) {e : ConfigStep} (hmeets : TakesTurns s e) :
    PublishesAtOnce s e := by
  cases e with
  | call path op => trivial
  | advance call copied memory =>
      refine ⟨hmeets.1, fun path e rest hcall => ?_⟩
      exact ((h.othersIdle hcall (by simp [todo])).work hcall).2

theorem turnsSound_of_reachable (h : configManager.ReachableMeeting TakesTurns s) :
    TurnsSound s ∧ configManager.ReachableMeeting PublishesAtOnce s := by
  have hall : PairsSound s ∧ TurnsSound s ∧ configManager.ReachableMeeting PublishesAtOnce s := by
    apply h.invariant (I := fun s => PairsSound s ∧ TurnsSound s ∧
      configManager.ReachableMeeting PublishesAtOnce s)
      ⟨pairsSound_init, turnsSound_init, .init _ _⟩
    rintro s e s' ⟨hpairs, hturns, hreach⟩ hmeets hstep
    exact ⟨hpairs.step hstep, hturns.step hpairs hmeets hstep,
      hreach.step (hturns.publishesAtOnce hmeets) hstep⟩
  exact hall.2

/-! ## The events of a path -/

def Chained (s : ConfigManager) (path : Bytes) : Prop :=
  IsWalk ConfigEvent.fromState ConfigEvent.toState .initial (eventsOf path s.published)

/-- The versions of the events of a path are `1, 2, 3, ...`. -/
def Numbered (s : ConfigManager) (path : Bytes) : Prop :=
  (eventsOf path s.published).map ConfigEvent.version =
    versionsTo (eventsOf path s.published).length

instance (s : ConfigManager) (path : Bytes) : Decidable (Numbered s path) :=
  inferInstanceAs (Decidable (_ = _))

def AllLegal (others : List StateTransition) (s : ConfigManager) : Prop :=
  ∀ event ∈ s.published, Legal others event.fromState event.toState

/-- **Configuration events.**  In every run the events are transitions of the
state machine or closings; they are numbered in every run that publishes each
commit at once; and they form a chain in every run whose calls take turns. -/
theorem config_events :
    (configManager.Reachable s → AllLegal closings s) ∧
    (configManager.ReachableMeeting PublishesAtOnce s → ∀ path, Numbered s path) ∧
    (configManager.ReachableMeeting TakesTurns s →
      (∀ path, Chained s path ∧ Numbered s path) ∧
      ∀ path, ∀ event ∈ eventsOf path s.published,
        Legal reopenings event.fromState event.toState) := by
  refine ⟨fun h => (pairsSound_of_reachable h).published, fun h => ?_, fun h => ?_⟩
  · exact (versionsSound_of_reachable h).versions
  · obtain ⟨hturns, hreach⟩ := turnsSound_of_reachable h
    refine ⟨fun path => ⟨(hturns.turns path).walk, ?_⟩, fun path => (hturns.turns path).legal⟩
    exact (versionsSound_of_reachable hreach).versions path

def through (call : Nat) (path : Bytes) (op : ConfigOp) (steps : Nat) : List ConfigStep :=
  .call path op :: List.replicate steps (.advance call true {})

def loadRun : List ConfigStep := through 0 (ascii "app") (.load (ascii "v1")) 9

theorem config_events_load :
    ∃ s, configManager.run {} loadRun = some s ∧
      (eventsOf (ascii "app") s.published).length = 2 ∧ AllLegal closings s ∧
      Chained s (ascii "app") ∧ Numbered s (ascii "app") := by
  obtain ⟨s, hrun⟩ : ∃ s, configManager.run {} loadRun = some s := ⟨_, rfl⟩
  have hlookup : ∀ path op, some (⟨ascii "app", .lookup (.load (ascii "v1"))⟩ : ConfigCall) =
      some ⟨path, .lookup op⟩ →
      pendingFor path [⟨ascii "app", .lookup (.load (ascii "v1"))⟩] = [] := by
    intro path op _
    simp [pendingFor, todo]
  have hmeets : configManager.RunMeets TakesTurns {} loadRun :=
    And.intro trivial (And.intro ⟨rfl, hlookup⟩ (And.intro ⟨rfl, nofun⟩ (And.intro ⟨rfl, nofun⟩
      (And.intro ⟨rfl, nofun⟩ (And.intro ⟨rfl, nofun⟩ (And.intro ⟨rfl, nofun⟩
        (And.intro ⟨rfl, nofun⟩ (And.intro ⟨rfl, nofun⟩ (And.intro ⟨rfl, nofun⟩ trivial)))))))))
  have hturns := Machine.ReachableMeeting.run (.init _ _) hmeets hrun
  obtain ⟨hlegal, -, hchain⟩ := config_events (s := s)
  obtain ⟨hchained, hnumbered⟩ := (hchain hturns).1 (ascii "app")
  refine ⟨s, hrun, ?_, hlegal hturns.reachable, hchained, hnumbered⟩
  cases hrun
  rfl

def reloadedRun : List ConfigStep :=
  through 0 (ascii "app") (.load (ascii "v1")) 9 ++ through 1 (ascii "app") .unload 5 ++
    through 2 (ascii "app") (.load (ascii "v2")) 9

def nestedRun : List ConfigStep :=
  through 0 (ascii "app") (.load (ascii "v1")) 4 ++ through 1 (ascii "app") .unload 5 ++
    List.replicate 5 (.advance 0 true {})

def interleavedRun : List ConfigStep :=
  through 0 (ascii "app") (.load (ascii "v1")) 2 ++ through 1 (ascii "app") .unload 2 ++
    [.advance 0 true {}, .advance 0 true {}]

def forgottenRun : List ConfigStep :=
  through 0 (ascii "app") (.load (ascii "v1")) 3 ++ [.advance 0 true { event := false }] ++
    through 1 (ascii "app") .unload 4

/-- Loading a closed path is no transition of the state machine, a nested call
breaks the chain, and the versions skip when calls overlap between a commit and
its publication or when an event gets no memory. -/
theorem events_break_chain :
    (∃ s, configManager.Reachable s ∧ ¬AllLegal [] s) ∧
    (∃ s, configManager.Reachable s ∧ ¬Chained s (ascii "app")) ∧
    (∃ s, configManager.Reachable s ∧ ¬Numbered s (ascii "app")) ∧
    ∃ s, configManager.Reachable s ∧ ¬Chained s (ascii "app") ∧ ¬Numbered s (ascii "app") := by
  refine ⟨⟨_, Machine.reachable_of_run reloadedRun rfl, fun h => ?_⟩,
    ⟨_, Machine.reachable_of_run nestedRun rfl, fun h => ?_⟩,
    ⟨_, Machine.reachable_of_run interleavedRun rfl, fun h => ?_⟩,
    ⟨_, Machine.reachable_of_run forgottenRun rfl, fun h => ?_, fun h => ?_⟩⟩
  · exact absurd (h ⟨some (ascii "app"), .enterLoading, .closed, .loading, 4⟩ (by decide))
      (by decide)
  · exact absurd h.2.2.1 (by decide)
  · exact absurd h (by decide)
  · exact absurd h.1 (by decide)
  · exact absurd h (by decide)

end BlessStar.State.Proofs.ConfigEvents
