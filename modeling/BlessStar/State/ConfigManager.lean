import BlessStar.Lib.Transition
import BlessStar.State.StateBus

/-!
# The configuration manager

The operations of `ConfigManager.cpp` on a path: each looks the state of the
path up once and then emits one or two transitions.  Any number of calls run
as one state machine; a step is a lookup, a commit to the state bus, the
reading of the version, a publication, or the end of a notification.  A call
made from a listener or a watch callback runs during the notification of the
call around it, like a call of another client.
-/

namespace BlessStar.State

open Lib.ByteString Lib.Transition

/-- The arguments of a call of `emit_transition`. -/
structure Emission where
  fromState : ConfigState
  toState : ConfigState
  data : Bytes
  deriving DecidableEq

inductive ConfigOp
  | load (data : Bytes)
  | reload (data : Bytes)
  | unload
  | hotUpdate (data : Bytes)

/-- `lookup_state`; a path that is not found counts as initial. -/
def lookupState (bus : StateBus) (path : Bytes) : Bool × ConfigState :=
  match bus.getState path with
  | none => (false, .initial)
  | some entry => (true, entry.state)

/-- `bs_config_manager_load_config` after the lookup. -/
def loadConfig (data : Bytes) (found : Bool) (current : ConfigState) :
    Except Int (List Emission) :=
  if found && current ≠ .initial && current ≠ .closed then .error (-3)
  else .ok [⟨current, .loading, []⟩, ⟨.loading, .active, data⟩]

/-- `bs_config_manager_reload_config` after the lookup. -/
def reloadConfig (data : Bytes) (found : Bool) (current : ConfigState) :
    Except Int (List Emission) :=
  if !found || (current ≠ .active && current ≠ .error) then .error (-2)
  else .ok [⟨current, .updating, []⟩, ⟨.updating, .active, data⟩]

/-- `bs_config_manager_unload_config` after the lookup. -/
def unloadConfig (found : Bool) (current : ConfigState) : Except Int (List Emission) :=
  if !found || current = .initial then .error (-2)
  else .ok [⟨current, .closed, []⟩]

/-- `bs_config_manager_hot_update` after the lookup. -/
def hotUpdate (newData : Bytes) (found : Bool) (current : ConfigState) :
    Except Int (List Emission) :=
  if !found || current ≠ .active then .error (-2)
  else .ok [⟨current, .updating, newData⟩, ⟨.updating, .active, newData⟩]

def ConfigOp.emissions (op : ConfigOp) (found : Bool) (current : ConfigState) :
    Except Int (List Emission) :=
  match op with
  | .load data => loadConfig data found current
  | .reload data => reloadConfig data found current
  | .unload => unloadConfig found current
  | .hotUpdate data => State.hotUpdate data found current

inductive ConfigCallAt
  | lookup (op : ConfigOp)
  | commit (emission : Emission) (rest : List Emission)
  | read (emission : Emission) (rest : List Emission)
  | publish (emission : Emission) (version : UInt64) (rest : List Emission)
  | notify (rest : List Emission)
  | returned (rc : Int)

structure ConfigCall where
  path : Bytes
  place : ConfigCallAt

/-- The state of a `ConfigManager` with the calls so far; `published` are all
events published to its event bus. -/
structure ConfigManager where
  stateBus : StateBus := fun _ => none
  published : List ConfigEvent := []
  calls : List ConfigCall := []

inductive ConfigStep
  | call (path : Bytes) (op : ConfigOp)
  | advance (call : Nat) (copied : Bool) (memory : EventMemory)

def ConfigCallAt.emit : List Emission → ConfigCallAt
  | [] => .returned 0
  | emission :: rest => .commit emission rest

namespace ConfigManager

def goTo (s : ConfigManager) (call : Nat) (path : Bytes) (place : ConfigCallAt) : ConfigManager :=
  { s with calls := s.calls.set call ⟨path, place⟩ }

/-- The next step of a call; `copied` says whether there is memory for a copy of
its data, `memory` for the event it publishes. -/
def advance (s : ConfigManager) (call : Nat) (copied : Bool) (memory : EventMemory)
    (path : Bytes) : ConfigCallAt → Option ConfigManager
  | .lookup op =>
      let (found, current) := lookupState s.stateBus path
      match op.emissions found current with
      | .error rc => some (s.goTo call path (.returned rc))
      | .ok emissions => some (s.goTo call path (.emit emissions))
  | .commit emission rest =>
      some ({ s with
        stateBus := s.stateBus.setState path emission.toState emission.data copied }.goTo
          call path (.read emission rest))
  | .read emission rest =>
      match s.stateBus.getState path with
      | none => some (s.goTo call path (.returned (-1)))
      | some entry => some (s.goTo call path (.publish emission entry.version rest))
  | .publish emission version rest =>
      match configEventCreate memory path (eventTypeForState emission.toState)
          emission.fromState emission.toState version with
      | none => some (s.goTo call path (.returned (-1)))
      | some event =>
          some ({ s with published := s.published ++ [event] }.goTo call path (.notify rest))
  | .notify rest => some (s.goTo call path (.emit rest))
  | .returned _ => none

def step (s : ConfigManager) : ConfigStep → Option ConfigManager
  | .call path op => some { s with calls := s.calls ++ [⟨path, .lookup op⟩] }
  | .advance call copied memory =>
      s.calls[call]?.bind fun c => s.advance call copied memory c.path c.place

end ConfigManager

/-- A manager after `bs_config_manager_create`. -/
def configManager : Machine ConfigManager ConfigStep where
  init := {}
  step := ConfigManager.step

end BlessStar.State

/-!
## Readers of one configuration

One update of an active path by `bs_config_manager_reload_config` or
`bs_config_manager_hot_update`, beside any number of calls of
`bs_config_manager_get_config_snapshot` on the path.  The update takes
`bs_state_bus_set_state` step by step: the write of the entry under the lock of
the bus, and the three steps of the publication of its snapshot.  A reader finds
the entry under the lock and then reads the sequence number, the snapshot, and
the number again without it.
-/

namespace BlessStar.State

open Lib.ByteString Lib.Transition

structure ActiveEntry where
  impl : StateEntryImpl
  active : impl.pub.state = .active
  nonempty : impl.pub.dataSnapshot ≠ []
  snapshot : impl.rcu.ptr = some (makePayload impl.pub)
  even : impl.rcu.seq &&& 1 = 0

structure ConfigUpdate where
  hot : Bool
  data : Bytes
  nonempty : data ≠ []

def ConfigUpdate.op (update : ConfigUpdate) : ConfigOp :=
  if update.hot then .hotUpdate update.data else .reload update.data

/-- Where the update is; `unpublished` is its return when an event gets no memory. -/
inductive UpdateAt
  | lookup (op : ConfigOp)
  | commit (emission : Emission) (rest : List Emission)
  | advance (emission : Emission) (rest : List Emission)
  | store (emission : Emission) (rest : List Emission)
  | release (emission : Emission) (rest : List Emission)
  | publish (emission : Emission) (rest : List Emission)
  | unpublished (emission : Emission)
  | notify (rest : List Emission)
  | returned (rc : Int)

inductive ReaderAt
  | find
  | readSeq
  | readPtr (seq : UInt64)
  | check (seq : UInt64) (snapshot : Option SnapshotPayload)
  | copy (snapshot : Option SnapshotPayload)
  | returned (result : SnapshotResult)

structure SnapshotState where
  impl : StateEntryImpl
  update : UpdateAt
  readers : List ReaderAt := []

inductive SnapshotStep
  | call
  | read (reader : Nat) (copied : Bool)
  | update (copied : Bool) (memory : EventMemory)

def UpdateAt.emit : List Emission → UpdateAt
  | [] => .returned 0
  | emission :: rest => .commit emission rest

def UpdateAt.locked : UpdateAt → Bool
  | .advance _ _ | .store _ _ | .release _ _ => true
  | _ => false

namespace SnapshotState

def goTo (s : SnapshotState) (reader : Nat) (place : ReaderAt) : SnapshotState :=
  { s with readers := s.readers.set reader place }

def read (s : SnapshotState) (reader : Nat) (copied : Bool) : ReaderAt → Option SnapshotState
  | .find => if s.update.locked then none else some (s.goTo reader .readSeq)
  | .readSeq =>
      some (if s.impl.rcu.seq &&& 1 ≠ 0 then s else s.goTo reader (.readPtr s.impl.rcu.seq))
  | .readPtr seq => some (s.goTo reader (.check seq s.impl.rcu.ptr))
  | .check seq snapshot =>
      some (s.goTo reader (if s.impl.rcu.seq = seq then .copy snapshot else .readSeq))
  | .copy snapshot => some (s.goTo reader (.returned (copySnapshot snapshot copied)))
  | .returned _ => none

/-- A reader comes, or a reader or the update takes its next step; `copied` says
whether there is memory for a copy of the data, `memory` for the event. -/
def step (s : SnapshotState) : SnapshotStep → Option SnapshotState
  | .call => some { s with readers := s.readers ++ [ReaderAt.find] }
  | .read reader copied => s.readers[reader]?.bind (s.read reader copied)
  | .update copied memory =>
      match s.update with
      | .lookup op =>
          match op.emissions true s.impl.pub.state with
          | .error rc => some { s with update := .returned rc }
          | .ok emissions => some { s with update := .emit emissions }
      | .commit e rest =>
          some { s with
            impl := { s.impl with pub := s.impl.pub.write e.toState e.data copied }
            update := .advance e rest }
      | .advance e rest =>
          some { s with
            impl := { s.impl with rcu := s.impl.rcu.advance }
            update := .store e rest }
      | .store e rest =>
          some { s with
            impl := { s.impl with rcu := s.impl.rcu.store (makePayload s.impl.pub) }
            update := .release e rest }
      | .release e rest =>
          some { s with
            impl := { s.impl with rcu := s.impl.rcu.advance }
            update := .publish e rest }
      | .publish e rest =>
          some { s with update := if memory.event then .notify rest else .unpublished e }
      | .notify rest => some { s with update := .emit rest }
      | .unpublished _ | .returned _ => none

end SnapshotState

def snapshotReaders (entry : ActiveEntry) (update : ConfigUpdate) :
    Machine SnapshotState SnapshotStep where
  init := { impl := entry.impl, update := .lookup update.op }
  step := SnapshotState.step

end BlessStar.State
