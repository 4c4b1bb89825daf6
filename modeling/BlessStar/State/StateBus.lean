import Mathlib.Logic.Function.Basic
import BlessStar.Lib.ByteString

/-!
# Configuration states and events

The states of a configuration path with the transitions that `StateMachine.cpp`
allows, and the events of `ConfigEvent.cpp` that tell of a transition.
-/

namespace BlessStar.State

open Lib.ByteString

inductive ConfigState
  | initial
  | loading
  | active
  | updating
  | error
  | closed
  deriving DecidableEq, Repr

inductive ConfigEventType
  | enterInitial
  | enterLoading
  | enterActive
  | enterUpdating
  | enterError
  | enterClosed
  deriving DecidableEq, Repr

structure StateTransition where
  fromState : ConfigState
  toState : ConfigState
  deriving DecidableEq, Repr

def defaultTransitions : List StateTransition :=
  [⟨.initial, .loading⟩, ⟨.loading, .active⟩,
    ⟨.loading, .error⟩, ⟨.active, .updating⟩,
    ⟨.active, .closed⟩, ⟨.active, .error⟩,
    ⟨.updating, .active⟩, ⟨.updating, .error⟩,
    ⟨.error, .initial⟩, ⟨.error, .closed⟩]

def isValidTransition (fromState toState : ConfigState) : Bool :=
  defaultTransitions.any fun trans => trans.fromState = fromState && trans.toState = toState

def eventTypeForState : ConfigState → ConfigEventType
  | .initial => .enterInitial
  | .loading => .enterLoading
  | .active => .enterActive
  | .updating => .enterUpdating
  | .error => .enterError
  | .closed => .enterClosed

/-- `ConfigEvent` without its time. -/
structure ConfigEvent where
  configPath : Option Bytes
  type : ConfigEventType
  fromState : ConfigState
  toState : ConfigState
  version : UInt64
  deriving DecidableEq

/-- The allocations a call of `bs_config_event_create` makes: the event and the
copy of its path. -/
structure EventMemory where
  event : Bool := true
  path : Bool := true
  deriving DecidableEq

def EventMemory.enough (memory : EventMemory) : Bool := memory.event && memory.path

def configEventCreate (memory : EventMemory) (configPath : Bytes) (type : ConfigEventType)
    (fromState toState : ConfigState) (version : UInt64) : Option ConfigEvent :=
  if memory.event then
    some
      { configPath := if memory.path then some configPath else none
        type := type
        fromState := fromState
        toState := toState
        version := version }
  else none

end BlessStar.State

/-!
## The state bus

`StateBus.cpp`: one entry for each path, written as a whole under the lock of
the bus, and beside it a snapshot of the data that readers take without the
lock.  A sequence number that is odd while the snapshot is replaced tells them
whether what they took is whole.
-/

namespace BlessStar.State

open Lib.ByteString

structure SnapshotPayload where
  bytes : Bytes
  state : ConfigState
  version : UInt64
  deriving DecidableEq

structure PathSeqlock where
  seq : UInt64 := 0
  ptr : Option SnapshotPayload := none
  deriving DecidableEq

/-- `StateEntry` without its path, time and link; no data is the empty string. -/
structure StateEntry where
  state : ConfigState := .initial
  version : UInt64 := 0
  dataSnapshot : Bytes := []
  deriving DecidableEq

structure StateEntryImpl where
  pub : StateEntry := {}
  rcu : PathSeqlock := {}
  deriving DecidableEq

/-- `make_payload` for what the entry holds. -/
def makePayload (entry : StateEntry) : SnapshotPayload where
  bytes := entry.dataSnapshot
  state := entry.state
  version := entry.version

namespace PathSeqlock

/-- The first and the last step of `PathSeqlock::publish`. -/
def advance (lock : PathSeqlock) : PathSeqlock := { lock with seq := lock.seq + 1 }

def store (lock : PathSeqlock) (payload : SnapshotPayload) : PathSeqlock :=
  { lock with ptr := some payload }

def publish (lock : PathSeqlock) (payload : SnapshotPayload) : PathSeqlock :=
  (lock.advance.store payload).advance

end PathSeqlock

/-- What `bs_state_bus_set_state` writes to the entry; `copied` says whether there
is memory for a copy of the data. -/
def StateEntry.write (entry : StateEntry) (state : ConfigState) (data : Bytes) (copied : Bool) :
    StateEntry where
  state := state
  version := entry.version + 1
  dataSnapshot := if copied then data else []

def StateEntryImpl.setState (impl : StateEntryImpl) (state : ConfigState) (data : Bytes)
    (copied : Bool) : StateEntryImpl where
  pub := impl.pub.write state data copied
  rcu := impl.rcu.publish (makePayload (impl.pub.write state data copied))

/-- The entries of a `StateBus`. -/
abbrev StateBus := Bytes → Option StateEntryImpl

namespace StateBus

def setState (bus : StateBus) (path : Bytes) (state : ConfigState) (data : Bytes)
    (copied : Bool) : StateBus :=
  Function.update bus path (some (((bus path).getD {}).setState state data copied))

def getState (bus : StateBus) (path : Bytes) : Option StateEntry := (bus path).map (·.pub)

end StateBus

/-- What `bs_state_bus_get_snapshot` returns. -/
inductive SnapshotResult
  | ok (data : Bytes)
  | notFound
  | noMemory
  deriving DecidableEq

/-- `bs_state_bus_get_snapshot` after the snapshot is pinned. -/
def copySnapshot (pinned : Option SnapshotPayload) (copied : Bool) : SnapshotResult :=
  match pinned with
  | none => .notFound
  | some payload =>
      if payload.bytes = [] then .notFound else if copied then .ok payload.bytes else .noMemory

end BlessStar.State
