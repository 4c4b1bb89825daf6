import BlessStar.Lib.Transition
import BlessStar.State.StateBus

/-!
# The event bus

`EventBus.cpp` as one state machine over any number of clients.  A call of
`bs_event_bus_drain` takes the whole queue under the lock, looks the listeners of
each event up under the lock, and calls them without it; what a listener does
while it runs are further steps, a drain of its own included.
-/

namespace BlessStar.State

open Lib.ByteString Lib.Transition

/-- `ListenerEntry`; `id` counts the subscriptions and `since` is the number of
events published before this one. -/
structure ListenerEntry where
  listener : Nat
  userData : Nat
  id : Nat
  since : Nat
  deriving DecidableEq

structure QueuedEvent where
  id : Nat
  event : ConfigEvent
  deriving DecidableEq

/-- Where a call of `bs_event_bus_drain` is. -/
inductive DrainAt
  | swap
  | next (batch : List QueuedEvent)
  | deliver (event : QueuedEvent) (rest : List ListenerEntry) (batch : List QueuedEvent)
  | returned
  deriving DecidableEq

structure Delivery where
  subscription : Nat
  event : QueuedEvent
  deriving DecidableEq

/-- An `EventBus` with its drains; `subscribed` counts the subscriptions,
`published` and `delivered` are all events published and all calls of listeners. -/
structure EventBus where
  listeners : Bytes → Option (List ListenerEntry) := fun _ => none
  pending : List QueuedEvent := []
  drains : List DrainAt := []
  subscribed : Nat := 0
  published : List ConfigEvent := []
  delivered : List Delivery := []

inductive BusStep
  | subscribe (path : Bytes) (listener userData : Nat)
  | unsubscribe (path : Bytes) (listener : Nat)
  | publish (event : ConfigEvent) (memory : EventMemory)
  | drain
  | advance (drain : Nat)

namespace EventBus

def subscribe (s : EventBus) (path : Bytes) (listener userData : Nat) : EventBus :=
  let entry : ListenerEntry := ⟨listener, userData, s.subscribed, s.published.length⟩
  { s with
    listeners := Function.update s.listeners path
      (some ((s.listeners path).getD [] ++ [entry]))
    subscribed := s.subscribed + 1 }

/-- `bs_event_bus_unsubscribe`: the first entry of the listener goes. -/
def unsubscribe (s : EventBus) (path : Bytes) (listener : Nat) : EventBus × Int :=
  match s.listeners path with
  | none => (s, -2)
  | some entries =>
      ({ s with
        listeners := Function.update s.listeners path
          (some (entries.eraseP fun entry => entry.listener = listener)) }, 0)

def publish (s : EventBus) (event : ConfigEvent) (memory : EventMemory) : EventBus × Int :=
  match event.configPath with
  | none => (s, -1)
  | some path =>
      match configEventCreate memory path event.type event.fromState event.toState
          event.version with
      | none => (s, -1)
      | some copy =>
          ({ s with
            pending := s.pending ++ [⟨s.published.length, copy⟩]
            published := s.published ++ [event] }, 0)

def goTo (s : EventBus) (drain : Nat) (place : DrainAt) : EventBus :=
  { s with drains := s.drains.set drain place }

def listenersOf (s : EventBus) (event : ConfigEvent) : Option (List ListenerEntry) :=
  event.configPath.bind s.listeners

/-- The next step of `bs_event_bus_drain`. -/
def advance (s : EventBus) (drain : Nat) : DrainAt → Option EventBus
  | .swap => some ({ s with pending := [] }.goTo drain (.next s.pending))
  | .next [] => some (s.goTo drain .returned)
  | .next (event :: batch) =>
      match s.listenersOf event.event with
      | none => some (s.goTo drain (.next batch))
      | some entries => some (s.goTo drain (.deliver event entries batch))
  | .deliver _ [] batch => some (s.goTo drain (.next batch))
  | .deliver event (entry :: rest) batch =>
      some ({ s with delivered := s.delivered ++ [Delivery.mk entry.id event] }.goTo drain
        (.deliver event rest batch))
  | .returned => none

def step (s : EventBus) : BusStep → Option EventBus
  | .subscribe path listener userData => some (s.subscribe path listener userData)
  | .unsubscribe path listener => some (s.unsubscribe path listener).1
  | .publish event memory => some (s.publish event memory).1
  | .drain => some { s with drains := s.drains ++ [DrainAt.swap] }
  | .advance drain => s.drains[drain]?.bind (s.advance drain)

end EventBus

/-- A bus after `bs_event_bus_create`. -/
def eventBus : Machine EventBus BusStep where
  init := {}
  step := EventBus.step

end BlessStar.State
