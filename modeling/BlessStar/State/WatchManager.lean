import BlessStar.Lib.Transition
import BlessStar.State.StateBus

/-!
# The watch manager

`WatchManager.cpp` over any number of clients.  `bs_watch_manager_notify` copies
the entries of a path under the lock, calls them without it, and retires the
callbacks of the once watches under the lock; what a callback or another thread
does in between are further steps.
-/

namespace BlessStar.State

open Lib.ByteString Lib.Transition

inductive WatchMode
  | once
  | persistent
  | persistentRecursive
  deriving DecidableEq, Repr

/-- `WatcherEntry`; `registration` counts the watches added before it. -/
structure WatcherEntry where
  callback : Nat
  mode : WatchMode
  userData : Nat
  isOnce : Bool
  registration : Nat
  deriving DecidableEq

/-- A call of `bs_watch_manager_notify`: the entries of its copy that it has
called and those it has not, and the persistent watches that were registered and
not removed when it began. -/
structure NotifyCall where
  path : Bytes
  type : ConfigEventType
  data : Nat
  calls : List WatcherEntry := []
  rest : List WatcherEntry
  returned : Bool := false
  due : List WatcherEntry

namespace NotifyCall

def tempEntries (f : NotifyCall) : List WatcherEntry := f.calls ++ f.rest

def onceCallbacks (f : NotifyCall) : List Nat :=
  (f.calls.filter fun e => e.isOnce).map (·.callback)

end NotifyCall

/-- `WatchManager` with its notifications, all watches added and the
registrations that `bs_watch_manager_remove_watch` removed. -/
structure WatchManager where
  watchers : Bytes → Option (List WatcherEntry) := fun _ => none
  notifies : List NotifyCall := []
  added : List (Bytes × WatcherEntry) := []
  removed : List Nat := []

inductive WatchStep
  | addWatch (path : Bytes) (callback : Nat) (mode : WatchMode) (userData : Nat)
  | removeWatch (path : Bytes) (callback : Nat)
  | notify (path : Bytes) (type : ConfigEventType) (data : Nat)
  | call (notify : Nat)
  | retire (notify : Nat)

def eraseCallback (entries : List WatcherEntry) (callback : Nat) : List WatcherEntry :=
  entries.eraseP fun e => e.callback = callback

namespace WatchManager

def entriesOf (wm : WatchManager) (path : Bytes) : List WatcherEntry :=
  (wm.watchers path).getD []

def standing (wm : WatchManager) (path : Bytes) : List WatcherEntry :=
  (wm.added.filter fun a =>
    a.1 = path && a.2.mode ≠ .once && a.2.registration ∉ wm.removed).map Prod.snd

def addWatch (wm : WatchManager) (path : Bytes) (callback : Nat) (mode : WatchMode)
    (userData : Nat) : WatchManager :=
  let entry : WatcherEntry := ⟨callback, mode, userData, mode = .once, wm.added.length⟩
  { wm with
    watchers := Function.update wm.watchers path (some (wm.entriesOf path ++ [entry]))
    added := wm.added ++ [(path, entry)] }

/-- `bs_watch_manager_remove_watch`, with what it returns. -/
def removeWatch (wm : WatchManager) (path : Bytes) (callback : Nat) : WatchManager × Int :=
  match wm.watchers path with
  | none => (wm, -2)
  | some entries =>
      ({ wm with
          watchers := Function.update wm.watchers path (some (eraseCallback entries callback))
          removed := wm.removed ++
            ((entries.find? fun e => e.callback = callback).map (·.registration)).toList }, 0)

/-- The first part of `bs_watch_manager_notify`: the copy, or the return of a
call that finds no list. -/
def notify (wm : WatchManager) (path : Bytes) (type : ConfigEventType) (data : Nat) :
    WatchManager :=
  { wm with
    notifies := wm.notifies ++
      [match wm.watchers path with
        | none => { path, type, data, rest := [], returned := true, due := wm.standing path }
        | some entries => { path, type, data, rest := entries, due := wm.standing path }] }

/-- One turn of the loop over `tempEntries`. -/
def call (wm : WatchManager) (n : Nat) : Option WatchManager :=
  match wm.notifies[n]? with
  | some f =>
      match f.rest with
      | [] => none
      | e :: rest =>
          some { wm with notifies := wm.notifies.set n { f with calls := f.calls ++ [e], rest } }
  | none => none

/-- The last part of `bs_watch_manager_notify`, after the loop. -/
def retire (wm : WatchManager) (n : Nat) : Option WatchManager :=
  match wm.notifies[n]? with
  | some f =>
      if f.rest ≠ [] || f.returned then none
      else
        let wm := { wm with notifies := wm.notifies.set n { f with returned := true } }
        if f.onceCallbacks.isEmpty then some wm
        else
          match wm.watchers f.path with
          | none => some wm
          | some entries =>
              some { wm with
                watchers := Function.update wm.watchers f.path
                  (some (f.onceCallbacks.foldl eraseCallback entries)) }
  | none => none

end WatchManager

def watchMachine : Machine WatchManager WatchStep where
  init := {}
  step wm
    | .addWatch path callback mode userData => some (wm.addWatch path callback mode userData)
    | .removeWatch path callback => some (wm.removeWatch path callback).1
    | .notify path type data => some (wm.notify path type data)
    | .call n => wm.call n
    | .retire n => wm.retire n

end BlessStar.State
