import BlessStar.Lib.ByteString
import BlessStar.Lib.Transition
import Mathlib.Data.List.Nodup
import Mathlib.Data.List.Perm.Basic
import Mathlib.Logic.Function.Basic

/-!
# The plugin manager

`Plugin.cpp` over any dynamic loader.  A plugin is known by the number of
handles opened before its own; what its functions do with its record is a
parameter of each call.  Every call takes the mutex of the manager.
-/

namespace BlessStar.Runtime

open Lib.ByteString Lib.Transition

/-- The functions that `DL_SYM` asks a library for. -/
inductive PluginFn
  | init
  | destroy
  | start
  | stop
  | getInfo
  deriving DecidableEq, Repr

inductive PluginState
  | unloaded
  | loaded
  | active
  | error
  deriving DecidableEq, Repr

/-- `Plugin`, as a function of its library finds it. -/
structure Plugin where
  name : Option Bytes := none
  type : Nat := 0
  state : PluginState := .unloaded
  handle : Option Nat := none
  /-- Whether a function pointer is set. -/
  fns : PluginFn → Bool := fun _ => false

/-- `plugin->name ? plugin->name : "unknown"`. -/
def Plugin.key (r : Plugin) : Bytes := r.name.getD (ascii "unknown")

inductive PluginEvent
  | call (fn : PluginFn) (p : Nat)
  | release (handle : Nat)
  /-- `bs_plugin_manager_load` returns 0. -/
  | loaded (p : Nat)
  deriving DecidableEq, Repr

abbrev PluginActs := PluginFn → Nat → Plugin → Int × Plugin

structure PluginTurn where
  events : List PluginEvent
  record : Plugin
  /-- Whether a loop counts it. -/
  counted : Bool := false

/-- `if (plugin->handle) DL_UNLOAD(plugin->handle)`. -/
def dlUnload (r : Plugin) : List PluginEvent :=
  match r.handle with
  | some h => [.release h]
  | none => []

/-- `plugin->start` behind `plugin->init`. -/
def startLoaded (acts : PluginActs) (p : Nat) (r : Plugin) : PluginTurn :=
  if r.fns .start then
    let a := acts .start p r
    ⟨[.call .start p], if a.1 = 0 then { a.2 with state := .active } else a.2, false⟩
  else ⟨[], r, false⟩

/-- The callbacks of `bs_plugin_manager_unload`. -/
def shutDown (acts : PluginActs) (p : Nat) (r : Plugin) : PluginTurn :=
  let s : PluginTurn :=
    if r.state = .active ∧ r.fns .stop = true then ⟨[.call .stop p], (acts .stop p r).2, false⟩
    else ⟨[], r, false⟩
  let d : PluginTurn :=
    if s.record.fns .destroy then
      ⟨s.events ++ [.call .destroy p], (acts .destroy p s.record).2, false⟩
    else s
  ⟨d.events ++ dlUnload d.record, d.record, false⟩

/-- A turn of the loop of `bs_plugin_manager_destroy`, which does not look
whether there is a function to call. -/
def destroyPlugin (acts : PluginActs) (p : Nat) (r : Plugin) : PluginTurn :=
  let s : PluginTurn :=
    if r.state = .active then ⟨[.call .stop p], (acts .stop p r).2, false⟩ else ⟨[], r, false⟩
  let d : PluginTurn :=
    if s.record.state ≠ .unloaded then
      ⟨s.events ++ [.call .destroy p], (acts .destroy p s.record).2, false⟩
    else s
  ⟨d.events ++ dlUnload d.record, d.record, false⟩

/-- A turn of the loop of `bs_plugin_manager_start_all`. -/
def startOne (acts : PluginActs) (p : Nat) (r : Plugin) : PluginTurn :=
  if r.state = .loaded ∧ r.fns .start = true then
    let a := acts .start p r
    if a.1 = 0 then ⟨[.call .start p], { a.2 with state := .active }, true⟩
    else ⟨[.call .start p], a.2, false⟩
  else ⟨[], r, false⟩

/-- A turn of the loop of `bs_plugin_manager_stop_all`. -/
def stopOne (acts : PluginActs) (p : Nat) (r : Plugin) : PluginTurn :=
  if r.state = .active ∧ r.fns .stop = true then
    let a := acts .stop p r
    if a.1 = 0 then ⟨[.call .stop p], { a.2 with state := .loaded }, true⟩
    else ⟨[.call .stop p], a.2, false⟩
  else ⟨[], r, false⟩

/-- `PluginManager` with the records it points to, and what has been called.
`libs` is what the library behind each handle exports. -/
structure PluginManager where
  plugins : List (Bytes × Nat) := []
  pluginsByType : List (Nat × List Nat) := []
  records : Nat → Plugin := fun _ => {}
  next : Nat := 0
  libs : Nat → PluginFn → Bool := fun _ _ => false
  trace : List PluginEvent := []
  destroyed : Bool := false

/-- `plugins[key] = p`. -/
def setKey (key : Bytes) (p : Nat) : List (Bytes × Nat) → List (Bytes × Nat)
  | [] => [(key, p)]
  | (k, q) :: rest => if k = key then (k, p) :: rest else (k, q) :: setKey key p rest

/-- `f` on the list of `plugins_by_type[t]`, which is there from then on. -/
def modifyAt (f : List Nat → List Nat) (t : Nat) : List (Nat × List Nat) → List (Nat × List Nat)
  | [] => [(t, f [])]
  | (u, l) :: rest => if u = t then (u, f l) :: rest else (u, l) :: modifyAt f t rest

namespace PluginManager

def byName (w : PluginManager) : List Nat := w.plugins.map Prod.snd

def byType (w : PluginManager) : List Nat := w.pluginsByType.flatMap Prod.snd

/-- The record of `p` after its turn. -/
def put (w : PluginManager) (p : Nat) (t : PluginTurn) : PluginManager :=
  { w with records := Function.update w.records p t.record, trace := w.trace ++ t.events }

/-- A handle `w.next` on a library that exports `ex`. -/
def opened (w : PluginManager) (ex : PluginFn → Bool) : PluginManager :=
  { w with
    next := w.next + 1
    libs := Function.update w.libs w.next ex
    records := Function.update w.records w.next { handle := some w.next, fns := ex } }

/-- `DL_UNLOAD(handle)` on the handle of `p`. -/
def close (w : PluginManager) (p : Nat) : PluginManager :=
  { w with trace := w.trace ++ [.release p] }

/-- `p` into both indexes, by the name and the type of its record. -/
def enlist (w : PluginManager) (p : Nat) : PluginManager :=
  { w with
    plugins := setKey (w.records p).key p w.plugins
    pluginsByType := modifyAt (· ++ [p]) (w.records p).type w.pluginsByType
    trace := w.trace ++ [.loaded p] }

/-- `p`, found by `name`, out of both indexes. -/
def delist (w : PluginManager) (name : Bytes) (p : Nat) : PluginManager :=
  { w with
    plugins := w.plugins.eraseP fun kv => kv.1 = name
    pluginsByType := modifyAt (·.erase p) (w.records p).type w.pluginsByType }

/-- `bs_plugin_manager_load`; without a library `DL_LOAD` failed. -/
def load (acts : PluginActs) (library : Option (PluginFn → Bool)) (w : PluginManager) :
    Int × PluginManager :=
  match library with
  | none => (-2, w)
  | some ex =>
      let p := w.next
      let w := w.opened ex
      if ex .init = false ∨ ex .destroy = false then (-3, w.close p)
      else
        let a := acts .init p (w.records p)
        let w := w.put p ⟨[.call .init p], { a.2 with state := .loaded }, false⟩
        if a.1 ≠ 0 then (-4, w.close p)
        else
          let w := w.put p (startLoaded acts p (w.records p))
          (0, w.enlist p)

def unload (acts : PluginActs) (name : Bytes) (w : PluginManager) : Int × PluginManager :=
  match w.plugins.lookup name with
  | none => (-2, w)
  | some p =>
      let w := w.put p (shutDown acts p (w.records p))
      (0, w.delist name p)

def forEach (turn : Nat → Plugin → PluginTurn) : List Nat → PluginManager → Int × PluginManager
  | [], w => (0, w)
  | p :: order, w =>
      let t := turn p (w.records p)
      let r := forEach turn order (w.put p t)
      (if t.counted then r.1 + 1 else r.1, r.2)

def startAll (acts : PluginActs) (order : List Nat) (w : PluginManager) : Int × PluginManager :=
  forEach (startOne acts) order w

def stopAll (acts : PluginActs) (order : List Nat) (w : PluginManager) : Int × PluginManager :=
  forEach (stopOne acts) order w

def destroy (acts : PluginActs) (order : List Nat) (w : PluginManager) : PluginManager :=
  { (forEach (destroyPlugin acts) order w).2 with
    plugins := [], pluginsByType := [], destroyed := true }

/-- `plugin->get_info ? plugin->get_info(plugin, "path") : nullptr`; the result
is a path when it is not 0. -/
def getPath (acts : PluginActs) (p : Nat) (w : PluginManager) : Bool × PluginManager :=
  if (w.records p).fns .getInfo then
    let a := acts .getInfo p (w.records p)
    (a.1 ≠ 0, w.put p ⟨[.call .getInfo p], a.2, false⟩)
  else (false, w)

/-- `bs_plugin_manager_reload`; `library` is what is behind the path. -/
def reload (acts : PluginActs) (name : Bytes) (library : Option (PluginFn → Bool))
    (w : PluginManager) : Int × PluginManager :=
  match w.plugins.lookup name with
  | none => (-2, w)
  | some p =>
      let path := w.getPath acts p
      if path.1 = false then (-3, path.2)
      else
        let result := path.2.unload acts name
        if result.1 ≠ 0 then (-4, result.2) else result.2.load acts library

end PluginManager

inductive PluginCall
  | load (library : Option (PluginFn → Bool))
  | unload (name : Bytes)
  | reload (name : Bytes) (library : Option (PluginFn → Bool))
  | startAll (order : List Nat)
  | stopAll (order : List Nat)
  | destroy (order : List Nat)

structure PluginStep where
  acts : PluginActs
  call : PluginCall

/-- The manager after a call; a loop walks its map in some order. -/
def pluginStep (w : PluginManager) (e : PluginStep) : Option PluginManager :=
  if w.destroyed then none
  else
    match e.call with
    | .load library => some (w.load e.acts library).2
    | .unload name => some (w.unload e.acts name).2
    | .reload name library => some (w.reload e.acts name library).2
    | .startAll order => if order.Perm w.byName then some (w.startAll e.acts order).2 else none
    | .stopAll order => if order.Perm w.byName then some (w.stopAll e.acts order).2 else none
    | .destroy order => if order.Perm w.byName then some (w.destroy e.acts order) else none

def pluginMachine : Machine PluginManager PluginStep where
  init := {}
  step := pluginStep

end BlessStar.Runtime
