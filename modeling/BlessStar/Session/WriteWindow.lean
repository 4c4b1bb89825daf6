import BlessStar.Lib.Transition
import Mathlib.Algebra.Order.BigOperators.Group.Finset
import Mathlib.Data.Fintype.Basic
import Mathlib.Logic.Function.Basic

/-!
# Write windows and write locks

`begin_write_window`, `end_write_window`, `try_write_lock` and `write_unlock` of
`attach_session.cpp`, called by any number of threads.  A step is one access to
an atomic of `AttachSessionState`: a load, a store, a `fetch_add` or `fetch_sub`,
or the compare-exchange.
-/

namespace BlessStar.Session

open Lib.Transition

/-- Wrap-around of a 32-bit `int`. -/
def wrapInt (n : Int) : Int := n.bmod (2 ^ 32)

def intMax : Int := 2 ^ 31 - 1

/-- The atomics of `AttachSessionState` that the four calls use. -/
structure SessionAtomics where
  writeDepth : Int := 0
  blockNewReads : Bool := false
  readEpoch : UInt64 := 0
  closing : Bool := false

namespace SessionAtomics

def storeBlock (a : SessionAtomics) (b : Bool) : SessionAtomics := { a with blockNewReads := b }

def addDepth (a : SessionAtomics) (n : Int) : SessionAtomics :=
  { a with writeDepth := wrapInt (a.writeDepth + n) }

@[simp] theorem storeBlock_writeDepth (a : SessionAtomics) (b : Bool) :
    (a.storeBlock b).writeDepth = a.writeDepth := rfl

@[simp] theorem storeBlock_blockNewReads (a : SessionAtomics) (b : Bool) :
    (a.storeBlock b).blockNewReads = b := rfl

@[simp] theorem addDepth_blockNewReads (a : SessionAtomics) (n : Int) :
    (a.addDepth n).blockNewReads = a.blockNewReads := rfl

end SessionAtomics

/-- The answers of `bs_adapter_attach_session_try_write_lock`. -/
inductive WriteLockAnswer
  | ok
  | closed
  | readBlocked
  deriving DecidableEq

inductive WriterAt
  | idle
  | beginLoad
  | beginBlock
  | beginEpoch
  | beginRaise (nested : Bool)
  | endLoad
  | endCompare
  | endUnblock
  | endLower (closingOuterWindow : Bool)
  | lockClosing
  | lockLoad
  | lockRaise
  | lockBlock
  | lockExchange
  | lockUnblock
  | unlockLoad
  | unlockLower
  | unlockUnblock
  deriving DecidableEq

structure WriterThread where
  place : WriterAt := .idle
  windows : Nat := 0
  locks : Nat := 0
  answer : Option WriteLockAnswer := none

inductive WriterCall
  | beginWriteWindow
  | endWriteWindow
  | tryWriteLock
  | writeUnlock

namespace WriterThread

def held (t : WriterThread) : Nat := t.windows + t.locks

def goTo (t : WriterThread) (place : WriterAt) : WriterThread := { t with place := place }

@[simp] theorem goTo_held (t : WriterThread) (place : WriterAt) : (t.goTo place).held = t.held :=
  rfl

def start (t : WriterThread) : WriterCall → Option WriterThread
  | .beginWriteWindow => some (t.goTo .beginLoad)
  | .endWriteWindow => if t.windows = 0 then none else some (t.goTo .endLoad)
  | .tryWriteLock => some { t with place := .lockClosing, answer := none }
  | .writeUnlock => if t.locks = 0 then none else some (t.goTo .unlockLoad)

def access (a : SessionAtomics) (t : WriterThread) : SessionAtomics × WriterThread :=
  match t.place with
  | .idle => (a, t)
  -- begin_write_window
  | .beginLoad => (a, t.goTo (if 0 < a.writeDepth then .beginRaise true else .beginBlock))
  | .beginBlock => (a.storeBlock true, t.goTo .beginEpoch)
  | .beginEpoch => ({ a with readEpoch := a.readEpoch + 1 }, t.goTo (.beginRaise false))
  | .beginRaise _ => (a.addDepth 1, { t with place := .idle, windows := t.windows + 1 })
  -- end_write_window
  | .endLoad =>
      if a.writeDepth = 0 then (a, { t with place := .idle, windows := t.windows - 1 })
      else (a, t.goTo .endCompare)
  | .endCompare => (a, t.goTo (if a.writeDepth = 1 then .endUnblock else .endLower false))
  | .endUnblock => (a.storeBlock false, t.goTo (.endLower true))
  | .endLower _ => (a.addDepth (-1), { t with place := .idle, windows := t.windows - 1 })
  -- try_write_lock
  | .lockClosing =>
      if a.closing then (a, { t with place := .idle, answer := some .closed })
      else (a, t.goTo .lockLoad)
  | .lockLoad => (a, t.goTo (if 0 < a.writeDepth then .lockRaise else .lockBlock))
  | .lockRaise =>
      (a.addDepth 1, { t with place := .idle, locks := t.locks + 1, answer := some .ok })
  | .lockBlock => (a.storeBlock true, t.goTo .lockExchange)
  | .lockExchange =>
      if a.writeDepth = 0 then
        ({ a with writeDepth := 1 },
          { t with place := .idle, locks := t.locks + 1, answer := some .ok })
      else (a, t.goTo .lockUnblock)
  | .lockUnblock =>
      (a.storeBlock false, { t with place := .idle, answer := some .readBlocked })
  -- write_unlock
  | .unlockLoad =>
      if a.writeDepth = 0 then (a, { t with place := .idle, locks := t.locks - 1 })
      else (a, t.goTo .unlockLower)
  | .unlockLower =>
      (a.addDepth (-1), { t with
        place := if a.writeDepth = 1 then .unlockUnblock else .idle
        locks := t.locks - 1 })
  | .unlockUnblock => (a.storeBlock false, t.goTo .idle)

end WriterThread

structure WriteSession (ι : Type) where
  atomics : SessionAtomics := {}
  threads : ι → WriterThread := fun _ => {}

inductive WriterEvent (ι : Type)
  | call (t : ι) (c : WriterCall)
  | access (t : ι)

namespace WriteSession

variable {ι : Type} [DecidableEq ι]

def put (s : WriteSession ι) (t : ι) (r : SessionAtomics × WriterThread) : WriteSession ι where
  atomics := r.1
  threads := Function.update s.threads t r.2

@[simp] theorem put_atomics (s : WriteSession ι) (t : ι) (r : SessionAtomics × WriterThread) :
    (s.put t r).atomics = r.1 := rfl

@[simp] theorem put_threads_self (s : WriteSession ι) (t : ι)
    (r : SessionAtomics × WriterThread) : (s.put t r).threads t = r.2 :=
  Function.update_self ..

theorem put_threads_ne (s : WriteSession ι) {t u : ι} (h : u ≠ t)
    (r : SessionAtomics × WriterThread) : (s.put t r).threads u = s.threads u :=
  Function.update_of_ne h ..

def step (s : WriteSession ι) : WriterEvent ι → Option (WriteSession ι)
  | .call t c =>
      if (s.threads t).place = .idle then
        ((s.threads t).start c).map fun th => s.put t (s.atomics, th)
      else none
  | .access t =>
      if (s.threads t).place = .idle then none
      else some (s.put t ((s.threads t).access s.atomics))

def Quiescent (s : WriteSession ι) : Prop := ∀ t, (s.threads t).place = .idle

def held [Fintype ι] (s : WriteSession ι) : Nat := ∑ t, (s.threads t).held

def Balanced [Fintype ι] (s : WriteSession ι) : Prop :=
  s.atomics.writeDepth = s.held ∧ (s.atomics.blockNewReads = true ↔ 0 < s.atomics.writeDepth)

end WriteSession

def writeSession (ι : Type) [DecidableEq ι] (closing : Bool) :
    Machine (WriteSession ι) (WriterEvent ι) where
  init := { atomics := { closing := closing } }
  step := WriteSession.step

namespace WriterAt

/-- The flag is up and the depth is to follow, or the depth is down and the flag is to follow. -/
def Pending : WriterAt → Bool
  | beginEpoch => true
  | beginRaise nested => !nested
  | lockExchange => true
  | lockUnblock => true
  | unlockUnblock => true
  | _ => false

end WriterAt

namespace WriteSession

variable {ι : Type} [DecidableEq ι]

/-- The access acts on what its call has read or written before, and that still
stands. -/
def Undisturbed (s : WriteSession ι) : WriterEvent ι → Prop
  | .call _ _ => True
  | .access t =>
      match (s.threads t).place with
      -- the depth goes up behind the flag, and fits an `int`
      | .beginRaise _ => s.atomics.blockNewReads = true ∧ s.atomics.writeDepth < intMax
      | .lockRaise => s.atomics.blockNewReads = true ∧ s.atomics.writeDepth < intMax
      | .lockExchange => s.atomics.writeDepth = 0 → s.atomics.blockNewReads = true
      -- the window is the last one when the flag goes down for it
      | .endUnblock => s.atomics.writeDepth = 1
      -- and the flag is down, or about to change, when the last window closes
      | .endLower _ => s.atomics.writeDepth = 1 →
          s.atomics.blockNewReads = false ∨ ∃ u, (s.threads u).place.Pending = true
      -- nothing is held when the flag goes down for a lock
      | .lockUnblock => s.atomics.writeDepth = 0 ∨ s.atomics.blockNewReads = false
      | .unlockUnblock => s.atomics.writeDepth = 0 ∨ s.atomics.blockNewReads = false
      | _ => True

end WriteSession

end BlessStar.Session
