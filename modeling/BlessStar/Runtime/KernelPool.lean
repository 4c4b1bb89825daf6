import BlessStar.Lib.Transition
import Mathlib.Logic.Function.Basic
import Mathlib.Tactic.SplitIfs

/-!
# The kernel pool

`bs_kernel_pool_submit`, `bs_kernel_pool_warmup` and
`bs_kernel_pool_reset_all_pipelines` of `kernel_pool.c` as one state machine
over any number of calls.  A step is what a call does under one acquisition of
the pool mutex, or the destruction of one slot outside of it.  A condition
variable may wake its waiters at any time, so the broadcasts leave no trace.
-/

namespace BlessStar.Runtime

open Lib.Transition

inductive BsKernelPoolSlotKind
  | steady
  | dynamic
  deriving DecidableEq

/-- `BsKernelPoolSlot`; a slot is known by the number of slots created before
it. -/
structure BsKernelPoolSlot where
  kind : BsKernelPoolSlotKind := .steady
  priority : Nat := 0
  busy : Bool := false

def BsKernelPoolSlot.setBusy (v : BsKernelPoolSlot) (busy : Bool) : BsKernelPoolSlot :=
  { v with busy := busy }

@[simp] theorem BsKernelPoolSlot.setBusy_busy (v : BsKernelPoolSlot) (b : Bool) :
    (v.setBusy b).busy = b := rfl

@[simp] theorem BsKernelPoolSlot.setBusy_kind (v : BsKernelPoolSlot) (b : Bool) :
    (v.setBusy b).kind = v.kind := rfl

/-- `BsKernelPoolConfig`, as far as the pool reads it. -/
structure BsKernelPoolConfig where
  steadyCount : Nat := 3
  maxInstances : Nat := 10
  prioritySteady : Nat := 1000
  priorityDynamicDelta : Nat := 1

/-- What `bs_kernel_pool_create` makes of a configuration. -/
def BsKernelPoolConfig.normalized (c : BsKernelPoolConfig) : BsKernelPoolConfig :=
  let steady := if c.steadyCount = 0 then 3 else c.steadyCount
  { c with
    steadyCount := steady
    maxInstances := if c.maxInstances < steady then steady else c.maxInstances }

theorem BsKernelPoolConfig.steady_le_max (c : BsKernelPoolConfig) :
    c.normalized.steadyCount ≤ c.normalized.maxInstances := by
  simp only [normalized]
  split_ifs <;> omega

structure BsKernelPoolStats where
  totalSlots : Nat := 0
  busySlots : Nat := 0
  dynamicSlots : Nat := 0
  submittedJobs : Nat := 0
  completedJobs : Nat := 0
  failedJobs : Nat := 0

/-- The codes of `kernel_pool.h`. -/
inductive PoolCode
  | ok
  | noMem
  | stopping
  | execFailed

inductive CallAt
  | warmup (submit : Bool)
  | rollback (slots : List Nat) (rc : PoolCode)
  | submit
  | waiting (ticket : Nat)
  | executing (slot : Nat)
  | removing (slot : Nat) (rc : PoolCode)
  | reset
  | sweep (slots : List Nat)
  | returned (rc : PoolCode)

inductive PoolMark
  | arrived (call : Nat)
  | queued (call : Nat)
  | obtained (call : Nat)
  deriving DecidableEq

/-- `BsKernelPool` with the slots on the heap and the calls so far. -/
structure BsKernelPool where
  slots : List Nat := []
  slotCapacity : Nat := 0
  nextTicket : Nat := 0
  servingTicket : Nat := 0
  waiters : Nat := 0
  draining : Bool := false
  stats : BsKernelPoolStats := {}
  slot : Nat → BsKernelPoolSlot := fun _ => {}
  created : Nat := 0
  destroyed : List Nat := []
  calls : List CallAt := []
  log : List PoolMark := []

/-- How the creation of a slot ends: done, no slot, or a slot that does not fit
the array, which `realloc` refuses to grow. -/
inductive SlotAlloc
  | done
  | noSlot
  | noArray

inductive PoolEvent
  | callSubmit
  | callWarmup
  | callReset
  | warmup (call : Nat) (alloc : Nat → SlotAlloc)
  | rollback (call : Nat)
  | enter (call : Nat) (alloc : SlotAlloc)
  | wake (call : Nat)
  | finish (call : Nat) (report : Bool)
  | remove (call : Nat)
  | reset (call : Nat)
  | sweep (call : Nat)

namespace BsKernelPool

def slotCount (s : BsKernelPool) : Nat := s.slots.length

def goTo (s : BsKernelPool) (call : Nat) (place : CallAt) : BsKernelPool :=
  { s with calls := s.calls.set call place }

def mark (s : BsKernelPool) (m : PoolMark) : BsKernelPool := { s with log := s.log ++ [m] }

def destroySlot (s : BsKernelPool) (id : Nat) : BsKernelPool :=
  { s with destroyed := s.destroyed ++ [id] }

/-- `kernel_pool_create_slot`, when nothing fails; products are `uint32_t`. -/
def createSlot (s : BsKernelPool) (c : BsKernelPoolConfig) (kind : BsKernelPoolSlotKind)
    (dynamicIndex : Nat) : BsKernelPool :=
  let delta := c.priorityDynamicDelta * (dynamicIndex + 1) % UInt32.size
  let priority :=
    match kind with
    | .steady => c.prioritySteady
    | .dynamic => c.prioritySteady - delta
  { s with
    slot := Function.update s.slot s.created { kind := kind, priority := priority }
    created := s.created + 1 }

/-- The new capacity of `kernel_pool_reserve_slot_array`, which needs one slot
more than there are. -/
def grownCapacity (s : BsKernelPool) : Nat :=
  if s.slotCapacity = 0 then 4 else s.slotCapacity * 2

/-- `kernel_pool_append_slot` on the slot created last, when nothing fails. -/
def appendSlot (s : BsKernelPool) : BsKernelPool :=
  let id := s.created - 1
  { s with
    slots := s.slots ++ [id]
    slotCapacity := if s.slotCount + 1 ≤ s.slotCapacity then s.slotCapacity else s.grownCapacity
    stats := { s.stats with
      totalSlots := s.slotCount + 1
      dynamicSlots :=
        if (s.slot id).kind = .dynamic then s.stats.dynamicSlots + 1 else s.stats.dynamicSlots } }

/-- Create a slot and append it; `none` with the state when that fails. -/
def addSlot (s : BsKernelPool) (c : BsKernelPoolConfig) (kind : BsKernelPoolSlotKind)
    (dynamicIndex : Nat) (alloc : SlotAlloc) : Bool × BsKernelPool :=
  match alloc with
  | .noSlot => (false, s)
  | .noArray =>
      if s.slotCount + 1 ≤ s.slotCapacity then
        (true, (s.createSlot c kind dynamicIndex).appendSlot)
      else (false, (s.createSlot c kind dynamicIndex).destroySlot s.created)
  | .done => (true, (s.createSlot c kind dynamicIndex).appendSlot)

/-- The loop of `bs_kernel_pool_warmup`, with the slots that a rollback takes
out of the pool. -/
def warmupLoop (c : BsKernelPoolConfig) (alloc : Nat → SlotAlloc) :
    Nat → BsKernelPool → Option (List Nat) × PoolCode × BsKernelPool
  | 0, s => (none, .ok, s)
  | n + 1, s =>
      match alloc s.slotCount with
      | .noSlot =>
          (some s.slots, .noMem, { s with
            slots := [], slotCapacity := 0, stats := { s.stats with totalSlots := 0 } })
      | a =>
          match s.addSlot c .steady 0 a with
          | (true, s') => warmupLoop c alloc n s'
          | (false, s') => (none, .noMem, s')

/-- The section of `bs_kernel_pool_warmup`; in a submit any error is
`BS_KERNEL_POOL_ERR_STOPPING`. -/
def warmup (s : BsKernelPool) (c : BsKernelPoolConfig) (call : Nat) (submit : Bool)
    (alloc : Nat → SlotAlloc) : BsKernelPool :=
  if s.draining then s.goTo call (.returned .stopping)
  else
    match warmupLoop c alloc (c.steadyCount - s.slotCount) s with
    | (_, .ok, s') => s'.goTo call (if submit then .submit else .returned .ok)
    | (some slots, rc, s') => s'.goTo call (.rollback slots (if submit then .stopping else rc))
    | (none, rc, s') => s'.goTo call (.returned (if submit then .stopping else rc))

/-- The loop of `kernel_pool_select_idle_slot`, with the index and the priority
selected so far. -/
def selectLoop (s : BsKernelPool) : List Nat → Nat → Option (Nat × Nat) → Option (Nat × Nat)
  | [], _, selected => selected
  | id :: ids, i, selected =>
      if (s.slot id).busy then selectLoop s ids (i + 1) selected
      else
        match selected with
        | none => selectLoop s ids (i + 1) (some (i, (s.slot id).priority))
        | some (j, priority) =>
            if priority < (s.slot id).priority then
              selectLoop s ids (i + 1) (some (i, (s.slot id).priority))
            else selectLoop s ids (i + 1) (some (j, priority))

def selectIdleSlot (s : BsKernelPool) : Option Nat := (s.selectLoop s.slots 0 none).map Prod.fst

def take (s : BsKernelPool) (call index : Nat) (hasTicket : Bool) : Option BsKernelPool :=
  s.slots[index]?.map fun id =>
    { s with
      slot := Function.update s.slot id ((s.slot id).setBusy true)
      stats := { s.stats with
        busySlots := s.stats.busySlots + 1, submittedJobs := s.stats.submittedJobs + 1 }
      waiters := if hasTicket then s.waiters - 1 else s.waiters
      servingTicket := if hasTicket then s.servingTicket + 1 else s.servingTicket
      calls := s.calls.set call (.executing id)
      log := s.log ++ [.obtained call] }

/-- The second section of `bs_kernel_pool_submit`, for a call without a ticket. -/
def enter (s : BsKernelPool) (c : BsKernelPoolConfig) (call : Nat) (alloc : SlotAlloc) :
    Option BsKernelPool :=
  if s.draining then some (s.goTo call (.returned .stopping))
  else
    let s := s.mark (.arrived call)
    match s.selectIdleSlot with
    | some index => s.take call index false
    | none =>
        if s.slotCount < c.maxInstances then
          match s.addSlot c .dynamic s.stats.dynamicSlots alloc with
          | (true, s') => s'.take call (s'.slotCount - 1) false
          | (false, s') => some (s'.goTo call (.returned .noMem))
        else
          -- there is no idle slot, so the call waits at once
          some { s with
            nextTicket := s.nextTicket + 1
            waiters := s.waiters + 1
            calls := s.calls.set call (.waiting s.nextTicket)
            log := s.log ++ [.queued call] }

def wake (s : BsKernelPool) (call ticket : Nat) : Option BsKernelPool :=
  if s.draining then some ({ s with waiters := s.waiters - 1 }.goTo call (.returned .stopping))
  else
    match s.selectIdleSlot with
    | some index => if ticket = s.servingTicket then s.take call index true else some s
    | none => some s

def release (s : BsKernelPool) (id : Nat) (report : Bool) : BsKernelPool :=
  { s with
    slot := Function.update s.slot id ((s.slot id).setBusy false)
    stats := { s.stats with
      busySlots := s.stats.busySlots - 1
      completedJobs := if report then s.stats.completedJobs + 1 else s.stats.completedJobs
      failedJobs := if report then s.stats.failedJobs else s.stats.failedJobs + 1 } }

/-- `kernel_pool_remove_slot_at`, at the index of a slot of the array. -/
def removeSlot (s : BsKernelPool) (id : Nat) : BsKernelPool :=
  { s with
    slots := s.slots.erase id
    stats := { s.stats with
      totalSlots := s.slotCount - 1
      dynamicSlots :=
        if (s.slot id).kind = .dynamic then s.stats.dynamicSlots - 1 else s.stats.dynamicSlots } }

/-- The last section of `bs_kernel_pool_submit`. -/
def finish (s : BsKernelPool) (c : BsKernelPoolConfig) (call id : Nat) (report : Bool) :
    BsKernelPool :=
  let rc := if report then PoolCode.ok else .execFailed
  if (s.slot id).kind = .dynamic ∧ s.waiters = 0 ∧ c.steadyCount < s.slotCount ∧ id ∈ s.slots then
    ((s.release id report).removeSlot id).goTo call (.removing id rc)
  else (s.release id report).goTo call (.returned rc)

/-- The section of `bs_kernel_pool_reset_all_pipelines`; the busy slots are
asked to cancel, which shows only in their reports. -/
def reset (s : BsKernelPool) (call : Nat) : BsKernelPool :=
  { s with
    slots := []
    slotCapacity := 0
    stats := { s.stats with totalSlots := 0, dynamicSlots := 0, busySlots := 0 }
    draining := false
    calls := s.calls.set call (.sweep s.slots) }

def begin (s : BsKernelPool) (place : CallAt) : BsKernelPool :=
  { s with calls := s.calls ++ [place] }

def step (c : BsKernelPoolConfig) (s : BsKernelPool) : PoolEvent → Option BsKernelPool
  | .callSubmit => some (s.begin (.warmup true))
  | .callWarmup => some (s.begin (.warmup false))
  | .callReset => some (s.begin .reset)
  | .warmup call alloc =>
      match s.calls[call]? with
      | some (.warmup submit) => some (s.warmup c call submit alloc)
      | _ => none
  | .rollback call =>
      match s.calls[call]? with
      | some (.rollback (id :: ids) rc) => some ((s.destroySlot id).goTo call (.rollback ids rc))
      | some (.rollback [] rc) => some (s.goTo call (.returned rc))
      | _ => none
  | .enter call alloc =>
      match s.calls[call]? with
      | some .submit => s.enter c call alloc
      | _ => none
  | .wake call =>
      match s.calls[call]? with
      | some (.waiting ticket) => s.wake call ticket
      | _ => none
  | .finish call report =>
      match s.calls[call]? with
      | some (.executing id) => some (s.finish c call id report)
      | _ => none
  | .remove call =>
      match s.calls[call]? with
      | some (.removing id rc) => some ((s.destroySlot id).goTo call (.returned rc))
      | _ => none
  | .reset call =>
      match s.calls[call]? with
      | some .reset => some (s.reset call)
      | _ => none
  | .sweep call =>
      match s.calls[call]? with
      | some (.sweep (id :: ids)) =>
          -- a slot that is busy is left to its job
          if (s.slot id).busy then some (s.goTo call (.sweep ids))
          else some ((s.destroySlot id).goTo call (.sweep ids))
      | some (.sweep []) => some (s.goTo call (.warmup false))
      | _ => none

end BsKernelPool

/-- A pool of this configuration, after `bs_kernel_pool_create`. -/
def kernelPool (config : BsKernelPoolConfig) : Machine BsKernelPool PoolEvent where
  init := {}
  step := BsKernelPool.step config.normalized

end BlessStar.Runtime
