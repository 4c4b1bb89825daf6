import BlessStar.Lib.ByteString
import BlessStar.Runtime.Executor

/-!
# The asynchronous queue of a kernel

`bs_kernel_execute_async` and `bs_kernel_drain_async_queue` of `kernel.c`.  A
drain takes an instruction from the queue, gives it to `bs_kernel_execute`, and
goes on when the report says success; what the pipeline does in between,
submissions and drains of its own included, are further steps.
-/

namespace BlessStar.Runtime

open Lib.ByteString Lib.Transition

structure IRMetadata where
  key : Option Bytes
  value : Option Bytes
  deriving DecidableEq

/-- `IRInstruction`; the metadata are a linked list, and a string may be `NULL`. -/
structure IRInstruction where
  type : Option Bytes
  name : Option Bytes
  metadata : List IRMetadata := []
  version : UInt64 := 0
  timestamp : UInt64 := 0
  deriving DecidableEq

def irInstructionCreate (type name : Option Bytes) : IRInstruction := { type, name }

def kernelCopyInstruction (ir : IRInstruction) : IRInstruction :=
  { irInstructionCreate ir.type ir.name with
    version := ir.version
    timestamp := ir.timestamp }

def kernelAsyncQueueCap : Nat := 32

/-- Where a call of `bs_kernel_drain_async_queue` is. -/
inductive DrainCallAt
  | loop
  | executing
  | returned (rc : Int)

/-- A call of `bs_kernel_drain_async_queue`, with the number of instructions it
took, and whether each that it executed succeeded. -/
structure DrainCall where
  place : DrainCallAt := .loop
  processed : Int := 0
  taken : Nat := 0
  succeeded : Bool := true

/-- The queue of a kernel with its drains; `accepted` are the instructions that
`bs_kernel_execute_async` accepted, `presented` those that drains gave to
`bs_kernel_execute`. -/
structure AsyncKernel where
  state : KernelState := .running
  queue : List IRInstruction := []
  drains : List DrainCall := []
  accepted : List IRInstruction := []
  presented : List IRInstruction := []

inductive AsyncStep
  | setState (state : KernelState)
  | executeAsync (ir : IRInstruction)
  | drain
  | take (call : Nat)
  | report (call : Nat) (success : Bool)

namespace AsyncKernel

/-- `bs_kernel_execute_async`, with what it returns. -/
def executeAsync (s : AsyncKernel) (ir : IRInstruction) : AsyncKernel × Int :=
  if s.state ≠ .running then (s, -1)
  else if kernelAsyncQueueCap ≤ s.queue.length then (s, -1)
  else
    ({ s with
        queue := s.queue ++ [kernelCopyInstruction ir]
        accepted := s.accepted ++ [ir] }, 0)

/-- The beginning of `bs_kernel_drain_async_queue`, with what it returns at once. -/
def drain (s : AsyncKernel) : AsyncKernel × Option Int :=
  if s.state ≠ .running then (s, some (-1)) else ({ s with drains := s.drains ++ [{}] }, none)

/-- The head of its loop: the next instruction goes to `bs_kernel_execute`. -/
def take (s : AsyncKernel) (call : Nat) : Option AsyncKernel :=
  match s.drains[call]? with
  | some ⟨.loop, processed, taken, succeeded⟩ =>
      match s.queue with
      | [] =>
          some { s with
            drains := s.drains.set call ⟨.returned processed, processed, taken, succeeded⟩ }
      | ir :: queue =>
          some { s with
            queue := queue
            presented := s.presented ++ [ir]
            drains := s.drains.set call ⟨.executing, processed, taken + 1, succeeded⟩ }
  | _ => none

/-- The rest of its body, once `bs_kernel_execute` has returned a report that says
success, or none or another.  There is no step where `processed` overflows. -/
def report (s : AsyncKernel) (call : Nat) (success : Bool) : Option AsyncKernel :=
  match s.drains[call]? with
  | some ⟨.executing, processed, taken, succeeded⟩ =>
      if success = false then
        some { s with drains := s.drains.set call ⟨.returned (-1), processed, taken, false⟩ }
      else if processed = 2147483647 then none
      else
        some { s with drains := s.drains.set call ⟨.loop, processed + 1, taken, succeeded⟩ }
  | _ => none

end AsyncKernel

def asyncKernel : Machine AsyncKernel AsyncStep where
  init := {}
  step s
    | .setState state => some { s with state := state }
    | .executeAsync ir => some (s.executeAsync ir).1
    | .drain => some s.drain.1
    | .take call => s.take call
    | .report call success => s.report call success

/-! ## What the pipeline is given -/

section Agreement

variable {s s' : AsyncKernel}

theorem kernelCopyInstruction_eq_iff {ir : IRInstruction} :
    kernelCopyInstruction ir = ir ↔ ir.metadata = [] := by
  cases ir
  simp [kernelCopyInstruction, irInstructionCreate, eq_comm]

def DrainCall.Counted (d : DrainCall) : Prop :=
  match d.place with
  | .loop => d.processed = d.taken
  | .executing => d.processed + 1 = d.taken
  | .returned rc => d.succeeded = true → rc = d.taken

structure AsyncKept (s : AsyncKernel) : Prop where
  order : s.presented ++ s.queue = s.accepted.map kernelCopyInstruction
  counted : ∀ d ∈ s.drains, d.Counted

theorem counted_set {drains : List DrainCall} (h : ∀ d ∈ drains, d.Counted) {n : Nat}
    {d : DrainCall} (hd : d.Counted) : ∀ x ∈ drains.set n d, x.Counted := by
  intro x hx
  rcases List.mem_or_eq_of_mem_set hx with hold | hnew
  · exact h x hold
  · exact hnew ▸ hd

theorem AsyncKept.executeAsync (hk : AsyncKept s) (ir : IRInstruction) :
    AsyncKept (s.executeAsync ir).1 := by
  unfold AsyncKernel.executeAsync
  split
  · exact hk
  split
  · exact hk
  · refine ⟨?_, hk.counted⟩
    rw [List.map_append, ← hk.order, List.append_assoc, List.map_singleton]

theorem AsyncKept.take (hk : AsyncKept s) {n : Nat} (h : s.take n = some s') : AsyncKept s' := by
  unfold AsyncKernel.take at h
  split at h
  · rename_i processed taken succeeded hn
    have hcounted : processed = taken := hk.counted _ (List.mem_of_getElem? hn)
    split at h
    · cases h
      exact ⟨hk.order, counted_set hk.counted fun _ => hcounted⟩
    · rename_i ir queue hqueue
      cases h
      refine ⟨?_, counted_set hk.counted ?_⟩
      · rw [List.append_assoc, List.singleton_append, ← hqueue]
        exact hk.order
      · simp only [DrainCall.Counted, hcounted, Nat.cast_succ]
  · cases h

theorem AsyncKept.report (hk : AsyncKept s) {n : Nat} {success : Bool}
    (h : s.report n success = some s') : AsyncKept s' := by
  unfold AsyncKernel.report at h
  split at h
  · rename_i processed taken succeeded hn
    have hcounted : processed + 1 = taken := hk.counted _ (List.mem_of_getElem? hn)
    split at h
    · cases h
      exact ⟨hk.order, counted_set hk.counted fun hfalse => absurd hfalse Bool.false_ne_true⟩
    split at h
    · cases h
    · cases h
      exact ⟨hk.order, counted_set hk.counted hcounted⟩
  · cases h

/-- **One step keeps the order.** -/
theorem AsyncKept.step (hk : AsyncKept s) {e : AsyncStep} (h : asyncKernel.step s e = some s') :
    AsyncKept s' := by
  cases e with
  | setState state =>
      cases h
      exact ⟨hk.order, hk.counted⟩
  | executeAsync ir =>
      cases h
      exact hk.executeAsync ir
  | drain =>
      cases h
      unfold AsyncKernel.drain
      split
      · exact hk
      · refine ⟨hk.order, fun d hd => ?_⟩
        rcases List.mem_append.mp hd with hold | hnew
        · exact hk.counted d hold
        · rw [List.mem_singleton.mp hnew]
          rfl
  | take call => exact hk.take h
  | report call success => exact hk.report h

theorem AsyncKept.of_reachable (h : asyncKernel.Reachable s) : AsyncKept s :=
  h.invariant ⟨rfl, fun _ hd => absurd hd List.not_mem_nil⟩ fun _ _ _ hk _ hstep => hk.step hstep

def successes (n : Nat) : Nat → List AsyncStep
  | 0 => [.take n]
  | k + 1 => .take n :: .report n true :: successes n k

/-- **A drain empties the queue and returns the count** when every execution succeeds. -/
theorem run_successes {n : Nat} {processed : Int} {taken : Nat} {succeeded : Bool}
    (hn : s.drains[n]? = some ⟨.loop, processed, taken, succeeded⟩)
    (hcount : processed + s.queue.length ≤ 2147483647) :
    ∃ s', asyncKernel.run s (successes n s.queue.length) = some s' ∧
      s'.drains[n]? = some ⟨.returned (processed + s.queue.length), processed + s.queue.length,
        taken + s.queue.length, succeeded⟩ := by
  generalize hqueue : s.queue = queue at hcount ⊢
  induction queue generalizing s processed taken with
  | nil =>
      refine ⟨{ s with
        drains := s.drains.set n ⟨.returned processed, processed, taken, succeeded⟩ }, ?_, ?_⟩
      · simp [successes, Machine.run, asyncKernel, AsyncKernel.take, hn, hqueue]
      · simp [(List.getElem?_eq_some_iff.mp hn).1]
  | cons ir queue ih =>
      have hlt := (List.getElem?_eq_some_iff.mp hn).1
      let taking : AsyncKernel :=
        { s with
          queue := queue
          presented := s.presented ++ [ir]
          drains := s.drains.set n ⟨.executing, processed, taken + 1, succeeded⟩ }
      let next : AsyncKernel :=
        { taking with
          drains := taking.drains.set n ⟨.loop, processed + 1, taken + 1, succeeded⟩ }
      have htake : asyncKernel.step s (.take n) = some taking := by
        simp [asyncKernel, AsyncKernel.take, hn, hqueue, taking]
      have hreport : asyncKernel.step taking (.report n true) = some next := by
        have hroom : processed ≠ 2147483647 := by
          rw [List.length_cons] at hcount
          omega
        simp [asyncKernel, AsyncKernel.report, taking, next, hlt, hroom]
      have hplace : next.drains[n]? = some ⟨.loop, processed + 1, taken + 1, succeeded⟩ := by
        simp [next, taking, hlt]
      rw [List.length_cons] at hcount ⊢
      obtain ⟨s', hrun, hreturned⟩ := ih hplace rfl (by omega)
      refine ⟨s', ?_, ?_⟩
      · simp only [successes, Machine.run, htake, hreport, Option.bind_some]
        exact hrun
      · rw [hreturned]
        simp only [Option.some.injEq, DrainCall.mk.injEq, DrainCallAt.returned.injEq]
        refine ⟨by omega, by omega, by omega, trivial⟩

/-- The asynchronous path gives `bs_kernel_execute` what was accepted, in its
order, and a drain returns the number of instructions that it processed. -/
structure AsyncAgrees (s : AsyncKernel) : Prop where
  presented : s.presented = s.accepted.take s.presented.length
  returned : ∀ d ∈ s.drains, ∀ rc, d.place = .returned rc → d.succeeded = true → rc = d.taken
  returns : ∀ (n : Nat) (d : DrainCall), s.drains[n]? = some d → d.place = .loop →
    d.processed + s.queue.length ≤ 2147483647 →
      ∃ s' d', asyncKernel.run s (successes n s.queue.length) = some s' ∧
        s'.drains[n]? = some d' ∧ d'.place = .returned (d.taken + s.queue.length)

theorem presented_eq (hk : AsyncKept s) :
    s.presented = (s.accepted.take s.presented.length).map kernelCopyInstruction := by
  rw [List.map_take, ← hk.order, List.take_left]

/-- **The two paths agree exactly** as long as no instruction that was taken has metadata. -/
theorem async_agrees_iff (h : asyncKernel.Reachable s) :
    AsyncAgrees s ↔ ∀ ir ∈ s.accepted.take s.presented.length, ir.metadata = [] := by
  have hk := AsyncKept.of_reachable h
  have hsame : s.presented = s.accepted.take s.presented.length ↔
      ∀ ir ∈ s.accepted.take s.presented.length, ir.metadata = [] := by
    calc
      s.presented = s.accepted.take s.presented.length ↔
          (s.accepted.take s.presented.length).map kernelCopyInstruction =
            (s.accepted.take s.presented.length).map id := by
        rw [← presented_eq hk, List.map_id]
      _ ↔ ∀ ir ∈ s.accepted.take s.presented.length, kernelCopyInstruction ir = id ir :=
        List.map_inj_left
      _ ↔ ∀ ir ∈ s.accepted.take s.presented.length, ir.metadata = [] :=
        forall₂_congr fun _ _ => kernelCopyInstruction_eq_iff
  constructor
  · intro hagrees
    exact hsame.mp hagrees.presented
  · intro hnone
    refine ⟨hsame.mpr hnone, ?_, ?_⟩
    · rintro ⟨place, processed, taken, succeeded⟩ hd rc rfl hsucceeded
      exact hk.counted _ hd hsucceeded
    · rintro n ⟨place, processed, taken, succeeded⟩ hn rfl hcount
      have hcounted : processed = taken := hk.counted _ (List.mem_of_getElem? hn)
      obtain ⟨s', hrun, hreturned⟩ := run_successes hn hcount
      exact ⟨s', _, hrun, hreturned, by rw [hcounted]⟩

def checkedInstruction : IRInstruction :=
  { type := some (ascii "policy"), name := some (ascii "p"),
    metadata := [⟨some (ascii "scope"), some (ascii "all")⟩] }

/-- The pipeline is given the instruction without it. -/
theorem metadata_lost :
    ∃ s, asyncKernel.run {} [.executeAsync checkedInstruction, .drain, .take 0, .report 0 true,
      .take 0] = some s ∧ ¬AsyncAgrees s :=
  ⟨_, rfl, fun h => absurd h.presented (by decide)⟩

theorem plain_agrees :
    ∃ s, asyncKernel.run {} [.executeAsync { type := some (ascii "policy"), name := none }, .drain,
      .take 0, .report 0 true, .take 0] = some s ∧ AsyncAgrees s := by
  let steps : List AsyncStep :=
    [.executeAsync { type := some (ascii "policy"), name := none }, .drain, .take 0,
      .report 0 true, .take 0]
  have hrun : asyncKernel.run {} steps = some _ := rfl
  refine ⟨_, hrun, (async_agrees_iff (Machine.reachable_of_run steps hrun)).mpr ?_⟩
  decide

end Agreement

end BlessStar.Runtime
