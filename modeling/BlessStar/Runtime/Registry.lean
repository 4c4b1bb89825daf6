import BlessStar.Lib.ByteString
import BlessStar.Lib.Transition
import Mathlib.Logic.Function.Basic

/-!
# The pipeline registry of a kernel

`bs_kernel_register_pipeline`, `bs_kernel_unregister_pipeline` and the
references of `bs_kernel_execute` in `kernel.c` as one state machine over any
number of calls.  A step is what a call does under one acquisition of the
registry mutex, a wait on the condition variable being the end of one step and
the beginning of another, or the execution of a job outside of it.
-/

namespace BlessStar.Runtime

open Lib.ByteString Lib.Transition

structure Pipeline where
  address : Nat
  registration : Nat
  deriving DecidableEq

/-- `PipelineEntry`; names are C strings. -/
structure PipelineEntry where
  name : Bytes := []
  pipeline : Pipeline := ⟨0, 0⟩
  activeJobs : Nat := 0
  accepting : Bool := false

structure PipelineRef where
  block : Nat
  index : Nat

/-- A job of `bs_kernel_execute`: the entry it refers to, the pipeline of the
entry when it was acquired, and the pipelines that it ran on and released. -/
structure KernelJob where
  ref : PipelineRef
  acquired : Pipeline
  ranOn : Option Pipeline := none
  releasedOn : Option Pipeline := none

inductive RegistryCallAt
  | register (name : Bytes) (address : Nat)
  | resizing (name : Bytes) (address capacity index : Nat)
  | unregister (name : Bytes)
  | unregistering (name : Bytes) (index : Nat)
  | returned (rc : Int)

/-- The part of `Kernel` under `registry_mu`, with the calls and the jobs so
far. -/
structure KernelRegistry where
  pipelines : Nat := 0
  memory : Nat → Nat → PipelineEntry := fun _ _ => {}
  pipelineCount : Nat := 0
  pipelineCapacity : Nat := 4
  registrations : Nat := 0
  calls : List RegistryCallAt := []
  jobs : List KernelJob := []

/-- How `realloc` ends. -/
inductive Realloc
  | failed
  | inPlace
  | moved

inductive RegistryEvent
  | callRegister (name : Bytes) (address : Nat)
  | callUnregister (name : Bytes)
  | register (call : Nat) (alloc : Realloc)
  | unregister (call : Nat)
  | wake (call : Nat) (alloc : Realloc)
  | acquire
  | execute (job : Nat)
  | release (job : Nat)

namespace KernelRegistry

/-- `kernel->pipelines[i]`. -/
def entry (s : KernelRegistry) (i : Nat) : PipelineEntry := s.memory s.pipelines i

def deref (s : KernelRegistry) (ref : PipelineRef) : PipelineEntry := s.memory ref.block ref.index

def entries (s : KernelRegistry) : List PipelineEntry := (List.range s.pipelineCount).map s.entry

def store (s : KernelRegistry) (ref : PipelineRef) (e : PipelineEntry) : KernelRegistry :=
  { s with
    memory := Function.update s.memory ref.block
      (Function.update (s.memory ref.block) ref.index e) }

def goTo (s : KernelRegistry) (call : Nat) (place : RegistryCallAt) : KernelRegistry :=
  { s with calls := s.calls.set call place }

/-- The first index from `i` on whose entry has the property. -/
def findFrom (s : KernelRegistry) (i : Nat) (p : PipelineEntry → Bool) : Option Nat :=
  (List.range' i (s.pipelineCount - i)).find? fun j => p (s.entry j)

/-- The end of `bs_kernel_register_pipeline`, after any resize. -/
def add (s : KernelRegistry) (call : Nat) (name : Bytes) (address : Nat) : KernelRegistry :=
  match s.findFrom 0 fun e => e.name = name with
  | some _ => s.goTo call (.returned (-1))
  | none =>
      { s.store ⟨s.pipelines, s.pipelineCount⟩
          { name := name, pipeline := ⟨address, s.registrations⟩, accepting := true } with
        pipelineCount := s.pipelineCount + 1
        registrations := s.registrations + 1
        calls := s.calls.set call (.returned 0) }

/-- `kernel_resize_pipelines` from the index `i` of its loop on, and then the
rest of the registration. -/
def resize (s : KernelRegistry) (call : Nat) (name : Bytes) (address capacity i : Nat)
    (alloc : Realloc) : KernelRegistry :=
  match s.findFrom i fun e => 0 < e.activeJobs with
  | some j => s.goTo call (.resizing name address capacity j)
  | none =>
      match alloc with
      | .failed => s.goTo call (.returned (-1))
      | .inPlace => { s with pipelineCapacity := capacity }.add call name address
      | .moved =>
          { s with
            pipelines := s.pipelines + 1
            memory := Function.update s.memory (s.pipelines + 1) (s.memory s.pipelines)
            pipelineCapacity := capacity }.add call name address

/-- `bs_kernel_register_pipeline`. -/
def register (s : KernelRegistry) (call : Nat) (name : Bytes) (address : Nat) (alloc : Realloc) :
    KernelRegistry :=
  if s.pipelineCapacity ≤ s.pipelineCount then
    s.resize call name address (s.pipelineCapacity * 2) 0 alloc
  else s.add call name address

/-- The end of `bs_kernel_unregister_pipeline` at the index `i` of its loop.
Without entries the count wraps around and the copy leaves the memory: there is
no step. -/
def removeAt (s : KernelRegistry) (call i : Nat) : Option KernelRegistry :=
  if s.pipelineCount = 0 then none
  else some { s with
    memory := Function.update s.memory s.pipelines fun j =>
      if i ≤ j ∧ j < s.pipelineCount - 1 then s.entry (j + 1) else s.entry j
    pipelineCount := s.pipelineCount - 1
    calls := s.calls.set call (.returned 0) }

/-- The inner loop of `bs_kernel_unregister_pipeline` at the index `i`. -/
def awaitJobs (s : KernelRegistry) (call : Nat) (name : Bytes) (i : Nat) : Option KernelRegistry :=
  if 0 < (s.entry i).activeJobs then some (s.goTo call (.unregistering name i))
  else s.removeAt call i

/-- `bs_kernel_unregister_pipeline`. -/
def unregister (s : KernelRegistry) (call : Nat) (name : Bytes) : Option KernelRegistry :=
  match s.findFrom 0 fun e => e.name = name with
  | some i =>
      (s.store ⟨s.pipelines, i⟩ { s.entry i with accepting := false }).awaitJobs call name i
  | none => some (s.goTo call (.returned (-1)))

def acquirePipelineRef (s : KernelRegistry) : Option Nat :=
  match s.findFrom 0 fun e => e.accepting && e.name = ascii "default" with
  | some i => some i
  | none => s.findFrom 0 fun e => e.accepting

/-- The beginning of `bs_kernel_execute`; without a pipeline it returns. -/
def acquire (s : KernelRegistry) : KernelRegistry :=
  match s.acquirePipelineRef with
  | some i =>
      let e := s.entry i
      { s.store ⟨s.pipelines, i⟩ { e with activeJobs := e.activeJobs + 1 } with
        jobs := s.jobs ++ [{ ref := ⟨s.pipelines, i⟩, acquired := e.pipeline }] }
  | none => s

/-- `kernel_execute_with_ref`. -/
def execute (s : KernelRegistry) (k : Nat) (job : KernelJob) : KernelRegistry :=
  { s with jobs := s.jobs.set k { job with ranOn := some (s.deref job.ref).pipeline } }

/-- `kernel_release_pipeline_ref`. -/
def release (s : KernelRegistry) (k : Nat) (job : KernelJob) : KernelRegistry :=
  let e := s.deref job.ref
  { s.store job.ref { e with activeJobs := e.activeJobs - 1 } with
    jobs := s.jobs.set k { job with releasedOn := some e.pipeline } }

def begin (s : KernelRegistry) (place : RegistryCallAt) : KernelRegistry :=
  { s with calls := s.calls ++ [place] }

/-- One step.  A job that is rejected, or run after a cancel, is released
without having been executed. -/
def step (s : KernelRegistry) : RegistryEvent → Option KernelRegistry
  | .callRegister name address => some (s.begin (.register name address))
  | .callUnregister name => some (s.begin (.unregister name))
  | .register call alloc =>
      match s.calls[call]? with
      | some (.register name address) => some (s.register call name address alloc)
      | _ => none
  | .unregister call =>
      match s.calls[call]? with
      | some (.unregister name) => s.unregister call name
      | _ => none
  | .wake call alloc =>
      match s.calls[call]? with
      | some (.resizing name address capacity i) =>
          some (s.resize call name address capacity i alloc)
      | some (.unregistering name i) => s.awaitJobs call name i
      | _ => none
  | .acquire => some s.acquire
  | .execute k =>
      match s.jobs[k]? with
      | some job =>
          if job.ranOn = none ∧ job.releasedOn = none then some (s.execute k job) else none
      | none => none
  | .release k =>
      match s.jobs[k]? with
      | some job => if job.releasedOn = none then some (s.release k job) else none
      | none => none

end KernelRegistry

/-- The registry of a kernel after `bs_kernel_create`. -/
def kernelRegistry : Machine KernelRegistry RegistryEvent where
  init := {}
  step := KernelRegistry.step

end BlessStar.Runtime
