import BlessStar.Lib.Transition
import Mathlib.Logic.Function.Basic

/-!
# The executor of a kernel

`bs_kernel_start`, `bs_kernel_stop`, `bs_kernel_execute` and the worker of
`kernel.c` as one state machine over any number of calls.  A step is a section
under `exec_mu` or, outside of it, one test or write of the state of the kernel
or of `exec_thread_started`; a wait on a condition variable may be woken up at
any time.
-/

namespace BlessStar.Runtime

open Lib.Transition

inductive KernelState
  | stopped
  | starting
  | running
  | stopping
  | error
  deriving DecidableEq

/-- `KernelExecJob`, as far as the worker writes it. -/
structure KernelExecJob (ρ : Type) where
  report : Option ρ := none
  result : Int := 0
  done : Bool := false

inductive ExecCallAt (ρ : Type)
  | execute
  | acquired
  | waiting
  | returned (report : Option ρ)
  | start
  | startSet
  | startGuard
  | startReset
  | startCreate
  | startMark
  | startWait
  | startDone
  | stop
  | stopSet
  | stopGuard
  | stopRequest
  | stopJoin
  | stopClear
  | stopDone
  | finished (rc : Int)

inductive WorkerAt
  | created
  | looking
  | running (job : Nat)
  | finishing (job : Nat)
  | exited
  deriving DecidableEq

/-- The part of `Kernel` that the executor uses, with its threads and the calls
so far; a job is known by its call.  `enqueued` and `ran` show which jobs were
enqueued and which ran, with their reports. -/
structure KernelExecutor (ρ : Type) where
  state : KernelState := .stopped
  execThread : Nat := 0
  execThreadStarted : Bool := false
  execThreadReady : Bool := false
  execStopRequested : Bool := false
  queue : List Nat := []
  job : Nat → KernelExecJob ρ := fun _ => {}
  workers : List WorkerAt := []
  calls : List (ExecCallAt ρ) := []
  enqueued : List Nat := []
  ran : List (Nat × Option ρ) := []

inductive ExecEvent (ρ : Type)
  | callExecute
  | callStart
  | callStop
  | advance (call : Nat) (created : Bool)
  | direct (call : Nat) (report : Option ρ)
  | work (thread : Nat) (report : Option ρ)

namespace KernelExecutor

variable {ρ : Type}

def begin (s : KernelExecutor ρ) (place : ExecCallAt ρ) : KernelExecutor ρ :=
  { s with calls := s.calls ++ [place] }

def goTo (s : KernelExecutor ρ) (call : Nat) (place : ExecCallAt ρ) : KernelExecutor ρ :=
  { s with calls := s.calls.set call place }

def turnTo (s : KernelExecutor ρ) (thread : Nat) (place : WorkerAt) : KernelExecutor ρ :=
  { s with workers := s.workers.set thread place }

/-- The section of `bs_kernel_execute` with `kernel_exec_enqueue`. -/
def enqueue (s : KernelExecutor ρ) (call : Nat) : KernelExecutor ρ :=
  if s.execStopRequested || !s.execThreadStarted then s.goTo call (.returned none)
  else
    { s with
      queue := s.queue ++ [call]
      enqueued := s.enqueued ++ [call]
      calls := s.calls.set call .waiting }

/-- The next step of a call; `created` says whether the thread can be created. -/
def advance (s : KernelExecutor ρ) (call : Nat) (created : Bool) :
    ExecCallAt ρ → Option (KernelExecutor ρ)
  | .execute => some (s.goTo call (if s.state = .running then .acquired else .returned none))
  | .acquired => some (s.enqueue call)
  | .waiting =>
      let job := s.job call
      if job.done then
        some (s.goTo call (.returned (if job.result = 0 then job.report else none)))
      else some s
  | .returned _ => none
  | .start => some (s.goTo call (if s.state = .stopped then .startSet else .finished (-1)))
  | .startSet => some ({ s with state := .starting }.goTo call .startGuard)
  | .startGuard => some (s.goTo call (if s.execThreadStarted then .startDone else .startReset))
  | .startReset =>
      some ({ s with
        execThreadReady := false
        execStopRequested := false
        execThreadStarted := false }.goTo call .startCreate)
  | .startCreate =>
      if created then
        some ({ s with
          workers := s.workers ++ [WorkerAt.created]
          execThread := s.workers.length }.goTo call .startMark)
      else some ({ s with state := .error }.goTo call (.finished (-1)))
  | .startMark =>
      some ({ s with execThreadStarted := true }.goTo call
        (if s.execThreadReady then .startDone else .startWait))
  | .startWait => some (if s.execThreadReady then s.goTo call .startDone else s)
  | .startDone => some ({ s with state := .running }.goTo call (.finished 0))
  | .stop => some (s.goTo call (if s.state = .running then .stopSet else .finished (-1)))
  | .stopSet => some ({ s with state := .stopping }.goTo call .stopGuard)
  | .stopGuard => some (s.goTo call (if s.execThreadStarted then .stopRequest else .stopDone))
  | .stopRequest => some ({ s with execStopRequested := true }.goTo call .stopJoin)
  | .stopJoin =>
      if s.workers[s.execThread]? = some .exited then some (s.goTo call .stopClear) else none
  | .stopClear =>
      some ({ s with execThreadReady := false, execThreadStarted := false }.goTo call .stopDone)
  | .stopDone => some ({ s with state := .stopped }.goTo call (.finished 0))
  | .finished _ => none

/-- The next step of `kernel_executor_worker_main`; a job that runs may give any
report, or none. -/
def work (s : KernelExecutor ρ) (thread : Nat) (report : Option ρ) :
    WorkerAt → Option (KernelExecutor ρ)
  | .created => some ({ s with execThreadReady := true }.turnTo thread .looking)
  | .looking =>
      match s.queue with
      | [] => some (if s.execStopRequested then s.turnTo thread .exited else s)
      | job :: queue => some ({ s with queue := queue }.turnTo thread (.running job))
  | .running job =>
      some ({ s with
        job := Function.update s.job job
          { s.job job with report := report, result := if report.isSome then 0 else -1 }
        ran := s.ran ++ [(job, report)] }.turnTo thread (.finishing job))
  | .finishing job =>
      some ({ s with
        job := Function.update s.job job { s.job job with done := true } }.turnTo thread .looking)
  | .exited => none

/-- One step.  A call of `bs_kernel_execute` does without the queue when there
is no pipeline, and when it comes from a job. -/
def step (s : KernelExecutor ρ) : ExecEvent ρ → Option (KernelExecutor ρ)
  | .callExecute => some (s.begin .execute)
  | .callStart => some (s.begin .start)
  | .callStop => some (s.begin .stop)
  | .advance call created => s.calls[call]?.bind (s.advance call created)
  | .direct call report =>
      match s.calls[call]? with
      | some .acquired => some (s.goTo call (.returned report))
      | _ => none
  | .work thread report => s.workers[thread]?.bind (s.work thread report)

end KernelExecutor

/-- The executor of a kernel after `bs_kernel_create`. -/
def kernelExecutor (ρ : Type) : Machine (KernelExecutor ρ) (ExecEvent ρ) where
  init := {}
  step := KernelExecutor.step

end BlessStar.Runtime
