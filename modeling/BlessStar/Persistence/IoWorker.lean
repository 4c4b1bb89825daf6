import BlessStar.Lib.Transition
import BlessStar.Persistence.Basic

/-!
# The persist I/O worker

`persist_io_worker_loop`, `persist_io_dispatch` and `persist_io_wait_idle` of
`attach_store.cpp` as one state machine: the worker thread and any number of
threads that dispatch jobs or flush.  A step is what happens under one lock, or
one store to the atomic flag, or one run of a job.
-/

namespace BlessStar.Persistence

open Lib.Transition

def persistIoQueueCap : Nat := 64

/-- `PersistIoJob`, numbered in the order of the queue; the function acts on
what the jobs act on and has no status when it throws. -/
structure PersistIoJob (σ : Type) where
  id : Nat
  fn : σ → Option AttachStatus × σ

/-- Where `persist_io_worker_loop` is. -/
inductive WorkerAt (σ : Type)
  | waiting
  | popped (job : PersistIoJob σ)
  | started (job : PersistIoJob σ)
  | finished (job : PersistIoJob σ) (rc : AttachStatus)
  | cleared (job : PersistIoJob σ) (rc : AttachStatus)
  | returned

inductive IoMark
  | ran (id : Nat)
  | returned (id : Nat) (rc : AttachStatus)
  | timedOut (id : Nat)
  | flushed (before : Nat)
  | flushTimedOut (before : Nat)
  deriving DecidableEq

/-- `PersistIoWorkerState`, with the calls in progress.  A flush is known by
the number of jobs enqueued before it. -/
structure PersistIoWorkerState (σ : Type) where
  jobs : List (PersistIoJob σ) := []
  worker : WorkerAt σ := .waiting
  active : Bool := false
  stop : Bool := false
  enqueued : Nat := 0
  results : Nat → Option AttachStatus := fun _ => none
  dispatching : List Nat := []
  flushing : List Nat := []
  disk : σ
  log : List IoMark := []

inductive IoEvent (σ : Type)
  | dispatch (fn : σ → Option AttachStatus × σ)
  | pop
  | markActive
  | run
  | clearActive
  | setResult
  | dispatchReturn (id : Nat)
  | dispatchTimeout (id : Nat)
  | flush
  | idleTest (before : Nat)
  | flushTimeout (before : Nat)
  | stop

namespace PersistIoWorkerState

variable {σ : Type}

/-- The test of `persist_io_wait_idle`. -/
def idle (s : PersistIoWorkerState σ) : Bool := s.jobs.isEmpty && !s.active

def step (s : PersistIoWorkerState σ) : IoEvent σ → Option (PersistIoWorkerState σ)
  | .dispatch fn =>
      -- a full queue refuses the job with `BS_ATTACH_ERR_LIMIT`
      if persistIoQueueCap ≤ s.jobs.length then some s
      else
        some { s with
          jobs := s.jobs ++ [⟨s.enqueued, fn⟩]
          enqueued := s.enqueued + 1
          dispatching := s.enqueued :: s.dispatching }
  | .pop =>
      match s.worker, s.jobs with
      | .waiting, job :: jobs => some { s with worker := .popped job, jobs := jobs }
      | .waiting, [] => if s.stop then some { s with worker := .returned } else none
      | _, _ => none
  | .markActive =>
      match s.worker with
      | .popped job => some { s with worker := .started job, active := true }
      | _ => none
  | .run =>
      match s.worker with
      | .started job =>
          let r := job.fn s.disk
          some { s with
            worker := .finished job (r.1.getD .io)
            disk := r.2
            log := s.log ++ [.ran job.id] }
      | _ => none
  | .clearActive =>
      match s.worker with
      | .finished job rc => some { s with worker := .cleared job rc, active := false }
      | _ => none
  | .setResult =>
      match s.worker with
      | .cleared job rc =>
          some { s with
            worker := .waiting, results := Function.update s.results job.id (some rc) }
      | _ => none
  | .dispatchReturn id =>
      match s.results id with
      | some rc =>
          if id ∈ s.dispatching then
            some { s with
              dispatching := s.dispatching.erase id, log := s.log ++ [.returned id rc] }
          else none
      | none => none
  | .dispatchTimeout id =>
      if id ∈ s.dispatching ∧ s.results id = none then
        some { s with dispatching := s.dispatching.erase id, log := s.log ++ [.timedOut id] }
      else none
  | .flush => some { s with flushing := s.enqueued :: s.flushing }
  | .idleTest before =>
      if before ∈ s.flushing then
        if s.idle then
          some { s with flushing := s.flushing.erase before, log := s.log ++ [.flushed before] }
        else some s
      else none
  | .flushTimeout before =>
      if before ∈ s.flushing then
        some { s with
          flushing := s.flushing.erase before, log := s.log ++ [.flushTimedOut before] }
      else none
  | .stop => some { s with stop := true }

end PersistIoWorkerState

/-- The worker of a file-backed store, over the disk `d`. -/
def ioMachine {σ : Type} (d : σ) : Machine (PersistIoWorkerState σ) (IoEvent σ) where
  init := { disk := d }
  step := PersistIoWorkerState.step

/-- What a mark says about the marks before it: a flush that returns OK comes
after every job enqueued before it, and a job never runs after its dispatch has
timed out. -/
def ioGuard (past : List IoMark) : IoMark → Prop
  | .flushed before => ∀ id < before, .ran id ∈ past
  | .ran id => .timedOut id ∉ past
  | _ => True

end BlessStar.Persistence
