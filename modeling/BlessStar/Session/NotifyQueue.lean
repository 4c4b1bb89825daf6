import BlessStar.Lib.Transition
import BlessStar.State.StateBus

/-!
# The notification queue of a session

`run_worker`, `bs_adapter_attach_notify_queue_enqueue_watch` and
`bs_adapter_attach_notify_queue_flush` of `attach_notify_queue.cpp`, before a
shutdown: the worker thread, and any number of threads that enqueue and flush.
A step is what happens under one acquisition of the queue mutex, or one access
to an atomic outside of it, or the begin or the end of a dispatch.  A wait on the
condition variable may be woken and tested at any time.
-/

namespace BlessStar.Session

open Lib.ByteString Lib.Transition State

/-- `WatchNotifyJob`, numbered in the order of the queue. -/
structure WatchNotifyJob where
  id : Nat
  path : Bytes
  type : ConfigEventType
  snapshotBytes : Bytes
  deriving DecidableEq

inductive NotifyMark
  | enqueued (job : WatchNotifyJob)
  | started (job : WatchNotifyJob)
  | finished (job : WatchNotifyJob)
  | flushed (before : Nat)
  deriving DecidableEq

/-- Where `run_worker` is. -/
inductive NotifyWorkerAt
  | waiting
  | popped (job : WatchNotifyJob)
  | dispatching (job : WatchNotifyJob)
  | dispatched

def NotifyWorkerAt.holds : NotifyWorkerAt → List WatchNotifyJob
  | .popped job => [job]
  | _ => []

/-- Where a flush is: at the wait for `in_flight`, at a job of its own, between
two jobs, past the loop, or back. -/
inductive FlushAt
  | waiting
  | popped (job : WatchNotifyJob)
  | dispatching (job : WatchNotifyJob)
  | dispatched
  | leaving
  | returned
  deriving DecidableEq

def FlushAt.holds : FlushAt → List WatchNotifyJob
  | .popped job => [job]
  | _ => []

/-- A call of `bs_adapter_attach_notify_queue_flush` from a thread other than the
worker, with the number of jobs enqueued before it. -/
structure NotifyFlush where
  before : Nat
  place : FlushAt := .waiting

def NotifyFlush.goTo (f : NotifyFlush) (place : FlushAt) : NotifyFlush := { f with place := place }

/-- `AttachNotifyQueue`, with the flushes so far. -/
structure AttachNotifyQueue where
  jobs : List WatchNotifyJob := []
  drainMode : Bool := false
  inFlight : Nat := 0
  worker : NotifyWorkerAt := .waiting
  flushes : List NotifyFlush := []
  enqueued : Nat := 0
  log : List NotifyMark := []

inductive NotifyEvent
  | enqueueWatch (path : Bytes) (type : ConfigEventType) (snapshot : Bytes)
  | workerPop
  | workerStart
  | workerFinish
  | workerLand
  | flush
  | flushTest (f : Nat)
  | flushStart (f : Nat)
  | flushFinish (f : Nat)
  | flushReturn (f : Nat)

namespace AttachNotifyQueue

def mark (s : AttachNotifyQueue) (m : NotifyMark) : AttachNotifyQueue :=
  { s with log := s.log ++ [m] }

def move (s : AttachNotifyQueue) (f : Nat) (flush : NotifyFlush) (place : FlushAt) :
    AttachNotifyQueue :=
  { s with flushes := s.flushes.set f (flush.goTo place) }

def takeOrLeave (s : AttachNotifyQueue) (f : Nat) (flush : NotifyFlush) : AttachNotifyQueue :=
  match s.jobs with
  | [] => s.move f flush .leaving
  | job :: jobs => { s with jobs := jobs }.move f flush (.popped job)

/-- One step of the worker or of an enqueuing thread, or one of the flush `f`. -/
def step (s : AttachNotifyQueue) : NotifyEvent → Option AttachNotifyQueue
  | .enqueueWatch path type snapshot =>
      let job : WatchNotifyJob := ⟨s.enqueued, path, type, snapshot⟩
      some ({ s with jobs := s.jobs ++ [job], enqueued := s.enqueued + 1 }.mark (.enqueued job))
  | .workerPop =>
      match s.worker, s.jobs with
      | .waiting, job :: jobs =>
          if s.drainMode then none
          else some { s with jobs := jobs, worker := .popped job, inFlight := s.inFlight + 1 }
      | _, _ => none
  | .workerStart =>
      match s.worker with
      | .popped job => some ({ s with worker := .dispatching job }.mark (.started job))
      | _ => none
  | .workerFinish =>
      match s.worker with
      | .dispatching job => some ({ s with worker := .dispatched }.mark (.finished job))
      | _ => none
  | .workerLand =>
      match s.worker with
      | .dispatched => some { s with worker := .waiting, inFlight := s.inFlight - 1 }
      | _ => none
  | .flush => some { s with drainMode := true, flushes := s.flushes ++ [{ before := s.enqueued }] }
  | .flushTest f =>
      match s.flushes[f]? with
      | some flush =>
          match flush.place with
          | .waiting => if 0 < s.inFlight then some s else some (s.takeOrLeave f flush)
          | .dispatched => some (s.takeOrLeave f flush)
          | _ => none
      | none => none
  | .flushStart f =>
      match s.flushes[f]? with
      | some flush =>
          match flush.place with
          | .popped job => some ((s.move f flush (.dispatching job)).mark (.started job))
          | _ => none
      | none => none
  | .flushFinish f =>
      match s.flushes[f]? with
      | some flush =>
          match flush.place with
          | .dispatching job => some ((s.move f flush .dispatched).mark (.finished job))
          | _ => none
      | none => none
  | .flushReturn f =>
      match s.flushes[f]? with
      | some flush =>
          match flush.place with
          | .leaving =>
              some (({ s with drainMode := false }.move f flush .returned).mark
                (.flushed flush.before))
          | _ => none
      | none => none

end AttachNotifyQueue

def notifyQueue : Machine AttachNotifyQueue NotifyEvent where
  init := {}
  step := AttachNotifyQueue.step

/-- What a mark says about the marks before it: a job begins when every job
enqueued before it for its path is done, and a flush returns when every job
enqueued before the flush is. -/
def notifyGuard (past : List NotifyMark) : NotifyMark → Prop
  | .started job => ∀ earlier, .enqueued earlier ∈ past → earlier.id < job.id →
      earlier.path = job.path → .finished earlier ∈ past
  | .flushed before => ∀ job, .enqueued job ∈ past → job.id < before → .finished job ∈ past
  | _ => True

namespace AttachNotifyQueue

def waiting (s : AttachNotifyQueue) : List WatchNotifyJob :=
  s.worker.holds ++ s.flushes.flatMap (fun f => f.place.holds) ++ s.jobs

def DispatchedOnce (s : AttachNotifyQueue) : Prop :=
  ∀ job, .enqueued job ∈ s.log → s.log.count (.started job) + s.waiting.count job = 1

def Alone (s : AttachNotifyQueue) : NotifyEvent → Prop
  | .flush => ∀ f ∈ s.flushes, f.place = .returned
  | _ => True

end AttachNotifyQueue

end BlessStar.Session
