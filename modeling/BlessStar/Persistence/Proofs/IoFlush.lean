import BlessStar.Persistence.IoWorker

/-!
# Flushes and timeouts of the I/O worker

A job that has left the queue is not active yet: an idle test in between lets a
flush return early.  A job whose dispatch has timed out stays where it is and
runs when its turn comes.  Steps that avoid both keep the history in order, and
each of the two leads out of it.
-/

namespace BlessStar.Persistence.Proofs.IoFlush

open Lib.Transition Persistence

variable {σ : Type} {s s' : PersistIoWorkerState σ}

/-! ## Jobs that have not run -/

def held : WorkerAt σ → List Nat
  | .popped job => [job.id]
  | .started job => [job.id]
  | _ => []

def flagOf : WorkerAt σ → Bool
  | .started _ => true
  | .finished _ _ => true
  | _ => false

def unrun (s : PersistIoWorkerState σ) : List Nat := held s.worker ++ s.jobs.map (·.id)

structure WorkerSound (s : PersistIoWorkerState σ) : Prop where
  flag : s.active = flagOf s.worker
  accounted : ∀ id, id < s.enqueued ↔ .ran id ∈ s.log ∨ id ∈ unrun s
  pending : ∀ id ∈ unrun s, .ran id ∉ s.log
  nodup : (unrun s).Nodup
  dispatching : ∀ id ∈ s.dispatching, id < s.enqueued
  flushing : ∀ before ∈ s.flushing, before ≤ s.enqueued

theorem workerSound_init (d : σ) : WorkerSound (ioMachine d).init where
  flag := rfl
  accounted _ := by simp [ioMachine, unrun, held]
  pending _ h := absurd h List.not_mem_nil
  nodup := List.nodup_nil
  dispatching _ h := absurd h List.not_mem_nil
  flushing _ h := absurd h List.not_mem_nil

theorem WorkerSound.of_same (h : WorkerSound s) (hflag : s'.active = flagOf s'.worker)
    (hunrun : unrun s' = unrun s) (henqueued : s'.enqueued = s.enqueued)
    (hlog : ∀ id, .ran id ∈ s'.log ↔ .ran id ∈ s.log)
    (hdispatching : ∀ id ∈ s'.dispatching, id ∈ s.dispatching)
    (hflushing : ∀ before ∈ s'.flushing, before ≤ s.enqueued) : WorkerSound s' := by
  refine ⟨hflag, fun id => ?_, fun id hid => ?_, ?_, fun id hid => ?_, ?_⟩
  · rw [henqueued, hunrun, hlog]
    exact h.accounted id
  · rw [hunrun] at hid
    rw [hlog]
    exact h.pending id hid
  · rw [hunrun]
    exact h.nodup
  · rw [henqueued]
    exact h.dispatching id (hdispatching id hid)
  · rw [henqueued]
    exact hflushing

theorem ran_mem_append {log : List IoMark} {mark : IoMark} (h : ∀ id, mark ≠ .ran id) (id : Nat) :
    .ran id ∈ log ++ [mark] ↔ .ran id ∈ log := by
  rw [List.mem_append, List.mem_singleton]
  exact or_iff_left fun heq => h id heq.symm

theorem WorkerSound.dispatch (h : WorkerSound s) (fn : σ → Option AttachStatus × σ) :
    WorkerSound { s with
      jobs := s.jobs ++ [⟨s.enqueued, fn⟩]
      enqueued := s.enqueued + 1
      dispatching := s.enqueued :: s.dispatching } := by
  have hunrun : unrun { s with
      jobs := s.jobs ++ [⟨s.enqueued, fn⟩]
      enqueued := s.enqueued + 1
      dispatching := s.enqueued :: s.dispatching } = unrun s ++ [s.enqueued] := by
    simp [unrun]
  have hnew : ¬(.ran s.enqueued ∈ s.log ∨ s.enqueued ∈ unrun s) := by
    rw [← h.accounted]
    exact lt_irrefl _
  rw [not_or] at hnew
  refine ⟨h.flag, fun id => ?_, fun id hid => ?_, ?_, fun id hid => ?_, fun before hb => ?_⟩
  · rw [hunrun, List.mem_append, List.mem_singleton, ← or_assoc, ← h.accounted]
    exact Nat.lt_succ_iff_lt_or_eq
  · rw [hunrun, List.mem_append, List.mem_singleton] at hid
    rcases hid with hid | rfl
    · exact h.pending id hid
    · exact hnew.1
  · rw [hunrun]
    exact h.nodup.append (List.nodup_singleton _) (by simpa using hnew.2)
  · rcases List.mem_cons.mp hid with rfl | hid
    · exact Nat.lt_succ_self _
    · exact Nat.lt_succ_of_lt (h.dispatching id hid)
  · exact Nat.le_succ_of_le (h.flushing before hb)

theorem WorkerSound.run (h : WorkerSound s) {job : PersistIoJob σ}
    (hworker : s.worker = .started job) (rc : AttachStatus) (d : σ) :
    WorkerSound { s with
      worker := .finished job rc, disk := d, log := s.log ++ [.ran job.id] } := by
  have hunrun : unrun s = job.id :: s.jobs.map (·.id) := by simp [unrun, hworker, held]
  have hnodup := h.nodup
  rw [hunrun, List.nodup_cons] at hnodup
  have hran : ∀ id, .ran id ∈ s.log ++ [.ran job.id] ↔ .ran id ∈ s.log ∨ id = job.id := by
    simp
  refine ⟨by rw [h.flag, hworker]; rfl, fun id => ?_, fun id hid => ?_, hnodup.2, h.dispatching,
    h.flushing⟩
  · rw [hran, h.accounted, hunrun, List.mem_cons, or_assoc]
    rfl
  · rw [hran, not_or]
    refine ⟨h.pending id (by rw [hunrun]; exact List.mem_cons_of_mem _ hid), ?_⟩
    rintro rfl
    exact hnodup.1 hid

theorem workerSound_step {e : IoEvent σ} (h : WorkerSound s) (hstep : s.step e = some s') :
    WorkerSound s' := by
  cases e with
  | dispatch fn =>
      simp only [PersistIoWorkerState.step] at hstep
      split at hstep
      · cases hstep
        exact h
      · cases hstep
        exact h.dispatch fn
  | pop =>
      simp only [PersistIoWorkerState.step] at hstep
      split at hstep
      · rename_i job jobs hworker hjobs
        cases hstep
        refine h.of_same ?_ ?_ rfl (fun _ => Iff.rfl) (fun _ => id) h.flushing
        · rw [h.flag, hworker]
          rfl
        · simp [unrun, hworker, hjobs, held]
      · rename_i hworker hjobs
        split at hstep
        · cases hstep
          refine h.of_same ?_ ?_ rfl (fun _ => Iff.rfl) (fun _ => id) h.flushing
          · rw [h.flag, hworker]
            rfl
          · simp [unrun, hworker, held]
        · cases hstep
      · cases hstep
  | markActive =>
      cases hworker : s.worker with
      | popped job =>
          simp only [PersistIoWorkerState.step, hworker, Option.some.injEq] at hstep
          subst hstep
          exact h.of_same rfl (by simp [unrun, hworker, held]) rfl (fun _ => Iff.rfl)
            (fun _ => id) h.flushing
      | _ => simp [PersistIoWorkerState.step, hworker] at hstep
  | run =>
      cases hworker : s.worker with
      | started job =>
          simp only [PersistIoWorkerState.step, hworker, Option.some.injEq] at hstep
          subst hstep
          exact h.run hworker _ _
      | _ => simp [PersistIoWorkerState.step, hworker] at hstep
  | clearActive =>
      cases hworker : s.worker with
      | finished job rc =>
          simp only [PersistIoWorkerState.step, hworker, Option.some.injEq] at hstep
          subst hstep
          exact h.of_same rfl (by simp [unrun, hworker, held]) rfl (fun _ => Iff.rfl)
            (fun _ => id) h.flushing
      | _ => simp [PersistIoWorkerState.step, hworker] at hstep
  | setResult =>
      cases hworker : s.worker with
      | cleared job rc =>
          simp only [PersistIoWorkerState.step, hworker, Option.some.injEq] at hstep
          subst hstep
          refine h.of_same ?_ (by simp [unrun, hworker, held]) rfl (fun _ => Iff.rfl)
            (fun _ => id) h.flushing
          rw [h.flag, hworker]
          rfl
      | _ => simp [PersistIoWorkerState.step, hworker] at hstep
  | dispatchReturn id =>
      simp only [PersistIoWorkerState.step] at hstep
      split at hstep
      · split at hstep
        · cases hstep
          exact h.of_same h.flag rfl rfl (ran_mem_append (by simp))
            (fun _ => List.mem_of_mem_erase) h.flushing
        · cases hstep
      · cases hstep
  | dispatchTimeout id =>
      simp only [PersistIoWorkerState.step] at hstep
      split at hstep
      · cases hstep
        exact h.of_same h.flag rfl rfl (ran_mem_append (by simp))
          (fun _ => List.mem_of_mem_erase) h.flushing
      · cases hstep
  | flush =>
      cases hstep
      refine h.of_same h.flag rfl rfl (fun _ => Iff.rfl) (fun _ => id) fun before hb => ?_
      rcases List.mem_cons.mp hb with rfl | hb
      · exact le_rfl
      · exact h.flushing before hb
  | idleTest before =>
      simp only [PersistIoWorkerState.step] at hstep
      split at hstep
      · split at hstep
        · cases hstep
          exact h.of_same h.flag rfl rfl (ran_mem_append (by simp)) (fun _ => id) fun b hb =>
            h.flushing b (List.mem_of_mem_erase hb)
        · cases hstep
          exact h
      · cases hstep
  | flushTimeout before =>
      simp only [PersistIoWorkerState.step] at hstep
      split at hstep
      · cases hstep
        exact h.of_same h.flag rfl rfl (ran_mem_append (by simp)) (fun _ => id) fun b hb =>
          h.flushing b (List.mem_of_mem_erase hb)
      · cases hstep
  | stop =>
      cases hstep
      exact h.of_same h.flag rfl rfl (fun _ => Iff.rfl) (fun _ => id) h.flushing

theorem workerSound_of_reachable {d : σ} {meets : PersistIoWorkerState σ → IoEvent σ → Prop}
    (h : (ioMachine d).ReachableMeeting meets s) : WorkerSound s :=
  h.invariant (workerSound_init d) fun _ _ _ hs _ hstep => workerSound_step hs hstep

/-! ## The history -/

inductive Shows (s : PersistIoWorkerState σ) (e : IoEvent σ) : IoMark → Prop
  | ran {job : PersistIoJob σ} : s.worker = .started job → Shows s e (.ran job.id)
  | returned (id : Nat) (rc : AttachStatus) : Shows s e (.returned id rc)
  | timedOut {id : Nat} : e = .dispatchTimeout id → Shows s e (.timedOut id)
  | flushed {before : Nat} : e = .idleTest before → s.idle = true → before ∈ s.flushing →
      Shows s e (.flushed before)
  | flushTimedOut (before : Nat) : Shows s e (.flushTimedOut before)

theorem step_log {e : IoEvent σ} (hstep : s.step e = some s') :
    s'.log = s.log ∨ ∃ mark, Shows s e mark ∧ s'.log = s.log ++ [mark] := by
  cases e with
  | dispatch fn =>
      simp only [PersistIoWorkerState.step] at hstep
      split at hstep <;> exact Or.inl (by rw [← Option.some.inj hstep])
  | pop =>
      simp only [PersistIoWorkerState.step] at hstep
      split at hstep
      · exact Or.inl (by rw [← Option.some.inj hstep])
      · split at hstep
        · exact Or.inl (by rw [← Option.some.inj hstep])
        · cases hstep
      · cases hstep
  | run =>
      cases hworker : s.worker with
      | started job =>
          simp only [PersistIoWorkerState.step, hworker, Option.some.injEq] at hstep
          subst hstep
          exact Or.inr ⟨_, .ran hworker, rfl⟩
      | _ => simp [PersistIoWorkerState.step, hworker] at hstep
  | dispatchReturn id =>
      simp only [PersistIoWorkerState.step] at hstep
      split at hstep
      · split at hstep
        · exact Or.inr ⟨_, .returned _ _, by rw [← Option.some.inj hstep]⟩
        · cases hstep
      · cases hstep
  | dispatchTimeout id =>
      simp only [PersistIoWorkerState.step] at hstep
      split at hstep
      · exact Or.inr ⟨_, .timedOut rfl, by rw [← Option.some.inj hstep]⟩
      · cases hstep
  | idleTest before =>
      simp only [PersistIoWorkerState.step] at hstep
      split at hstep
      · rename_i hflushing
        split at hstep
        · rename_i hidle
          exact Or.inr ⟨_, .flushed rfl hidle hflushing, by rw [← Option.some.inj hstep]⟩
        · exact Or.inl (by rw [← Option.some.inj hstep])
      · cases hstep
  | flushTimeout before =>
      simp only [PersistIoWorkerState.step] at hstep
      split at hstep
      · exact Or.inr ⟨_, .flushTimedOut _, by rw [← Option.some.inj hstep]⟩
      · cases hstep
  | flush => exact Or.inl (by rw [← Option.some.inj hstep])
  | stop => exact Or.inl (by rw [← Option.some.inj hstep])
  | markActive | clearActive | setResult =>
      simp only [PersistIoWorkerState.step] at hstep
      split at hstep
      · exact Or.inl (by rw [← Option.some.inj hstep])
      · cases hstep

/-- A flush whose idle test passes finds no job between the queue and the flag,
and a dispatch times out only once its job has run. -/
def InOrder (s : PersistIoWorkerState σ) : IoEvent σ → Prop
  | .idleTest before => s.idle = true → ∀ job, s.worker = .popped job → before ≤ job.id
  | .dispatchTimeout id => .ran id ∈ s.log
  | _ => True

theorem unrun_of_idle (h : WorkerSound s) (hidle : s.idle = true) {id : Nat} (hid : id ∈ unrun s) :
    ∃ job, s.worker = .popped job ∧ job.id = id := by
  rw [PersistIoWorkerState.idle, Bool.and_eq_true, List.isEmpty_iff, Bool.not_eq_true'] at hidle
  have hflag := h.flag
  rw [hidle.2] at hflag
  rw [unrun, hidle.1, List.map_nil, List.append_nil] at hid
  cases hworker : s.worker with
  | popped job =>
      rw [hworker, held, List.mem_singleton] at hid
      exact ⟨job, rfl, hid.symm⟩
  | started job =>
      rw [hworker] at hflag
      cases hflag
  | _ =>
      rw [hworker] at hid
      exact absurd hid List.not_mem_nil

structure HistorySound (s : PersistIoWorkerState σ) : Prop where
  guarded : Guarded ioGuard s.log
  timeouts : ∀ id, .timedOut id ∈ s.log → .ran id ∈ s.log

theorem historySound_step {e : IoEvent σ} (hworker : WorkerSound s) (h : HistorySound s)
    (horder : InOrder s e) (hstep : s.step e = some s') : HistorySound s' := by
  rcases step_log hstep with hlog | ⟨mark, hshows, hlog⟩
  · exact ⟨by rw [hlog]; exact h.guarded, by rw [hlog]; exact h.timeouts⟩
  · refine ⟨?_, fun id hid => ?_⟩
    · rw [hlog, guarded_append_singleton]
      refine ⟨h.guarded, ?_⟩
      cases hshows with
      | @ran job hstarted =>
          intro htimed
          have hmem : job.id ∈ unrun s := by simp [unrun, hstarted, held]
          exact hworker.pending _ hmem (h.timeouts _ htimed)
      | @flushed before heq hidle hflushing =>
          subst heq
          intro id hid
          have hlt := lt_of_lt_of_le hid (hworker.flushing before hflushing)
          refine ((hworker.accounted id).mp hlt).resolve_right fun hmem => ?_
          obtain ⟨job, hpopped, rfl⟩ := unrun_of_idle hworker hidle hmem
          exact absurd (horder hidle job hpopped) (Nat.not_le.mpr hid)
      | returned id rc => exact trivial
      | timedOut heq => exact trivial
      | flushTimedOut before => exact trivial
    · rw [hlog, List.mem_append, List.mem_singleton] at hid ⊢
      left
      rcases hid with hid | rfl
      · exact h.timeouts id hid
      · cases hshows with
        | timedOut heq =>
            subst heq
            exact horder

/-- **Flushes and timeouts.**  As long as no passing idle test falls between
the pop and the activation of a job it should wait for, and no dispatch times
out before its job has run, every flush that returns OK comes after all jobs
enqueued before it and no job runs after its dispatch has timed out. -/
theorem flush_waits_for_jobs (d : σ) (h : (ioMachine d).ReachableMeeting InOrder s) :
    Guarded ioGuard s.log := by
  have hinit : WorkerSound (ioMachine d).init ∧ HistorySound (ioMachine d).init :=
    ⟨workerSound_init d, Guarded.nil, fun _ hid => absurd hid List.not_mem_nil⟩
  have hboth := h.invariant (I := fun s => WorkerSound s ∧ HistorySound s) hinit
    fun _ _ _ hs horder hstep =>
      ⟨workerSound_step hs.1 hstep, historySound_step hs.1 hs.2 horder hstep⟩
  exact hboth.2.guarded

def idleJob (d : Unit) : Option AttachStatus × Unit := (some .ok, d)

theorem flush_waits_for_one_job : Guarded ioGuard [.ran 0, .returned 0 .ok, .flushed 1] := by
  have h0 := Machine.ReachableMeeting.init (ioMachine ()) InOrder
  have h1 := h0.step (e := IoEvent.dispatch idleJob) trivial rfl
  have h2 := h1.step (e := IoEvent.pop) trivial rfl
  have h3 := h2.step (e := IoEvent.markActive) trivial rfl
  have h4 := h3.step (e := IoEvent.flush) trivial rfl
  have h5 := h4.step (e := IoEvent.run) trivial rfl
  have h6 := h5.step (e := IoEvent.clearActive) trivial rfl
  have h7 := h6.step (e := IoEvent.setResult) trivial rfl
  have h8 := h7.step (e := IoEvent.dispatchReturn 0) trivial rfl
  exact flush_waits_for_jobs () (h8.step (e := IoEvent.idleTest 1) (fun _ _ h => nomatch h) rfl)

/-- The flush finds the queue empty and the flag down while the worker holds the
only job. -/
theorem flush_returns_early :
    ¬ ∀ {σ : Type} (d : σ) (s : PersistIoWorkerState σ), (ioMachine d).Reachable s →
      Guarded ioGuard s.log := by
  intro h
  have h0 := Machine.ReachableMeeting.init (ioMachine ()) fun _ _ => True
  have h1 := h0.step (e := IoEvent.dispatch idleJob) trivial rfl
  have h2 := h1.step (e := IoEvent.pop) trivial rfl
  have h3 := h2.step (e := IoEvent.flush) trivial rfl
  have h4 := h3.step (e := IoEvent.idleTest 1) trivial rfl
  have hran := h () _ h4 [] (.flushed 1) [] rfl 0 Nat.one_pos
  exact absurd hran List.not_mem_nil

/-! ## Steps out of order -/

structure DoneWith (d : σ) (s s' : PersistIoWorkerState σ) : Prop where
  leads : (ioMachine d).Leads s s'
  waiting : s'.worker = .waiting
  jobs : s'.jobs = s.jobs
  log : s.log <+: s'.log
  ran : ∀ id ∈ held s.worker, .ran id ∈ s'.log

theorem DoneWith.head {d : σ} {s₁ : PersistIoWorkerState σ} {e : IoEvent σ}
    (hstep : s.step e = some s₁) (h : DoneWith d s₁ s') (hjobs : s₁.jobs = s.jobs)
    (hlog : s.log <+: s₁.log) (hran : ∀ id ∈ held s.worker, .ran id ∈ s₁.log ∨ id ∈ held s₁.worker) :
    DoneWith d s s' where
  leads := h.leads.head e hstep
  waiting := h.waiting
  jobs := h.jobs.trans hjobs
  log := hlog.trans h.log
  ran id hid := by
    rcases hran id hid with hran | hheld
    · exact h.log.subset hran
    · exact h.ran id hheld

theorem exists_doneWith (d : σ) (s : PersistIoWorkerState σ) (hs : s.worker ≠ .returned) :
    ∃ s', DoneWith d s s' := by
  have hwaiting : ∀ s : PersistIoWorkerState σ, s.worker = .waiting → ∃ s', DoneWith d s s' :=
    fun s hw => ⟨s, .refl s, hw, rfl, List.prefix_refl _, by simp [hw, held]⟩
  have hcleared : ∀ (s : PersistIoWorkerState σ) job rc, s.worker = .cleared job rc →
      ∃ s', DoneWith d s s' := by
    intro s job rc hw
    obtain ⟨s', h⟩ := hwaiting { s with
      worker := .waiting, results := Function.update s.results job.id (some rc) } rfl
    exact ⟨s', h.head (e := .setResult) (by simp [PersistIoWorkerState.step, hw]) rfl
      (List.prefix_refl _) (by simp [hw, held])⟩
  have hfinished : ∀ (s : PersistIoWorkerState σ) job rc, s.worker = .finished job rc →
      ∃ s', DoneWith d s s' := by
    intro s job rc hw
    obtain ⟨s', h⟩ := hcleared { s with worker := .cleared job rc, active := false } job rc rfl
    exact ⟨s', h.head (e := .clearActive) (by simp [PersistIoWorkerState.step, hw]) rfl
      (List.prefix_refl _) (by simp [hw, held])⟩
  have hstarted : ∀ (s : PersistIoWorkerState σ) job, s.worker = .started job →
      ∃ s', DoneWith d s s' := by
    intro s job hw
    obtain ⟨s', h⟩ := hfinished { s with
      worker := .finished job ((job.fn s.disk).1.getD .io)
      disk := (job.fn s.disk).2
      log := s.log ++ [.ran job.id] } job _ rfl
    exact ⟨s', h.head (e := .run) (by simp [PersistIoWorkerState.step, hw]) rfl
      (List.prefix_append _ _) (by simp [hw, held])⟩
  cases hw : s.worker with
  | waiting => exact hwaiting s hw
  | popped job =>
      obtain ⟨s', h⟩ := hstarted { s with worker := .started job, active := true } job rfl
      exact ⟨s', h.head (e := .markActive) (by simp [PersistIoWorkerState.step, hw]) rfl
        (List.prefix_refl _) (by simp [hw, held])⟩
  | started job => exact hstarted s job hw
  | finished job rc => exact hfinished s job rc hw
  | cleared job rc => exact hcleared s job rc hw
  | returned => exact absurd hw hs

theorem exists_ran (d : σ) {id : Nat} (hs : s.worker ≠ .returned) (hid : id ∈ unrun s) :
    ∃ s', (ioMachine d).Leads s s' ∧ s.log <+: s'.log ∧ .ran id ∈ s'.log := by
  -- by induction on the queue, one popped job at a time
  induction hjobs : s.jobs generalizing s with
  | nil =>
      obtain ⟨s', h⟩ := exists_doneWith d s hs
      rw [unrun, hjobs, List.map_nil, List.append_nil] at hid
      exact ⟨s', h.leads, h.log, h.ran id hid⟩
  | cons job jobs ih =>
      obtain ⟨s₁, h⟩ := exists_doneWith d s hs
      rw [unrun, List.mem_append] at hid
      rcases hid with hid | hid
      · exact ⟨s₁, h.leads, h.log, h.ran id hid⟩
      · have hjobs₁ : s₁.jobs = job :: jobs := h.jobs.trans hjobs
        have hpop : s₁.step .pop = some { s₁ with worker := .popped job, jobs := jobs } := by
          simp [PersistIoWorkerState.step, h.waiting, hjobs₁]
        have hmem : id ∈ unrun { s₁ with worker := .popped job, jobs := jobs } := by
          rw [hjobs] at hid
          simpa [unrun, held] using hid
        obtain ⟨s', hleads, hlog, hran⟩ := ih (by simp) hmem rfl
        exact ⟨s', h.leads.trans (hleads.head .pop hpop), h.log.trans hlog, hran⟩

/-- **No other steps are safe.**  A step out of order leads to a history that is
not allowed, as long as the worker has not returned. -/
theorem disorder_breaks {d : σ} {meets : PersistIoWorkerState σ → IoEvent σ → Prop}
    (h : (ioMachine d).ReachableMeeting meets s) {e : IoEvent σ} (horder : ¬InOrder s e)
    (hstep : s.step e = some s') (hs : s'.worker ≠ .returned) :
    ∃ s'', (ioMachine d).Leads s' s'' ∧ ¬Guarded ioGuard s''.log := by
  have hworker := workerSound_of_reachable h
  cases e with
  | idleTest before =>
      simp only [InOrder, Classical.not_forall] at horder
      obtain ⟨hidle, job, hpopped, hbefore⟩ := horder
      refine ⟨s', .refl s', fun hguarded => ?_⟩
      simp only [PersistIoWorkerState.step, hidle, if_true] at hstep
      split at hstep
      · cases hstep
        have hran := (guarded_append_singleton.mp hguarded).2 job.id (Nat.not_le.mp hbefore)
        have hmem : job.id ∈ unrun s := by simp [unrun, hpopped, held]
        exact hworker.pending _ hmem hran
      · cases hstep
  | dispatchTimeout id =>
      simp only [PersistIoWorkerState.step] at hstep
      split at hstep
      · rename_i hwaits
        cases hstep
        have hmem : id ∈ unrun s :=
          ((hworker.accounted id).mp (hworker.dispatching id hwaits.1)).resolve_left horder
        obtain ⟨s'', hleads, ⟨later, hlater⟩, hran⟩ := exists_ran d hs hmem
        refine ⟨s'', hleads, fun hguarded => ?_⟩
        rw [← hlater] at hran
        rcases List.mem_append.mp hran with hran | hran
        · exact horder ((ran_mem_append (by simp) id).mp hran)
        · obtain ⟨past, future, rfl⟩ := List.append_of_mem hran
          refine hguarded _ _ _ (hlater.symm.trans (List.append_assoc _ past _).symm) ?_
          simp
      · cases hstep
  | _ => exact absurd trivial horder

/-- An idle test between the pop and the activation of a job. -/
theorem disorder_breaks_idleTest :
    ∃ s', (ioMachine ()).run (ioMachine ()).init
        [.dispatch idleJob, .pop, .flush, .idleTest 1] = some s' ∧
      ∃ s'', (ioMachine ()).Leads s' s'' ∧ ¬Guarded ioGuard s''.log := by
  have h0 := Machine.ReachableMeeting.init (ioMachine ()) fun _ _ => True
  have h1 := h0.step (e := IoEvent.dispatch idleJob) trivial rfl
  have h2 := h1.step (e := IoEvent.pop) trivial rfl
  have h3 := h2.step (e := IoEvent.flush) trivial rfl
  refine ⟨_, rfl, disorder_breaks h3 (e := .idleTest 1) ?_ rfl fun h => nomatch h⟩
  intro horder
  exact absurd (horder rfl _ rfl) (by decide)

end BlessStar.Persistence.Proofs.IoFlush
