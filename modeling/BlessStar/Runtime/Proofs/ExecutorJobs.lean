import Mathlib.Data.List.Nodup
import BlessStar.Lib.Places
import BlessStar.Runtime.Executor

/-!
# The jobs of the executor

While the calls that start and stop a kernel take turns there is at most one
worker, and it leaves only an empty queue behind.  Two starts at once make two
workers, which run the jobs of the queue side by side.
-/

namespace BlessStar.Runtime.Proofs.ExecutorJobs

open Lib.Transition Lib.Places KernelExecutor

variable {ρ : Type} {s s' : KernelExecutor ρ} {call thread : Nat} {old new : ExecCallAt ρ}

/-! ## Workers -/

def Live (s : KernelExecutor ρ) (thread : Nat) : Prop :=
  ∃ place, s.workers[thread]? = some place ∧ place ≠ .exited

def OneWorker (s : KernelExecutor ρ) : Prop := ∀ thread, Live s thread ↔ thread = s.execThread

def NoWorker (s : KernelExecutor ρ) : Prop := (∀ thread, ¬Live s thread) ∧ s.queue = []

def currentJob : WorkerAt → List Nat
  | .running job => [job]
  | _ => []

def running (s : KernelExecutor ρ) : List Nat := s.workers.flatMap currentJob

theorem running_of_oneWorker {place : WorkerAt} (h : OneWorker s)
    (hthread : s.workers[thread]? = some place) (hlive : place ≠ .exited) :
    running s = currentJob place := by
  have heq := (h thread).mp ⟨place, hthread, hlive⟩
  apply flatMap_eq_of_others hthread
  intro other hne p hp
  by_cases hexit : p = .exited
  · rw [hexit]
    rfl
  · exact absurd (((h other).mp ⟨p, hp, hexit⟩).trans heq.symm) hne

theorem running_of_noWorker (h : NoWorker s) : running s = [] := by
  apply List.flatMap_eq_nil_iff.mpr
  intro p hp
  obtain ⟨thread, hthread⟩ := List.mem_iff_getElem?.mp hp
  by_cases hexit : p = .exited
  · rw [hexit]
    rfl
  · exact absurd ⟨p, hthread, hexit⟩ (h.1 thread)

theorem live_set {place : WorkerAt} (hthread : s.workers[thread]? = some place) (next : WorkerAt)
    (other : Nat) :
    Live { s with workers := s.workers.set thread next } other ↔
      if other = thread then next ≠ .exited else Live s other := by
  unfold Live
  by_cases hother : other = thread
  · subst hother
    rw [if_pos rfl]
    constructor
    · rintro ⟨p, hp, hlive⟩
      obtain rfl := Option.some.inj ((get_set_self hthread next).symm.trans hp)
      exact hlive
    · exact fun hlive => ⟨next, get_set_self hthread next, hlive⟩
  · rw [if_neg hother]
    show (∃ p, (s.workers.set thread next)[other]? = some p ∧ _) ↔ _
    rw [get_set_ne hother]

/-! ## Starting and stopping -/

def inControl : ExecCallAt ρ → Bool
  | .startSet | .startGuard | .startReset | .startCreate | .startMark | .startWait | .startDone
  | .stopSet | .stopGuard | .stopRequest | .stopJoin | .stopClear | .stopDone => true
  | _ => false

def On (s : KernelExecutor ρ) : Prop :=
  s.execThreadStarted = true ∧ s.execStopRequested = false ∧ OneWorker s

def Off (s : KernelExecutor ρ) : Prop := s.execThreadStarted = false ∧ NoWorker s

/-- What holds while a call of `bs_kernel_start` or `bs_kernel_stop` is in this
place. -/
def Holding (s : KernelExecutor ρ) : ExecCallAt ρ → Prop
  | .startSet | .startGuard | .startReset | .stopDone => Off s
  | .startCreate => Off s ∧ s.execStopRequested = false
  | .startMark => s.execStopRequested = false ∧ OneWorker s
  | .startWait | .startDone | .stopSet | .stopGuard | .stopRequest => On s
  | .stopJoin => s.execStopRequested = true ∧ (OneWorker s ∨ NoWorker s)
  | .stopClear => s.execStopRequested = true ∧ NoWorker s
  | _ => True

def Resting (s : KernelExecutor ρ) : Prop :=
  (s.state = .running → On s) ∧ (s.state ≠ .running → Off s)

structure PhaseSound (s : KernelExecutor ρ) : Prop where
  exclusive : ∀ (i j : Nat) p q, s.calls[i]? = some p → s.calls[j]? = some q →
    inControl p = true → inControl q = true → i = j
  holding : ∀ (i : Nat) p, s.calls[i]? = some p → inControl p = true → Holding s p
  resting : (∀ (i : Nat) p, s.calls[i]? = some p → inControl p = false) → Resting s

theorem phaseSound_init : PhaseSound (kernelExecutor ρ).init where
  exclusive := by simp [kernelExecutor]
  holding := by simp [kernelExecutor]
  resting := by
    intro _
    refine ⟨nofun, fun _ => ⟨rfl, fun thread => ?_, rfl⟩⟩
    rintro ⟨p, hp, -⟩
    simp [kernelExecutor] at hp

theorem PhaseSound.cases (h : PhaseSound s) :
    (∃ p, inControl p = true ∧ Holding s p) ∨ Resting s := by
  by_cases hcontrol : ∃ (i : Nat) (p : ExecCallAt ρ), s.calls[i]? = some p ∧ inControl p = true
  · obtain ⟨i, p, hp, hin⟩ := hcontrol
    exact Or.inl ⟨p, hin, h.holding i p hp hin⟩
  · exact Or.inr (h.resting fun i p hp =>
      Bool.eq_false_iff.mpr fun hin => hcontrol ⟨i, p, hp, hin⟩)

theorem PhaseSound.workers (h : PhaseSound s) : OneWorker s ∨ NoWorker s := by
  rcases h.cases with ⟨p, hin, hhold⟩ | hrest
  · cases p with
    | startSet | startGuard | startReset | stopDone => exact Or.inr hhold.2
    | startCreate => exact Or.inr hhold.1.2
    | startMark => exact Or.inl hhold.2
    | startWait | startDone | stopSet | stopGuard | stopRequest => exact Or.inl hhold.2.2
    | stopJoin => exact hhold.2
    | stopClear => exact Or.inr hhold.2
    | _ => cases hin
  · by_cases hrunning : s.state = .running
    · exact Or.inl (hrest.1 hrunning).2.2
    · exact Or.inr (hrest.2 hrunning).2

/-- What the workers and the calls of `bs_kernel_execute` may do to the
executor. -/
structure Drift (s s' : KernelExecutor ρ) : Prop where
  state : s'.state = s.state
  started : s'.execThreadStarted = s.execThreadStarted
  stop : s'.execStopRequested = s.execStopRequested
  one : OneWorker s → OneWorker s' ∨ s.execStopRequested = true ∧ NoWorker s'
  none : NoWorker s → (s.execThreadStarted = false ∨ s.execStopRequested = true) → NoWorker s'

theorem Drift.of_same (hstate : s'.state = s.state)
    (hstarted : s'.execThreadStarted = s.execThreadStarted)
    (hstop : s'.execStopRequested = s.execStopRequested) (hworkers : s'.workers = s.workers)
    (hthread : s'.execThread = s.execThread) (hqueue : s'.queue = s.queue) : Drift s s' := by
  have hlive : ∀ thread, Live s' thread ↔ Live s thread := by
    intro thread
    rw [Live, hworkers, Live]
  refine ⟨hstate, hstarted, hstop, fun h => Or.inl fun thread => ?_, fun h _ => ⟨?_, ?_⟩⟩
  · rw [hlive, hthread]
    exact h thread
  · exact fun thread hl => h.1 thread ((hlive thread).mp hl)
  · exact hqueue.trans h.2

theorem Drift.on (d : Drift s s') (h : On s) : On s' := by
  refine ⟨d.started.trans h.1, d.stop.trans h.2.1, ?_⟩
  rcases d.one h.2.2 with hone | ⟨hstop, -⟩
  · exact hone
  · rw [h.2.1] at hstop
    cases hstop

theorem Drift.off (d : Drift s s') (h : Off s) : Off s' :=
  ⟨d.started.trans h.1, d.none h.2 (Or.inl h.1)⟩

theorem Drift.holding (d : Drift s s') {p : ExecCallAt ρ} (h : Holding s p) : Holding s' p := by
  cases p with
  | startSet | startGuard | startReset | stopDone => exact d.off h
  | startCreate => exact ⟨d.off h.1, d.stop.trans h.2⟩
  | startMark =>
      refine ⟨d.stop.trans h.1, ?_⟩
      rcases d.one h.2 with hone | ⟨hstop, -⟩
      · exact hone
      · rw [h.1] at hstop
        cases hstop
  | startWait | startDone | stopSet | stopGuard | stopRequest => exact d.on h
  | stopJoin =>
      refine ⟨d.stop.trans h.1, ?_⟩
      rcases h.2 with hone | hnone
      · exact (d.one hone).imp id And.right
      · exact Or.inr (d.none hnone (Or.inr h.1))
  | stopClear => exact ⟨d.stop.trans h.1, d.none h.2 (Or.inr h.1)⟩
  | _ => trivial

theorem PhaseSound.drift (h : PhaseSound s) (d : Drift s s')
    (hcalls : ∀ (i : Nat) p, inControl p = true → (s'.calls[i]? = some p ↔ s.calls[i]? = some p)) :
    PhaseSound s' := by
  refine ⟨fun i j p q hp hq hip hiq => ?_, fun i p hp hip => ?_, fun hnone => ?_⟩
  · exact h.exclusive i j p q ((hcalls i p hip).mp hp) ((hcalls j q hiq).mp hq) hip hiq
  · exact d.holding (h.holding i p ((hcalls i p hip).mp hp) hip)
  · have hrest := h.resting fun i p hp => Bool.eq_false_iff.mpr fun hin =>
      Bool.eq_false_iff.mp (hnone i p ((hcalls i p hin).mpr hp)) hin
    exact ⟨fun hrun => d.on (hrest.1 (d.state ▸ hrun)),
      fun hrun => d.off (hrest.2 (d.state ▸ hrun))⟩

theorem PhaseSound.control (hcall : s.calls[call]? = some old)
    (hothers : ∀ (i : Nat) p, i ≠ call → s.calls[i]? = some p → inControl p = false)
    (hcalls : s'.calls = s.calls.set call new) (hnew : inControl new = true → Holding s' new)
    (hrest : inControl new = false → Resting s') : PhaseSound s' := by
  have hself : s'.calls[call]? = some new := by
    rw [hcalls]
    exact get_set_self hcall new
  have hother : ∀ (i : Nat) p, i ≠ call → s'.calls[i]? = some p → inControl p = false := by
    intro i p hne hp
    rw [hcalls, get_set_ne hne] at hp
    exact hothers i p hne hp
  have honly : ∀ (i : Nat) p, s'.calls[i]? = some p → inControl p = true → i = call := by
    intro i p hp hin
    by_contra hne
    rw [hother i p hne hp] at hin
    cases hin
  refine ⟨fun i j p q hp hq hip hiq => ?_, fun i p hp hip => ?_, fun hnone => ?_⟩
  · exact (honly i p hp hip).trans (honly j q hq hiq).symm
  · obtain rfl := honly i p hp hip
    obtain rfl := Option.some.inj (hself.symm.trans hp)
    exact hnew hip
  · exact hrest (hnone call new hself)

/-! ## The steps of a worker -/

theorem live_of_get {place : WorkerAt} (hthread : s.workers[thread]? = some place)
    (hplace : place ≠ .exited) : Live s thread := ⟨place, hthread, hplace⟩

theorem Drift.turn {place next : WorkerAt} (hthread : s.workers[thread]? = some place)
    (hplace : place ≠ .exited) (hnext : next ≠ .exited) (hstate : s'.state = s.state)
    (hstarted : s'.execThreadStarted = s.execThreadStarted)
    (hstop : s'.execStopRequested = s.execStopRequested)
    (hexec : s'.execThread = s.execThread)
    (hworkers : s'.workers = s.workers.set thread next) : Drift s s' := by
  have hlive : ∀ other, Live s' other ↔ Live s other := by
    intro other
    have hset := live_set hthread next other
    have hsame : Live s' other ↔ Live { s with workers := s.workers.set thread next } other := by
      unfold Live
      rw [hworkers]
    rw [hsame, hset]
    by_cases hother : other = thread
    · subst hother
      rw [if_pos rfl]
      exact iff_of_true hnext (live_of_get hthread hplace)
    · rw [if_neg hother]
  refine ⟨hstate, hstarted, hstop, fun h => Or.inl fun other => ?_, fun h _ => ?_⟩
  · rw [hlive, hexec]
    exact h other
  · exact absurd (live_of_get hthread hplace) (h.1 thread)

theorem Drift.exit (hthread : s.workers[thread]? = some .looking) (hqueue : s.queue = [])
    (hstop : s.execStopRequested = true) : Drift s (s.turnTo thread .exited) := by
  have hlive := live_of_get hthread (by simp)
  refine ⟨rfl, rfl, rfl, fun h => Or.inr ⟨hstop, ?_, hqueue⟩, fun h _ => absurd hlive (h.1 thread)⟩
  intro other hother
  have hset := (live_set hthread .exited other).mp hother
  by_cases heq : other = thread
  · rw [if_pos heq] at hset
    exact hset rfl
  · rw [if_neg heq] at hset
    exact heq (((h other).mp hset).trans ((h thread).mp hlive).symm)

theorem Drift.work {report : Option ρ} {place : WorkerAt}
    (hthread : s.workers[thread]? = some place) (hstep : s.work thread report place = some s') :
    Drift s s' := by
  cases place with
  | created =>
      cases hstep
      exact .turn hthread (by simp) (by simp) rfl rfl rfl rfl rfl
  | looking =>
      simp only [KernelExecutor.work] at hstep
      split at hstep
      · next hqueue =>
          cases hstep
          split
          · next hstop => exact .exit hthread hqueue hstop
          · exact .of_same rfl rfl rfl rfl rfl rfl
      · cases hstep
        exact .turn hthread (by simp) (by simp) rfl rfl rfl rfl rfl
  | running job =>
      cases hstep
      exact .turn hthread (by simp) (by simp) rfl rfl rfl rfl rfl
  | finishing job =>
      cases hstep
      exact .turn hthread (by simp) (by simp) rfl rfl rfl rfl rfl
  | exited => cases hstep

/-! ## Jobs -/

structure JobsSound (s : KernelExecutor ρ) : Prop where
  order : s.enqueued = s.ran.map Prod.fst ++ running s ++ s.queue
  nodup : s.enqueued.Nodup
  queued : ∀ call ∈ s.enqueued, ∃ place, s.calls[call]? = some place ∧
    (place = .waiting ∨ ∃ r, place = .returned r)
  reports : ∀ job r, (job, r) ∈ s.ran → (s.job job).report = r ∧
    (s.job job).result = if r.isSome then 0 else -1
  done : ∀ job, (s.job job).done = true → ∃ r, (job, r) ∈ s.ran
  finishing : ∀ (thread job : Nat), s.workers[thread]? = some (.finishing job) →
    ∃ r, (job, r) ∈ s.ran
  own : ∀ (call : Nat) r, s.calls[call]? = some (.returned r) → call ∈ s.enqueued →
    (call, r) ∈ s.ran

theorem jobsSound_init : JobsSound (kernelExecutor ρ).init where
  order := rfl
  nodup := List.nodup_nil
  queued := by simp [kernelExecutor]
  reports := by simp [kernelExecutor]
  done := by simp [kernelExecutor]
  finishing := by simp [kernelExecutor]
  own := by simp [kernelExecutor]

theorem JobsSound.move (h : JobsSound s) (hcall : s.calls[call]? = some old)
    (hcalls : s'.calls = s.calls.set call new) (henqueued : s'.enqueued = s.enqueued)
    (hran : s'.ran = s.ran) (hqueue : s'.queue = s.queue) (hjob : s'.job = s.job)
    (hrunning : running s' = running s)
    (hfinishing : ∀ (thread job : Nat), s'.workers[thread]? = some (.finishing job) →
      s.workers[thread]? = some (.finishing job))
    (hnew : call ∈ s.enqueued → ∃ r, new = .returned r ∧ (call, r) ∈ s.ran) : JobsSound s' := by
  refine ⟨?_, ?_, fun i hi => ?_, ?_, ?_, fun t j hj => ?_, fun i r hi hmem => ?_⟩
  · rw [henqueued, hran, hrunning, hqueue]
    exact h.order
  · rw [henqueued]
    exact h.nodup
  · rw [henqueued] at hi
    rw [hcalls]
    by_cases hne : i = call
    · subst hne
      obtain ⟨r, rfl, -⟩ := hnew hi
      exact ⟨_, get_set_self hcall _, Or.inr ⟨r, rfl⟩⟩
    · rw [get_set_ne hne]
      exact h.queued i hi
  · rw [hran, hjob]
    exact h.reports
  · rw [hran, hjob]
    exact h.done
  · rw [hran]
    exact h.finishing t j (hfinishing t j hj)
  · rw [henqueued] at hmem
    rw [hcalls] at hi
    rw [hran]
    by_cases hne : i = call
    · subst hne
      obtain ⟨r', hr', hin⟩ := hnew hmem
      rw [get_set_self hcall, hr'] at hi
      cases hi
      exact hin
    · rw [get_set_ne hne] at hi
      exact h.own i r hi hmem

theorem JobsSound.begin (h : JobsSound s) (hnew : ∀ r, new ≠ .returned r) :
    JobsSound (s.begin new) := by
  refine ⟨h.order, h.nodup, fun i hi => ?_, h.reports, h.done, h.finishing, fun i r hi hmem => ?_⟩
  · obtain ⟨place, hplace, hcases⟩ := h.queued i hi
    refine ⟨place, ?_, hcases⟩
    show (s.calls ++ [new])[i]? = some place
    rw [List.getElem?_append_left (List.getElem?_eq_some_iff.mp hplace).1]
    exact hplace
  · have hi' : (s.calls ++ [new])[i]? = some (.returned r) := hi
    rw [List.getElem?_append] at hi'
    split at hi'
    · exact h.own i r hi' hmem
    · exact absurd (List.mem_singleton.mp (List.mem_of_getElem? hi')).symm (hnew r)

theorem JobsSound.not_mem (h : JobsSound s) (hcall : s.calls[call]? = some old)
    (hwaiting : old ≠ .waiting) (hreturned : ∀ r, old ≠ .returned r) : call ∉ s.enqueued := by
  intro hmem
  obtain ⟨place, hplace, hcases⟩ := h.queued call hmem
  obtain rfl := Option.some.inj (hcall.symm.trans hplace)
  rcases hcases with heq | ⟨r, heq⟩
  · exact hwaiting heq
  · exact hreturned r heq

theorem JobsSound.enqueued (h : JobsSound s) (hcall : s.calls[call]? = some .acquired) :
    JobsSound { s with
      queue := s.queue ++ [call]
      enqueued := s.enqueued ++ [call]
      calls := s.calls.set call .waiting } := by
  have hnew := h.not_mem hcall (by simp) (by simp)
  refine ⟨?_, ?_, fun i hi => ?_, h.reports, h.done, h.finishing, fun i r hi hmem => ?_⟩
  · show s.enqueued ++ [call] = s.ran.map Prod.fst ++ running s ++ (s.queue ++ [call])
    rw [h.order, List.append_assoc]
  · exact List.Nodup.append h.nodup (List.nodup_singleton call) (by simpa using hnew)
  · show ∃ place, (s.calls.set call .waiting)[i]? = some place ∧ _
    by_cases hne : i = call
    · subst hne
      exact ⟨.waiting, get_set_self hcall _, Or.inl rfl⟩
    · rw [get_set_ne hne]
      rcases List.mem_append.mp hi with hi | hi
      · exact h.queued i hi
      · exact absurd (List.mem_singleton.mp hi) hne
  · have hi' : (s.calls.set call .waiting)[i]? = some (.returned r) := hi
    by_cases hne : i = call
    · subst hne
      rw [get_set_self hcall] at hi'
      cases hi'
    · rw [get_set_ne hne] at hi'
      rcases List.mem_append.mp hmem with hmem | hmem
      · exact h.own i r hi' hmem
      · exact absurd (List.mem_singleton.mp hmem) hne

theorem JobsSound.pop (h : JobsSound s) (hone : OneWorker s)
    (hthread : s.workers[thread]? = some .looking) {job : Nat} {queue : List Nat}
    (hqueue : s.queue = job :: queue) :
    JobsSound ({ s with queue := queue }.turnTo thread (.running job)) := by
  have hbefore : running s = [] := running_of_oneWorker hone hthread (by simp)
  have hafter : (s.workers.set thread (.running job)).flatMap currentJob = [job] := by
    apply flatMap_eq_of_others (get_set_self hthread _)
    intro other hne p hp
    rw [get_set_ne hne] at hp
    exact List.flatMap_eq_nil_iff.mp hbefore p (List.mem_of_getElem? hp)
  refine ⟨?_, h.nodup, h.queued, h.reports, h.done, fun t j hj => ?_, h.own⟩
  · show s.enqueued = s.ran.map Prod.fst ++
      (s.workers.set thread (.running job)).flatMap currentJob ++ queue
    rw [hafter, h.order, hbefore, hqueue]
    simp
  · have hj' : (s.workers.set thread (.running job))[t]? = some (.finishing j) := hj
    by_cases hne : t = thread
    · subst hne
      rw [get_set_self hthread] at hj'
      cases hj'
    · rw [get_set_ne hne] at hj'
      exact h.finishing t j hj'

theorem JobsSound.run (h : JobsSound s) (hone : OneWorker s) {job : Nat}
    (hthread : s.workers[thread]? = some (.running job)) (report : Option ρ) :
    JobsSound ({ s with
      job := Function.update s.job job
        { s.job job with report := report, result := if report.isSome then 0 else -1 }
      ran := s.ran ++ [(job, report)] }.turnTo thread (.finishing job)) := by
  have hbefore : running s = [job] := running_of_oneWorker hone hthread (by simp)
  have hafter : (s.workers.set thread (.finishing job)).flatMap currentJob = [] := by
    apply flatMap_eq_of_others (get_set_self hthread _)
    intro other hne p hp
    rw [get_set_ne hne] at hp
    by_cases hexit : p = .exited
    · rw [hexit]
      rfl
    · have hlive := (hone other).mp (live_of_get hp hexit)
      exact absurd (hlive.trans ((hone thread).mp (live_of_get hthread (by simp))).symm) hne
  have hnew : job ∉ s.ran.map Prod.fst := by
    have hnodup := h.nodup
    rw [h.order, hbefore, List.append_assoc] at hnodup
    intro hmem
    exact (List.nodup_append.mp hnodup).2.2 job hmem job (by simp) rfl
  refine ⟨?_, h.nodup, h.queued, fun j r hjr => ?_, fun j hj => ?_, fun t j hj => ?_,
    fun i r hi hmem => List.mem_append_left _ (h.own i r hi hmem)⟩
  · show s.enqueued = (s.ran ++ [(job, report)]).map Prod.fst ++
      (s.workers.set thread (.finishing job)).flatMap currentJob ++ s.queue
    rw [hafter, h.order, hbefore]
    simp
  · rcases List.mem_append.mp hjr with hjr | hjr
    · have hne : j ≠ job := fun heq => hnew (heq ▸ List.mem_map_of_mem hjr)
      show (Function.update s.job job _ j).report = r ∧ (Function.update s.job job _ j).result = _
      rw [Function.update_of_ne hne]
      exact h.reports j r hjr
    · obtain ⟨rfl, rfl⟩ := Prod.mk.inj (List.mem_singleton.mp hjr)
      show (Function.update s.job j _ j).report = r ∧ (Function.update s.job j _ j).result = _
      rw [Function.update_self]
      exact ⟨rfl, rfl⟩
  · have hdone : (s.job j).done = true := by
      by_cases hne : j = job
      · subst hne
        simpa [turnTo] using hj
      · simpa [turnTo, hne] using hj
    obtain ⟨r, hr⟩ := h.done j hdone
    exact ⟨r, List.mem_append_left _ hr⟩
  · have hj' : (s.workers.set thread (.finishing job))[t]? = some (.finishing j) := hj
    by_cases hne : t = thread
    · subst hne
      rw [get_set_self hthread] at hj'
      cases hj'
      exact ⟨report, List.mem_append_right _ (List.mem_singleton_self _)⟩
    · rw [get_set_ne hne] at hj'
      obtain ⟨r, hr⟩ := h.finishing t j hj'
      exact ⟨r, List.mem_append_left _ hr⟩

theorem JobsSound.turn (h : JobsSound s) {place next : WorkerAt}
    (hthread : s.workers[thread]? = some place) (hplace : currentJob place = [])
    (hnext : currentJob next = []) (hfinish : ∀ job, next ≠ .finishing job)
    (henqueued : s'.enqueued = s.enqueued) (hran : s'.ran = s.ran) (hqueue : s'.queue = s.queue)
    (hcalls : s'.calls = s.calls) (hworkers : s'.workers = s.workers.set thread next)
    (hreports : ∀ job, (s'.job job).report = (s.job job).report ∧
      (s'.job job).result = (s.job job).result)
    (hdone : ∀ job, (s'.job job).done = true →
      (s.job job).done = true ∨ place = .finishing job) : JobsSound s' := by
  have hrunning : running s' = running s := by
    obtain ⟨pre, post, hsplit, hset⟩ := exists_split hthread
    rw [running, hworkers, hset, running, hsplit]
    simp [hplace, hnext]
  refine ⟨?_, ?_, ?_, fun j r hjr => ?_, fun j hj => ?_, fun t j hj => ?_, ?_⟩
  · rw [henqueued, hran, hrunning, hqueue]
    exact h.order
  · rw [henqueued]
    exact h.nodup
  · rw [henqueued, hcalls]
    exact h.queued
  · rw [hran] at hjr
    rw [(hreports j).1, (hreports j).2]
    exact h.reports j r hjr
  · rw [hran]
    rcases hdone j hj with hj | rfl
    · exact h.done j hj
    · exact h.finishing thread j hthread
  · rw [hworkers] at hj
    rw [hran]
    by_cases hne : t = thread
    · subst hne
      rw [get_set_self hthread] at hj
      exact absurd (Option.some.inj hj) (hfinish j)
    · rw [get_set_ne hne] at hj
      exact h.finishing t j hj
  · rw [henqueued, hcalls, hran]
    exact h.own

theorem JobsSound.work (h : JobsSound s) (hone : OneWorker s) {report : Option ρ}
    {place : WorkerAt} (hthread : s.workers[thread]? = some place)
    (hstep : s.work thread report place = some s') : JobsSound s' := by
  cases place with
  | created =>
      cases hstep
      exact h.turn hthread rfl rfl (by simp) rfl rfl rfl rfl rfl (fun _ => ⟨rfl, rfl⟩)
        fun _ hdone => Or.inl hdone
  | looking =>
      simp only [KernelExecutor.work] at hstep
      split at hstep
      · cases hstep
        split
        · exact h.turn hthread rfl rfl (by simp) rfl rfl rfl rfl rfl (fun _ => ⟨rfl, rfl⟩)
            fun _ hdone => Or.inl hdone
        · exact h
      · next hqueue =>
          cases hstep
          exact h.pop hone hthread hqueue
  | running job =>
      cases hstep
      exact h.run hone hthread report
  | finishing job =>
      cases hstep
      refine h.turn hthread rfl rfl (by simp) rfl rfl rfl rfl rfl (fun j => ?_) fun j hdone => ?_
      · by_cases hne : j = job
        · subst hne
          simp [turnTo]
        · simp [turnTo, hne]
      · by_cases hne : j = job
        · exact Or.inr (by rw [hne])
        · exact Or.inl (by simpa [turnTo, hne] using hdone)
  | exited => cases hstep

/-! ## The steps of a call -/

/-- A call of `bs_kernel_start` or `bs_kernel_stop` passes its test of the state
only while no other such call is between its test and its return. -/
def KeepsTurn (s : KernelExecutor ρ) : ExecEvent ρ → Prop
  | .advance call _ =>
      (s.calls[call]? = some .start ∧ s.state = .stopped ∨
        s.calls[call]? = some .stop ∧ s.state = .running) →
      ∀ (i : Nat) p, s.calls[i]? = some p → inControl p = false
  | _ => True

theorem PhaseSound.goTo (h : PhaseSound s) (hcall : s.calls[call]? = some old)
    (hold : inControl old = false) (hnew : inControl new = false) (hdrift : Drift s s')
    (hcalls : s'.calls = s.calls.set call new) : PhaseSound s' := by
  refine h.drift hdrift fun i p hin => ?_
  rw [hcalls]
  by_cases hne : i = call
  · subst hne
    rw [get_set_self hcall, hcall]
    refine iff_of_false (fun heq => ?_) fun heq => ?_
    · rw [Option.some.inj heq, hin] at hnew
      cases hnew
    · rw [Option.some.inj heq, hin] at hold
      cases hold
  · rw [get_set_ne hne]

theorem JobsSound.goTo (h : JobsSound s) (hcall : s.calls[call]? = some old)
    (hwaiting : old ≠ .waiting) (hreturned : ∀ r, old ≠ .returned r)
    (hcalls : s'.calls = s.calls.set call new) (henqueued : s'.enqueued = s.enqueued)
    (hran : s'.ran = s.ran) (hqueue : s'.queue = s.queue) (hjob : s'.job = s.job)
    (hworkers : s'.workers = s.workers) : JobsSound s' := by
  refine h.move hcall hcalls henqueued hran hqueue hjob ?_ ?_ ?_
  · rw [running, hworkers, running]
  · intro t j hj
    rw [hworkers] at hj
    exact hj
  · exact fun hmem => absurd hmem (h.not_mem hcall hwaiting hreturned)

structure ExecutorSound (s : KernelExecutor ρ) : Prop where
  phase : PhaseSound s
  jobs : JobsSound s

theorem PhaseSound.others (h : PhaseSound s) (hcall : s.calls[call]? = some old)
    (hold : inControl old = true) (i : Nat) (p : ExecCallAt ρ) (hne : i ≠ call)
    (hp : s.calls[i]? = some p) : inControl p = false :=
  Bool.eq_false_iff.mpr fun hin => hne (h.exclusive i call p old hp hcall hin hold)

theorem ExecutorSound.control (h : ExecutorSound s) (hcall : s.calls[call]? = some old)
    (hold : inControl old = true) (hcalls : s'.calls = s.calls.set call new)
    (hnew : inControl new = true → Holding s' new) (hrest : inControl new = false → Resting s')
    (henqueued : s'.enqueued = s.enqueued) (hran : s'.ran = s.ran) (hqueue : s'.queue = s.queue)
    (hjob : s'.job = s.job) (hworkers : s'.workers = s.workers) : ExecutorSound s' := by
  refine ⟨PhaseSound.control hcall (h.phase.others hcall hold) hcalls hnew hrest,
    h.jobs.goTo hcall ?_ ?_ hcalls henqueued hran hqueue hjob hworkers⟩
  · rintro rfl
    cases hold
  · rintro r rfl
    cases hold

theorem ExecutorSound.create (h : ExecutorSound s) (hcall : s.calls[call]? = some .startCreate) :
    ExecutorSound ({ s with
      workers := s.workers ++ [WorkerAt.created]
      execThread := s.workers.length }.goTo call .startMark) := by
  obtain ⟨hoff, hstop⟩ := h.phase.holding call _ hcall rfl
  have hone : OneWorker ({ s with
      workers := s.workers ++ [WorkerAt.created]
      execThread := s.workers.length }.goTo call .startMark) := by
    intro t
    show (∃ p, (s.workers ++ [WorkerAt.created])[t]? = some p ∧ p ≠ .exited) ↔ t = s.workers.length
    constructor
    · rintro ⟨p, hp, hexit⟩
      rw [List.getElem?_append] at hp
      split at hp
      · exact absurd (live_of_get hp hexit) (hoff.2.1 t)
      · next hlt =>
          have hzero := (List.getElem?_eq_some_iff.mp hp).1
          rw [List.length_singleton] at hzero
          omega
    · rintro rfl
      exact ⟨.created, List.getElem?_concat_length, by simp⟩
  refine ⟨PhaseSound.control hcall (h.phase.others hcall rfl) rfl (fun _ => ⟨hstop, hone⟩) nofun,
    h.jobs.move hcall rfl rfl rfl rfl rfl ?_ ?_ ?_⟩
  · show (s.workers ++ [WorkerAt.created]).flatMap currentJob = running s
    rw [List.flatMap_append, running]
    simp [currentJob]
  · intro t j hj
    have hj' : (s.workers ++ [WorkerAt.created])[t]? = some (.finishing j) := hj
    rw [List.getElem?_append] at hj'
    split at hj'
    · exact hj'
    · have hmem := List.mem_singleton.mp (List.mem_of_getElem? hj')
      cases hmem
  · exact fun hmem => absurd hmem (h.jobs.not_mem hcall (by simp) (by simp))

theorem ExecutorSound.enqueue (h : ExecutorSound s) (hcall : s.calls[call]? = some .acquired) :
    ExecutorSound (s.enqueue call) := by
  unfold KernelExecutor.enqueue
  split
  · exact ⟨h.phase.goTo hcall rfl rfl (.of_same rfl rfl rfl rfl rfl rfl) rfl,
      h.jobs.goTo hcall (by simp) (by simp) rfl rfl rfl rfl rfl rfl⟩
  · next hopen =>
      simp only [Bool.or_eq_true, Bool.not_eq_true', not_or, Bool.not_eq_true,
        Bool.not_eq_false] at hopen
      refine ⟨h.phase.goTo hcall rfl rfl ?_ rfl, h.jobs.enqueued hcall⟩
      refine ⟨rfl, rfl, rfl, fun hone => Or.inl hone, fun _ hclosed => ?_⟩
      rw [hopen.1, hopen.2] at hclosed
      rcases hclosed with hclosed | hclosed <;> cases hclosed

theorem ExecutorSound.collect (h : ExecutorSound s) (hcall : s.calls[call]? = some .waiting)
    (hdone : (s.job call).done = true) :
    ExecutorSound (s.goTo call
      (.returned (if (s.job call).result = 0 then (s.job call).report else none))) := by
  obtain ⟨r, hr⟩ := h.jobs.done call hdone
  obtain ⟨hreport, hresult⟩ := h.jobs.reports call r hr
  have hown : (if (s.job call).result = 0 then (s.job call).report else none) = r := by
    rw [hreport, hresult]
    cases r <;> rfl
  refine ⟨h.phase.goTo hcall rfl rfl (.of_same rfl rfl rfl rfl rfl rfl) rfl,
    h.jobs.move hcall rfl rfl rfl rfl rfl rfl (fun _ _ hj => hj) fun _ => ⟨r, ?_, hr⟩⟩
  rw [hown]

theorem ExecutorSound.test (h : ExecutorSound s) (hcall : s.calls[call]? = some old)
    (hold : inControl old = false) (hwaiting : old ≠ .waiting) (hreturned : ∀ r, old ≠ .returned r)
    (hpass : inControl new = true →
      (∀ (i : Nat) p, s.calls[i]? = some p → inControl p = false) ∧ Holding s new) :
    ExecutorSound (s.goTo call new) := by
  have hdrift : Drift s (s.goTo call new) := .of_same rfl rfl rfl rfl rfl rfl
  refine ⟨?_, h.jobs.goTo hcall hwaiting hreturned rfl rfl rfl rfl rfl rfl⟩
  cases hnew : inControl new with
  | false => exact h.phase.goTo hcall hold hnew hdrift rfl
  | true =>
      obtain ⟨hnone, hhold⟩ := hpass hnew
      refine PhaseSound.control hcall (fun i p _ hp => hnone i p hp) rfl
        (fun _ => hdrift.holding hhold) fun hout => ?_
      rw [hnew] at hout
      cases hout

theorem ExecutorSound.advance (h : ExecutorSound s) {place : ExecCallAt ρ} {created : Bool}
    (hcall : s.calls[call]? = some place) (hkeeps : KeepsTurn s (.advance call created))
    (hstep : s.advance call created place = some s') : ExecutorSound s' := by
  have hhold := h.phase.holding call place hcall
  cases place with
  | execute =>
      cases hstep
      refine h.test hcall rfl (by simp) (by simp) fun hin => ?_
      split at hin <;> cases hin
  | acquired =>
      cases hstep
      exact h.enqueue hcall
  | waiting =>
      simp only [KernelExecutor.advance] at hstep
      split at hstep
      · next hdone =>
          cases hstep
          exact h.collect hcall hdone
      · cases hstep
        exact h
  | returned r => cases hstep
  | start =>
      cases hstep
      refine h.test hcall rfl (by simp) (by simp) fun hin => ?_
      split at hin
      · next hstopped =>
          have hnone := hkeeps (Or.inl ⟨hcall, hstopped⟩)
          rw [if_pos hstopped]
          exact ⟨hnone, (h.phase.resting hnone).2 (by rw [hstopped]; simp)⟩
      · cases hin
  | startSet =>
      cases hstep
      exact h.control hcall rfl rfl (fun _ => hhold rfl) nofun rfl rfl rfl rfl rfl
  | startGuard =>
      cases hstep
      rw [if_neg (by rw [(hhold rfl).1]; simp)]
      exact h.control hcall rfl rfl (fun _ => hhold rfl) nofun rfl rfl rfl rfl rfl
  | startReset =>
      cases hstep
      exact h.control hcall rfl rfl (fun _ => ⟨⟨rfl, (hhold rfl).2⟩, rfl⟩) nofun rfl rfl rfl rfl rfl
  | startCreate =>
      simp only [KernelExecutor.advance] at hstep
      split at hstep
      · cases hstep
        exact h.create hcall
      · cases hstep
        exact h.control hcall rfl rfl nofun (fun _ => ⟨nofun, fun _ => (hhold rfl).1⟩)
          rfl rfl rfl rfl rfl
  | startMark =>
      cases hstep
      refine h.control hcall rfl rfl (fun _ => ?_) (fun hout => ?_) rfl rfl rfl rfl rfl
      · have hon : On { s with execThreadStarted := true } := ⟨rfl, (hhold rfl).1, (hhold rfl).2⟩
        split <;> exact hon
      · split at hout <;> cases hout
  | startWait =>
      cases hstep
      split
      · exact h.control hcall rfl rfl (fun _ => hhold rfl) nofun rfl rfl rfl rfl rfl
      · exact h
  | startDone =>
      cases hstep
      exact h.control hcall rfl rfl nofun (fun _ => ⟨fun _ => hhold rfl, fun hne => absurd rfl hne⟩)
        rfl rfl rfl rfl rfl
  | stop =>
      cases hstep
      refine h.test hcall rfl (by simp) (by simp) fun hin => ?_
      split at hin
      · next hrunning =>
          have hnone := hkeeps (Or.inr ⟨hcall, hrunning⟩)
          rw [if_pos hrunning]
          exact ⟨hnone, (h.phase.resting hnone).1 hrunning⟩
      · cases hin
  | stopSet =>
      cases hstep
      exact h.control hcall rfl rfl (fun _ => hhold rfl) nofun rfl rfl rfl rfl rfl
  | stopGuard =>
      cases hstep
      rw [if_pos (hhold rfl).1]
      exact h.control hcall rfl rfl (fun _ => hhold rfl) nofun rfl rfl rfl rfl rfl
  | stopRequest =>
      cases hstep
      exact h.control hcall rfl rfl (fun _ => ⟨rfl, Or.inl (hhold rfl).2.2⟩) nofun
        rfl rfl rfl rfl rfl
  | stopJoin =>
      simp only [KernelExecutor.advance] at hstep
      split at hstep
      · next hexited =>
          cases hstep
          obtain ⟨hstop, hone | hnone⟩ := hhold rfl
          · -- the thread of the kernel is live, and has not exited
            obtain ⟨p, hp, hlive⟩ := (hone s.execThread).mpr rfl
            exact absurd (Option.some.inj (hp.symm.trans hexited)) hlive
          · exact h.control hcall rfl rfl (fun _ => ⟨hstop, hnone⟩) nofun rfl rfl rfl rfl rfl
      · cases hstep
  | stopClear =>
      cases hstep
      exact h.control hcall rfl rfl (fun _ => ⟨rfl, (hhold rfl).2⟩) nofun rfl rfl rfl rfl rfl
  | stopDone =>
      cases hstep
      exact h.control hcall rfl rfl nofun (fun _ => ⟨nofun, fun _ => hhold rfl⟩)
        rfl rfl rfl rfl rfl
  | finished rc => cases hstep

theorem ExecutorSound.work (h : ExecutorSound s) {place : WorkerAt} {report : Option ρ}
    (hthread : s.workers[thread]? = some place)
    (hstep : s.work thread report place = some s') : ExecutorSound s' := by
  have hcalls : s'.calls = s.calls := by
    cases place with
    | looking =>
        simp only [KernelExecutor.work] at hstep
        split at hstep
        · cases hstep
          split <;> rfl
        · cases hstep
          rfl
    | created | running _ | finishing _ =>
        cases hstep
        rfl
    | exited => cases hstep
  have hlive : Live s thread := by
    refine live_of_get hthread ?_
    rintro rfl
    cases hstep
  have hone : OneWorker s := h.phase.workers.resolve_right fun hnone => hnone.1 thread hlive
  exact ⟨h.phase.drift (.work hthread hstep) fun i p _ => by rw [hcalls],
    h.jobs.work hone hthread hstep⟩

/-- **One step.** -/
theorem ExecutorSound.step (h : ExecutorSound s) {e : ExecEvent ρ} (hkeeps : KeepsTurn s e)
    (hstep : s.step e = some s') : ExecutorSound s' := by
  cases e with
  | callExecute | callStart | callStop =>
      cases hstep
      refine ⟨h.phase.drift (.of_same rfl rfl rfl rfl rfl rfl) fun i p hin => ?_,
        h.jobs.begin (by simp)⟩
      simp only [KernelExecutor.begin]
      rw [List.getElem?_append]
      split
      · rfl
      · next hlt =>
          refine iff_of_false (fun heq => ?_) fun heq => hlt (List.getElem?_eq_some_iff.mp heq).1
          rw [List.mem_singleton.mp (List.mem_of_getElem? heq)] at hin
          cases hin
  | advance call created =>
      obtain ⟨place, hcall, hadvance⟩ := Option.bind_eq_some_iff.mp hstep
      exact h.advance hcall hkeeps hadvance
  | direct call report =>
      simp only [KernelExecutor.step] at hstep
      split at hstep
      · next hcall =>
          cases hstep
          exact h.test hcall rfl (by simp) (by simp) nofun
      · cases hstep
  | work thread report =>
      obtain ⟨place, hthread, hwork⟩ := Option.bind_eq_some_iff.mp hstep
      exact h.work hthread hwork

/-! ## The end of the queue -/

def Drains (s : KernelExecutor ρ) : Prop :=
  ∃ s', (kernelExecutor ρ).Leads s s' ∧ s'.ran.map Prod.fst = s.enqueued

theorem leads_work {place : WorkerAt} (hthread : s.workers[thread]? = some place)
    (hstep : s.work thread none place = some s') : (kernelExecutor ρ).Leads s s' := by
  have hwork : (kernelExecutor ρ).step s (.work thread none) = some s' :=
    Option.bind_eq_some_iff.mpr ⟨place, hthread, hstep⟩
  exact .head _ hwork (.refl s')

theorem ExecutorSound.drains_of_work (h : ExecutorSound s) {place : WorkerAt}
    (hthread : s.workers[thread]? = some place) (hstep : s.work thread none place = some s')
    (henqueued : s'.enqueued = s.enqueued) (hdrains : ExecutorSound s' → Drains s') : Drains s := by
  obtain ⟨t, hleads, hran⟩ := hdrains (h.work hthread hstep)
  exact ⟨t, (leads_work hthread hstep).trans hleads, hran.trans henqueued⟩

theorem ExecutorSound.drains_looking (h : ExecutorSound s)
    (hthread : s.workers[thread]? = some .looking) : Drains s := by
  obtain ⟨queue, hqueue⟩ : ∃ queue, s.queue = queue := ⟨_, rfl⟩
  induction queue generalizing s with
  | nil =>
      have hone : OneWorker s := h.phase.workers.resolve_right fun hnone =>
        hnone.1 thread (live_of_get hthread (by simp))
      have hrunning : running s = [] := running_of_oneWorker hone hthread (by simp)
      refine ⟨s, .refl s, ?_⟩
      rw [h.jobs.order, hrunning, hqueue, List.append_nil, List.append_nil]
  | cons job queue ih =>
      have hpop : s.work thread none .looking =
          some ({ s with queue := queue }.turnTo thread (.running job)) := by
        rw [KernelExecutor.work, hqueue]
      refine h.drains_of_work hthread hpop rfl fun h₁ => ?_
      refine h₁.drains_of_work (get_set_self hthread _) rfl rfl fun h₂ => ?_
      refine h₂.drains_of_work (get_set_self (get_set_self hthread _) _) rfl rfl fun h₃ => ?_
      exact ih h₃ (get_set_self (get_set_self (get_set_self hthread _) _) _) rfl

theorem ExecutorSound.drains (h : ExecutorSound s) : Drains s := by
  rcases h.phase.workers with hone | hnone
  · obtain ⟨place, hthread, hlive⟩ := (hone s.execThread).mpr rfl
    cases place with
    | created =>
        exact h.drains_of_work hthread rfl rfl fun h₁ =>
          h₁.drains_looking (get_set_self hthread _)
    | looking => exact h.drains_looking hthread
    | running job =>
        refine h.drains_of_work hthread rfl rfl fun h₁ => ?_
        exact h₁.drains_of_work (get_set_self hthread _) rfl rfl fun h₂ =>
          h₂.drains_looking (get_set_self (get_set_self hthread _) _)
    | finishing job =>
        exact h.drains_of_work hthread rfl rfl fun h₁ =>
          h₁.drains_looking (get_set_self hthread _)
    | exited => exact absurd rfl hlive
  · refine ⟨s, .refl s, ?_⟩
    rw [h.jobs.order, running_of_noWorker hnone, hnone.2, List.append_nil, List.append_nil]

/-! ## Runs -/

/-- No accepted job is lost: the jobs run in the order they were enqueued, each
of them once; a call returns the report of its own job; while a job is queued or
running there is one worker that has not exited; and the workers can always run
what has been enqueued. -/
structure LosesNoJob (s : KernelExecutor ρ) : Prop where
  order : s.enqueued = s.ran.map Prod.fst ++ running s ++ s.queue
  once : s.enqueued.Nodup
  ownResult : ∀ (call : Nat) r, s.calls[call]? = some (.returned r) → call ∈ s.enqueued →
    (call, r) ∈ s.ran
  oneWorker : ∀ t t', Live s t → Live s t' → t = t'
  worker : running s ++ s.queue ≠ [] → ∃ thread, Live s thread
  drains : Drains s

theorem ExecutorSound.losesNoJob (h : ExecutorSound s) : LosesNoJob s := by
  refine ⟨h.jobs.order, h.jobs.nodup, h.jobs.own, fun t t' ht ht' => ?_, fun hjobs => ?_, h.drains⟩
  · rcases h.phase.workers with hone | hnone
    · exact ((hone t).mp ht).trans ((hone t').mp ht').symm
    · exact absurd ht (hnone.1 t)
  · rcases h.phase.workers with hone | hnone
    · exact ⟨s.execThread, (hone _).mpr rfl⟩
    · rw [running_of_noWorker hnone, hnone.2] at hjobs
      exact absurd rfl hjobs

theorem PhaseSound.worker_of_open (h : PhaseSound s) (hstarted : s.execThreadStarted = true)
    (hstop : s.execStopRequested = false) : Live s s.execThread := by
  have hoff : ¬Off s := fun hoff => by
    rw [hoff.1] at hstarted
    cases hstarted
  have hone : OneWorker s := by
    rcases h.cases with ⟨p, hin, hhold⟩ | hrest
    · cases p with
      | startSet | startGuard | startReset | stopDone => exact absurd hhold hoff
      | startCreate => exact absurd hhold.1 hoff
      | startMark => exact hhold.2
      | startWait | startDone | stopSet | stopGuard | stopRequest => exact hhold.2.2
      | stopJoin | stopClear =>
          have hstopped : s.execStopRequested = true := hhold.1
          rw [hstop] at hstopped
          cases hstopped
      | _ => cases hin
    · by_cases hrunning : s.state = .running
      · exact (hrest.1 hrunning).2.2
      · exact absurd (hrest.2 hrunning) hoff
  exact (hone _).mpr rfl

theorem advance_enqueued {place : ExecCallAt ρ} {created : Bool} (hplace : place ≠ .acquired)
    (hstep : s.advance call created place = some s') : s'.enqueued = s.enqueued := by
  cases place with
  | acquired => exact absurd rfl hplace
  | returned _ | finished _ => cases hstep
  | waiting | startCreate | stopJoin =>
      simp only [KernelExecutor.advance] at hstep
      split at hstep <;> cases hstep <;> rfl
  | startWait =>
      cases hstep
      split <;> rfl
  | _ =>
      cases hstep
      rfl

theorem work_enqueued {place : WorkerAt} {report : Option ρ}
    (hstep : s.work thread report place = some s') : s'.enqueued = s.enqueued := by
  cases place with
  | looking =>
      simp only [KernelExecutor.work] at hstep
      split at hstep
      · cases hstep
        split <;> rfl
      · cases hstep
        rfl
  | created | running _ | finishing _ =>
      cases hstep
      rfl
  | exited => cases hstep

theorem PhaseSound.accepts (h : PhaseSound s) {e : ExecEvent ρ} (hstep : s.step e = some s')
    (hnew : s'.enqueued ≠ s.enqueued) : ∃ thread, Live s thread := by
  cases e with
  | callExecute | callStart | callStop =>
      cases hstep
      exact absurd rfl hnew
  | advance call created =>
      obtain ⟨place, -, hadvance⟩ := Option.bind_eq_some_iff.mp hstep
      by_cases hplace : place = .acquired
      · subst hplace
        cases hadvance
        cases hstarted : s.execThreadStarted with
        | false => simp [KernelExecutor.enqueue, hstarted, KernelExecutor.goTo] at hnew
        | true =>
            cases hstop : s.execStopRequested with
            | false => exact ⟨_, h.worker_of_open hstarted hstop⟩
            | true => simp [KernelExecutor.enqueue, hstop, KernelExecutor.goTo] at hnew
      · exact absurd (advance_enqueued hplace hadvance) hnew
  | direct call report =>
      simp only [KernelExecutor.step] at hstep
      split at hstep
      · cases hstep
        exact absurd rfl hnew
      · cases hstep
  | work thread report =>
      obtain ⟨place, -, hwork⟩ := Option.bind_eq_some_iff.mp hstep
      exact absurd (work_enqueued hwork) hnew

/-- **The executor.**  In every run whose calls of `bs_kernel_start` and
`bs_kernel_stop` take turns no accepted job is lost, and none is accepted when
the worker has exited. -/
theorem executor_loses_no_job (h : (kernelExecutor ρ).ReachableMeeting KeepsTurn s) :
    LosesNoJob s ∧ ∀ e s', (kernelExecutor ρ).step s e = some s' → s'.enqueued ≠ s.enqueued →
      ∃ thread, Live s thread := by
  have hsound : ExecutorSound s := by
    apply h.invariant (I := ExecutorSound) ⟨phaseSound_init, jobsSound_init⟩
    intro s e s' hs hkeeps hstep
    exact hs.step hkeeps hstep
  exact ⟨hsound.losesNoJob, fun _ _ hstep hnew => hsound.phase.accepts hstep hnew⟩

/-- A kernel is started, and a call waits for its job, which has run. -/
def oneJobRun : List (ExecEvent Nat) :=
  [.callStart, .advance 0 true, .advance 0 true, .advance 0 true, .advance 0 true,
    .advance 0 true, .work 0 none, .advance 0 true, .advance 0 true,
    .callExecute, .advance 1 true, .advance 1 true, .work 0 none, .work 0 (some 7)]

theorem executor_loses_no_job_one_start :
    ∃ s, (kernelExecutor Nat).run {} oneJobRun = some s ∧ LosesNoJob s := by
  obtain ⟨s, hrun⟩ : ∃ s, (kernelExecutor Nat).run {} oneJobRun = some s := ⟨_, rfl⟩
  have hmeets : (kernelExecutor Nat).RunMeets KeepsTurn {} oneJobRun := by
    refine And.intro trivial (And.intro ?_ (And.intro ?_ (And.intro ?_ (And.intro ?_
      (And.intro ?_ (And.intro trivial (And.intro ?_ (And.intro ?_ (And.intro trivial
        (And.intro ?_ (And.intro ?_ (And.intro trivial (And.intro trivial trivial)))))))))))))
    · rintro - i p hp
      have hp' : [ExecCallAt.start][i]? = some p := hp
      rw [List.mem_singleton.mp (List.mem_of_getElem? hp')]
      rfl
    all_goals rintro (⟨h, -⟩ | ⟨h, -⟩) <;> cases h
  exact ⟨s, hrun,
    (executor_loses_no_job (Machine.ReachableMeeting.run (.init _ _) hmeets hrun)).1⟩

/-- Two calls of `bs_kernel_start` both find the kernel stopped, and the workers
they create take a job each. -/
def twoStarts : List (ExecEvent Nat) :=
  [.callStart, .callStart, .advance 0 true, .advance 1 true, .advance 0 true, .advance 1 true,
    .advance 0 true, .advance 1 true, .advance 0 true, .advance 1 true,
    .advance 0 true, .advance 1 true, .work 0 none, .work 1 none, .advance 0 true, .advance 1 true,
    .advance 0 true, .advance 1 true,
    .callExecute, .callExecute, .advance 2 true, .advance 3 true, .advance 2 true, .advance 3 true,
    .work 0 none, .work 1 none]

/-- The second job runs before the first one. -/
theorem two_starts_break_order :
    ∃ s, (kernelExecutor Nat).Reachable s ∧ s.enqueued = [2, 3] ∧ s.ran.map Prod.fst = [3] ∧
      ¬LosesNoJob s := by
  refine ⟨_, Machine.reachable_of_run (twoStarts ++ [.work 1 (some 7)]) rfl, rfl, rfl, fun h => ?_⟩
  have horder : [2, 3] = [3] ++ [2] ++ [] := h.order
  exact absurd horder (by decide)

end BlessStar.Runtime.Proofs.ExecutorJobs
