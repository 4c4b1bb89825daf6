import BlessStar.Session.NotifyQueue
import Mathlib.Data.List.Count

/-!
# Flushes of the notification queue

Jobs leave the queue one at a time under its mutex, so each is dispatched once
under every interleaving.  The drain mode and the count of jobs in flight keep
one flush and the worker apart; two flushes at a time have nothing to keep them
apart.
-/

namespace BlessStar.Session.Proofs.NotifyFlush

open Lib.Transition Session

variable {s s' : AttachNotifyQueue} {f : Nat} {flush : NotifyFlush}

/-! ## What a step can do -/

theorem workerPop_cases (h : s.step .workerPop = some s') :
    ∃ job jobs, s.worker = .waiting ∧ s.jobs = job :: jobs ∧ s.drainMode = false ∧
      s' = { s with jobs := jobs, worker := .popped job, inFlight := s.inFlight + 1 } := by
  simp only [AttachNotifyQueue.step] at h
  split at h
  · rename_i job jobs hworker hjobs
    split at h
    · cases h
    · rename_i hdrain
      exact ⟨job, jobs, hworker, hjobs, by simpa using hdrain, (Option.some.inj h).symm⟩
  · cases h

theorem workerStart_cases (h : s.step .workerStart = some s') :
    ∃ job, s.worker = .popped job ∧
      s' = { s with worker := .dispatching job }.mark (.started job) := by
  simp only [AttachNotifyQueue.step] at h
  split at h
  · rename_i job hworker
    exact ⟨job, hworker, (Option.some.inj h).symm⟩
  · cases h

theorem workerFinish_cases (h : s.step .workerFinish = some s') :
    ∃ job, s.worker = .dispatching job ∧
      s' = { s with worker := .dispatched }.mark (.finished job) := by
  simp only [AttachNotifyQueue.step] at h
  split at h
  · rename_i job hworker
    exact ⟨job, hworker, (Option.some.inj h).symm⟩
  · cases h

theorem workerLand_cases (h : s.step .workerLand = some s') :
    s.worker = .dispatched ∧ s' = { s with worker := .waiting, inFlight := s.inFlight - 1 } := by
  simp only [AttachNotifyQueue.step] at h
  split at h
  · rename_i hworker
    exact ⟨hworker, (Option.some.inj h).symm⟩
  · cases h

theorem flushTest_cases (h : s.step (.flushTest f) = some s') :
    s' = s ∨ ∃ flush, s.flushes[f]? = some flush ∧ s' = s.takeOrLeave f flush ∧
      (flush.place = .waiting ∧ s.inFlight = 0 ∨ flush.place = .dispatched) := by
  simp only [AttachNotifyQueue.step] at h
  split at h
  · rename_i flush hf
    split at h
    · rename_i hplace
      split at h
      · exact Or.inl (Option.some.inj h).symm
      · rename_i hflight
        exact Or.inr ⟨flush, hf, (Option.some.inj h).symm,
          Or.inl ⟨hplace, Nat.eq_zero_of_not_pos hflight⟩⟩
    · rename_i hplace
      exact Or.inr ⟨flush, hf, (Option.some.inj h).symm, Or.inr hplace⟩
    · cases h
  · cases h

theorem flushStart_cases (h : s.step (.flushStart f) = some s') :
    ∃ flush job, s.flushes[f]? = some flush ∧ flush.place = .popped job ∧
      s' = (s.move f flush (.dispatching job)).mark (.started job) := by
  simp only [AttachNotifyQueue.step] at h
  split at h
  · rename_i flush hf
    split at h
    · rename_i job hplace
      exact ⟨flush, job, hf, hplace, (Option.some.inj h).symm⟩
    · cases h
  · cases h

theorem flushFinish_cases (h : s.step (.flushFinish f) = some s') :
    ∃ flush job, s.flushes[f]? = some flush ∧ flush.place = .dispatching job ∧
      s' = (s.move f flush .dispatched).mark (.finished job) := by
  simp only [AttachNotifyQueue.step] at h
  split at h
  · rename_i flush hf
    split at h
    · rename_i job hplace
      exact ⟨flush, job, hf, hplace, (Option.some.inj h).symm⟩
    · cases h
  · cases h

theorem flushReturn_cases (h : s.step (.flushReturn f) = some s') :
    ∃ flush, s.flushes[f]? = some flush ∧ flush.place = .leaving ∧
      s' = ({ s with drainMode := false }.move f flush .returned).mark
        (.flushed flush.before) := by
  simp only [AttachNotifyQueue.step] at h
  split at h
  · rename_i flush hf
    split at h
    · rename_i hplace
      exact ⟨flush, hf, hplace, (Option.some.inj h).symm⟩
    · cases h
  · cases h

/-! ## Every job once -/

def workerRuns : NotifyWorkerAt → List WatchNotifyJob
  | .dispatching job => [job]
  | _ => []

def flushRuns : FlushAt → List WatchNotifyJob
  | .dispatching job => [job]
  | _ => []

def running (s : AttachNotifyQueue) : List WatchNotifyJob :=
  workerRuns s.worker ++ s.flushes.flatMap fun f => flushRuns f.place

theorem count_flatMap_set {α β : Type} [BEq β] (g : α → List β) {l : List α} {i : Nat} {x y : α}
    (h : l[i]? = some y) (b : β) :
    ((l.set i x).flatMap g).count b + (g y).count b = (l.flatMap g).count b + (g x).count b := by
  induction l generalizing i with
  | nil => cases h
  | cons a l ih =>
      cases i with
      | zero =>
          cases h
          simp only [List.set_cons_zero, List.flatMap_cons, List.count_append]
          omega
      | succ i =>
          have hrest := ih h
          simp only [List.set_cons_succ, List.flatMap_cons, List.count_append]
          omega

theorem waiting_move (hf : s.flushes[f]? = some flush) (place : FlushAt) (job : WatchNotifyJob) :
    (s.move f flush place).waiting.count job + flush.place.holds.count job =
      s.waiting.count job + place.holds.count job := by
  have hset := count_flatMap_set (fun f : NotifyFlush => f.place.holds) hf
    (x := flush.goTo place) job
  simp only [AttachNotifyQueue.waiting, AttachNotifyQueue.move, List.count_append]
  simp only [NotifyFlush.goTo] at hset ⊢
  omega

theorem running_move (hf : s.flushes[f]? = some flush) (place : FlushAt) (job : WatchNotifyJob) :
    (running (s.move f flush place)).count job + (flushRuns flush.place).count job =
      (running s).count job + (flushRuns place).count job := by
  have hset := count_flatMap_set (fun f : NotifyFlush => flushRuns f.place) hf
    (x := flush.goTo place) job
  simp only [running, AttachNotifyQueue.move, List.count_append]
  simp only [NotifyFlush.goTo] at hset ⊢
  omega

structure Conserved (s : AttachNotifyQueue) : Prop where
  numbered : ∀ job, .enqueued job ∈ s.log → job.id < s.enqueued
  once : ∀ job, s.log.count (.enqueued job) ≤ 1
  begun : ∀ job, s.log.count (.enqueued job) = s.log.count (.started job) + s.waiting.count job
  ended : ∀ job, s.log.count (.started job) = s.log.count (.finished job) + (running s).count job

theorem conserved_init : Conserved notifyQueue.init where
  numbered _ h := absurd h List.not_mem_nil
  once _ := Nat.zero_le _
  begun _ := rfl
  ended _ := rfl

theorem Conserved.of_counts (h : Conserved s) (log : List NotifyMark)
    (hlog : s'.log = s.log ++ log) (henqueued : s'.enqueued = s.enqueued) (hnone : ∀ job, .enqueued job ∉ log)
    (hbegun : ∀ job, log.count (.started job) + s'.waiting.count job = s.waiting.count job)
    (hended : ∀ job, log.count (.finished job) + (running s').count job =
      log.count (.started job) + (running s).count job) : Conserved s' := by
  have hcount : ∀ job, s'.log.count (.enqueued job) = s.log.count (.enqueued job) := by
    intro job
    rw [hlog, List.count_append, List.count_eq_zero_of_not_mem (hnone job), Nat.add_zero]
  refine ⟨fun job hjob => ?_, fun job => ?_, fun job => ?_, fun job => ?_⟩
  · rw [hlog, List.mem_append] at hjob
    rw [henqueued]
    exact h.numbered job (hjob.resolve_right (hnone job))
  · rw [hcount]
    exact h.once job
  · have hbefore := h.begun job
    have hdelta := hbegun job
    rw [hcount, hlog, List.count_append]
    omega
  · have hbefore := h.ended job
    have hdelta := hended job
    rw [hlog, List.count_append, List.count_append]
    omega

theorem conserved_enqueue (h : Conserved s) (path : List UInt8) (type : State.ConfigEventType)
    (snapshot : List UInt8) (hstep : s.step (.enqueueWatch path type snapshot) = some s') :
    Conserved s' := by
  cases hstep
  refine ⟨fun job hjob => ?_, fun job => ?_, fun job => ?_, fun job => ?_⟩
  · rcases List.mem_append.mp hjob with hjob | hjob
    · exact Nat.lt_succ_of_lt (h.numbered job hjob)
    · obtain rfl := NotifyMark.enqueued.inj (List.mem_singleton.mp hjob)
      exact Nat.lt_succ_self _
  · have hbefore := h.once job
    simp only [AttachNotifyQueue.mark, List.count_append, List.count_singleton]
    split
    · rename_i hnew
      -- the number of the new job is not in the log
      have hjob : job.id = s.enqueued := by
        rw [← NotifyMark.enqueued.inj (beq_iff_eq.mp hnew)]
      have hnone : s.log.count (.enqueued job) = 0 := by
        apply List.count_eq_zero_of_not_mem
        intro hmem
        exact absurd (h.numbered job hmem) (by omega)
      omega
    · omega
  · have hbefore := h.begun job
    simp only [AttachNotifyQueue.mark, AttachNotifyQueue.waiting, List.count_append,
      List.count_singleton] at hbefore ⊢
    simp only [beq_iff_eq, NotifyMark.enqueued.injEq, reduceCtorEq, if_false]
    omega
  · have hbefore := h.ended job
    simp only [AttachNotifyQueue.mark, running, List.count_append, List.count_singleton] at hbefore ⊢
    simp only [beq_iff_eq, reduceCtorEq, if_false]
    omega

theorem conserved_move (h : Conserved s) (hf : s.flushes[f]? = some flush) (place : FlushAt)
    (log : List NotifyMark) (hlog : s'.log = s.log ++ log) (hnone : ∀ job, .enqueued job ∉ log)
    (hs : s'.enqueued = s.enqueued ∧ s'.worker = s.worker ∧
      s'.flushes = (s.move f flush place).flushes)
    (hbegun : ∀ job, log.count (.started job) + s'.jobs.count job + place.holds.count job =
      s.jobs.count job + flush.place.holds.count job)
    (hended : ∀ job, log.count (.finished job) + (flushRuns place).count job =
      log.count (.started job) + (flushRuns flush.place).count job) : Conserved s' := by
  apply h.of_counts log hlog hs.1 hnone
  · intro job
    have hmove := waiting_move hf place job
    have hdelta := hbegun job
    simp only [AttachNotifyQueue.waiting, List.count_append, hs.2.1, hs.2.2] at hmove ⊢
    simp only [AttachNotifyQueue.move] at hmove ⊢
    omega
  · intro job
    have hmove := running_move hf place job
    have hdelta := hended job
    simp only [running, List.count_append, hs.2.1, hs.2.2] at hmove ⊢
    simp only [AttachNotifyQueue.move] at hmove ⊢
    omega

theorem conserved_takeOrLeave (h : Conserved s) (hf : s.flushes[f]? = some flush)
    (hholds : flush.place.holds = []) (hruns : flushRuns flush.place = []) :
    Conserved (s.takeOrLeave f flush) := by
  unfold AttachNotifyQueue.takeOrLeave
  split
  · apply conserved_move h hf .leaving [] (by simp [AttachNotifyQueue.move]) (by simp)
      (by exact ⟨rfl, rfl, rfl⟩)
    · intro job
      rw [hholds]
      simp [AttachNotifyQueue.move, FlushAt.holds]
    · intro job
      rw [hruns]
      simp [flushRuns]
  · rename_i job jobs hjobs
    apply conserved_move h hf (.popped job) [] (by simp [AttachNotifyQueue.move]) (by simp)
      (by exact ⟨rfl, rfl, rfl⟩)
    · intro job'
      rw [hholds]
      simp [AttachNotifyQueue.move, FlushAt.holds, hjobs, List.count_cons]
    · intro job
      rw [hruns]
      simp [flushRuns]

theorem conserved_step {e : NotifyEvent} (h : Conserved s) (hstep : s.step e = some s') :
    Conserved s' := by
  cases e with
  | enqueueWatch path type snapshot => exact conserved_enqueue h path type snapshot hstep
  | workerPop =>
      obtain ⟨job, jobs, hworker, hjobs, -, rfl⟩ := workerPop_cases hstep
      apply h.of_counts [] (by simp) (by rfl) (by simp)
      · intro job'
        simp only [AttachNotifyQueue.waiting, hworker, hjobs, NotifyWorkerAt.holds,
          List.count_append, List.count_cons, List.count_nil]
        omega
      · intro job'
        simp [running, hworker, workerRuns]
  | workerStart =>
      obtain ⟨job, hworker, rfl⟩ := workerStart_cases hstep
      apply h.of_counts [.started job] (by rfl) (by rfl) (by simp)
      · intro job'
        simp [AttachNotifyQueue.waiting, AttachNotifyQueue.mark, hworker, NotifyWorkerAt.holds,
          List.count_cons]
        omega
      · intro job'
        simp [running, AttachNotifyQueue.mark, hworker, workerRuns, List.count_cons]
        omega
  | workerFinish =>
      obtain ⟨job, hworker, rfl⟩ := workerFinish_cases hstep
      apply h.of_counts [.finished job] (by rfl) (by rfl) (by simp)
      · intro job'
        simp [AttachNotifyQueue.waiting, AttachNotifyQueue.mark, hworker, NotifyWorkerAt.holds]
      · intro job'
        simp [running, AttachNotifyQueue.mark, hworker, workerRuns, List.count_cons]
        omega
  | workerLand =>
      obtain ⟨hworker, rfl⟩ := workerLand_cases hstep
      apply h.of_counts [] (by simp) (by rfl) (by simp)
      · intro job'
        simp [AttachNotifyQueue.waiting, hworker, NotifyWorkerAt.holds]
      · intro job'
        simp [running, hworker, workerRuns]
  | flush =>
      cases hstep
      apply h.of_counts [] (by simp) (by rfl) (by simp)
      · intro job'
        simp [AttachNotifyQueue.waiting, FlushAt.holds]
      · intro job'
        simp [running, flushRuns]
  | flushTest f =>
      rcases flushTest_cases hstep with rfl | ⟨flush, hf, rfl, ⟨hplace, -⟩ | hplace⟩
      · exact h
      · exact conserved_takeOrLeave h hf (by rw [hplace]; rfl) (by rw [hplace]; rfl)
      · exact conserved_takeOrLeave h hf (by rw [hplace]; rfl) (by rw [hplace]; rfl)
  | flushStart f =>
      obtain ⟨flush, job, hf, hplace, rfl⟩ := flushStart_cases hstep
      apply conserved_move h hf (.dispatching job) [.started job] (by rfl) (by simp)
        (by exact ⟨rfl, rfl, rfl⟩)
      · intro job'
        simp [AttachNotifyQueue.move, AttachNotifyQueue.mark, FlushAt.holds, hplace,
          List.count_cons]
        omega
      · intro job'
        simp [flushRuns, hplace, List.count_cons]
  | flushFinish f =>
      obtain ⟨flush, job, hf, hplace, rfl⟩ := flushFinish_cases hstep
      apply conserved_move h hf .dispatched [.finished job] (by rfl) (by simp)
        (by exact ⟨rfl, rfl, rfl⟩)
      · intro job'
        simp [AttachNotifyQueue.move, AttachNotifyQueue.mark, FlushAt.holds, hplace]
      · intro job'
        simp [flushRuns, hplace, List.count_cons]
  | flushReturn f =>
      obtain ⟨flush, hf, hplace, rfl⟩ := flushReturn_cases hstep
      apply conserved_move h hf .returned [.flushed flush.before] (by rfl) (by simp)
        (by exact ⟨rfl, rfl, rfl⟩)
      · intro job'
        simp [AttachNotifyQueue.move, AttachNotifyQueue.mark, FlushAt.holds, hplace]
      · intro job'
        simp [flushRuns, hplace]

theorem conserved_of_reachable {meets : AttachNotifyQueue → NotifyEvent → Prop}
    (h : notifyQueue.ReachableMeeting meets s) : Conserved s :=
  h.invariant conserved_init fun _ _ _ hs _ hstep => conserved_step hs hstep

/-- **Every job once**, whoever flushes. -/
theorem dispatchedOnce_of_reachable (h : notifyQueue.Reachable s) : s.DispatchedOnce := by
  intro job hjob
  have hconserved := conserved_of_reachable h
  have hpos := List.count_pos_iff.mpr hjob
  have honce := hconserved.once job
  have hbegun := hconserved.begun job
  omega

/-! ## One flush at a time -/

def active (f : NotifyFlush) : Bool := f.place ≠ .returned

/-- The flush is past its wait for `in_flight`. -/
def inLoop (f : NotifyFlush) : Bool := f.place ≠ .waiting && f.place ≠ .returned

def NotifyHolds (s : AttachNotifyQueue) (job : WatchNotifyJob) : Prop :=
  job ∈ s.worker.holds ++ workerRuns s.worker ∨
    ∃ f ∈ s.flushes, job ∈ f.place.holds ++ flushRuns f.place

structure Turns (s : AttachNotifyQueue) : Prop where
  alone : s.flushes.countP active ≤ 1
  drain : 0 < s.flushes.countP active → s.drainMode = true
  flight : s.inFlight = 0 ↔ s.worker = .waiting
  single : s.inFlight ≤ 1
  loop : ∀ f ∈ s.flushes, inLoop f = true → s.worker = .waiting
  sorted : s.jobs.Pairwise (·.id < ·.id)
  bound : ∀ job ∈ s.jobs, job.id < s.enqueued
  ahead : ∀ held, NotifyHolds s held → held.id < s.enqueued ∧ ∀ job ∈ s.jobs, held.id < job.id
  before : ∀ f ∈ s.flushes, f.before ≤ s.enqueued
  left : ∀ f ∈ s.flushes, f.place = .leaving → ∀ job ∈ s.jobs, f.before ≤ job.id

theorem turns_init : Turns notifyQueue.init where
  alone := Nat.zero_le _
  drain h := absurd h (by decide)
  flight := iff_of_true rfl rfl
  single := Nat.zero_le _
  loop _ h := absurd h List.not_mem_nil
  sorted := List.Pairwise.nil
  bound _ h := absurd h List.not_mem_nil
  ahead held h := by
    simp [NotifyHolds, notifyQueue, NotifyWorkerAt.holds, workerRuns] at h
  before _ h := absurd h List.not_mem_nil
  left _ h := absurd h List.not_mem_nil

theorem eq_of_countP_le_one {α : Type} {p : α → Bool} {l : List α} (h : l.countP p ≤ 1) {a b : α}
    (ha : a ∈ l) (hb : b ∈ l) (hpa : p a = true) (hpb : p b = true) : a = b := by
  rw [List.countP_eq_length_filter] at h
  have ha' : a ∈ l.filter p := List.mem_filter.mpr ⟨ha, hpa⟩
  have hb' : b ∈ l.filter p := List.mem_filter.mpr ⟨hb, hpb⟩
  obtain ⟨c, hc⟩ := List.length_eq_one_iff.mp (le_antisymm h (List.length_pos_of_mem ha'))
  rw [hc, List.mem_singleton] at ha' hb'
  rw [ha', hb']

theorem countP_set_add {α : Type} (p : α → Bool) {l : List α} {i : Nat} {x y : α}
    (h : l[i]? = some y) :
    (l.set i x).countP p + (if p y then 1 else 0) = l.countP p + (if p x then 1 else 0) := by
  induction l generalizing i with
  | nil => cases h
  | cons a l ih =>
      cases i with
      | zero =>
          cases h
          simp only [List.set_cons_zero, List.countP_cons]
          omega
      | succ i =>
          have hrest := ih h
          simp only [List.set_cons_succ, List.countP_cons]
          omega

theorem inLoop_of_held {job : WatchNotifyJob} (h : job ∈ flush.place.holds ++ flushRuns flush.place) :
    inLoop flush = true := by
  cases hplace : flush.place <;> simp [hplace, FlushAt.holds, flushRuns, inLoop] at h ⊢

theorem active_of_inLoop (h : inLoop flush = true) : active flush = true := by
  cases hplace : flush.place <;> simp [hplace, inLoop, active] at h ⊢

theorem held_unique {a b : WatchNotifyJob} {holds runs : List WatchNotifyJob}
    (hone : (holds ++ runs).length ≤ 1) (ha : a ∈ holds ++ runs) (hb : b ∈ holds ++ runs) :
    a = b := by
  obtain ⟨c, hc⟩ := List.length_eq_one_iff.mp (le_antisymm hone (List.length_pos_of_mem ha))
  rw [hc, List.mem_singleton] at ha hb
  rw [ha, hb]

theorem Turns.holder_unique (h : Turns s) {a b : WatchNotifyJob} (ha : NotifyHolds s a)
    (hb : NotifyHolds s b) : a = b := by
  have hwaits : ∀ job, job ∈ s.worker.holds ++ workerRuns s.worker → s.worker ≠ .waiting := by
    intro job hjob hworker
    rw [hworker] at hjob
    cases hjob
  rcases ha with ha | ⟨f, hf, ha⟩
  · rcases hb with hb | ⟨g, hg, hb⟩
    · apply held_unique _ ha hb
      cases s.worker <;> simp [NotifyWorkerAt.holds, workerRuns]
    · exact absurd (h.loop g hg (inLoop_of_held hb)) (hwaits a ha)
  · rcases hb with hb | ⟨g, hg, hb⟩
    · exact absurd (h.loop f hf (inLoop_of_held ha)) (hwaits b hb)
    · obtain rfl := eq_of_countP_le_one h.alone hf hg (active_of_inLoop (inLoop_of_held ha))
        (active_of_inLoop (inLoop_of_held hb))
      apply held_unique _ ha hb
      cases f.place <;> simp [FlushAt.holds, flushRuns]

theorem Turns.mark (h : Turns s) (m : NotifyMark) : Turns (s.mark m) :=
  ⟨h.alone, h.drain, h.flight, h.single, h.loop, h.sorted, h.bound, h.ahead, h.before, h.left⟩

theorem Turns.move (h : Turns s) (hf : s.flushes[f]? = some flush) (hactive : active flush = true)
    {jobs : List WatchNotifyJob} {place : FlushAt} (hjobs : jobs.Sublist s.jobs)
    (hloop : inLoop (flush.goTo place) = true → s.worker = .waiting)
    (hheld : ∀ held ∈ place.holds ++ flushRuns place,
      held.id < s.enqueued ∧ ∀ job ∈ jobs, held.id < job.id)
    (hleft : place = .leaving → ∀ job ∈ jobs, flush.before ≤ job.id)
    {drain : Bool} (hdrain : place ≠ .returned → drain = s.drainMode) :
    Turns ({ s with jobs := jobs, drainMode := drain }.move f flush place) := by
  have hmem := List.mem_of_getElem? hf
  have hset := countP_set_add active (x := flush.goTo place) hf
  have hone : s.flushes.countP active = 1 :=
    le_antisymm h.alone (List.countP_pos_iff.mpr ⟨flush, hmem, hactive⟩)
  rw [hactive, if_pos rfl, hone] at hset
  have hold : ∀ g ∈ s.flushes.set f (flush.goTo place), g ∈ s.flushes ∨ g = flush.goTo place :=
    fun g hg => List.mem_or_eq_of_mem_set hg
  refine ⟨?_, ?_, h.flight, h.single, ?_, h.sorted.sublist hjobs, ?_, ?_, ?_, ?_⟩
  · simp only [AttachNotifyQueue.move]
    split at hset <;> omega
  · intro hpos
    simp only [AttachNotifyQueue.move] at hpos ⊢
    split at hset
    · rename_i hnext
      rw [hdrain (of_decide_eq_true hnext)]
      exact h.drain (by omega)
    · omega
  · intro g hg hin
    rcases hold g hg with hg | rfl
    · exact h.loop g hg hin
    · exact hloop hin
  · intro job hjob
    exact h.bound job (hjobs.subset hjob)
  · rintro held (hw | ⟨g, hg, hin⟩)
    · have hbefore := h.ahead held (Or.inl hw)
      exact ⟨hbefore.1, fun job hjob => hbefore.2 job (hjobs.subset hjob)⟩
    · rcases hold g hg with hg | rfl
      · have hbefore := h.ahead held (Or.inr ⟨g, hg, hin⟩)
        exact ⟨hbefore.1, fun job hjob => hbefore.2 job (hjobs.subset hjob)⟩
      · exact hheld held hin
  · intro g hg
    rcases hold g hg with hg | rfl
    · exact h.before g hg
    · exact h.before flush hmem
  · intro g hg hplace
    rcases hold g hg with hg | rfl
    · intro job hjob
      exact h.left g hg hplace job (hjobs.subset hjob)
    · exact hleft hplace

theorem turns_takeOrLeave (h : Turns s) (hf : s.flushes[f]? = some flush)
    (hactive : active flush = true) (hworker : s.worker = .waiting) :
    Turns (s.takeOrLeave f flush) := by
  unfold AttachNotifyQueue.takeOrLeave
  split
  · rename_i hjobs
    apply h.move hf hactive (List.Sublist.refl _) (fun _ => hworker)
    · simp [FlushAt.holds, flushRuns]
    · simp [hjobs]
    · simp
  · rename_i job jobs hjobs
    have hsorted := h.sorted
    rw [hjobs, List.pairwise_cons] at hsorted
    apply h.move hf hactive
    · rw [hjobs]
      exact List.sublist_cons_self job jobs
    · exact fun _ => hworker
    · intro held hheld
      obtain rfl : held = job := by simpa [FlushAt.holds, flushRuns] using hheld
      exact ⟨h.bound held (by simp [hjobs]), hsorted.1⟩
    · simp
    · simp

theorem turns_enqueue (h : Turns s) (path : List UInt8) (type : State.ConfigEventType)
    (snapshot : List UInt8) :
    Turns { s with
      jobs := s.jobs ++ [⟨s.enqueued, path, type, snapshot⟩], enqueued := s.enqueued + 1 } := by
  refine ⟨h.alone, h.drain, h.flight, h.single, h.loop, ?_, ?_, ?_, ?_, ?_⟩
  · apply List.pairwise_append.mpr
    refine ⟨h.sorted, List.pairwise_singleton _ _, fun job hjob new hnew => ?_⟩
    obtain rfl := List.mem_singleton.mp hnew
    exact h.bound job hjob
  · intro job hjob
    rcases List.mem_append.mp hjob with hjob | hjob
    · exact Nat.lt_succ_of_lt (h.bound job hjob)
    · obtain rfl := List.mem_singleton.mp hjob
      exact Nat.lt_succ_self _
  · intro held hheld
    have hbefore := h.ahead held hheld
    refine ⟨Nat.lt_succ_of_lt hbefore.1, fun job hjob => ?_⟩
    rcases List.mem_append.mp hjob with hjob | hjob
    · exact hbefore.2 job hjob
    · obtain rfl := List.mem_singleton.mp hjob
      exact hbefore.1
  · exact fun f hf => Nat.le_succ_of_le (h.before f hf)
  · intro f hf hplace job hjob
    rcases List.mem_append.mp hjob with hjob | hjob
    · exact h.left f hf hplace job hjob
    · obtain rfl := List.mem_singleton.mp hjob
      exact h.before f hf

theorem Turns.worker (h : Turns s) {worker : NotifyWorkerAt} {jobs : List WatchNotifyJob}
    {inFlight : Nat} (hjobs : jobs.Sublist s.jobs) (hflight : inFlight = 0 ↔ worker = .waiting)
    (hsingle : inFlight ≤ 1) (hloop : s.worker ≠ .waiting ∨ s.drainMode = false)
    (hheld : ∀ held ∈ worker.holds ++ workerRuns worker,
      held.id < s.enqueued ∧ ∀ job ∈ jobs, held.id < job.id) :
    Turns { s with jobs := jobs, worker := worker, inFlight := inFlight } := by
  -- no flush is past its wait
  have hnone : ∀ f ∈ s.flushes, inLoop f ≠ true := by
    intro f hf hin
    rcases hloop with hworker | hdrain
    · exact hworker (h.loop f hf hin)
    · have hpos := List.countP_pos_iff.mpr ⟨f, hf, active_of_inLoop hin⟩
      rw [h.drain hpos] at hdrain
      cases hdrain
  refine ⟨h.alone, h.drain, hflight, hsingle, ?_, h.sorted.sublist hjobs, ?_, ?_, h.before, ?_⟩
  · exact fun f hf hin => absurd hin (hnone f hf)
  · exact fun job hjob => h.bound job (hjobs.subset hjob)
  · rintro held (hw | ⟨f, hf, hin⟩)
    · exact hheld held hw
    · exact absurd (inLoop_of_held hin) (hnone f hf)
  · intro f hf hplace job hjob
    exact h.left f hf hplace job (hjobs.subset hjob)

theorem turns_flush (h : Turns s) (halone : ∀ f ∈ s.flushes, f.place = .returned) :
    Turns { s with drainMode := true, flushes := s.flushes ++ [{ before := s.enqueued }] } := by
  have hnone : s.flushes.countP active = 0 := by
    apply List.countP_eq_zero.mpr
    intro f hf
    simp [active, halone f hf]
  refine ⟨?_, fun _ => rfl, h.flight, h.single, ?_, h.sorted, h.bound, ?_, ?_, ?_⟩
  · rw [List.countP_append, hnone]
    simp [active]
  · intro f hf hin
    rcases List.mem_append.mp hf with hf | hf
    · exact h.loop f hf hin
    · obtain rfl := List.mem_singleton.mp hf
      cases hin
  · rintro held (hw | ⟨f, hf, hin⟩)
    · exact h.ahead held (Or.inl hw)
    · rcases List.mem_append.mp hf with hf | hf
      · exact h.ahead held (Or.inr ⟨f, hf, hin⟩)
      · obtain rfl := List.mem_singleton.mp hf
        cases hin
  · intro f hf
    rcases List.mem_append.mp hf with hf | hf
    · exact h.before f hf
    · obtain rfl := List.mem_singleton.mp hf
      exact le_refl _
  · intro f hf hplace
    rcases List.mem_append.mp hf with hf | hf
    · exact h.left f hf hplace
    · obtain rfl := List.mem_singleton.mp hf
      cases hplace

theorem turns_step {e : NotifyEvent} (h : Turns s) (hmeets : s.Alone e)
    (hstep : s.step e = some s') : Turns s' := by
  cases e with
  | enqueueWatch path type snapshot =>
      cases hstep
      exact (turns_enqueue h path type snapshot).mark _
  | workerPop =>
      obtain ⟨job, jobs, hworker, hjobs, hdrain, rfl⟩ := workerPop_cases hstep
      have hsorted := h.sorted
      rw [hjobs, List.pairwise_cons] at hsorted
      apply h.worker
      · rw [hjobs]
        exact List.sublist_cons_self job jobs
      · simp
      · rw [h.flight.mpr hworker]
      · exact Or.inr hdrain
      · intro held hheld
        obtain rfl : held = job := by simpa [NotifyWorkerAt.holds, workerRuns] using hheld
        exact ⟨h.bound held (by simp [hjobs]), hsorted.1⟩
  | workerStart =>
      obtain ⟨job, hworker, rfl⟩ := workerStart_cases hstep
      apply Turns.mark
      apply h.worker (List.Sublist.refl _) _ h.single (Or.inl (by simp [hworker]))
      · intro held hheld
        apply h.ahead held (Or.inl _)
        simpa [hworker, NotifyWorkerAt.holds, workerRuns] using hheld
      · rw [h.flight, hworker]
        simp
  | workerFinish =>
      obtain ⟨job, hworker, rfl⟩ := workerFinish_cases hstep
      apply Turns.mark
      apply h.worker (List.Sublist.refl _) _ h.single (Or.inl (by simp [hworker]))
      · simp [NotifyWorkerAt.holds, workerRuns]
      · rw [h.flight, hworker]
        simp
  | workerLand =>
      obtain ⟨hworker, rfl⟩ := workerLand_cases hstep
      have hsingle := h.single
      apply h.worker (List.Sublist.refl _) _ _ (Or.inl (by simp [hworker]))
      · simp [NotifyWorkerAt.holds, workerRuns]
      · exact iff_of_true (by omega) rfl
      · omega
  | flush =>
      cases hstep
      exact turns_flush h hmeets
  | flushTest f =>
      rcases flushTest_cases hstep with rfl | ⟨flush, hf, rfl, ⟨hplace, hflight⟩ | hplace⟩
      · exact h
      · exact turns_takeOrLeave h hf (by simp [active, hplace]) (h.flight.mp hflight)
      · have hin : inLoop flush = true := by simp [inLoop, hplace]
        exact turns_takeOrLeave h hf (active_of_inLoop hin)
          (h.loop flush (List.mem_of_getElem? hf) hin)
  | flushStart f =>
      obtain ⟨flush, job, hf, hplace, rfl⟩ := flushStart_cases hstep
      have hmem := List.mem_of_getElem? hf
      have hin : inLoop flush = true := by simp [inLoop, hplace]
      apply Turns.mark
      apply h.move hf (active_of_inLoop hin) (List.Sublist.refl _)
        (fun _ => h.loop flush hmem hin) _ (by simp) (fun _ => rfl)
      intro held hheld
      apply h.ahead held (Or.inr ⟨flush, hmem, _⟩)
      simpa [hplace, FlushAt.holds, flushRuns] using hheld
  | flushFinish f =>
      obtain ⟨flush, job, hf, hplace, rfl⟩ := flushFinish_cases hstep
      have hin : inLoop flush = true := by simp [inLoop, hplace]
      apply Turns.mark
      apply h.move hf (active_of_inLoop hin) (List.Sublist.refl _)
        (fun _ => h.loop flush (List.mem_of_getElem? hf) hin) _ (by simp) (fun _ => rfl)
      simp [FlushAt.holds, flushRuns]
  | flushReturn f =>
      obtain ⟨flush, hf, hplace, rfl⟩ := flushReturn_cases hstep
      apply Turns.mark
      apply h.move hf (by simp [active, hplace]) (List.Sublist.refl _)
      · simp [inLoop, NotifyFlush.goTo]
      · simp [FlushAt.holds, flushRuns]
      · simp
      · simp

/-! ## Order -/

theorem finished_of_not_held (hc : Conserved s) {job : WatchNotifyJob}
    (henqueued : .enqueued job ∈ s.log) (hheld : ¬NotifyHolds s job) (hjobs : job ∉ s.jobs) :
    .finished job ∈ s.log := by
  have hpos := List.count_pos_iff.mpr henqueued
  have hwaiting : s.waiting.count job = 0 := by
    apply List.count_eq_zero_of_not_mem
    intro hmem
    simp only [AttachNotifyQueue.waiting, List.mem_append, List.mem_flatMap] at hmem
    rcases hmem with (hw | ⟨f, hf, hin⟩) | hin
    · exact hheld (Or.inl (List.mem_append_left _ hw))
    · exact hheld (Or.inr ⟨f, hf, List.mem_append_left _ hin⟩)
    · exact hjobs hin
  have hrunning : (running s).count job = 0 := by
    apply List.count_eq_zero_of_not_mem
    intro hmem
    simp only [running, List.mem_append, List.mem_flatMap] at hmem
    rcases hmem with hw | ⟨f, hf, hin⟩
    · exact hheld (Or.inl (List.mem_append_right _ hw))
    · exact hheld (Or.inr ⟨f, hf, List.mem_append_right _ hin⟩)
  have hbegun := hc.begun job
  have hended := hc.ended job
  apply List.count_pos_iff.mp
  omega

theorem guard_started (hc : Conserved s) (ht : Turns s) {job : WatchNotifyJob}
    (hheld : NotifyHolds s job) : notifyGuard s.log (.started job) := by
  intro earlier henqueued hless _
  apply finished_of_not_held hc henqueued
  · intro hearlier
    rw [ht.holder_unique hearlier hheld] at hless
    exact lt_irrefl _ hless
  · intro hjobs
    exact absurd ((ht.ahead job hheld).2 earlier hjobs) (Nat.lt_asymm hless)

theorem guard_flushed (hc : Conserved s) (ht : Turns s) (hmem : flush ∈ s.flushes)
    (hplace : flush.place = .leaving) : notifyGuard s.log (.flushed flush.before) := by
  intro job henqueued hless
  have hin : inLoop flush = true := by simp [inLoop, hplace]
  apply finished_of_not_held hc henqueued
  · rintro (hw | ⟨g, hg, hheld⟩)
    · rw [ht.loop flush hmem hin] at hw
      cases hw
    · obtain rfl := eq_of_countP_le_one ht.alone hg hmem (active_of_inLoop (inLoop_of_held hheld))
        (active_of_inLoop hin)
      rw [hplace] at hheld
      cases hheld
  · intro hjobs
    exact absurd (ht.left flush hmem hplace job hjobs) (Nat.not_le.mpr hless)

theorem takeOrLeave_log (s : AttachNotifyQueue) (f : Nat) (flush : NotifyFlush) :
    (s.takeOrLeave f flush).log = s.log := by
  unfold AttachNotifyQueue.takeOrLeave
  split <;> rfl

theorem guarded_step {e : NotifyEvent} (hc : Conserved s) (ht : Turns s)
    (h : Guarded notifyGuard s.log) (hstep : s.step e = some s') :
    Guarded notifyGuard s'.log := by
  cases e with
  | enqueueWatch path type snapshot =>
      cases hstep
      exact guarded_append_singleton.mpr ⟨h, trivial⟩
  | workerPop =>
      obtain ⟨-, -, -, -, -, rfl⟩ := workerPop_cases hstep
      exact h
  | workerStart =>
      obtain ⟨job, hworker, rfl⟩ := workerStart_cases hstep
      apply guarded_append_singleton.mpr ⟨h, guard_started hc ht (Or.inl _)⟩
      simp [hworker, NotifyWorkerAt.holds]
  | workerFinish =>
      obtain ⟨-, -, rfl⟩ := workerFinish_cases hstep
      exact guarded_append_singleton.mpr ⟨h, trivial⟩
  | workerLand =>
      obtain ⟨-, rfl⟩ := workerLand_cases hstep
      exact h
  | flush =>
      cases hstep
      exact h
  | flushTest f =>
      rcases flushTest_cases hstep with rfl | ⟨flush, -, rfl, -⟩
      · exact h
      · rw [takeOrLeave_log]
        exact h
  | flushStart f =>
      obtain ⟨flush, job, hf, hplace, rfl⟩ := flushStart_cases hstep
      have hheld : NotifyHolds s job :=
        Or.inr ⟨flush, List.mem_of_getElem? hf, by simp [hplace, FlushAt.holds]⟩
      exact guarded_append_singleton.mpr ⟨h, guard_started hc ht hheld⟩
  | flushFinish f =>
      obtain ⟨-, -, -, -, rfl⟩ := flushFinish_cases hstep
      exact guarded_append_singleton.mpr ⟨h, trivial⟩
  | flushReturn f =>
      obtain ⟨flush, hf, hplace, rfl⟩ := flushReturn_cases hstep
      have hguard := guard_flushed hc ht (List.mem_of_getElem? hf) hplace
      exact guarded_append_singleton.mpr ⟨h, hguard⟩

theorem ordered_of_alone (h : notifyQueue.ReachableMeeting AttachNotifyQueue.Alone s) :
    Conserved s ∧ Turns s ∧ Guarded notifyGuard s.log := by
  apply h.invariant ⟨conserved_init, turns_init, Guarded.nil⟩
  intro s e s' hs hmeets hstep
  exact ⟨conserved_step hs.1 hstep, turns_step hs.2.1 hmeets hstep,
    guarded_step hs.1 hs.2.1 hs.2.2 hstep⟩

/-- Two jobs of one path with a flush after the first: the worker dispatches the
first, the flush the second. -/
def oneFlush : List NotifyEvent :=
  [.enqueueWatch [97] .enterActive [], .workerPop, .flush, .enqueueWatch [97] .enterUpdating [],
    .flushTest 0, .workerStart, .workerFinish, .workerLand, .flushTest 0, .flushStart 0,
    .flushFinish 0, .flushTest 0, .flushReturn 0]

def twoFlushes : List NotifyEvent :=
  [.enqueueWatch [97] .enterActive [], .enqueueWatch [97] .enterUpdating [], .flush, .flush,
    .flushTest 0, .flushStart 0, .flushTest 1, .flushStart 1]

def BeginsNone : NotifyEvent → Prop
  | .flush => False
  | _ => True

def Goes (s s' : AttachNotifyQueue) : Prop :=
  Relation.ReflTransGen (notifyQueue.StepMeeting fun _ => BeginsNone) s s'

theorem Goes.head {s'' : AttachNotifyQueue} (e : NotifyEvent) (he : BeginsNone e)
    (hstep : s.step e = some s') (h : Goes s' s'') : Goes s s'' :=
  Relation.ReflTransGen.head ⟨e, he, hstep⟩ h

theorem Goes.trans {s'' : AttachNotifyQueue} (h : Goes s s') (h' : Goes s' s'') : Goes s s'' :=
  Relation.ReflTransGen.trans h h'

theorem Goes.conserved (h : Goes s s') (hc : Conserved s) : Conserved s' := by
  induction h with
  | refl => exact hc
  | tail _ hstep ih =>
      obtain ⟨e, -, hstep⟩ := hstep
      exact conserved_step ih hstep

def AtTest (s : AttachNotifyQueue) (f : Nat) : Prop :=
  ∃ flush, s.flushes[f]? = some flush ∧ (flush.place = .waiting ∨ flush.place = .dispatched)

theorem AtTest.set_ne {g : Nat} {x : NotifyFlush} (hg : AtTest s g) (hne : f ≠ g)
    (hs' : s'.flushes = s.flushes.set f x) : AtTest s' g := by
  obtain ⟨flush, hflush, hplace⟩ := hg
  exact ⟨flush, by rw [hs', List.getElem?_set_ne hne]; exact hflush, hplace⟩

theorem exists_begun (hf : AtTest s f) (hflight : s.inFlight = 0) {job : WatchNotifyJob}
    {jobs : List WatchNotifyJob} (hjobs : s.jobs = job :: jobs) :
    ∃ flush : NotifyFlush, flush.place = .dispatching job ∧
      Goes s { s with
        jobs := jobs, flushes := s.flushes.set f flush, log := s.log ++ [.started job] } := by
  obtain ⟨flush, hflush, hplace⟩ := hf
  have hlt : f < s.flushes.length := (List.getElem?_eq_some_iff.mp hflush).1
  have htest : s.step (.flushTest f) =
      some ({ s with jobs := jobs }.move f flush (.popped job)) := by
    rcases hplace with hplace | hplace <;>
      simp [AttachNotifyQueue.step, hflush, hplace, hflight, AttachNotifyQueue.takeOrLeave, hjobs]
  refine ⟨flush.goTo (.dispatching job), rfl, Goes.head (.flushTest f) trivial htest ?_⟩
  apply Goes.head (.flushStart f) trivial _ .refl
  simp [AttachNotifyQueue.step, AttachNotifyQueue.move, AttachNotifyQueue.mark, NotifyFlush.goTo,
    hlt]

theorem exists_finished {job : WatchNotifyJob} (hf : s.flushes[f]? = some flush)
    (hplace : flush.place = .dispatching job) :
    Goes s { s with
      flushes := s.flushes.set f (flush.goTo .dispatched), log := s.log ++ [.finished job] } := by
  apply Goes.head (.flushFinish f) trivial _ .refl
  simp [AttachNotifyQueue.step, hf, hplace, AttachNotifyQueue.move, AttachNotifyQueue.mark]

theorem exists_drained (hf : AtTest s f) (hflight : s.inFlight = 0) :
    ∃ flush log, (flush.place = FlushAt.waiting ∨ flush.place = .dispatched) ∧
      Goes s { s with jobs := [], flushes := s.flushes.set f flush, log := log } := by
  -- by induction on the queue
  induction hjobs : s.jobs generalizing s with
  | nil =>
      obtain ⟨flush, hflush, hplace⟩ := hf
      refine ⟨flush, s.log, hplace, ?_⟩
      have hset : s.flushes.set f flush = s.flushes := by
        obtain ⟨hlt, rfl⟩ := List.getElem?_eq_some_iff.mp hflush
        exact List.set_getElem_self hlt
      rw [hset, ← hjobs]
      exact .refl
  | cons job jobs ih =>
      have hlt : f < s.flushes.length := by
        obtain ⟨flush, hflush, -⟩ := hf
        exact (List.getElem?_eq_some_iff.mp hflush).1
      obtain ⟨flush, hplace, hbegun⟩ := exists_begun hf hflight hjobs
      have hfinished := exists_finished (s := { s with
        jobs := jobs, flushes := s.flushes.set f flush, log := s.log ++ [.started job] })
        (f := f) (List.getElem?_set_self hlt) hplace
      obtain ⟨flush', log, hplace', hrest⟩ := ih (s := { s with
          jobs := jobs
          flushes := (s.flushes.set f flush).set f (flush.goTo .dispatched)
          log := s.log ++ [.started job] ++ [.finished job] })
        ⟨flush.goTo .dispatched, by simp [hlt], Or.inr rfl⟩ hflight rfl
      refine ⟨flush', log, hplace', (hbegun.trans hfinished).trans ?_⟩
      simpa using hrest

theorem exists_landed (hflight : s.inFlight = 0 ↔ s.worker = .waiting) (hsingle : s.inFlight ≤ 1) :
    ∃ log, Goes s { s with worker := .waiting, inFlight := 0, log := log } := by
  have hdispatched : ∀ s : AttachNotifyQueue, s.worker = .dispatched → s.inFlight ≤ 1 →
      Goes s { s with worker := .waiting, inFlight := 0 } := by
    intro s hworker hsingle
    apply Goes.head .workerLand trivial _ .refl
    have hzero : s.inFlight - 1 = 0 := by omega
    simp [AttachNotifyQueue.step, hworker, hzero]
  have hdispatching : ∀ (s : AttachNotifyQueue) job, s.worker = .dispatching job →
      s.inFlight ≤ 1 → ∃ log, Goes s { s with worker := .waiting, inFlight := 0, log := log } := by
    intro s job hworker hsingle
    refine ⟨s.log ++ [.finished job], Goes.head .workerFinish trivial ?_
      (hdispatched ({ s with worker := .dispatched }.mark (.finished job)) rfl hsingle)⟩
    simp [AttachNotifyQueue.step, hworker]
  cases hworker : s.worker with
  | waiting =>
      refine ⟨s.log, ?_⟩
      rw [← hflight.mpr hworker, ← hworker]
      exact .refl
  | popped job =>
      obtain ⟨log, hrest⟩ := hdispatching
        ({ s with worker := .dispatching job }.mark (.started job)) job rfl hsingle
      refine ⟨log, Goes.head .workerStart trivial ?_ hrest⟩
      simp [AttachNotifyQueue.step, hworker]
  | dispatching job => exact hdispatching s job hworker hsingle
  | dispatched => exact ⟨s.log, hdispatched s hworker hsingle⟩

theorem exists_atTest (hf : s.flushes[f]? = some flush) (hactive : active flush = true) :
    ∃ flush' drain log,
      Goes s { s with
        drainMode := drain, flushes := s.flushes.set f flush', log := log } ∧
      (flush'.place = FlushAt.waiting ∨ flush'.place = .dispatched ∨ drain = false) := by
  obtain ⟨hlt, rfl⟩ := List.getElem?_eq_some_iff.mp hf
  have hself : s = { s with flushes := s.flushes.set f s.flushes[f] } := by
    rw [List.set_getElem_self hlt]
  cases hplace : s.flushes[f].place with
  | waiting =>
      refine ⟨_, s.drainMode, s.log, ?_, Or.inl hplace⟩
      rw [← hself]
      exact .refl
  | popped job =>
      have hfinished := exists_finished (s := (s.move f s.flushes[f] (.dispatching job)).mark
        (.started job)) (f := f) (List.getElem?_set_self hlt) rfl
      refine ⟨s.flushes[f].goTo .dispatched, s.drainMode,
        s.log ++ [.started job] ++ [.finished job], ?_, Or.inr (Or.inl rfl)⟩
      apply Goes.head (.flushStart f) trivial
      · simp only [AttachNotifyQueue.step, hf, hplace]
        rfl
      · simpa [AttachNotifyQueue.move, AttachNotifyQueue.mark, NotifyFlush.goTo] using hfinished
  | dispatching job =>
      exact ⟨s.flushes[f].goTo .dispatched, s.drainMode, s.log ++ [.finished job],
        exists_finished hf hplace, Or.inr (Or.inl rfl)⟩
  | dispatched =>
      refine ⟨_, s.drainMode, s.log, ?_, Or.inr (Or.inl hplace)⟩
      rw [← hself]
      exact .refl
  | leaving =>
      refine ⟨s.flushes[f].goTo .returned, false, s.log ++ [.flushed s.flushes[f].before], ?_,
        Or.inr (Or.inr rfl)⟩
      apply Goes.head (.flushReturn f) trivial _ .refl
      simp [AttachNotifyQueue.step, hf, hplace, AttachNotifyQueue.move, AttachNotifyQueue.mark]
  | returned => simp [active, hplace] at hactive

theorem not_guarded_of_overlap (hc : Conserved s) {a b : WatchNotifyJob} (ha : a.id = s.enqueued)
    (hb : b.id = s.enqueued + 1) (hpath : a.path = b.path) :
    ¬Guarded notifyGuard (s.log ++ [.enqueued a] ++ [.enqueued b] ++ [.started a] ++
      [.started b]) := by
  intro hguarded
  have hfinished := (guarded_append_singleton.mp hguarded).2 a (by simp) (by omega) hpath
  have hold : .finished a ∈ s.log := by simpa using hfinished
  have hpos := List.count_pos_iff.mpr hold
  have hbegun := hc.begun a
  have hended := hc.ended a
  have henqueued : .enqueued a ∈ s.log := List.count_pos_iff.mp (by omega)
  exact absurd (hc.numbered a henqueued) (by omega)

theorem exists_overlap {g : Nat} (hc : Conserved s) (hworker : s.worker = .waiting)
    (hflight : s.inFlight = 0) (hjobs : s.jobs = []) (hg : AtTest s g)
    (hother : (∃ f, f ≠ g ∧ AtTest s f) ∨ s.drainMode = false) :
    ∃ s', Goes s s' ∧ ¬Guarded notifyGuard s'.log := by
  let a : WatchNotifyJob := ⟨s.enqueued, [], .enterActive, []⟩
  let b : WatchNotifyJob := ⟨s.enqueued + 1, [], .enterActive, []⟩
  have hbad := not_guarded_of_overlap hc (a := a) (b := b) rfl rfl rfl
  -- both jobs are enqueued, and the flush `g` begins the first of them
  let full : AttachNotifyQueue := { s with
    jobs := [a, b], enqueued := s.enqueued + 1 + 1, log := s.log ++ [.enqueued a] ++ [.enqueued b] }
  have hfull : Goes s full := by
    apply Goes.head (.enqueueWatch [] .enterActive []) trivial rfl
    apply Goes.head (.enqueueWatch [] .enterActive []) trivial _ .refl
    simp [AttachNotifyQueue.step, AttachNotifyQueue.mark, hjobs, full, a, b]
  obtain ⟨flush, -, hbegun⟩ := exists_begun (s := full) (f := g) hg hflight rfl
  rcases hother with ⟨f, hne, hf⟩ | hdrain
  · obtain ⟨flush', -, hbegun'⟩ := exists_begun
      (s := { full with
        jobs := [b], flushes := full.flushes.set g flush, log := full.log ++ [.started a] })
      (AtTest.set_ne (s := s) hf hne.symm rfl) hflight rfl
    exact ⟨_, hfull.trans (hbegun.trans hbegun'), hbad⟩
  · refine ⟨{ full with
        jobs := [], flushes := full.flushes.set g flush, inFlight := s.inFlight + 1
        worker := .dispatching b, log := full.log ++ [.started a] ++ [.started b] },
      hfull.trans (hbegun.trans ?_), hbad⟩
    apply Goes.head .workerPop trivial
    · simp only [AttachNotifyQueue.step, full, hworker, hdrain]
      rfl
    · have hdrain' : full.drainMode = false := hdrain
      rw [hdrain']
      exact Goes.head .workerStart trivial rfl .refl

end BlessStar.Session.Proofs.NotifyFlush
