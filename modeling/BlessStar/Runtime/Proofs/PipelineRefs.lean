import BlessStar.Lib.Places
import BlessStar.Runtime.Registry

/-!
# References to pipelines

A job refers to its entry by an address, and an unregistration that waits knows
its entry by an index.  Both stay right as long as an entry is removed only
from behind them, and the array moves only when nobody refers to it.
-/

namespace BlessStar.Runtime.Proofs.PipelineRefs

open Lib.ByteString Lib.Transition Lib.Places KernelRegistry

def heldPipeline (job : KernelJob) : List Pipeline :=
  match job.releasedOn with
  | none => [job.acquired]
  | some _ => []

def inFlight (s : KernelRegistry) : List Pipeline := s.jobs.flatMap heldPipeline

def Refers (s : KernelRegistry) (job : KernelJob) : Prop :=
  job.ref.block = s.pipelines ∧ job.ref.index < s.pipelineCount ∧
    (s.entry job.ref.index).pipeline = job.acquired

def KeepsPipeline (job : KernelJob) : Prop :=
  (∀ p, job.ranOn = some p → p = job.acquired) ∧ ∀ p, job.releasedOn = some p → p = job.acquired

structure RegistrySound (s : KernelRegistry) : Prop where
  room : s.pipelineCount ≤ s.pipelineCapacity
  capacity : 0 < s.pipelineCapacity
  fresh : ∀ i < s.pipelineCount, (s.entry i).pipeline.registration < s.registrations
  distinct : ∀ i < s.pipelineCount, ∀ j < s.pipelineCount,
    (s.entry i).pipeline = (s.entry j).pipeline → i = j
  names : ∀ i < s.pipelineCount, ∀ j < s.pipelineCount, (s.entry i).name = (s.entry j).name → i = j
  counted : ∀ i < s.pipelineCount, (s.entry i).activeJobs = (inFlight s).count (s.entry i).pipeline
  refs : ∀ job ∈ s.jobs, job.releasedOn = none → Refers s job
  own : ∀ job ∈ s.jobs, KeepsPipeline job
  waits : ∀ (call : Nat) name i, s.calls[call]? = some (.unregistering name i) →
    i < s.pipelineCount ∧ (s.entry i).name = name

variable {s s' : KernelRegistry} {call i j k : Nat} {name : Bytes} {new : RegistryCallAt}
  {job : KernelJob}

theorem registrySound_init : RegistrySound kernelRegistry.init where
  room := Nat.zero_le _
  capacity := Nat.succ_pos _
  fresh := fun i hi => absurd hi (Nat.not_lt_zero i)
  distinct := fun i hi => absurd hi (Nat.not_lt_zero i)
  names := fun i hi => absurd hi (Nat.not_lt_zero i)
  counted := fun i hi => absurd hi (Nat.not_lt_zero i)
  refs := by simp [kernelRegistry]
  own := by simp [kernelRegistry]
  waits := by simp [kernelRegistry]

/-! ## Calls -/

theorem RegistrySound.begin (h : RegistrySound s) (hnew : ∀ name i, new ≠ .unregistering name i) :
    RegistrySound (s.begin new) := by
  refine ⟨h.room, h.capacity, h.fresh, h.distinct, h.names, h.counted, h.refs, h.own, ?_⟩
  intro call name i hcall
  have hcall' : (s.calls ++ [new])[call]? = some (.unregistering name i) := hcall
  rw [List.getElem?_append] at hcall'
  split at hcall'
  · exact h.waits call name i hcall'
  · exact absurd (List.mem_singleton.mp (List.mem_of_getElem? hcall')).symm (hnew name i)

theorem RegistrySound.waits_set (h : RegistrySound s)
    (hnew : ∀ name i, new = .unregistering name i → i < s.pipelineCount ∧ (s.entry i).name = name)
    (hk : (s.calls.set call new)[k]? = some (.unregistering name i)) :
    i < s.pipelineCount ∧ (s.entry i).name = name := by
  by_cases hne : k = call
  · subst hne
    obtain ⟨hlt, heq⟩ := List.getElem?_eq_some_iff.mp hk
    rw [List.getElem_set_self] at heq
    exact hnew name i heq
  · rw [get_set_ne hne] at hk
    exact h.waits k name i hk

theorem RegistrySound.goTo (h : RegistrySound s)
    (hnew : ∀ name i, new = .unregistering name i → i < s.pipelineCount ∧ (s.entry i).name = name) :
    RegistrySound (s.goTo call new) :=
  ⟨h.room, h.capacity, h.fresh, h.distinct, h.names, h.counted, h.refs, h.own,
    fun _ _ _ hk => h.waits_set hnew hk⟩

/-! ## Entries -/

@[simp] theorem entry_store (e : PipelineEntry) :
    (s.store ⟨s.pipelines, i⟩ e).entry j = if j = i then e else s.entry j := by
  by_cases hj : j = i
  · subst hj
    simp [store, entry]
  · simp [store, entry, hj]

theorem findFrom_some {p : PipelineEntry → Bool} (hfind : s.findFrom i p = some j) :
    i ≤ j ∧ j < s.pipelineCount ∧ p (s.entry j) = true := by
  have hmem := List.mem_range'_1.mp (List.mem_of_find?_eq_some hfind)
  rw [findFrom] at hfind
  have hp := List.find?_some hfind
  exact ⟨hmem.1, by omega, hp⟩

theorem findFrom_none {p : PipelineEntry → Bool} (hfind : s.findFrom i p = none) (hi : i ≤ j)
    (hj : j < s.pipelineCount) : p (s.entry j) = false := by
  have hno := List.find?_eq_none.mp hfind j (List.mem_range'_1.mpr ⟨hi, by omega⟩)
  simpa using hno

theorem mem_inFlight (hjob : job ∈ s.jobs) (hflight : job.releasedOn = none) :
    job.acquired ∈ inFlight s :=
  List.mem_flatMap.mpr ⟨job, hjob, by simp [heldPipeline, hflight]⟩

theorem RegistrySound.entry_of_mem (h : RegistrySound s) {p : Pipeline} (hp : p ∈ inFlight s) :
    ∃ job ∈ s.jobs, job.releasedOn = none ∧ job.acquired = p ∧ Refers s job := by
  obtain ⟨job, hjob, hmem⟩ := List.mem_flatMap.mp hp
  cases hreleased : job.releasedOn with
  | some q => simp [heldPipeline, hreleased] at hmem
  | none =>
      simp only [heldPipeline, hreleased, List.mem_singleton] at hmem
      exact ⟨job, hjob, hreleased, hmem.symm, h.refs job hjob hreleased⟩

theorem RegistrySound.restore (h : RegistrySound s) (e : PipelineEntry) (jobs : List KernelJob)
    (hi : i < s.pipelineCount) (hname : e.name = (s.entry i).name)
    (hpipeline : e.pipeline = (s.entry i).pipeline)
    (hactive : e.activeJobs = (jobs.flatMap heldPipeline).count (s.entry i).pipeline)
    (hothers : ∀ p, p ≠ (s.entry i).pipeline →
      (jobs.flatMap heldPipeline).count p = (inFlight s).count p)
    (hrefs : ∀ job ∈ jobs, job.releasedOn = none → Refers s job)
    (hown : ∀ job ∈ jobs, KeepsPipeline job) :
    RegistrySound { s.store ⟨s.pipelines, i⟩ e with jobs := jobs } := by
  have hnames : ∀ j, ((s.store ⟨s.pipelines, i⟩ e).entry j).name = (s.entry j).name := by
    intro j
    rw [entry_store]
    split
    · next hj => rw [hj, hname]
    · rfl
  have hpipelines : ∀ j, ((s.store ⟨s.pipelines, i⟩ e).entry j).pipeline =
      (s.entry j).pipeline := by
    intro j
    rw [entry_store]
    split
    · next hj => rw [hj, hpipeline]
    · rfl
  refine ⟨h.room, h.capacity, fun j hj => ?_, fun j hj l hl heq => ?_, fun j hj l hl heq => ?_,
    fun j hj => ?_, fun job hjob hflight => ?_, hown, fun call name j hcall => ?_⟩
  · have hfresh := h.fresh j hj
    rw [← hpipelines j] at hfresh
    exact hfresh
  · have heq' := (hpipelines j).symm.trans (heq.trans (hpipelines l))
    exact h.distinct j hj l hl heq'
  · have heq' := (hnames j).symm.trans (heq.trans (hnames l))
    exact h.names j hj l hl heq'
  · show ((s.store ⟨s.pipelines, i⟩ e).entry j).activeJobs =
      (jobs.flatMap heldPipeline).count ((s.store ⟨s.pipelines, i⟩ e).entry j).pipeline
    rw [hpipelines j, entry_store]
    by_cases hji : j = i
    · subst hji
      rw [if_pos rfl]
      exact hactive
    · rw [if_neg hji, h.counted j hj]
      exact (hothers _ fun heq => hji (h.distinct j hj i hi heq)).symm
  · obtain ⟨hblock, hindex, hacquired⟩ := hrefs job hjob hflight
    exact ⟨hblock, hindex, (hpipelines job.ref.index).trans hacquired⟩
  · obtain ⟨hlt, hcalled⟩ := h.waits call name j hcall
    exact ⟨hlt, (hnames j).trans hcalled⟩

/-! ## Jobs -/

theorem acquirePipelineRef_lt (h : s.acquirePipelineRef = some i) : i < s.pipelineCount := by
  unfold acquirePipelineRef at h
  split at h
  · next hfind =>
      cases h
      exact (findFrom_some hfind).2.1
  · exact (findFrom_some h).2.1

theorem RegistrySound.acquire (h : RegistrySound s) : RegistrySound s.acquire := by
  unfold KernelRegistry.acquire
  split
  · next i hfind =>
      have hi := acquirePipelineRef_lt hfind
      have hheld : ∀ job : KernelJob, (s.jobs ++ [job]).flatMap heldPipeline =
          inFlight s ++ heldPipeline job := by
        intro job
        rw [List.flatMap_append, List.flatMap_singleton, inFlight]
      apply h.restore { s.entry i with activeJobs := (s.entry i).activeJobs + 1 } _ hi rfl rfl
      · rw [hheld, List.count_append, ← h.counted i hi]
        simp [heldPipeline]
      · intro p hp
        rw [hheld, List.count_append]
        simp [heldPipeline, hp.symm]
      · intro job hjob hflight
        rcases List.mem_append.mp hjob with hjob | hjob
        · exact h.refs job hjob hflight
        · obtain rfl := List.mem_singleton.mp hjob
          exact ⟨rfl, hi, rfl⟩
      · intro job hjob
        rcases List.mem_append.mp hjob with hjob | hjob
        · exact h.own job hjob
        · obtain rfl := List.mem_singleton.mp hjob
          exact ⟨by simp, by simp⟩
  · exact h

theorem RegistrySound.deref (h : RegistrySound s) (hjob : s.jobs[k]? = some job)
    (hflight : job.releasedOn = none) : (s.deref job.ref).pipeline = job.acquired := by
  obtain ⟨hblock, -, hacquired⟩ := h.refs job (List.mem_of_getElem? hjob) hflight
  rw [KernelRegistry.deref, hblock]
  exact hacquired

theorem RegistrySound.execute (h : RegistrySound s) (hjob : s.jobs[k]? = some job)
    (hflight : job.releasedOn = none) : RegistrySound (s.execute k job) := by
  have hpipeline := h.deref hjob hflight
  have hmem := List.mem_of_getElem? hjob
  have hheld : ∀ p, (inFlight (s.execute k job)).count p = (inFlight s).count p := by
    intro p
    have hset := count_flatMap_set hjob heldPipeline
      { job with ranOn := some (s.deref job.ref).pipeline } p
    exact Nat.add_right_cancel hset
  refine ⟨h.room, h.capacity, h.fresh, h.distinct, h.names, fun i hi => ?_, fun x hx hxf => ?_,
    fun x hx => ?_, h.waits⟩
  · exact (h.counted i hi).trans (hheld _).symm
  · rcases List.mem_or_eq_of_mem_set hx with hx | rfl
    · exact h.refs x hx hxf
    · exact h.refs job hmem hflight
  · rcases List.mem_or_eq_of_mem_set hx with hx | rfl
    · exact h.own x hx
    · refine ⟨fun p hp => ?_, (h.own job hmem).2⟩
      cases hp
      exact hpipeline

theorem RegistrySound.release (h : RegistrySound s) (hjob : s.jobs[k]? = some job)
    (hflight : job.releasedOn = none) : RegistrySound (s.release k job) := by
  have hmem := List.mem_of_getElem? hjob
  have hpipeline := h.deref hjob hflight
  obtain ⟨hblock, hindex, hacquired⟩ := h.refs job hmem hflight
  have href : job.ref = ⟨s.pipelines, job.ref.index⟩ := by
    rw [← hblock]
  have hcount : ∀ p, ((s.jobs.set k { job with
      releasedOn := some (s.deref job.ref).pipeline }).flatMap heldPipeline).count p +
        [job.acquired].count p = (inFlight s).count p := by
    intro p
    have hset := count_flatMap_set hjob heldPipeline
      { job with releasedOn := some (s.deref job.ref).pipeline } p
    simpa [heldPipeline, hflight, inFlight] using hset
  have hderef : s.deref job.ref = s.entry job.ref.index := by
    rw [KernelRegistry.deref, hblock]
    rfl
  have hall := h.restore { s.deref job.ref with activeJobs := (s.deref job.ref).activeJobs - 1 }
    (s.jobs.set k { job with releasedOn := some (s.deref job.ref).pipeline }) hindex
    (by rw [hderef]) (by rw [hderef]) ?_ ?_ ?_ ?_
  · unfold KernelRegistry.release
    rw [href] at hall ⊢
    exact hall
  · have hone := hcount job.acquired
    have hactive : (s.deref job.ref).activeJobs = (inFlight s).count job.acquired := by
      rw [hderef, h.counted _ hindex, hacquired]
    rw [List.count_singleton_self] at hone
    rw [hacquired]
    show (s.deref job.ref).activeJobs - 1 = _
    omega
  · intro p hp
    have hnone := hcount p
    have hne : p ∉ [job.acquired] := fun hmem =>
      hp ((List.mem_singleton.mp hmem).trans hacquired.symm)
    rw [List.count_eq_zero.mpr hne] at hnone
    exact hnone
  · intro x hx hxf
    rcases List.mem_or_eq_of_mem_set hx with hx | rfl
    · exact h.refs x hx hxf
    · cases hxf
  · intro x hx
    rcases List.mem_or_eq_of_mem_set hx with hx | rfl
    · exact h.own x hx
    · refine ⟨(h.own job hmem).1, fun p hp => ?_⟩
      cases hp
      exact hpipeline

/-! ## Registrations -/

theorem RegistrySound.add (h : RegistrySound s) (hroom : s.pipelineCount < s.pipelineCapacity)
    (address : Nat) : RegistrySound (s.add call name address) := by
  unfold KernelRegistry.add
  split
  · exact h.goTo (by simp)
  · next hfind =>
      have hother : ∀ i < s.pipelineCount, (s.entry i).name ≠ name := by
        intro i hi
        simpa using findFrom_none hfind (Nat.zero_le i) hi
      have hnew : ∀ i < s.pipelineCount, (s.entry i).pipeline ≠ ⟨address, s.registrations⟩ := by
        intro i hi heq
        have hfresh := h.fresh i hi
        rw [heq] at hfresh
        exact Nat.lt_irrefl _ hfresh
      have hnone : (inFlight s).count ⟨address, s.registrations⟩ = 0 := by
        apply List.count_eq_zero.mpr
        intro hmem
        obtain ⟨job, -, -, hacquired, -, hlt, hpipeline⟩ := h.entry_of_mem hmem
        exact hnew _ hlt (hpipeline.trans hacquired)
      let e : PipelineEntry :=
        { name := name, pipeline := ⟨address, s.registrations⟩, accepting := true }
      have hentry : ∀ j, (s.store ⟨s.pipelines, s.pipelineCount⟩ e).entry j =
          if j = s.pipelineCount then e else s.entry j := fun j => entry_store e
      have hold : ∀ j < s.pipelineCount,
          (s.store ⟨s.pipelines, s.pipelineCount⟩ e).entry j = s.entry j := by
        intro j hj
        rw [hentry, if_neg (Nat.ne_of_lt hj)]
      have hlast : (s.store ⟨s.pipelines, s.pipelineCount⟩ e).entry s.pipelineCount = e := by
        rw [hentry, if_pos rfl]
      have hcases : ∀ j < s.pipelineCount + 1, j < s.pipelineCount ∨ j = s.pipelineCount :=
        fun j hj => Nat.lt_or_eq_of_le (Nat.le_of_lt_succ hj)
      refine ⟨hroom, h.capacity, fun i hi => ?_, fun i hi j hj heq => ?_, fun i hi j hj heq => ?_,
        fun i hi => ?_, fun job hjob hflight => ?_, h.own, fun k name' i hk => ?_⟩
      · show ((s.store _ e).entry i).pipeline.registration < s.registrations + 1
        rcases hcases i hi with hlt | rfl
        · rw [hold i hlt]
          exact Nat.lt_succ_of_lt (h.fresh i hlt)
        · rw [hlast]
          exact Nat.lt_succ_self _
      · have heq' : ((s.store ⟨s.pipelines, s.pipelineCount⟩ e).entry i).pipeline =
            ((s.store ⟨s.pipelines, s.pipelineCount⟩ e).entry j).pipeline := heq
        rcases hcases i hi with hi | rfl <;> rcases hcases j hj with hj | rfl
        · rw [hold i hi, hold j hj] at heq'
          exact h.distinct i hi j hj heq'
        · rw [hold i hi, hlast] at heq'
          exact absurd heq' (hnew i hi)
        · rw [hold j hj, hlast] at heq'
          exact absurd heq'.symm (hnew j hj)
        · rfl
      · have heq' : ((s.store ⟨s.pipelines, s.pipelineCount⟩ e).entry i).name =
            ((s.store ⟨s.pipelines, s.pipelineCount⟩ e).entry j).name := heq
        rcases hcases i hi with hi | rfl <;> rcases hcases j hj with hj | rfl
        · rw [hold i hi, hold j hj] at heq'
          exact h.names i hi j hj heq'
        · rw [hold i hi, hlast] at heq'
          exact absurd heq' (hother i hi)
        · rw [hold j hj, hlast] at heq'
          exact absurd heq'.symm (hother j hj)
        · rfl
      · show ((s.store ⟨s.pipelines, s.pipelineCount⟩ e).entry i).activeJobs =
          (inFlight s).count ((s.store ⟨s.pipelines, s.pipelineCount⟩ e).entry i).pipeline
        rcases hcases i hi with hi | rfl
        · rw [hold i hi]
          exact h.counted i hi
        · rw [hlast]
          exact hnone.symm
      · obtain ⟨hblock, hindex, hacquired⟩ := h.refs job hjob hflight
        refine ⟨hblock, Nat.lt_succ_of_lt hindex, ?_⟩
        show ((s.store ⟨s.pipelines, s.pipelineCount⟩ e).entry job.ref.index).pipeline = _
        rw [hold _ hindex]
        exact hacquired
      · obtain ⟨hlt, hname⟩ := h.waits_set (by simp) hk
        refine ⟨Nat.lt_succ_of_lt hlt, ?_⟩
        show ((s.store ⟨s.pipelines, s.pipelineCount⟩ e).entry i).name = name'
        rw [hold i hlt]
        exact hname

theorem RegistrySound.resized (h : RegistrySound s) {capacity : Nat}
    (hroom : s.pipelineCount < capacity) : RegistrySound { s with pipelineCapacity := capacity } :=
  ⟨Nat.le_of_lt hroom, Nat.zero_lt_of_lt hroom, h.fresh, h.distinct, h.names, h.counted, h.refs,
    h.own, h.waits⟩

theorem RegistrySound.moved (h : RegistrySound s) {capacity : Nat}
    (hroom : s.pipelineCount < capacity) (hidle : inFlight s = []) :
    RegistrySound { s with
      pipelines := s.pipelines + 1
      memory := Function.update s.memory (s.pipelines + 1) (s.memory s.pipelines)
      pipelineCapacity := capacity } := by
  refine ⟨Nat.le_of_lt hroom, Nat.zero_lt_of_lt hroom, fun i hi => ?_, fun i hi j hj heq => ?_,
    fun i hi j hj heq => ?_, fun i hi => ?_, fun job hjob hflight => ?_, h.own,
    fun call name i hcall => ?_⟩
  · simp only [entry, Function.update_self]
    exact h.fresh i hi
  · simp only [entry, Function.update_self] at heq
    exact h.distinct i hi j hj heq
  · simp only [entry, Function.update_self] at heq
    exact h.names i hi j hj heq
  · simp only [entry, Function.update_self]
    exact h.counted i hi
  · have hmem : job.acquired ∈ inFlight s := mem_inFlight hjob hflight
    rw [hidle] at hmem
    cases hmem
  · simp only [entry, Function.update_self]
    exact h.waits call name i hcall

theorem RegistrySound.idle (h : RegistrySound s)
    (hnone : ∀ i < s.pipelineCount, (s.entry i).activeJobs = 0) : inFlight s = [] := by
  apply List.eq_nil_iff_forall_not_mem.mpr
  intro p hp
  obtain ⟨job, -, -, hacquired, -, hlt, hpipeline⟩ := h.entry_of_mem hp
  have hzero := h.counted _ hlt
  rw [hnone _ hlt, hpipeline, hacquired] at hzero
  exact List.count_eq_zero.mp hzero.symm hp

theorem RegistrySound.resize (h : RegistrySound s) (address : Nat) {capacity : Nat}
    (alloc : Realloc)
    (hready : (s.findFrom i fun e => 0 < e.activeJobs) = none →
      s.pipelineCount < capacity ∧ ∀ j < s.pipelineCount, (s.entry j).activeJobs = 0) :
    RegistrySound (s.resize call name address capacity i alloc) := by
  unfold KernelRegistry.resize
  split
  · exact h.goTo (by simp)
  · next hfind =>
      obtain ⟨hroom, hnone⟩ := hready hfind
      split
      · exact h.goTo (by simp)
      · exact (h.resized hroom).add hroom address
      · exact (h.moved hroom (h.idle hnone)).add hroom address

/-! ## Removals -/

def Spared (s : KernelRegistry) (call i : Nat) : Prop :=
  (∀ job ∈ s.jobs, job.releasedOn = none → job.ref.index ≤ i) ∧
    ∀ (other : Nat) name k, other ≠ call → s.calls[other]? = some (.unregistering name k) → k < i

def Removes (s s' : KernelRegistry) (name : Bytes) : Prop :=
  ∃ (i : Nat) (e : PipelineEntry), s.entries[i]? = some e ∧ e.name = name ∧
    s'.entries = s.entries.eraseIdx i ∧ e.pipeline ∉ inFlight s

theorem entries_get : s.entries[i]? = if i < s.pipelineCount then some (s.entry i) else none := by
  unfold entries
  split
  · next hi => simp [hi]
  · next hi => simp [hi]

def before (i j : Nat) : Nat := if j < i then j else j + 1

theorem before_inj (h : before i j = before i k) : j = k := by
  unfold before at h
  split at h <;> split at h <;> omega

theorem entry_removeAt (hstep : s.removeAt call i = some s') (hj : j < s'.pipelineCount) :
    s'.entry j = s.entry (before i j) := by
  unfold removeAt at hstep
  split at hstep
  · cases hstep
  · cases hstep
    have hj' : j < s.pipelineCount - 1 := hj
    simp only [entry, Function.update_self, before]
    by_cases hij : i ≤ j
    · rw [if_pos ⟨hij, hj'⟩, if_neg (Nat.not_lt_of_le hij)]
    · rw [if_neg fun hand => hij hand.1, if_pos (Nat.lt_of_not_le hij)]

structure Removed (s s' : KernelRegistry) (call : Nat) : Prop where
  pipelines : s'.pipelines = s.pipelines
  count : s'.pipelineCount = s.pipelineCount - 1
  capacity : s'.pipelineCapacity = s.pipelineCapacity
  registrations : s'.registrations = s.registrations
  calls : s'.calls = s.calls.set call (.returned 0)
  jobs : s'.jobs = s.jobs

theorem removeAt_spec (hstep : s.removeAt call i = some s') :
    0 < s.pipelineCount ∧ Removed s s' call := by
  unfold removeAt at hstep
  split at hstep
  · cases hstep
  · next hpos =>
      cases hstep
      exact ⟨Nat.pos_of_ne_zero hpos, rfl, rfl, rfl, rfl, rfl, rfl⟩

theorem RegistrySound.remove (h : RegistrySound s) (hi : i < s.pipelineCount)
    (hidle : (s.entry i).activeJobs = 0) (hspared : Spared s call i)
    (hstep : s.removeAt call i = some s') : RegistrySound s' := by
  obtain ⟨hpos, hremoved⟩ := removeAt_spec hstep
  have hflight : inFlight s' = inFlight s := by
    rw [inFlight, hremoved.jobs, inFlight]
  have hentry : ∀ j < s'.pipelineCount,
      before i j < s.pipelineCount ∧ s'.entry j = s.entry (before i j) := by
    intro j hj
    refine ⟨?_, entry_removeAt hstep hj⟩
    rw [hremoved.count] at hj
    unfold before
    split <;> omega
  have hbefore : ∀ k < i, k < s'.pipelineCount ∧ before i k = k := by
    intro k hk
    rw [hremoved.count]
    exact ⟨by omega, if_pos hk⟩
  refine ⟨?_, ?_, fun j hj => ?_, fun j hj l hl heq => ?_, fun j hj l hl heq => ?_,
    fun j hj => ?_, fun job hjob hjobFlight => ?_, ?_, fun other name k hother => ?_⟩
  · rw [hremoved.count, hremoved.capacity]
    exact Nat.le_trans (Nat.sub_le _ _) h.room
  · rw [hremoved.capacity]
    exact h.capacity
  · rw [(hentry j hj).2, hremoved.registrations]
    exact h.fresh _ (hentry j hj).1
  · rw [(hentry j hj).2, (hentry l hl).2] at heq
    exact before_inj (h.distinct _ (hentry j hj).1 _ (hentry l hl).1 heq)
  · rw [(hentry j hj).2, (hentry l hl).2] at heq
    exact before_inj (h.names _ (hentry j hj).1 _ (hentry l hl).1 heq)
  · rw [(hentry j hj).2, hflight]
    exact h.counted _ (hentry j hj).1
  · rw [hremoved.jobs] at hjob
    obtain ⟨hblock, hindex, hacquired⟩ := h.refs job hjob hjobFlight
    have hle := hspared.1 job hjob hjobFlight
    have hne : job.ref.index ≠ i := by
      intro heq
      rw [heq] at hacquired
      have hcount := h.counted i hi
      rw [hidle, hacquired] at hcount
      exact List.count_eq_zero.mp hcount.symm (mem_inFlight hjob hjobFlight)
    obtain ⟨hlt, hsame⟩ := hbefore job.ref.index (by omega)
    refine ⟨hblock.trans hremoved.pipelines.symm, hlt, ?_⟩
    rw [(hentry _ hlt).2, hsame]
    exact hacquired
  · rw [hremoved.jobs]
    exact h.own
  · rw [hremoved.calls] at hother
    by_cases hne : other = call
    · subst hne
      obtain ⟨hlt, heq⟩ := List.getElem?_eq_some_iff.mp hother
      rw [List.getElem_set_self] at heq
      cases heq
    · rw [get_set_ne hne] at hother
      obtain ⟨hlt, hsame⟩ := hbefore k (hspared.2 other name k hne hother)
      rw [(hentry _ hlt).2, hsame]
      exact ⟨hlt, (h.waits other name k hother).2⟩

theorem RegistrySound.removes (h : RegistrySound s) (hi : i < s.pipelineCount)
    (hidle : (s.entry i).activeJobs = 0) (hstep : s.removeAt call i = some s') :
    s'.entries = s.entries.eraseIdx i ∧ (s.entry i).pipeline ∉ inFlight s := by
  obtain ⟨hpos, hremoved⟩ := removeAt_spec hstep
  refine ⟨?_, ?_⟩
  · apply List.ext_getElem?
    intro j
    rw [List.getElem?_eraseIdx, entries_get, entries_get, entries_get, hremoved.count]
    by_cases hj : j < s.pipelineCount - 1
    · rw [if_pos hj, entry_removeAt hstep (by rw [hremoved.count]; exact hj), before]
      split
      · rw [if_pos (by omega)]
      · rw [if_pos (by omega)]
    · rw [if_neg hj]
      split
      · omega
      · rw [if_neg (by omega)]
  · apply List.count_eq_zero.mp
    rw [← h.counted i hi, hidle]

/-! ## What a step does to the array -/

def registeredNames (s : KernelRegistry) : List Bytes := s.entries.map (·.name)

def Unregisters (s : KernelRegistry) (call : Nat) (name : Bytes) : Prop :=
  s.calls[call]? = some (.unregister name) ∨ ∃ i, s.calls[call]? = some (.unregistering name i)

/-- What the claims on the array say about one step: it moves only when no job
is in flight, an unregistration that succeeds removes the entry with its name,
and otherwise the entries stay. -/
structure KeptBy (s s' : KernelRegistry) : Prop where
  moved : s'.pipelines ≠ s.pipelines → inFlight s = []
  removes : ∀ (call : Nat) name, Unregisters s call name →
    s'.calls[call]? = some (.returned 0) → Removes s s' name
  keeps : (∃ (call : Nat) (name : Bytes), Unregisters s call name ∧
    s'.calls[call]? = some (.returned 0)) ∨ registeredNames s <+: registeredNames s'

theorem Unregisters.not_returned (h : Unregisters s call name) :
    s.calls[call]? ≠ some (.returned 0) := by
  rcases h with h | ⟨i, h⟩ <;> rw [h] <;> simp

theorem returned_of_set (hu : Unregisters s call name) (hcalls : s'.calls = s.calls.set k new)
    (hret : s'.calls[call]? = some (.returned 0)) : call = k ∧ new = .returned 0 := by
  rw [hcalls] at hret
  by_cases hne : call = k
  · subst hne
    obtain ⟨hlt, heq⟩ := List.getElem?_eq_some_iff.mp hret
    rw [List.getElem_set_self] at heq
    exact ⟨rfl, heq⟩
  · rw [get_set_ne hne] at hret
    exact absurd hret hu.not_returned

theorem KeptBy.of_calls (hmoved : s'.pipelines ≠ s.pipelines → inFlight s = [])
    (hcalls : s'.calls = s.calls) (hnames : registeredNames s' = registeredNames s) :
    KeptBy s s' :=
  ⟨hmoved, fun _ _ hu hret => absurd (hcalls ▸ hret) hu.not_returned,
    Or.inr (hnames ▸ List.prefix_refl _)⟩

theorem KeptBy.of_begin (s : KernelRegistry) (new : RegistryCallAt) : KeptBy s (s.begin new) := by
  refine ⟨fun hne => absurd rfl hne, fun call name hu hret => ?_, Or.inr (List.prefix_refl _)⟩
  have hlt : call < s.calls.length := by
    rcases hu with hu | ⟨i, hu⟩ <;> exact (List.getElem?_eq_some_iff.mp hu).1
  have hret' : (s.calls ++ [new])[call]? = some (.returned 0) := hret
  rw [List.getElem?_append_left hlt] at hret'
  exact absurd hret' hu.not_returned

theorem entries_store (e : PipelineEntry) :
    (s.store ⟨s.pipelines, i⟩ e).entries = s.entries.set i e := by
  apply List.ext_getElem?
  intro j
  have hlen : s.entries.length = s.pipelineCount := by simp [entries]
  rw [List.getElem?_set, entries_get, entries_get, entry_store, hlen]
  have hcount : (s.store ⟨s.pipelines, i⟩ e).pipelineCount = s.pipelineCount := rfl
  rw [hcount]
  by_cases hji : j = i
  · subst hji
    simp
  · rw [if_neg hji, if_neg (Ne.symm hji)]

theorem registeredNames_store {e : PipelineEntry} (hname : e.name = (s.entry i).name) :
    registeredNames (s.store ⟨s.pipelines, i⟩ e) = registeredNames s := by
  rw [registeredNames, entries_store, List.map_set, registeredNames]
  apply List.ext_getElem?
  intro j
  rw [List.getElem?_set, List.length_map, List.getElem?_map, entries_get]
  split
  · next hij =>
      subst hij
      simp [entries, hname]
  · rfl

structure Registers (s s' : KernelRegistry) (call : Nat) : Prop where
  moved : s'.pipelines ≠ s.pipelines → inFlight s = []
  calls : ∃ new, s'.calls = s.calls.set call new
  names : registeredNames s <+: registeredNames s'

theorem Registers.kept (h : Registers s s' call) {place : RegistryCallAt}
    (hcall : s.calls[call]? = some place) (hplace : ∀ name, place ≠ .unregister name)
    (hwait : ∀ name i, place ≠ .unregistering name i) : KeptBy s s' := by
  refine ⟨h.moved, fun k name hu hret => ?_, Or.inr h.names⟩
  obtain ⟨new, hcalls⟩ := h.calls
  obtain ⟨rfl, -⟩ := returned_of_set hu hcalls hret
  rcases hu with hu | ⟨i, hu⟩
  · exact absurd (Option.some.inj (hcall.symm.trans hu)) (hplace name)
  · exact absurd (Option.some.inj (hcall.symm.trans hu)) (hwait name i)

theorem add_registers (s : KernelRegistry) (call : Nat) (name : Bytes) (address : Nat) :
    Registers s (s.add call name address) call := by
  unfold KernelRegistry.add
  split
  · exact ⟨fun hne => absurd rfl hne, ⟨_, rfl⟩, List.prefix_refl _⟩
  · refine ⟨fun hne => absurd rfl hne, ⟨_, rfl⟩, ?_⟩
    let e : PipelineEntry :=
      { name := name, pipeline := ⟨address, s.registrations⟩, accepting := true }
    have hentries : (List.range (s.pipelineCount + 1)).map
        (s.store ⟨s.pipelines, s.pipelineCount⟩ e).entry = s.entries ++ [e] := by
      rw [List.range_succ, List.map_append, List.map_singleton, entry_store, if_pos rfl, entries]
      congr 1
      apply List.map_congr_left
      intro j hj
      rw [entry_store, if_neg (Nat.ne_of_lt (List.mem_range.mp hj))]
    show (s.entries.map _) <+: ((List.range (s.pipelineCount + 1)).map
      (s.store ⟨s.pipelines, s.pipelineCount⟩ e).entry).map _
    rw [hentries, List.map_append]
    exact List.prefix_append _ _

theorem RegistrySound.resize_registers (h : RegistrySound s) (address capacity : Nat)
    (alloc : Realloc)
    (hready : (s.findFrom i fun e => 0 < e.activeJobs) = none →
      ∀ j < s.pipelineCount, (s.entry j).activeJobs = 0) :
    Registers s (s.resize call name address capacity i alloc) call := by
  unfold KernelRegistry.resize
  split
  · exact ⟨fun hne => absurd rfl hne, ⟨_, rfl⟩, List.prefix_refl _⟩
  · next hfind =>
      split
      · exact ⟨fun hne => absurd rfl hne, ⟨_, rfl⟩, List.prefix_refl _⟩
      · obtain ⟨hmoved, hcalls, hnames⟩ := add_registers
          { s with pipelineCapacity := capacity } call name address
        exact ⟨hmoved, hcalls, hnames⟩
      · obtain ⟨-, hcalls, hnames⟩ := add_registers { s with
          pipelines := s.pipelines + 1
          memory := Function.update s.memory (s.pipelines + 1) (s.memory s.pipelines)
          pipelineCapacity := capacity } call name address
        refine ⟨fun _ => h.idle (hready hfind), hcalls, ?_⟩
        have hsame : registeredNames { s with
            pipelines := s.pipelines + 1
            memory := Function.update s.memory (s.pipelines + 1) (s.memory s.pipelines)
            pipelineCapacity := capacity } = registeredNames s := by
          simp [registeredNames, entries, entry]
        rw [hsame] at hnames
        exact hnames

theorem RegistrySound.awaitJobs (h : RegistrySound s) (hi : i < s.pipelineCount)
    (hname : (s.entry i).name = name) (hspared : (s.entry i).activeJobs = 0 → Spared s call i)
    (hstep : s.awaitJobs call name i = some s') :
    RegistrySound s' ∧ s'.pipelines = s.pipelines ∧
      (s' = s.goTo call (.unregistering name i) ∨
        s'.calls = s.calls.set call (.returned 0) ∧ s'.entries = s.entries.eraseIdx i ∧
          (s.entry i).pipeline ∉ inFlight s) := by
  unfold KernelRegistry.awaitJobs at hstep
  split at hstep
  · cases hstep
    refine ⟨h.goTo fun name' j hnew => ?_, rfl, Or.inl rfl⟩
    cases hnew
    exact ⟨hi, hname⟩
  · next hidle =>
      have hzero := Nat.eq_zero_of_not_pos hidle
      obtain ⟨-, hremoved⟩ := removeAt_spec hstep
      exact ⟨h.remove hi hzero (hspared hzero) hstep, hremoved.pipelines,
        Or.inr ⟨hremoved.calls, h.removes hi hzero hstep⟩⟩

theorem kept_of_await (hname : (s.entry i).name = name) (hi : i < s.pipelineCount)
    (hcall : Unregisters s call name) (hpipelines : s'.pipelines = s.pipelines)
    (hcases : (s'.calls = s.calls.set call (.unregistering name i) ∧
        registeredNames s' = registeredNames s) ∨
      s'.calls = s.calls.set call (.returned 0) ∧ s'.entries = s.entries.eraseIdx i ∧
        (s.entry i).pipeline ∉ inFlight s) : KeptBy s s' := by
  refine ⟨fun hne => absurd hpipelines hne, fun k name' hu hret => ?_, ?_⟩
  · rcases hcases with ⟨hcalls, -⟩ | ⟨hcalls, hentries, hidle⟩
    · obtain ⟨-, hnew⟩ := returned_of_set hu hcalls hret
      cases hnew
    · obtain ⟨rfl, -⟩ := returned_of_set hu hcalls hret
      have hsame : name' = name := by
        rcases hcall with hcall | ⟨j, hcall⟩ <;> rcases hu with hu | ⟨l, hu⟩ <;>
          · rw [hcall] at hu
            cases hu
            try rfl
      exact ⟨i, s.entry i, by rw [entries_get, if_pos hi], hname.trans hsame.symm, hentries, hidle⟩
  · rcases hcases with ⟨-, hnames⟩ | ⟨hcalls, -⟩
    · exact Or.inr (hnames ▸ List.prefix_refl _)
    · have hlt : call < s.calls.length := by
        rcases hcall with hcall | ⟨j, hcall⟩ <;> exact (List.getElem?_eq_some_iff.mp hcall).1
      exact Or.inl ⟨call, name, hcall, by rw [hcalls, List.getElem?_set_self hlt]⟩

/-! ## Runs -/

/-- An unregistration removes an entry only from behind the references and the
waits, and a registration that has waited resizes the array only when no entry
has active jobs, to a capacity that is large enough. -/
def KeepsRefs (s : KernelRegistry) : RegistryEvent → Prop
  | .unregister call => ∀ name i, s.calls[call]? = some (.unregister name) →
      (s.findFrom 0 fun e => e.name = name) = some i → (s.entry i).activeJobs = 0 →
        Spared s call i
  | .wake call _ =>
      (∀ name i, s.calls[call]? = some (.unregistering name i) → (s.entry i).activeJobs = 0 →
        Spared s call i) ∧
      ∀ name address capacity i, s.calls[call]? = some (.resizing name address capacity i) →
        (s.findFrom i fun e => 0 < e.activeJobs) = none →
          s.pipelineCount < capacity ∧ ∀ j < s.pipelineCount, (s.entry j).activeJobs = 0
  | _ => True

theorem RegistrySound.unregister (h : RegistrySound s)
    (hcall : s.calls[call]? = some (.unregister name))
    (hspared : ∀ i, (s.findFrom 0 fun e => e.name = name) = some i →
      (s.entry i).activeJobs = 0 → Spared s call i)
    (hstep : s.unregister call name = some s') : RegistrySound s' ∧ KeptBy s s' := by
  unfold KernelRegistry.unregister at hstep
  split at hstep
  · next i hfind =>
      obtain ⟨-, hi, hmatch⟩ := findFrom_some hfind
      have hname : (s.entry i).name = name := by simpa using hmatch
      let t := s.store ⟨s.pipelines, i⟩ { s.entry i with accepting := false }
      have ht : RegistrySound t :=
        h.restore { s.entry i with accepting := false } s.jobs hi rfl rfl (h.counted i hi)
          (fun _ _ => rfl) h.refs h.own
      have hentry : t.entry i = { s.entry i with accepting := false } := by
        rw [entry_store, if_pos rfl]
      have hactive : (t.entry i).activeJobs = (s.entry i).activeJobs := by rw [hentry]
      obtain ⟨hs', hpipelines, hcases⟩ := ht.awaitJobs hi (by rw [hentry]; exact hname)
        (fun hzero => hspared i hfind (hactive.symm.trans hzero)) hstep
      refine ⟨hs', kept_of_await hname hi (Or.inl hcall) hpipelines ?_⟩
      rcases hcases with rfl | ⟨hcalls, hentries, hidle⟩
      · have hnames : registeredNames t = registeredNames s := registeredNames_store rfl
        exact Or.inl ⟨rfl, hnames⟩
      · rw [entries_store, List.eraseIdx_set_eq] at hentries
        rw [hentry] at hidle
        exact Or.inr ⟨hcalls, hentries, hidle⟩
  · cases hstep
    refine ⟨h.goTo (by simp), fun hne => absurd rfl hne, fun k name' hu hret => ?_,
      Or.inr (List.prefix_refl _)⟩
    have hnew : RegistryCallAt.returned (-1) = .returned 0 := (returned_of_set hu rfl hret).2
    cases hnew

/-- **One step.** -/
theorem RegistrySound.step (h : RegistrySound s) {e : RegistryEvent} (hkeeps : KeepsRefs s e)
    (hstep : s.step e = some s') : RegistrySound s' ∧ KeptBy s s' := by
  cases e with
  | callRegister name address =>
      cases hstep
      exact ⟨h.begin (by simp), .of_begin s _⟩
  | callUnregister name =>
      cases hstep
      exact ⟨h.begin (by simp), .of_begin s _⟩
  | register call alloc =>
      simp only [KernelRegistry.step] at hstep
      split at hstep
      · next name address hcall =>
          cases hstep
          unfold KernelRegistry.register
          split
          · next hfull =>
              -- the scan from the first entry has seen them all
              have hready : (s.findFrom 0 fun e => 0 < e.activeJobs) = none →
                  ∀ j < s.pipelineCount, (s.entry j).activeJobs = 0 := by
                intro hnone j hj
                simpa using findFrom_none hnone (Nat.zero_le j) hj
              have hroom : s.pipelineCount < s.pipelineCapacity * 2 := by
                have hle := h.room
                have hpos := h.capacity
                omega
              exact ⟨h.resize address alloc fun hnone => ⟨hroom, hready hnone⟩,
                (h.resize_registers address _ alloc hready).kept hcall (by simp) (by simp)⟩
          · next hroom =>
              exact ⟨h.add (Nat.lt_of_not_le hroom) address,
                (add_registers s _ _ address).kept hcall (by simp) (by simp)⟩
      · cases hstep
  | unregister call =>
      simp only [KernelRegistry.step] at hstep
      split at hstep
      · next name hcall => exact h.unregister hcall (fun i => hkeeps name i hcall) hstep
      · cases hstep
  | wake call alloc =>
      simp only [KernelRegistry.step] at hstep
      split at hstep
      · next name address capacity i hcall =>
          cases hstep
          have hready := hkeeps.2 name address capacity i hcall
          exact ⟨h.resize address alloc hready, (h.resize_registers address _ alloc
            fun hnone => (hready hnone).2).kept hcall (by simp) (by simp)⟩
      · next name i hcall =>
          obtain ⟨hi, hname⟩ := h.waits call name i hcall
          obtain ⟨hs', hpipelines, hcases⟩ := h.awaitJobs hi hname (hkeeps.1 name i hcall) hstep
          refine ⟨hs', kept_of_await hname hi (Or.inr ⟨i, hcall⟩) hpipelines ?_⟩
          rcases hcases with rfl | hremoved
          · exact Or.inl ⟨rfl, rfl⟩
          · exact Or.inr hremoved
      · cases hstep
  | acquire =>
      cases hstep
      refine ⟨h.acquire, ?_⟩
      unfold KernelRegistry.acquire
      split
      · next i _ =>
          have hnames : registeredNames (s.store ⟨s.pipelines, i⟩
              { s.entry i with activeJobs := (s.entry i).activeJobs + 1 }) = registeredNames s :=
            registeredNames_store rfl
          exact .of_calls (fun hne => absurd rfl hne) rfl hnames
      · exact .of_calls (fun hne => absurd rfl hne) rfl rfl
  | execute k =>
      simp only [KernelRegistry.step] at hstep
      split at hstep
      · next job hjob =>
          split at hstep
          · next hflight =>
              cases hstep
              exact ⟨h.execute hjob hflight.2,
                .of_calls (fun hne => absurd rfl hne) rfl rfl⟩
          · cases hstep
      · cases hstep
  | release k =>
      simp only [KernelRegistry.step] at hstep
      split at hstep
      · next job hjob =>
          split at hstep
          · next hflight =>
              cases hstep
              refine ⟨h.release hjob hflight, ?_⟩
              obtain ⟨hblock, -, -⟩ := h.refs job (List.mem_of_getElem? hjob) hflight
              have href : job.ref = ⟨s.pipelines, job.ref.index⟩ := by rw [← hblock]
              have hderef : s.deref job.ref = s.entry job.ref.index := by
                rw [KernelRegistry.deref, hblock, entry]
              have hnames : registeredNames (s.store ⟨s.pipelines, job.ref.index⟩
                  { s.deref job.ref with activeJobs := (s.deref job.ref).activeJobs - 1 }) =
                    registeredNames s :=
                registeredNames_store (show (s.deref job.ref).name = _ by rw [hderef])
              rw [← href] at hnames
              exact .of_calls (fun hne => absurd rfl hne) rfl hnames
          · cases hstep
      · cases hstep

/-- What the registry keeps in every state: the active jobs of each entry are
the jobs in flight that acquired it, and a job refers to, runs on and releases
what it acquired. -/
structure RefsKept (s : KernelRegistry) : Prop where
  counted : ∀ e ∈ s.entries, e.activeJobs = (inFlight s).count e.pipeline
  names : (registeredNames s).Nodup
  refs : ∀ job ∈ s.jobs, job.releasedOn = none → Refers s job
  own : ∀ job ∈ s.jobs, KeepsPipeline job

theorem RegistrySound.refsKept (h : RegistrySound s) : RefsKept s := by
  refine ⟨fun e he => ?_, ?_, h.refs, h.own⟩
  · obtain ⟨i, hi, rfl⟩ := List.mem_map.mp he
    exact h.counted i (List.mem_range.mp hi)
  · rw [registeredNames, entries, List.map_map]
    apply List.Nodup.map_on _ List.nodup_range
    intro i hi j hj heq
    exact h.names i (List.mem_range.mp hi) j (List.mem_range.mp hj) heq

/-- **References to pipelines.**  In every run whose steps keep the references
the counts and the references are right in every state, and every further step
keeps the array. -/
theorem pipeline_refs_kept (h : kernelRegistry.ReachableMeeting KeepsRefs s) :
    RefsKept s ∧ ∀ e s', KeepsRefs s e → kernelRegistry.step s e = some s' → KeptBy s s' := by
  have hsound : RegistrySound s := by
    apply h.invariant (I := RegistrySound) registrySound_init
    intro s e s' hs hkeeps hstep
    exact (hs.step hkeeps hstep).1
  exact ⟨hsound.refsKept, fun e s' hkeeps hstep => (hsound.step hkeeps hstep).2⟩

def acquireRun : List RegistryEvent :=
  [.callRegister (ascii "default") 1, .register 0 .failed, .acquire]

theorem pipeline_refs_kept_one_job :
    ∃ s, kernelRegistry.run {} acquireRun = some s ∧ RefsKept s := by
  obtain ⟨s, hrun⟩ : ∃ s, kernelRegistry.run {} acquireRun = some s := ⟨_, rfl⟩
  have hmeets : kernelRegistry.RunMeets KeepsRefs {} acquireRun :=
    Machine.RunMeets.of_forall (by simp [acquireRun, KeepsRefs])
  exact ⟨s, hrun, (pipeline_refs_kept (Machine.ReachableMeeting.run (.init _ _) hmeets hrun)).1⟩

def staleRun : List RegistryEvent :=
  [.callRegister (ascii "a") 1, .register 0 .failed,
    .callRegister (ascii "default") 2, .register 1 .failed, .acquire,
    .callUnregister (ascii "a"), .unregister 2,
    .callRegister (ascii "c") 3, .register 3 .failed, .execute 0]

/-- The job runs on the third pipeline. -/
theorem job_runs_on_other_pipeline :
    ∃ s, kernelRegistry.Reachable s ∧ s.jobs.map (fun job => (job.acquired, job.ranOn)) =
      [(⟨2, 1⟩, some ⟨3, 2⟩)] ∧ ¬ ∀ job ∈ s.jobs, KeepsPipeline job := by
  refine ⟨_, Machine.reachable_of_run staleRun rfl, by decide, fun hkeeps => ?_⟩
  have hran := (hkeeps ⟨⟨0, 1⟩, ⟨2, 1⟩, some ⟨3, 2⟩, none⟩ List.mem_cons_self).1 _ rfl
  exact absurd hran (by decide)

end BlessStar.Runtime.Proofs.PipelineRefs
