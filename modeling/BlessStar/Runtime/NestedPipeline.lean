import BlessStar.Runtime.Executor
import BlessStar.Runtime.Report

/-!
# Nested pipeline runs

`bs_kernel_execute` on a kernel with one pipeline: the executor runs
`kernel_execute_with_ref`, and the callbacks of the stages may call
`bs_kernel_execute` again, up to the inline depth.  A callback is any program
that ends; other threads may change the flags of the kernel at any time.
-/

namespace BlessStar.Runtime

open Lib.ByteString

inductive StageState
  | idle
  | running
  | success
  | failed
  | skipped
  deriving DecidableEq

/-- `BS_KERNEL_EXEC_INLINE_DEPTH_MAX`. -/
def execInlineDepthMax : Nat := 2

/-- What `bs_kernel_execute` asks the kernel and the entry of its pipeline. -/
structure KernelFlags where
  state : KernelState := .running
  accepting : Bool := true
  execStopRequested : Bool := false
  execThreadStarted : Bool := true
  execCancelRequested : Bool := false

def KernelFlags.acquires (f : KernelFlags) : Bool := decide (f.state = .running) && f.accepting

/-- The callback of a stage: it ends with its result and what it wrote to `output`, reads or
writes the memory that callbacks share, is overtaken by another thread, or executes. -/
inductive StageCallback (σ ι : Type)
  | ends (result : Int) (output : Option (Option ι))
  | read (next : σ → StageCallback σ ι)
  | write (context : σ) (next : StageCallback σ ι)
  | meanwhile (flags : KernelFlags) (next : StageCallback σ ι)
  | execute (ir : ι) (next : Option Report → StageCallback σ ι)

structure Stage (σ ι : Type) where
  name : Bytes
  dependencyCount : Nat := 0
  execute : Option (ι → StageCallback σ ι)

/-- A call of the function of a stage; `nested` says of every execution made from it at which
stage that failed, if at any. -/
structure StageCall (ι : Type) where
  stage : Nat
  input : ι
  output : Option (Option ι)
  nested : List (Option Nat)

/-- One `bs_pipeline_execute`, with the calls it made itself. -/
structure Execution (ι : Type) where
  ir : ι
  calls : List (StageCall ι)
  failedAt : Option Nat
  report : Report

/-- What `kernel_execute_with_ref` returns. -/
def Execution.returned {ι : Type} (e : Execution ι) : Option Report :=
  if e.failedAt.isNone then some e.report else none

structure KernelRun (σ ι : Type) where
  context : σ
  flags : KernelFlags := {}
  stageState : Nat → StageState := fun _ => .idle
  executionCount : Nat := 0
  executions : List (Execution ι) := []

variable {σ ι : Type}

def KernelRun.setState (w : KernelRun σ ι) (k : Nat) (state : StageState) : KernelRun σ ι :=
  { w with stageState := Function.update w.stageState k state }

@[simp] theorem KernelRun.setState_self (w : KernelRun σ ι) (k : Nat) (state : StageState) :
    (w.setState k state).stageState k = state := Function.update_self ..

theorem KernelRun.setState_of_ne (w : KernelRun σ ι) (state : StageState) {j k : Nat}
    (h : j ≠ k) : (w.setState k state).stageState j = w.stageState j := Function.update_of_ne h ..

def KernelRun.reset (w : KernelRun σ ι) : KernelRun σ ι := { w with stageState := fun _ => .idle }

/-- `bs_stage_is_ready`. -/
def KernelRun.isReady (w : KernelRun σ ι) (k : Nat) (stage : Stage σ ι) : Bool :=
  if stage.dependencyCount = 0 then decide (w.stageState k = .idle) else false

structure CallbackEnd (σ ι : Type) where
  run : KernelRun σ ι
  result : Int
  output : Option (Option ι)
  nested : List (Option Nat) := []

/-- The loop of `bs_pipeline_execute` at its end. -/
structure PipelineEnd (σ ι : Type) where
  run : KernelRun σ ι
  report : Report
  calls : List (StageCall ι) := []
  failedAt : Option Nat := none

/-- What an inner `bs_kernel_execute` does. -/
abbrev InnerExecute (σ ι : Type) := KernelRun σ ι → ι → KernelRun σ ι × Option (Execution ι)

section Loop

variable (exec : InnerExecute σ ι)

def runCallback : StageCallback σ ι → KernelRun σ ι → CallbackEnd σ ι
  | .ends result output, w => { run := w, result, output }
  | .read next, w => runCallback (next w.context) w
  | .write context next, w => runCallback next { w with context }
  | .meanwhile flags next, w => runCallback next { w with flags }
  | .execute ir next, w =>
      let inner := exec w ir
      let r := runCallback (next (inner.2.bind Execution.returned)) inner.1
      { r with nested := (inner.2.map Execution.failedAt).toList ++ r.nested }

/-- The loop of `bs_pipeline_execute` from stage `k` on, `output` being `stage_output`. -/
def runStages : List (Stage σ ι) → Nat → ι → Option ι → Report → KernelRun σ ι → PipelineEnd σ ι
  | [], _, _, _, report, w => { run := w, report }
  | stage :: stages, k, current, output, report, w =>
      if w.isReady k stage then
        let started := reportAddInfo report stage.name (ascii "Executing stage")
        let failed := reportAddError started stage.name (ascii "Stage execution failed")
        match stage.execute with
        | none =>
            { run := (w.setState k .running).setState k .failed, report := failed
              failedAt := some k }
        | some execute =>
            let r := runCallback exec (execute current) (w.setState k .running)
            let call := { stage := k, input := current, output := r.output, nested := r.nested }
            if r.result ≠ 0 then
              { run := r.run.setState k .failed, report := failed, calls := [call]
                failedAt := some k }
            else
              let output := r.output.getD output
              let rest := runStages stages (k + 1) (output.getD current) output
                (reportAddInfo started stage.name (ascii "Stage completed successfully"))
                (r.run.setState k .success)
              { rest with calls := call :: rest.calls }
      else
        runStages stages (k + 1) current output
          (reportAddWarn report stage.name (ascii "Stage not ready, skipping"))
          (w.setState k .skipped)

/-- `kernel_execute_with_ref`. -/
def executeWithRef (stages : List (Stage σ ι)) (w : KernelRun σ ι) (ir : ι) :
    KernelRun σ ι × Option (Execution ι) :=
  if w.flags.execCancelRequested then (w, none)
  else
    let r := runStages exec stages 0 ir none (reportCreate (ascii "pipeline_execution")) w.reset
    let e := { ir, calls := r.calls, failedAt := r.failedAt, report := r.report }
    ({ r.run with
        executionCount := r.run.executionCount + (if r.failedAt.isNone then 1 else 0)
        executions := r.run.executions ++ [e] }, some e)

end Loop

/-- `bs_kernel_execute` on the thread of the executor, with `left` more executions allowed
one in another. -/
def inlineExecute (stages : List (Stage σ ι)) : Nat → InnerExecute σ ι
  | 0 => fun w _ => (w, none)
  | left + 1 => fun w ir =>
      if w.flags.acquires then executeWithRef (inlineExecute stages left) stages w ir
      else (w, none)

/-- `bs_kernel_execute` on any other thread. -/
def kernelExecute (stages : List (Stage σ ι)) : InnerExecute σ ι := fun w ir =>
  if !w.flags.acquires || w.flags.execStopRequested || !w.flags.execThreadStarted then (w, none)
  else executeWithRef (inlineExecute stages (execInlineDepthMax - 1)) stages w ir

/-- Any number of such calls, with any flags and memory before each. -/
def kernelExecutes (stages : List (Stage σ ι)) (w : KernelRun σ ι) :
    List (KernelFlags × σ × ι) → KernelRun σ ι
  | [] => w
  | (flags, context, ir) :: calls =>
      kernelExecutes stages (kernelExecute stages { w with flags, context } ir).1 calls

def InputsFrom : ι → List (StageCall ι) → Prop
  | _, [] => True
  | current, c :: calls =>
      c.input = current ∧ InputsFrom (c.output.join.getD current) calls

/-- The functions of `n` stages were called in order, each once. -/
def RanInOrder (n : Nat) (e : Execution ι) : Prop :=
  e.calls.map (·.stage) = List.range n ∧ InputsFrom e.ir e.calls

def StaysBehind (c : StageCall ι) : Prop :=
  ∀ stop ∈ c.nested.getLast?, ∃ k ∈ stop, k ≤ c.stage

def NestsBehind (n : Nat) (e : Execution ι) : Prop :=
  ∀ c ∈ e.calls, c.stage + 1 < n → StaysBehind c

def Exact (n : Nat) (e : Execution ι) : Prop :=
  e.failedAt = none → (RanInOrder n e ↔ NestsBehind n e)

/-- The states behind an execution of `n` stages that were all ready. -/
def stoppedStates (n : Nat) : Option Nat → Nat → StageState
  | none, j => if j < n then .success else .idle
  | some k, j => if j < k then .success else if j = k then .failed else .idle

theorem stoppedStates_idle {n j : Nat} (stop : Option Nat) (hj : j < n) :
    stoppedStates n stop j = .idle ↔ ∃ k ∈ stop, k < j := by
  cases stop with
  | none => simp [stoppedStates, hj]
  | some k =>
      simp only [stoppedStates, Option.mem_some_iff, exists_eq_left']
      split_ifs <;> simp <;> omega

structure InnerSound (n : Nat) (exec : InnerExecute σ ι) : Prop where
  refused : ∀ w ir, (exec w ir).2 = none → (exec w ir).1 = w
  states : ∀ w ir, ∀ e ∈ (exec w ir).2, (exec w ir).1.stageState = stoppedStates n e.failedAt
  exact : ∀ w ir, (∀ e ∈ w.executions, Exact n e) → ∀ e ∈ (exec w ir).1.executions, Exact n e

variable {n : Nat} {exec : InnerExecute σ ι}

theorem runCallback_states (hexec : InnerSound n exec) (c : StageCallback σ ι)
    (w : KernelRun σ ι) :
    (runCallback exec c w).run.stageState =
      (runCallback exec c w).nested.getLast?.elim w.stageState (stoppedStates n) := by
  induction c generalizing w with
  | ends result output => rfl
  | read next ih => exact ih w.context w
  | write context next ih => exact ih { w with context }
  | meanwhile flags next ih => exact ih { w with flags }
  | execute ir next ih =>
      have hnext := ih ((exec w ir).2.bind Execution.returned) (exec w ir).1
      simp only [runCallback]
      rw [hnext]
      cases hran : (exec w ir).2 with
      | none => simp [hexec.refused w ir hran]
      | some e =>
          simp only [Option.map_some, Option.toList_some, List.singleton_append,
            List.getLast?_cons, hexec.states w ir e hran]
          cases (runCallback exec (next ((some e).bind Execution.returned))
            (exec w ir).1).nested.getLast? <;> rfl

theorem runCallback_exact (hexec : InnerSound n exec) (c : StageCallback σ ι)
    (w : KernelRun σ ι) (hw : ∀ e ∈ w.executions, Exact n e) :
    ∀ e ∈ (runCallback exec c w).run.executions, Exact n e := by
  induction c generalizing w with
  | ends result output => exact hw
  | read next ih => exact ih w.context w hw
  | write context next ih => exact ih { w with context } hw
  | meanwhile flags next ih => exact ih { w with flags } hw
  | execute ir next ih => exact ih _ _ (hexec.exact w ir hw)

theorem le_stage_of_mem (exec : InnerExecute σ ι) (stages : List (Stage σ ι)) (k : Nat)
    (current : ι) (output : Option ι) (report : Report) (w : KernelRun σ ι) :
    ∀ c ∈ (runStages exec stages k current output report w).calls, k ≤ c.stage := by
  induction stages generalizing k current output report w with
  | nil => simp [runStages]
  | cons stage stages ih =>
      intro c hc
      simp only [runStages] at hc
      split at hc
      · split at hc
        · simp at hc
        · split at hc
          · obtain rfl := List.mem_singleton.mp hc
            exact le_rfl
          · rcases List.mem_cons.mp hc with rfl | hrest
            · exact le_rfl
            · exact Nat.le_of_succ_le (ih _ _ _ _ _ c hrest)
      · exact Nat.le_of_succ_le (ih _ _ _ _ _ c hc)

theorem inputsFrom_runStages (exec : InnerExecute σ ι) (stages : List (Stage σ ι)) (k : Nat)
    (current : ι) (output : Option ι) (report : Report) (w : KernelRun σ ι)
    (houtput : output.getD current = current) :
    InputsFrom current (runStages exec stages k current output report w).calls := by
  induction stages generalizing k current output report w with
  | nil => trivial
  | cons stage stages ih =>
      simp only [runStages]
      split
      · split
        · trivial
        · next execute hexecute =>
          split
          · exact ⟨rfl, trivial⟩
          · refine ⟨rfl, ?_⟩
            set r := runCallback exec (execute current) (w.setState k .running)
            have hnext : (r.output.getD output).getD current = r.output.join.getD current := by
              cases r.output with
              | none => exact houtput
              | some wrote => rfl
            rw [← hnext]
            apply ih
            cases r.output.getD output <;> rfl
      · exact ih _ _ _ _ _ houtput

theorem runStages_executions (hexec : InnerSound n exec) (stages : List (Stage σ ι)) (k : Nat)
    (current : ι) (output : Option ι) (report : Report) (w : KernelRun σ ι)
    (hw : ∀ e ∈ w.executions, Exact n e) :
    ∀ e ∈ (runStages exec stages k current output report w).run.executions, Exact n e := by
  induction stages generalizing k current output report w with
  | nil => exact hw
  | cons stage stages ih =>
      simp only [runStages]
      split
      · split
        · exact hw
        · next execute hexecute =>
          have hcallback := runCallback_exact hexec (execute current) (w.setState k .running) hw
          split
          · exact hcallback
          · exact ih _ _ _ _ _ hcallback
      · exact ih _ _ _ _ _ hw

theorem next_idle (hexec : InnerSound n exec) (c : StageCallback σ ι) (w : KernelRun σ ι)
    {k j : Nat} (hkj : k < j) (hj : j < n) (hidle : w.stageState j = .idle) :
    ((runCallback exec c w).run.setState k .success).stageState j = .idle ↔
      ∀ stop ∈ (runCallback exec c w).nested.getLast?, ∃ at' ∈ stop, at' < j := by
  rw [KernelRun.setState_of_ne _ _ (by omega), runCallback_states hexec]
  cases (runCallback exec c w).nested.getLast? with
  | none => simp [hidle]
  | some stop => simp [stoppedStates_idle stop hj]

theorem not_all_called (exec : InnerExecute σ ι) (stage : Stage σ ι) (stages : List (Stage σ ι))
    (k : Nat) (current : ι) (output : Option ι) (report : Report) (w : KernelRun σ ι)
    (hbusy : w.stageState k ≠ .idle) :
    (runStages exec (stage :: stages) k current output report w).calls.map (·.stage) ≠
      List.range' k (stage :: stages).length := by
  intro hall
  have hready : w.isReady k stage = false := by simp [KernelRun.isReady, hbusy]
  rw [runStages, hready, if_neg Bool.false_ne_true] at hall
  have hk : k ∈ List.range' k (stage :: stages).length := List.mem_range'.mpr ⟨0, by simp⟩
  rw [← hall] at hk
  obtain ⟨c, hc, hck⟩ := List.mem_map.mp hk
  have hle := le_stage_of_mem exec _ _ _ _ _ _ c hc
  omega

theorem runStages_all_iff (hexec : InnerSound n exec) (stages : List (Stage σ ι)) (k : Nat)
    (current : ι) (output : Option ι) (report : Report) (w : KernelRun σ ι)
    (hfree : ∀ stage ∈ stages, stage.dependencyCount = 0) (hn : k + stages.length = n)
    (hidle : ∀ j, k ≤ j → j < n → w.stageState j = .idle)
    (hok : (runStages exec stages k current output report w).failedAt = none) :
    (runStages exec stages k current output report w).calls.map (·.stage) =
        List.range' k stages.length ↔
      ∀ c ∈ (runStages exec stages k current output report w).calls,
        c.stage + 1 < n → StaysBehind c := by
  induction stages generalizing k current output report w with
  | nil => simp [runStages]
  | cons stage stages ih =>
      have hready : w.isReady k stage = true := by
        simp [KernelRun.isReady, hfree stage List.mem_cons_self, 
          hidle k le_rfl (by simp at hn; omega)]
      simp only [runStages, hready, if_true] at hok ⊢
      cases hexecute : stage.execute with
      | none => simp [hexecute] at hok
      | some execute =>
          simp only [hexecute] at hok ⊢
          set r := runCallback exec (execute current) (w.setState k .running) with hr
          by_cases hresult : r.result = 0
          · simp only [hresult, ne_eq, not_true_eq_false, if_false, List.map_cons,
              List.length_cons, List.range'_succ, List.cons.injEq, true_and, List.forall_mem_cons]
              at hok ⊢
            -- the call of this stage is behind it exactly if every later stage is ready again
            have hnext : ∀ j, k < j → j < n →
                ((r.run.setState k .success).stageState j = .idle ↔
                  ∀ stop ∈ r.nested.getLast?, ∃ place ∈ stop, place < j) := by
              intro j hkj hj
              apply next_idle hexec _ _ hkj hj
              rw [KernelRun.setState_of_ne _ _ (by omega), hidle j hkj.le hj]
            cases stages with
            | nil => simp_all [runStages]
            | cons next stages =>
                have hlt : k + 1 < n := by simp at hn; omega
                by_cases hbehind : ∀ stop ∈ r.nested.getLast?, ∃ place ∈ stop, place ≤ k
                · rw [ih (k + 1) _ _ _ _ (fun s hs => hfree s (List.mem_cons_of_mem _ hs))
                    (by rw [← hn, List.length_cons (a := stage)]; omega) ?_ hok]
                  · exact ⟨fun h => ⟨fun _ => hbehind, h⟩, fun h => h.2⟩
                  · intro j hkj hj
                    refine (hnext j hkj hj).mpr fun stop hstop => ?_
                    obtain ⟨place, hplace, hle⟩ := hbehind stop hstop
                    exact ⟨place, hplace, by omega⟩
                · constructor
                  · intro hall
                    refine absurd hall (not_all_called exec next stages _ _ _ _ _ ?_)
                    intro hreset
                    apply hbehind
                    intro stop hstop
                    obtain ⟨place, hplace, hle⟩ :=
                      (hnext (k + 1) (Nat.lt_succ_self k) hlt).mp hreset stop hstop
                    exact ⟨place, hplace, Nat.le_of_lt_succ hle⟩
                  · intro h
                    exact absurd (h.1 hlt) hbehind
          · simp [hresult] at hok

theorem executeWithRef_exact {stages : List (Stage σ ι)} (hexec : InnerSound stages.length exec)
    (hfree : ∀ stage ∈ stages, stage.dependencyCount = 0) (w : KernelRun σ ι) (ir : ι)
    (hw : ∀ e ∈ w.executions, Exact stages.length e) :
    ∀ e ∈ (executeWithRef exec stages w ir).1.executions, Exact stages.length e := by
  intro e he
  simp only [executeWithRef] at he
  split at he
  · exact hw e he
  · rcases List.mem_append.mp he with hold | hnew
    · exact runStages_executions hexec _ _ _ _ _ w.reset hw e hold
    · obtain rfl := List.mem_singleton.mp hnew
      intro hok
      have hall := runStages_all_iff hexec stages 0 ir none _ w.reset hfree (Nat.zero_add _)
        (fun _ _ _ => rfl) hok
      have hinputs := inputsFrom_runStages exec stages 0 ir none
        (reportCreate (ascii "pipeline_execution")) w.reset rfl
      rw [← List.range_eq_range'] at hall
      exact ⟨fun h => hall.mp h.1, fun h => ⟨hall.mpr h, hinputs⟩⟩

theorem innerSound_refuse (stages : List (Stage σ ι)) : InnerSound n (inlineExecute stages 0) where
  refused := fun _ _ _ => rfl
  states := fun _ _ _ he => absurd he (Option.not_mem_none _)
  exact := fun _ _ hw => hw

theorem runCallback_refused (stages : List (Stage σ ι)) (c : StageCallback σ ι)
    (w : KernelRun σ ι) :
    (runCallback (inlineExecute stages 0) c w).run.stageState = w.stageState := by
  induction c generalizing w with
  | ends result output => rfl
  | read next ih => exact ih w.context w
  | write context next ih => exact ih { w with context }
  | meanwhile flags next ih => exact ih { w with flags }
  | execute ir next ih => exact ih none w

/-- The states `s` up to stage `k`, and from there those of a run that stopped at `stop`. -/
def statesFrom (n k : Nat) (s : Nat → StageState) (stop : Option Nat) (j : Nat) : StageState :=
  if j < k then s j else stoppedStates n stop j

theorem statesFrom_failed {w r : KernelRun σ ι} {k : Nat}
    (hr : r.stageState = (w.setState k .running).stageState)
    (hidle : ∀ j, k ≤ j → w.stageState j = .idle) :
    (r.setState k .failed).stageState = statesFrom n k w.stageState (some k) := by
  funext j
  rcases Nat.lt_trichotomy j k with hlt | rfl | hgt
  · rw [KernelRun.setState_of_ne _ _ hlt.ne, hr, KernelRun.setState_of_ne _ _ hlt.ne, statesFrom,
      if_pos hlt]
  · simp [statesFrom, stoppedStates]
  · rw [KernelRun.setState_of_ne _ _ hgt.ne', hr, KernelRun.setState_of_ne _ _ hgt.ne',
      hidle j hgt.le, statesFrom, if_neg hgt.not_gt, stoppedStates, if_neg hgt.not_gt,
      if_neg hgt.ne']

theorem statesFrom_success {w r : KernelRun σ ι} {k : Nat} {stop : Option Nat} (hk : k < n)
    (hr : r.stageState = (w.setState k .running).stageState) (hstop : ∀ place ∈ stop, k < place) :
    statesFrom n (k + 1) (r.setState k .success).stageState stop =
      statesFrom n k w.stageState stop := by
  funext j
  rcases Nat.lt_trichotomy j k with hlt | rfl | hgt
  · rw [statesFrom, if_pos (by omega), KernelRun.setState_of_ne _ _ hlt.ne, hr,
      KernelRun.setState_of_ne _ _ hlt.ne, statesFrom, if_pos hlt]
  · rw [statesFrom, if_pos (Nat.lt_succ_self j), KernelRun.setState_self, statesFrom,
      if_neg (Nat.lt_irrefl j)]
    cases stop with
    | none => simp [stoppedStates, hk]
    | some place => simp [stoppedStates, hstop place rfl]
  · rw [statesFrom, if_neg (by omega), statesFrom, if_neg (by omega)]

theorem runStages_refused (inner stages : List (Stage σ ι)) (k : Nat)
    (current : ι) (output : Option ι) (report : Report) (w : KernelRun σ ι)
    (hfree : ∀ stage ∈ stages, stage.dependencyCount = 0) (hn : k + stages.length = n)
    (hidle : ∀ j, k ≤ j → w.stageState j = .idle) {r : PipelineEnd σ ι}
    (hr : runStages (inlineExecute inner 0) stages k current output report w = r) :
    (∀ place ∈ r.failedAt, k ≤ place) ∧
      r.run.stageState = statesFrom n k w.stageState r.failedAt := by
  induction stages generalizing k current output report w r with
  | nil =>
      subst hr
      refine ⟨by simp [runStages], funext fun j => ?_⟩
      simp only [List.length_nil, Nat.add_zero] at hn
      simp only [runStages, statesFrom, stoppedStates]
      split_ifs with hj hlt
      · rfl
      · omega
      · exact hidle j (by omega)
  | cons stage stages ih =>
      simp only [List.length_cons] at hn
      have hready : w.isReady k stage = true := by
        simp [KernelRun.isReady, hfree stage List.mem_cons_self, hidle k le_rfl]
      simp only [runStages, hready, if_true] at hr
      cases hexecute : stage.execute with
      | none =>
          simp only [hexecute] at hr
          subst hr
          exact ⟨by simp, statesFrom_failed rfl hidle⟩
      | some execute =>
          have hkept := runCallback_refused inner (execute current) (w.setState k .running)
          simp only [hexecute] at hr
          split at hr
          · subst hr
            exact ⟨by simp, statesFrom_failed hkept hidle⟩
          · set ended := runCallback (inlineExecute inner 0) (execute current)
              (w.setState k .running)
            have hnext : ∀ j, k + 1 ≤ j → (ended.run.setState k .success).stageState j = .idle := by
              intro j hj
              rw [KernelRun.setState_of_ne _ _ (by omega), hkept,
                KernelRun.setState_of_ne _ _ (by omega), hidle j (by omega)]
            obtain ⟨hlate, hstates⟩ := ih (k + 1) _ _ _ _
              (fun s hs => hfree s (List.mem_cons_of_mem _ hs)) (by omega) hnext rfl
            subst hr
            refine ⟨fun place hplace => Nat.le_of_succ_le (hlate place hplace), ?_⟩
            rw [← statesFrom_success (by omega) hkept hlate]
            exact hstates

theorem executeWithRef_refused {stages : List (Stage σ ι)} {w : KernelRun σ ι} {ir : ι}
    (hnone : (executeWithRef exec stages w ir).2 = none) :
    (executeWithRef exec stages w ir).1 = w := by
  simp only [executeWithRef] at hnone ⊢
  by_cases hcancel : w.flags.execCancelRequested = true
  · rw [if_pos hcancel]
  · rw [if_neg hcancel] at hnone
    exact absurd hnone (Option.some_ne_none _)

theorem executeWithRef_states {stages : List (Stage σ ι)}
    (hfree : ∀ stage ∈ stages, stage.dependencyCount = 0) {w : KernelRun σ ι} {ir : ι}
    {e : Execution ι} (he : e ∈ (executeWithRef (inlineExecute stages 0) stages w ir).2) :
    (executeWithRef (inlineExecute stages 0) stages w ir).1.stageState =
      stoppedStates stages.length e.failedAt := by
  simp only [executeWithRef] at he ⊢
  by_cases hcancel : w.flags.execCancelRequested = true
  · rw [if_pos hcancel] at he
    exact absurd he (Option.not_mem_none _)
  · rw [if_neg hcancel] at he ⊢
    obtain rfl := Option.mem_some_iff.mp he
    exact (runStages_refused stages stages 0 ir none (reportCreate (ascii "pipeline_execution"))
      w.reset hfree (Nat.zero_add _) (fun _ _ => rfl) rfl).2

theorem innerSound_inline {stages : List (Stage σ ι)}
    (hfree : ∀ stage ∈ stages, stage.dependencyCount = 0) :
    InnerSound stages.length (inlineExecute stages 1) where
  refused := by
    intro w ir hnone
    simp only [inlineExecute] at hnone ⊢
    split at hnone
    · next hready =>
      rw [if_pos hready]
      exact executeWithRef_refused hnone
    · next hready => rw [if_neg hready]
  states := by
    intro w ir e he
    simp only [inlineExecute] at he ⊢
    split at he
    · next hready =>
      rw [if_pos hready]
      exact executeWithRef_states hfree he
    · exact absurd he (Option.not_mem_none _)
  exact := by
    intro w ir hw
    simp only [inlineExecute]
    split
    · exact executeWithRef_exact (innerSound_refuse stages) hfree w ir hw
    · exact hw

theorem kernelExecutes_exact {stages : List (Stage σ ι)}
    (hfree : ∀ stage ∈ stages, stage.dependencyCount = 0) (calls : List (KernelFlags × σ × ι))
    (w : KernelRun σ ι) (hw : ∀ e ∈ w.executions, Exact stages.length e) :
    ∀ e ∈ (kernelExecutes stages w calls).executions, Exact stages.length e := by
  induction calls generalizing w with
  | nil => exact hw
  | cons call calls ih =>
      apply ih
      simp only [kernelExecute]
      split
      · exact hw
      · exact executeWithRef_exact (innerSound_inline hfree) hfree _ _ hw

/-- In every run, an execution that returned a report called every stage in order, once and
with the right input, if and only if no execution nested in it came past a stage that was not
the last. -/
theorem ranInOrder_iff {stages : List (Stage σ ι)}
    (hfree : ∀ stage ∈ stages, stage.dependencyCount = 0) (context : σ)
    (stageState : Nat → StageState) (calls : List (KernelFlags × σ × ι)) {e : Execution ι}
    (he : e ∈ (kernelExecutes stages { context, stageState } calls).executions)
    (hok : e.failedAt = none) :
    RanInOrder stages.length e ↔ NestsBehind stages.length e :=
  kernelExecutes_exact hfree calls { context, stageState } (by simp) e he hok

def nesting : Stage Unit Nat :=
  { name := ascii "nesting", execute := some fun ir => .execute ir fun _ => .ends 0 none }

def plain : Stage Unit Nat := { name := ascii "plain", execute := some fun _ => .ends 0 none }

/-- The last stage may execute whatever it likes. -/
theorem ranInOrder_iff_last_nests :
    ∃ e ∈ (kernelExecutes [plain, nesting] { context := () } [({}, (), 7)]).executions,
      e.calls.map (·.nested) = [[], [none]] ∧ (RanInOrder 2 e ↔ NestsBehind 2 e) := by
  have he := List.mem_of_getElem? (i := 1)
    (l := (kernelExecutes [plain, nesting] { context := () } [({}, (), 7)]).executions) rfl
  exact ⟨_, he, rfl, ranInOrder_iff (by decide) () (fun _ => .idle) [({}, (), 7)] he rfl⟩

/-- The run nested in the first stage leaves the second one not ready; it is skipped, and the
execution still succeeds. -/
theorem later_stage_skipped :
    ∃ e ∈ (kernelExecutes [nesting, plain] { context := () } [({}, (), 7)]).executions,
      e.returned.isSome ∧ ¬ RanInOrder 2 e := by
  have he := List.mem_of_getElem? (i := 1)
    (l := (kernelExecutes [nesting, plain] { context := () } [({}, (), 7)]).executions) rfl
  exact ⟨_, he, rfl, fun h => absurd h.1 (by decide)⟩

end BlessStar.Runtime
