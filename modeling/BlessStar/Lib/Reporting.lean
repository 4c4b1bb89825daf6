import Mathlib.Data.List.Basic

/-!
# Checks that collect and checks that stop

A step of a check appends its errors to a log and goes on or returns.  The same
check runs in two ways: collecting, where it goes on after an error, and
stopping, where it returns after the first.  What a pair of such steps does is
told by one list of findings, each of which stops the stopping run or is passed
over by it.
-/

namespace BlessStar.Lib.Reporting

universe u v

variable {ε : Type u} {ρ : Type v}

/-- It goes on with `none` and returns with a status. -/
abbrev Step (ε : Type u) (ρ : Type v) := List ε → Option ρ × List ε

abbrev Call (ε : Type u) (ρ : Type v) := List ε → ρ × List ε

namespace Step

def pass : Step ε ρ := fun log => (none, log)

def andThen (a b : Step ε ρ) : Step ε ρ := fun log =>
  match a log with
  | (none, log') => b log'
  | (some rc, log') => (some rc, log')

/-- The step as a whole check, which ends with `ok`. -/
def finish (ok : ρ) (a : Step ε ρ) : Call ε ρ := fun log => ((a log).1.getD ok, (a log).2)

/-- A check called within another: a stopping one returns what it returned,
unless that is `ok`. -/
def call [DecidableEq ρ] (ok : ρ) (stopping : Bool) (f : Call ε ρ) : Step ε ρ := fun log =>
  (if (f log).1 ≠ ok ∧ stopping = true then some (f log).1 else none, (f log).2)

end Step

structure Finding (ε : Type u) where
  error : ε
  stops : Bool

def upToStop : List (Finding ε) → List (Finding ε)
  | [] => []
  | f :: fs => if f.stops then [f] else f :: upToStop fs

def PassesFirst (fs : List (Finding ε)) : Prop := ∃ f rest, fs = f :: rest ∧ f.stops = false

structure Finds (stop : ρ) (s : Bool → Step ε ρ) (fs : List (Finding ε)) : Prop where
  collecting : ∀ log, s false log = (none, log ++ fs.map (·.error))
  stopping : ∀ log, s true log =
    (if fs.any (·.stops) then some stop else none, log ++ (upToStop fs).map (·.error))

structure CallFinds (ok stop : ρ) (c : Bool → Call ε ρ) (fs : List (Finding ε)) : Prop where
  collecting : ∀ log, c false log = (ok, log ++ fs.map (·.error))
  stopping : ∀ log, c true log =
    (if fs.any (·.stops) then stop else ok, log ++ (upToStop fs).map (·.error))

def passedOver (fs : List (Finding ε)) : List (Finding ε) := fs.map fun f => ⟨f.error, false⟩

theorem map_error_passedOver (fs : List (Finding ε)) :
    (passedOver fs).map (·.error) = fs.map (·.error) := by
  simp [passedOver]

theorem any_stops_passedOver (fs : List (Finding ε)) : (passedOver fs).any (·.stops) = false := by
  simp [passedOver]

theorem upToStop_passedOver (fs : List (Finding ε)) : upToStop (passedOver fs) = passedOver fs := by
  induction fs with
  | nil => rfl
  | cons f fs ih =>
      rw [passedOver, List.map_cons, upToStop, if_neg Bool.false_ne_true]
      exact congrArg _ ih

theorem passedOver_eq_nil {fs : List (Finding ε)} : passedOver fs = [] ↔ fs = [] := by
  simp [passedOver]

theorem passesFirst_passedOver {fs : List (Finding ε)} : PassesFirst (passedOver fs) ↔ fs ≠ [] := by
  cases fs with
  | nil => simp [PassesFirst, passedOver]
  | cons f fs => simp [PassesFirst, passedOver]

theorem upToStop_append (fs gs : List (Finding ε)) :
    upToStop (fs ++ gs) = if fs.any (·.stops) then upToStop fs else fs ++ upToStop gs := by
  induction fs with
  | nil => simp
  | cons f fs ih =>
      cases hf : f.stops with
      | true => simp [upToStop, hf]
      | false =>
          simp only [List.cons_append, upToStop, hf, ih, List.any_cons, Bool.false_or,
            Bool.false_eq_true, if_false]
          split
          · rfl
          · rfl

theorem upToStop_eq_self {fs : List (Finding ε)} (h : fs.any (·.stops) = false) :
    upToStop fs = fs := by
  have happend := upToStop_append fs []
  rw [List.append_nil, if_neg (by simp [h]), upToStop, List.append_nil] at happend
  exact happend

theorem passesFirst_append {fs gs : List (Finding ε)} :
    PassesFirst (fs ++ gs) ↔ PassesFirst fs ∨ (fs = [] ∧ PassesFirst gs) := by
  cases fs with
  | nil => simp [PassesFirst]
  | cons f fs => simp [PassesFirst]

theorem not_passesFirst_nil : ¬PassesFirst ([] : List (Finding ε)) := by
  simp [PassesFirst]

section Composition

variable {ok stop : ρ} {s t : Bool → Step ε ρ} {fs gs : List (Finding ε)}

theorem Finds.pass : Finds stop (fun _ => (Step.pass : Step ε ρ)) [] where
  collecting log := by simp [Step.pass]
  stopping log := by simp [Step.pass, upToStop]

theorem Finds.andThen (hs : Finds stop s fs) (ht : Finds stop t gs) :
    Finds stop (fun b => (s b).andThen (t b)) (fs ++ gs) where
  collecting log := by simp [Step.andThen, hs.collecting, ht.collecting]
  stopping log := by
    rw [Step.andThen, hs.stopping, upToStop_append, List.any_append]
    cases hany : fs.any (·.stops) with
    | true => simp
    | false => simp [ht.stopping, upToStop_eq_self hany]

theorem Finds.finish (hs : Finds stop s fs) : CallFinds ok stop (fun b => (s b).finish ok) fs where
  collecting log := by simp [Step.finish, hs.collecting]
  stopping log := by
    rw [Step.finish, hs.stopping]
    cases fs.any (·.stops) <;> rfl

variable [DecidableEq ρ]

theorem CallFinds.call {c : Bool → Call ε ρ} (hne : stop ≠ ok) (hc : CallFinds ok stop c fs) :
    Finds stop (fun b => Step.call ok b (c b)) fs where
  collecting log := by simp [Step.call, hc.collecting]
  stopping log := by
    rw [Step.call, hc.stopping]
    cases fs.any (·.stops) with
    | true => simp [hne]
    | false => simp

theorem CallFinds.call_collecting {c : Bool → Call ε ρ} (hc : CallFinds ok stop c fs) :
    Finds stop (fun b => Step.call ok b (c false)) (passedOver fs) where
  collecting log := by simp [Step.call, hc.collecting, map_error_passedOver]
  stopping log := by
    simp [Step.call, hc.collecting, any_stops_passedOver, upToStop_passedOver, map_error_passedOver]

end Composition

/-- It finds nothing where `clean` holds, and its first finding is passed over
where `passes` does. -/
def Tells (stop : ρ) (s : Bool → Step ε ρ) (clean passes : Prop) : Prop :=
  ∃ fs, Finds stop s fs ∧ (fs = [] ↔ clean) ∧ (PassesFirst fs ↔ passes)

def CallTells (ok stop : ρ) (c : Bool → Call ε ρ) (clean passes : Prop) : Prop :=
  ∃ fs, CallFinds ok stop c fs ∧ (fs = [] ↔ clean) ∧ (PassesFirst fs ↔ passes)

section Tells

variable {ok stop : ρ} {s t : Bool → Step ε ρ} {clean clean' passes passes' : Prop}

theorem Tells.congr (h : Tells stop s clean passes) (hclean : clean ↔ clean')
    (hpasses : passes ↔ passes') : Tells stop s clean' passes' := by
  obtain ⟨fs, hfs, hnil, hfirst⟩ := h
  exact ⟨fs, hfs, hnil.trans hclean, hfirst.trans hpasses⟩

theorem CallTells.congr {c : Bool → Call ε ρ} (h : CallTells ok stop c clean passes)
    (hclean : clean ↔ clean') (hpasses : passes ↔ passes') :
    CallTells ok stop c clean' passes' := by
  obtain ⟨fs, hfs, hnil, hfirst⟩ := h
  exact ⟨fs, hfs, hnil.trans hclean, hfirst.trans hpasses⟩

theorem Tells.pass : Tells stop (fun _ => (Step.pass : Step ε ρ)) True False :=
  ⟨[], Finds.pass, by simp, by simp [not_passesFirst_nil]⟩

theorem Tells.andThen (hs : Tells stop s clean passes) (ht : Tells stop t clean' passes') :
    Tells stop (fun b => (s b).andThen (t b)) (clean ∧ clean') (passes ∨ (clean ∧ passes')) := by
  obtain ⟨fs, hfs, hnil, hfirst⟩ := hs
  obtain ⟨gs, hgs, hnil', hfirst'⟩ := ht
  refine ⟨fs ++ gs, hfs.andThen hgs, ?_, ?_⟩
  · rw [List.append_eq_nil_iff, hnil, hnil']
  · rw [passesFirst_append, hfirst, hfirst', hnil]

theorem Tells.finish (h : Tells stop s clean passes) (ok : ρ) :
    CallTells ok stop (fun b => (s b).finish ok) clean passes := by
  obtain ⟨fs, hfs, hnil, hfirst⟩ := h
  exact ⟨fs, hfs.finish, hnil, hfirst⟩

theorem Finds.tells_single {e : ε} (h : Finds stop s [⟨e, true⟩]) : Tells stop s False False :=
  ⟨_, h, by simp, by simp [PassesFirst]⟩

theorem CallFinds.tells_single {c : Bool → Call ε ρ} {e : ε}
    (h : CallFinds ok stop c [⟨e, true⟩]) : CallTells ok stop c False False :=
  ⟨_, h, by simp, by simp [PassesFirst]⟩

variable [DecidableEq ρ] {c : Bool → Call ε ρ}

theorem CallTells.call (hne : stop ≠ ok) (h : CallTells ok stop c clean passes) :
    Tells stop (fun b => Step.call ok b (c b)) clean passes := by
  obtain ⟨fs, hfs, hnil, hfirst⟩ := h
  exact ⟨fs, hfs.call hne, hnil, hfirst⟩

theorem CallTells.call_collecting (h : CallTells ok stop c clean passes) :
    Tells stop (fun b => Step.call ok b (c false)) clean (¬clean) := by
  obtain ⟨fs, hfs, hnil, -⟩ := h
  refine ⟨passedOver fs, hfs.call_collecting, ?_, ?_⟩
  · rw [passedOver_eq_nil, hnil]
  · rw [passesFirst_passedOver, ne_eq, hnil]

end Tells

/-- **Stopping agrees with collecting** where a first finding stops: it stops
exactly when there is an error, with the first one. -/
theorem stopping_agrees_iff (fs : List (Finding ε)) :
    (((fs.any (·.stops) = true ↔ fs.map (·.error) ≠ []) ∧
      (upToStop fs).map (·.error) = (fs.map (·.error)).take 1) ↔ ¬PassesFirst fs) := by
  cases fs with
  | nil => simp [PassesFirst, upToStop]
  | cons f fs =>
      cases hf : f.stops with
      | true => simp [PassesFirst, upToStop, hf]
      | false =>
          have hpasses : PassesFirst (f :: fs) := ⟨f, fs, rfl, hf⟩
          simp only [hpasses, not_true, iff_false, not_and]
          intro hiff
          have hany : fs.any (·.stops) = true := by
            have h := hiff.mpr (by simp)
            simpa [hf] using h
          cases fs with
          | nil => simp at hany
          | cons g gs =>
              cases hg : g.stops <;> simp [upToStop, hf, hg]

end BlessStar.Lib.Reporting
