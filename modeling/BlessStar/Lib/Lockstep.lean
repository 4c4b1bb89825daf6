import Mathlib.Data.List.Basic

/-!
# Answering machines in lockstep

A machine answers every request and moves on to its next state.  A concrete
machine follows an abstract one through a run when, after every call, the
answers given so far agree and the state stands for the abstract one.  When
agreement of a single step comes down to a condition on the request and on the
state before it, following comes down to that condition on every step.
Two runs of one machine stay in lockstep when its functions answer alike on
related states.
-/

namespace BlessStar.Lib.Lockstep

universe u v w x

abbrev Answering (σ : Type u) (ι : Type v) (ο : Type w) := σ → ι → ο × σ

variable {σ : Type u} {τ : Type x} {ι : Type v} {ο : Type w}

def answers (m : Answering σ ι ο) : σ → List ι → List ο
  | _, [] => []
  | s, i :: is => (m s i).1 :: answers m (m s i).2 is

def stateAfter (m : Answering σ ι ο) : σ → List ι → σ
  | s, [] => s
  | s, i :: is => stateAfter m (m s i).2 is

/-- Every request meets `meets` in the state it is made in. -/
def StepsMeet (m : Answering σ ι ο) (meets : σ → ι → Prop) : σ → List ι → Prop
  | _, [] => True
  | s, i :: is => meets s i ∧ StepsMeet m meets (m s i).2 is

/-- After every number of calls, `m` has answered as `n` does, and its state
stands for that of `n`. -/
def Follows (m : Answering σ ι ο) (n : Answering τ ι ο) (abs : σ → τ) (s : σ)
    (calls : List ι) : Prop :=
  ∀ k, answers m s (calls.take k) = answers n (abs s) (calls.take k) ∧
    abs (stateAfter m s (calls.take k)) = stateAfter n (abs s) (calls.take k)

variable {m : Answering σ ι ο} {n : Answering τ ι ο} {abs : σ → τ}

theorem follows_nil (s : σ) : Follows m n abs s [] := by
  intro k
  rw [List.take_nil]
  exact ⟨rfl, rfl⟩

theorem follows_cons_iff {s : σ} {i : ι} {is : List ι} :
    Follows m n abs s (i :: is) ↔
      (m s i).1 = (n (abs s) i).1 ∧ abs (m s i).2 = (n (abs s) i).2 ∧
        Follows m n abs (m s i).2 is := by
  constructor
  · intro h
    have hfirst := h 1
    simp only [List.take_succ_cons, List.take_zero, answers, stateAfter, List.cons.injEq,
      and_true] at hfirst
    apply And.intro hfirst.1
    apply And.intro hfirst.2
    intro k
    have hnext := h (k + 1)
    rw [List.take_succ_cons, answers, answers, stateAfter, stateAfter, ← hfirst.2] at hnext
    exact ⟨(List.cons.inj hnext.1).2, hnext.2⟩
  · rintro ⟨hanswer, hstate, hrest⟩ k
    cases k with
    | zero => exact ⟨rfl, rfl⟩
    | succ k =>
        rw [List.take_succ_cons, answers, answers, stateAfter, stateAfter, ← hstate, hanswer,
          (hrest k).1]
        exact ⟨rfl, (hrest k).2⟩

/-- **The lockstep rule.**  `keeps` is an invariant of the concrete machine. -/
theorem follows_iff_stepsMeet {meets : σ → ι → Prop} {keeps : σ → Prop}
    (hkeeps : ∀ s i, keeps s → keeps (m s i).2)
    (hstep : ∀ s i, keeps s →
      (((m s i).1 = (n (abs s) i).1 ∧ abs (m s i).2 = (n (abs s) i).2) ↔ meets s i))
    {s : σ} (hs : keeps s) (calls : List ι) :
    Follows m n abs s calls ↔ StepsMeet m meets s calls := by
  induction calls generalizing s with
  | nil => exact iff_of_true (follows_nil s) trivial
  | cons i is ih =>
      rw [follows_cons_iff, StepsMeet, ← hstep s i hs, ← ih (hkeeps s i hs), and_assoc]

def Agrees (R : σ → σ → Prop) (f : σ → ο × σ) : Prop :=
  ∀ s t, R s t → (f s).1 = (f t).1 ∧ R (f s).2 (f t).2

theorem Agrees.after {R : σ → σ → Prop} {f : σ → ο × σ} (h : Agrees R f) {s t : σ} (hst : R s t) :
    R (f s).2 (f t).2 :=
  (h s t hst).2

theorem agrees_eq (f : σ → ο × σ) : Agrees (· = ·) f := by
  rintro s t rfl
  exact ⟨rfl, rfl⟩

end BlessStar.Lib.Lockstep
