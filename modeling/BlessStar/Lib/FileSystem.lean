import Mathlib.Logic.Function.Basic

/-!
# Disks and crashes

A disk is a map from paths to file contents.  The operations below are the
atomic steps of programs that write files; a crash keeps a prefix of the steps
a program meant to take.
-/

namespace BlessStar.Lib.FileSystem

universe u v
variable {π : Type u} [DecidableEq π] {β : Type v}

/-- The files of a disk; `none` where no file of that name exists. -/
abbrev Disk (π : Type u) (β : Type v) := π → Option β

namespace Disk

/-- Create the file `p`, or replace its contents. -/
def write (d : Disk π β) (p : π) (b : β) : Disk π β := Function.update d p (some b)

/-- Delete the file `p`; nothing happens when there is none. -/
def remove (d : Disk π β) (p : π) : Disk π β := Function.update d p none

/-- Rename `src` to `dst`, replacing `dst`; nothing happens when `src` does not
exist. -/
def rename (d : Disk π β) (src dst : π) : Disk π β :=
  match d src with
  | none => d
  | some b => (d.remove src).write dst b

@[simp] theorem write_same (d : Disk π β) (p : π) (b : β) : d.write p b p = some b := by
  simp [write]

@[simp] theorem write_other {d : Disk π β} {p q : π} {b : β} (h : q ≠ p) :
    d.write p b q = d q := by
  simp [write, h]

@[simp] theorem remove_same (d : Disk π β) (p : π) : d.remove p p = none := by
  simp [remove]

@[simp] theorem remove_other {d : Disk π β} {p q : π} (h : q ≠ p) : d.remove p q = d q := by
  simp [remove, h]

theorem rename_of_eq_some {d : Disk π β} {src dst : π} {b : β} (h : d src = some b) :
    d.rename src dst = (d.remove src).write dst b := by
  simp [rename, h]

theorem rename_of_eq_none {d : Disk π β} {src dst : π} (h : d src = none) :
    d.rename src dst = d := by
  simp [rename, h]

theorem rename_other {d : Disk π β} {src dst q : π} (hsrc : q ≠ src) (hdst : q ≠ dst) :
    d.rename src dst q = d q := by
  cases h : d src with
  | none => rw [rename_of_eq_none h]
  | some b => rw [rename_of_eq_some h, write_other hdst, remove_other hsrc]

def removeAll (d : Disk π β) (ps : List π) : Disk π β := ps.foldl remove d

theorem removeAll_of_not_mem {d : Disk π β} {ps : List π} {q : π} (h : q ∉ ps) :
    d.removeAll ps q = d q := by
  induction ps generalizing d with
  | nil => rfl
  | cons p ps ih =>
      have hp : q ≠ p := fun h0 => h (by simp [h0])
      have hps : q ∉ ps := fun h0 => h (by simp [h0])
      rw [removeAll, List.foldl_cons]
      exact (ih hps).trans (remove_other hp)

theorem removeAll_eq_none {d : Disk π β} {ps : List π} {q : π} (h : q ∈ ps ∨ d q = none) :
    d.removeAll ps q = none := by
  induction ps generalizing d with
  | nil => simpa [removeAll] using h
  | cons p ps ih =>
      rw [removeAll, List.foldl_cons]
      apply ih
      by_cases hp : q = p
      · exact Or.inr (by rw [hp, remove_same])
      · rcases h with h | h
        · exact Or.inl (by simpa [hp] using h)
        · exact Or.inr (by rw [remove_other hp, h])

theorem removeAll_eq_self_iff {d : Disk π β} {ps : List π} :
    d.removeAll ps = d ↔ ∀ p ∈ ps, d p = none := by
  constructor
  · intro h p hp
    rw [← h]
    exact removeAll_eq_none (Or.inl hp)
  · intro h
    funext q
    by_cases hq : q ∈ ps
    · rw [h q hq]
      exact removeAll_eq_none (Or.inl hq)
    · exact removeAll_of_not_mem hq

def writeEach {α : Type*} (place : α → π) (content : α → Option β) (xs : List α) (d : Disk π β) :
    Disk π β :=
  xs.foldl (fun d x => (content x).elim d (d.write (place x))) d

section WriteEach

variable {α : Type*} {place : α → π} {content : α → Option β} {xs : List α}

theorem writeEach_cons (x : α) (xs : List α) (d : Disk π β) :
    writeEach place content (x :: xs) d =
      writeEach place content xs ((content x).elim d (d.write (place x))) := rfl

theorem writeEach_other {q : π} (h : ∀ x ∈ xs, q ≠ place x) (d : Disk π β) :
    writeEach place content xs d q = d q := by
  induction xs generalizing d with
  | nil => rfl
  | cons x xs ih =>
      rw [writeEach_cons, ih fun y hy => h y (List.mem_cons_of_mem x hy)]
      cases content x with
      | none => rfl
      | some b => exact write_other (h x List.mem_cons_self)

theorem writeEach_of_mem (hplaces : xs.Pairwise fun x y => place x ≠ place y) {x : α}
    (hx : x ∈ xs) (d : Disk π β) :
    writeEach place content xs d (place x) = (content x).or (d (place x)) := by
  induction xs generalizing d with
  | nil => exact absurd hx List.not_mem_nil
  | cons y xs ih =>
      rw [writeEach_cons]
      rw [List.pairwise_cons] at hplaces
      rcases List.mem_cons.mp hx with rfl | hx
      · rw [writeEach_other hplaces.1]
        cases content x with
        | none => rfl
        | some b => exact write_same d _ b
      · rw [ih hplaces.2 hx]
        cases content y with
        | none => rfl
        | some b =>
            rw [Option.elim_some, write_other]
            exact (hplaces.1 x hx).symm

end WriteEach

end Disk

def runSteps {σ : Type u} (steps : List (σ → σ)) (s : σ) : σ := steps.foldl (fun s f => f s) s

/-- The state a crash leaves behind after the first `k` steps. -/
def crashAfter {σ : Type u} (k : Nat) (steps : List (σ → σ)) (s : σ) : σ :=
  runSteps (steps.take k) s

@[simp] theorem runSteps_nil {σ : Type u} (s : σ) : runSteps [] s = s := rfl

@[simp] theorem runSteps_cons {σ : Type u} (f : σ → σ) (steps : List (σ → σ)) (s : σ) :
    runSteps (f :: steps) s = runSteps steps (f s) := rfl

theorem runSteps_append {σ : Type u} (xs ys : List (σ → σ)) (s : σ) :
    runSteps (xs ++ ys) s = runSteps ys (runSteps xs s) := by
  simp [runSteps]

@[simp] theorem crashAfter_nil {σ : Type u} (k : Nat) (s : σ) : crashAfter k [] s = s := by
  simp [crashAfter]

@[simp] theorem crashAfter_zero {σ : Type u} (steps : List (σ → σ)) (s : σ) :
    crashAfter 0 steps s = s := by
  simp [crashAfter]

@[simp] theorem crashAfter_succ_cons {σ : Type u} (k : Nat) (f : σ → σ) (steps : List (σ → σ))
    (s : σ) : crashAfter (k + 1) (f :: steps) s = crashAfter k steps (f s) := by
  simp [crashAfter]

theorem crashAfter_append {σ : Type u} (k : Nat) (xs ys : List (σ → σ)) (s : σ) :
    crashAfter k (xs ++ ys) s = crashAfter (k - xs.length) ys (crashAfter k xs s) := by
  simp [crashAfter, List.take_append, runSteps_append]

theorem crashAfter_invariant {σ : Type u} {P : σ → Prop} {steps : List (σ → σ)}
    (hstep : ∀ f ∈ steps, ∀ s, P s → P (f s)) {s : σ} (h : P s) (k : Nat) :
    P (crashAfter k steps s) := by
  induction steps generalizing k s with
  | nil => simpa using h
  | cons f steps ih =>
      cases k with
      | zero => simpa using h
      | succ k =>
          rw [crashAfter_succ_cons]
          exact ih (fun g hg => hstep g (by simp [hg])) (hstep f (by simp) s h) k

theorem crashAfter_all {σ : Type u} {k : Nat} {steps : List (σ → σ)} (h : steps.length ≤ k)
    (s : σ) : crashAfter k steps s = runSteps steps s := by
  rw [crashAfter, List.take_of_length_le h]

end BlessStar.Lib.FileSystem
