import Mathlib.Data.List.Count
import Mathlib.Logic.Function.Basic

/-!
# Places of calls

A list says where each of a number of calls is, and a call moves by an update
of its entry.  What the calls hold is a list for each place; its counts change
by what the old place held and the new one holds.
-/

namespace BlessStar.Lib.Places

variable {α β : Type} {l : List α} {i : Nat} {a : α}

theorem exists_split (h : l[i]? = some a) :
    ∃ pre post, l = pre ++ a :: post ∧ ∀ b, l.set i b = pre ++ b :: post := by
  obtain ⟨hlt, rfl⟩ := List.getElem?_eq_some_iff.mp h
  refine ⟨l.take i, l.drop (i + 1), ?_, fun b => ?_⟩
  · rw [List.getElem_cons_drop, List.take_append_drop]
  · rw [List.set_eq_take_append_cons_drop, if_pos hlt]

theorem count_flatMap_set [DecidableEq β] (h : l[i]? = some a) (f : α → List β) (b : α) (x : β) :
    ((l.set i b).flatMap f).count x + (f a).count x = (l.flatMap f).count x + (f b).count x := by
  obtain ⟨pre, post, rfl, hset⟩ := exists_split h
  rw [hset]
  simp only [List.flatMap_append, List.flatMap_cons, List.count_append]
  omega

theorem flatMap_set_eq (h : l[i]? = some a) {f : α → List β} {b : α} (hf : f b = f a) :
    (l.set i b).flatMap f = l.flatMap f := by
  obtain ⟨pre, post, rfl, hset⟩ := exists_split h
  rw [hset]
  simp only [List.flatMap_append, List.flatMap_cons, hf]

theorem length_flatMap_set (h : l[i]? = some a) (f : α → List β) (b : α) :
    ((l.set i b).flatMap f).length + (f a).length = (l.flatMap f).length + (f b).length := by
  obtain ⟨pre, post, rfl, hset⟩ := exists_split h
  rw [hset]
  simp only [List.flatMap_append, List.flatMap_cons, List.length_append]
  omega

theorem mem_flatMap_of_get {f : α → List β} (h : l[i]? = some a) {x : β} (hx : x ∈ f a) :
    x ∈ l.flatMap f :=
  List.mem_flatMap.mpr ⟨a, List.mem_of_getElem? h, hx⟩

theorem get_set_self (h : l[i]? = some a) (b : α) : (l.set i b)[i]? = some b :=
  List.getElem?_set_self (List.getElem?_eq_some_iff.mp h).1

theorem get_set_ne {j : Nat} (h : j ≠ i) (b : α) : (l.set i b)[j]? = l[j]? :=
  List.getElem?_set_ne (Ne.symm h)

theorem get_concat {j : Nat} {b : α} (h : (l ++ [a])[j]? = some b) :
    l[j]? = some b ∨ (j = l.length ∧ b = a) := by
  rcases Nat.lt_trichotomy j l.length with hlt | rfl | hgt
  · rw [List.getElem?_append_left hlt] at h
    exact Or.inl h
  · rw [List.getElem?_concat_length] at h
    exact Or.inr ⟨rfl, (Option.some.inj h).symm⟩
  · rw [List.getElem?_eq_none (by rw [List.length_append, List.length_singleton]; omega)] at h
    cases h

theorem forall_mem_set {P : α → Prop} (h : ∀ x ∈ l, P x) (ha : P a) : ∀ x ∈ l.set i a, P x := by
  intro x hx
  rcases List.mem_or_eq_of_mem_set hx with hmem | rfl
  · exact h x hmem
  · exact ha

theorem flatMap_eq_of_others {f : α → List β} (h : l[i]? = some a)
    (hothers : ∀ j, j ≠ i → ∀ b, l[j]? = some b → f b = []) : l.flatMap f = f a := by
  induction l generalizing i with
  | nil => simp at h
  | cons x xs ih =>
      cases i with
      | zero =>
          cases h
          have hrest : xs.flatMap f = [] := by
            apply List.flatMap_eq_nil_iff.mpr
            intro b hb
            obtain ⟨j, hj⟩ := List.mem_iff_getElem?.mp hb
            exact hothers (j + 1) (Nat.succ_ne_zero j) b hj
          rw [List.flatMap_cons, hrest, List.append_nil]
      | succ i =>
          rw [List.flatMap_cons, hothers 0 (Nat.succ_ne_zero i).symm x rfl, List.nil_append]
          exact ih h fun j hj b hb => hothers (j + 1) (fun heq => hj (Nat.succ.inj heq)) b hb

theorem countP_update {γ : Type} [DecidableEq β] (q : γ → Bool) (f : β → γ) (id : β) (v : γ)
    (ids : List β) :
    (ids.countP fun x => q (Function.update f id v x)) +
        ids.count id * (if q (f id) then 1 else 0) =
      (ids.countP fun x => q (f x)) + ids.count id * (if q v then 1 else 0) := by
  induction ids with
  | nil => simp
  | cons x xs ih =>
      by_cases hx : x = id
      · subst hx
        simp only [List.countP_cons, List.count_cons, Function.update_self, BEq.rfl, if_true]
        rw [Nat.add_mul, Nat.add_mul]
        omega
      · have hbeq : (x == id) = false := by simpa using hx
        simp only [List.countP_cons, List.count_cons, Function.update_of_ne hx, hbeq,
          Bool.false_eq_true, if_false, Nat.add_zero]
        omega

end BlessStar.Lib.Places
