import Mathlib.Data.List.Infix

/-!
# First occurrences of a pattern

The place where a pattern first stands in a list, as text searches give it.
-/

namespace BlessStar.Lib.Occurrence

variable {α : Type*} [DecidableEq α]

def firstIndex (pat : List α) : List α → Option Nat
  | [] => if pat = [] then some 0 else none
  | c :: s => if pat <+: c :: s then some 0 else (firstIndex pat s).map (· + 1)

variable {pat a b c s : List α} {i : Nat}

theorem firstIndex_of_isPrefix (h : pat <+: s) : firstIndex pat s = some 0 := by
  cases s with
  | nil => exact if_pos (List.prefix_nil.mp h)
  | cons c s => exact if_pos h

theorem firstIndex_cons {c : α} (h : ¬pat <+: c :: s) :
    firstIndex pat (c :: s) = (firstIndex pat s).map (· + 1) := if_neg h

theorem firstIndex_eq_some :
    firstIndex pat s = some i ↔ pat <+: s.drop i ∧ ∀ j < i, ¬pat <+: s.drop j := by
  induction s generalizing i with
  | nil =>
      by_cases hpat : pat = []
      · subst hpat
        cases i with
        | zero => simp [firstIndex]
        | succ i => simpa [firstIndex] using ⟨0, by omega⟩
      · simp [firstIndex, hpat]
  | cons c s ih =>
      by_cases h : pat <+: c :: s
      · rw [firstIndex_of_isPrefix h]
        cases i with
        | zero => simpa using h
        | succ i => simpa using fun _ => ⟨0, by omega, h⟩
      · rw [firstIndex_cons h]
        cases i with
        | zero => simpa using h
        | succ i =>
            rw [Option.map_eq_some_iff]
            simp only [Nat.add_right_cancel_iff, exists_eq_right, ih, List.drop_succ_cons]
            refine and_congr_right fun _ => ⟨fun hj j hlt => ?_, fun hj j hlt => ?_⟩
            · cases j with
              | zero => exact h
              | succ j => exact hj j (Nat.lt_of_succ_lt_succ hlt)
            · exact hj (j + 1) (Nat.succ_lt_succ hlt)

theorem firstIndex_eq_none : firstIndex pat s = none ↔ ¬pat <:+: s := by
  induction s with
  | nil => simp [firstIndex]
  | cons c s ih =>
      by_cases h : pat <+: c :: s
      · simp [firstIndex_of_isPrefix h, h.isInfix]
      · rw [firstIndex_cons h, Option.map_eq_none_iff, ih, List.infix_cons_iff, not_or]
        exact ⟨fun hs => ⟨h, hs⟩, fun hs => hs.2⟩

omit [DecidableEq α] in
theorem exists_prefix_drop (h : pat <:+: s) : ∃ i, pat <+: s.drop i := by
  obtain ⟨a, b, rfl⟩ := h
  refine ⟨a.length, ?_⟩
  rw [List.append_assoc, List.drop_left]
  exact List.prefix_append pat b

theorem firstIndex_middle (hmiddle : ∀ j, pat <+: (a ++ b ++ c).drop j →
    a.length ≤ j ∧ j + pat.length ≤ a.length + b.length) :
    firstIndex pat (a ++ b ++ c) = (firstIndex pat b).map (a.length + ·) := by
  have hdrop : ∀ j, j ≤ b.length → (a ++ b ++ c).drop (a.length + j) = b.drop j ++ c := by
    intro j hj
    rw [List.append_assoc, List.drop_append, List.drop_of_length_le (by omega), List.nil_append,
      Nat.add_sub_cancel_left, List.drop_append_of_le_length hj]
  have hinside : ∀ j, pat <+: (a ++ b ++ c).drop j → ∃ k, j = a.length + k ∧ pat <+: b.drop k := by
    intro j hj
    obtain ⟨hge, hle⟩ := hmiddle j hj
    obtain ⟨k, rfl⟩ := Nat.exists_eq_add_of_le hge
    rw [hdrop k (by omega)] at hj
    refine ⟨k, rfl, List.prefix_of_prefix_length_le hj (List.prefix_append _ c) ?_⟩
    rw [List.length_drop]
    omega
  cases hb : firstIndex pat b with
  | none =>
      rw [Option.map_none, firstIndex_eq_none]
      intro hmem
      obtain ⟨j, hj⟩ := exists_prefix_drop hmem
      obtain ⟨k, -, hk⟩ := hinside j hj
      exact firstIndex_eq_none.mp hb (hk.isInfix.trans (List.drop_suffix k b).isInfix)
  | some k =>
      obtain ⟨hk, hfirst⟩ := firstIndex_eq_some.mp hb
      rw [Option.map_some, firstIndex_eq_some]
      constructor
      · by_cases hle : k ≤ b.length
        · rw [hdrop k hle]
          exact hk.trans (List.prefix_append _ c)
        · rw [List.drop_of_length_le (by omega), List.prefix_nil] at hk
          exact hk ▸ List.nil_prefix
      · intro j hj hprefix
        obtain ⟨l, rfl, hl⟩ := hinside j hprefix
        exact hfirst l (by omega) hl

end BlessStar.Lib.Occurrence
