import Mathlib.Data.List.Basic

/-!
# Least recently used

A cache is a list of entries with the one used last in front.  An entry that is
found comes to the front; a new entry takes the place of the last one when the
cache is full.
-/

namespace BlessStar.Lib.LruCache

universe u v
variable {κ : Type u} [DecidableEq κ] {β : Type v}

abbrev Lru (κ : Type u) (β : Type v) := List (κ × β)

namespace Lru

def find (c : Lru κ β) (k : κ) : Option β := (List.find? (fun e => e.1 = k) c).map (·.2)

def touch (c : Lru κ β) (k : κ) : Lru κ β :=
  match List.find? (fun e => e.1 = k) c with
  | none => c
  | some e => e :: List.eraseP (fun e => e.1 = k) c

/-- A new entry, for which the last one goes when there are `cap` of them. -/
def put (cap : Nat) (c : Lru κ β) (k : κ) (b : β) : Lru κ β :=
  (k, b) :: if cap ≤ c.length then c.dropLast else c

theorem mem_of_find {c : Lru κ β} {k : κ} {b : β} (h : c.find k = some b) : (k, b) ∈ c := by
  obtain ⟨e, he, rfl⟩ := Option.map_eq_some_iff.mp h
  have hk : e.1 = k := by simpa using List.find?_some he
  rw [← hk]
  exact List.mem_of_find?_eq_some he

theorem mem_of_mem_touch {c : Lru κ β} {k : κ} {e : κ × β} (h : e ∈ c.touch k) : e ∈ c := by
  unfold touch at h
  split at h
  · exact h
  · rename_i e' he'
    rcases List.mem_cons.mp h with rfl | h
    · exact List.mem_of_find?_eq_some he'
    · exact List.mem_of_mem_eraseP h

omit [DecidableEq κ] in
theorem mem_of_mem_put {cap : Nat} {c : Lru κ β} {k : κ} {b : β} {e : κ × β}
    (h : e ∈ c.put cap k b) : e = (k, b) ∨ e ∈ c := by
  unfold put at h
  rcases List.mem_cons.mp h with h | h
  · exact Or.inl h
  · split at h
    · exact Or.inr (List.dropLast_subset c h)
    · exact Or.inr h

end Lru

end BlessStar.Lib.LruCache
