import Mathlib.Data.List.Nodup
import Mathlib.Data.List.Lookmap

/-!
# Plain objects

An object that is used as a map: its entries in the order in which their keys came in,
where assigning to a key that is there leaves it in its place.
-/

namespace BlessStar.Lib

variable {κ α : Type*} [DecidableEq κ]

structure ObjectMap (κ α : Type*) where
  entries : List (κ × α)
  nodup : (entries.map Prod.fst).Nodup
  deriving DecidableEq

namespace ObjectMap

/-- `{}`. -/
def empty : ObjectMap κ α := ⟨[], List.nodup_nil⟩

/-- `object[key]`. -/
def get (m : ObjectMap κ α) (k : κ) : Option α := m.entries.lookup k

def modify (f : κ → α → α) (m : ObjectMap κ α) : ObjectMap κ α where
  entries := m.entries.map fun p => (p.1, f p.1 p.2)
  nodup := by
    rw [List.map_map]
    exact m.nodup

/-- `object[key] = value`. -/
def assign (k : κ) (a : α) (m : ObjectMap κ α) : ObjectMap κ α :=
  if h : k ∈ m.entries.map Prod.fst then m.modify fun k' b => if k' = k then a else b
  else
    { entries := m.entries ++ [(k, a)]
      nodup := by
        rw [List.map_append, List.map_singleton, ← List.concat_eq_append, List.nodup_concat]
        exact ⟨h, m.nodup⟩ }

omit [DecidableEq κ] in
@[ext] theorem ext {m n : ObjectMap κ α} (h : m.entries = n.entries) : m = n := by
  cases m
  cases n
  congr

@[simp] theorem get_empty (k : κ) : (empty : ObjectMap κ α).get k = none := rfl

theorem lookup_cons_of_ne {k : κ} {p : κ × α} (h : k ≠ p.1) (l : List (κ × α)) :
    (p :: l).lookup k = l.lookup k := by
  rw [List.lookup_cons, beq_false_of_ne h]

theorem get_cons {p : κ × α} {l : List (κ × α)} (h : ((p :: l).map Prod.fst).Nodup) (k : κ) :
    get ⟨p :: l, h⟩ k = if k = p.1 then some p.2 else get ⟨l, (List.nodup_cons.mp h).2⟩ k := by
  by_cases hk : k = p.1
  · subst hk
    rw [if_pos rfl]
    exact List.lookup_cons_self
  · rw [if_neg hk]
    exact lookup_cons_of_ne hk l

theorem get_eq_some_iff {m : ObjectMap κ α} {k : κ} {a : α} :
    m.get k = some a ↔ (k, a) ∈ m.entries := by
  obtain ⟨l, hl⟩ := m
  change l.lookup k = some a ↔ (k, a) ∈ l
  induction l with
  | nil => simp
  | cons p l ih =>
    obtain ⟨k', b⟩ := p
    rw [List.map_cons, List.nodup_cons] at hl
    by_cases hk : k = k'
    · subst hk
      have hnot : (k, a) ∉ l := fun h => hl.1 (List.mem_map.mpr ⟨_, h, rfl⟩)
      rw [List.lookup_cons_self]
      simp [hnot, eq_comm]
    · rw [lookup_cons_of_ne hk, ih hl.2]
      simp [hk]

theorem get_isSome_iff {m : ObjectMap κ α} {k : κ} :
    (m.get k).isSome ↔ k ∈ m.entries.map Prod.fst := by
  rw [Option.isSome_iff_exists, List.mem_map]
  constructor
  · rintro ⟨a, h⟩
    exact ⟨(k, a), get_eq_some_iff.mp h, rfl⟩
  · rintro ⟨p, hp, rfl⟩
    exact ⟨p.2, get_eq_some_iff.mpr hp⟩

theorem get_modify (f : κ → α → α) (m : ObjectMap κ α) (k : κ) :
    (m.modify f).get k = (m.get k).map (f k) := by
  obtain ⟨l, hl⟩ := m
  change (l.map fun p => (p.1, f p.1 p.2)).lookup k = (l.lookup k).map (f k)
  clear hl
  induction l with
  | nil => rfl
  | cons p l ih =>
    by_cases hk : k = p.1
    · subst hk
      rw [List.map_cons, List.lookup_cons_self, List.lookup_cons_self, Option.map_some]
    · rw [List.map_cons, lookup_cons_of_ne (p := p) hk,
        lookup_cons_of_ne (p := (p.1, f p.1 p.2)) hk, ih]

omit [DecidableEq κ] in
theorem modify_modify (f g : κ → α → α) (m : ObjectMap κ α) :
    (m.modify g).modify f = m.modify fun k a => f k (g k a) := by
  ext1
  exact List.map_map

theorem modify_congr {f g : κ → α → α} {m : ObjectMap κ α}
    (h : ∀ k a, m.get k = some a → f k a = g k a) : m.modify f = m.modify g := by
  ext1
  refine List.map_congr_left fun p hp => ?_
  rw [h p.1 p.2 (get_eq_some_iff.mpr hp)]

theorem modify_eq_self {f : κ → α → α} {m : ObjectMap κ α}
    (h : ∀ k a, m.get k = some a → f k a = a) : m.modify f = m := by
  ext1
  refine (List.map_congr_left fun p hp => ?_).trans (List.map_id _)
  rw [h p.1 p.2 (get_eq_some_iff.mpr hp)]
  rfl

theorem assign_of_get {m : ObjectMap κ α} {k : κ} {b : α} (h : m.get k = some b) (a : α) :
    m.assign k a = m.modify fun k' b => if k' = k then a else b := by
  rw [assign, dif_pos (get_isSome_iff.mp (by rw [h]; rfl))]

theorem get_assign (m : ObjectMap κ α) (k k' : κ) (a : α) :
    (m.assign k a).get k' = if k' = k then some a else m.get k' := by
  by_cases hmem : k ∈ m.entries.map Prod.fst
  · obtain ⟨b, hb⟩ := Option.isSome_iff_exists.mp (get_isSome_iff.mpr hmem)
    rw [assign_of_get hb, get_modify]
    by_cases hk : k' = k
    · simp [hk, hb]
    · simp [hk]
  · have happend : (m.assign k a).get k' = (m.entries ++ [(k, a)]).lookup k' := by
      rw [assign, dif_neg hmem]
      rfl
    rw [happend, List.lookup_append]
    by_cases hk : k' = k
    · have hnone : m.get k = none := by
        rw [← Option.not_isSome_iff_eq_none, get_isSome_iff]
        exact hmem
      rw [hk, if_pos rfl, List.lookup_cons_self]
      exact congrArg (Option.or · (some a)) hnone
    · rw [if_neg hk, lookup_cons_of_ne hk, List.lookup_nil, Option.or_none]
      rfl

end ObjectMap

end BlessStar.Lib
