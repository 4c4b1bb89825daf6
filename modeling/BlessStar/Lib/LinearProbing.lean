import Mathlib.Data.List.Perm.Basic
import Mathlib.Data.List.Nodup
import Mathlib.Data.Nat.Find

/-!
# Open addressing with linear probing

A table is a list of slots that are free or hold a key with its value.  A key
is looked for from its home slot on, around the end of the table, up to the
first slot that is free or holds the key.
-/

namespace BlessStar.Lib.LinearProbing

variable {κ α : Type}

abbrev Table (κ α : Type) := List (Option (κ × α))

namespace Table

def Holds (t : Table κ α) (k : κ) (v : α) : Prop := ∃ i : Nat, t[i]? = some (some (k, v))

/-- The search for `k` ends at this slot. -/
def StopsAt (t : Table κ α) (k : κ) (i : Nat) : Prop :=
  t[i]? = some none ∨ ∃ v, t[i]? = some (some (k, v))

/-- The slot of the `j`-th probe from `home`. -/
def probe (t : Table κ α) (home j : Nat) : Nat := (home + j) % t.length

/-- The `j`-th probe is the first one to end the search. -/
structure FirstStop (t : Table κ α) (k : κ) (home j : Nat) : Prop where
  lt : j < t.length
  stops : t.StopsAt k (t.probe home j)
  before : ∀ i < j, ¬t.StopsAt k (t.probe home i)

def Reachable (t : Table κ α) (home : κ → Nat) : Prop :=
  ∀ i k v, t[i]? = some (some (k, v)) → ∃ j, i = t.probe (home k) j ∧ t.FirstStop k (home k) j

theorem probe_lt {t : Table κ α} (h : 0 < t.length) (home j : Nat) : t.probe home j < t.length :=
  Nat.mod_lt _ h

theorem exists_probe_eq {t : Table κ α} {i : Nat} (hi : i < t.length) (home : Nat) :
    ∃ j < t.length, t.probe home j = i := by
  have hmod : home % t.length < t.length := Nat.mod_lt _ (by omega)
  by_cases hle : home % t.length ≤ i
  · refine ⟨i - home % t.length, by omega, ?_⟩
    rw [probe, ← Nat.mod_add_mod, Nat.add_sub_cancel' hle, Nat.mod_eq_of_lt hi]
  · refine ⟨i + t.length - home % t.length, by omega, ?_⟩
    have hsum : home % t.length + (i + t.length - home % t.length) = i + t.length := by omega
    rw [probe, ← Nat.mod_add_mod, hsum, Nat.add_mod_right, Nat.mod_eq_of_lt hi]

theorem exists_firstStop {t : Table κ α} {e : Nat} (he : t[e]? = some none) (k : κ)
    (home : Nat) : ∃ j, t.FirstStop k home j := by
  classical
  have hlt : e < t.length := (List.getElem?_eq_some_iff.mp he).1
  obtain ⟨j, hj, hje⟩ := exists_probe_eq hlt home
  have hex : ∃ j, t.StopsAt k (t.probe home j) := ⟨j, Or.inl (by rw [hje, he])⟩
  refine ⟨Nat.find hex, ?_, Nat.find_spec hex, fun i hi => Nat.find_min hex hi⟩
  have hle : Nat.find hex ≤ j := Nat.find_min' hex (Or.inl (by rw [hje, he]))
  omega

theorem FirstStop.unique {t : Table κ α} {k : κ} {home i j : Nat} (hi : t.FirstStop k home i)
    (hj : t.FirstStop k home j) : i = j := by
  rcases Nat.lt_trichotomy i j with hlt | heq | hgt
  · exact absurd hi.stops (hj.before i hlt)
  · exact heq
  · exact absurd hj.stops (hi.before j hgt)

theorem FirstStop.other_key {t : Table κ α} {k : κ} {home i j : Nat} (h : t.FirstStop k home j)
    (hi : i < j) : ∃ k' v, t[t.probe home i]? = some (some (k', v)) ∧ k' ≠ k := by
  have hpos : 0 < t.length := by have hlt := h.lt; omega
  have hno := h.before i hi
  obtain ⟨slot, hget⟩ : ∃ slot, t[t.probe home i]? = some slot :=
    ⟨_, List.getElem?_eq_getElem (probe_lt hpos home i)⟩
  rw [StopsAt, hget] at hno
  rw [hget]
  cases slot with
  | none => exact absurd (Or.inl rfl) hno
  | some kv =>
      obtain ⟨k', v⟩ := kv
      refine ⟨k', v, rfl, ?_⟩
      rintro rfl
      exact hno (Or.inr ⟨v, rfl⟩)

/-- **Lookup.**  A key that the table holds is where its search ends. -/
theorem holds_iff {t : Table κ α} {home : κ → Nat} (h : t.Reachable home) {k : κ} {j : Nat}
    (hstop : t.FirstStop k (home k) j) (v : α) :
    t.Holds k v ↔ t[t.probe (home k) j]? = some (some (k, v)) := by
  constructor
  · rintro ⟨i, hi⟩
    obtain ⟨j', rfl, hstop'⟩ := h i k v hi
    rwa [hstop.unique hstop']
  · intro hj
    exact ⟨_, hj⟩

theorem Reachable.functional {t : Table κ α} {home : κ → Nat} (h : t.Reachable home) {k : κ}
    {v v' : α} (hv : t.Holds k v) (hv' : t.Holds k v') : v = v' := by
  obtain ⟨i, hi⟩ := hv
  obtain ⟨j, rfl, hstop⟩ := h i k v hi
  rw [holds_iff h hstop, hi] at hv'
  simpa using hv'

def put (t : Table κ α) (i : Nat) (k : κ) (v : α) : Table κ α := t.set i (some (k, v))

@[simp] theorem length_put (t : Table κ α) (i : Nat) (k : κ) (v : α) :
    (t.put i k v).length = t.length := List.length_set

@[simp] theorem probe_put (t : Table κ α) (i : Nat) (k : κ) (v : α) (home j : Nat) :
    (t.put i k v).probe home j = t.probe home j := by
  rw [probe, length_put, probe]

theorem put_same {t : Table κ α} {i : Nat} (hi : i < t.length) (k : κ) (v : α) :
    (t.put i k v)[i]? = some (some (k, v)) := by
  rw [put, List.getElem?_set_self hi]

theorem put_other {t : Table κ α} {i i' : Nat} (h : i ≠ i') (k : κ) (v : α) :
    (t.put i k v)[i']? = t[i']? := List.getElem?_set_ne h

theorem StopsAt.not_other {t : Table κ α} {k k' : κ} {v : α} {i : Nat} (h : t.StopsAt k i)
    (hi : t[i]? = some (some (k', v))) : k' = k := by
  rcases h with hfree | ⟨w, hw⟩
  · rw [hfree] at hi
    cases hi
  · rw [hw] at hi
    simp only [Option.some.injEq, Prod.mk.injEq] at hi
    exact hi.1.symm

theorem FirstStop.put_other_key {t : Table κ α} {k k' : κ} {home' i j' : Nat} (v : α)
    (hne : k' ≠ k) (h : t.FirstStop k' home' j') (hslot : t.probe home' j' ≠ i) :
    (t.put i k v).FirstStop k' home' j' where
  lt := by rw [length_put]; exact h.lt
  stops := by
    rw [probe_put, StopsAt, put_other hslot.symm]
    exact h.stops
  before := by
    intro i' hi'
    rw [probe_put]
    by_cases heq : t.probe home' i' = i
    · -- the slot was taken, so it held `k`, and it still does
      obtain ⟨k'', v'', hget, -⟩ := h.other_key hi'
      rw [heq] at hget ⊢
      have hlt : i < t.length := (List.getElem?_eq_some_iff.mp hget).1
      rw [StopsAt, put_same hlt]
      rintro (hnone | ⟨w, hw⟩)
      · cases hnone
      · simp only [Option.some.injEq, Prod.mk.injEq] at hw
        exact hne hw.1.symm
    · rw [StopsAt, put_other (Ne.symm heq)]
      exact h.before i' hi'

theorem FirstStop.put_same_key {t : Table κ α} {k : κ} {home j : Nat} (v : α)
    (h : t.FirstStop k home j) : (t.put (t.probe home j) k v).FirstStop k home j where
  lt := by rw [length_put]; exact h.lt
  stops := by
    have hlt : t.probe home j < t.length := probe_lt (by have := h.lt; omega) home j
    rw [probe_put]
    exact Or.inr ⟨v, put_same hlt k v⟩
  before := by
    intro i hi
    have hne : t.probe home j ≠ t.probe home i := by
      intro heq
      exact h.before i hi (heq ▸ h.stops)
    rw [probe_put, StopsAt, put_other hne]
    exact h.before i hi

theorem Reachable.put {t : Table κ α} {home : κ → Nat} (h : t.Reachable home) {k : κ} {j : Nat}
    (hstop : t.FirstStop k (home k) j) (v : α) :
    (t.put (t.probe (home k) j) k v).Reachable home := by
  have hlt : t.probe (home k) j < t.length := probe_lt (by have := hstop.lt; omega) _ j
  intro i k' v' hi
  by_cases heq : t.probe (home k) j = i
  · subst heq
    rw [put_same hlt] at hi
    simp only [Option.some.injEq, Prod.mk.injEq] at hi
    obtain ⟨rfl, rfl⟩ := hi
    exact ⟨j, (probe_put ..).symm, hstop.put_same_key v⟩
  · rw [put_other heq] at hi
    obtain ⟨j', rfl, hstop'⟩ := h i k' v' hi
    have hne : k' ≠ k := by
      rintro rfl
      exact heq (by rw [hstop.unique hstop'])
    exact ⟨j', (probe_put ..).symm, hstop'.put_other_key v hne (Ne.symm heq)⟩

/-- **Storing.**  The key has the new value, all other keys keep theirs. -/
theorem holds_put {t : Table κ α} {home : κ → Nat} (h : t.Reachable home) {k : κ} {j : Nat}
    (hstop : t.FirstStop k (home k) j) (v : α) (k' : κ) (v' : α) :
    (t.put (t.probe (home k) j) k v).Holds k' v' ↔
      (k' = k ∧ v' = v) ∨ (k' ≠ k ∧ t.Holds k' v') := by
  have hlt : t.probe (home k) j < t.length := probe_lt (by have := hstop.lt; omega) _ j
  by_cases hk : k' = k
  · subst hk
    rw [holds_iff (h.put hstop v) (hstop.put_same_key v), probe_put, put_same hlt]
    simp [eq_comm]
  · constructor
    · rintro ⟨i, hi⟩
      have hne : t.probe (home k) j ≠ i := by
        rintro rfl
        rw [put_same hlt] at hi
        simp only [Option.some.injEq, Prod.mk.injEq] at hi
        exact hk hi.1.symm
      rw [put_other hne] at hi
      exact Or.inr ⟨hk, i, hi⟩
    · rintro (⟨heq, -⟩ | ⟨-, i, hi⟩)
      · exact absurd heq hk
      · have hne : t.probe (home k) j ≠ i := by
          rintro rfl
          exact hk (hstop.stops.not_other hi)
        exact ⟨i, by rw [put_other hne, hi]⟩

def used (t : Table κ α) : Nat := t.countP (·.isSome)

theorem used_put_free {t : Table κ α} {i : Nat} (hi : t[i]? = some none) (k : κ) (v : α) :
    (t.put i k v).used = t.used + 1 := by
  obtain ⟨hlt, hget⟩ := List.getElem?_eq_some_iff.mp hi
  rw [used, put, List.countP_set hlt, hget]
  rfl

theorem used_put_key {t : Table κ α} {i : Nat} {k : κ} {w : α} (hi : t[i]? = some (some (k, w)))
    (v : α) : (t.put i k v).used = t.used := by
  obtain ⟨hlt, hget⟩ := List.getElem?_eq_some_iff.mp hi
  have hpos : 0 < t.countP (·.isSome) := by
    rw [List.countP_pos_iff]
    exact ⟨_, List.mem_of_getElem? hi, rfl⟩
  rw [used, put, List.countP_set hlt, hget, used]
  simp only [Option.isSome_some, if_true]
  omega

theorem exists_free {t : Table κ α} (h : t.used < t.length) : ∃ i : Nat, t[i]? = some none := by
  by_contra hno
  have hall : ∀ s ∈ t, s.isSome = true := by
    intro s hs
    obtain ⟨i, hi⟩ := List.mem_iff_getElem?.mp hs
    cases s with
    | none => exact absurd ⟨i, hi⟩ hno
    | some kv => rfl
  rw [used, List.countP_eq_length.mpr hall] at h
  omega

def Distinct (l : List (Option (κ × α))) : Prop :=
  l.Pairwise fun a b => ∀ k v v', a = some (k, v) → b ≠ some (k, v')

theorem Reachable.distinct {t : Table κ α} {home : κ → Nat} (h : t.Reachable home) :
    Distinct t := by
  rw [Distinct, List.pairwise_iff_getElem]
  intro i j hi hj hij k v v' hik hjk
  obtain ⟨n, hn, hstop⟩ := h i k v (by rw [List.getElem?_eq_getElem hi, hik])
  obtain ⟨n', hn', hstop'⟩ := h j k v' (by rw [List.getElem?_eq_getElem hj, hjk])
  rw [hstop.unique hstop'] at hn
  omega

end Table

end BlessStar.Lib.LinearProbing
