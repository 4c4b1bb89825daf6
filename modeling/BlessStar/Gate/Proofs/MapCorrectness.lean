import Mathlib.Data.Finset.Card
import BlessStar.Gate.Map
import BlessStar.Lib.LinearProbing

/-!
# The gate map is correct

The slots of a gate map, read as a table with linear probing, stay reachable
and never fill up.  A rebuild moves every key into a table in which none of its
own inserts rebuilds again, so the recursion between the two ends.
-/

namespace BlessStar.Gate.Proofs.MapCorrectness

open Lib.ByteString Lib.LinearProbing GateMap

variable {α : Type}

theorem nextPow2Loop_spec {n : Nat} : ∀ (turns e : Nat), n ≤ 2 ^ e * 2 ^ turns →
    ∃ e', nextPow2Loop n turns (2 ^ e) = 2 ^ e' ∧ n ≤ 2 ^ e' := by
  intro turns
  induction turns with
  | zero => intro e h; exact ⟨e, rfl, by simpa using h⟩
  | succ turns ih =>
      intro e h
      rw [nextPow2Loop]
      by_cases hlt : 2 ^ e < n
      · rw [if_pos hlt, ← pow_succ]
        apply ih
        calc n ≤ 2 ^ e * 2 ^ (turns + 1) := h
          _ = 2 ^ (e + 1) * 2 ^ turns := by ring
      · rw [if_neg hlt]
        exact ⟨e, rfl, by omega⟩

theorem nextPow2_spec (n : Nat) : ∃ e, nextPow2 n = 2 ^ e ∧ n ≤ 2 ^ e := by
  have h : n ≤ 2 ^ 0 * 2 ^ n := by rw [pow_zero, Nat.one_mul]; exact Nat.lt_two_pow_self.le
  exact nextPow2Loop_spec n 0 h

theorem max_nextPow2_spec (n : Nat) : ∃ e, max (nextPow2 n) 8 = 2 ^ e ∧ 8 ≤ 2 ^ e ∧ n ≤ 2 ^ e := by
  obtain ⟨e, he, hle⟩ := nextPow2_spec n
  rw [he]
  by_cases h8 : 8 ≤ 2 ^ e
  · exact ⟨e, by omega, h8, hle⟩
  · exact ⟨3, by omega, by omega, by omega⟩

theorem load_of_sized {cap count : Nat} (he : ∃ e, cap = 2 ^ e) (h8 : 8 ≤ cap)
    (h : count * 3 / 2 ≤ cap) : count ≤ cap * 7 / 10 := by
  obtain ⟨e, rfl⟩ := he
  rcases Nat.lt_or_ge e 6 with hlt | hge
  · interval_cases e <;> omega
  · have h64 : 2 ^ 6 ≤ 2 ^ e := Nat.pow_le_pow_right (by omega) hge
    omega

def entry : GateMapSlot α → Option (Bytes × α)
  | .full key nodePtr => some (key, nodePtr)
  | _ => none

def table (map : GateMap α) : Table Bytes α := map.slots.map entry

def homeOf (key : Bytes) : Nat := (fnv1aHash key).toNat

structure Valid (map : GateMap α) : Prop where
  pow : ∃ e, map.capacity = 2 ^ e
  eight : 8 ≤ map.capacity
  noTomb : ∀ s ∈ map.slots, s ≠ .tomb
  reachable : (table map).Reachable homeOf
  counted : map.count = (table map).used
  room : map.count < map.capacity

@[simp] theorem length_table (map : GateMap α) : (table map).length = map.capacity :=
  List.length_map _

theorem table_get (map : GateMap α) (i : Nat) : (table map)[i]? = map.slots[i]?.map entry :=
  List.getElem?_map

theorem firstIdx_eq {map : GateMap α} (hpow : ∃ e, map.capacity = 2 ^ e) (key : Bytes) :
    map.firstIdx key = (table map).probe (homeOf key) 0 := by
  obtain ⟨e, he⟩ := hpow
  rw [firstIdx, Table.probe, length_table, he, Nat.and_two_pow_sub_one_eq_mod, homeOf, Nat.add_zero]

theorem nextIdx_eq {map : GateMap α} (hpow : ∃ e, map.capacity = 2 ^ e) (home j : Nat) :
    map.nextIdx ((table map).probe home j) = (table map).probe home (j + 1) := by
  obtain ⟨e, he⟩ := hpow
  rw [nextIdx, Table.probe, Table.probe, length_table, he, Nat.and_two_pow_sub_one_eq_mod,
    Nat.mod_add_mod, Nat.add_assoc]

theorem slot_before {map : GateMap α} {key : Bytes} {home i j : Nat} (hstop : (table map).FirstStop key home j)
    (hi : i < j) :
    ∃ key' v, map.slots[(table map).probe home i]? = some (.full key' v) ∧ key' ≠ key := by
  obtain ⟨key', v, hget, hne⟩ := hstop.other_key hi
  rw [table_get] at hget
  obtain ⟨slot, hslot, hentry⟩ := Option.map_eq_some_iff.mp hget
  cases slot with
  | full k w =>
      simp only [entry, Option.some.injEq, Prod.mk.injEq] at hentry
      exact ⟨k, w, hslot, hentry.1 ▸ hne⟩
  | empty => cases hentry
  | tomb => cases hentry

section Searching

variable {map : GateMap α} (hvalid : Valid map)

include hvalid

theorem slot_at {key : Bytes} {home j : Nat} (hstop : (table map).FirstStop key home j) :
    map.slots[(table map).probe home j]? = some .empty ∨
      ∃ v, map.slots[(table map).probe home j]? = some (.full key v) := by
  rcases hstop.stops with hfree | ⟨v, hv⟩
  · rw [table_get] at hfree
    obtain ⟨slot, hslot, hentry⟩ := Option.map_eq_some_iff.mp hfree
    cases slot with
    | empty => exact Or.inl hslot
    | tomb => exact absurd rfl (hvalid.noTomb _ (List.mem_of_getElem? hslot))
    | full k w => cases hentry
  · rw [table_get] at hv
    obtain ⟨slot, hslot, hentry⟩ := Option.map_eq_some_iff.mp hv
    cases slot with
    | full k w =>
        simp only [entry, Option.some.injEq, Prod.mk.injEq] at hentry
        exact Or.inr ⟨w, by rw [hslot, hentry.1]⟩
    | empty => cases hentry
    | tomb => cases hentry

theorem findSlotLoop_eq {key : Bytes} {home j : Nat}
    (hstop : (table map).FirstStop key home j) (turns : Nat) : ∀ i, i ≤ j → j < i + turns →
    map.findSlotLoop key turns ((table map).probe home i) none =
      some ((table map).probe home j) := by
  induction turns with
  | zero => intro i hi hlt; omega
  | succ turns ih =>
      intro i hi hlt
      rw [findSlotLoop]
      rcases Nat.lt_or_eq_of_le hi with hlt' | rfl
      · obtain ⟨key', v, hget, hne⟩ := slot_before hstop hlt'
        rw [hget]
        simp only [if_neg hne]
        rw [nextIdx_eq hvalid.pow]
        apply ih <;> omega
      · rcases slot_at hvalid hstop with hget | ⟨v, hget⟩
        · rw [hget]
          rfl
        · rw [hget]
          simp only [if_true]

theorem lookupLoop_eq {key : Bytes} {home j : Nat}
    (hstop : (table map).FirstStop key home j) (turns : Nat) : ∀ i, i ≤ j → j < i + turns →
    map.lookupLoop key turns ((table map).probe home i) =
      ((table map)[(table map).probe home j]?.join).map Prod.snd := by
  induction turns with
  | zero => intro i hi hlt; omega
  | succ turns ih =>
      intro i hi hlt
      rw [lookupLoop]
      rcases Nat.lt_or_eq_of_le hi with hlt' | rfl
      · obtain ⟨key', v, hget, hne⟩ := slot_before hstop hlt'
        rw [hget]
        simp only [if_neg hne]
        rw [nextIdx_eq hvalid.pow]
        apply ih <;> omega
      · rcases slot_at hvalid hstop with hget | ⟨v, hget⟩
        · rw [table_get, hget]
          rfl
        · rw [table_get, hget]
          simp [entry]

theorem exists_stop (key : Bytes) (home : Nat) : ∃ j, (table map).FirstStop key home j := by
  have hroom : (table map).used < (table map).length := by
    rw [← hvalid.counted, length_table]
    exact hvalid.room
  obtain ⟨e, he⟩ := Table.exists_free hroom
  exact Table.exists_firstStop he key home

theorem findSlot_eq {key : Bytes} {j : Nat} (hstop : (table map).FirstStop key (homeOf key) j) :
    map.findSlot key = some ((table map).probe (homeOf key) j) := by
  have hlt := hstop.lt
  rw [length_table] at hlt
  rw [findSlot, firstIdx_eq hvalid.pow]
  apply findSlotLoop_eq hvalid hstop <;> omega

/-- **Lookup.**  A valid map answers with what its table holds. -/
theorem lookup_eq_some_iff (key : Bytes) (v : α) :
    map.lookup key = some v ↔ (table map).Holds key v := by
  obtain ⟨j, hstop⟩ := exists_stop hvalid key (homeOf key)
  have hlt := hstop.lt
  rw [length_table] at hlt
  rw [Table.holds_iff hvalid.reachable hstop]
  by_cases hzero : map.count = 0
  · -- an empty table: no slot holds a key
    have hused : (table map).used = 0 := by rw [← hvalid.counted, hzero]
    rw [lookup, if_pos hzero]
    refine ⟨fun h => absurd h (by simp), fun h => ?_⟩
    have hnone := List.countP_eq_zero.mp hused _ (List.mem_of_getElem? h)
    exact absurd rfl hnone
  · rw [lookup, if_neg hzero, firstIdx_eq hvalid.pow,
      lookupLoop_eq hvalid hstop _ 0 (by omega) (by omega)]
    rcases hstop.stops with hfree | ⟨w, hw⟩
    · rw [hfree]
      simp
    · rw [hw]
      simp

end Searching

structure Stored (map : GateMap α) (key : Bytes) (v : α) (map' : GateMap α) : Prop where
  valid : Valid map'
  holds : ∀ k w, (table map').Holds k w ↔ (k = key ∧ w = v) ∨ (k ≠ key ∧ (table map).Holds k w)
  count_old : (∃ w, (table map).Holds key w) → map'.count = map.count
  count_new : (¬∃ w, (table map).Holds key w) → map'.count = map.count + 1

theorem table_write (map : GateMap α) (idx : Nat) (key : Bytes) (v : α) :
    table (map.write idx key v) = (table map).put idx key v :=
  List.map_set

@[simp] theorem capacity_write (map : GateMap α) (idx : Nat) (key : Bytes) (v : α) :
    (map.write idx key v).capacity = map.capacity :=
  List.length_set

theorem noTomb_write {map : GateMap α} (hvalid : Valid map) (idx : Nat) (key : Bytes) (v : α) :
    ∀ s ∈ (map.write idx key v).slots, s ≠ .tomb := by
  intro s hs
  rcases List.mem_or_eq_of_mem_set hs with hmem | rfl
  · exact hvalid.noTomb s hmem
  · nofun

theorem count_write {map : GateMap α} (hvalid : Valid map) {key : Bytes} {home j : Nat} (v : α)
    (hstop : (table map).FirstStop key home j) :
    (map.write ((table map).probe home j) key v).count =
      (table (map.write ((table map).probe home j) key v)).used := by
  rw [table_write]
  rcases slot_at hvalid hstop with hget | ⟨w, hget⟩
  · have hfree : (table map)[(table map).probe home j]? = some none := by
      rw [table_get, hget]
      rfl
    rw [Table.used_put_free hfree, ← hvalid.counted]
    simp only [write, hget]
  · have hkey : (table map)[(table map).probe home j]? = some (some (key, w)) := by
      rw [table_get, hget]
      rfl
    rw [Table.used_put_key hkey, ← hvalid.counted]
    simp only [write, hget]

theorem insertInto_spec {map : GateMap α} (hvalid : Valid map) (key : Bytes) (v : α)
    (hroom : map.count + 1 < map.capacity) :
    ∃ map', map.insertInto key v = (0, map') ∧ map'.capacity = map.capacity ∧
      Stored map key v map' := by
  obtain ⟨j, hstop⟩ := exists_stop hvalid key (homeOf key)
  refine ⟨map.write ((table map).probe (homeOf key) j) key v, ?_, capacity_write .., ?_⟩
  · rw [insertInto, findSlot_eq hvalid hstop]
  · have hcount := count_write hvalid v hstop
    have hold : (∃ w, (table map).Holds key w) →
        (map.write ((table map).probe (homeOf key) j) key v).count = map.count := by
      rintro ⟨w, hw⟩
      rw [hcount, table_write,
        Table.used_put_key ((Table.holds_iff hvalid.reachable hstop w).mp hw), hvalid.counted]
    have hnew : (¬∃ w, (table map).Holds key w) →
        (map.write ((table map).probe (homeOf key) j) key v).count = map.count + 1 := by
      intro hno
      have hfree : (table map)[(table map).probe (homeOf key) j]? = some none := by
        rcases hstop.stops with hfree | ⟨w, hw⟩
        · exact hfree
        · exact absurd ⟨w, _, hw⟩ hno
      rw [hcount, table_write, Table.used_put_free hfree, hvalid.counted]
    refine ⟨⟨?_, ?_, noTomb_write hvalid _ _ _, ?_, hcount, ?_⟩, ?_, hold, hnew⟩
    · rw [capacity_write]
      exact hvalid.pow
    · rw [capacity_write]
      exact hvalid.eight
    · rw [table_write]
      exact hvalid.reachable.put hstop v
    · rw [capacity_write]
      by_cases hheld : ∃ w, (table map).Holds key w
      · rw [hold hheld]
        exact hvalid.room
      · rw [hnew hheld]
        exact hroom
    · rw [table_write]
      exact Table.holds_put hvalid.reachable hstop v

theorem insert_of_load {map : GateMap α} (key : Bytes) (v : α) (fuel : Nat)
    (hload : map.count + 1 ≤ map.capacity * 7 / 10) :
    map.insert (fuel + 1) key v = some (map.insertInto key v) := by
  rw [GateMap.insert, if_neg (by omega)]

structure Moved (m : GateMap α) (slots : List (GateMapSlot α)) (m' : GateMap α) : Prop where
  valid : Valid m'
  capacity : m'.capacity = m.capacity
  holds : ∀ k w, (table m').Holds k w ↔ (table m).Holds k w ∨ GateMapSlot.full k w ∈ slots
  count : m'.count = m.count + Table.used (slots.map entry)

theorem holds_iff_mem {map : GateMap α} (k : Bytes) (w : α) :
    (table map).Holds k w ↔ GateMapSlot.full k w ∈ map.slots := by
  constructor
  · rintro ⟨i, hi⟩
    rw [table_get] at hi
    obtain ⟨slot, hslot, hentry⟩ := Option.map_eq_some_iff.mp hi
    cases slot with
    | full k' w' =>
        simp only [entry, Option.some.injEq, Prod.mk.injEq] at hentry
        obtain ⟨rfl, rfl⟩ := hentry
        exact List.mem_of_getElem? hslot
    | empty => cases hentry
    | tomb => cases hentry
  · intro hmem
    obtain ⟨i, hi⟩ := List.mem_iff_getElem?.mp hmem
    exact ⟨i, by rw [table_get, hi]; rfl⟩

theorem move_slots (fuel : Nat) (slots : List (GateMapSlot α)) : ∀ m : GateMap α, Valid m →
    Table.Distinct (slots.map entry) →
    (∀ k v w, GateMapSlot.full k v ∈ slots → ¬(table m).Holds k w) →
    m.count + Table.used (slots.map entry) ≤ m.capacity * 7 / 10 →
    ∃ m', slots.foldlM (moveSlot (GateMap.insert (fuel + 1))) m = some m' ∧ Moved m slots m' := by
  induction slots with
  | nil => intro m hvalid _ _ _; exact ⟨m, rfl, hvalid, rfl, by simp, rfl⟩
  | cons slot slots ih =>
      intro m hvalid hdist hnew hload
      rw [List.foldlM_cons]
      obtain ⟨hhead, hrest⟩ := List.pairwise_cons.mp hdist
      cases slot with
      | empty =>
          obtain ⟨m', hrun, h⟩ := ih m hvalid hrest
            (fun k v w hk => hnew k v w (List.mem_cons_of_mem _ hk)) hload
          exact ⟨m', hrun, h.valid, h.capacity, by simp [h.holds], h.count⟩
      | tomb =>
          obtain ⟨m', hrun, h⟩ := ih m hvalid hrest
            (fun k v w hk => hnew k v w (List.mem_cons_of_mem _ hk)) hload
          exact ⟨m', hrun, h.valid, h.capacity, by simp [h.holds], h.count⟩
      | full key v =>
          have hused : Table.used ((GateMapSlot.full key v :: slots).map entry) =
              Table.used (slots.map entry) + 1 := List.countP_cons_of_pos rfl
          rw [hused] at hload
          have hcap := hvalid.eight
          obtain ⟨m₁, hins, hcap₁, hst⟩ := insertInto_spec hvalid key v (by omega)
          have hcount : m₁.count = m.count + 1 :=
            hst.count_new fun ⟨w, hw⟩ => hnew key v w List.mem_cons_self hw
          have hnew₁ : ∀ k w w', GateMapSlot.full k w ∈ slots → ¬(table m₁).Holds k w' := by
            intro k w w' hk hheld
            rcases (hst.holds k w').mp hheld with ⟨rfl, -⟩ | ⟨-, hheld⟩
            · exact hhead (some (k, w)) (List.mem_map_of_mem hk) k v w rfl rfl
            · exact hnew k w w' (List.mem_cons_of_mem _ hk) hheld
          obtain ⟨m', hrun, h⟩ := ih m₁ hst.valid hrest hnew₁ (by rw [hcap₁]; omega)
          refine ⟨m', ?_, h.valid, by rw [h.capacity, hcap₁], ?_,
            by rw [h.count, hcount, hused]; omega⟩
          · rw [moveSlot, insert_of_load key v fuel (by omega), hins]
            exact hrun
          · intro k w
            rw [h.holds, hst.holds, List.mem_cons, GateMapSlot.full.injEq]
            by_cases hk : k = key
            · subst hk
              have hno := hnew k v w List.mem_cons_self
              simp [hno]
            · simp [hk]

theorem valid_emptied {cap : Nat} (hpow : ∃ e, cap = 2 ^ e) (h8 : 8 ≤ cap) :
    Valid (⟨List.replicate cap .empty, 0⟩ : GateMap α) where
  pow := by simpa [capacity] using hpow
  eight := by simpa [capacity] using h8
  noTomb := by
    intro s hs
    rw [List.eq_of_mem_replicate hs]
    nofun
  reachable := by
    intro i k v hi
    rw [table_get] at hi
    obtain ⟨slot, hslot, hentry⟩ := Option.map_eq_some_iff.mp hi
    rw [List.eq_of_mem_replicate (List.mem_of_getElem? hslot)] at hentry
    cases hentry
  counted := by simp [Table.used, table, entry, List.countP_replicate]
  room := by simp [capacity]; omega

theorem not_holds_emptied (cap : Nat) (k : Bytes) (w : α) :
    ¬(table (⟨List.replicate cap .empty, 0⟩ : GateMap α)).Holds k w := by
  rw [holds_iff_mem]
  intro hmem
  cases List.eq_of_mem_replicate hmem

structure Rebuilt (map map' : GateMap α) : Prop where
  valid : Valid map'
  holds : ∀ k w, (table map').Holds k w ↔ (table map).Holds k w
  count : map'.count = map.count
  sized : map'.count * 3 / 2 ≤ map'.capacity

theorem rebuild_spec {map : GateMap α} (hvalid : Valid map) (fuel : Nat) :
    ∃ map', map.rebuild (fuel + 2) = some (0, map') ∧ Rebuilt map map' := by
  obtain ⟨e, hcap, h8, hsized⟩ := max_nextPow2_spec (map.count * 3 / 2)
  rw [rebuild]
  by_cases hsame : max (nextPow2 (map.count * 3 / 2)) 8 = map.capacity
  · rw [if_pos hsame]
    exact ⟨map, rfl, hvalid, fun _ _ => Iff.rfl, rfl, by omega⟩
  · rw [if_neg hsame, hcap]
    have hload := load_of_sized ⟨e, rfl⟩ h8 hsized
    have hempty := valid_emptied (α := α) ⟨e, rfl⟩ h8
    obtain ⟨m', hrun, h⟩ := move_slots fuel map.slots _ hempty hvalid.reachable.distinct
      (fun k v w _ => not_holds_emptied _ k w) (by
        have hcounted := hvalid.counted
        rw [table] at hcounted
        simp only [← hcounted, capacity, List.length_replicate]
        omega)
    refine ⟨m', ?_, h.valid, ?_, ?_, ?_⟩
    · simp only [hrun, Option.map_some]
    · intro k w
      rw [h.holds, show (table map).Holds k w ↔ _ from holds_iff_mem k w]
      exact ⟨fun hor => hor.resolve_left (not_holds_emptied _ k w), Or.inr⟩
    · rw [h.count, Nat.zero_add, hvalid.counted]
      rfl
    · have hcount : m'.count = map.count := by
        rw [h.count, Nat.zero_add, hvalid.counted]
        rfl
      rw [hcount, h.capacity]
      simpa [capacity] using hsized

theorem insert_spec {map : GateMap α} (hvalid : Valid map) (key : Bytes) (v : α) (fuel : Nat) :
    ∃ map', map.insert (fuel + 3) key v = some (0, map') ∧ Stored map key v map' := by
  have h8 := hvalid.eight
  rw [GateMap.insert]
  by_cases hload : map.count + 1 > map.capacity * 7 / 10
  · rw [if_pos hload]
    obtain ⟨map₁, hrun, h⟩ := rebuild_spec hvalid fuel
    have h8' := h.valid.eight
    have hsized := h.sized
    obtain ⟨map', hins, -, hst⟩ := insertInto_spec h.valid key v (by omega)
    refine ⟨map', ?_, hst.valid, ?_, ?_, ?_⟩
    · rw [hrun]
      simp only [ne_eq, not_true_eq_false, if_false, hins]
    · intro k w
      rw [hst.holds, h.holds]
    · rintro ⟨w, hw⟩
      rw [hst.count_old ⟨w, (h.holds key w).mpr hw⟩, h.count]
    · intro hno
      rw [hst.count_new fun ⟨w, hw⟩ => hno ⟨w, (h.holds key w).mp hw⟩, h.count]
  · rw [if_neg hload]
    obtain ⟨map', hins, -, hst⟩ := insertInto_spec hvalid key v (by omega)
    exact ⟨map', by rw [hins], hst⟩

def lastInsert (cs : List (Call α)) (k : Bytes) : Option α :=
  cs.reverse.findSome? fun
    | .insert key v => if key = k then some v else none
    | .rebuild => none

def insertedKeys (cs : List (Call α)) : List Bytes :=
  cs.filterMap fun
    | .insert key _ => some key
    | .rebuild => none

theorem lastInsert_insert (cs : List (Call α)) (key k : Bytes) (v : α) :
    lastInsert (cs ++ [.insert key v]) k = if key = k then some v else lastInsert cs k := by
  rw [lastInsert, List.reverse_append, List.reverse_singleton, List.singleton_append,
    List.findSome?_cons]
  by_cases hk : key = k
  · simp [hk]
  · simp [hk, lastInsert]

theorem lastInsert_rebuild (cs : List (Call α)) (k : Bytes) :
    lastInsert (cs ++ [.rebuild]) k = lastInsert cs k := by
  rw [lastInsert, List.reverse_append, List.reverse_singleton, List.singleton_append,
    List.findSome?_cons, lastInsert]

theorem lastInsert_isSome_iff (cs : List (Call α)) (k : Bytes) :
    (∃ v, lastInsert cs k = some v) ↔ k ∈ insertedKeys cs := by
  induction cs using List.reverseRecOn with
  | nil => simp [lastInsert, insertedKeys]
  | append_singleton cs c ih =>
      cases c with
      | insert key v =>
          rw [insertedKeys, List.filterMap_append, List.mem_append, ← insertedKeys, ← ih]
          simp only [lastInsert_insert]
          by_cases hk : key = k
          · simp [hk]
          · simp [hk, Ne.symm hk]
      | rebuild =>
          rw [insertedKeys, List.filterMap_append, List.mem_append, ← insertedKeys, ← ih]
          simp [lastInsert_rebuild]

structure Follows (map : GateMap α) (cs : List (Call α)) : Prop where
  valid : Valid map
  holds : ∀ k w, (table map).Holds k w ↔ lastInsert cs k = some w
  count : map.count = (insertedKeys cs).toFinset.card

theorem follows_create (capacity : Nat) : Follows (create (α := α) capacity) [] := by
  obtain ⟨e, hcap, h8, -⟩ := max_nextPow2_spec capacity
  have hpow : ∃ e, max (nextPow2 capacity) 8 = 2 ^ e := ⟨e, hcap⟩
  refine ⟨valid_emptied hpow (by omega), fun k w => ?_, rfl⟩
  exact iff_of_false (not_holds_emptied _ k w) (by simp [lastInsert])

theorem Follows.call {map : GateMap α} {past : List (Call α)} (h : Follows map past)
    (c : Call α) (fuel : Nat) :
    ∃ map', map.call (fuel + 3) c = some (0, map') ∧ Follows map' (past ++ [c]) := by
  cases c with
  | insert key v =>
      obtain ⟨map', hrun, hst⟩ := insert_spec h.valid key v fuel
      refine ⟨map', hrun, hst.valid, fun k w => ?_, ?_⟩
      · rw [hst.holds, h.holds, lastInsert_insert]
        by_cases hk : key = k
        · simp [hk, eq_comm]
        · simp [hk, Ne.symm hk]
      · have hheld : (∃ w, (table map).Holds key w) ↔ key ∈ insertedKeys past := by
          simp only [h.holds]
          exact lastInsert_isSome_iff past key
        have hkeys : insertedKeys (past ++ [.insert key v]) = insertedKeys past ++ [key] := by
          rw [insertedKeys, List.filterMap_append]
          rfl
        rw [hkeys, List.toFinset_append, List.toFinset_cons, List.toFinset_nil,
          Finset.union_insert, Finset.union_empty]
        by_cases hmem : key ∈ insertedKeys past
        · rw [hst.count_old (hheld.mpr hmem), h.count,
            Finset.insert_eq_self.mpr (List.mem_toFinset.mpr hmem)]
        · rw [hst.count_new fun hw => hmem (hheld.mp hw), h.count,
            Finset.card_insert_of_notMem fun hin => hmem (List.mem_toFinset.mp hin)]
  | rebuild =>
      obtain ⟨map', hrun, hre⟩ := rebuild_spec h.valid (fuel + 1)
      refine ⟨map', hrun, hre.valid, fun k w => ?_, ?_⟩
      · rw [hre.holds, h.holds, lastInsert_rebuild]
      · rw [hre.count, h.count, insertedKeys, insertedKeys, List.filterMap_append]
        simp

theorem Follows.calls (fuel : Nat) (cs : List (Call α)) : ∀ {map : GateMap α}
    {past : List (Call α)}, Follows map past →
    ∃ rcs map', map.calls (fuel + 3) cs = some (rcs, map') ∧ (∀ rc ∈ rcs, rc = 0) ∧
      Follows map' (past ++ cs) := by
  induction cs with
  | nil =>
      intro map past h
      exact ⟨[], map, rfl, by simp, by rwa [List.append_nil]⟩
  | cons c cs ih =>
      intro map past h
      obtain ⟨map₁, hcall, h₁⟩ := h.call c fuel
      obtain ⟨rcs, map', hrun, hzero, h'⟩ := ih h₁
      refine ⟨0 :: rcs, map', ?_, by simpa using hzero, by simpa using h'⟩
      rw [GateMap.calls, hcall]
      simp only [hrun, Option.map_some]

/-- **The gate map.**  After any calls on a map of any initial capacity, all
have succeeded, a lookup returns the node of the last insert of its key and
fails for a key never inserted, the count is the number of distinct keys, and
some slot is empty. -/
theorem map_correct (capacity : Nat) (cs : List (Call α)) (fuel : Nat) :
    ∃ rcs map, (create capacity).calls (fuel + 3) cs = some (rcs, map) ∧
      (∀ rc ∈ rcs, rc = 0) ∧
      (∀ k, map.lookup k = lastInsert cs k) ∧
      map.count = (insertedKeys cs).toFinset.card ∧
      .empty ∈ map.slots := by
  obtain ⟨rcs, map, hrun, hzero, h⟩ := (follows_create (α := α) capacity).calls fuel cs
  rw [List.nil_append] at h
  refine ⟨rcs, map, hrun, hzero, fun k => ?_, h.count, ?_⟩
  · apply Option.ext
    intro v
    rw [lookup_eq_some_iff h.valid, h.holds]
  · have hroom : (table map).used < (table map).length := by
      rw [← h.valid.counted, length_table]
      exact h.valid.room
    obtain ⟨i, hi⟩ := Table.exists_free hroom
    rw [table_get] at hi
    obtain ⟨slot, hslot, hentry⟩ := Option.map_eq_some_iff.mp hi
    have hmem := List.mem_of_getElem? hslot
    cases slot with
    | empty => exact hmem
    | tomb => exact absurd rfl (h.valid.noTomb _ hmem)
    | full k v => cases hentry

end BlessStar.Gate.Proofs.MapCorrectness
