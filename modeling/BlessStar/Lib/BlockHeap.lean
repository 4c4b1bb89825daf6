import Mathlib

/-!
# Heaps of blocks

What `malloc` and `free` hand out and take back: blocks of an address space of
`2 ^ 64` bytes that do not overlap, each with a content.  A block is found by
its address; what is handed out and taken back elsewhere leaves it alone, and
all blocks together fit the address space.
-/

namespace BlessStar.Lib.BlockHeap

universe u

/-- A block that `malloc` handed out. -/
structure Block (α : Type u) where
  address : Nat
  size : Nat
  content : α

abbrev Heap (α : Type u) := List (Block α)

variable {α : Type u}

def Block.Apart (b c : Block α) : Prop :=
  b.address ≠ c.address ∧
    (b.address + b.size ≤ c.address ∨ c.address + c.size ≤ b.address)

instance (b c : Block α) : Decidable (b.Apart c) := inferInstanceAs (Decidable (_ ∧ _))

instance : Std.Symm (@Block.Apart α) := ⟨fun _ _ h => ⟨h.1.symm, h.2.symm⟩⟩

namespace Heap

variable {h : Heap α} {a x : Nat} {b c : Block α}

def find (h : Heap α) (a : Nat) : Option (Block α) := h.find? fun b => b.address = a

/-- `malloc` may hand out this block. -/
def Room (h : Heap α) (b : Block α) : Prop :=
  0 < b.address ∧ b.address + b.size ≤ 2 ^ 64 ∧ ∀ c ∈ h, b.Apart c

instance (h : Heap α) (b : Block α) : Decidable (h.Room b) :=
  inferInstanceAs (Decidable (_ ∧ _ ∧ ∀ c ∈ h, _))

def free (h : Heap α) (a : Nat) : Heap α := h.filter fun b => b.address ≠ a

def store (h : Heap α) (a : Nat) (content : α) : Heap α :=
  h.map fun b => if b.address = a then { b with content := content } else b

def addresses (h : Heap α) : List Nat := h.map (·.address)

structure WellFormed (h : Heap α) : Prop where
  apart : h.Pairwise Block.Apart
  bounded : ∀ b ∈ h, 0 < b.address ∧ b.address + b.size ≤ 2 ^ 64

theorem mem_of_find (hb : h.find a = some b) : b ∈ h := List.mem_of_find?_eq_some hb

theorem address_of_find (hb : h.find a = some b) : b.address = a := by
  simpa using List.find?_some hb

theorem find_eq_none : h.find a = none ↔ a ∉ h.addresses := by
  simp [find, addresses]

theorem mem_addresses : a ∈ h.addresses ↔ ∃ b, h.find a = some b := by
  rw [← Option.isSome_iff_exists, Option.isSome_iff_ne_none, Ne, find_eq_none, not_not]

theorem find_cons (b : Block α) (h : Heap α) (a : Nat) :
    find (b :: h) a = if b.address = a then some b else h.find a := by
  by_cases hb : b.address = a <;> simp [find, hb]

theorem find_free (h : Heap α) (a x : Nat) :
    (h.free a).find x = if x = a then none else h.find x := by
  induction h with
  | nil => simp [free, find]
  | cons b h ih =>
      by_cases hb : b.address = a
      · have hdrop : free (b :: h) a = free h a := by simp [free, hb]
        rw [hdrop, ih, find_cons]
        by_cases hx : x = a
        · simp [hx]
        · have hne : b.address ≠ x := fun heq => hx (heq.symm.trans hb)
          simp [hx, hne]
      · have hkeep : free (b :: h) a = b :: free h a := by simp [free, hb]
        rw [hkeep, find_cons, find_cons, ih]
        by_cases hx : b.address = x
        · have hne : x ≠ a := fun heq => hb (hx.trans heq)
          simp [hx, hne]
        · simp [hx]

theorem find_store (h : Heap α) (a x : Nat) (content : α) :
    (h.store a content).find x =
      if x = a then (h.find a).map fun b => { b with content := content } else h.find x := by
  induction h with
  | nil => simp [store, find]
  | cons b h ih =>
      have hcons : store (b :: h) a content =
          (if b.address = a then { b with content := content } else b) :: store h a content := rfl
      rw [hcons, find_cons, ih, find_cons, find_cons]
      by_cases hb : b.address = a
      · by_cases hx : x = a
        · simp [hb, hx]
        · have hne : a ≠ x := Ne.symm hx
          simp [hb, hx, hne]
      · by_cases hx : x = a
        · simp [hb, hx]
        · simp [hb, hx]

theorem WellFormed.nil : WellFormed ([] : Heap α) := ⟨.nil, fun _ hb => absurd hb (by simp)⟩

theorem WellFormed.malloc (hh : h.WellFormed) (hroom : h.Room b) : WellFormed (b :: h) := by
  refine ⟨List.pairwise_cons.mpr ⟨hroom.2.2, hh.apart⟩, fun c hc => ?_⟩
  rcases List.mem_cons.mp hc with rfl | hc
  · exact ⟨hroom.1, hroom.2.1⟩
  · exact hh.bounded c hc

theorem WellFormed.free (hh : h.WellFormed) (a : Nat) : (h.free a).WellFormed :=
  ⟨hh.apart.filter _, fun b hb => hh.bounded b (List.mem_of_mem_filter hb)⟩

theorem WellFormed.store (hh : h.WellFormed) (a : Nat) (content : α) :
    (h.store a content).WellFormed := by
  refine ⟨List.pairwise_map.mpr (hh.apart.imp fun {b c} hbc => ?_), fun b hb => ?_⟩
  · dsimp only [Block.Apart] at hbc ⊢
    split <;> split <;> exact hbc
  · obtain ⟨c, hc, rfl⟩ := List.mem_map.mp hb
    have hbound := hh.bounded c hc
    split <;> exact hbound

theorem WellFormed.nodup (hh : h.WellFormed) : h.addresses.Nodup :=
  List.pairwise_map.mpr (hh.apart.imp fun hbc => hbc.1)

theorem WellFormed.find_of_mem (hh : h.WellFormed) (hb : b ∈ h) : h.find b.address = some b := by
  induction h with
  | nil => simp at hb
  | cons c h ih =>
      obtain ⟨hc, hrest⟩ := List.pairwise_cons.mp hh.apart
      rw [find_cons]
      rcases List.mem_cons.mp hb with rfl | hb
      · simp
      · have hne : c.address ≠ b.address := (hc b hb).1
        rw [if_neg hne]
        exact ih ⟨hrest, fun x hx => hh.bounded x (List.mem_cons_of_mem c hx)⟩ hb

theorem WellFormed.apart_of_find (hh : h.WellFormed) (ha : h.find a = some b)
    (hx : h.find x = some c) (hne : a ≠ x) : b.Apart c := by
  refine hh.apart.forall (mem_of_find ha) (mem_of_find hx) ?_
  rintro rfl
  exact hne ((address_of_find ha).symm.trans (address_of_find hx))

@[simp] theorem addresses_cons (b : Block α) (h : Heap α) :
    addresses (b :: h) = b.address :: h.addresses := rfl

@[simp] theorem addresses_store (h : Heap α) (a : Nat) (content : α) :
    (h.store a content).addresses = h.addresses := by
  rw [addresses, store, List.map_map]
  refine List.map_congr_left fun b _ => ?_
  dsimp only [Function.comp]
  split <;> rfl

theorem WellFormed.addresses_free (hh : h.WellFormed) (a : Nat) :
    (h.free a).addresses = h.addresses.erase a := by
  rw [hh.nodup.erase_eq_filter, addresses, Heap.free, addresses, List.filter_map]
  congr 2
  ext b
  simp [bne, beq_eq_decide]

def covered (h : Heap α) : Finset Nat :=
  h.foldr (fun b s => Finset.Ico b.address (b.address + b.size) ∪ s) ∅

theorem mem_covered : x ∈ h.covered ↔ ∃ b ∈ h, b.address ≤ x ∧ x < b.address + b.size := by
  induction h with
  | nil => simp [covered]
  | cons b h ih =>
      have hcons : covered (b :: h) = Finset.Ico b.address (b.address + b.size) ∪ covered h := rfl
      rw [hcons, Finset.mem_union, Finset.mem_Ico, ih, List.exists_mem_cons_iff]

theorem card_covered (hh : h.WellFormed) : h.covered.card = (h.map (·.size)).sum := by
  induction h with
  | nil => rfl
  | cons b h ih =>
      obtain ⟨hb, hrest⟩ := List.pairwise_cons.mp hh.apart
      have hdisjoint : Disjoint (Finset.Ico b.address (b.address + b.size)) (covered h) := by
        rw [Finset.disjoint_left]
        intro x hx hx'
        obtain ⟨c, hc, hlow, hhigh⟩ := mem_covered.mp hx'
        have hapart := (hb c hc).2
        have hin := Finset.mem_Ico.mp hx
        omega
      have htail := ih ⟨hrest, fun x hx => hh.bounded x (List.mem_cons_of_mem b hx)⟩
      calc
        (covered (b :: h)).card
            = (Finset.Ico b.address (b.address + b.size)).card + (covered h).card :=
              Finset.card_union_of_disjoint hdisjoint
        _ = b.size + (h.map (·.size)).sum := by rw [Nat.card_Ico, htail]; omega
        _ = ((b :: h).map (·.size)).sum := by rw [List.map_cons, List.sum_cons]

/-- **All blocks together fit the address space.** -/
theorem WellFormed.sum_size_lt (hh : h.WellFormed) : (h.map (·.size)).sum < 2 ^ 64 := by
  have hsub : h.covered ⊆ Finset.Ico 1 (2 ^ 64) := by
    intro x hx
    obtain ⟨b, hb, hlow, hhigh⟩ := mem_covered.mp hx
    have hbound := hh.bounded b hb
    exact Finset.mem_Ico.mpr ⟨by omega, by omega⟩
  have hcard := Finset.card_le_card hsub
  rw [card_covered hh, Nat.card_Ico] at hcard
  omega

end Heap

end BlessStar.Lib.BlockHeap
