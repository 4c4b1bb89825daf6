import BlessStar.Lib.ByteString

/-!
# Areas of memory

An area is a byte at every offset.  Texts are written over it and read back;
`Holds` says that a text stands at an offset.
-/

namespace BlessStar.Lib.ByteArea

open Lib.ByteString

abbrev Area := Nat → UInt8

/-- `memcpy` into the area. -/
def write (m : Area) (off : Nat) (bs : Bytes) : Area :=
  fun i => if off ≤ i ∧ i < off + bs.length then bs.getD (i - off) 0 else m i

/-- The `len` bytes from `off` on. -/
def read (m : Area) (off len : Nat) : Bytes := (List.range len).map fun i => m (off + i)

/-- The little-endian number of `width` bytes. -/
def readLE (m : Area) (off width : Nat) : Nat := leNat (read m off width)

/-- The text `bs` stands at `off`. -/
def Holds (m : Area) (off : Nat) (bs : Bytes) : Prop := read m off bs.length = bs

/-- Nothing changes before `n`. -/
def SameBelow (n : Nat) (m m' : Area) : Prop := ∀ i < n, m' i = m i

/-- Nothing changes from `n` on. -/
def SameFrom (n : Nat) (m m' : Area) : Prop := ∀ i, n ≤ i → m' i = m i

variable {m m' : Area} {off off' n : Nat} {bs bs' : Bytes}

@[simp] theorem length_read (m : Area) (off len : Nat) : (read m off len).length = len := by
  simp [read]

theorem read_add (m : Area) (off a b : Nat) :
    read m off (a + b) = read m off a ++ read m (off + a) b := by
  rw [read, List.range_add, List.map_append, List.map_map]
  congr 1
  exact List.map_congr_left fun i _ => congrArg m (Nat.add_assoc off a i).symm

theorem holds_iff : Holds m off bs ↔ ∀ i (hi : i < bs.length), m (off + i) = bs[i] := by
  simp only [Holds, List.ext_getElem_iff, length_read, true_and]
  simp [read]

theorem Holds.read_eq (h : Holds m off bs) {len : Nat} (hlen : len = bs.length) :
    read m off len = bs := by
  rw [hlen]
  exact h

theorem Holds.readLE_eq {width v : Nat} (h : Holds m off (leBytes width v)) (hv : v < 256 ^ width) :
    readLE m off width = v := by
  rw [readLE, h.read_eq (length_leBytes width v).symm, leNat_leBytes hv]

theorem holds_nil : Holds m off [] := rfl

theorem holds_read (m : Area) (off len : Nat) : Holds m off (read m off len) := by
  rw [Holds, length_read]

theorem holds_append_iff {xs ys : Bytes} :
    Holds m off (xs ++ ys) ↔ Holds m off xs ∧ Holds m (off + xs.length) ys := by
  simp only [holds_iff, List.length_append]
  constructor
  · intro h
    constructor
    · intro i hi
      rw [h i (by omega), List.getElem_append_left hi]
    · intro i hi
      rw [Nat.add_assoc, h (xs.length + i) (by omega), List.getElem_append_right (by omega)]
      simp
  · rintro ⟨hxs, hys⟩ i hi
    by_cases hlt : i < xs.length
    · rw [hxs i hlt, List.getElem_append_left hlt]
    · have hsum : off + i = off + xs.length + (i - xs.length) := by omega
      rw [hsum, hys (i - xs.length) (by omega), List.getElem_append_right (by omega)]

theorem write_inside {i : Nat} (hi : i < bs.length) : write m off bs (off + i) = bs[i] := by
  have hrange : off ≤ off + i ∧ off + i < off + bs.length := by omega
  rw [write, if_pos hrange, Nat.add_sub_cancel_left, List.getD_eq_getElem?_getD,
    List.getElem?_eq_getElem hi, Option.getD_some]

theorem write_outside {i : Nat} (hi : i < off ∨ off + bs.length ≤ i) : write m off bs i = m i := by
  rw [write, if_neg (by omega)]

theorem write_nil (m : Area) (off : Nat) : write m off [] = m :=
  funext fun i => write_outside (by rw [List.length_nil]; omega)

theorem holds_write : Holds (write m off bs) off bs :=
  holds_iff.mpr fun _ hi => write_inside hi

theorem Holds.write (h : Holds m off bs)
    (hdisjoint : off + bs.length ≤ off' ∨ off' + bs'.length ≤ off) :
    Holds (write m off' bs') off bs := by
  rw [holds_iff] at h ⊢
  intro i hi
  rw [write_outside (by omega), h i hi]

theorem sameBelow_refl (n : Nat) (m : Area) : SameBelow n m m := fun _ _ => rfl

theorem SameBelow.trans {m'' : Area} (h : SameBelow n m m') (h' : SameBelow n m' m'') :
    SameBelow n m m'' :=
  fun i hi => (h' i hi).trans (h i hi)

theorem SameBelow.mono {k : Nat} (h : SameBelow n m m') (hk : k ≤ n) : SameBelow k m m' :=
  fun i hi => h i (by omega)

theorem sameBelow_write (m : Area) {bs : Bytes} (h : n ≤ off) :
    SameBelow n m (ByteArea.write m off bs) :=
  fun _ hi => write_outside (Or.inl (by omega))

theorem sameFrom_refl (n : Nat) (m : Area) : SameFrom n m m := fun _ _ => rfl

theorem SameFrom.trans {m'' : Area} (h : SameFrom n m m') (h' : SameFrom n m' m'') :
    SameFrom n m m'' :=
  fun i hi => (h' i hi).trans (h i hi)

theorem sameFrom_write (m : Area) {bs : Bytes} (h : off + bs.length ≤ n) :
    SameFrom n m (ByteArea.write m off bs) :=
  fun _ hi => write_outside (Or.inr (by omega))

theorem SameFrom.read_eq (h : SameFrom n m m') (hn : n ≤ off) (len : Nat) :
    read m' off len = read m off len :=
  List.map_congr_left fun _ _ => h _ (by omega)

theorem Holds.of_sameBelow (h : Holds m off bs) (hsame : SameBelow n m m')
    (hend : off + bs.length ≤ n) : Holds m' off bs := by
  rw [holds_iff] at h ⊢
  intro i hi
  rw [hsame _ (by omega), h i hi]

end BlessStar.Lib.ByteArea
