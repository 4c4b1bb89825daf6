import BlessStar.Runtime.MemoryPool

/-!
# The safety of the memory pool

The chunks of the lists and the blocks on no list are the blocks of the heap,
and the counters are sums over them.  This lasts as long as no size wraps and no
chunk of a list is taken for a block of its own when it is given back: such a
chunk has a size that the pool was created with and that is above the limit of
the lists, and giving it back frees it and leaves it on its list.
-/

namespace BlessStar.Runtime.Proofs.MemoryPoolSafety

open Lib.BlockHeap Lib.Transition BsMemoryPool

variable {s s' : BsMemoryPool} {h h' : Heap ChunkHeader} {a x : Nat} {c : BsMemoryPoolCategory}
  {chunk : Block ChunkHeader} {size : UInt64}

def bytesAt (heap : Heap ChunkHeader) (a : Nat) : Nat := sizeAt heap a + sizeofHeader.toNat

theorem sizeAt_of_find (hfind : h.find a = some chunk) :
    sizeAt h a = chunk.content.size.toNat := by
  simp [sizeAt, hfind]

theorem allocatedAt_of_find (hfind : h.find a = some chunk) :
    allocatedAt h a = chunk.content.isAllocated := by
  simp [allocatedAt, hfind]

theorem sizeAt_congr (hfind : h.find a = h'.find a) : sizeAt h a = sizeAt h' a := by
  rw [sizeAt, hfind, ← sizeAt]

theorem allocatedAt_congr (hfind : h.find a = h'.find a) :
    allocatedAt h a = allocatedAt h' a := by
  rw [allocatedAt, hfind, ← allocatedAt]

def ChunkHeader.mark (header : ChunkHeader) (isAllocated : Bool) : ChunkHeader :=
  { header with isAllocated := isAllocated }

theorem sizeAt_store (hfind : h.find a = some chunk) (v : Bool) (x : Nat) :
    sizeAt (h.store a (ChunkHeader.mark chunk.content v)) x = sizeAt h x := by
  rw [sizeAt, Heap.find_store]
  split
  · next hx => rw [hx, sizeAt, hfind]; rfl
  · rfl

theorem allocatedAt_store (hfind : h.find a = some chunk) (v : Bool) (x : Nat) :
    allocatedAt (h.store a (ChunkHeader.mark chunk.content v)) x =
      if x = a then v else allocatedAt h x := by
  rw [allocatedAt, Heap.find_store]
  split
  · rw [hfind]; rfl
  · rfl

section Lists

variable {p q : Nat → Bool} {l : List Nat}

theorem filter_perm_cons (hl : l.Nodup) (ha : a ∈ l) (hp : p a = false) (hq : q a = true)
    (hrest : ∀ x, x ≠ a → q x = p x) : (l.filter q).Perm (a :: l.filter p) := by
  have hnot : a ∉ l.filter p := fun hmem => by simp [hp] at hmem
  rw [List.perm_ext_iff_of_nodup (hl.filter q) (List.nodup_cons.mpr ⟨hnot, hl.filter p⟩)]
  intro x
  rw [List.mem_filter, List.mem_cons, List.mem_filter]
  by_cases hx : x = a
  · simp [hx, ha, hq]
  · simp [hx, hrest x hx]

theorem sum_filter_le {f g : Nat → Nat} (hfg : ∀ x, f x ≤ g x) (p : Nat → Bool) (l : List Nat) :
    ((l.filter p).map f).sum ≤ (l.map g).sum := by
  induction l with
  | nil => exact Nat.le_refl 0
  | cons x l ih =>
      have hx := hfg x
      cases hp : p x with
      | true => simp only [List.filter_cons, hp, if_true, List.map_cons, List.sum_cons]; omega
      | false =>
          simp only [List.filter_cons, hp, List.map_cons, List.sum_cons]
          exact Nat.le_add_left_of_le ih

end Lists

theorem retained_setList_cons (s : BsMemoryPool) (a : Nat) (chunks : List Nat)
    (hc : c ≠ .large) :
    (s.setList (a :: chunks) c).retained.Perm (a :: (s.setList chunks c).retained) := by
  cases c with
  | tiny => exact List.Perm.refl _
  | small =>
      simp only [setList, retained, List.append_assoc, List.cons_append]
      exact List.perm_middle
  | medium =>
      simp only [setList, retained]
      exact List.perm_middle
  | large => exact absurd rfl hc

section SetList

variable (s : BsMemoryPool) (chunks : List Nat) (c : BsMemoryPoolCategory)

@[simp] theorem setList_heap : (s.setList chunks c).heap = s.heap := by cases c <;> rfl

@[simp] theorem setList_fault : (s.setList chunks c).fault = s.fault := by cases c <;> rfl

@[simp] theorem setList_live : (s.setList chunks c).live = s.live := by cases c <;> rfl

@[simp] theorem setList_map : (s.setList chunks c).allocationMap = s.allocationMap := by
  cases c <;> rfl

@[simp] theorem setList_largeBlocks : (s.setList chunks c).largeBlocks = s.largeBlocks := by
  cases c <;> rfl

@[simp] theorem setList_largeHeaders : (s.setList chunks c).largeHeaders = s.largeHeaders := by
  cases c <;> rfl

@[simp] theorem setList_totalUsed : (s.setList chunks c).totalUsed = s.totalUsed := by
  cases c <;> rfl

@[simp] theorem setList_totalAllocated :
    (s.setList chunks c).totalAllocated = s.totalAllocated := by
  cases c <;> rfl

end SetList

def usedSum (s : BsMemoryPool) : Nat :=
  (s.inUse.map (sizeAt s.heap)).sum + (s.largeHeaders.map (bytesAt s.heap)).sum

def retainedSum (s : BsMemoryPool) : Nat := (s.retained.map (bytesAt s.heap)).sum

structure Laid (s : BsMemoryPool) : Prop where
  noFault : s.fault = false
  heap : s.heap.WellFormed
  blocks : (s.retained ++ s.largeHeaders).Perm s.heap.addresses
  whole : ∀ b ∈ s.heap, b.size = b.content.size.toNat + sizeofHeader.toNat

theorem Laid.nodup (hs : Laid s) : (s.retained ++ s.largeHeaders).Nodup :=
  hs.blocks.nodup_iff.mpr hs.heap.nodup

theorem Laid.find (hs : Laid s) (ha : a ∈ s.retained ++ s.largeHeaders) :
    ∃ chunk, s.heap.find a = some chunk :=
  Heap.mem_addresses.mp (hs.blocks.mem_iff.mp ha)

theorem Laid.bytes_lt (hs : Laid s) :
    retainedSum s + (s.largeHeaders.map (bytesAt s.heap)).sum < 2 ^ 64 := by
  have hbytes : s.heap.addresses.map (bytesAt s.heap) = s.heap.map (·.size) := by
    rw [Heap.addresses, List.map_map]
    refine List.map_congr_left fun b hb => ?_
    rw [Function.comp_apply, bytesAt, sizeAt_of_find (hs.heap.find_of_mem hb), hs.whole b hb]
  calc
    retainedSum s + (s.largeHeaders.map (bytesAt s.heap)).sum
        = ((s.retained ++ s.largeHeaders).map (bytesAt s.heap)).sum := by
          rw [List.map_append, List.sum_append, retainedSum]
    _ = (s.heap.addresses.map (bytesAt s.heap)).sum := (hs.blocks.map _).sum_eq
    _ = (s.heap.map (·.size)).sum := by rw [hbytes]
    _ < 2 ^ 64 := hs.heap.sum_size_lt

theorem Laid.usedSum_lt (hs : Laid s) : usedSum s < 2 ^ 64 := by
  have hfilter : (s.inUse.map (sizeAt s.heap)).sum ≤ retainedSum s :=
    sum_filter_le (fun x => Nat.le_add_right _ _) _ _
  have hbytes := hs.bytes_lt
  rw [usedSum]
  omega

theorem Laid.retainedSum_lt (hs : Laid s) : retainedSum s < 2 ^ 64 := by
  have hbytes := hs.bytes_lt
  omega

/-- The counters of such a pool are the sums over its chunks. -/
structure Counted (s : BsMemoryPool) : Prop extends Laid s where
  used : s.totalUsed.toNat = usedSum s
  allocated : s.totalAllocated.toNat = retainedSum s

structure Sound (s : BsMemoryPool) : Prop extends Counted s where
  mapped : ∀ ptr a, s.allocationMap ptr = some a ↔
    a + sizeofHeader.toNat = ptr ∧ ptr ∈ s.live.map (·.1)
  live : (s.live.map (·.1)).Perm ((s.inUse ++ s.largeHeaders).map (· + sizeofHeader.toNat))
  asked : ∀ block ∈ s.live, ∃ a,
    a + sizeofHeader.toNat = block.1 ∧ block.2.toNat ≤ sizeAt s.heap a
  large : ∀ ptr ∈ s.largeBlocks, ∃ chunk,
    s.heap.find (ptr - sizeofHeader.toNat) = some chunk ∧ sizeofHeader.toNat ≤ ptr ∧
      chunk.content.category = .large

theorem sound_create (tiny small medium : UInt64) : Sound (create tiny small medium) where
  noFault := rfl
  heap := .nil
  blocks := .refl _
  whole _ hb := absurd hb (by simp [create])
  used := rfl
  allocated := rfl
  mapped ptr a := by simp [create]
  live := .refl _
  asked _ hb := absurd hb (by simp [create])
  large _ hptr := absurd hptr (by simp [create])

theorem Sound.inUse_nodup (hs : Sound s) :
    ((s.inUse ++ s.largeHeaders).map (· + sizeofHeader.toNat)).Nodup :=
  (hs.nodup.sublist (List.filter_sublist.append_right _)).map fun _ _ => Nat.add_right_cancel

theorem Sound.mem_of_mapped (hs : Sound s) {ptr : Nat} (hmap : s.allocationMap ptr = some a) :
    a + sizeofHeader.toNat = ptr ∧ a ∈ s.inUse ++ s.largeHeaders := by
  obtain ⟨hptr, hlive⟩ := (hs.mapped ptr a).mp hmap
  obtain ⟨x, hx, hxa⟩ := List.mem_map.mp (hs.live.mem_iff.mp hlive)
  have hax : x = a := by omega
  exact ⟨hptr, hax ▸ hx⟩

theorem Laid.size_lt (hs : Laid s) (hfind : s.heap.find a = some chunk) :
    chunk.content.size.toNat + sizeofHeader.toNat < 2 ^ 64 := by
  have hmem := Heap.mem_of_find hfind
  have hwhole := hs.whole chunk hmem
  have hbound := hs.heap.bounded chunk hmem
  omega

theorem toNat_add_header (hsize : size.toNat + sizeofHeader.toNat < 2 ^ 64) :
    (size + sizeofHeader).toNat = size.toNat + sizeofHeader.toNat := by
  rw [UInt64.toNat_add, Nat.mod_eq_of_lt hsize]

section NewBlock

variable {chunk : Block ChunkHeader} {l : List Nat}

theorem not_mem_of_room (hroom : h.Room chunk) : chunk.address ∉ h.addresses := by
  intro hmem
  obtain ⟨b, hb, hba⟩ := List.mem_map.mp hmem
  exact (hroom.2.2 b hb).1 hba.symm

theorem find_cons_of_mem (hroom : h.Room chunk) (hx : x ∈ h.addresses) :
    Heap.find (chunk :: h) x = h.find x := by
  rw [Heap.find_cons, if_neg]
  rintro rfl
  exact not_mem_of_room hroom hx

theorem map_sizeAt_cons (hroom : h.Room chunk) (hl : ∀ x ∈ l, x ∈ h.addresses) :
    l.map (sizeAt (chunk :: h)) = l.map (sizeAt h) :=
  List.map_congr_left fun x hx => sizeAt_congr (find_cons_of_mem hroom (hl x hx))

theorem map_bytesAt_cons (hroom : h.Room chunk) (hl : ∀ x ∈ l, x ∈ h.addresses) :
    l.map (bytesAt (chunk :: h)) = l.map (bytesAt h) :=
  List.map_congr_left fun x hx => by
    rw [bytesAt, sizeAt_congr (find_cons_of_mem hroom (hl x hx)), bytesAt]

theorem filter_allocatedAt_cons (hroom : h.Room chunk) (hl : ∀ x ∈ l, x ∈ h.addresses) :
    l.filter (allocatedAt (chunk :: h)) = l.filter (allocatedAt h) :=
  List.filter_congr fun x hx => allocatedAt_congr (find_cons_of_mem hroom (hl x hx))

theorem sizeAt_le_cons (hroom : h.Room chunk) (x : Nat) : sizeAt h x ≤ sizeAt (chunk :: h) x := by
  by_cases hx : x ∈ h.addresses
  · exact (sizeAt_congr (find_cons_of_mem hroom hx)).ge
  · have hzero : sizeAt h x = 0 := by
      rw [sizeAt, Heap.find_eq_none.mpr hx]
      rfl
    omega

end NewBlock

def chunkBlock (size : UInt64) (isAllocated : Bool) (a : Nat) : Block ChunkHeader where
  address := a
  size := (size + sizeofHeader).toNat
  content := { size := size, category := getCategory size, isAllocated := isAllocated }

theorem newChunk_eq_some {isAllocated : Bool}
    (hnew : s.newChunk size isAllocated a = some s') :
    s.heap.Room (chunkBlock size isAllocated a) ∧
      s' = { s with heap := chunkBlock size isAllocated a :: s.heap } := by
  unfold newChunk at hnew
  dsimp only at hnew
  split at hnew
  · next hroom => exact ⟨hroom, (Option.some.inj hnew).symm⟩
  · exact absurd hnew (by simp)

theorem Laid.whole_cons (hs : Laid s) (hsize : size.toNat + sizeofHeader.toNat < 2 ^ 64)
    (isAllocated : Bool) (a : Nat) :
    ∀ b ∈ chunkBlock size isAllocated a :: s.heap,
      b.size = b.content.size.toNat + sizeofHeader.toNat := by
  intro b hb
  rcases List.mem_cons.mp hb with rfl | hb
  · exact toNat_add_header hsize
  · exact hs.whole b hb

theorem Sound.grow (hs : Sound s) (hc : c ≠ .large)
    (hsize : size.toNat + sizeofHeader.toNat < 2 ^ 64)
    (hgrow : s.allocateChunk size a = some s') :
    Sound (s'.setList (a :: s.list c) c) ∧ a ∈ (s'.setList (a :: s.list c) c).retained ∧
      s'.heap.find a = some (chunkBlock size false a) := by
  obtain ⟨t, ht, rfl⟩ := Option.map_eq_some_iff.mp hgrow
  obtain ⟨hroom, rfl⟩ := newChunk_eq_some ht
  let t := { s with
    heap := chunkBlock size false a :: s.heap
    totalAllocated := s.totalAllocated + (size + sizeofHeader) }
  have hretained : (t.setList (a :: s.list c) c).retained.Perm (a :: s.retained) := by
    have hcons := retained_setList_cons t a (s.list c) hc
    have hsame : (t.setList (s.list c) c).retained = s.retained := by cases c <;> rfl
    rwa [hsame] at hcons
  have hin : ∀ x ∈ s.retained, x ∈ s.heap.addresses := fun x hx =>
    hs.blocks.mem_iff.mp (List.mem_append_left _ hx)
  have hin' : ∀ x ∈ s.largeHeaders, x ∈ s.heap.addresses := fun x hx =>
    hs.blocks.mem_iff.mp (List.mem_append_right _ hx)
  have hfind : t.heap.find a = some (chunkBlock size false a) :=
    (Heap.find_cons _ _ a).trans (if_pos rfl)
  have hinUse : (t.setList (a :: s.list c) c).inUse.Perm s.inUse := by
    rw [inUse, setList_heap]
    refine (hretained.filter _).trans ?_
    rw [List.filter_cons_of_neg (by simp [allocatedAt_of_find hfind, chunkBlock]),
      filter_allocatedAt_cons hroom hin, inUse]
  have hlaid : Laid (t.setList (a :: s.list c) c) := by
    refine ⟨?_, ?_, ?_, ?_⟩
    · rw [setList_fault]
      exact hs.noFault
    · rw [setList_heap]
      exact hs.heap.malloc hroom
    · rw [setList_heap, setList_largeHeaders]
      exact (hretained.append_right _).trans (hs.blocks.cons a)
    · rw [setList_heap]
      exact hs.whole_cons hsize false a
  have hused : usedSum (t.setList (a :: s.list c) c) = usedSum s := by
    rw [usedSum, (hinUse.map _).sum_eq, setList_heap, setList_largeHeaders]
    show (s.inUse.map (sizeAt (chunkBlock size false a :: s.heap))).sum +
      (s.largeHeaders.map (bytesAt (chunkBlock size false a :: s.heap))).sum = _
    rw [map_sizeAt_cons (l := s.inUse) hroom fun x hx => hin x (List.mem_of_mem_filter hx),
      map_bytesAt_cons hroom hin', usedSum]
  have hsum : retainedSum (t.setList (a :: s.list c) c) =
      size.toNat + sizeofHeader.toNat + retainedSum s := by
    rw [retainedSum, (hretained.map _).sum_eq, setList_heap, List.map_cons, List.sum_cons,
      bytesAt, sizeAt_of_find hfind]
    show _ + (s.retained.map (bytesAt (chunkBlock size false a :: s.heap))).sum = _
    rw [map_bytesAt_cons hroom hin, retainedSum, chunkBlock]
  have hlt := hlaid.retainedSum_lt
  refine ⟨{ hlaid with
    used := ?_, allocated := ?_, mapped := ?_, live := ?_, asked := ?_, large := ?_ }, ?_, hfind⟩
  · rw [setList_totalUsed, hused]
    exact hs.used
  · rw [setList_totalAllocated, hsum]
    show (s.totalAllocated + (size + sizeofHeader)).toNat = _
    rw [UInt64.toNat_add, toNat_add_header hsize, hs.allocated, Nat.mod_eq_of_lt (by omega)]
    omega
  · rw [setList_map, setList_live]
    exact hs.mapped
  · rw [setList_live, setList_largeHeaders]
    exact hs.live.trans ((hinUse.symm.append_right _).map _)
  · rw [setList_live, setList_heap]
    intro block hblock
    obtain ⟨x, hx, hle⟩ := hs.asked block hblock
    exact ⟨x, hx, hle.trans (sizeAt_le_cons hroom x)⟩
  · rw [setList_largeBlocks, setList_heap]
    intro ptr hptr
    obtain ⟨chunk, hchunk, hrest⟩ := hs.large ptr hptr
    refine ⟨chunk, ?_, hrest⟩
    rw [find_cons_of_mem hroom (Heap.mem_addresses.mpr ⟨chunk, hchunk⟩)]
    exact hchunk
  · exact hretained.mem_iff.mpr List.mem_cons_self

theorem mapped_handOut {map : Nat → Option Nat} {live : List (Nat × UInt64)}
    (hmap : ∀ ptr a, map ptr = some a ↔
      a + sizeofHeader.toNat = ptr ∧ ptr ∈ live.map (·.1)) (a : Nat) (size : UInt64) (ptr x : Nat) :
    Function.update map (a + sizeofHeader.toNat) (some a) ptr = some x ↔
      x + sizeofHeader.toNat = ptr ∧
        ptr ∈ ((a + sizeofHeader.toNat, size) :: live).map (·.1) := by
  rw [List.map_cons, List.mem_cons]
  by_cases hptr : ptr = a + sizeofHeader.toNat
  · rw [hptr, Function.update_self, Option.some.injEq]
    constructor
    · rintro rfl
      exact ⟨rfl, .inl rfl⟩
    · intro hx
      omega
  · rw [Function.update_of_ne hptr, hmap]
    constructor
    · exact fun hx => ⟨hx.1, .inr hx.2⟩
    · exact fun hx => ⟨hx.1, hx.2.resolve_left hptr⟩

theorem Laid.mark (hs : Laid s) (hfind : s.heap.find a = some chunk) (v : Bool) :
    Laid { s with heap := s.heap.store a (ChunkHeader.mark chunk.content v) } := by
  refine ⟨hs.noFault, hs.heap.store a _, ?_, fun b hb => ?_⟩
  · show (s.retained ++ s.largeHeaders).Perm _
    rw [Heap.addresses_store]
    exact hs.blocks
  · obtain ⟨b, hmem, rfl⟩ := List.mem_map.mp hb
    split
    · next hba =>
        have hsame := hs.heap.find_of_mem hmem
        rw [hba, hfind] at hsame
        cases hsame
        exact hs.whole chunk hmem
    · exact hs.whole b hmem

section Mark

variable (hfind : s.heap.find a = some chunk) (v : Bool)
include hfind

theorem inUse_mark :
    inUse { s with heap := s.heap.store a (ChunkHeader.mark chunk.content v) } =
      s.retained.filter fun x => if x = a then v else allocatedAt s.heap x :=
  List.filter_congr fun x _ => allocatedAt_store hfind v x

theorem usedSum_mark :
    usedSum { s with heap := s.heap.store a (ChunkHeader.mark chunk.content v) } =
      ((s.retained.filter fun x => if x = a then v else allocatedAt s.heap x).map
        (sizeAt s.heap)).sum + (s.largeHeaders.map (bytesAt s.heap)).sum := by
  rw [usedSum, inUse_mark hfind v]
  congr 2
  · exact List.map_congr_left fun x _ => sizeAt_store hfind v x
  · exact List.map_congr_left fun x _ => congrArg (· + sizeofHeader.toNat)
      (sizeAt_store hfind v x)

theorem retainedSum_mark :
    retainedSum { s with heap := s.heap.store a (ChunkHeader.mark chunk.content v) } =
      retainedSum s := by
  rw [retainedSum, retainedSum]
  congr 1
  exact List.map_congr_left fun x _ => congrArg (· + sizeofHeader.toNat)
    (sizeAt_store hfind v x)

end Mark

theorem Sound.large_mark (hs : Sound s) (ha : a ∈ s.retained) (header : ChunkHeader) :
    ∀ ptr ∈ s.largeBlocks, ∃ other,
      (s.heap.store a header).find (ptr - sizeofHeader.toNat) =
        some other ∧ sizeofHeader.toNat ≤ ptr ∧ other.content.category = .large := by
  intro ptr hptr
  obtain ⟨other, hother, hrest⟩ := hs.large ptr hptr
  refine ⟨other, ?_, hrest⟩
  have hheader : ptr - sizeofHeader.toNat ∈ s.largeHeaders := List.mem_map_of_mem hptr
  rw [Heap.find_store, if_neg, hother]
  rintro heq
  exact (List.nodup_append.mp hs.nodup).2.2 a ha _ hheader heq.symm

theorem Sound.handOut (hs : Sound s) (ha : a ∈ s.retained) (hfind : s.heap.find a = some chunk)
    (hfree : chunk.content.isAllocated = false) (hsize : size ≤ chunk.content.size) :
    Sound (s.handOut a size) := by
  have hout : s.handOut a size = { s with
      heap := s.heap.store a (ChunkHeader.mark chunk.content true)
      totalUsed := s.totalUsed + chunk.content.size
      allocationMap := Function.update s.allocationMap (a + sizeofHeader.toNat) (some a)
      live := (a + sizeofHeader.toNat, size) :: s.live } := by
    rw [BsMemoryPool.handOut, hfind]
    rfl
  have hlaid := hs.mark hfind true
  have hnodup : s.retained.Nodup := (List.nodup_append.mp hs.nodup).1
  have hinUse : (s.retained.filter fun x => if x = a then true else allocatedAt s.heap x).Perm
      (a :: s.inUse) := by
    refine filter_perm_cons hnodup ha ?_ (if_pos rfl) fun x hx => if_neg hx
    rw [allocatedAt_of_find hfind, hfree]
  have hused := usedSum_mark hfind true
  rw [(hinUse.map _).sum_eq, List.map_cons, List.sum_cons, sizeAt_of_find hfind,
    Nat.add_assoc, ← usedSum] at hused
  have hlt := hlaid.usedSum_lt
  rw [hout]
  refine {
    noFault := hlaid.noFault, heap := hlaid.heap, blocks := hlaid.blocks, whole := hlaid.whole
    used := ?_, allocated := hs.allocated.trans (retainedSum_mark hfind true).symm
    mapped := mapped_handOut hs.mapped a size, live := ?_, asked := ?_
    large := hs.large_mark ha _ }
  · refine Eq.trans ?_ hused.symm
    show (s.totalUsed + chunk.content.size).toNat = _
    rw [UInt64.toNat_add, hs.used, Nat.mod_eq_of_lt (by omega), Nat.add_comm]
  · have hcons := (hs.live.cons (a + sizeofHeader.toNat)).trans
      ((hinUse.symm.append_right s.largeHeaders).map (· + sizeofHeader.toNat))
    rw [← inUse_mark hfind true] at hcons
    exact hcons
  · intro block hblock
    rcases List.mem_cons.mp hblock with rfl | hblock
    · refine ⟨a, rfl, ?_⟩
      rw [sizeAt_store hfind true, sizeAt_of_find hfind]
      exact hsize
    · obtain ⟨x, hx, hle⟩ := hs.asked block hblock
      exact ⟨x, hx, hle.trans (sizeAt_store hfind true x).ge⟩

theorem Sound.ptr_eq (hs : Sound s) {ptr : Nat} (hptr : ptr ∈ s.largeBlocks) :
    ptr - sizeofHeader.toNat + sizeofHeader.toNat = ptr := by
  obtain ⟨_, -, hle, -⟩ := hs.large ptr hptr
  exact Nat.sub_add_cancel hle

theorem Sound.handOutLarge (hs : Sound s) (hlarge : getCategory size = .large)
    (hsize : size.toNat + sizeofHeader.toNat < 2 ^ 64)
    (hnew : s.allocateBlock size a = some s') : Sound (s'.handOutLarge a size) := by
  obtain ⟨hroom, rfl⟩ := newChunk_eq_some hnew
  have hin : ∀ x ∈ s.retained, x ∈ s.heap.addresses := fun x hx =>
    hs.blocks.mem_iff.mp (List.mem_append_left _ hx)
  have hin' : ∀ x ∈ s.largeHeaders, x ∈ s.heap.addresses := fun x hx =>
    hs.blocks.mem_iff.mp (List.mem_append_right _ hx)
  have hfind : Heap.find (chunkBlock size true a :: s.heap) a = some (chunkBlock size true a) :=
    (Heap.find_cons _ _ a).trans (if_pos rfl)
  let t := BsMemoryPool.handOutLarge { s with heap := chunkBlock size true a :: s.heap } a size
  have hheaders : t.largeHeaders = s.largeHeaders ++ [a] := by
    show (s.largeBlocks ++ [a + sizeofHeader.toNat]).map _ = _
    rw [List.map_append, List.map_singleton, Nat.add_sub_cancel, largeHeaders]
  have hinUse : t.inUse = s.inUse := filter_allocatedAt_cons hroom hin
  have hlaid : Laid t := by
    refine ⟨hs.noFault, hs.heap.malloc hroom, ?_, hs.whole_cons hsize true a⟩
    show (s.retained ++ t.largeHeaders).Perm _
    rw [hheaders, ← List.append_assoc]
    exact (List.perm_append_singleton a _).trans (hs.blocks.cons a)
  have hused : usedSum t = usedSum s + (size.toNat + sizeofHeader.toNat) := by
    rw [usedSum, hheaders, hinUse, List.map_append, List.sum_append]
    show (s.inUse.map (sizeAt (chunkBlock size true a :: s.heap))).sum +
      ((s.largeHeaders.map (bytesAt (chunkBlock size true a :: s.heap))).sum +
        ([a].map (bytesAt (chunkBlock size true a :: s.heap))).sum) = _
    rw [map_sizeAt_cons (l := s.inUse) hroom fun x hx => hin x (List.mem_of_mem_filter hx),
      map_bytesAt_cons hroom hin', List.map_singleton, List.sum_singleton, bytesAt,
      sizeAt_of_find hfind, usedSum, Nat.add_assoc, chunkBlock]
  have hlt := hlaid.usedSum_lt
  show Sound t
  refine { hlaid with
    used := ?_, allocated := ?_, mapped := mapped_handOut hs.mapped a size, live := ?_
    asked := ?_, large := ?_ }
  · show (s.totalUsed + (size + sizeofHeader)).toNat = _
    rw [UInt64.toNat_add, toNat_add_header hsize, hs.used, Nat.mod_eq_of_lt (by omega), hused]
  · refine hs.allocated.trans ?_
    show _ = (s.retained.map (bytesAt (chunkBlock size true a :: s.heap))).sum
    rw [map_bytesAt_cons hroom hin, retainedSum]
  · rw [hheaders, hinUse, ← List.append_assoc, List.map_append, List.map_singleton]
    exact (hs.live.cons _).trans (List.perm_append_singleton _ _).symm
  · intro block hblock
    rcases List.mem_cons.mp hblock with rfl | hblock
    · exact ⟨a, rfl, (sizeAt_of_find hfind).ge⟩
    · obtain ⟨x, hx, hle⟩ := hs.asked block hblock
      exact ⟨x, hx, hle.trans (sizeAt_le_cons hroom x)⟩
  · intro ptr hptr
    rcases List.mem_append.mp hptr with hptr | hptr
    · obtain ⟨chunk, hchunk, hrest⟩ := hs.large ptr hptr
      refine ⟨chunk, ?_, hrest⟩
      exact (find_cons_of_mem hroom (Heap.mem_addresses.mpr ⟨chunk, hchunk⟩)).trans hchunk
    · obtain rfl := List.mem_singleton.mp hptr
      rw [Nat.add_sub_cancel]
      exact ⟨chunkBlock size true a, hfind, Nat.le_add_left _ _, hlarge⟩

theorem getCategory_le (hsize : getCategory size ≠ .large) : size.toNat ≤ 65536 := by
  unfold getCategory defaultTinySize defaultSmallSize defaultMediumSize at hsize
  simp only [UInt64.le_iff_toNat_le] at hsize
  by_contra hlt
  refine hsize ?_
  rw [if_neg, if_neg, if_neg]
  · exact hlt
  · exact fun h => hlt (h.trans (by decide))
  · exact fun h => hlt (h.trans (by decide))

theorem and_not_seven (y : UInt64) : y = (y &&& ~~~7) + (y &&& 7) := by
  apply UInt64.toBitVec_inj.mp
  simp only [UInt64.toBitVec_add, UInt64.toBitVec_and, UInt64.toBitVec_not]
  rw [BitVec.add_eq_or_of_and_eq_zero]
  · ext i hi
    simp only [BitVec.getElem_or, BitVec.getElem_and, BitVec.getElem_not]
    cases y.toBitVec[i] <;> simp
  · ext i hi
    simp only [BitVec.getElem_and, BitVec.getElem_not, BitVec.getElem_zero]
    cases (UInt64.toBitVec 7)[i] <;> simp

theorem le_rounded (hsize : size.toNat ≤ 65536) : size ≤ (size + 7) &&& ~~~7 := by
  have hsplit := congrArg UInt64.toNat (and_not_seven (size + 7))
  have hlow : ((size + 7) &&& 7).toNat ≤ 7 := by
    rw [UInt64.toNat_and]
    exact Nat.and_le_right
  have hlt := UInt64.toNat_lt ((size + 7) &&& ~~~7)
  have hseven : (7 : UInt64).toNat = 7 := rfl
  rw [UInt64.le_iff_toNat_le]
  rw [UInt64.toNat_add, UInt64.toNat_add, hseven, Nat.mod_eq_of_lt (by omega)] at hsplit
  rcases Nat.lt_or_ge (((size + 7) &&& ~~~7).toNat + ((size + 7) &&& 7).toNat) (2 ^ 64) with h | h
  · rw [Nat.mod_eq_of_lt h] at hsplit
    omega
  · omega

theorem le_chunkSize (hc : getCategory size ≠ .large) : size ≤ s.chunkSize size := by
  have hrounded := le_rounded (getCategory_le hc)
  have hpick : size ≤ if (size + 7) &&& ~~~7 < s.poolSize (getCategory size)
      then s.poolSize (getCategory size) else (size + 7) &&& ~~~7 := by
    split
    · next hlt => exact UInt64.le_of_lt (UInt64.lt_of_le_of_lt hrounded hlt)
    · exact hrounded
  unfold chunkSize
  cases hcat : getCategory size with
  | large => exact absurd hcat hc
  | tiny => simpa [hcat] using hpick
  | small => simpa [hcat] using hpick
  | medium => simpa [hcat] using hpick

theorem mem_of_firstFit {l : List Nat} (hfit : firstFit h size l = some (some a)) :
    a ∈ l ∧ ∃ chunk, h.find a = some chunk ∧ chunk.content.isAllocated = false ∧
      size ≤ chunk.content.size := by
  induction l with
  | nil => simp [firstFit] at hfit
  | cons x l ih =>
      rw [firstFit] at hfit
      split at hfit
      · simp at hfit
      · next chunk hfind =>
          split at hfit
          · next hfree =>
              obtain rfl := Option.some.inj (Option.some.inj hfit)
              exact ⟨List.mem_cons_self, chunk, hfind, by simpa using hfree⟩
          · obtain ⟨hmem, hrest⟩ := ih hfit
            exact ⟨List.mem_cons_of_mem x hmem, hrest⟩

theorem firstFit_ne_none {l : List Nat} (hl : ∀ x ∈ l, ∃ chunk, h.find x = some chunk) :
    firstFit h size l ≠ none := by
  induction l with
  | nil => simp [firstFit]
  | cons x l ih =>
      obtain ⟨chunk, hfind⟩ := hl x List.mem_cons_self
      rw [firstFit, hfind]
      dsimp only
      split
      · simp
      · exact ih fun y hy => hl y (List.mem_cons_of_mem x hy)

theorem mem_retained_of_list (ha : a ∈ s.list c) : a ∈ s.retained := by
  cases c with
  | tiny => exact List.mem_append_left _ (List.mem_append_left _ ha)
  | small => exact List.mem_append_left _ (List.mem_append_right _ ha)
  | medium => exact List.mem_append_right _ ha
  | large => simp [list] at ha

theorem alloc_of_list {address : Option Nat} (hsize : size ≠ 0)
    (hc : getCategory size ≠ .large) :
    s.alloc size address =
      match firstFit s.heap (s.chunkSize size) (s.list (getCategory size)), address with
      | none, _ => some { s with fault := true }
      | some (some a), _ => some (s.handOut a size)
      | some none, none => some s
      | some none, some a =>
          (s.allocateChunk (s.chunkSize size) a).map fun t =>
            (t.setList (a :: t.list (getCategory size)) (getCategory size)).handOut a size := by
  unfold BsMemoryPool.alloc
  rw [if_neg hsize]
  cases hcat : getCategory size with
  | large => exact absurd hcat hc
  | tiny => rfl
  | small => rfl
  | medium => rfl

theorem list_of_allocateChunk (hgrow : s.allocateChunk size a = some s') : s'.list c = s.list c := by
  obtain ⟨t, ht, rfl⟩ := Option.map_eq_some_iff.mp hgrow
  obtain ⟨-, rfl⟩ := newChunk_eq_some ht
  cases c <;> rfl

theorem Sound.alloc (hs : Sound s) {address : Option Nat} (hmeets : s.Meets (.alloc size address))
    (hstep : s.alloc size address = some s') : Sound s' := by
  by_cases hzero : size = 0
  · unfold BsMemoryPool.alloc at hstep
    rw [if_pos hzero] at hstep
    exact Option.some.inj hstep ▸ hs
  by_cases hc : getCategory size = .large
  · unfold BsMemoryPool.alloc at hstep
    rw [if_neg hzero, hc] at hstep
    cases address with
    | none => exact Option.some.inj hstep ▸ hs
    | some a =>
        obtain ⟨t, ht, rfl⟩ := Option.map_eq_some_iff.mp hstep
        have hfits : size.toNat + sizeofHeader.toNat < 2 ^ 64 := by
          simpa [Meets, chunkSize, hc] using hmeets
        exact hs.handOutLarge hc hfits ht
  · rw [alloc_of_list hzero hc] at hstep
    have hfound : firstFit s.heap (s.chunkSize size) (s.list (getCategory size)) ≠ none :=
      firstFit_ne_none fun x hx => hs.find (List.mem_append_left _ (mem_retained_of_list hx))
    split at hstep
    · next hnone => exact absurd hnone hfound
    · next hfit =>
        obtain ⟨hmem, chunk, hfind, hfree, hle⟩ := mem_of_firstFit hfit
        cases hstep
        exact hs.handOut (mem_retained_of_list hmem) hfind hfree
          (UInt64.le_trans (le_chunkSize hc) hle)
    · exact Option.some.inj hstep ▸ hs
    · next b hnone =>
        obtain ⟨t, ht, rfl⟩ := Option.map_eq_some_iff.mp hstep
        rw [list_of_allocateChunk ht]
        obtain ⟨hsound, hmem, hfind⟩ := hs.grow hc hmeets ht
        exact hsound.handOut hmem ((setList_heap t _ _).symm ▸ hfind) rfl (le_chunkSize hc)

section Drop

variable {t : BsMemoryPool}

theorem Laid.drop (hs : Laid s) (hheap : t.heap = s.heap.free a) (hfault : t.fault = s.fault)
    (hblocks : (s.retained ++ s.largeHeaders).Perm (a :: (t.retained ++ t.largeHeaders))) :
    Laid t ∧ ∀ x ∈ t.retained ++ t.largeHeaders, t.heap.find x = s.heap.find x := by
  have hnot := (List.nodup_cons.mp (hblocks.nodup_iff.mp hs.nodup)).1
  refine ⟨⟨hfault.trans hs.noFault, hheap ▸ hs.heap.free a, ?_, fun b hb => ?_⟩, fun x hx => ?_⟩
  · rw [hheap, hs.heap.addresses_free]
    have herase := (hblocks.symm.trans hs.blocks).erase a
    rwa [List.erase_cons_head] at herase
  · rw [hheap] at hb
    exact hs.whole b (List.mem_of_mem_filter hb)
  · rw [hheap, Heap.find_free, if_neg]
    rintro rfl
    exact hnot hx

theorem map_bytesAt_congr {l : List Nat} (hl : ∀ x ∈ l, h'.find x = h.find x) :
    l.map (bytesAt h') = l.map (bytesAt h) :=
  List.map_congr_left fun x hx => congrArg (· + sizeofHeader.toNat) (sizeAt_congr (hl x hx))

theorem sum_inUse_congr (hl : ∀ x ∈ t.retained, t.heap.find x = h.find x) :
    (t.inUse.map (sizeAt t.heap)).sum =
      ((t.retained.filter (allocatedAt h)).map (sizeAt h)).sum := by
  have hfilter : t.inUse = t.retained.filter (allocatedAt h) :=
    List.filter_congr fun x hx => allocatedAt_congr (hl x hx)
  rw [hfilter]
  congr 1
  exact List.map_congr_left fun x hx => sizeAt_congr (hl x (List.mem_of_mem_filter hx))

theorem Counted.dropLarge (hs : Counted s) (hfind : s.heap.find a = some chunk)
    (hheap : t.heap = s.heap.free a) (hfault : t.fault = s.fault)
    (hretained : t.retained = s.retained) (hlarge : s.largeHeaders.Perm (a :: t.largeHeaders))
    (hused : t.totalUsed = s.totalUsed - (chunk.content.size + sizeofHeader))
    (hallocated : t.totalAllocated = s.totalAllocated) : Counted t := by
  have hblocks : (s.retained ++ s.largeHeaders).Perm (a :: (t.retained ++ t.largeHeaders)) := by
    rw [hretained]
    exact (hlarge.append_left _).trans List.perm_middle
  obtain ⟨hlaid, hsame⟩ := hs.drop hheap hfault hblocks
  have hsame' : ∀ x ∈ t.retained, t.heap.find x = s.heap.find x := fun x hx =>
    hsame x (List.mem_append_left _ hx)
  have hsum : usedSum s = bytesAt s.heap a + usedSum t := by
    rw [usedSum, (hlarge.map _).sum_eq, List.map_cons, List.sum_cons, usedSum,
      sum_inUse_congr hsame', map_bytesAt_congr fun x hx => hsame x (List.mem_append_right _ hx),
      hretained, inUse]
    omega
  have hsize := toNat_add_header (hs.size_lt hfind)
  have hbefore := hs.used
  refine { hlaid with used := ?_, allocated := ?_ }
  · rw [bytesAt, sizeAt_of_find hfind] at hsum
    rw [hused, UInt64.toNat_sub_of_le _ _ (UInt64.le_iff_toNat_le.mpr (by omega))]
    omega
  · rw [hallocated, hs.allocated, retainedSum, retainedSum, map_bytesAt_congr hsame', hretained]

theorem Counted.dropChunk (hs : Counted s) (hfind : s.heap.find a = some chunk)
    (hheap : t.heap = s.heap.free a) (hfault : t.fault = s.fault)
    (hretained : s.retained.Perm (a :: t.retained)) (hlarge : t.largeHeaders = s.largeHeaders)
    (hused : t.totalUsed = if chunk.content.isAllocated then s.totalUsed - chunk.content.size
      else s.totalUsed)
    (hallocated : t.totalAllocated = s.totalAllocated - (chunk.content.size + sizeofHeader)) :
    Counted t := by
  have hblocks : (s.retained ++ s.largeHeaders).Perm (a :: (t.retained ++ t.largeHeaders)) := by
    rw [hlarge]
    exact hretained.append_right _
  obtain ⟨hlaid, hsame⟩ := hs.drop hheap hfault hblocks
  have hsame' : ∀ x ∈ t.retained, t.heap.find x = s.heap.find x := fun x hx =>
    hsame x (List.mem_append_left _ hx)
  have hlargeSum : (t.largeHeaders.map (bytesAt t.heap)).sum =
      (s.largeHeaders.map (bytesAt s.heap)).sum := by
    rw [map_bytesAt_congr fun x hx => hsame x (List.mem_append_right _ hx), hlarge]
  have hsum : usedSum s =
      (if chunk.content.isAllocated then chunk.content.size.toNat else 0) + usedSum t := by
    rw [usedSum, usedSum, hlargeSum, sum_inUse_congr hsame', inUse,
      ((hretained.filter _).map _).sum_eq]
    cases hcase : chunk.content.isAllocated with
    | true =>
        rw [List.filter_cons_of_pos (by rw [allocatedAt_of_find hfind, hcase]), List.map_cons,
          List.sum_cons, sizeAt_of_find hfind, if_pos rfl, Nat.add_assoc]
    | false =>
        rw [List.filter_cons_of_neg (by simp [allocatedAt_of_find hfind, hcase])]
        simp
  have hsum' : retainedSum s = bytesAt s.heap a + retainedSum t := by
    rw [retainedSum, (hretained.map _).sum_eq, List.map_cons, List.sum_cons, retainedSum,
      map_bytesAt_congr hsame']
  have hsize := toNat_add_header (hs.size_lt hfind)
  have hbefore := hs.used
  have hbefore' := hs.allocated
  refine { hlaid with used := ?_, allocated := ?_ }
  · rw [hused]
    split at hsum
    · next hcase =>
        rw [if_pos hcase, UInt64.toNat_sub_of_le _ _ (UInt64.le_iff_toNat_le.mpr (by omega))]
        omega
    · next hcase =>
        rw [if_neg hcase]
        omega
  · rw [bytesAt, sizeAt_of_find hfind] at hsum'
    rw [hallocated, UInt64.toNat_sub_of_le _ _ (UInt64.le_iff_toNat_le.mpr (by omega))]
    omega

end Drop

theorem mapped_giveBack (hs : Sound s) (ptr p a : Nat) :
    Function.update s.allocationMap ptr none p = some a ↔
      a + sizeofHeader.toNat = p ∧
        p ∈ (s.live.filter fun block => block.1 ≠ ptr).map (·.1) := by
  have hmem : p ∈ (s.live.filter fun block => block.1 ≠ ptr).map (·.1) ↔
      p ≠ ptr ∧ p ∈ s.live.map (·.1) := by
    simp only [List.mem_map, List.mem_filter, decide_eq_true_eq]
    constructor
    · rintro ⟨block, ⟨hblock, hne⟩, rfl⟩
      exact ⟨hne, block, hblock, rfl⟩
    · rintro ⟨hne, block, hblock, rfl⟩
      exact ⟨block, ⟨hblock, hne⟩, rfl⟩
  rw [hmem]
  by_cases hp : p = ptr
  · simp [hp]
  · rw [Function.update_of_ne hp, hs.mapped]
    constructor
    · exact fun h => ⟨h.1, hp, h.2⟩
    · exact fun h => ⟨h.1, h.2.2⟩

theorem live_giveBack (hs : Sound s) {rest : List Nat}
    (hperm : (s.inUse ++ s.largeHeaders).Perm (a :: rest)) :
    ((s.live.filter fun block => block.1 ≠ a + sizeofHeader.toNat).map (·.1)).Perm
      (rest.map (· + sizeofHeader.toNat)) := by
  have hcons := hs.live.trans (hperm.map (· + sizeofHeader.toNat))
  have hnodup : ((a :: rest).map (· + sizeofHeader.toNat)).Nodup :=
    (hperm.map (· + sizeofHeader.toNat)).nodup_iff.mp hs.inUse_nodup
  have hnot := (List.nodup_cons.mp hnodup).1
  have hkeep : (rest.map (· + sizeofHeader.toNat)).filter (fun p => p ≠ a + sizeofHeader.toNat) =
      rest.map (· + sizeofHeader.toNat) := by
    refine List.filter_eq_self.mpr fun p hp => ?_
    rw [decide_eq_true_eq]
    rintro rfl
    exact hnot hp
  have hfilter := hcons.filter fun p => p ≠ a + sizeofHeader.toNat
  rw [List.filter_map, List.map_cons, List.filter_cons_of_neg (by simp), hkeep] at hfilter
  exact hfilter

theorem Sound.giveBack_chunk (hs : Sound s) (ha : a ∈ s.inUse)
    (hfind : s.heap.find a = some chunk) :
    Sound { s.giveBack (a + sizeofHeader.toNat) with
      heap := s.heap.store a (ChunkHeader.mark chunk.content false)
      totalUsed := s.totalUsed - chunk.content.size } := by
  have hlaid := hs.mark hfind false
  have hretained : a ∈ s.retained := List.mem_of_mem_filter ha
  have hallocated : allocatedAt s.heap a = true := List.of_mem_filter ha
  have hinUse : s.inUse.Perm
      (a :: s.retained.filter fun x => if x = a then false else allocatedAt s.heap x) :=
    filter_perm_cons (List.nodup_append.mp hs.nodup).1 hretained (if_pos rfl) hallocated
      fun x hx => (if_neg hx).symm
  have hsum : usedSum s = chunk.content.size.toNat +
      usedSum { s with heap := s.heap.store a (ChunkHeader.mark chunk.content false) } := by
    rw [usedSum, (hinUse.map _).sum_eq, List.map_cons, List.sum_cons, sizeAt_of_find hfind,
      usedSum_mark hfind false, Nat.add_assoc]
  have hused := hs.used
  refine {
    noFault := hlaid.noFault, heap := hlaid.heap, blocks := hlaid.blocks, whole := hlaid.whole
    used := ?_, allocated := hs.allocated.trans (retainedSum_mark hfind false).symm
    mapped := mapped_giveBack hs _, live := ?_, asked := ?_
    large := hs.large_mark hretained _ }
  · show (s.totalUsed - chunk.content.size).toNat =
      usedSum { s with heap := s.heap.store a (ChunkHeader.mark chunk.content false) }
    rw [UInt64.toNat_sub_of_le _ _ (UInt64.le_iff_toNat_le.mpr (by omega))]
    omega
  · have hperm := live_giveBack hs (hinUse.append_right s.largeHeaders)
    rw [← inUse_mark hfind false] at hperm
    exact hperm
  · intro block hblock
    obtain ⟨x, hx, hle⟩ := hs.asked block (List.mem_of_mem_filter hblock)
    exact ⟨x, hx, hle.trans (sizeAt_store hfind false x).ge⟩

theorem largeHeaders_erase {ptr : Nat} (hptr : ptr ∈ s.largeBlocks) :
    s.largeHeaders.Perm ((ptr - sizeofHeader.toNat) ::
      (s.largeBlocks.erase ptr).map fun ptr => ptr - sizeofHeader.toNat) :=
  (List.perm_cons_erase hptr).map _

theorem Sound.giveBack_large (hs : Sound s) {ptr : Nat} (hptr : ptr ∈ s.largeBlocks)
    (hfind : s.heap.find (ptr - sizeofHeader.toNat) = some chunk) :
    Sound { s.giveBack ptr with
      largeBlocks := s.largeBlocks.erase ptr
      totalUsed := s.totalUsed - (chunk.content.size + sizeofHeader)
      heap := s.heap.free (ptr - sizeofHeader.toNat) } := by
  have hlarge := largeHeaders_erase hptr
  have hcounted := hs.toCounted.dropLarge hfind (t := { s.giveBack ptr with
    largeBlocks := s.largeBlocks.erase ptr
    totalUsed := s.totalUsed - (chunk.content.size + sizeofHeader)
    heap := s.heap.free (ptr - sizeofHeader.toNat) }) rfl rfl rfl hlarge rfl rfl
  have hblocks : (s.retained ++ s.largeHeaders).Perm ((ptr - sizeofHeader.toNat) ::
      (s.retained ++ (s.largeBlocks.erase ptr).map fun ptr => ptr - sizeofHeader.toNat)) :=
    (hlarge.append_left _).trans List.perm_middle
  have hnot := (List.nodup_cons.mp (hblocks.nodup_iff.mp hs.nodup)).1
  have hsame : ∀ x, x ≠ ptr - sizeofHeader.toNat →
      (s.heap.free (ptr - sizeofHeader.toNat)).find x = s.heap.find x := fun x hx =>
    (Heap.find_free _ _ x).trans (if_neg hx)
  have hinUse : s.retained.filter (allocatedAt (s.heap.free (ptr - sizeofHeader.toNat))) =
      s.inUse := by
    refine List.filter_congr fun x hx => allocatedAt_congr (hsame x ?_)
    rintro rfl
    exact hnot (List.mem_append_left _ hx)
  refine { hcounted with
    mapped := mapped_giveBack hs ptr, live := ?_, asked := ?_, large := ?_ }
  · have hperm := live_giveBack hs ((hlarge.append_left s.inUse).trans List.perm_middle)
    rw [hs.ptr_eq hptr, ← hinUse] at hperm
    exact hperm
  · intro block hblock
    obtain ⟨hblock, hne⟩ := List.mem_filter.mp hblock
    obtain ⟨x, hx, hle⟩ := hs.asked block hblock
    refine ⟨x, hx, hle.trans (sizeAt_congr (hsame x ?_)).ge⟩
    rintro rfl
    rw [hs.ptr_eq hptr] at hx
    simp [hx] at hne
  · intro p hp
    obtain ⟨other, hother, hrest⟩ := hs.large p (List.mem_of_mem_erase hp)
    refine ⟨other, (hsame _ ?_).trans hother, hrest⟩
    intro heq
    exact hnot (List.mem_append_right _ (heq ▸ List.mem_map_of_mem hp))

theorem Sound.free (hs : Sound s) {ptr : Nat} (hmeets : s.Meets (.free ptr)) :
    Sound (s.free ptr) := by
  unfold BsMemoryPool.free
  split
  · exact hs
  split
  · exact hs
  · next a hmap =>
      obtain ⟨hptr, ha⟩ := hs.mem_of_mapped hmap
      have hall : a ∈ s.retained ++ s.largeHeaders :=
        (List.filter_sublist.append_right _).subset ha
      obtain ⟨chunk, hfind⟩ := hs.find hall
      have hfind' : (s.giveBack ptr).heap.find a = some chunk := hfind
      dsimp only
      rw [hfind']
      dsimp only
      split
      · next hcat =>
          have hlarge := hmeets a chunk hmap hfind hcat
          have hheader : a = ptr - sizeofHeader.toNat := by omega
          rw [hheader] at hfind ⊢
          exact hs.giveBack_large hlarge hfind
      · next hcat =>
          have hinUse : a ∈ s.inUse := by
            refine (List.mem_append.mp ha).resolve_right fun hheader => hcat ?_
            obtain ⟨p, hp, rfl⟩ := List.mem_map.mp hheader
            obtain ⟨other, hother, -, hlarge⟩ := hs.large p hp
            rw [hfind] at hother
            exact Option.some.inj hother ▸ hlarge
          rw [← hptr]
          exact hs.giveBack_chunk hinUse hfind

theorem Counted.clearList (hc : c ≠ .large) {l : List Nat} (hs : Counted (s.setList l c)) :
    Counted ((s.clearList l).setList [] c) := by
  induction l generalizing s with
  | nil => exact hs
  | cons a l ih =>
      have hretained := retained_setList_cons s a l hc
      obtain ⟨chunk, hfind⟩ := hs.find
        (List.mem_append_left _ (hretained.mem_iff.mpr List.mem_cons_self))
      rw [setList_heap] at hfind
      rw [BsMemoryPool.clearList, hfind]
      apply ih
      refine hs.dropChunk (((setList_heap s _ c).symm ▸ hfind) :
        (s.setList (a :: l) c).heap.find a = some chunk) ?_ ?_ ?_ ?_ ?_ ?_
      · rw [setList_heap, setList_heap]
      · rw [setList_fault, setList_fault]
      · refine hretained.trans (List.Perm.of_eq ?_)
        cases c <;> rfl
      · rw [setList_largeHeaders, setList_largeHeaders]
        rfl
      · rw [setList_totalUsed, setList_totalUsed]
      · rw [setList_totalAllocated, setList_totalAllocated]

theorem Counted.clearLarge {l : List Nat} (hs : Counted { s with largeBlocks := l }) :
    Counted { s.clearLarge l with largeBlocks := [] } := by
  induction l generalizing s with
  | nil => exact hs
  | cons ptr l ih =>
      have hheader : ptr - sizeofHeader.toNat ∈ s.retained ++
          (ptr :: l).map fun ptr => ptr - sizeofHeader.toNat :=
        List.mem_append_right _ (List.mem_map_of_mem List.mem_cons_self)
      obtain ⟨chunk, hfind⟩ := hs.find hheader
      have hfind' : s.heap.find (ptr - sizeofHeader.toNat) = some chunk := hfind
      rw [BsMemoryPool.clearLarge, hfind']
      apply ih
      exact hs.dropLarge hfind rfl rfl rfl (.refl _) rfl rfl

theorem lists_clearList (s : BsMemoryPool) (l : List Nat) :
    (s.clearList l).tinyList = s.tinyList ∧ (s.clearList l).smallList = s.smallList ∧
      (s.clearList l).mediumList = s.mediumList := by
  induction l generalizing s with
  | nil => exact ⟨rfl, rfl, rfl⟩
  | cons a l ih =>
      rw [BsMemoryPool.clearList]
      split
      · exact ⟨rfl, rfl, rfl⟩
      · exact ih _

theorem retained_clearLarge (s : BsMemoryPool) (l : List Nat) :
    (s.clearLarge l).retained = s.retained := by
  induction l generalizing s with
  | nil => rfl
  | cons ptr l ih =>
      rw [BsMemoryPool.clearLarge]
      split
      · rfl
      · exact ih _

theorem Counted.sound_of_empty (hs : Counted s) (hretained : s.retained = [])
    (hlarge : s.largeBlocks = []) (hmap : s.allocationMap = fun _ => none) (hlive : s.live = []) :
    Sound s := by
  refine { hs with mapped := ?_, live := ?_, asked := ?_, large := ?_ }
  · simp [hmap, hlive]
  · simp [hlive, inUse, hretained, largeHeaders, hlarge]
  · simp [hlive]
  · simp [hlarge]

theorem Sound.clear (hs : Sound s) : Sound s.clear := by
  let tinyCleared := { s.clearList s.tinyList with tinyList := [] }
  let smallCleared := { tinyCleared.clearList tinyCleared.smallList with smallList := [] }
  let cleared := { smallCleared.clearList smallCleared.mediumList with mediumList := [] }
  have htiny : Counted tinyCleared :=
    Counted.clearList (c := .tiny) (by decide) (l := s.tinyList) (s := s) hs.toCounted
  have hsmall : Counted smallCleared :=
    Counted.clearList (c := .small) (by decide) (l := tinyCleared.smallList) (s := tinyCleared)
      htiny
  have hmedium : Counted cleared :=
    Counted.clearList (c := .medium) (by decide) (l := smallCleared.mediumList)
      (s := smallCleared) hsmall
  have hlarge := Counted.clearLarge (s := cleared) (l := cleared.largeBlocks) hmedium
  have hempty : cleared.retained = [] := by
    have hsecond := lists_clearList tinyCleared tinyCleared.smallList
    have hthird := lists_clearList smallCleared smallCleared.mediumList
    show cleared.tinyList ++ cleared.smallList ++ [] = []
    rw [show cleared.tinyList = [] from hthird.1.trans hsecond.1,
      show cleared.smallList = [] from hthird.2.1]
    rfl
  have hcounted : Counted s.clear := {
    noFault := hlarge.noFault, heap := hlarge.heap, blocks := hlarge.blocks
    whole := hlarge.whole, used := hlarge.used, allocated := hlarge.allocated }
  refine hcounted.sound_of_empty ?_ rfl rfl rfl
  exact (retained_clearLarge cleared cleared.largeBlocks).trans hempty

theorem Sound.step (hs : Sound s) {call : MemoryPoolCall} (hmeets : s.Meets call)
    (hstep : s.step call = some s') : Sound s' := by
  unfold BsMemoryPool.step at hstep
  rw [hs.noFault, if_neg (by decide)] at hstep
  cases call with
  | alloc size address => exact hs.alloc hmeets hstep
  | free ptr => exact Option.some.inj hstep ▸ hs.free hmeets
  | clear => exact Option.some.inj hstep ▸ hs.clear

theorem Sound.nodup_live (hs : Sound s) : (s.live.map (·.1)).Nodup :=
  hs.live.nodup_iff.mpr hs.inUse_nodup

theorem Sound.block (hs : Sound s) {block : Nat × UInt64} (hblock : block ∈ s.live) :
    ∃ chunk ∈ s.heap, chunk.address + sizeofHeader.toNat = block.1 ∧
      sizeofHeader.toNat + block.2.toNat ≤ chunk.size := by
  obtain ⟨x, hx, hle⟩ := hs.asked block hblock
  have hmem := hs.live.mem_iff.mp (List.mem_map_of_mem hblock)
  obtain ⟨y, hy, hyx⟩ := List.mem_map.mp hmem
  have hxy : y = x := by omega
  rw [hxy] at hy
  obtain ⟨chunk, hfind⟩ := hs.find ((List.filter_sublist.append_right _).subset hy)
  have hchunk := Heap.mem_of_find hfind
  have hwhole := hs.whole chunk hchunk
  rw [sizeAt_of_find hfind] at hle
  exact ⟨chunk, hchunk, by rw [Heap.address_of_find hfind, hx], by omega⟩

theorem Sound.safe (hs : Sound s) : Safe s where
  noFault := hs.noFault
  room ptr size hblock := hs.block hblock
  apart := by
    refine (List.pairwise_map.mp hs.nodup_live).imp_of_mem fun {p q} hp hq hne => ?_
    obtain ⟨b, hb, hbp, hbsize⟩ := hs.block hp
    obtain ⟨c, hc, hcq, hcsize⟩ := hs.block hq
    have hapart := (hs.heap.apart_of_find (hs.heap.find_of_mem hb) (hs.heap.find_of_mem hc)
      (by omega)).2
    omega
  live := by
    have hptrs : s.largeHeaders.map (· + sizeofHeader.toNat) = s.largeBlocks := by
      rw [largeHeaders, List.map_map]
      conv_rhs => rw [← List.map_id s.largeBlocks]
      exact List.map_congr_left fun ptr hptr => hs.ptr_eq hptr
    have hlive := hs.live
    rwa [List.map_append, hptrs] at hlive
  used := hs.used
  allocated := hs.allocated

/-- **As long as no size wraps and no chunk of a list is given back as a block
of its own, the pool is safe.** -/
theorem memoryPool_safe (tinySize smallSize mediumSize : UInt64) {s : BsMemoryPool}
    (hs : (memoryPool tinySize smallSize mediumSize).ReachableMeeting Meets s) : Safe s :=
  (Machine.ReachableMeeting.invariant (sound_create _ _ _)
    (fun _ _ _ hs hmeets hstep => Sound.step hs hmeets hstep) hs).safe

def reuse : List MemoryPoolCall :=
  [.alloc 5000 (some 16), .alloc 70000 (some 200000), .free 48, .alloc 4900 none, .free 200032]

theorem reuse_safe : ∃ s, (memoryPool 0 0 0).run (memoryPool 0 0 0).init reuse = some s ∧
    Safe s ∧ s.live = [(48, 4900)] := by
  have hmeets : (memoryPool 0 0 0).RunMeets Meets (memoryPool 0 0 0).init reuse := by
    refine ⟨?_, ?_, ?_, trivial, ?_, trivial⟩
    · show UInt64.toNat _ + UInt64.toNat _ < 2 ^ 64
      decide
    · show UInt64.toNat _ + UInt64.toNat _ < 2 ^ 64
      decide
    · intro a chunk hmap hfind hcat
      cases hmap
      cases hfind
      exact absurd hcat (by decide)
    · intro a chunk hmap hfind hcat
      decide
  exact ⟨_, rfl, memoryPool_safe 0 0 0 (.run (.init _ _) hmeets rfl), rfl⟩

/-- A pool for chunks of 100000 bytes frees a chunk that stays on its list. -/
theorem oversized_unsafe : ¬ ∀ (tinySize smallSize mediumSize : UInt64) (s : BsMemoryPool),
    (memoryPool tinySize smallSize mediumSize).Reachable s → Safe s := by
  intro hall
  have hrun : (memoryPool 0 0 100000).run (memoryPool 0 0 100000).init
      [.alloc 5000 (some 16), .free 48] = some _ := rfl
  have hsafe := hall 0 0 100000 _ (Machine.reachable_of_run _ hrun)
  exact absurd hsafe.used (by decide)

end BlessStar.Runtime.Proofs.MemoryPoolSafety
