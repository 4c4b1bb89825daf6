import Mathlib.Logic.Function.Basic
import BlessStar.Lib.BlockHeap
import BlessStar.Lib.Transition

/-!
# The memory pool

`MemoryPool.cpp` over a heap.  The calls of one pool are steps; a step that
calls `malloc` names the address that `malloc` answers, if any, and is possible
only where the heap has room there.  A pointer is the address after a header.
-/

namespace BlessStar.Runtime

open Lib.BlockHeap Lib.Transition

inductive BsMemoryPoolCategory
  | tiny
  | small
  | medium
  | large
  deriving DecidableEq

/-- `ChunkHeader`; its links are the order of the list that it is on. -/
structure ChunkHeader where
  size : UInt64
  category : BsMemoryPoolCategory
  isAllocated : Bool

/-- `sizeof(ChunkHeader)`. -/
def sizeofHeader : UInt64 := 32

def defaultTinySize : UInt64 := 64

def defaultSmallSize : UInt64 := 1024

def defaultMediumSize : UInt64 := 64 * 1024

def getCategory (size : UInt64) : BsMemoryPoolCategory :=
  if size ≤ defaultTinySize then .tiny
  else if size ≤ defaultSmallSize then .small
  else if size ≤ defaultMediumSize then .medium
  else .large

/-- `BsMemoryPool` with the heap it allocates from.  `live` shows the pointers
that were handed out and not given back, with the sizes asked for; `fault` is
set where a header is read or freed whose block is not in the heap. -/
structure BsMemoryPool where
  tinySize : UInt64
  smallSize : UInt64
  mediumSize : UInt64
  tinyList : List Nat := []
  smallList : List Nat := []
  mediumList : List Nat := []
  largeBlocks : List Nat := []
  totalAllocated : UInt64 := 0
  totalUsed : UInt64 := 0
  allocationMap : Nat → Option Nat := fun _ => none
  heap : Heap ChunkHeader := []
  live : List (Nat × UInt64) := []
  fault : Bool := false

/-- A call, with what `malloc` answers in it. -/
inductive MemoryPoolCall
  | alloc (size : UInt64) (address : Option Nat)
  | free (ptr : Nat)
  | clear

namespace BsMemoryPool

def create (tinySize smallSize mediumSize : UInt64) : BsMemoryPool where
  tinySize := if 0 < tinySize then tinySize else defaultTinySize
  smallSize := if 0 < smallSize then smallSize else defaultSmallSize
  mediumSize := if 0 < mediumSize then mediumSize else defaultMediumSize

def poolSize (s : BsMemoryPool) : BsMemoryPoolCategory → UInt64
  | .tiny => s.tinySize
  | .small => s.smallSize
  | .medium => s.mediumSize
  | .large => 0

def list (s : BsMemoryPool) : BsMemoryPoolCategory → List Nat
  | .tiny => s.tinyList
  | .small => s.smallList
  | .medium => s.mediumList
  | .large => []

def setList (s : BsMemoryPool) (chunks : List Nat) : BsMemoryPoolCategory → BsMemoryPool
  | .tiny => { s with tinyList := chunks }
  | .small => { s with smallList := chunks }
  | .medium => { s with mediumList := chunks }
  | .large => s

def retained (s : BsMemoryPool) : List Nat := s.tinyList ++ s.smallList ++ s.mediumList

def chunkSize (s : BsMemoryPool) (size : UInt64) : UInt64 :=
  match getCategory size with
  | .large => size
  | category =>
      let rounded := (size + 7) &&& ~~~7
      if rounded < s.poolSize category then s.poolSize category else rounded

/-- `malloc` at `a` and the header that is written there. -/
def newChunk (s : BsMemoryPool) (size : UInt64) (isAllocated : Bool) (a : Nat) :
    Option BsMemoryPool :=
  let chunk : Block ChunkHeader :=
    { address := a
      size := (size + sizeofHeader).toNat
      content :=
        { size := size, category := getCategory size, isAllocated := isAllocated } }
  if s.heap.Room chunk then some { s with heap := chunk :: s.heap } else none

def allocateBlock (s : BsMemoryPool) (size : UInt64) (a : Nat) : Option BsMemoryPool :=
  s.newChunk size true a

def allocateChunk (s : BsMemoryPool) (size : UInt64) (a : Nat) : Option BsMemoryPool :=
  (s.newChunk size false a).map fun s =>
    { s with totalAllocated := s.totalAllocated + (size + sizeofHeader) }

/-- The first chunk of a list that is free and has `size` bytes; no result when
a header on the way was freed. -/
def firstFit (heap : Heap ChunkHeader) (size : UInt64) : List Nat → Option (Option Nat)
  | [] => some none
  | a :: rest =>
      match heap.find a with
      | none => none
      | some chunk =>
          if !chunk.content.isAllocated && size ≤ chunk.content.size then some (some a)
          else firstFit heap size rest

/-- Hand out the chunk at `a` for a request. -/
def handOut (s : BsMemoryPool) (a : Nat) (size : UInt64) : BsMemoryPool :=
  match s.heap.find a with
  | none => { s with fault := true }
  | some chunk =>
      { s with
        heap := s.heap.store a { chunk.content with isAllocated := true }
        totalUsed := s.totalUsed + chunk.content.size
        allocationMap := Function.update s.allocationMap (a + sizeofHeader.toNat) (some a)
        live := (a + sizeofHeader.toNat, size) :: s.live }

def handOutLarge (s : BsMemoryPool) (a : Nat) (size : UInt64) : BsMemoryPool :=
  { s with
    allocationMap := Function.update s.allocationMap (a + sizeofHeader.toNat) (some a)
    largeBlocks := s.largeBlocks ++ [a + sizeofHeader.toNat]
    totalUsed := s.totalUsed + (size + sizeofHeader)
    live := (a + sizeofHeader.toNat, size) :: s.live }

def alloc (s : BsMemoryPool) (size : UInt64) (address : Option Nat) : Option BsMemoryPool :=
  if size = 0 then some s
  else
    match getCategory size with
    | .large =>
        match address with
        | none => some s
        | some a => (s.allocateBlock size a).map fun s => s.handOutLarge a size
    | category =>
        match firstFit s.heap (s.chunkSize size) (s.list category), address with
        | none, _ => some { s with fault := true }
        | some (some a), _ => some (s.handOut a size)
        | some none, none => some s
        | some none, some a =>
            (s.allocateChunk (s.chunkSize size) a).map fun s =>
              (s.setList (a :: s.list category) category).handOut a size

def giveBack (s : BsMemoryPool) (ptr : Nat) : BsMemoryPool :=
  { s with
    allocationMap := Function.update s.allocationMap ptr none
    live := s.live.filter fun block => block.1 ≠ ptr }

def free (s : BsMemoryPool) (ptr : Nat) : BsMemoryPool :=
  if ptr = 0 then s
  else
    match s.allocationMap ptr with
    | none => s
    | some a =>
        let s := s.giveBack ptr
        match s.heap.find a with
        | none => { s with fault := true }
        | some chunk =>
            if chunk.content.category = .large then
              { s with
                largeBlocks := s.largeBlocks.erase ptr
                totalUsed := s.totalUsed - (chunk.content.size + sizeofHeader)
                heap := s.heap.free a }
            else
              { s with
                heap := s.heap.store a { chunk.content with isAllocated := false }
                totalUsed := s.totalUsed - chunk.content.size }

/-- `clear_list`; the list itself is emptied by `clear`. -/
def clearList (s : BsMemoryPool) : List Nat → BsMemoryPool
  | [] => s
  | a :: rest =>
      match s.heap.find a with
      | none => { s with fault := true }
      | some chunk =>
          clearList
            { s with
              totalUsed :=
                if chunk.content.isAllocated then s.totalUsed - chunk.content.size
                else s.totalUsed
              totalAllocated := s.totalAllocated - (chunk.content.size + sizeofHeader)
              heap := s.heap.free a } rest

/-- The loop of `bs_memory_pool_clear` over `large_blocks`. -/
def clearLarge (s : BsMemoryPool) : List Nat → BsMemoryPool
  | [] => s
  | ptr :: rest =>
      match s.heap.find (ptr - sizeofHeader.toNat) with
      | none => { s with fault := true }
      | some chunk =>
          clearLarge
            { s with
              totalUsed := s.totalUsed - (chunk.content.size + sizeofHeader)
              heap := s.heap.free (ptr - sizeofHeader.toNat) } rest

def clear (s : BsMemoryPool) : BsMemoryPool :=
  let s := { s.clearList s.tinyList with tinyList := [] }
  let s := { s.clearList s.smallList with smallList := [] }
  let s := { s.clearList s.mediumList with mediumList := [] }
  { s.clearLarge s.largeBlocks with
    largeBlocks := [], allocationMap := fun _ => none, live := [] }

def step (s : BsMemoryPool) (call : MemoryPoolCall) : Option BsMemoryPool :=
  if s.fault then none
  else
    match call with
    | .alloc size address => s.alloc size address
    | .free ptr => some (s.free ptr)
    | .clear => some s.clear

end BsMemoryPool

def memoryPool (tinySize smallSize mediumSize : UInt64) : Machine BsMemoryPool MemoryPoolCall where
  init := .create tinySize smallSize mediumSize
  step := BsMemoryPool.step

/-! ## What is expected of a pool -/

namespace BsMemoryPool

def sizeAt (heap : Heap ChunkHeader) (a : Nat) : Nat :=
  ((heap.find a).map fun chunk => chunk.content.size.toNat).getD 0

def allocatedAt (heap : Heap ChunkHeader) (a : Nat) : Bool :=
  ((heap.find a).map fun chunk => chunk.content.isAllocated).getD false

def inUse (s : BsMemoryPool) : List Nat := s.retained.filter (allocatedAt s.heap)

def largeHeaders (s : BsMemoryPool) : List Nat :=
  s.largeBlocks.map fun ptr => ptr - sizeofHeader.toNat

/-- Every header that is read is one of a block in the heap, as is every block
that is freed; what was handed out lies in a block of the heap behind its
header, apart from what else was handed out; and the counters are the sums over
what is in use and over what is retained. -/
structure Safe (s : BsMemoryPool) : Prop where
  noFault : s.fault = false
  room : ∀ ptr size, (ptr, size) ∈ s.live → ∃ chunk ∈ s.heap,
    chunk.address + sizeofHeader.toNat = ptr ∧ sizeofHeader.toNat + size.toNat ≤ chunk.size
  apart : s.live.Pairwise fun p q =>
    p.1 + p.2.toNat ≤ q.1 ∨ q.1 + q.2.toNat ≤ p.1
  live : (s.live.map (·.1)).Perm
    (s.inUse.map (· + sizeofHeader.toNat) ++ s.largeBlocks)
  used : s.totalUsed.toNat =
    (s.inUse.map (sizeAt s.heap)).sum +
      (s.largeHeaders.map fun a => sizeAt s.heap a + sizeofHeader.toNat).sum
  allocated : s.totalAllocated.toNat =
    (s.retained.map fun a => sizeAt s.heap a + sizeofHeader.toNat).sum

/-- The block of a new chunk is as large as its header says, and no chunk of a
list is given back whose category is that of a block of its own. -/
def Meets (s : BsMemoryPool) : MemoryPoolCall → Prop
  | .alloc size (some _) => (s.chunkSize size).toNat + sizeofHeader.toNat < 2 ^ 64
  | .alloc _ none => True
  | .free ptr => ∀ a chunk, s.allocationMap ptr = some a → s.heap.find a = some chunk →
      chunk.content.category = .large → ptr ∈ s.largeBlocks
  | .clear => True

end BsMemoryPool

end BlessStar.Runtime
