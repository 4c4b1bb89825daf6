import BlessStar.Lib.ByteString

/-!
# The gate map

The hash map of `gate_chain_serialize.c`: FNV-1a, open addressing with linear
probing, and a rebuild that sizes the table by its count.  Sizes are natural
numbers: a table whose sizes do not fit `size_t` cannot be allocated, and above
`2 ^ 63` the loop of `next_pow2` does not end, so `bs_gate_map_create` does not
return.
-/

namespace BlessStar.Gate

open Lib.ByteString

variable {α : Type}

/-- `bs_gate_map_slot_t`: the key is `NULL`, `kMapTombstone` or a string. -/
inductive GateMapSlot (α : Type)
  | empty
  | tomb
  | full (stableKey : Bytes) (nodePtr : α)

/-- `bs_gate_map_t`; the capacity is the number of slots. -/
structure GateMap (α : Type) where
  slots : List (GateMapSlot α)
  count : Nat

namespace GateMap

def capacity (map : GateMap α) : Nat := map.slots.length

def fnv1aHash (key : Bytes) : UInt64 :=
  key.foldl (fun h c => (h ^^^ c.toUInt64) * 1099511628211) 14695981039346656037

def nextPow2Loop (n : Nat) : Nat → Nat → Nat
  | 0, p => p
  | turns + 1, p => if p < n then nextPow2Loop n turns (p * 2) else p

/-- `next_pow2`; `n` turns are enough, as `n < 2 ^ n`. -/
def nextPow2 (n : Nat) : Nat := nextPow2Loop n n 1

/-- Where the search for a key begins: `hash & mask`. -/
def firstIdx (map : GateMap α) (stableKey : Bytes) : Nat :=
  (fnv1aHash stableKey).toNat &&& (map.capacity - 1)

def nextIdx (map : GateMap α) (idx : Nat) : Nat := (idx + 1) &&& (map.capacity - 1)

def findSlotLoop (map : GateMap α) (stableKey : Bytes) : Nat → Nat → Option Nat → Option Nat
  | 0, _, tombstone => tombstone
  | turns + 1, idx, tombstone =>
      match map.slots[idx]? with
      | none | some .empty => some (tombstone.getD idx)
      | some .tomb =>
          findSlotLoop map stableKey turns (map.nextIdx idx) (tombstone <|> some idx)
      | some (.full key _) =>
          if key = stableKey then some idx
          else findSlotLoop map stableKey turns (map.nextIdx idx) tombstone

/-- `map_find_slot`: the index of the slot to write. -/
def findSlot (map : GateMap α) (stableKey : Bytes) : Option Nat :=
  findSlotLoop map stableKey map.capacity (map.firstIdx stableKey) none

def create (capacity : Nat) : GateMap α where
  slots := List.replicate (max (nextPow2 capacity) 8) .empty
  count := 0

/-- The end of `bs_gate_map_insert`, on the slot that was found. -/
def write (map : GateMap α) (idx : Nat) (stableKey : Bytes) (nodePtr : α) : GateMap α where
  slots := map.slots.set idx (.full stableKey nodePtr)
  count :=
    match map.slots[idx]? with
    | some (.full _ _) => map.count
    | _ => map.count + 1

/-- `bs_gate_map_insert` after its load test. -/
def insertInto (map : GateMap α) (stableKey : Bytes) (nodePtr : α) : Int × GateMap α :=
  match map.findSlot stableKey with
  | none => (-1, map)
  | some idx => (0, map.write idx stableKey nodePtr)

def moveSlot (insert : GateMap α → Bytes → α → Option (Int × GateMap α)) (map : GateMap α) :
    GateMapSlot α → Option (GateMap α)
  | .full key nodePtr => (insert map key nodePtr).map Prod.snd
  | _ => some map

mutual

/-- `bs_gate_map_rebuild`; out of fuel is `none`. -/
def rebuild : Nat → GateMap α → Option (Int × GateMap α)
  | 0, _ => none
  | fuel + 1, map =>
      let newCap := max (nextPow2 (map.count * 3 / 2)) 8
      if newCap = map.capacity then some (0, map)
      else
        let emptied : GateMap α := ⟨List.replicate newCap .empty, 0⟩
        (map.slots.foldlM (moveSlot (insert fuel)) emptied).map fun m => (0, m)

def insert : Nat → GateMap α → Bytes → α → Option (Int × GateMap α)
  | 0, _, _, _ => none
  | fuel + 1, map, stableKey, nodePtr =>
      if map.count + 1 > map.capacity * 7 / 10 then
        match rebuild fuel map with
        | none => none
        | some (rc, map') =>
            if rc ≠ 0 then some (-1, map') else some (map'.insertInto stableKey nodePtr)
      else some (map.insertInto stableKey nodePtr)

end

def lookupLoop (map : GateMap α) (stableKey : Bytes) : Nat → Nat → Option α
  | 0, _ => none
  | turns + 1, idx =>
      match map.slots[idx]? with
      | none | some .empty => none
      | some .tomb => lookupLoop map stableKey turns (map.nextIdx idx)
      | some (.full key nodePtr) =>
          if key = stableKey then some nodePtr
          else lookupLoop map stableKey turns (map.nextIdx idx)

/-- `bs_gate_map_lookup`; `none` is the code -1. -/
def lookup (map : GateMap α) (stableKey : Bytes) : Option α :=
  if map.count = 0 then none
  else lookupLoop map stableKey map.capacity (map.firstIdx stableKey)

inductive Call (α : Type)
  | insert (stableKey : Bytes) (nodePtr : α)
  | rebuild

def call (fuel : Nat) (map : GateMap α) : Call α → Option (Int × GateMap α)
  | .insert stableKey nodePtr => map.insert fuel stableKey nodePtr
  | .rebuild => map.rebuild fuel

def calls (fuel : Nat) : GateMap α → List (Call α) → Option (List Int × GateMap α)
  | map, [] => some ([], map)
  | map, c :: cs =>
      match map.call fuel c with
      | none => none
      | some (rc, map') => (calls fuel map' cs).map fun (rcs, m) => (rc :: rcs, m)

end GateMap

end BlessStar.Gate
