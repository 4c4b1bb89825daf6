import BlessStar.Lib.ByteString
import BlessStar.Lib.Transition

/-!
# The snapshots of compiled configuration

`attach_ir_snapshot.cpp`: a store keeps the latest instruction list published
for each path, and the older lists that are pinned.  The store owns a list from
its publication on; what it gives to `bs_ir_instruction_list_destroy` is kept in
order.
-/

namespace BlessStar.Session

open Lib.ByteString Lib.Transition

variable {L : Type}

structure IrSnapshotEntry (L : Type) where
  handle : UInt64
  path : Bytes
  revision : UInt64
  instructions : L
  pinCount : UInt32 := 0
  isLatest : Bool := true

structure IrSnapshotStore (L : Type) where
  nextHandle : UInt64 := 1
  entries : List (IrSnapshotEntry L) := []
  destroyed : List L := []

/-- Write to the entry that `find_entry` returns. -/
def modifyEntry (handle : UInt64) (f : IrSnapshotEntry L → IrSnapshotEntry L) :
    List (IrSnapshotEntry L) → List (IrSnapshotEntry L)
  | [] => []
  | e :: rest => if e.handle = handle then f e :: rest else e :: modifyEntry handle f rest

namespace IrSnapshotStore

def findEntry (s : IrSnapshotStore L) (handle : UInt64) : Option (IrSnapshotEntry L) :=
  if handle = 0 then none else s.entries.find? fun e => e.handle = handle

def eraseEntries (s : IrSnapshotStore L) (doomed : IrSnapshotEntry L → Bool) :
    IrSnapshotStore L :=
  { s with
    entries := s.entries.filter fun e => !doomed e
    destroyed := s.destroyed ++ (s.entries.filter doomed).map (·.instructions) }

def evictUnpinnedNonLatest (s : IrSnapshotStore L) (path : Bytes) : IrSnapshotStore L :=
  s.eraseEntries fun e => e.path = path && !e.isLatest && e.pinCount = 0

/-- `bs_adapter_attach_ir_snapshot_publish`, with the handle it returns. -/
def publish (s : IrSnapshotStore L) (path : Bytes) (revision : UInt64) (instructions : L) :
    IrSnapshotStore L × UInt64 :=
  let older := s.entries.map fun e => if e.path = path then { e with isLatest := false } else e
  let entry : IrSnapshotEntry L :=
    { handle := s.nextHandle, path := path, revision := revision, instructions := instructions }
  ({ s with
      nextHandle := s.nextHandle + 1
      entries := older ++ [entry] }.evictUnpinnedNonLatest path, s.nextHandle)

/-- `bs_adapter_attach_ir_snapshot_pin`. -/
def pin (s : IrSnapshotStore L) (handle : UInt64) : IrSnapshotStore L :=
  match s.findEntry handle with
  | none => s
  | some _ =>
      { s with
        entries := modifyEntry handle (fun e => { e with pinCount := e.pinCount + 1 }) s.entries }

/-- `bs_adapter_attach_ir_snapshot_unpin`. -/
def unpin (s : IrSnapshotStore L) (handle : UInt64) : IrSnapshotStore L :=
  match s.findEntry handle with
  | none => s
  | some entry =>
      if entry.pinCount = 0 then s
      else
        let entries :=
          modifyEntry handle (fun e => { e with pinCount := e.pinCount - 1 }) s.entries
        if !entry.isLatest && entry.pinCount - 1 = 0 then
          { s with
            entries := entries.filter fun e => e.handle ≠ handle
            destroyed := s.destroyed ++ [entry.instructions] }
        else { s with entries := entries }

/-- `bs_adapter_attach_ir_snapshot_instructions`. -/
def instructions (s : IrSnapshotStore L) (handle : UInt64) : Option L :=
  (s.findEntry handle).map (·.instructions)

/-- `bs_adapter_attach_ir_snapshot_clear_all`. -/
def clearAll (s : IrSnapshotStore L) : IrSnapshotStore L :=
  s.eraseEntries fun e => e.pinCount = 0

/-- `bs_adapter_attach_ir_snapshot_remove`, with what it returns. -/
def remove (s : IrSnapshotStore L) (handle : UInt64) : IrSnapshotStore L × Int :=
  match s.findEntry handle with
  | none => (s, -1)
  | some entry =>
      if 0 < entry.pinCount then (s, -1)
      else
        ({ s with
            entries := s.entries.eraseP fun e => e.handle = handle
            destroyed := s.destroyed ++ [entry.instructions] }, 0)

/-- `bs_adapter_attach_ir_snapshot_destroy`, which destroys pinned lists too. -/
def destroy (s : IrSnapshotStore L) : List L := s.destroyed ++ s.entries.map (·.instructions)

end IrSnapshotStore

structure Publication (L : Type) where
  path : Bytes
  handle : UInt64
  instructions : L

inductive SnapshotCall (L : Type)
  | publish (path : Bytes) (revision : UInt64) (instructions : L)
  | pin (handle : UInt64)
  | unpin (handle : UInt64)
  | remove (handle : UInt64)
  | clearAll

structure SnapshotHistory (L : Type) where
  store : IrSnapshotStore L := {}
  published : List (Publication L) := []

namespace SnapshotHistory

def lastPublished (s : SnapshotHistory L) (path : Bytes) : Option (Publication L) :=
  (s.published.filter fun p => p.path = path).getLast?

/-- One call.  `publish` takes ownership of the list, so a caller hands it over
once. -/
def step [DecidableEq L] (s : SnapshotHistory L) : SnapshotCall L → Option (SnapshotHistory L)
  | .publish path revision instructions =>
      if instructions ∈ s.published.map (·.instructions) then none
      else
        let (store, handle) := s.store.publish path revision instructions
        some ⟨store, s.published ++ [⟨path, handle, instructions⟩]⟩
  | .pin handle => some { s with store := s.store.pin handle }
  | .unpin handle => some { s with store := s.store.unpin handle }
  | .remove handle => some { s with store := (s.store.remove handle).1 }
  | .clearAll => some { s with store := s.store.clearAll }

end SnapshotHistory

def snapshotMachine [DecidableEq L] : Machine (SnapshotHistory L) (SnapshotCall L) where
  init := {}
  step := SnapshotHistory.step

end BlessStar.Session
