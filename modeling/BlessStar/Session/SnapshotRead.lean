import BlessStar.State.ConfigManager

/-!
# Snapshot reads of a session

Commits of one configuration path beside readers of its snapshot, from
`attach_session.cpp`, `attach_config.cpp` and `persist_per_path`.  A commit
raises the revision of the manifest, publishes the new bytes on the state bus
under the write lock of the session, and raises the revision of the session.  A
reader pins a snapshot, samples the revision of the session, and compares it
with that of the manifest.
-/

namespace BlessStar.Session

open Lib.ByteString Lib.Transition State

def jsonMaxInputBytes : Nat := 1024 * 1024

/-- The `write_depth` and `block_new_reads` of `AttachSessionState`. -/
structure WriteLock where
  writeDepth : Nat := 0
  blockNewReads : Bool := false

namespace WriteLock

def enter (lock : WriteLock) : WriteLock where
  writeDepth := lock.writeDepth + 1
  blockNewReads := if lock.writeDepth = 0 then true else lock.blockNewReads

def leave (lock : WriteLock) : WriteLock where
  writeDepth := lock.writeDepth - 1
  blockNewReads := if lock.writeDepth = 1 then false else lock.blockNewReads

/-- `bs_adapter_attach_session_begin_write_window`. -/
def beginWriteWindow (lock : WriteLock) : WriteLock := lock.enter

/-- `bs_adapter_attach_session_end_write_window` of an open window. -/
def endWriteWindow (lock : WriteLock) : WriteLock := lock.leave

/-- `bs_adapter_attach_session_try_write_lock` with no other writer. -/
def tryWriteLock (lock : WriteLock) : WriteLock := lock.enter

/-- `bs_adapter_attach_session_write_unlock` of a lock that is held. -/
def writeUnlock (lock : WriteLock) : WriteLock := lock.leave

end WriteLock

/-- The call of `bs_adapter_attach_config_sync_path` on the configuration
manager for a path in this state: its transitions, or its error. -/
def syncEmissions (bus : StateBus) (path data : Bytes) : Except Int (List Emission) :=
  let (found, current) := lookupState bus path
  if !found || current = .closed || current = .initial then loadConfig data found current
  else if current = .active then hotUpdate data found current
  else reloadConfig data found current

/-- Where `persist_per_path` is; `owned` tells whether the sync took the write
lock itself. -/
inductive CommitAt
  | idle
  | stored (data : Bytes)
  | locked (data : Bytes) (owned : Bool)
  | emitting (data : Bytes) (rest : List Emission) (owned : Bool)
  | emitted (ok : Bool) (owned : Bool)
  | synced
  deriving DecidableEq

/-- `bs_adapter_attach_config_get_snapshot_copy` with its `buf_cap`, or
`bs_adapter_attach_config_open_snapshot_read`. -/
inductive ReadCall
  | getSnapshotCopy (bufCap : Nat)
  | openSnapshotRead
  deriving DecidableEq

inductive ReadError
  | readBlocked
  | notLoaded
  | reloadFailed
  | revisionStale
  | tooLarge
  | bufferTooSmall
  | noHandle
  deriving DecidableEq

inductive SnapshotReadAt
  | pin (call : ReadCall)
  | sample (call : ReadCall) (payload : SnapshotPayload)
  | check (call : ReadCall) (payload : SnapshotPayload) (sessionRev : UInt64)
  | returned (result : Except ReadError (Bytes × UInt64))

/-- `SnapshotReadHandle` of the one path. -/
structure SnapshotReadHandle where
  revision : UInt64
  payload : SnapshotPayload
  deriving DecidableEq

/-- The session with the manifest and the state bus it works on, and for the
statements only the bytes committed with each revision. -/
structure AttachSession where
  lock : WriteLock := {}
  pathRevision : UInt64 := 0
  handles : List (Option SnapshotReadHandle) := List.replicate 16 none
  manifestRevision : UInt64 := 0
  stateBus : StateBus := fun _ => none
  commit : CommitAt := .idle
  readers : List SnapshotReadAt := []
  committed : UInt64 → Option Bytes := fun _ => none

inductive SessionEvent
  | beginWindow
  | endWindow
  | storeCommit (data : Bytes) (baseRevision : UInt64)
  | advanceCommit (copied : Bool) (memory : EventMemory)
  | read (call : ReadCall)
  | advanceRead (reader : Nat) (reloaded : Bool)
  | closeRead (handle : Nat)

/-- `bs_state_bus_pin_snapshot`. -/
def pinSnapshot (bus : StateBus) (path : Bytes) : Option SnapshotPayload :=
  (bus path).bind fun impl => impl.rcu.ptr

namespace AttachSession

/-- The next step of a commit: `copied` says whether there is memory for a copy
of the data, `memory` for the event. -/
def advanceCommit (path : Bytes) (s : AttachSession) (copied : Bool) (memory : EventMemory) :
    CommitAt → Option AttachSession
  | .idle => none
  | .stored data =>
      -- without data there is no sync
      if data = [] then some { s with commit := .idle }
      else if 0 < s.lock.writeDepth then some { s with commit := .locked data false }
      else
        some { s with
          lock := s.lock.tryWriteLock
          commit := .locked data true }
  | .locked data owned =>
      match syncEmissions s.stateBus path data with
      | .error _ => some { s with commit := .emitted false owned }
      | .ok emissions => some { s with commit := .emitting data emissions owned }
  | .emitting _ [] owned => some { s with commit := .emitted true owned }
  | .emitting data (e :: rest) owned =>
      some { s with
        stateBus := s.stateBus.setState path e.toState e.data copied
        commit := if memory.event then .emitting data rest owned else .emitted false owned }
  | .emitted ok owned =>
      some { s with
        lock := if owned then s.lock.writeUnlock else s.lock
        commit := if ok then .synced else .idle }
  | .synced =>
      -- `bs_adapter_attach_post_config_sync`
      some { s with
        pathRevision := s.manifestRevision
        commit := .idle }

def deliver (s : AttachSession) (call : ReadCall) (payload : SnapshotPayload) (rev : UInt64) :
    Except ReadError (Bytes × UInt64) × List (Option SnapshotReadHandle) :=
  match call with
  | .getSnapshotCopy bufCap =>
      (if jsonMaxInputBytes < payload.bytes.length then .error .tooLarge
        else if bufCap < payload.bytes.length then .error .bufferTooSmall
        else .ok (payload.bytes, rev), s.handles)
  | .openSnapshotRead =>
      match s.handles.findIdx? (·.isNone) with
      | none => (.error .noHandle, s.handles)
      | some i => (.ok (payload.bytes, rev), s.handles.set i (some ⟨rev, payload⟩))

/-- The next step of a reader: `reloaded` says whether the manifest could be
reloaded. -/
def advanceRead (path : Bytes) (s : AttachSession) (reader : Nat) (reloaded : Bool) :
    SnapshotReadAt → Option AttachSession
  | .pin call =>
      some { s with
        readers := s.readers.set reader
          (match pinSnapshot s.stateBus path with
            | none => .returned (.error .notLoaded)
            | some payload => .sample call payload) }
  | .sample call payload =>
      some { s with readers := s.readers.set reader (.check call payload s.pathRevision) }
  | .check call payload sessionRev =>
      if reloaded = false then
        some { s with readers := s.readers.set reader (.returned (.error .reloadFailed)) }
      else if s.manifestRevision ≠ sessionRev then
        some { s with readers := s.readers.set reader (.returned (.error .revisionStale)) }
      else
        let r := s.deliver call payload sessionRev
        some { s with
          handles := r.2
          readers := s.readers.set reader (.returned r.1) }
  | .returned _ => none

def step (path : Bytes) (s : AttachSession) : SessionEvent → Option AttachSession
  | .beginWindow =>
      if s.commit = .idle then some { s with lock := s.lock.beginWriteWindow } else none
  | .endWindow =>
      if s.commit = .idle ∧ 0 < s.lock.writeDepth then
        some { s with lock := s.lock.endWriteWindow }
      else none
  | .storeCommit data baseRevision =>
      if s.commit ≠ .idle then none
      -- `BS_ATTACH_ERR_CONFLICT`
      else if s.manifestRevision ≠ baseRevision then some s
      else
        some { s with
          manifestRevision := baseRevision + 1
          committed := Function.update s.committed (baseRevision + 1) (some data)
          commit := .stored data }
  | .advanceCommit copied memory => s.advanceCommit path copied memory s.commit
  | .read call =>
      -- `AttachReadGuard`
      some { s with
        readers := s.readers ++
          [if s.lock.blockNewReads then .returned (.error .readBlocked) else .pin call] }
  | .advanceRead reader reloaded =>
      s.readers[reader]?.bind (s.advanceRead path reader reloaded)
  | .closeRead handle => some { s with handles := s.handles.set handle none }

end AttachSession

/-- A session that has not loaded the path, over a manifest that has it at this
revision. -/
def attachSession (path : Bytes) (manifestRevision : UInt64) :
    Machine AttachSession SessionEvent where
  init := { manifestRevision := manifestRevision }
  step := AttachSession.step path

end BlessStar.Session
