import BlessStar.Lib.Lockstep
import BlessStar.Persistence.Store

/-!
# Workspaces and their storage

The storage backends of a workspace, from `storage_local.cpp` and
`storage_persist.cpp`, and the calls of `workspace.cpp` that go through them.
The files are a disk whose names are what paths resolve to; every file can be
opened, read and written.
-/

namespace BlessStar.Workspace

open Lib.ByteString Lib.FileSystem Lib.Lockstep
open Persistence

inductive Errno
  | einval
  | enoent
  | eio
  | enomem
  deriving DecidableEq, Repr

/-- `p` is behind a separator or at the start of the path. -/
def opensComponent : Option UInt8 → Bool
  | none => true
  | some c => c = 47 || c = 92

/-- `p[0] == '.' && p[1] == '.'`, as a whole component. -/
def dotDotHere (before : Option UInt8) (p : Bytes) : Bool :=
  byteAt p 0 = 46 && byteAt p 1 = 46 && opensComponent before &&
    (byteAt p 2 = 0 || byteAt p 2 = 47 || byteAt p 2 = 92)

def storagePathSafeFrom (before : Option UInt8) : Bytes → Except Errno Unit
  | [] => .ok ()
  | c :: p => if dotDotHere before (c :: p) then .error .einval else storagePathSafeFrom (some c) p

def storagePathSafe (path : Bytes) : Except Errno Unit := storagePathSafeFrom none (cstr path)

/-- `project_root + "/" + path`. -/
def fullPath (projectRoot path : Bytes) : Path := projectRoot ++ ascii "/" ++ cstr path

def writeLen (data : Bytes) : Nat := if 0 < data.length then data.length - 1 else 0

section Files

variable {ν : Type} [DecidableEq ν] (fileOf : Path → ν)

def readFile (full : Path) (d : Disk ν Bytes) : Except Errno Bytes :=
  match d (fileOf full) with
  | none => .error .enoent
  | some bytes => .ok (bytes ++ [0])

def removeFile (full : Path) (d : Disk ν Bytes) : Except Errno Unit × Disk ν Bytes :=
  match d (fileOf full) with
  | none => (.error .enoent, d)
  | some _ => (.ok (), d.remove (fileOf full))

def localRead (projectRoot path : Bytes) (d : Disk ν Bytes) : Except Errno Bytes := do
  storagePathSafe path
  readFile fileOf (fullPath projectRoot path) d

def localWrite (projectRoot path data : Bytes) (d : Disk ν Bytes) :
    Except Errno Unit × Disk ν Bytes :=
  match storagePathSafe path with
  | .error e => (.error e, d)
  | .ok () => (.ok (), d.write (fileOf (fullPath projectRoot path)) (data.take (writeLen data)))

def localExists (projectRoot path : Bytes) (d : Disk ν Bytes) : Except Errno Bool := do
  storagePathSafe path
  return (d (fileOf (fullPath projectRoot path))).isSome

def localRemove (projectRoot path : Bytes) (d : Disk ν Bytes) : Except Errno Unit × Disk ν Bytes :=
  match storagePathSafe path with
  | .error e => (.error e, d)
  | .ok () => removeFile fileOf (fullPath projectRoot path) d

/-- `bs_adapter_attach_persist_store_get_revision`. -/
def storeGetRevision (store : AttachStore) (uri : Bytes) : AttachStatus × UInt64 :=
  (.ok, store.manifest.revisionOf uri)

def workspaceUri (path : Bytes) : Bytes := ascii "workspace://" ++ cstr path

def persistRead (projectRoot : Bytes) (store : AttachStore) (path : Bytes) (d : Disk ν Bytes) :
    Except Errno Bytes := do
  storagePathSafe path
  if (storeGetRevision store (workspaceUri path)).1 ≠ .ok then throw .enoent
  readFile fileOf (fullPath projectRoot path) d

/-- How `persist_write` reports the status of the store. -/
def writeResult : AttachStatus → Except Errno Unit
  | .ok => .ok ()
  | .invalidArg => .error .einval
  | .oom => .error .enomem
  | .io => .error .eio
  | _ => .error .eio

def persistWrite (io : PersistIo (Disk ν Bytes)) (store : AttachStore) (path data : Bytes)
    (d : Disk ν Bytes) : Except Errno Unit × AttachStore × Disk ν Bytes :=
  match storagePathSafe path with
  | .error e => (.error e, store, d)
  | .ok () =>
      let rc := storeCommitPerPath io store (workspaceUri path) (data.take (writeLen data)) 0 d
      (writeResult rc.1, rc.2)

def persistExists (store : AttachStore) (path : Bytes) : Except Errno Bool := do
  storagePathSafe path
  return (storeGetRevision store (workspaceUri path)).1 = .ok

def persistRemove (projectRoot path : Bytes) (d : Disk ν Bytes) :
    Except Errno Unit × Disk ν Bytes :=
  match storagePathSafe path with
  | .error e => (.error e, d)
  | .ok () => removeFile fileOf (fullPath projectRoot path) d

/-- `StorageBackend`, with the context of its constructor. -/
inductive StorageBackend
  | localDirect (projectRoot : Bytes)
  | persistStore (projectRoot : Bytes) (store : AttachStore)

namespace StorageBackend

def projectRoot : StorageBackend → Bytes
  | localDirect root => root
  | persistStore root _ => root

def read (sb : StorageBackend) (path : Bytes) (d : Disk ν Bytes) : Except Errno Bytes :=
  match sb with
  | localDirect root => localRead fileOf root path d
  | persistStore root store => persistRead fileOf root store path d

def write (io : PersistIo (Disk ν Bytes)) (sb : StorageBackend) (path data : Bytes)
    (d : Disk ν Bytes) : Except Errno Unit × StorageBackend × Disk ν Bytes :=
  match sb with
  | localDirect root =>
      let rc := localWrite fileOf root path data d
      (rc.1, localDirect root, rc.2)
  | persistStore root store =>
      let rc := persistWrite io store path data d
      (rc.1, persistStore root rc.2.1, rc.2.2)

def fileExists (sb : StorageBackend) (path : Bytes) (d : Disk ν Bytes) : Except Errno Bool :=
  match sb with
  | localDirect root => localExists fileOf root path d
  | persistStore _ store => persistExists store path

def removeFn (sb : StorageBackend) (path : Bytes) (d : Disk ν Bytes) :
    Except Errno Unit × Disk ν Bytes :=
  match sb with
  | localDirect root => localRemove fileOf root path d
  | persistStore root _ => persistRemove fileOf root path d

end StorageBackend

inductive StorageCall
  | read (path : Bytes)
  | write (path data : Bytes)
  | exists (path : Bytes)
  | remove (path : Bytes)
  deriving DecidableEq

inductive StorageAnswer
  | bytes (result : Except Errno Bytes)
  | done (result : Except Errno Unit)
  | present (result : Except Errno Bool)
  deriving DecidableEq

structure StorageWorld (ν : Type) where
  backend : StorageBackend
  disk : Disk ν Bytes

def storageStep (io : PersistIo (Disk ν Bytes)) :
    Answering (StorageWorld ν) StorageCall StorageAnswer
  | w, .read path => (.bytes (w.backend.read fileOf path w.disk), w)
  | w, .write path data =>
      let rc := w.backend.write fileOf io path data w.disk
      (.done rc.1, ⟨rc.2.1, rc.2.2⟩)
  | w, .exists path => (.present (w.backend.fileExists fileOf path w.disk), w)
  | w, .remove path =>
      let rc := w.backend.removeFn fileOf path w.disk
      (.done rc.1, { w with disk := rc.2 })

end Files

structure SourceEntry where
  relPath : Bytes
  format : Bytes

structure Workspace where
  projectRoot : Bytes
  sources : List SourceEntry := []
  storage : Option StorageBackend := none

section Calls

variable {ν : Type} [DecidableEq ν] (fileOf : Path → ν)

def Workspace.hasSource (ws : Workspace) (srcName : Bytes) : Bool :=
  ws.sources.any fun entry => entry.relPath = cstr srcName

def workspaceRead (ws : Workspace) (srcName : Bytes) (d : Disk ν Bytes) : Except Errno Bytes :=
  if ws.hasSource srcName = false then .error .enoent
  else
    match ws.storage with
    | none => .error .eio
    | some sb => sb.read fileOf srcName d

def workspaceWrite (io : PersistIo (Disk ν Bytes)) (ws : Workspace) (srcName data : Bytes)
    (d : Disk ν Bytes) : Except Errno Unit × Workspace × Disk ν Bytes :=
  if ws.hasSource srcName = false then (.error .enoent, ws, d)
  else
    match ws.storage with
    | none => (.error .eio, ws, d)
    | some sb =>
        let rc := sb.write fileOf io srcName data d
        (rc.1, { ws with storage := some rc.2.1 }, rc.2.2)

end Calls

end BlessStar.Workspace
