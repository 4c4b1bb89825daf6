import BlessStar.Workspace.Storage

/-!
# Storage as a map of files

What a storage backend is for: a map from files to byte strings that reads,
writes, removals and tests of existence work on.  `LocalDirectStorage` follows
the map where what is written ends in a NUL byte, for a write drops the last
byte and a read appends a NUL.  `PersistStoreStorage` commits under a URI that
the store refuses and takes the revision of any URI as a sign that its file
exists, so it follows the map until a file is written or an absent one asked
for.
-/

namespace BlessStar.Workspace

open Lib.ByteString Lib.FileSystem Lib.Lockstep
open Persistence

section Contract

variable {ν : Type} [DecidableEq ν] (fileOf : Path → ν)

/-- One call on the map of the files under `root`.  Unsafe paths are refused,
and every other call does what a map does. -/
def mapStep (root : Bytes) : Answering (Disk ν Bytes) StorageCall StorageAnswer
  | files, .read path =>
      (.bytes (do
        storagePathSafe path
        match files (fileOf (fullPath root path)) with
        | none => .error .enoent
        | some bytes => .ok bytes), files)
  | files, .write path data =>
      match storagePathSafe path with
      | .error e => (.done (.error e), files)
      | .ok () => (.done (.ok ()), files.write (fileOf (fullPath root path)) data)
  | files, .exists path =>
      (.present (do
        storagePathSafe path
        return (files (fileOf (fullPath root path))).isSome), files)
  | files, .remove path =>
      match storagePathSafe path with
      | .error e => (.done (.error e), files)
      | .ok () =>
          match files (fileOf (fullPath root path)) with
          | none => (.done (.error .enoent), files)
          | some _ => (.done (.ok ()), files.remove (fileOf (fullPath root path)))

def readContents (d : Disk ν Bytes) : Disk ν Bytes := fun file => (d file).map (· ++ [0])

def StorageWorld.contents (w : StorageWorld ν) : Disk ν Bytes := readContents w.disk

def EndsInNul (data : Bytes) : Prop := data.getLast? = some 0

instance (data : Bytes) : Decidable (EndsInNul data) :=
  inferInstanceAs (Decidable (data.getLast? = some 0))

/-- When a call does what the map does: the data of a local write ends in a NUL
byte; a store is never asked to write, and only files that exist are asked
for. -/
def CallFits (w : StorageWorld ν) : StorageCall → Prop
  | .write path data =>
      storagePathSafe path = .ok () →
        match w.backend with
        | .localDirect _ => EndsInNul data
        | .persistStore _ _ => False
  | .exists path =>
      storagePathSafe path = .ok () →
        match w.backend with
        | .localDirect _ => True
        | .persistStore root _ => (w.disk (fileOf (fullPath root path))).isSome
  | _ => True

end Contract

theorem take_writeLen_append_nul_iff {data : Bytes} :
    data.take (writeLen data) ++ [0] = data ↔ EndsInNul data := by
  rcases List.eq_nil_or_concat data with rfl | ⟨front, last, rfl⟩
  · simp [EndsInNul, writeLen]
  · have hlen : writeLen (front ++ [last]) = front.length := by simp [writeLen]
    rw [List.concat_eq_append, hlen, List.take_left', EndsInNul, List.getLast?_concat]
    · rw [List.append_cancel_left_eq, List.cons.injEq, Option.some.injEq, eq_comm]
      exact and_iff_left rfl
    · rfl

section Views

variable {ν : Type} [DecidableEq ν]

theorem readContents_write (d : Disk ν Bytes) (file : ν) (bytes : Bytes) :
    readContents (d.write file bytes) = (readContents d).write file (bytes ++ [0]) := by
  funext f
  by_cases hf : f = file
  · rw [hf, Disk.write_same, readContents, Disk.write_same]
    rfl
  · rw [Disk.write_other hf, readContents, readContents, Disk.write_other hf]

theorem readContents_remove (d : Disk ν Bytes) (file : ν) :
    readContents (d.remove file) = (readContents d).remove file := by
  funext f
  by_cases hf : f = file
  · rw [hf, Disk.remove_same, readContents, Disk.remove_same]
    rfl
  · rw [Disk.remove_other hf, readContents, readContents, Disk.remove_other hf]

theorem write_eq_write_iff {d : Disk ν Bytes} {file : ν} {xs ys : Bytes} :
    d.write file xs = d.write file ys ↔ xs = ys := by
  constructor
  · intro h
    have hfile := congrFun h file
    rw [Disk.write_same, Disk.write_same] at hfile
    exact Option.some.inj hfile
  · exact congrArg _

end Views

theorem uriToPath_workspaceUri (path : Bytes) (outCap : Nat) :
    uriToPath (cstr (workspaceUri path)) outCap = none := by
  have hhead : ¬ascii "file://" <+: cstr (cstr (workspaceUri path)) := by
    intro hprefix
    have hfile : ascii "file://" = 102 :: ascii "ile://" := by decide
    have hworkspace : ascii "workspace://" = 119 :: ascii "orkspace://" := by decide
    rw [workspaceUri, hfile, hworkspace] at hprefix
    simp [cstr] at hprefix
  unfold uriToPath
  by_cases hcap : outCap = 0
  · rw [if_pos hcap]
  · rw [if_neg hcap, if_pos hhead]

section Calls

variable {ν : Type} {fileOf : Path → ν} {io : PersistIo (Disk ν Bytes)}

theorem persistWrite_eq {store : AttachStore} {path : Bytes} (hsafe : storagePathSafe path = .ok ())
    (data : Bytes) (d : Disk ν Bytes) :
    persistWrite io store path data d = (.error .einval, store, d) := by
  rw [persistWrite, hsafe]
  simp only [storeCommitPerPath, uriToPath_workspaceUri, writeResult]

theorem readFile_eq (full : Path) (d : Disk ν Bytes) :
    readFile fileOf full d =
      match readContents d (fileOf full) with
      | none => .error .enoent
      | some bytes => .ok bytes := by
  unfold readFile readContents
  cases d (fileOf full) <;> rfl

variable [DecidableEq ν]

theorem read_agrees (w : StorageWorld ν) (path : Bytes) :
    storageStep fileOf io w (.read path) =
      ((mapStep fileOf w.backend.projectRoot w.contents (.read path)).1, w) := by
  obtain ⟨backend, d⟩ := w
  cases backend with
  | localDirect root =>
      simp only [storageStep, mapStep, StorageBackend.read, StorageWorld.contents,
        StorageBackend.projectRoot, localRead, readFile_eq]
  | persistStore root store =>
      simp only [storageStep, mapStep, StorageBackend.read, StorageWorld.contents,
        StorageBackend.projectRoot, persistRead, readFile_eq, storeGetRevision]
      rfl

theorem removeFile_agrees (full : Path) (d : Disk ν Bytes) :
    (removeFile fileOf full d).1 =
        (match readContents d (fileOf full) with
          | none => .error .enoent
          | some _ => .ok ()) ∧
      readContents (removeFile fileOf full d).2 =
        match readContents d (fileOf full) with
        | none => readContents d
        | some _ => (readContents d).remove (fileOf full) := by
  unfold removeFile
  cases hfile : d (fileOf full) with
  | none => simp [readContents, hfile]
  | some bytes =>
      apply And.intro
      · simp [readContents, hfile]
      · rw [readContents_remove]
        simp [readContents, hfile]

theorem remove_agrees (w : StorageWorld ν) (path : Bytes) :
    (storageStep fileOf io w (.remove path)).1 =
        (mapStep fileOf w.backend.projectRoot w.contents (.remove path)).1 ∧
      (storageStep fileOf io w (.remove path)).2.contents =
        (mapStep fileOf w.backend.projectRoot w.contents (.remove path)).2 := by
  have hfn : w.backend.removeFn fileOf path w.disk =
      localRemove fileOf w.backend.projectRoot path w.disk := by
    cases w.backend <;> rfl
  have hfile := @removeFile_agrees ν fileOf _ (fullPath w.backend.projectRoot path) w.disk
  simp only [storageStep, mapStep, StorageWorld.contents, hfn, localRemove]
  cases storagePathSafe path with
  | error e => exact ⟨rfl, rfl⟩
  | ok u =>
      dsimp only
      rw [hfile.1, hfile.2]
      cases readContents w.disk (fileOf (fullPath w.backend.projectRoot path)) with
      | none => exact ⟨rfl, rfl⟩
      | some bytes => exact ⟨rfl, rfl⟩

theorem exists_agrees_iff (io : PersistIo (Disk ν Bytes)) (w : StorageWorld ν) (path : Bytes) :
    (storageStep fileOf io w (.exists path)).1 =
        (mapStep fileOf w.backend.projectRoot w.contents (.exists path)).1 ↔
      CallFits fileOf w (.exists path) := by
  obtain ⟨backend, d⟩ := w
  have hsome : ∀ file, (readContents d file).isSome = (d file).isSome := fun file =>
    Option.isSome_map
  cases hsafe : storagePathSafe path with
  | error e => cases backend <;> simp [storageStep, mapStep, StorageBackend.fileExists,
      localExists, persistExists, CallFits, hsafe, bind, Except.bind]
  | ok u =>
      cases backend with
      | localDirect root =>
          simp [storageStep, mapStep, StorageBackend.fileExists, StorageBackend.projectRoot,
            StorageWorld.contents, localExists, CallFits, hsafe, hsome]
      | persistStore root store =>
          simp only [storageStep, mapStep, StorageBackend.fileExists, StorageBackend.projectRoot,
            StorageWorld.contents, persistExists, CallFits, hsafe, hsome, storeGetRevision]
          cases (d (fileOf (fullPath root path))).isSome <;>
            simp [bind, Except.bind, pure, Except.pure]

theorem write_agrees_iff (w : StorageWorld ν) (path data : Bytes) :
    ((storageStep fileOf io w (.write path data)).1 =
        (mapStep fileOf w.backend.projectRoot w.contents (.write path data)).1 ∧
      (storageStep fileOf io w (.write path data)).2.contents =
        (mapStep fileOf w.backend.projectRoot w.contents (.write path data)).2) ↔
      CallFits fileOf w (.write path data) := by
  obtain ⟨backend, d⟩ := w
  cases hsafe : storagePathSafe path with
  | error e => cases backend <;> simp [storageStep, mapStep, StorageBackend.write,
      StorageWorld.contents, localWrite, persistWrite, CallFits, hsafe]
  | ok u =>
      cases backend with
      | localDirect root =>
          simp only [storageStep, mapStep, StorageBackend.write, StorageBackend.projectRoot,
            StorageWorld.contents, localWrite, CallFits, hsafe, readContents_write,
            write_eq_write_iff, take_writeLen_append_nul_iff, true_and, forall_const]
      | persistStore root store =>
          apply iff_of_false
          · rintro ⟨hanswer, -⟩
            simp only [storageStep, mapStep, StorageBackend.write, persistWrite_eq hsafe, hsafe,
              StorageAnswer.done.injEq, reduceCtorEq] at hanswer
          · exact fun hfits => hfits hsafe

theorem storageStep_agrees_iff (w : StorageWorld ν) (call : StorageCall) :
    ((storageStep fileOf io w call).1 =
        (mapStep fileOf w.backend.projectRoot w.contents call).1 ∧
      (storageStep fileOf io w call).2.contents =
        (mapStep fileOf w.backend.projectRoot w.contents call).2) ↔ CallFits fileOf w call := by
  cases call with
  | read path =>
      rw [read_agrees]
      exact iff_of_true ⟨rfl, rfl⟩ trivial
  | write path data => exact write_agrees_iff w path data
  | «exists» path =>
      rw [← exists_agrees_iff io]
      exact and_iff_left rfl
  | remove path => exact iff_of_true (remove_agrees w path) trivial

theorem storageStep_projectRoot (w : StorageWorld ν) (call : StorageCall) :
    (storageStep fileOf io w call).2.backend.projectRoot = w.backend.projectRoot := by
  obtain ⟨backend, d⟩ := w
  cases call with
  | write path data => cases backend <;> rfl
  | read path => rfl
  | «exists» path => rfl
  | remove path => rfl

theorem follows_map_iff (w : StorageWorld ν) (calls : List StorageCall) :
    Follows (storageStep fileOf io) (mapStep fileOf w.backend.projectRoot)
        StorageWorld.contents w calls ↔
      StepsMeet (storageStep fileOf io) (CallFits fileOf) w calls := by
  have hkeeps : ∀ (v : StorageWorld ν) (call : StorageCall),
      v.backend.projectRoot = w.backend.projectRoot →
        (storageStep fileOf io v call).2.backend.projectRoot = w.backend.projectRoot := by
    intro v call hroot
    rw [storageStep_projectRoot, hroot]
  apply follows_iff_stepsMeet hkeeps
  · intro v call hroot
    rw [← hroot]
    exact storageStep_agrees_iff v call
  · rfl

/-- A write through the workspace succeeds, and the read after it returns what
was written. -/
def RoundTrips (fileOf : Path → ν) (io : PersistIo (Disk ν Bytes)) (ws : Workspace)
    (srcName data : Bytes) (d : Disk ν Bytes) : Prop :=
  let rc := workspaceWrite fileOf io ws srcName data d
  rc.1 = .ok () ∧ workspaceRead fileOf rc.2.1 srcName rc.2.2 = .ok data

theorem localRead_localWrite {root path : Bytes} (hsafe : storagePathSafe path = .ok ())
    (data : Bytes) (d : Disk ν Bytes) :
    localRead fileOf root path (localWrite fileOf root path data d).2 =
      .ok (data.take (writeLen data) ++ [0]) := by
  rw [localRead, localWrite, hsafe]
  simp only [readFile, Disk.write_same]
  rfl

theorem roundTrips_storage_iff {ws : Workspace} {sb : StorageBackend}
    (hstorage : ws.storage = some sb) (srcName data : Bytes) (d : Disk ν Bytes) :
    RoundTrips fileOf io ws srcName data d ↔ ws.hasSource srcName ∧
      (sb.write fileOf io srcName data d).1 = .ok () ∧
        (sb.write fileOf io srcName data d).2.1.read fileOf srcName
          (sb.write fileOf io srcName data d).2.2 = .ok data := by
  unfold RoundTrips workspaceWrite workspaceRead
  cases hsource : ws.hasSource srcName with
  | false => simp
  | true =>
      have hkept : ∀ storage, ({ ws with storage := storage } : Workspace).hasSource srcName :=
        fun _ => hsource
      simp [hstorage, hkept]

theorem localDirect_roundTrips_iff {root srcName data : Bytes} {d : Disk ν Bytes} :
    ((StorageBackend.localDirect root).write fileOf io srcName data d).1 = .ok () ∧
        ((StorageBackend.localDirect root).write fileOf io srcName data d).2.1.read fileOf srcName
          ((StorageBackend.localDirect root).write fileOf io srcName data d).2.2 = .ok data ↔
      storagePathSafe srcName = .ok () ∧ EndsInNul data := by
  simp only [StorageBackend.write, StorageBackend.read]
  cases hsafe : storagePathSafe srcName with
  | error e => simp [localWrite, hsafe]
  | ok u =>
      rw [localRead_localWrite hsafe, Except.ok.injEq, take_writeLen_append_nul_iff, localWrite,
        hsafe]

theorem persistStore_write_fails {root srcName data : Bytes} {store : AttachStore}
    {d : Disk ν Bytes} :
    ((StorageBackend.persistStore root store).write fileOf io srcName data d).1 ≠ .ok () := by
  intro hwrite
  simp only [StorageBackend.write] at hwrite
  cases hsafe : storagePathSafe srcName with
  | error e => simp [persistWrite, hsafe] at hwrite
  | ok u => simp [persistWrite_eq hsafe] at hwrite

theorem roundTrips_iff (ws : Workspace) (srcName data : Bytes) (d : Disk ν Bytes) :
    RoundTrips fileOf io ws srcName data d ↔
      ws.hasSource srcName ∧ storagePathSafe srcName = .ok () ∧
        (∃ root, ws.storage = some (.localDirect root)) ∧ EndsInNul data := by
  match hstorage : ws.storage with
  | none =>
      simp only [RoundTrips, workspaceWrite, hstorage]
      cases ws.hasSource srcName <;> simp
  | some (.localDirect root) =>
      rw [roundTrips_storage_iff hstorage, localDirect_roundTrips_iff]
      simp
  | some (.persistStore root store) =>
      rw [roundTrips_storage_iff hstorage]
      simp [persistStore_write_fails]

/-- **When the backends agree with the map.**  A run of either backend follows the map of
its files exactly when every call fits, and a write and a read through a
workspace return the same bytes exactly on `LocalDirectStorage`, with data that
ends in a NUL byte. -/
theorem storage_agrees_iff (fileOf : Path → ν) (io : PersistIo (Disk ν Bytes)) :
    (∀ (w : StorageWorld ν) (calls : List StorageCall),
      Follows (storageStep fileOf io) (mapStep fileOf w.backend.projectRoot)
          StorageWorld.contents w calls ↔
        StepsMeet (storageStep fileOf io) (CallFits fileOf) w calls) ∧
    ∀ (ws : Workspace) (srcName data : Bytes) (d : Disk ν Bytes),
      RoundTrips fileOf io ws srcName data d ↔
        ws.hasSource srcName ∧ storagePathSafe srcName = .ok () ∧
          (∃ root, ws.storage = some (.localDirect root)) ∧ EndsInNul data :=
  ⟨follows_map_iff, roundTrips_iff⟩

end Calls

/-- Without its NUL byte a text loses its last character on
`LocalDirectStorage`; `PersistStoreStorage` writes nothing at all. -/
theorem textWrites_not_follow :
    ¬Follows (storageStep id (diskIo IterOrder.someOrder (ascii "m"))) (mapStep id (ascii "/w"))
        StorageWorld.contents ⟨.localDirect (ascii "/w"), fun _ => none⟩
        [.write (ascii "a.json") (ascii "\x7b\x7d"), .read (ascii "a.json")] ∧
    ¬Follows (storageStep id (diskIo IterOrder.someOrder (ascii "m"))) (mapStep id (ascii "/w"))
        StorageWorld.contents ⟨.persistStore (ascii "/w") {}, fun _ => none⟩
        [.write (ascii "a.json") (ascii "\x7b\x7d" ++ [0])] := by
  have hsafe : storagePathSafe (ascii "a.json") = .ok () := by rfl
  apply And.intro
  · intro hfollows
    have hfits := (follows_map_iff _ _).mp hfollows
    exact absurd (hfits.1 hsafe : EndsInNul (ascii "\x7b\x7d")) (by decide)
  · intro hfollows
    have hfits := (follows_map_iff _ _).mp hfollows
    exact hfits.1 hsafe

end BlessStar.Workspace
