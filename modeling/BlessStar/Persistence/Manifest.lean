import BlessStar.Persistence.Basic
import Mathlib.Data.Finmap

/-!
# The manifest

The part of a store that its manifest file records, the text of that file, and
`load_manifest_from_path`, `load_manifest_file_sync` and
`save_manifest_file_sync` of `attach_store.cpp`.

An `unordered_map` is a finite map; the order in which the writer meets its
entries is a parameter.
-/

namespace BlessStar.Persistence

open Lib.ByteString Lib.FileSystem Persistence.Crc32

/-- `revisions`. -/
abbrev RevisionMap := Finmap fun _ : Bytes => UInt64

/-- `canonical_paths`. -/
abbrev PathMap := Finmap fun _ : Bytes => Path

/-- The fields of `BsAttachStore` that the manifest file records. -/
structure Manifest where
  batchEpoch : UInt64 := 0
  revisions : RevisionMap := ∅
  canonicalPaths : PathMap := ∅

/-- The revision of a URI, `0` before its first write. -/
def Manifest.revisionOf (m : Manifest) (uri : Bytes) : UInt64 := (m.revisions.lookup uri).getD 0

/-- Record a write: the new revision and the path of its file. -/
def Manifest.record (m : Manifest) (uri : Bytes) (rev : UInt64) (path : Path) : Manifest :=
  { m with
    revisions := m.revisions.insert uri rev
    canonicalPaths := m.canonicalPaths.insert uri path }

/-- The order in which iteration over `revisions` meets the entries. -/
structure IterOrder where
  entries : RevisionMap → List (Bytes × UInt64)
  mem_entries : ∀ m uri rev, (uri, rev) ∈ entries m ↔ m.lookup uri = some rev
  nodup_keys : ∀ m, ((entries m).map Prod.fst).Nodup

noncomputable def IterOrder.someOrder : IterOrder where
  entries m := m.keys.toList.map fun uri => (uri, (m.lookup uri).getD 0)
  mem_entries m uri rev := by
    rw [List.mem_map]
    constructor
    · rintro ⟨uri', huri, heq⟩
      obtain ⟨rfl, rfl⟩ := Prod.mk.inj heq
      rw [Finset.mem_toList, Finmap.mem_keys, Finmap.mem_iff] at huri
      obtain ⟨rev, hrev⟩ := huri
      rw [hrev]
      rfl
    · intro hrev
      refine ⟨uri, ?_, by rw [hrev]; rfl⟩
      rw [Finset.mem_toList, Finmap.mem_keys, Finmap.mem_iff]
      exact ⟨rev, hrev⟩
  nodup_keys m := by
    rw [List.map_map]
    exact (List.map_id _).symm ▸ m.keys.nodup_toList

def manifestEntryLines (paths : PathMap) (kv : Bytes × UInt64) : List Bytes :=
  [ascii "[uri=" ++ kv.1 ++ ascii "]", ascii "revision=" ++ decimal kv.2.toNat] ++
    match paths.lookup kv.1 with
    | some p => [ascii "path=" ++ p]
    | none => []

/-- The lines of `body`. -/
def manifestBodyLines (order : IterOrder) (m : Manifest) : List Bytes :=
  (ascii "batch_epoch=" ++ decimal m.batchEpoch.toNat) ::
    (order.entries m.revisions).flatMap (manifestEntryLines m.canonicalPaths)

/-- The text written by `save_manifest_file_sync`. -/
def manifestText (order : IterOrder) (m : Manifest) : Bytes :=
  let body := unlines (manifestBodyLines order m)
  let csum := crc32 body
  unlines [ascii "# BlessStar manifest v1", ascii "manifest_checksum=" ++ numeral 16 csum.toNat] ++
    body

/-- `copy_file_sync_disk`; without a source file nothing is written. -/
def copyFileSyncDisk (src dst : Path) (d : AttachDisk) : AttachDisk :=
  match d src with
  | none => d
  | some f => d.write dst f

def prevPath (manifestPath : Path) : Path := manifestPath ++ ascii ".prev"

def tmpPath (path : Path) : Path := path ++ ascii ".bs.tmp"

/-- The disk steps of `save_manifest_file_sync` on the disk `d`. -/
def saveManifestSteps (manifestPath : Path) (text : Bytes) (d : AttachDisk) :
    List (AttachDisk → AttachDisk) :=
  (if (d manifestPath).isSome then [copyFileSyncDisk manifestPath (prevPath manifestPath)]
    else []) ++
  [fun d => d.write (tmpPath manifestPath) text,
    fun d => d.remove manifestPath,
    fun d => d.rename (tmpPath manifestPath) manifestPath]

/-- `save_manifest_file_sync` when no file operation fails. -/
def saveManifestFileSync (order : IterOrder) (manifestPath : Path) (m : Manifest)
    (d : AttachDisk) : AttachDisk :=
  runSteps (saveManifestSteps manifestPath (manifestText order m) d) d

/-- `line.rfind(s, 0) == 0`. -/
def startsWith (s line : Bytes) : Bool := s.isPrefixOf line

/-- The variables of `load_manifest_from_path`. -/
structure LoadState where
  manifest : Manifest
  currentUri : Bytes := []
  fileChecksum : UInt32 := 0
  haveChecksum : Bool := false
  bodyForCrc : Bytes := []

def loadLine (s : LoadState) (line : Bytes) : LoadState :=
  if line = [] ∨ line.head? = some 35 then s
  else if startsWith (ascii "manifest_checksum=") line then
    { s with
      fileChecksum := (strtoull 16 (line.drop 18)).toUInt32
      haveChecksum := true }
  else if startsWith (ascii "batch_epoch=") line then
    { s with
      bodyForCrc := s.bodyForCrc ++ line ++ [LF]
      manifest := { s.manifest with batchEpoch := strtoull 10 (line.drop 12) } }
  else if startsWith (ascii "[uri=") line ∧ 6 < line.length ∧ line.getLast? = some 93 then
    { s with
      bodyForCrc := s.bodyForCrc ++ line ++ [LF]
      currentUri := (line.drop 5).take (line.length - 6) }
  else if s.currentUri ≠ [] ∧ startsWith (ascii "revision=") line then
    { s with
      bodyForCrc := s.bodyForCrc ++ line ++ [LF]
      manifest :=
        { s.manifest with
          revisions := s.manifest.revisions.insert s.currentUri (strtoull 10 (line.drop 9)) } }
  else if s.currentUri ≠ [] ∧ startsWith (ascii "path=") line then
    { s with
      bodyForCrc := s.bodyForCrc ++ line ++ [LF]
      manifest :=
        { s.manifest with
          canonicalPaths := s.manifest.canonicalPaths.insert s.currentUri (line.drop 5) } }
  else s

def loadLines : List Bytes → LoadState → AttachStatus × LoadState
  | [], s => (.ok, s)
  | line :: lines, s =>
      if maxManifestLine < line.length then (.limit, s) else loadLines lines (loadLine s line)

/-- `load_manifest_from_path` into a store whose recorded fields are `m`. -/
def loadManifestFromPath (d : AttachDisk) (path : Path) (verifyChecksum : Bool) (m : Manifest) :
    AttachStatus × Manifest :=
  match d path with
  | none => (.io, m)
  | some f =>
      let read := loadLines (getLines f)
        { manifest := { m with revisions := ∅, canonicalPaths := ∅ } }
      if read.1 ≠ .ok then (read.1, read.2.manifest)
      else if verifyChecksum ∧ read.2.haveChecksum ∧
          crc32 read.2.bodyForCrc ≠ read.2.fileChecksum then
        (.io, read.2.manifest)
      else (.ok, read.2.manifest)

/-- `load_manifest_file_sync` into a store whose recorded fields are `m`: the
status, the fields and the disk afterwards. -/
def loadManifestFileSync (d : AttachDisk) (manifestPath : Path) (m : Manifest) :
    AttachStatus × Manifest × AttachDisk :=
  if d manifestPath = none then (.ok, {}, d)
  else
    let main := loadManifestFromPath d manifestPath true m
    if main.1 = .ok ∨ main.1 = .limit then (main.1, main.2, d)
    else
      let prev := loadManifestFromPath d (prevPath manifestPath) false main.2
      if prev.1 ≠ .ok then (main.1, {}, d)
      else (.ok, prev.2, copyFileSyncDisk (prevPath manifestPath) manifestPath d)

theorem tmpPath_ne (p : Path) : tmpPath p ≠ p := by
  simp [tmpPath, ascii]

theorem prevPath_ne (p : Path) : prevPath p ≠ p := by
  simp [prevPath, ascii]

theorem copyFileSyncDisk_other {src dst q : Path} {d : AttachDisk} (h : q ≠ dst) :
    copyFileSyncDisk src dst d q = d q := by
  cases hsrc : d src with
  | none => simp [copyFileSyncDisk, hsrc]
  | some f => simp [copyFileSyncDisk, hsrc, h]

theorem saveManifestFileSync_same (order : IterOrder) (manifestPath : Path) (m : Manifest)
    (d : AttachDisk) :
    saveManifestFileSync order manifestPath m d manifestPath = some (manifestText order m) := by
  have hrename : ∀ d' : AttachDisk, d' (tmpPath manifestPath) = some (manifestText order m) →
      (d'.remove manifestPath).rename (tmpPath manifestPath) manifestPath manifestPath =
        some (manifestText order m) := by
    intro d' htmp
    have hsrc : (d'.remove manifestPath) (tmpPath manifestPath) = some (manifestText order m) := by
      rw [Disk.remove_other (tmpPath_ne _), htmp]
    rw [Disk.rename_of_eq_some hsrc, Disk.write_same]
  unfold saveManifestFileSync saveManifestSteps runSteps
  rw [List.foldl_append]
  simp only [List.foldl_cons, List.foldl_nil]
  exact hrename _ (Disk.write_same _ _ _)

theorem saveManifestFileSync_other {order : IterOrder} {manifestPath q : Path} {m : Manifest}
    {d : AttachDisk} (hm : q ≠ manifestPath) (hprev : q ≠ prevPath manifestPath)
    (htmp : q ≠ tmpPath manifestPath) :
    saveManifestFileSync order manifestPath m d q = d q := by
  unfold saveManifestFileSync saveManifestSteps runSteps
  rw [List.foldl_append]
  simp only [List.foldl_cons, List.foldl_nil]
  rw [Disk.rename_other htmp hm, Disk.remove_other hm, Disk.write_other htmp]
  split
  · simp only [List.foldl_cons, List.foldl_nil]
    exact copyFileSyncDisk_other hprev
  · rfl

end BlessStar.Persistence
