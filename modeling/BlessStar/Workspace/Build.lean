import BlessStar.Convert.Format
import BlessStar.Convert.Proofs.JsonPrinting
import BlessStar.Workspace.Proofs.StorageContract
import Mathlib.Data.List.DropRight

/-!
# Building a workspace

`bs_workspace_build` of `workspace_build.cpp`: every source is read, converted
and written under `dist/`.  What the files hold when they are read, how much of
them arrives and what a write leaves behind is up to the file system.
-/

namespace BlessStar.Workspace

open Lib.ByteString Lib.FileSystem Persistence
open Lib.JsonText (ch)
open BlessStar.Convert (Format formatConvert formatDetect)
open BlessStar.Convert.Proofs.JsonPrinting (printed printed_append internalToJson_out)

def buildTargets : List (String × Format) :=
  [("json", .json), ("yaml", .yaml), ("toml", .toml), ("ini", .ini)]

def targetFormatOf (targetFormat : Bytes) : Option Format :=
  (buildTargets.find? fun e => ascii e.1 = cstr targetFormat).map Prod.snd

/-- `base_name`: the path up to its last dot. -/
def baseName (relPath : Bytes) : Bytes :=
  if ch '.' ∈ relPath then (relPath.rdropWhile (· ≠ ch '.')).dropLast else relPath

def distRel (relPath targetFormat : Bytes) : Bytes :=
  ascii "dist/" ++ baseName relPath ++ ascii "." ++ cstr targetFormat

/-- A file cannot be read, or it holds `bytes` and `fread` gives the first `got`
of them. -/
inductive ReadOutcome
  | fails (error : Errno)
  | gives (bytes : Bytes) (got : Nat)

/-- A file is written, or the error comes after `n` bytes of it, or before it is
opened. -/
inductive WriteOutcome
  | whole
  | partly (n : Nat)
  | notOpened

structure StorageOutcome where
  read : ReadOutcome
  write : WriteOutcome

def ReadOutcome.result : ReadOutcome → Except Errno Bytes
  | fails e => .error e
  | gives bytes got => .ok (bytes.take got ++ [0])

def WriteOutcome.result : WriteOutcome → Except Errno Unit
  | whole => .ok ()
  | partly _ => .error .eio
  | notOpened => .error .eio

def WriteOutcome.left (written : Bytes) : WriteOutcome → Option Bytes
  | whole => some written
  | partly n => some (written.take n)
  | notOpened => none

namespace StorageBackend

/-- `read`, with what the file system does. -/
def readAs (sb : StorageBackend) (path : Bytes) (outcome : ReadOutcome) : Except Errno Bytes :=
  match sb with
  | localDirect _ => do
      storagePathSafe path
      outcome.result
  | persistStore _ store => do
      storagePathSafe path
      if (storeGetRevision store (workspaceUri path)).1 ≠ .ok then throw .enoent
      outcome.result

section Writes

variable {ν : Type} [DecidableEq ν] (fileOf : Path → ν) (io : PersistIo (Disk ν Bytes))

/-- `write`, with what the file system does. -/
def writeAs (sb : StorageBackend) (path data : Bytes) (outcome : WriteOutcome) (d : Disk ν Bytes) :
    Except Errno Unit × StorageBackend × Disk ν Bytes :=
  match sb with
  | localDirect root =>
      match storagePathSafe path with
      | .error e => (.error e, localDirect root, d)
      | .ok () =>
          match outcome.left (data.take (writeLen data)) with
          | none => (outcome.result, localDirect root, d)
          | some bytes =>
              (outcome.result, localDirect root, d.write (fileOf (fullPath root path)) bytes)
  | persistStore root store =>
      let rc := persistWrite io store path data d
      (rc.1, persistStore root rc.2.1, rc.2.2)

end Writes

end StorageBackend

/-- `v1_json`: JSON is used as it is, and so is what would need a parser. -/
def v1JsonOf (entry : SourceEntry) (srcData : Bytes) : Bytes :=
  if (formatDetect srcData (some entry.relPath)).format = .json then srcData else srcData

/-- The state of the loop of `bs_workspace_build`. -/
structure BuildState (ν : Type) where
  totalRc : Except Errno Unit := .ok ()
  storage : StorageBackend
  disk : Disk ν Bytes

section Build

variable {ν : Type} [DecidableEq ν] (fileOf : Path → ν) (io : PersistIo (Disk ν Bytes))

def buildSource (targetFormat : Bytes) (targetFmt : Format) (entry : SourceEntry)
    (outcome : StorageOutcome) (s : BuildState ν) : BuildState ν :=
  match s.storage.readAs entry.relPath outcome.read with
  | .error e => { s with totalRc := .error e }
  | .ok srcData =>
      let converted := formatConvert (v1JsonOf entry srcData) targetFmt
      if converted.rc = 0 then
        let rc := s.storage.writeAs fileOf io (distRel entry.relPath targetFormat) converted.out
          outcome.write s.disk
        { s with storage := rc.2.1, disk := rc.2.2 }
      else s

/-- `bs_workspace_build`; `outcomes` is what the file system does for each
source. -/
def workspaceBuild (ws : Workspace) (targetFormat : Bytes) (outcomes : Nat → StorageOutcome)
    (d : Disk ν Bytes) : Except Errno Unit × Workspace × Disk ν Bytes :=
  match targetFormatOf targetFormat with
  | none => (.error .einval, ws, d)
  | some targetFmt =>
      match ws.storage with
      | none => (.error .eio, ws, d)
      | some sb =>
          let s := ws.sources.zipIdx.foldl
            (fun s e => buildSource fileOf io targetFormat targetFmt e.1 (outcomes e.2) s)
            { storage := sb, disk := d }
          (s.totalRc, { ws with storage := some s.storage }, s.disk)

def convertedText (targetFmt : Format) (v1Json : Bytes) : Option Bytes :=
  if (formatConvert v1Json targetFmt).rc = 0 then
    some (formatConvert v1Json targetFmt).out.dropLast
  else none

def distFile (sb : StorageBackend) (targetFormat : Bytes) (entry : SourceEntry) : ν :=
  fileOf (fullPath sb.projectRoot (distRel entry.relPath targetFormat))

/-- A build that returns 0 leaves the text of every source in its dist file, and
no two sources share one. -/
structure HonestBuild (ws : Workspace) (targetFormat : Bytes) (outcomes : Nat → StorageOutcome) :
    Prop where
  holds : ∀ d : Disk ν Bytes,
    (workspaceBuild fileOf io ws targetFormat outcomes d).1 = .ok () →
      ∃ targetFmt sb, targetFormatOf targetFormat = some targetFmt ∧ ws.storage = some sb ∧
        ∀ e ∈ ws.sources.zipIdx, ∃ bytes got text, (outcomes e.2).read = .gives bytes got ∧
          convertedText targetFmt bytes = some text ∧
            (workspaceBuild fileOf io ws targetFormat outcomes d).2.2
              (distFile fileOf sb targetFormat e.1) = some text
  apart : ∀ targetFmt sb, targetFormatOf targetFormat = some targetFmt → ws.storage = some sb →
    ws.sources.Pairwise fun a b =>
      distFile fileOf sb targetFormat a ≠ distFile fileOf sb targetFormat b

end Build

def SourceRead (entry : SourceEntry) (outcome : StorageOutcome) : Prop :=
  storagePathSafe entry.relPath = .ok () ∧ ∃ bytes got, outcome.read = .gives bytes got

/-- What is read of the source, with the NUL the storage puts behind it, is
converted to the text of the source, and what the storage writes of that is the
same text. -/
def DistRight (sb : StorageBackend) (targetFormat : Bytes) (targetFmt : Format)
    (entry : SourceEntry) (outcome : StorageOutcome) : Prop :=
  ∃ bytes got text written, outcome.read = .gives bytes got ∧
    convertedText targetFmt bytes = some text ∧
    convertedText targetFmt (bytes.take got ++ [0]) = some written ∧
    (∃ root, sb = .localDirect root) ∧ storagePathSafe (distRel entry.relPath targetFormat) = .ok () ∧
    outcome.write.left written = some text

/-- When a build is honest: its dist files differ, and either some source is not
read or all of them end up right. -/
def BuildsRight {ν : Type} (fileOf : Path → ν) (ws : Workspace) (targetFormat : Bytes)
    (outcomes : Nat → StorageOutcome) : Prop :=
  ∀ targetFmt sb, targetFormatOf targetFormat = some targetFmt → ws.storage = some sb →
    (ws.sources.Pairwise fun a b =>
      distFile fileOf sb targetFormat a ≠ distFile fileOf sb targetFormat b) ∧
    ((∃ e ∈ ws.sources.zipIdx, ¬SourceRead e.1 (outcomes e.2)) ∨
      ∀ e ∈ ws.sources.zipIdx, DistRight sb targetFormat targetFmt e.1 (outcomes e.2))

theorem v1JsonOf_eq (entry : SourceEntry) (srcData : Bytes) : v1JsonOf entry srcData = srcData :=
  ite_self _

theorem readAs_eq (sb : StorageBackend) (path : Bytes) (outcome : ReadOutcome) :
    sb.readAs path outcome = (do storagePathSafe path; outcome.result) := by
  cases sb with
  | localDirect root => rfl
  | persistStore root store =>
      rw [StorageBackend.readAs, storeGetRevision]
      rfl

theorem readAs_ok_iff {sb : StorageBackend} {path srcData : Bytes} {outcome : ReadOutcome} :
    sb.readAs path outcome = .ok srcData ↔
      storagePathSafe path = .ok () ∧
        ∃ bytes got, outcome = .gives bytes got ∧ srcData = bytes.take got ++ [0] := by
  rw [readAs_eq]
  cases storagePathSafe path with
  | error e => simp [bind, Except.bind]
  | ok u =>
      cases outcome with
      | fails e => simp [bind, Except.bind, ReadOutcome.result]
      | gives bytes got =>
          simp only [bind, Except.bind, ReadOutcome.result, Except.ok.injEq,
            ReadOutcome.gives.injEq, true_and]
          constructor
          · intro h
            exact ⟨bytes, got, ⟨rfl, rfl⟩, h.symm⟩
          · rintro ⟨_, _, ⟨rfl, rfl⟩, h⟩
            exact h.symm

/-- What the storage leaves of `data` in the file of a path. -/
def StorageBackend.leaves (sb : StorageBackend) (path data : Bytes) (outcome : WriteOutcome) :
    Option Bytes :=
  match sb, storagePathSafe path with
  | .localDirect _, .ok () => outcome.left (data.take (writeLen data))
  | _, _ => none

section Source

variable {ν : Type} [DecidableEq ν] {fileOf : Path → ν} {io : PersistIo (Disk ν Bytes)}

omit [DecidableEq ν] in
theorem persistWrite_kept (store : AttachStore) (path data : Bytes) (d : Disk ν Bytes) :
    (persistWrite io store path data d).2 = (store, d) := by
  cases hsafe : storagePathSafe path with
  | error e => rw [persistWrite, hsafe]
  | ok u => rw [persistWrite_eq hsafe]

theorem writeAs_eq (sb : StorageBackend) (path data : Bytes) (outcome : WriteOutcome)
    (d : Disk ν Bytes) :
    (sb.writeAs fileOf io path data outcome d).2 =
      (sb, (sb.leaves path data outcome).elim d
        (d.write (fileOf (fullPath sb.projectRoot path)))) := by
  unfold StorageBackend.writeAs StorageBackend.leaves
  cases sb with
  | localDirect root =>
      cases storagePathSafe path with
      | error e => rfl
      | ok u =>
          dsimp only
          cases outcome.left (data.take (writeLen data)) <;> rfl
  | persistStore root store =>
      dsimp only
      rw [persistWrite_kept]
      rfl

theorem leaves_eq_some_iff {sb : StorageBackend} {path data bytes : Bytes}
    {outcome : WriteOutcome} :
    sb.leaves path data outcome = some bytes ↔
      (∃ root, sb = .localDirect root) ∧ storagePathSafe path = .ok () ∧
        outcome.left (data.take (writeLen data)) = some bytes := by
  unfold StorageBackend.leaves
  cases sb with
  | localDirect root => cases hsafe : storagePathSafe path <;> simp
  | persistStore root store => simp

def sourceLeaves (sb : StorageBackend) (targetFormat : Bytes) (targetFmt : Format)
    (entry : SourceEntry) (outcome : StorageOutcome) : Option Bytes :=
  match sb.readAs entry.relPath outcome.read with
  | .error _ => none
  | .ok srcData =>
      if (formatConvert srcData targetFmt).rc = 0 then
        sb.leaves (distRel entry.relPath targetFormat) (formatConvert srcData targetFmt).out
          outcome.write
      else none

theorem buildSource_eq (targetFormat : Bytes) (targetFmt : Format) (entry : SourceEntry)
    (outcome : StorageOutcome) (s : BuildState ν) :
    buildSource fileOf io targetFormat targetFmt entry outcome s =
      { totalRc := (s.storage.readAs entry.relPath outcome.read).bind fun _ => s.totalRc
        storage := s.storage
        disk := (sourceLeaves s.storage targetFormat targetFmt entry outcome).elim s.disk
          (s.disk.write (distFile fileOf s.storage targetFormat entry)) } := by
  unfold buildSource sourceLeaves
  cases s.storage.readAs entry.relPath outcome.read with
  | error e => rfl
  | ok srcData =>
      simp only [v1JsonOf_eq, writeAs_eq]
      by_cases hrc : (formatConvert srcData targetFmt).rc = 0
      · rw [if_pos hrc, if_pos hrc]
        rfl
      · rw [if_neg hrc, if_neg hrc]
        rfl

theorem bind_const_ok_iff {r : Except Errno Bytes} {rc : Except Errno Unit} :
    (r.bind fun _ => rc) = .ok () ↔ (∃ data, r = .ok data) ∧ rc = .ok () := by
  cases r <;> simp [Except.bind]

section Run

variable (targetFormat : Bytes) (targetFmt : Format) (outcomes : Nat → StorageOutcome)

theorem foldl_buildSource (sources : List (SourceEntry × Nat)) (s : BuildState ν) :
    let s' := sources.foldl
      (fun s e => buildSource fileOf io targetFormat targetFmt e.1 (outcomes e.2) s) s
    (s'.totalRc = .ok () ↔
      s.totalRc = .ok () ∧ ∀ e ∈ sources, SourceRead e.1 (outcomes e.2)) ∧
    s'.storage = s.storage ∧
    s'.disk = Disk.writeEach (fun e => distFile fileOf s.storage targetFormat e.1)
      (fun e => sourceLeaves s.storage targetFormat targetFmt e.1 (outcomes e.2)) sources
        s.disk := by
  induction sources generalizing s with
  | nil => simp [Disk.writeEach]
  | cons e sources ih =>
      rw [List.foldl_cons, buildSource_eq]
      obtain ⟨hrc, hstorage, hdisk⟩ := ih
        { totalRc := (s.storage.readAs e.1.relPath (outcomes e.2).read).bind fun _ => s.totalRc
          storage := s.storage
          disk := (sourceLeaves s.storage targetFormat targetFmt e.1 (outcomes e.2)).elim s.disk
            (s.disk.write (distFile fileOf s.storage targetFormat e.1)) }
      refine ⟨hrc.trans ?_, hstorage, hdisk⟩
      have hread : (∃ data, s.storage.readAs e.1.relPath (outcomes e.2).read = .ok data) ↔
          SourceRead e.1 (outcomes e.2) := by
        simp only [readAs_ok_iff, SourceRead]
        constructor
        · rintro ⟨_, hsafe, bytes, got, hgives, -⟩
          exact ⟨hsafe, bytes, got, hgives⟩
        · rintro ⟨hsafe, bytes, got, hgives⟩
          exact ⟨_, hsafe, bytes, got, hgives, rfl⟩
      rw [bind_const_ok_iff, hread, List.forall_mem_cons]
      tauto

end Run

theorem workspaceBuild_eq {ws : Workspace} {targetFormat : Bytes} {targetFmt : Format}
    {sb : StorageBackend} (hfmt : targetFormatOf targetFormat = some targetFmt)
    (hsb : ws.storage = some sb) (outcomes : Nat → StorageOutcome) (d : Disk ν Bytes) :
    ((workspaceBuild fileOf io ws targetFormat outcomes d).1 = .ok () ↔
      ∀ e ∈ ws.sources.zipIdx, SourceRead e.1 (outcomes e.2)) ∧
    (workspaceBuild fileOf io ws targetFormat outcomes d).2.2 =
      Disk.writeEach (fun e => distFile fileOf sb targetFormat e.1)
        (fun e => sourceLeaves sb targetFormat targetFmt e.1 (outcomes e.2)) ws.sources.zipIdx d := by
  obtain ⟨hrc, -, hdisk⟩ := @foldl_buildSource _ _ fileOf io targetFormat targetFmt
    outcomes ws.sources.zipIdx { storage := sb, disk := d }
  rw [workspaceBuild, hfmt, hsb]
  exact ⟨hrc.trans (and_iff_right rfl), hdisk⟩

theorem workspaceBuild_ok {ws : Workspace} {targetFormat : Bytes} {outcomes : Nat → StorageOutcome}
    {d : Disk ν Bytes} (hok : (workspaceBuild fileOf io ws targetFormat outcomes d).1 = .ok ()) :
    ∃ targetFmt sb, targetFormatOf targetFormat = some targetFmt ∧ ws.storage = some sb := by
  unfold workspaceBuild at hok
  cases hfmt : targetFormatOf targetFormat with
  | none => simp [hfmt] at hok
  | some targetFmt =>
      cases hsb : ws.storage with
      | none => simp [hfmt, hsb] at hok
      | some sb => exact ⟨targetFmt, sb, rfl, rfl⟩

theorem sourceLeaves_eq_some_iff {sb : StorageBackend} {targetFormat : Bytes} {targetFmt : Format}
    {entry : SourceEntry} {outcome : StorageOutcome} {text : Bytes} :
    sourceLeaves sb targetFormat targetFmt entry outcome = some text ↔
      storagePathSafe entry.relPath = .ok () ∧ ∃ bytes got written,
        outcome.read = .gives bytes got ∧
        convertedText targetFmt (bytes.take got ++ [0]) = some written ∧
        (∃ root, sb = .localDirect root) ∧
        storagePathSafe (distRel entry.relPath targetFormat) = .ok () ∧
        outcome.write.left written = some text := by
  have hlast : ∀ data : Bytes, data.take (writeLen data) = data.dropLast := by
    intro data
    rw [List.dropLast_eq_take, writeLen]
    split
    · rfl
    · congr 1
      omega
  unfold sourceLeaves convertedText
  cases hread : sb.readAs entry.relPath outcome.read with
  | error e =>
      constructor
      · intro h
        cases h
      · rintro ⟨hsafe, bytes, got, -, hgives, -⟩
        rw [readAs_ok_iff.mpr ⟨hsafe, bytes, got, hgives, rfl⟩] at hread
        cases hread
  | ok srcData =>
      obtain ⟨hsafe, bytes, got, hgives, rfl⟩ := readAs_ok_iff.mp hread
      dsimp only
      by_cases hrc : (formatConvert (bytes.take got ++ [0]) targetFmt).rc = 0
      · rw [if_pos hrc, leaves_eq_some_iff, hlast]
        constructor
        · rintro ⟨hlocal, hdist, hleft⟩
          exact ⟨hsafe, bytes, got, _, hgives, if_pos hrc, hlocal, hdist, hleft⟩
        · rintro ⟨-, bytes', got', written, hgives', hwritten, hlocal, hdist, hleft⟩
          rw [hgives, ReadOutcome.gives.injEq] at hgives'
          obtain ⟨rfl, rfl⟩ := hgives'
          rw [if_pos hrc, Option.some.injEq] at hwritten
          exact ⟨hlocal, hdist, hwritten ▸ hleft⟩
      · rw [if_neg hrc]
        constructor
        · intro h
          cases h
        · rintro ⟨-, bytes', got', written, hgives', hwritten, -⟩
          rw [hgives, ReadOutcome.gives.injEq] at hgives'
          obtain ⟨rfl, rfl⟩ := hgives'
          rw [if_neg hrc] at hwritten
          cases hwritten

omit [DecidableEq ν] in

-- As INI the same source can be right.
example : DistRight (.localDirect (ascii "/w")) (ascii "ini") .ini ⟨ascii "a.json", ascii "json"⟩
    ⟨.gives (ascii "\x7b\"k\":1\x7d") 7, .whole⟩ :=
  ⟨_, _, ascii "k = 1\n\n", ascii "k = 1\n\n", rfl, by decide +kernel, by decide +kernel, ⟨_, rfl⟩,
    by decide +kernel, rfl⟩

/-- **When a build is honest.**  Its dist files differ, and when every source is
read, each ends up with its text in its dist file: the NUL behind what is read
changes no text, and the whole text is written. -/
theorem honestBuild_iff (ws : Workspace) (targetFormat : Bytes) (outcomes : Nat → StorageOutcome) :
    HonestBuild fileOf io ws targetFormat outcomes ↔
      BuildsRight fileOf ws targetFormat outcomes := by
  have hfinal : ∀ {targetFmt sb}, (ws.sources.Pairwise fun a b =>
      distFile fileOf sb targetFormat a ≠ distFile fileOf sb targetFormat b) →
      ∀ e ∈ ws.sources.zipIdx, ∀ d : Disk ν Bytes,
        Disk.writeEach (fun e => distFile fileOf sb targetFormat e.1)
            (fun e => sourceLeaves sb targetFormat targetFmt e.1 (outcomes e.2)) ws.sources.zipIdx d
            (distFile fileOf sb targetFormat e.1) =
          (sourceLeaves sb targetFormat targetFmt e.1 (outcomes e.2)).or
            (d (distFile fileOf sb targetFormat e.1)) := by
    intro targetFmt sb happart e he d
    refine Disk.writeEach_of_mem ?_ he d
    rw [← List.zipIdx_map_fst 0 ws.sources, List.pairwise_map] at happart
    exact happart
  constructor
  · intro honest targetFmt sb hfmt hsb
    have happart := honest.apart targetFmt sb hfmt hsb
    refine ⟨happart, ?_⟩
    by_cases hread : ∀ e ∈ ws.sources.zipIdx, SourceRead e.1 (outcomes e.2)
    · right
      obtain ⟨hrc, hdisk⟩ := @workspaceBuild_eq _ _ fileOf io _ _ _ _ hfmt hsb outcomes
        fun _ => none
      obtain ⟨_, _, hfmt', hsb', hright⟩ := honest.holds _ (hrc.mpr hread)
      obtain rfl := Option.some.inj (hfmt.symm.trans hfmt')
      obtain rfl := Option.some.inj (hsb.symm.trans hsb')
      intro e he
      obtain ⟨bytes, got, text, hgives, htext, hdist⟩ := hright e he
      rw [hdisk, hfinal happart e he, Option.or_none, sourceLeaves_eq_some_iff] at hdist
      obtain ⟨-, bytes', got', written, hgives', hwritten, hleft⟩ := hdist
      rw [hgives, ReadOutcome.gives.injEq] at hgives'
      obtain ⟨rfl, rfl⟩ := hgives'
      exact ⟨bytes, got, text, written, hgives, htext, hwritten, hleft⟩
    · left
      push Not at hread
      exact hread
  · intro hbuilds
    refine ⟨fun d hok => ?_, fun targetFmt sb hfmt hsb => (hbuilds targetFmt sb hfmt hsb).1⟩
    obtain ⟨targetFmt, sb, hfmt, hsb⟩ := workspaceBuild_ok hok
    obtain ⟨hrc, hdisk⟩ := @workspaceBuild_eq _ _ fileOf io _ _ _ _ hfmt hsb outcomes d
    have hread := hrc.mp hok
    obtain ⟨happart, hfail | hright⟩ := hbuilds targetFmt sb hfmt hsb
    · obtain ⟨e, he, hnot⟩ := hfail
      exact absurd (hread e he) hnot
    refine ⟨targetFmt, sb, hfmt, hsb, fun e he => ?_⟩
    obtain ⟨bytes, got, text, written, hgives, htext, hwritten, hleft⟩ := hright e he
    refine ⟨bytes, got, text, hgives, htext, ?_⟩
    rw [hdisk, hfinal happart e he, sourceLeaves_eq_some_iff.mpr
      ⟨(hread e he).1, bytes, got, written, hgives, hwritten, hleft⟩, Option.some_or]

end Source

/-- The NUL that the storage puts behind a source is written to its dist file,
and nothing tells the caller. -/
theorem jsonDist_keeps_nul :
    ¬HonestBuild id (diskIo IterOrder.someOrder (ascii "m"))
      { projectRoot := ascii "/w", sources := [⟨ascii "a.json", ascii "json"⟩]
        storage := some (.localDirect (ascii "/w")) }
      (ascii "json") fun _ => ⟨.gives (ascii "[1]") 3, .whole⟩ := by
  intro honest
  obtain ⟨targetFmt, sb, hfmt, hsb, hright⟩ := honest.holds (fun _ => none) (by decide +kernel)
  obtain rfl : StorageBackend.localDirect (ascii "/w") = sb := Option.some.inj hsb
  obtain rfl : Format.json = targetFmt := Option.some.inj hfmt
  obtain ⟨_, _, text, hgives, htext, hdist⟩ := hright _ List.mem_cons_self
  rw [ReadOutcome.gives.injEq] at hgives
  obtain ⟨rfl, rfl⟩ := hgives
  have hsource : convertedText .json (ascii "[1]") = some (ascii "[\n  1\n]") := by decide +kernel
  have hkept : some (ascii "[\n  1\n]" ++ [0]) = some text :=
    Eq.trans (by decide +kernel) hdist
  rw [← Option.some.inj (hsource.symm.trans htext)] at hkept
  exact absurd hkept (by decide +kernel)

end BlessStar.Workspace
