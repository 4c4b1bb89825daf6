import BlessStar.Persistence.Manifest
import BlessStar.Persistence.Proofs.WalFraming

/-!
# The runtime sidecar

`attach_runtime_sidecar.c`: a file beside the manifest with the epoch of a
store, the digest of its manifest file and, for each URI, its revision and the
digest of its canonical file.
-/

namespace BlessStar.Persistence.Sidecar

open Lib.ByteString Lib.FileSystem
open Persistence Persistence.Crc32 Persistence.Wal

def sidecarPathForManifest (manifestPath : Path) : Option Path :=
  if pathCap < manifestPath.length + 13 + 1 then none
  else some (manifestPath ++ ascii ".runtime.ckpt")

def readFileDigest (d : AttachDisk) (path : Path) : Option UInt32 := (d path).map crc32

/-- `bs_adapter_attach_persist_store_get_canonical_path`. -/
def getCanonicalPath (m : Manifest) (uri : Bytes) : Option Path :=
  match m.canonicalPaths.lookup uri with
  | none => none
  | some p => if pathCap < p.length + 1 then none else some (cstr p)

def canonicalDigest (d : AttachDisk) (m : Manifest) (uri : Bytes) : Option UInt32 :=
  (getCanonicalPath m uri).bind (readFileDigest d)

def sidecarMagic : UInt32 := 0x4B435452
def sidecarVersion : UInt16 := 1

/-- `BsAttachRuntimeSidecarEntry`. -/
structure SidecarEntry where
  uri : Bytes
  revision : UInt64
  payloadDigest : UInt32

def collectEntry (d : AttachDisk) (m : Manifest) (entries : List SidecarEntry)
    (kv : Bytes × UInt64) : Except AttachStatus (List SidecarEntry) :=
  match canonicalDigest d m (cstr kv.1) with
  | none => .error .io
  | some digest =>
      if 64 ≤ entries.length then .error .limit else .ok (entries ++ [⟨cstr kv.1, kv.2, digest⟩])

def SidecarEntry.bytes (e : SidecarEntry) : Bytes :=
  writeU16Le (UInt16.ofNat e.uri.length) ++
    (e.uri ++ (writeU64Le e.revision ++ writeU32Le e.payloadDigest))

/-- The body of the file.  Of the flags only the low two bytes are written. -/
def sidecarBody (flags : UInt32) (epoch : UInt64) (manifestDigest : UInt32)
    (entries : List SidecarEntry) : Bytes :=
  writeU32Le sidecarMagic ++ (writeU16Le sidecarVersion ++ (writeU16Le flags.toUInt16 ++
    (writeU64Le epoch ++ (writeU32Le manifestDigest ++
      (writeU32Le (UInt32.ofNat entries.length) ++ entries.flatMap (·.bytes))))))

/-- `bs_adapter_attach_persist_sidecar_write` for a store with the manifest `m`. -/
def sidecarWrite (order : IterOrder) (d : AttachDisk) (manifestPath : Path) (m : Manifest)
    (flags : UInt32) : AttachStatus × AttachDisk :=
  match (order.entries m.revisions).foldlM (collectEntry d m) [] with
  | .error rc => (rc, d)
  | .ok entries =>
      match readFileDigest d manifestPath with
      | none => (.io, d)
      | some manifestDigest =>
          if entries.any fun e => 0xFFFF < e.uri.length then (.limit, d)
          else
            let body := sidecarBody flags m.batchEpoch manifestDigest entries
            match sidecarPathForManifest manifestPath with
            | none => (.io, d)
            | some path =>
                let tmp := path ++ ascii ".tmp"
                if pathCap ≤ tmp.length then (.limit, d)
                else
                  (.ok, runSteps [fun d => d.write tmp (body ++ writeU32Le (crc32 body)),
                    fun d => d.remove path, fun d => d.rename tmp path] d)

/-- The reads of one turn of the loop.  Those behind the length check cannot fail. -/
def readEntry (body : Bytes) : Option (SidecarEntry × Bytes) :=
  if body.length < 2 then none
  else
    let uriLen := (readU16Le body).toNat
    let rest := body.drop 2
    if rest.length < uriLen + 8 + 4 ∨ 4096 < uriLen + 1 then none
    else
      let fixed := rest.drop uriLen
      some (⟨rest.take uriLen, readU64Le fixed, readU32Le (fixed.drop 8)⟩, fixed.drop 12)

/-- The comparisons of one turn of the loop. -/
def SidecarEntry.live (d : AttachDisk) (m : Manifest) (e : SidecarEntry) : Bool :=
  m.revisionOf (cstr e.uri) = e.revision ∧
    canonicalDigest d m (cstr e.uri) = some e.payloadDigest

def validateEntries (d : AttachDisk) (m : Manifest) : Nat → Bytes → Bool
  | 0, body => body.isEmpty
  | n + 1, body =>
      match readEntry body with
      | none => false
      | some (e, rest) => e.live d m && validateEntries d m n rest

/-- `bs_adapter_attach_persist_sidecar_validate` for a store with the manifest
`m`.  With 28 bytes the reads of the header cannot fail. -/
def sidecarValidate (d : AttachDisk) (manifestPath : Path) (m : Manifest)
    (requiredFlags : UInt32) : Bool :=
  match (sidecarPathForManifest manifestPath).bind d with
  | none => false
  | some data =>
      if data.length < 28 then false
      else
        let body := data.take (data.length - 4)
        crc32 body = readU32Le (data.drop (data.length - 4)) &&
          readU32Le body = sidecarMagic && readU16Le (body.drop 4) = sidecarVersion &&
          (readU16Le (body.drop 6)).toUInt32 &&& requiredFlags = requiredFlags &&
          readU64Le (body.drop 8) = m.batchEpoch &&
          readFileDigest d manifestPath = some (readU32Le (body.drop 16)) &&
          validateEntries d m (readU32Le (body.drop 20)).toNat (body.drop 24)

variable {order : IterOrder} {d d₁ d₂ : AttachDisk} {manifestPath : Path} {m m₂ : Manifest}

theorem readEntry_bytes {e : SidecarEntry} (he : e.uri.length ≤ 0xFFFF) (rest : Bytes) :
    readEntry (e.bytes ++ rest) = if e.uri.length < 4096 then some (e, rest) else none := by
  have hlen : (UInt16.ofNat e.uri.length).toNat = e.uri.length := by
    rw [UInt16.toNat_ofNat']
    exact Nat.mod_eq_of_lt (by omega)
  unfold readEntry
  simp only [SidecarEntry.bytes, List.append_assoc, readU16Le_writeU16Le, hlen,
    List.drop_left' (length_writeU16Le _), List.drop_left, List.take_left, readU64Le_writeU64Le,
    List.drop_left' (length_writeU64Le _), readU32Le_writeU32Le]
  rw [if_neg (by simp; omega)]
  by_cases hshort : e.uri.length < 4096
  · have hfixed : (writeU64Le e.revision ++ (writeU32Le e.payloadDigest ++ rest)).drop 12 = rest := by
      rw [← List.append_assoc, List.drop_left' (by simp)]
    rw [if_pos hshort, if_neg (by simp; omega), hfixed]
  · rw [if_neg hshort, if_pos (by omega)]

theorem validateEntries_bytes {entries : List SidecarEntry}
    (h : ∀ e ∈ entries, e.uri.length ≤ 0xFFFF) :
    validateEntries d m entries.length (entries.flatMap (·.bytes)) = true ↔
      ∀ e ∈ entries, e.uri.length < 4096 ∧ e.live d m = true := by
  induction entries with
  | nil => simp [validateEntries]
  | cons e entries ih =>
      rw [List.length_cons, List.flatMap_cons, validateEntries,
        readEntry_bytes (h e List.mem_cons_self)]
      by_cases hshort : e.uri.length < 4096
      · rw [if_pos hshort]
        simp only [Bool.and_eq_true, ih fun e' he' => h e' (List.mem_cons_of_mem e he'),
          List.forall_mem_cons, hshort, true_and]
      · rw [if_neg hshort]
        simp [hshort]

/-- The entry that `collect_entry` makes of a revision. -/
def entryOf (d : AttachDisk) (m : Manifest) (kv : Bytes × UInt64) : SidecarEntry :=
  ⟨cstr kv.1, kv.2, (canonicalDigest d m (cstr kv.1)).getD 0⟩

theorem foldlM_collectEntry {kvs : List (Bytes × UInt64)} {entries collected : List SidecarEntry}
    (h : kvs.foldlM (collectEntry d m) entries = .ok collected) (hlen : entries.length ≤ 64) :
    collected = entries ++ kvs.map (entryOf d m) ∧ collected.length ≤ 64 ∧
      ∀ kv ∈ kvs, (canonicalDigest d m (cstr kv.1)).isSome := by
  induction kvs generalizing entries with
  | nil =>
      cases h
      simpa using hlen
  | cons kv kvs ih =>
      rw [List.foldlM_cons, collectEntry] at h
      cases hdigest : canonicalDigest d m (cstr kv.1) with
      | none =>
          rw [hdigest] at h
          cases h
      | some digest =>
          simp only [hdigest] at h
          split at h
          · cases h
          · obtain ⟨hcollected, hmost, hrest⟩ := ih h (by simp; omega)
            refine ⟨?_, hmost, List.forall_mem_cons.mpr ⟨by simp [hdigest], hrest⟩⟩
            rw [hcollected, List.append_assoc, List.map_cons, entryOf, hdigest]
            rfl

theorem foldlM_collectEntry_ne (kvs : List (Bytes × UInt64)) (entries : List SidecarEntry) :
    kvs.foldlM (collectEntry d m) entries ≠ .error .ok := by
  induction kvs generalizing entries with
  | nil => exact fun h => nomatch h
  | cons kv kvs ih =>
      intro h
      rw [List.foldlM_cons] at h
      cases hentry : collectEntry d m entries kv with
      | ok next =>
          rw [hentry] at h
          exact ih next h
      | error rc =>
          rw [hentry] at h
          cases h
          unfold collectEntry at hentry
          split at hentry
          · cases hentry
          · split at hentry <;> cases hentry

theorem sidecarValidate_body {flags : UInt32} {epoch : UInt64} {digest : UInt32}
    {entries : List SidecarEntry} {path : Path}
    (hpath : sidecarPathForManifest manifestPath = some path)
    (hfile : d path = some (sidecarBody flags epoch digest entries ++
      writeU32Le (crc32 (sidecarBody flags epoch digest entries))))
    (hcount : entries.length < 2 ^ 32) (huris : ∀ e ∈ entries, e.uri.length ≤ 0xFFFF)
    (required : UInt32) :
    sidecarValidate d manifestPath m required = true ↔
      flags.toUInt16.toUInt32 &&& required = required ∧ epoch = m.batchEpoch ∧
        readFileDigest d manifestPath = some digest ∧
        ∀ e ∈ entries, e.uri.length < 4096 ∧ e.live d m = true := by
  set body := sidecarBody flags epoch digest entries with hbody
  have h4 : body.drop 4 = _ := List.drop_left' (length_writeU32Le sidecarMagic)
  have h6 := congrArg (List.drop 2) h4
  rw [List.drop_drop, List.drop_left' (length_writeU16Le _)] at h6
  have h8 := congrArg (List.drop 2) h6
  rw [List.drop_drop, List.drop_left' (length_writeU16Le _)] at h8
  have h16 := congrArg (List.drop 8) h8
  rw [List.drop_drop, List.drop_left' (length_writeU64Le _)] at h16
  have h20 := congrArg (List.drop 4) h16
  rw [List.drop_drop, List.drop_left' (length_writeU32Le _)] at h20
  have h24 := congrArg (List.drop 4) h20
  rw [List.drop_drop, List.drop_left' (length_writeU32Le _)] at h24
  have hmagic : readU32Le body = sidecarMagic := readU32Le_writeU32Le _ _
  have hlen : 24 ≤ body.length := by
    simp [hbody, sidecarBody]
    omega
  have hnum : (UInt32.ofNat entries.length).toNat = entries.length := by
    rw [UInt32.toNat_ofNat']
    exact Nat.mod_eq_of_lt hcount
  unfold sidecarValidate
  simp only [hpath, Option.bind_some, hfile]
  rw [if_neg (by simp; omega)]
  simp only [List.length_append, length_writeU32Le, Nat.add_sub_cancel, List.take_left,
    List.drop_left, readU32Le_writeU32Le_nil, hmagic, h4, h6, h8, h16, h20, h24,
    readU16Le_writeU16Le, readU32Le_writeU32Le, readU64Le_writeU64Le, hnum, Bool.and_eq_true,
    decide_eq_true_eq, validateEntries_bytes huris, true_and, and_assoc]

theorem sidecarWrite_ok {flags : UInt32}
    (h : sidecarWrite order d manifestPath m flags = (.ok, d₁)) :
    ∃ path digest, sidecarPathForManifest manifestPath = some path ∧
      readFileDigest d manifestPath = some digest ∧
      (∀ kv ∈ order.entries m.revisions, (canonicalDigest d m (cstr kv.1)).isSome) ∧
      ∃ entries, entries = (order.entries m.revisions).map (entryOf d m) ∧ entries.length ≤ 64 ∧
        (∀ e ∈ entries, e.uri.length ≤ 0xFFFF) ∧
        d₁ path = some (sidecarBody flags m.batchEpoch digest entries ++
          writeU32Le (crc32 (sidecarBody flags m.batchEpoch digest entries))) := by
  unfold sidecarWrite at h
  cases hentries : (order.entries m.revisions).foldlM (collectEntry d m) [] with
  | error rc =>
      simp only [hentries, Prod.mk.injEq] at h
      exact absurd (h.1 ▸ hentries) (foldlM_collectEntry_ne _ _)
  | ok entries =>
      obtain ⟨hmap, hmost, hdigests⟩ := foldlM_collectEntry hentries (by simp)
      cases hdigest : readFileDigest d manifestPath with
      | none => simp [hentries, hdigest] at h
      | some digest =>
          cases hpath : sidecarPathForManifest manifestPath with
          | none =>
              simp only [hentries, hdigest, hpath] at h
              split at h <;> simp at h
          | some path =>
              simp only [hentries, hdigest, hpath] at h
              split at h
              · simp at h
              · rename_i hshort
                split at h
                · simp at h
                · obtain ⟨-, rfl⟩ := Prod.mk.inj h
                  refine ⟨path, digest, rfl, rfl, hdigests, entries, by simpa using hmap, hmost,
                    by simpa using hshort, ?_⟩
                  have hne : path ++ ascii ".tmp" ≠ path := by simp [ascii]
                  simp only [runSteps_cons, runSteps_nil]
                  rw [Disk.rename_of_eq_some (by rw [Disk.remove_other hne, Disk.write_same]),
                    Disk.write_same]

/-- An empty manifest file, and nothing else. -/
def manifestOnly : AttachDisk := fun p => if p = ascii "m" then some [] else none

end BlessStar.Persistence.Sidecar
