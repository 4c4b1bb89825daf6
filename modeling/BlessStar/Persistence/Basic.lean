import BlessStar.Lib.ByteString
import BlessStar.Lib.FileSystem

/-!
# The checksum of the attach files

`bs_adapter_attach_persist_crc32`: the reflected IEEE polynomial, one table
entry for each value of the low byte.
-/

namespace BlessStar.Persistence.Crc32

open Lib.ByteString

def tableShift (c : UInt32) : UInt32 :=
  if c &&& 1 ≠ 0 then (0xEDB88320 : UInt32) ^^^ (c >>> 1) else c >>> 1

/-- `table[i]`. -/
def table (i : UInt32) : UInt32 := Nat.iterate tableShift 8 i

def crcByte (crc : UInt32) (p : UInt8) : UInt32 :=
  table ((crc ^^^ p.toUInt32) &&& 0xFF) ^^^ (crc >>> 8)

/-- `bs_adapter_attach_persist_crc32`. -/
def crc32 (data : Bytes) : UInt32 := data.foldl crcByte 0xFFFFFFFF ^^^ 0xFFFFFFFF

-- the check value of this CRC
example : crc32 (ascii "123456789") = 0xCBF43926 := by decide +kernel

end BlessStar.Persistence.Crc32

/-!
## Shared vocabulary of the attach persistence layer

Status codes and limits of `attach_store.h` and `attach_wal.h`, and the disk
the store's files live on.
-/

namespace BlessStar.Persistence

open Lib.ByteString Lib.FileSystem

inductive AttachStatus
  | ok
  | invalidArg
  | conflict
  | oom
  | io
  | limit
  | ioTimeout
  deriving DecidableEq, Repr

abbrev Path := Bytes

abbrev AttachDisk := Disk Path Bytes

/-- `BS_ATTACH_WAL_MAX_RECORD_BYTES`. -/
def walMaxRecordBytes : Nat := 64 * 1024

/-- `BS_ATTACH_WAL_PURGE_KEEP_EPOCHS`. -/
def walPurgeKeepEpochs : UInt64 := 2

/-- `BS_ATTACH_MAX_MANIFEST_LINE`. -/
def maxManifestLine : Nat := 8192

/-- The `char[4096]` buffers that paths are built in. -/
def pathCap : Nat := 4096

def appendFile (d : AttachDisk) (p : Path) (bytes : Bytes) : AttachDisk :=
  d.write p ((d p).getD [] ++ bytes)

@[simp] theorem appendFile_same (d : AttachDisk) (p : Path) (bytes : Bytes) :
    appendFile d p bytes p = some ((d p).getD [] ++ bytes) := by
  simp [appendFile]

@[simp] theorem appendFile_other {d : AttachDisk} {p q : Path} {bytes : Bytes} (h : q ≠ p) :
    appendFile d p bytes q = d q := by
  simp [appendFile, h]

end BlessStar.Persistence

/-!
## Paths of URIs

`bs_adapter_attach_persist_uri_to_path` of `attach_uri_path.c` and
`make_staging_path` of `attach_store.cpp`.
-/

namespace BlessStar.Persistence

open Lib.ByteString

/-- Character `i` of a C string; behind its end the terminating NUL. -/
def byteAt (s : Bytes) (i : Nat) : UInt8 := s.getD i 0

def uriRestIsWindowsDrive (rest : Bytes) : Bool :=
  byteAt rest 2 = 58 ∧ ((65 ≤ byteAt rest 1 ∧ byteAt rest 1 ≤ 90) ∨
    (97 ≤ byteAt rest 1 ∧ byteAt rest 1 ≤ 122))

def skipSlashes (rest : Bytes) : Bytes :=
  if byteAt rest 0 = 47 then
    if byteAt rest 1 = 47 then
      if byteAt rest 2 = 47 then rest.drop 2
      else if uriRestIsWindowsDrive rest then rest.drop 1
      else rest.drop 1
    else if uriRestIsWindowsDrive rest then rest.drop 1
    else rest.drop 1
  else rest

/-- `bs_adapter_attach_persist_uri_to_path`; `none` is `BS_ATTACH_ERR_INVALID_ARG`. -/
def uriToPath (uri : Bytes) (outCap : Nat) : Option Path :=
  let uri := cstr uri
  if outCap = 0 then none
  else if ¬ascii "file://" <+: uri then none
  else
    let rest := skipSlashes (uri.drop 7)
    if rest = [] then none
    else if outCap < rest.length + 1 then none
    else some rest

def makeStagingPath (basePath : Path) (epoch newRev : UInt64) : Path :=
  basePath ++ ascii ".bs.staging.e" ++ decimal epoch.toNat ++ ascii ".r" ++ decimal newRev.toNat

theorem skipSlashes_suffix (rest : Bytes) : skipSlashes rest <:+ rest := by
  unfold skipSlashes
  split
  · split
    · split
      · exact List.drop_suffix 2 rest
      · split <;> exact List.drop_suffix 1 rest
    · split <;> exact List.drop_suffix 1 rest
  · exact List.suffix_rfl

theorem length_le_skipSlashes (rest : Bytes) : rest.length ≤ (skipSlashes rest).length + 2 := by
  unfold skipSlashes
  split
  · split
    · split
      · rw [List.length_drop]
        omega
      · split <;> rw [List.length_drop] <;> omega
    · split <;> rw [List.length_drop] <;> omega
  · omega

theorem uriToPath_spec {uri : Bytes} {outCap : Nat} {path : Path}
    (h : uriToPath uri outCap = some path) :
    path <:+ cstr uri ∧ path ≠ [] ∧ path.length + 1 ≤ outCap ∧
      (cstr uri).length ≤ path.length + 9 := by
  unfold uriToPath at h
  simp only at h
  split at h
  · cases h
  · split at h
    · cases h
    · split at h
      · cases h
      · rename_i hne
        split at h
        · cases h
        · rename_i hcap
          cases h
          have hlen := length_le_skipSlashes ((cstr uri).drop 7)
          rw [List.length_drop] at hlen
          exact ⟨(skipSlashes_suffix _).trans (List.drop_suffix 7 _), hne, by omega, by omega⟩

theorem uri_ne_nil_of_uriToPath {uri : Bytes} {outCap : Nat} {path : Path}
    (h : uriToPath uri outCap = some path) : uri ≠ [] := by
  obtain ⟨hsuffix, hne, -, -⟩ := uriToPath_spec h
  rintro rfl
  exact hne (List.suffix_nil.mp hsuffix)

/-! ## Staging paths -/

theorem length_decimal_le (n : UInt64) : (decimal n.toNat).length ≤ 20 := by
  unfold decimal numeral
  split
  · simp
  · rw [List.length_map, List.length_reverse, Nat.digits_length_le_iff (by omega)]
    have hn := n.toNat_lt
    omega

theorem length_makeStagingPath_le (basePath : Path) (epoch newRev : UInt64) :
    (makeStagingPath basePath epoch newRev).length ≤ basePath.length + 55 := by
  have hepoch := length_decimal_le epoch
  have hrev := length_decimal_le newRev
  have hinfix : (ascii ".bs.staging.e").length = 13 ∧ (ascii ".r").length = 2 := by decide
  simp only [makeStagingPath, List.length_append]
  omega

theorem append_decimal_inj {xs ys : Bytes} {m n : Nat} (hx : ∀ b ∈ xs.getLast?, ¬IsDigit 10 b)
    (hy : ∀ b ∈ ys.getLast?, ¬IsDigit 10 b) (h : xs ++ decimal m = ys ++ decimal n) :
    xs = ys ∧ m = n := by
  have hm : ∀ b ∈ decimal m, IsDigit 10 b := fun b hb => isDigit_of_mem_numeral (by omega) hb
  have hn : ∀ b ∈ decimal n, IsDigit 10 b := fun b hb => isDigit_of_mem_numeral (by omega) hb
  rcases List.append_eq_append_iff.mp h with ⟨zs, hys, hdec⟩ | ⟨zs, hxs, hdec⟩
  · cases hz : zs.getLast? with
    | none =>
        rw [List.getLast?_eq_none_iff] at hz
        subst hz
        exact ⟨by simpa using hys.symm, decimal_inj (by simpa using hdec)⟩
    | some z =>
        have hzs : z ∈ zs := List.mem_of_getLast? hz
        have hlast : ys.getLast? = some z := by
          rw [hys, List.getLast?_append, hz]
          rfl
        exact absurd (hm z (by rw [hdec]; simp [hzs])) (hy z hlast)
  · cases hz : zs.getLast? with
    | none =>
        rw [List.getLast?_eq_none_iff] at hz
        subst hz
        exact ⟨by simpa using hxs, decimal_inj (by simpa using hdec.symm)⟩
    | some z =>
        have hzs : z ∈ zs := List.mem_of_getLast? hz
        have hlast : xs.getLast? = some z := by
          rw [hxs, List.getLast?_append, hz]
          rfl
        exact absurd (hn z (by rw [hdec]; simp [hzs])) (hx z hlast)

theorem not_isDigit_getLast? {xs suffix : Bytes} {c : UInt8} (hc : c.toNat < 48 ∨ 57 < c.toNat)
    (hsuffix : suffix.getLast? = some c) : ∀ b ∈ (xs ++ suffix).getLast?, ¬IsDigit 10 b := by
  intro b hb hdigit
  have hrange := hdigit.decimal_range
  rw [List.getLast?_append, hsuffix] at hb
  obtain rfl : c = b := by simpa using hb
  omega

/-- **Staging paths are unique** to their base path, epoch and revision. -/
theorem makeStagingPath_inj {p q : Path} {e f r s : UInt64}
    (h : makeStagingPath p e r = makeStagingPath q f s) : p = q ∧ e = f ∧ r = s := by
  have hletter : (ascii ".r").getLast? = some 114 ∧ (ascii ".bs.staging.e").getLast? = some 101 := by
    decide
  obtain ⟨hhead, hrev⟩ := append_decimal_inj
    (not_isDigit_getLast? (by decide) hletter.1) (not_isDigit_getLast? (by decide) hletter.1) h
  obtain ⟨hbase, hepoch⟩ := append_decimal_inj
    (not_isDigit_getLast? (by decide) hletter.2) (not_isDigit_getLast? (by decide) hletter.2)
    (List.append_cancel_right hhead)
  exact ⟨List.append_cancel_right hbase, UInt64.toNat_inj.mp hepoch, UInt64.toNat_inj.mp hrev⟩

end BlessStar.Persistence
