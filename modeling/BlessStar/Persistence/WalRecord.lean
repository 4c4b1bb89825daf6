import BlessStar.Persistence.Basic

/-!
# WAL record framing

`wal_write_record` and `wal_read_record_header` of `attach_wal.c`.  A record is
a sixteen byte header (magic, version, type, payload length, CRC over the
header without its CRC field and the payload) followed by the payload.
-/

namespace BlessStar.Persistence.Wal

open Lib.ByteString Persistence Persistence.Crc32

def writeU16Le (v : UInt16) : Bytes := leBytes 2 v.toNat
def writeU32Le (v : UInt32) : Bytes := leBytes 4 v.toNat
def writeU64Le (v : UInt64) : Bytes := leBytes 8 v.toNat

def readU16Le (src : Bytes) : UInt16 := UInt16.ofNat (leNat (src.take 2))
def readU32Le (src : Bytes) : UInt32 := UInt32.ofNat (leNat (src.take 4))
def readU64Le (src : Bytes) : UInt64 := UInt64.ofNat (leNat (src.take 8))

@[simp] theorem length_writeU16Le (v : UInt16) : (writeU16Le v).length = 2 := by simp [writeU16Le]
@[simp] theorem length_writeU32Le (v : UInt32) : (writeU32Le v).length = 4 := by simp [writeU32Le]
@[simp] theorem length_writeU64Le (v : UInt64) : (writeU64Le v).length = 8 := by simp [writeU64Le]

theorem readU16Le_writeU16Le (v : UInt16) (rest : Bytes) :
    readU16Le (writeU16Le v ++ rest) = v := by
  have hv : v.toNat < 256 ^ 2 := by simpa using v.toNat_lt
  rw [readU16Le, List.take_left' (length_writeU16Le v), writeU16Le, leNat_leBytes hv]
  simp

theorem readU32Le_writeU32Le (v : UInt32) (rest : Bytes) :
    readU32Le (writeU32Le v ++ rest) = v := by
  have hv : v.toNat < 256 ^ 4 := by simpa using v.toNat_lt
  rw [readU32Le, List.take_left' (length_writeU32Le v), writeU32Le, leNat_leBytes hv]
  simp

theorem readU64Le_writeU64Le (v : UInt64) (rest : Bytes) :
    readU64Le (writeU64Le v ++ rest) = v := by
  have hv : v.toNat < 256 ^ 8 := by simpa using v.toNat_lt
  rw [readU64Le, List.take_left' (length_writeU64Le v), writeU64Le, leNat_leBytes hv]
  simp

theorem readU32Le_writeU32Le_nil (v : UInt32) : readU32Le (writeU32Le v) = v := by
  simpa using readU32Le_writeU32Le v []

theorem readU64Le_writeU64Le_nil (v : UInt64) : readU64Le (writeU64Le v) = v := by
  simpa using readU64Le_writeU64Le v []

/-- `BS_ATTACH_WAL_MAGIC`. -/
def walMagic : UInt32 := 0x42535741

/-- `BS_ATTACH_WAL_VERSION`. -/
def walVersion : UInt16 := 1

/-! The record types of `BsAttachWalRecordType`; a type read from a file may be
any 16-bit number. -/

def recBatchBegin : UInt16 := 1
def recEntry : UInt16 := 2
def recBatchEnd : UInt16 := 3
def recCommitted : UInt16 := 4
def recPhaseMark : UInt16 := 5

structure WalRecord where
  type : UInt16
  payload : Bytes
  deriving DecidableEq, Repr

def hdrNoCrc (type : UInt16) (len : UInt32) : Bytes :=
  writeU32Le walMagic ++ writeU16Le walVersion ++ writeU16Le type ++ writeU32Le len

def frame (r : WalRecord) : Bytes :=
  let hdr := hdrNoCrc r.type (UInt32.ofNat r.payload.length)
  hdr ++ writeU32Le (crc32 (hdr ++ r.payload)) ++ r.payload

/-- `wal_write_record`: the bytes written, or the error it returns before
writing any. -/
def walWriteRecord (type : UInt16) (payload : Bytes) : Except AttachStatus Bytes :=
  if walMaxRecordBytes < payload.length then .error .limit
  else .ok (frame ⟨type, payload⟩)

@[simp] theorem length_hdrNoCrc (type : UInt16) (len : UInt32) :
    (hdrNoCrc type len).length = 12 := by
  simp [hdrNoCrc]

theorem length_frame (r : WalRecord) : (frame r).length = 16 + r.payload.length := by
  simp [frame]
  omega

/-- The fields `wal_read_record_header` hands out. -/
structure WalHeader where
  type : UInt16
  len : UInt32
  crc : UInt32
  hdrNoCrc : Bytes

/-- How `wal_read_record_header` ends: with a header and the position after it,
with a short read (`feof` holds), or with a header it refuses (`feof` does not
hold). -/
inductive HeaderRead
  | ok (h : WalHeader) (rest : Bytes)
  | short
  | bad (rc : AttachStatus)

/-- `wal_read_record_header` at the position where the bytes `f` are left. -/
def walReadRecordHeader (f : Bytes) : HeaderRead :=
  if f.length < 16 then .short
  else
    let hdr := f.take 16
    let magic := readU32Le hdr
    let version := readU16Le (hdr.drop 4)
    let type := readU16Le (hdr.drop 6)
    let len := readU32Le (hdr.drop 8)
    let crc := readU32Le (hdr.drop 12)
    if magic ≠ walMagic ∨ version ≠ walVersion then .bad .io
    else if walMaxRecordBytes < len.toNat then .bad .limit
    else .ok ⟨type, len, crc, hdr.take 12⟩ (f.drop 16)

/-- One turn of the framing loop: the code between the header and the record
types, which the two passes over a file repeat word for word. -/
inductive RecordRead
  | record (r : WalRecord) (rest : Bytes)
  | eof
  | badHeader
  | corrupt

def walReadRecord (f : Bytes) : RecordRead :=
  match walReadRecordHeader f with
  | .short => .eof
  | .bad _ => .badHeader
  | .ok h rest =>
      if rest.length < h.len.toNat then .corrupt
      else
        let payload := rest.take h.len.toNat
        if crc32 (h.hdrNoCrc ++ payload) ≠ h.crc then .corrupt
        else .record ⟨h.type, payload⟩ (rest.drop h.len.toNat)

inductive WalStop
  | eof
  | badHeader
  | corrupt
  deriving DecidableEq, Repr

/-- The records of the bytes `f`, in order, and what stopped the reading.
Every record takes at least its header, so `f.length` turns are enough. -/
def walRecordsFuel : Nat → Bytes → List WalRecord × WalStop
  | 0, _ => ([], .eof)
  | fuel + 1, f =>
      match walReadRecord f with
      | .eof => ([], .eof)
      | .badHeader => ([], .badHeader)
      | .corrupt => ([], .corrupt)
      | .record r rest =>
          let next := walRecordsFuel fuel rest
          (r :: next.1, next.2)

def walRecords (f : Bytes) : List WalRecord × WalStop := walRecordsFuel f.length f

theorem walReadRecordHeader_rest {f rest : Bytes} {h : WalHeader}
    (hr : walReadRecordHeader f = .ok h rest) : rest = f.drop 16 ∧ 16 ≤ f.length := by
  unfold walReadRecordHeader at hr
  split at hr
  · cases hr
  · simp only at hr
    split at hr
    · cases hr
    · split at hr
      · cases hr
      · cases hr
        exact ⟨rfl, by omega⟩

theorem walReadRecord_rest_lt {f rest : Bytes} {r : WalRecord}
    (hr : walReadRecord f = .record r rest) : rest.length < f.length := by
  unfold walReadRecord at hr
  split at hr
  · cases hr
  · cases hr
  · rename_i h rest' hh
    obtain ⟨rfl, hlen⟩ := walReadRecordHeader_rest hh
    split at hr
    · cases hr
    · simp only at hr
      split at hr
      · cases hr
      · cases hr
        simp only [List.length_drop]
        omega

theorem walRecordsFuel_eq {n m : Nat} {f : Bytes} (hn : f.length ≤ n) (hm : f.length ≤ m) :
    walRecordsFuel n f = walRecordsFuel m f := by
  have hnil : walReadRecord [] = .eof := rfl
  induction n generalizing m f with
  | zero =>
      have hf : f = [] := List.length_eq_zero_iff.mp (by omega)
      subst hf
      cases m with
      | zero => rfl
      | succ m => simp only [walRecordsFuel, hnil]
  | succ n ih =>
      cases m with
      | zero =>
          have hf : f = [] := List.length_eq_zero_iff.mp (by omega)
          subst hf
          simp only [walRecordsFuel, hnil]
      | succ m =>
          simp only [walRecordsFuel]
          cases hr : walReadRecord f with
          | eof => rfl
          | badHeader => rfl
          | corrupt => rfl
          | record r rest =>
              have hlt := walReadRecord_rest_lt hr
              simp only
              rw [ih (m := m) (by omega) (by omega)]

theorem walRecords_of_record {f rest : Bytes} {r : WalRecord}
    (hr : walReadRecord f = .record r rest) :
    walRecords f = (r :: (walRecords rest).1, (walRecords rest).2) := by
  have hlt := walReadRecord_rest_lt hr
  obtain ⟨n, hn⟩ : ∃ n, f.length = n + 1 := ⟨f.length - 1, by omega⟩
  rw [walRecords, hn, walRecordsFuel, hr]
  simp only
  rw [walRecordsFuel_eq (n := n) (m := rest.length) (by omega) le_rfl]
  rfl

/-- A record `wal_write_record` accepts. -/
def WalRecord.Fits (r : WalRecord) : Prop := r.payload.length ≤ walMaxRecordBytes

instance (r : WalRecord) : Decidable r.Fits := by unfold WalRecord.Fits; infer_instance

theorem length_payload_toNat {r : WalRecord} (hfit : r.Fits) :
    (UInt32.ofNat r.payload.length).toNat = r.payload.length := by
  have hfits : r.payload.length ≤ 65536 := hfit
  rw [UInt32.toNat_ofNat']
  exact Nat.mod_eq_of_lt (by omega)

theorem walReadRecordHeader_fields (type : UInt16) {len : UInt32} (crc : UInt32) (rest : Bytes)
    (hfit : len.toNat ≤ walMaxRecordBytes) :
    walReadRecordHeader (hdrNoCrc type len ++ writeU32Le crc ++ rest) =
      .ok ⟨type, len, crc, hdrNoCrc type len⟩ rest := by
  set hdr := hdrNoCrc type len ++ writeU32Le crc with hhdr
  have hlength : hdr.length = 16 := by simp [hhdr]
  have hmagic : readU32Le hdr = walMagic := by
    simp only [hhdr, hdrNoCrc, List.append_assoc]
    exact readU32Le_writeU32Le _ _
  have hversion : readU16Le (hdr.drop 4) = walVersion := by
    simp only [hhdr, hdrNoCrc, List.append_assoc]
    rw [List.drop_left' (length_writeU32Le _)]
    exact readU16Le_writeU16Le _ _
  have htype : readU16Le (hdr.drop 6) = type := by
    rw [hhdr, hdrNoCrc, List.append_assoc (writeU32Le walMagic ++ writeU16Le walVersion),
      List.append_assoc (writeU32Le walMagic ++ writeU16Le walVersion), List.drop_left' (by simp),
      List.append_assoc]
    exact readU16Le_writeU16Le _ _
  have hlen : readU32Le (hdr.drop 8) = len := by
    rw [hhdr, hdrNoCrc, List.append_assoc (writeU32Le walMagic ++ writeU16Le walVersion ++
      writeU16Le type), List.drop_left' (by simp)]
    exact readU32Le_writeU32Le _ _
  have hcrc : readU32Le (hdr.drop 12) = crc := by
    rw [hhdr, List.drop_left' (length_hdrNoCrc _ _)]
    exact readU32Le_writeU32Le_nil crc
  have hno : hdr.take 12 = hdrNoCrc type len := List.take_left' (length_hdrNoCrc _ _)
  unfold walReadRecordHeader
  rw [if_neg (by simp [hlength])]
  simp only [List.take_left' hlength, List.drop_left' hlength, hmagic, hversion, htype, hlen, hcrc,
    hno, ne_eq, not_true, or_self, if_false]
  rw [if_neg (by omega)]

theorem walReadRecord_frame {r : WalRecord} (hfit : r.Fits) (rest : Bytes) :
    walReadRecord (frame r ++ rest) = .record r rest := by
  have hlen := length_payload_toNat hfit
  have hframe : frame r ++ rest = hdrNoCrc r.type (UInt32.ofNat r.payload.length) ++
      writeU32Le (crc32 (hdrNoCrc r.type (UInt32.ofNat r.payload.length) ++ r.payload)) ++
      (r.payload ++ rest) := by
    simp [frame]
  unfold walReadRecord
  rw [hframe, walReadRecordHeader_fields _ _ _ (by rw [hlen]; exact hfit)]
  simp only [hlen, List.take_left, List.drop_left, ne_eq, not_true, if_false]
  rw [if_neg (by simp)]

def frames (rs : List WalRecord) : Bytes := rs.flatMap frame

@[simp] theorem frames_nil : frames [] = [] := rfl

theorem frames_append (rs ss : List WalRecord) : frames (rs ++ ss) = frames rs ++ frames ss := by
  simp [frames]

theorem frames_cons (r : WalRecord) (rs : List WalRecord) :
    frames (r :: rs) = frame r ++ frames rs := by
  simp [frames]

theorem walRecords_frames_append {rs : List WalRecord} (hfit : ∀ r ∈ rs, r.Fits) (tail : Bytes) :
    walRecords (frames rs ++ tail) = (rs ++ (walRecords tail).1, (walRecords tail).2) := by
  induction rs with
  | nil => simp
  | cons r rs ih =>
      have hr : r.Fits := hfit r (by simp)
      rw [frames_cons, List.append_assoc, walRecords_of_record (walReadRecord_frame hr _),
        ih fun x hx => hfit x (by simp [hx])]
      rfl

theorem walRecords_nil : walRecords [] = ([], .eof) := rfl

/-- **Framing round trip.**  The records of a file of written records are those
records, and the file ends cleanly. -/
theorem walRecords_frames {rs : List WalRecord} (hfit : ∀ r ∈ rs, r.Fits) :
    walRecords (frames rs) = (rs, .eof) := by
  have h := walRecords_frames_append hfit []
  rw [walRecords_nil] at h
  simpa using h

end BlessStar.Persistence.Wal
