import BlessStar.Persistence.Proofs.TornHeader
import BlessStar.Persistence.Proofs.WalCorruption
import Mathlib.Data.LawfulXor.Basic

/-!
# Damaged records

The checksum tells apart two payloads that differ within four neighbouring bytes only.
So a WAL in which one payload is damaged so is read up to that record, and neither
recovery nor a purge deletes anything beside it.
-/

namespace BlessStar.Persistence.Proofs.DamagedRecords

open Lib.ByteString Persistence Persistence.Crc32 Persistence.Wal
open Persistence.Proofs.CrcLinear Persistence.Proofs.WalCorruption

theorem table_high : ∀ i < 256, (table (UInt32.ofNat i)).toNat / 2 ^ 24 = 0 → i = 0 := by
  decide +kernel

/-- A step of the CRC whose result has a zero byte on top has dropped nothing of the state. -/
theorem toNat_of_crcByte_lt {s : UInt32} {p : UInt8} (h : (crcByte s p).toNat < 2 ^ 24) :
    s.toNat = p.toNat + 256 * (crcByte s p).toNat := by
  have hindex : ((s ^^^ p.toUInt32) &&& 0xFF).toNat = (s.toNat ^^^ p.toNat) % 256 := by
    rw [UInt32.toNat_and, UInt32.toNat_xor, UInt8.toNat_toUInt32]
    exact Nat.and_two_pow_sub_one_eq_mod _ 8
  have hs := s.toNat_lt
  have hp := p.toNat_lt
  have hcrc : (crcByte s p).toNat =
      (table ((s ^^^ p.toUInt32) &&& 0xFF)).toNat ^^^ s.toNat / 256 := by
    rw [crcByte, UInt32.toNat_xor, UInt32.toNat_shiftRight]
    exact congrArg _ (Nat.shiftRight_eq_div_pow _ 8)
  have hzero : (s.toNat ^^^ p.toNat) % 256 = 0 := by
    apply table_high _ (Nat.mod_lt _ (by decide))
    rw [← hindex, UInt32.ofNat_toNat]
    have htop := congrArg (· / 2 ^ 24) hcrc
    simp only [Nat.xor_div_two_pow] at htop
    have hstate : s.toNat / 256 / 2 ^ 24 = 0 := by omega
    rw [Nat.div_eq_of_lt h, hstate, Nat.xor_zero] at htop
    exact htop.symm
  have hlow : s.toNat % 256 = p.toNat := by
    have hmod : s.toNat % 2 ^ 8 ^^^ p.toNat % 2 ^ 8 = 0 := by
      rw [← Nat.xor_mod_two_pow]
      exact hzero
    have heq := xor_eq_zero_iff.mp hmod
    omega
  have htable : (table ((s ^^^ p.toUInt32) &&& 0xFF)).toNat = 0 := by
    rw [UInt32.toNat_inj.mp (hindex.trans hzero : _ = (0 : UInt32).toNat)]
    decide
  rw [htable, Nat.zero_xor] at hcrc
  omega

theorem toNat_of_foldl_eq_zero {bs : Bytes} (hlen : bs.length ≤ 4) :
    ∀ {s : UInt32}, bs.foldl crcByte s = 0 → s.toNat = leNat bs := by
  induction bs with
  | nil =>
      intro s h
      exact congrArg UInt32.toNat h
  | cons b bs ih =>
      intro s h
      rw [List.length_cons] at hlen
      have hrest := ih (by omega) h
      have hlt := WalFraming.leNat_lt bs
      have hpow : 256 ^ bs.length ≤ 256 ^ 3 := Nat.pow_le_pow_right (by decide) (by omega)
      rw [leNat, ← hrest]
      apply toNat_of_crcByte_lt
      omega

theorem foldl_zeros_ne {s : UInt32} (hs : s ≠ 0) (n : Nat) :
    (List.replicate n (0 : UInt8)).foldl crcByte s ≠ 0 := by
  induction n generalizing s with
  | zero => exact hs
  | succ n ih =>
      apply ih
      intro hzero
      have hstate := @toNat_of_crcByte_lt s 0 (by rw [hzero]; decide)
      rw [hzero] at hstate
      exact hs (UInt32.toNat_inj.mp hstate)

theorem zipWith_xor_self (bs : Bytes) :
    List.zipWith (· ^^^ ·) bs bs = List.replicate bs.length 0 := by
  induction bs with
  | nil => rfl
  | cons b bs ih => rw [List.zipWith_cons_cons, ih, UInt8.xor_self, List.length_cons, List.replicate_succ]

theorem eq_of_leNat_xor_eq_zero {ps qs : Bytes} (hlen : ps.length = qs.length)
    (h : leNat (List.zipWith (· ^^^ ·) ps qs) = 0) : ps = qs := by
  induction ps generalizing qs with
  | nil => exact (List.length_eq_zero_iff.mp hlen.symm).symm
  | cons p ps ih =>
      cases qs with
      | nil => simp at hlen
      | cons q qs =>
          rw [List.zipWith_cons_cons, leNat] at h
          have hbyte : p ^^^ q = 0 := UInt8.toNat_inj.mp (by simp only [UInt8.toNat_zero]; omega)
          rw [UInt8.xor_eq_zero_iff.mp hbyte, ih (by simpa using hlen) (by omega)]

/-- `damaged` is `payload` with other bytes in one window of at most `n`. -/
def DamagedWithin (n : Nat) (payload damaged : Bytes) : Prop :=
  ∃ pre w w' post, payload = pre ++ (w ++ post) ∧ damaged = pre ++ (w' ++ post) ∧
    w.length = w'.length ∧ w.length ≤ n ∧ w ≠ w'

theorem crc32_damaged_ne {payload damaged : Bytes} (h : DamagedWithin 4 payload damaged)
    (front : Bytes) : crc32 (front ++ damaged) ≠ crc32 (front ++ payload) := by
  obtain ⟨pre, w, w', post, rfl, rfl, hlen, hwindow, hne⟩ := h
  rw [← List.append_assoc front, ← List.append_assoc front]
  apply crc32_append_ne (front ++ pre) (by simp [hlen])
  rw [List.zipWith_append hlen.symm, zipWith_xor_self, List.foldl_append]
  apply foldl_zeros_ne
  intro hzero
  have hstate := toNat_of_foldl_eq_zero (by simp; omega) hzero
  exact hne (eq_of_leNat_xor_eq_zero hlen.symm hstate.symm).symm

/-- The record `r` on disk, with other bytes for its payload. -/
def damagedFrame (r : WalRecord) (damaged : Bytes) : Bytes := (frame r).take 16 ++ damaged

theorem walReadRecord_damaged {r : WalRecord} (hfit : r.Fits) {damaged : Bytes}
    (h : DamagedWithin 4 r.payload damaged) (rest : Bytes) :
    walReadRecord (damagedFrame r damaged ++ rest) = .corrupt := by
  have hlength : damaged.length = r.payload.length := by
    obtain ⟨pre, w, w', post, hp, hd, hlen, -, -⟩ := h
    rw [hp, hd]
    simp [hlen]
  have hlen := length_payload_toNat hfit
  have hframe : damagedFrame r damaged ++ rest =
      hdrNoCrc r.type (UInt32.ofNat r.payload.length) ++
        writeU32Le (crc32 (hdrNoCrc r.type (UInt32.ofNat r.payload.length) ++ r.payload)) ++
        (damaged ++ rest) := by
    rw [damagedFrame, frame, List.take_left' (by simp), List.append_assoc]
  unfold walReadRecord
  rw [hframe, walReadRecordHeader_fields _ _ _ (by rw [hlen]; exact hfit)]
  simp only [hlen]
  rw [← hlength, List.take_left, hlength, if_neg (by simp [hlength]),
    if_pos (crc32_damaged_ne h _)]

theorem walRecords_damaged {before : List WalRecord} {r : WalRecord} {damaged : Bytes}
    (hbefore : ∀ x ∈ before, x.Fits) (hfit : r.Fits) (h : DamagedWithin 4 r.payload damaged)
    (rest : Bytes) :
    walRecords (frames before ++ (damagedFrame r damaged ++ rest)) = (before, .corrupt) := by
  have hlen : (damagedFrame r damaged ++ rest).length =
      (damagedFrame r damaged ++ rest).length - 1 + 1 := by
    have hframe := length_frame r
    rw [damagedFrame, List.length_append, List.length_append, List.length_take]
    omega
  have htail : walRecords (damagedFrame r damaged ++ rest) = ([], .corrupt) := by
    rw [walRecords, hlen, walRecordsFuel, walReadRecord_damaged hfit h]
  rw [walRecords_frames_append hbefore, htail, List.append_nil]

/-- **A damaged record.**  A WAL with one payload damaged within four neighbouring bytes is
read up to that record; recovery reports the corruption, and neither it nor any purge
deletes a file. -/
theorem damaged_record_spares_files {before : List WalRecord} {r : WalRecord} {damaged : Bytes}
    (hbefore : ∀ x ∈ before, x.Fits) (hfit : r.Fits) (h : DamagedWithin 4 r.payload damaged)
    (rest : Bytes) {d : AttachDisk} {walPath : Path}
    (hfile : d walPath = some (frames before ++ (damagedFrame r damaged ++ rest)))
    (manifestEpoch : UInt64) :
    walRecords (frames before ++ (damagedFrame r damaged ++ rest)) = (before, .corrupt) ∧
      (walRecoverUnfinished d walPath manifestEpoch).1 = d ∧
      MeetsCorruption d walPath manifestEpoch ∧
      ∀ lastPurgedThrough,
        (walPurgeOldSegmentsEx d walPath manifestEpoch lastPurgedThrough).1 = d := by
  have hrecords := walRecords_damaged hbefore hfit h rest
  have hscan : walMaxCommittedAcrossSegments d walPath manifestEpoch = (0, true) := by
    rw [walMaxCommittedAcrossSegments, walScannedFiles, hfile, Option.toList_some,
      List.singleton_append, walMaxCommittedOf, walScanLastCommittedEpoch, hrecords]
    rfl
  refine ⟨hrecords, ?_, ?_, ?_⟩
  · rw [walRecoverUnfinished, hscan]
    rfl
  · rw [MeetsCorruption, walRecoverUnfinished, hscan]
    exact Option.some_ne_none _
  · intro lastPurgedThrough
    rw [walPurgeOldSegmentsEx, hscan]
    rfl

/-- One flipped bit in a COMMITTED record. -/
theorem damaged_record_spares_files_flipped_bit :
    walRecords (damagedFrame ⟨recCommitted, [1, 0, 0, 0, 0, 0, 0, 0]⟩ [1, 0, 0, 4, 0, 0, 0, 0]) =
      ([], .corrupt) :=
  (@damaged_record_spares_files [] ⟨recCommitted, [1, 0, 0, 0, 0, 0, 0, 0]⟩
    [1, 0, 0, 4, 0, 0, 0, 0] (by simp) (by decide)
    ⟨[1, 0, 0], [0], [4], [0, 0, 0, 0], rfl, rfl, rfl, by decide, by decide⟩ []
    (fun _ => some (damagedFrame ⟨recCommitted, [1, 0, 0, 0, 0, 0, 0, 0]⟩ [1, 0, 0, 4, 0, 0, 0, 0]))
    [] rfl 1).1

end BlessStar.Persistence.Proofs.DamagedRecords
