import BlessStar.Persistence.WalRecord

/-!
# What reading a file says about its bytes

A file is its records, written one behind the other, and the rest at which the
reading stops.  Where it stops at the end of the file, the rest is shorter than
a header.
-/

namespace BlessStar.Persistence.Proofs.WalFraming

open Lib.ByteString Persistence
open Persistence.Wal

theorem leBytes_leNat (bs : Bytes) : leBytes bs.length (leNat bs) = bs := by
  induction bs with
  | nil => rfl
  | cons b bs ih =>
      have hb := b.toNat_lt
      have hlow : (b.toNat + 256 * leNat bs) % 256 = b.toNat := by omega
      have hhigh : (b.toNat + 256 * leNat bs) / 256 = leNat bs := by omega
      rw [List.length_cons, leNat, leBytes, hlow, hhigh, ih, UInt8.ofNat_toNat]

theorem leNat_lt (bs : Bytes) : leNat bs < 256 ^ bs.length := by
  induction bs with
  | nil => simp [leNat]
  | cons b bs ih =>
      have hb := b.toNat_lt
      rw [leNat, List.length_cons, Nat.pow_succ]
      omega

theorem writeU32Le_readU32Le {bs : Bytes} (h : 4 ≤ bs.length) :
    writeU32Le (readU32Le bs) = bs.take 4 := by
  have hlen : (bs.take 4).length = 4 := List.length_take_of_le h
  have hlt := leNat_lt (bs.take 4)
  rw [hlen] at hlt
  have hword : (readU32Le bs).toNat = leNat (bs.take 4) := by
    rw [readU32Le, UInt32.toNat_ofNat']
    exact Nat.mod_eq_of_lt hlt
  have hbytes := leBytes_leNat (bs.take 4)
  rw [hlen] at hbytes
  rw [writeU32Le, hword]
  exact hbytes

theorem writeU16Le_readU16Le {bs : Bytes} (h : 2 ≤ bs.length) :
    writeU16Le (readU16Le bs) = bs.take 2 := by
  have hlen : (bs.take 2).length = 2 := List.length_take_of_le h
  have hlt := leNat_lt (bs.take 2)
  rw [hlen] at hlt
  have hword : (readU16Le bs).toNat = leNat (bs.take 2) := by
    rw [readU16Le, UInt16.toNat_ofNat']
    exact Nat.mod_eq_of_lt hlt
  have hbytes := leBytes_leNat (bs.take 2)
  rw [hlen] at hbytes
  rw [writeU16Le, hword]
  exact hbytes

theorem walReadRecord_badHeader {f : Bytes} (hlen : 16 ≤ f.length)
    (hbad : readU32Le f ≠ walMagic ∨ readU16Le (f.drop 4) ≠ walVersion ∨
      walMaxRecordBytes < (readU32Le (f.drop 8)).toNat) : walReadRecord f = .badHeader := by
  have hmagic : readU32Le (f.take 16) = readU32Le f := by
    rw [readU32Le, readU32Le, List.take_take, Nat.min_eq_left (by omega)]
  have hversion : readU16Le ((f.take 16).drop 4) = readU16Le (f.drop 4) := by
    rw [readU16Le, readU16Le, List.drop_take, List.take_take, Nat.min_eq_left (by omega)]
  have hlength : readU32Le ((f.take 16).drop 8) = readU32Le (f.drop 8) := by
    rw [readU32Le, readU32Le, List.drop_take, List.take_take, Nat.min_eq_left (by omega)]
  unfold walReadRecord walReadRecordHeader
  rw [if_neg (by omega)]
  dsimp only
  rw [hmagic, hversion, hlength]
  by_cases hfirst : readU32Le f ≠ walMagic ∨ readU16Le (f.drop 4) ≠ walVersion
  · rw [if_pos hfirst]
  · have hlong : walMaxRecordBytes < (readU32Le (f.drop 8)).toNat := by
      rcases hbad with h | h | h
      · exact absurd (Or.inl h) hfirst
      · exact absurd (Or.inr h) hfirst
      · exact h
    rw [if_neg hfirst, if_pos hlong]

theorem walReadRecordHeader_sound {f rest : Bytes} {h : WalHeader}
    (hr : walReadRecordHeader f = .ok h rest) :
    f = hdrNoCrc h.type h.len ++ writeU32Le h.crc ++ rest ∧
      h.hdrNoCrc = hdrNoCrc h.type h.len ∧ h.len.toNat ≤ walMaxRecordBytes := by
  obtain ⟨hrest, hlen⟩ := walReadRecordHeader_rest hr
  unfold walReadRecordHeader at hr
  rw [if_neg (by omega)] at hr
  dsimp only at hr
  split at hr
  · cases hr
  rename_i hfirst
  split at hr
  · cases hr
  rename_i hlong
  rw [not_or, not_not, not_not] at hfirst
  cases hr
  dsimp only
  have h16 : (f.take 16).length = 16 := List.length_take_of_le hlen
  have hmagic := @writeU32Le_readU32Le (f.take 16) (by omega)
  have hversion := @writeU16Le_readU16Le ((f.take 16).drop 4) (by rw [List.length_drop]; omega)
  have htype := @writeU16Le_readU16Le ((f.take 16).drop 6) (by rw [List.length_drop]; omega)
  have hlength := @writeU32Le_readU32Le ((f.take 16).drop 8) (by rw [List.length_drop]; omega)
  have hcrc := @writeU32Le_readU32Le ((f.take 16).drop 12) (by rw [List.length_drop]; omega)
  rw [hfirst.1] at hmagic
  rw [hfirst.2] at hversion
  have hhdr : hdrNoCrc (readU16Le ((f.take 16).drop 6)) (readU32Le ((f.take 16).drop 8)) =
      (f.take 16).take 12 := by
    have hsplit : (f.take 16).take 12 = (f.take 16).take 4 ++ (((f.take 16).drop 4).take 2 ++
        (((f.take 16).drop 6).take 2 ++ ((f.take 16).drop 8).take 4)) := by
      rw [← List.take_append_drop 8 ((f.take 16).take 12), ← List.take_append_drop 6
        (((f.take 16).take 12).take 8), ← List.take_append_drop 4
        ((((f.take 16).take 12).take 8).take 6)]
      simp only [List.take_take, List.drop_take, List.append_assoc]
      rfl
    rw [hdrNoCrc, hmagic, hversion, htype, hlength, hsplit, List.append_assoc, List.append_assoc]
  refine ⟨?_, hhdr.symm, by omega⟩
  have hlast : ((f.take 16).drop 12).take 4 = (f.take 16).drop 12 :=
    List.take_of_length_le (by rw [List.length_drop]; omega)
  rw [hhdr, hcrc, hlast, List.take_append_drop, List.take_append_drop]

/-- **A record that is read was written there.** -/
theorem walReadRecord_sound {f rest : Bytes} {r : WalRecord}
    (hr : walReadRecord f = .record r rest) : f = frame r ++ rest ∧ r.Fits := by
  unfold walReadRecord at hr
  split at hr
  · cases hr
  · cases hr
  · rename_i h rest' hh
    obtain ⟨hf, hhdr, hfit⟩ := walReadRecordHeader_sound hh
    split at hr
    · cases hr
    rename_i hlong
    dsimp only at hr
    split at hr
    · cases hr
    rename_i hcrc
    rw [not_not] at hcrc
    cases hr
    have hlen : (rest'.take h.len.toNat).length = h.len.toNat :=
      List.length_take_of_le (by omega)
    refine ⟨?_, by rw [WalRecord.Fits, hlen]; exact hfit⟩
    have hlenWord : UInt32.ofNat (rest'.take h.len.toNat).length = h.len := by
      rw [hlen]
      exact UInt32.ofNat_toNat
    rw [frame]
    dsimp only
    rw [hlenWord, ← hhdr, hcrc, List.append_assoc, List.take_append_drop, hhdr]
    exact hf

theorem walReadRecord_eof {f : Bytes} (h : walReadRecord f = .eof) : f.length < 16 := by
  by_contra hlen
  unfold walReadRecord walReadRecordHeader at h
  rw [if_neg hlen] at h
  dsimp only at h
  split at h
  · rename_i hshort
    split at hshort
    · cases hshort
    · split at hshort <;> cases hshort
  · cases h
  · split at h
    · cases h
    · split at h <;> cases h

/-- **A file is its records and a rest**, shorter than a header where nothing is
corrupted. -/
theorem walRecords_sound (f : Bytes) :
    ∃ tail, f = frames (walRecords f).1 ++ tail ∧ (∀ r ∈ (walRecords f).1, r.Fits) ∧
      ((walRecords f).2 = .eof → tail.length < 16) := by
  have hrun : ∀ n, ∀ f : Bytes, f.length ≤ n →
      ∃ tail, f = frames (walRecordsFuel n f).1 ++ tail ∧ (∀ r ∈ (walRecordsFuel n f).1, r.Fits) ∧
        ((walRecordsFuel n f).2 = .eof → tail.length < 16) := by
    intro n
    induction n with
    | zero =>
        intro f hf
        exact ⟨f, rfl, fun r hr => absurd hr List.not_mem_nil, fun _ => by omega⟩
    | succ n ih =>
        intro f hf
        rw [walRecordsFuel]
        cases hread : walReadRecord f with
        | eof => exact ⟨f, rfl, fun r hr => absurd hr List.not_mem_nil, fun _ => walReadRecord_eof hread⟩
        | badHeader => exact ⟨f, rfl, fun r hr => absurd hr List.not_mem_nil, fun h => by cases h⟩
        | corrupt => exact ⟨f, rfl, fun r hr => absurd hr List.not_mem_nil, fun h => by cases h⟩
        | record r rest =>
            obtain ⟨hframe, hfit⟩ := walReadRecord_sound hread
            have hlt := walReadRecord_rest_lt hread
            obtain ⟨tail, hrest, hfits, hend⟩ := ih rest (by omega)
            refine ⟨tail, ?_, ?_, hend⟩
            · dsimp only
              rw [frames_cons, List.append_assoc, ← hrest]
              exact hframe
            · intro r' hr'
              rcases List.mem_cons.mp hr' with rfl | hr'
              · exact hfit
              · exact hfits r' hr'
  exact hrun f.length f le_rfl

end BlessStar.Persistence.Proofs.WalFraming
