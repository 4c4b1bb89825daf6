import BlessStar.Persistence.WalAppend
import BlessStar.Persistence.Proofs.WalFraming

/-!
# The checksum is linear

Every step of the CRC respects exclusive or, so whether two texts of one length
have one checksum behind a common prefix does not depend on the prefix.
-/

namespace BlessStar.Persistence.Proofs.CrcLinear

open Lib.ByteString Persistence.Crc32

theorem and_xor (a b c : UInt32) : (a ^^^ b) &&& c = (a &&& c) ^^^ (b &&& c) := by
  apply UInt32.toBitVec_inj.mp
  ext i hi
  simp only [UInt32.toBitVec_and, UInt32.toBitVec_xor, BitVec.getElem_and, BitVec.getElem_xor]
  exact Bool.and_xor_distrib_right _ _ _

theorem xor_shiftRight (a b : UInt32) (n : UInt32) : (a ^^^ b) >>> n = (a >>> n) ^^^ (b >>> n) := by
  apply UInt32.toBitVec_inj.mp
  simp only [UInt32.toBitVec_shiftRight, UInt32.toBitVec_xor]
  exact BitVec.ushiftRight_xor_distrib _ _ _

theorem and_one_cases (c : UInt32) : c &&& 1 = 0 ∨ c &&& 1 = 1 := by
  have hmod : (c &&& 1).toNat = c.toNat % 2 := by
    rw [UInt32.toNat_and]
    exact Nat.and_one_is_mod _
  rcases Nat.mod_two_eq_zero_or_one c.toNat with h | h
  · left
    exact UInt32.toNat_inj.mp (hmod.trans h)
  · right
    exact UInt32.toNat_inj.mp (hmod.trans h)

theorem xor_xor_xor (a b c d : UInt32) : (a ^^^ b) ^^^ (c ^^^ d) = (a ^^^ c) ^^^ (b ^^^ d) := by
  rw [UInt32.xor_assoc, ← UInt32.xor_assoc b, UInt32.xor_comm b c, UInt32.xor_assoc c,
    ← UInt32.xor_assoc]

theorem tableShift_xor (a b : UInt32) : tableShift (a ^^^ b) = tableShift a ^^^ tableShift b := by
  unfold tableShift
  rw [and_xor, xor_shiftRight]
  generalize (0xEDB88320 : UInt32) = p
  rcases and_one_cases a with ha | ha <;> rcases and_one_cases b with hb | hb <;> rw [ha, hb]
  · rfl
  · rw [if_pos (by decide), if_neg (by decide), if_pos (by decide), ← UInt32.xor_assoc,
      UInt32.xor_comm p, UInt32.xor_assoc]
  · rw [if_pos (by decide), if_pos (by decide), if_neg (by decide), UInt32.xor_assoc]
  · rw [if_neg (by decide), if_pos (by decide), if_pos (by decide), xor_xor_xor, UInt32.xor_self,
      UInt32.zero_xor]

theorem table_xor (a b : UInt32) : table (a ^^^ b) = table a ^^^ table b := by
  have hiterate : ∀ n, ∀ a b : UInt32, Nat.iterate tableShift n (a ^^^ b) =
      Nat.iterate tableShift n a ^^^ Nat.iterate tableShift n b := by
    intro n
    induction n with
    | zero => exact fun _ _ => rfl
    | succ n ih =>
        intro a b
        rw [Function.iterate_succ_apply, tableShift_xor, ih]
        rfl
  exact hiterate 8 a b

theorem crcByte_xor (s t : UInt32) (p q : UInt8) :
    crcByte (s ^^^ t) (p ^^^ q) = crcByte s p ^^^ crcByte t q := by
  unfold crcByte
  rw [UInt8.toUInt32_xor, xor_xor_xor, and_xor, table_xor, xor_shiftRight, xor_xor_xor]

theorem foldl_crcByte_xor (ps : Bytes) :
    ∀ {qs : Bytes} {s t : UInt32}, ps.length = qs.length →
      (List.zipWith (· ^^^ ·) ps qs).foldl crcByte (s ^^^ t) =
        ps.foldl crcByte s ^^^ qs.foldl crcByte t := by
  induction ps with
  | nil =>
      intro qs s t hlen
      obtain rfl := List.length_eq_zero_iff.mp hlen.symm
      rfl
  | cons p ps ih =>
      intro qs s t hlen
      cases qs with
      | nil => simp at hlen
      | cons q qs =>
          rw [List.zipWith_cons_cons, List.foldl_cons, crcByte_xor, List.foldl_cons, List.foldl_cons]
          exact ih (by simpa using hlen)

theorem crc32_append_ne (pre : Bytes) {ps qs : Bytes} (hlen : ps.length = qs.length)
    (h : (List.zipWith (· ^^^ ·) ps qs).foldl crcByte 0 ≠ 0) :
    crc32 (pre ++ ps) ≠ crc32 (pre ++ qs) := by
  intro heq
  unfold crc32 at heq
  rw [List.foldl_append, List.foldl_append] at heq
  have hsame : ps.foldl crcByte (pre.foldl crcByte 0xFFFFFFFF) =
      qs.foldl crcByte (pre.foldl crcByte 0xFFFFFFFF) := by
    have hboth := congrArg (· ^^^ (0xFFFFFFFF : UInt32)) heq
    simpa only [UInt32.xor_assoc, UInt32.xor_self, UInt32.xor_zero] using hboth
  have hlinear := @foldl_crcByte_xor ps qs (pre.foldl crcByte 0xFFFFFFFF)
    (pre.foldl crcByte 0xFFFFFFFF) hlen
  rw [UInt32.xor_self, hsame, UInt32.xor_self] at hlinear
  exact h hlinear

end BlessStar.Persistence.Proofs.CrcLinear

/-!
## Appends behind a torn header

A rest shorter than a header stands at the end of some logs.  The header that a
reader then finds there takes in the first bytes of the next append, and for
each such rest there is an append after which the log is corrupted.
-/

namespace BlessStar.Persistence.Proofs.TornHeader

open Lib.ByteString Persistence Persistence.Crc32
open Persistence.Wal CrcLinear WalFraming

def magicBytes : Bytes := [0x41, 0x57, 0x53, 0x42, 1, 0]

def oneEntry (uri : Bytes) : List WalEntry := [⟨uri, [], 0, 0, 0⟩]

def oneEntryBytes (epoch : UInt64) (uri : Bytes) : Bytes :=
  frame ⟨recBatchBegin, beginPayload epoch 1⟩ ++
    (frame ⟨recEntry, entryPayload ⟨uri, [], 0, 0, 0⟩⟩ ++
      frame ⟨recBatchEnd, endPayload epoch 1 [crc32 (entryPayload ⟨uri, [], 0, 0, 0⟩)]⟩)

theorem oneEntry_ok (epoch : UInt64) {uri : Bytes} (h : (cstr uri).length ≤ 65508) :
    (walAppendBatch epoch (oneEntry uri)).2 = .ok := by
  rw [walAppendBatch_ok_iff]
  refine ⟨by simp [oneEntry], by simp [oneEntry], ?_⟩
  intro e he
  obtain rfl := List.mem_singleton.mp he
  have hlen := length_entryPayload ⟨uri, [], 0, 0, 0⟩
  dsimp only at hlen
  have hnil : (cstr ([] : Bytes)).length = 0 := rfl
  unfold walMaxRecordBytes
  omega

theorem oneEntry_bytes (epoch : UInt64) {uri : Bytes} (h : (cstr uri).length ≤ 65508) :
    (walAppendBatch epoch (oneEntry uri)).1 = oneEntryBytes epoch uri := by
  rw [walAppendBatch_bytes (oneEntry_ok epoch h)]
  simp only [WalAppend.records, oneEntry, oneEntryBytes, frames, List.map_cons, List.map_nil,
    List.flatMap_cons, List.flatMap_nil, List.cons_append, List.nil_append, List.append_nil]
  rfl

/-! ## The header of a rest and a record -/

theorem le_leNat {bs : Bytes} {i : Nat} {b : UInt8} (h : bs[i]? = some b) :
    b.toNat * 256 ^ i ≤ leNat bs := by
  induction bs generalizing i with
  | nil => simp at h
  | cons c bs ih =>
      rw [leNat]
      cases i with
      | zero =>
          obtain rfl : c = b := by simpa using h
          omega
      | succ i =>
          have hrest := ih (i := i) (by simpa using h)
          rw [Nat.pow_succ, ← Nat.mul_assoc]
          omega

theorem toNat_readU32Le {f : Bytes} (h : 4 ≤ f.length) :
    (readU32Le f).toNat = leNat (f.take 4) := by
  have hlt := leNat_lt (f.take 4)
  rw [List.length_take_of_le h] at hlt
  rw [readU32Le, UInt32.toNat_ofNat']
  exact Nat.mod_eq_of_lt hlt

theorem walReadRecord_early_rest {tail y : Bytes} (hpos : 0 < tail.length)
    (hlen : tail.length < 12) (hy : 10 ≤ y.length) :
    walReadRecord (tail ++ (magicBytes ++ y)) = .badHeader := by
  have hsize : (tail ++ (magicBytes ++ y)).length = tail.length + (6 + y.length) := by
    simp only [List.length_append, magicBytes, List.length_cons, List.length_nil]
  have hbyte : ∀ i : Nat, i < 6 → (tail ++ (magicBytes ++ y))[tail.length + i]? = magicBytes[i]? := by
    intro i hi
    rw [List.getElem?_append_right (Nat.le_add_right _ _), Nat.add_sub_cancel_left]
    exact List.getElem?_append_left hi
  apply walReadRecord_badHeader (by omega)
  set f := tail ++ (magicBytes ++ y) with hf
  by_cases h4 : tail.length < 4
  · left
    intro hmagic
    have hbytes := @writeU32Le_readU32Le f (by omega)
    rw [hmagic] at hbytes
    have hfirst : (writeU32Le walMagic)[tail.length]? = some 0x41 := by
      rw [hbytes, List.getElem?_take_of_lt h4]
      exact hbyte 0 (by decide)
    have hnone : ∀ k < 4, 0 < k → (writeU32Le walMagic)[k]? ≠ some 0x41 := by decide
    exact hnone _ h4 hpos hfirst
  by_cases h6 : tail.length < 6
  · right
    left
    intro hversion
    have hbytes := @writeU16Le_readU16Le (f.drop 4) (by rw [List.length_drop]; omega)
    rw [hversion] at hbytes
    have hfirst : (writeU16Le walVersion)[tail.length - 4]? = some 0x41 := by
      rw [hbytes, List.getElem?_take_of_lt (by omega), List.getElem?_drop,
        Nat.add_sub_cancel' (by omega)]
      exact hbyte 0 (by decide)
    have hnone : ∀ k < 2, (writeU16Le walVersion)[k]? ≠ some 0x41 := by decide
    exact hnone _ (by omega) hfirst
  right
  right
  rw [toNat_readU32Le (by rw [List.length_drop]; omega)]
  unfold walMaxRecordBytes
  by_cases h7 : tail.length = 6
  · have hfield : (f.drop 8).take 4 = [0x53, 0x42, 1, 0] := by
      rw [hf, List.drop_append, List.drop_of_length_le (by omega), h7]
      rfl
    rw [hfield]
    decide
  · have hlast : ((f.drop 8).take 4)[3]? = magicBytes[11 - tail.length]? := by
      rw [List.getElem?_take_of_lt (by decide), List.getElem?_drop, ← hbyte _ (by omega),
        Nat.add_sub_cancel' (by omega)]
    have hone : ∀ i : Nat, i < 5 → ∃ b : UInt8, magicBytes[i]? = some b ∧ 1 ≤ b.toNat := by
      intro i hi
      have hlt : i < magicBytes.length := by
        rw [magicBytes]
        simp only [List.length_cons, List.length_nil]
        omega
      refine ⟨magicBytes[i], List.getElem?_eq_getElem hlt, ?_⟩
      have hall : ∀ i : Fin 5, 1 ≤ (magicBytes.get ⟨i.1, Nat.lt_trans i.2 (by decide)⟩).toNat := by
        decide
      exact hall ⟨i, hi⟩
    obtain ⟨b, hb, hb1⟩ := hone (11 - tail.length) (by omega)
    have hlarge := le_leNat (hlast.trans hb)
    omega

def restLen (tail : Bytes) : Nat := (readU32Le (tail.drop 8)).toNat
def restCrc (tail : Bytes) : UInt32 := readU32Le (tail.drop 12 ++ magicBytes)

theorem walReadRecord_late_rest {tail : Bytes} (hlow : 12 ≤ tail.length)
    (hhigh : tail.length < 16) (z : Bytes) :
    walReadRecord (tail ++ (magicBytes ++ z)) = .badHeader ∨
      walReadRecord (tail ++ (magicBytes ++ z)) = .corrupt ∨
      ∃ r, walReadRecord (tail ++ (magicBytes ++ z)) =
          .record r ((magicBytes ++ z).drop (16 - tail.length + restLen tail)) ∧
        restLen tail ≤ walMaxRecordBytes ∧
        crc32 (tail.take 12 ++ ((magicBytes ++ z).drop (16 - tail.length)).take (restLen tail)) =
          restCrc tail := by
  have hmagicLen : magicBytes.length = 6 := rfl
  have hdrop : (tail ++ (magicBytes ++ z)).drop 16 = (magicBytes ++ z).drop (16 - tail.length) := by
    rw [List.drop_append, List.drop_of_length_le (by omega), List.nil_append]
  have hnoCrc : ((tail ++ (magicBytes ++ z)).take 16).take 12 = tail.take 12 := by
    rw [List.take_take, Nat.min_eq_left (by decide), List.take_append_of_le_length hlow]
  have hlen : readU32Le (((tail ++ (magicBytes ++ z)).take 16).drop 8) = readU32Le (tail.drop 8) := by
    rw [readU32Le, readU32Le, List.drop_take, List.take_take, Nat.min_eq_left (by decide),
      List.drop_append_of_le_length (by omega),
      List.take_append_of_le_length (by rw [List.length_drop]; omega)]
  have hcrc : readU32Le (((tail ++ (magicBytes ++ z)).take 16).drop 12) = restCrc tail := by
    rw [readU32Le, restCrc, readU32Le, List.drop_take, List.take_take, Nat.min_eq_left (by decide),
      List.drop_append_of_le_length hlow, ← List.append_assoc,
      List.take_append_of_le_length (by rw [List.length_append, List.length_drop]; omega)]
  unfold walReadRecord walReadRecordHeader
  rw [if_neg (by simp only [List.length_append]; omega)]
  dsimp only
  rw [hdrop, hnoCrc, hlen, hcrc]
  split
  · rename_i hshort
    split at hshort
    · cases hshort
    · split at hshort <;> cases hshort
  · exact Or.inl rfl
  · rename_i h rest hok
    split at hok
    · cases hok
    split at hok
    · cases hok
    rename_i hlong
    cases hok
    dsimp only
    split
    · exact Or.inr (Or.inl rfl)
    split
    · exact Or.inr (Or.inl rfl)
    rename_i hsame
    rw [not_not] at hsame
    have hrest : ((magicBytes ++ z).drop (16 - tail.length)).drop (readU32Le (tail.drop 8)).toNat =
        (magicBytes ++ z).drop (16 - tail.length + restLen tail) := List.drop_drop
    exact Or.inr (Or.inr ⟨_, congrArg (RecordRead.record _) hrest, Nat.not_lt.mp hlong, hsame⟩)

/-! ## An append that is corrupted -/

theorem walRecords_stop_of_record {f rest : Bytes} {r : WalRecord}
    (h : walReadRecord f = .record r rest) (hrest : walReadRecord rest = .badHeader) :
    (walRecords f).2 ≠ .eof := by
  have hlt := walReadRecord_rest_lt h
  rw [walRecords_of_record h]
  have hstop : (walRecords rest).2 = .badHeader := by
    cases hn : rest.length with
    | zero =>
        obtain rfl := List.length_eq_zero_iff.mp hn
        cases hrest
    | succ n => rw [walRecords, hn, walRecordsFuel, hrest]
  rw [hstop]
  decide

theorem walRecords_stop_of_bad {f : Bytes}
    (h : walReadRecord f = .badHeader ∨ walReadRecord f = .corrupt) : (walRecords f).2 ≠ .eof := by
  have hne : f ≠ [] := by
    rintro rfl
    rcases h with h | h <;> cases h
  obtain ⟨n, hn⟩ : ∃ n, f.length = n + 1 :=
    ⟨f.length - 1, by have := List.length_pos_iff.mpr hne; omega⟩
  rw [walRecords, hn, walRecordsFuel]
  rcases h with h | h
  · rw [h]
    show WalStop.badHeader ≠ .eof
    decide
  · rw [h]
    show WalStop.corrupt ≠ .eof
    decide

theorem oneEntryBytes_split (epoch : UInt64) {uri : Bytes} (h : cstr uri = uri) :
    ∃ front back, oneEntryBytes epoch uri = front ++ (uri ++ back) ∧ front.length = 48 ∧
      16 ≤ back.length := by
  obtain ⟨hdr, hframe, hhdr⟩ : ∃ hdr, frame ⟨recEntry, entryPayload ⟨uri, [], 0, 0, 0⟩⟩ =
      hdr ++ entryPayload ⟨uri, [], 0, 0, 0⟩ ∧ hdr.length = 16 := ⟨_, rfl, by simp⟩
  have hpayload : entryPayload ⟨uri, [], 0, 0, 0⟩ = writeU32Le (UInt32.ofNat uri.length) ++
      (uri ++ (writeU32Le 0 ++ (writeU64Le 0 ++ (writeU64Le 0 ++ writeU32Le 0)))) := by
    have hnil : cstr ([] : Bytes) = [] := rfl
    simp only [entryPayload, h, hnil, List.append_assoc, List.nil_append, List.length_nil]
    rfl
  refine ⟨frame ⟨recBatchBegin, beginPayload epoch 1⟩ ++
      (hdr ++ writeU32Le (UInt32.ofNat uri.length)),
    writeU32Le 0 ++ (writeU64Le 0 ++ (writeU64Le 0 ++ (writeU32Le 0 ++
      frame ⟨recBatchEnd, endPayload epoch 1 [crc32 (entryPayload ⟨uri, [], 0, 0, 0⟩)]⟩))),
    ?_, ?_, ?_⟩
  · rw [oneEntryBytes, hframe, hpayload]
    simp only [List.append_assoc]
  · simp only [List.length_append, length_frame, length_beginPayload, hhdr, length_writeU32Le]
  · simp only [List.length_append, length_frame, length_endPayload, length_writeU32Le]
    omega

theorem oneEntryBytes_no_magic : ∀ o < 48, 0 < o → o ≠ 28 →
    readU32Le ((oneEntryBytes 0 []).drop o) ≠ walMagic := by
  decide +kernel

theorem begin_told_apart : ∀ k < 16, 12 ≤ k →
    (List.zipWith (· ^^^ ·) (((oneEntryBytes 0 []).drop (16 - k)).take (12 + k))
      (((oneEntryBytes 1 []).drop (16 - k)).take (12 + k))).foldl crcByte 0 ≠ 0 := by
  decide +kernel

theorem oneEntryBytes_magic (epoch : UInt64) (uri : Bytes) :
    ∃ z, oneEntryBytes epoch uri = magicBytes ++ z := by
  have hmagic : writeU32Le walMagic ++ writeU16Le walVersion = magicBytes := by decide
  rw [oneEntryBytes, frame, hdrNoCrc, hmagic]
  simp only [List.append_assoc]
  exact ⟨_, rfl⟩

def longUri : Bytes := List.replicate 65508 120

theorem cstr_longUri : cstr longUri = longUri := by
  apply cstr_eq_self
  intro h
  exact absurd (List.eq_of_mem_replicate h) (by decide)

theorem oneEntryBytes_long_no_magic {o : Nat} (hlow : 48 ≤ o) (hhigh : o ≤ 65540) :
    16 ≤ ((oneEntryBytes 0 longUri).drop o).length ∧
      readU32Le ((oneEntryBytes 0 longUri).drop o) ≠ walMagic := by
  obtain ⟨front, back, hbytes, hfront, hback⟩ := oneEntryBytes_split 0 cstr_longUri
  have hlong : longUri.length = 65508 := List.length_replicate
  have hdrop : (oneEntryBytes 0 longUri).drop o =
      List.replicate (65508 - (o - 48)) 120 ++ back := by
    rw [hbytes, List.drop_append, List.drop_of_length_le (by omega), List.nil_append, hfront,
      List.drop_append_of_le_length (by omega), longUri, List.drop_replicate]
  have hword : ((oneEntryBytes 0 longUri).drop o).take 4 = List.replicate 4 120 := by
    rw [hdrop, List.take_append_of_le_length (by rw [List.length_replicate]; omega),
      List.take_replicate, Nat.min_eq_left (by omega)]
  refine ⟨?_, ?_⟩
  · rw [hdrop, List.length_append]
    omega
  · rw [readU32Le, hword]
    decide

/-- **Behind a torn header some append is corrupted.** -/
theorem exists_corrupted_append {tail : Bytes} (hpos : 0 < tail.length) (hlen : tail.length < 16) :
    ∃ epoch entries, (walAppendBatch epoch entries).2 = .ok ∧
      (walRecords (tail ++ (walAppendBatch epoch entries).1)).2 ≠ .eof := by
  by_contra hnone
  have hclean : ∀ epoch uri, (cstr uri).length ≤ 65508 →
      (walRecords (tail ++ oneEntryBytes epoch uri)).2 = .eof := by
    intro epoch uri huri
    by_contra hstop
    refine hnone ⟨epoch, oneEntry uri, oneEntry_ok epoch huri, ?_⟩
    rw [oneEntry_bytes epoch huri]
    exact hstop
  have hshort : ∀ epoch, 64 ≤ (oneEntryBytes epoch []).length := by
    intro epoch
    obtain ⟨front, back, hbytes, hfront, hback⟩ := oneEntryBytes_split epoch (show cstr [] = [] from rfl)
    rw [hbytes, List.length_append, List.length_append]
    omega
  by_cases hearly : tail.length < 12
  · obtain ⟨z, hz⟩ := oneEntryBytes_magic 0 []
    have hz10 : 10 ≤ z.length := by
      have hsize := congrArg List.length hz
      have hlong := hshort 0
      have hsix : magicBytes.length = 6 := rfl
      rw [List.length_append] at hsize
      omega
    refine walRecords_stop_of_bad (Or.inl ?_) (hclean 0 [] (by decide))
    rw [hz]
    exact walReadRecord_early_rest hpos hearly hz10
  -- an append that is not corrupted loses as many bytes as the rest says
  have hlate : ∀ epoch uri, (cstr uri).length ≤ 65508 →
      ∃ r, walReadRecord (tail ++ oneEntryBytes epoch uri) =
          .record r ((oneEntryBytes epoch uri).drop (16 - tail.length + restLen tail)) ∧
        restLen tail ≤ walMaxRecordBytes ∧
        crc32 (tail.take 12 ++
          ((oneEntryBytes epoch uri).drop (16 - tail.length)).take (restLen tail)) =
            restCrc tail := by
    intro epoch uri huri
    obtain ⟨z, hz⟩ := oneEntryBytes_magic epoch uri
    have hstop := hclean epoch uri huri
    rw [hz] at hstop ⊢
    rcases walReadRecord_late_rest (by omega) hlen z with hbad | hcorrupt | hrecord
    · exact absurd hstop (walRecords_stop_of_bad (Or.inl hbad))
    · exact absurd hstop (walRecords_stop_of_bad (Or.inr hcorrupt))
    · exact hrecord
  have hnot : ∀ epoch uri, (cstr uri).length ≤ 65508 →
      16 ≤ ((oneEntryBytes epoch uri).drop (16 - tail.length + restLen tail)).length →
      readU32Le ((oneEntryBytes epoch uri).drop (16 - tail.length + restLen tail)) = walMagic := by
    intro epoch uri huri hroom
    by_contra hmagic
    obtain ⟨r, hrecord, -⟩ := hlate epoch uri huri
    exact walRecords_stop_of_record hrecord (walReadRecord_badHeader hroom (Or.inl hmagic))
      (hclean epoch uri huri)
  obtain ⟨-, -, hmax, hcrc0⟩ := hlate 0 [] (by decide)
  unfold walMaxRecordBytes at hmax
  by_cases h48 : 48 ≤ 16 - tail.length + restLen tail
  · obtain ⟨hroom, hmagic⟩ := oneEntryBytes_long_no_magic h48 (by omega)
    exact hmagic (hnot 0 longUri (by rw [cstr_longUri]; exact (List.length_replicate).le) hroom)
  · have hroom : 16 ≤ ((oneEntryBytes 0 []).drop (16 - tail.length + restLen tail)).length := by
      have hlong := hshort 0
      rw [List.length_drop]
      omega
    have h28 : 16 - tail.length + restLen tail = 28 := by
      by_contra hne
      exact oneEntryBytes_no_magic _ (by omega) (by omega) hne (hnot 0 [] (by decide) hroom)
    obtain ⟨-, -, -, hcrc1⟩ := hlate 1 [] (by decide)
    have hrest : restLen tail = 12 + tail.length := by omega
    rw [hrest] at hcrc0 hcrc1
    refine crc32_append_ne (tail.take 12) ?_ (begin_told_apart _ hlen (by omega))
      (hcrc0.trans hcrc1.symm)
    have hlong0 := hshort 0
    have hlong1 := hshort 1
    rw [List.length_take, List.length_take, List.length_drop, List.length_drop]
    omega

end BlessStar.Persistence.Proofs.TornHeader
