import Mathlib.Data.Nat.Log
import BlessStar.Sdk.SchemaArea

/-!
# The hash of the schema reader

`xxhash32` of `schema_reader.ts` computes with numbers, that is with doubles,
what `bs_xxhash32` computes with 32-bit words.  A product of two words is the
exact one rounded to 53 significant bits, and `>>> 0` takes it modulo 2^32.
-/

namespace BlessStar.Sdk.ReaderHash

open Lib.ByteString Sdk.SchemaArea

def lastBit (n : Nat) : Nat := 2 ^ (n.log2 + 1 - 53)

def toDouble (n : Nat) : Nat :=
  let q := n / lastBit n
  let r := n % lastBit n
  if 2 * r < lastBit n ∨ (2 * r = lastBit n ∧ q % 2 = 0) then q * lastBit n
  else (q + 1) * lastBit n

/-- `(a * b) >>> 0`. -/
def mulNumbers (a b : UInt32) : UInt32 := UInt32.ofNat (toDouble (a.toNat * b.toNat))

/-- `(a * b + c) >>> 0`. -/
def mulAddNumbers (a b c : UInt32) : UInt32 :=
  UInt32.ofNat (toDouble (toDouble (a.toNat * b.toNat) + c.toNat))

/-- The loops of `xxhash32`. -/
def numbersLoop (h : UInt32) : Bytes → UInt32
  | a :: b :: c :: d :: rest =>
      let v := mulNumbers (UInt32.ofNat (leNat [a, b, c, d])) prime2
      let v := mulNumbers (rotateLeft v 13) prime1
      numbersLoop (mulAddNumbers (rotateLeft (h ^^^ v) 19) prime1 prime4) rest
  | rest =>
      rest.foldl (fun h b => mulNumbers (rotateLeft (h ^^^ mulNumbers b.toUInt32 prime5) 11) prime1) h

/-- `xxhash32` of `schema_reader.ts`. -/
def numbersXxhash32 (seed : UInt32) (data : Bytes) : UInt32 :=
  let h := numbersLoop (seed + prime5) data ^^^ UInt32.ofNat data.length
  let h := mulNumbers (h ^^^ (h >>> 15)) prime2
  let h := mulNumbers (h ^^^ (h >>> 13)) prime3
  h ^^^ (h >>> 16)

def bsXxhash32 (seed : UInt32) (data : Bytes) : UInt32 :=
  let h := xxhash32Loop (seed + prime5) data ^^^ UInt32.ofNat data.length
  let h := (h ^^^ (h >>> 15)) * prime2
  let h := (h ^^^ (h >>> 13)) * prime3
  h ^^^ (h >>> 16)

def IsDouble (n : Nat) : Prop := ∃ m k, m < 2 ^ 53 ∧ n = m * 2 ^ k

theorem toDouble_small {n : Nat} (hn : n < 2 ^ 53) : toDouble n = n := by
  have hlast : lastBit n = 1 := by
    by_cases hzero : n = 0
    · rw [hzero]
      rfl
    · have hlog : n.log2 < 53 := (Nat.log2_lt hzero).mpr hn
      rw [lastBit, Nat.sub_eq_zero_of_le (by omega), Nat.pow_zero]
  rw [toDouble, hlast]
  simp [Nat.mod_one]

theorem lastBit_pos (n : Nat) : 0 < lastBit n := Nat.two_pow_pos _

theorem toDouble_eq_iff (n : Nat) : toDouble n = n ↔ IsDouble n := by
  have hsplit := Nat.div_add_mod n (lastBit n)
  have hlt := Nat.mod_lt n (lastBit_pos n)
  rw [Nat.mul_comm] at hsplit
  constructor
  · intro h
    have hnext : (n / lastBit n + 1) * lastBit n = n / lastBit n * lastBit n + lastBit n :=
      Nat.succ_mul _ _
    have hexact : n = n / lastBit n * lastBit n := by
      rw [toDouble] at h
      split at h <;> omega
    refine ⟨n / lastBit n, n.log2 + 1 - 53, ?_, hexact⟩
    rw [Nat.div_lt_iff_lt_mul (lastBit_pos n), lastBit, ← Nat.pow_add]
    exact Nat.lt_log2_self.trans_le (Nat.pow_le_pow_right (by decide) (by omega))
  · rintro ⟨m, k, hm, heq⟩
    have hdvd : lastBit n ∣ n := by
      by_cases hzero : n = 0
      · rw [hzero]
        exact Nat.dvd_zero _
      · have hbound : n < 2 ^ (53 + k) := by
          rw [Nat.pow_add, heq]
          exact Nat.mul_lt_mul_of_pos_right hm (Nat.two_pow_pos k)
        have hlog : n.log2 < 53 + k := (Nat.log2_lt hzero).mpr hbound
        conv_rhs => rw [heq]
        exact (Nat.pow_dvd_pow 2 (by omega)).trans (Nat.dvd_mul_left _ _)
    have hzero : n % lastBit n = 0 := Nat.mod_eq_zero_of_dvd hdvd
    have hpos := lastBit_pos n
    rw [toDouble, if_pos (Or.inl (by omega)), Nat.div_mul_cancel hdvd]

instance (n : Nat) : Decidable (IsDouble n) := decidable_of_iff _ (toDouble_eq_iff n)

theorem toDouble_near (n : Nat) :
    2 * toDouble n ≤ 2 * n + lastBit n ∧ 2 * n ≤ 2 * toDouble n + lastBit n := by
  have hsplit := Nat.div_add_mod n (lastBit n)
  have hlt := Nat.mod_lt n (lastBit_pos n)
  have hnext : (n / lastBit n + 1) * lastBit n = n / lastBit n * lastBit n + lastBit n :=
    Nat.succ_mul _ _
  rw [Nat.mul_comm] at hsplit
  rw [toDouble]
  split <;> omega

theorem ofNat_toDouble_iff {n : Nat} (hn : n < 2 ^ 64) :
    UInt32.ofNat (toDouble n) = UInt32.ofNat n ↔ IsDouble n := by
  rw [← toDouble_eq_iff]
  constructor
  · intro h
    have hmod := congrArg UInt32.toNat h
    rw [UInt32.toNat_ofNat', UInt32.toNat_ofNat'] at hmod
    have hlast : lastBit n ≤ 2 ^ 11 := by
      by_cases hzero : n = 0
      · rw [hzero]
        decide
      · have hlog : n.log2 < 64 := (Nat.log2_lt hzero).mpr hn
        exact Nat.pow_le_pow_right (by decide) (by omega)
    have hnear := toDouble_near n
    omega
  · exact fun h => by rw [h]

def MulIsDouble (a b : UInt32) : Prop := IsDouble (a.toNat * b.toNat)

instance (a b : UInt32) : Decidable (MulIsDouble a b) := inferInstanceAs (Decidable (IsDouble _))

/-- **A product** of two words comes out right just when it has at most 53 significant bits. -/
theorem mulNumbers_eq_iff (a b : UInt32) : mulNumbers a b = a * b ↔ MulIsDouble a b := by
  have hwords : a.toNat * b.toNat < 2 ^ 32 * 2 ^ 32 := Nat.mul_lt_mul'' a.toNat_lt b.toNat_lt
  have hbound : a.toNat * b.toNat < 2 ^ 64 := hwords
  rw [MulIsDouble, ← ofNat_toDouble_iff hbound, UInt32.ofNat_mul, UInt32.ofNat_toNat, UInt32.ofNat_toNat]
  rfl

theorem mulNumbers_byte (b : UInt8) : mulNumbers b.toUInt32 prime5 = b.toUInt32 * prime5 := by
  rw [mulNumbers_eq_iff, MulIsDouble, ← toDouble_eq_iff]
  apply toDouble_small
  have hb := b.toNat_lt
  have hprime : prime5.toNat = 374761393 := rfl
  rw [UInt8.toNat_toUInt32, hprime]
  omega

/-- The product and its sum with `c` are right when the second rounding makes up for the
first. -/
def SumIsDouble (a b c : UInt32) : Prop :=
  toDouble (toDouble (a.toNat * b.toNat) + c.toNat) = a.toNat * b.toNat + c.toNat

instance (a b c : UInt32) : Decidable (SumIsDouble a b c) :=
  inferInstanceAs (Decidable (_ = _))

def BytesExact (h : UInt32) : Bytes → Prop
  | [] => True
  | b :: rest =>
      let g := rotateLeft (h ^^^ (b.toUInt32 * prime5)) 11
      MulIsDouble g prime1 ∧ BytesExact (g * prime1) rest

def wordOf (a b c d : UInt8) : UInt32 := UInt32.ofNat (leNat [a, b, c, d])

/-- No product of the loops of `bs_xxhash32` loses a bit. -/
inductive LoopExact : UInt32 → Bytes → Prop
  | bytes {h : UInt32} {rest : Bytes} : rest.length < 4 → BytesExact h rest → LoopExact h rest
  | word {h v g : UInt32} {a b c d : UInt8} {rest : Bytes} :
      v = rotateLeft (wordOf a b c d * prime2) 13 → g = rotateLeft (h ^^^ (v * prime1)) 19 →
      MulIsDouble (wordOf a b c d) prime2 → MulIsDouble v prime1 → SumIsDouble g prime1 prime4 →
      LoopExact (g * prime1 + prime4) rest → LoopExact h (a :: b :: c :: d :: rest)

/-- No product of `bs_xxhash32` loses a bit. -/
def RunExact (seed : UInt32) (data : Bytes) : Prop :=
  let h := xxhash32Loop (seed + prime5) data ^^^ UInt32.ofNat data.length
  let a := h ^^^ (h >>> 15)
  let b := (a * prime2) ^^^ ((a * prime2) >>> 13)
  LoopExact (seed + prime5) data ∧ MulIsDouble a prime2 ∧
    MulIsDouble b prime3

theorem mulAddNumbers_eq {a b c : UInt32} (h : SumIsDouble a b c) :
    mulAddNumbers a b c = a * b + c := by
  rw [mulAddNumbers, h, UInt32.ofNat_add, UInt32.ofNat_mul, UInt32.ofNat_toNat,
    UInt32.ofNat_toNat, UInt32.ofNat_toNat]

theorem numbersBytes_eq {h : UInt32} {rest : Bytes} (hexact : BytesExact h rest) :
    rest.foldl (fun h b => mulNumbers (rotateLeft (h ^^^ mulNumbers b.toUInt32 prime5) 11) prime1)
        h =
      rest.foldl (fun h b => rotateLeft (h ^^^ (b.toUInt32 * prime5)) 11 * prime1) h := by
  induction rest generalizing h with
  | nil => rw [List.foldl_nil, List.foldl_nil]
  | cons b rest ih =>
      simp only [BytesExact] at hexact
      rw [List.foldl_cons, List.foldl_cons, mulNumbers_byte,
        (mulNumbers_eq_iff _ _).mpr hexact.1]
      exact ih hexact.2

theorem xxhash32Loop_word (h : UInt32) (a b c d : UInt8) (rest : Bytes) :
    xxhash32Loop h (a :: b :: c :: d :: rest) =
      xxhash32Loop (rotateLeft (h ^^^ (rotateLeft (wordOf a b c d * prime2) 13 * prime1)) 19 *
        prime1 + prime4) rest := by
  delta xxhash32Loop
  rfl

theorem numbersLoop_word (h : UInt32) (a b c d : UInt8) (rest : Bytes) :
    numbersLoop h (a :: b :: c :: d :: rest) =
      numbersLoop (mulAddNumbers (rotateLeft (h ^^^
        mulNumbers (rotateLeft (mulNumbers (wordOf a b c d) prime2) 13) prime1) 19) prime1 prime4)
        rest := by
  delta numbersLoop
  rfl

theorem loops_bytes (h : UInt32) {rest : Bytes} (hshort : rest.length < 4) :
    xxhash32Loop h rest =
        rest.foldl (fun h b => rotateLeft (h ^^^ (b.toUInt32 * prime5)) 11 * prime1) h ∧
      numbersLoop h rest =
        rest.foldl
          (fun h b => mulNumbers (rotateLeft (h ^^^ mulNumbers b.toUInt32 prime5) 11) prime1) h := by
  have hlong : ∀ (a b c d : UInt8) (t : Bytes), ¬(a :: b :: c :: d :: t).length < 4 := by
    intro a b c d t
    simp only [List.length_cons]
    omega
  rcases rest with _ | ⟨a, _ | ⟨b, _ | ⟨c, _ | ⟨d, rest⟩⟩⟩⟩
  · exact ⟨by delta xxhash32Loop; rfl, by delta numbersLoop; rfl⟩
  · exact ⟨by delta xxhash32Loop; rfl, by delta numbersLoop; rfl⟩
  · exact ⟨by delta xxhash32Loop; rfl, by delta numbersLoop; rfl⟩
  · exact ⟨by delta xxhash32Loop; rfl, by delta numbersLoop; rfl⟩
  · exact absurd hshort (hlong a b c d rest)

theorem numbersLoop_eq {h : UInt32} {data : Bytes} (hexact : LoopExact h data) :
    numbersLoop h data = xxhash32Loop h data := by
  induction hexact with
  | @bytes h rest hshort hbytes =>
      rw [(loops_bytes h hshort).1, (loops_bytes h hshort).2, numbersBytes_eq hbytes]
  | word hv hg hword hrotated hsum _ ih =>
      rw [numbersLoop_word, xxhash32Loop_word, (mulNumbers_eq_iff _ _).mpr hword, ← hv,
        (mulNumbers_eq_iff _ _).mpr hrotated, ← hg, mulAddNumbers_eq hsum]
      exact ih

-- The condition is not necessary: this product of the loop is rounded, and the error is lost
-- in the products behind it.
example : ¬RunExact 976210006 [0] ∧
    numbersXxhash32 976210006 [0] = bsXxhash32 976210006 [0] := by
  refine ⟨fun hexact => ?_, by decide +kernel⟩
  obtain ⟨hloop, -, -⟩ := hexact
  cases hloop with
  | bytes _ hbytes => exact absurd hbytes.1 (by decide +kernel)

end BlessStar.Sdk.ReaderHash
