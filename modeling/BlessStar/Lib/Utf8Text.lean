import BlessStar.Lib.ByteString

/-!
# Texts in UTF-8 and UTF-16

Strings of UTF-16 code units, and the bytes they are written with.  Bytes are
decoded as web platforms do it: what does not belong to a well-formed sequence
becomes a replacement character, and the byte that breaks a sequence off begins
the next one.  A surrogate by itself is encoded as the replacement character.
-/

namespace BlessStar.Lib.Utf8Text

open Lib.ByteString

abbrev Utf16 := List UInt16

def replacement : UInt16 := 0xFFFD

/-- The rest of a sequence: how many bytes, the range of the next, and the bits
so far. -/
structure Pending where
  needed : Nat
  lower : UInt8
  upper : UInt8
  bits : Nat

inductive Lead
  | unit (u : UInt16)
  | pending (p : Pending)

def lead (b : UInt8) : Lead :=
  if b < 0x80 then .unit b.toUInt16
  else if 0xC2 ≤ b ∧ b ≤ 0xDF then .pending ⟨1, 0x80, 0xBF, b.toNat - 0xC0⟩
  else if 0xE0 ≤ b ∧ b ≤ 0xEF then
    .pending ⟨2, if b = 0xE0 then 0xA0 else 0x80, if b = 0xED then 0x9F else 0xBF,
      b.toNat - 0xE0⟩
  else if 0xF0 ≤ b ∧ b ≤ 0xF4 then
    .pending ⟨3, if b = 0xF0 then 0x90 else 0x80, if b = 0xF4 then 0x8F else 0xBF,
      b.toNat - 0xF0⟩
  else .unit replacement

def utf16 (n : Nat) : Utf16 :=
  if n < 0x10000 then [UInt16.ofNat n]
  else [UInt16.ofNat (0xD800 + (n - 0x10000) / 0x400), UInt16.ofNat (0xDC00 + n % 0x400)]

/-- The code units of the bytes behind a sequence that has begun, if one has. -/
def decodeFrom : Option Pending → Bytes → Utf16
  | none, [] => []
  | some _, [] => [replacement]
  | none, b :: bs =>
      match lead b with
      | .unit u => u :: decodeFrom none bs
      | .pending p => decodeFrom (some p) bs
  | some p, b :: bs =>
      if p.lower ≤ b ∧ b ≤ p.upper then
        let bits := p.bits * 64 + b.toNat % 64
        if p.needed = 1 then utf16 bits ++ decodeFrom none bs
        else decodeFrom (some ⟨p.needed - 1, 0x80, 0xBF, bits⟩) bs
      else
        replacement ::
          match lead b with
          | .unit u => u :: decodeFrom none bs
          | .pending p => decodeFrom (some p) bs

def decode (bs : Bytes) : Utf16 := decodeFrom none bs

def utf8 (n : Nat) : Bytes :=
  if n < 0x80 then [UInt8.ofNat n]
  else if n < 0x800 then [UInt8.ofNat (0xC0 + n / 64), UInt8.ofNat (0x80 + n % 64)]
  else if n < 0x10000 then
    [UInt8.ofNat (0xE0 + n / 4096), UInt8.ofNat (0x80 + n / 64 % 64),
      UInt8.ofNat (0x80 + n % 64)]
  else
    [UInt8.ofNat (0xF0 + n / 262144), UInt8.ofNat (0x80 + n / 4096 % 64),
      UInt8.ofNat (0x80 + n / 64 % 64), UInt8.ofNat (0x80 + n % 64)]

def IsHigh (u : UInt16) : Prop := 0xD800 ≤ u ∧ u < 0xDC00

def IsLow (u : UInt16) : Prop := 0xDC00 ≤ u ∧ u < 0xE000

instance : DecidablePred IsHigh := fun u => inferInstanceAs (Decidable (0xD800 ≤ u ∧ u < 0xDC00))

instance : DecidablePred IsLow := fun u => inferInstanceAs (Decidable (0xDC00 ≤ u ∧ u < 0xE000))

def encode : Utf16 → Bytes
  | [] => []
  | [u] => utf8 (if IsHigh u ∨ IsLow u then replacement else u).toNat
  | u :: v :: us =>
      if IsHigh u ∧ IsLow v then
        utf8 (0x10000 + (u.toNat - 0xD800) * 0x400 + (v.toNat - 0xDC00)) ++ encode us
      else utf8 (if IsHigh u ∨ IsLow u then replacement else u).toNat ++ encode (v :: us)

def IsUtf8 (bs : Bytes) : Prop := encode (decode bs) = bs

instance : DecidablePred IsUtf8 := fun bs => inferInstanceAs (Decidable (encode (decode bs) = bs))

theorem IsUtf8.eq_of_decode {bs : Bytes} (h : IsUtf8 bs) {s : Utf16} (hs : decode bs = s) :
    bs = encode s := by
  rw [← hs]
  exact h.symm

end BlessStar.Lib.Utf8Text
