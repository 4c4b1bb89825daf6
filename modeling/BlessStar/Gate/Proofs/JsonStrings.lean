import BlessStar.Gate.Json
import BlessStar.Lib.JsonText

/-!
# Escaped strings

What `json_escape` writes is the body of a JSON string, and decodes to the
string it was given.
-/

namespace BlessStar.Gate

open Lib.ByteString
open Lib.JsonText hiding ch

theorem body_escape {c e : UInt8} (he : e ∈ ascii "\"\\/bfnrt") (hc : Lib.JsonText.unescape e = c)
    {body : Bytes} (hb : IsBody body) :
    IsBody (ch '\\' :: e :: body) ∧
      decode (ch '\\' :: e :: body) = c :: decode body := by
  have hne : e ≠ Lib.JsonText.ch 'u' := fun h => absurd (h ▸ he) (by decide)
  refine ⟨.escape he hb, ?_⟩
  rw [decode, units_escape hne, hc]
  rfl

theorem hex4_control : ∀ n < 32,
    (∀ d ∈ [ch '0', ch '0', digitByte (n / 16), digitByte (n % 16)],
        (digitValue 16 d).isSome = true) ∧
      utf8 (hex4 (ch '0') (ch '0') (digitByte (n / 16)) (digitByte (n % 16))) =
        [UInt8.ofNat n] ∧
      hex4 (ch '0') (ch '0') (digitByte (n / 16)) (digitByte (n % 16)) < 0xD800 := by
  decide

theorem encode_code {n : Nat} (hn : n < 0xD800) (us : List CodeUnit) :
    encode (.code n :: us) = utf8 n ++ encode us := by
  have hsurrogate : ¬0xD800 ≤ n := by omega
  rw [encode.eq_def]
  dsimp only
  split
  · rw [if_neg fun h => hsurrogate h.1]
  · rfl

theorem body_escapeByte (c : UInt8) {body : Bytes} (hb : IsBody body) :
    IsBody (jsonEscapeByte c ++ body) ∧
      decode (jsonEscapeByte c ++ body) = c :: decode body := by
  by_cases hquote : c = ch '"'
  · subst hquote
    exact body_escape (by decide) (by decide) hb
  by_cases hslash : c = ch '\\'
  · subst hslash
    exact body_escape (by decide) (by decide) hb
  by_cases h10 : c = 10
  · subst h10
    exact body_escape (by decide) (by decide) hb
  by_cases h13 : c = 13
  · subst h13
    exact body_escape (by decide) (by decide) hb
  by_cases h9 : c = 9
  · subst h9
    exact body_escape (by decide) (by decide) hb
  rw [jsonEscapeByte, if_neg hquote, if_neg hslash, if_neg h10, if_neg h13, if_neg h9]
  by_cases hlow : c < 32
  · obtain ⟨hdigits, hvalue, hsmall⟩ := hex4_control c.toNat (UInt8.lt_iff_toNat_lt.mp hlow)
    rw [if_pos hlow]
    have hshape : ascii "\\u00" ++ [digitByte (c.toNat / 16), digitByte (c.toNat % 16)] ++ body =
        ch '\\' :: ch 'u' :: ch '0' :: ch '0' :: digitByte (c.toNat / 16) ::
          digitByte (c.toNat % 16) :: body := rfl
    rw [hshape]
    refine ⟨.unicode hdigits hb, ?_⟩
    rw [decode, units_unicode, encode_code hsmall, hvalue, UInt8.ofNat_toNat]
    rfl
  · rw [if_neg hlow]
    refine ⟨.raw (UInt8.not_lt.mp hlow) hquote hslash hb, ?_⟩
    have hone : [c] ++ body = c :: body := rfl
    rw [hone, decode, units_byte hslash]
    rfl

theorem body_jsonEscape (s : Bytes) :
    IsBody (s.flatMap jsonEscapeByte) ∧ decode (s.flatMap jsonEscapeByte) = s := by
  induction s with
  | nil => exact ⟨.nil, rfl⟩
  | cons c s ih =>
      rw [List.flatMap_cons]
      obtain ⟨hbody, hdecode⟩ := body_escapeByte c ih.1
      exact ⟨hbody, by rw [hdecode, ih.2]⟩

end BlessStar.Gate
