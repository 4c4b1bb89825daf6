import BlessStar.Lib.ByteString
import Mathlib.Data.List.Forall2
import Mathlib.Data.List.Infix

/-!
# Texts of characters

The UTF-8 bytes of a text.  A word stands in a text where its bytes stand in the bytes
of the text, since the first byte of a character is never a later byte of another.
Below it, what Unicode says of the lower case of a text, as far as words of ASCII
letters and Chinese characters can see it.
-/

namespace BlessStar.Lib.UnicodeText

open Lib.ByteString

def encode (s : List Char) : Bytes := s.flatMap String.utf8EncodeChar

@[simp] theorem encode_nil : encode [] = [] := rfl

@[simp] theorem encode_cons (c : Char) (s : List Char) :
    encode (c :: s) = String.utf8EncodeChar c ++ encode s := rfl

@[simp] theorem encode_append (s t : List Char) : encode (s ++ t) = encode s ++ encode t :=
  List.flatMap_append

theorem encodeChar_append_inj {c d : Char} {a b : Bytes}
    (h : String.utf8EncodeChar c ++ a = String.utf8EncodeChar d ++ b) : c = d ∧ a = b := by
  have hbytes := congrArg List.toByteArray h
  rw [List.toByteArray_append, List.toByteArray_append] at hbytes
  have hc := @ByteArray.utf8DecodeChar?_utf8EncodeChar_append a.toByteArray c
  have hd := @ByteArray.utf8DecodeChar?_utf8EncodeChar_append b.toByteArray d
  rw [hbytes, hd] at hc
  have heq : c = d := (Option.some.inj hc).symm
  subst heq
  exact ⟨rfl, List.append_cancel_left h⟩

theorem encodeChar_ne_nil (c : Char) : String.utf8EncodeChar c ≠ [] := by
  intro h
  have hlength := String.length_utf8EncodeChar c
  rw [h] at hlength
  exact absurd hlength.symm (Nat.ne_of_gt c.utf8Size_pos)

theorem encode_isPrefix {w s : List Char} : encode w <+: encode s ↔ w <+: s := by
  induction w generalizing s with
  | nil => simp
  | cons c w ih =>
    cases s with
    | nil =>
      simp
    | cons d s =>
      rw [List.cons_prefix_cons]
      constructor
      · rintro ⟨q, hq⟩
        rw [encode_cons, encode_cons, List.append_assoc] at hq
        have hsplit := encodeChar_append_inj hq
        exact ⟨hsplit.1, ih.mp ⟨q, hsplit.2⟩⟩
      · rintro ⟨rfl, q, rfl⟩
        exact ⟨encode q, by simp⟩

theorem encode_inj {s t : List Char} (h : encode s = encode t) : s = t := by
  have hst : s <+: t := encode_isPrefix.mp (h ▸ List.prefix_refl _)
  have hts : t <+: s := encode_isPrefix.mp (h ▸ List.prefix_refl _)
  exact hst.eq_of_length (Nat.le_antisymm hst.length_le hts.length_le)

theorem not_inside_of_encode {c d : Char} {w : List Char} {i : Nat} {q b : Bytes} (hpos : 0 < i)
    (hi : i < (String.utf8EncodeChar d).length) :
    String.utf8EncodeChar d ++ b ≠ (String.utf8EncodeChar d).take i ++ (encode (c :: w) ++ q) := by
  intro h
  have hlength : ((String.utf8EncodeChar d).take i).length = i :=
    List.length_take_of_le (Nat.le_of_lt hi)
  have hc : 0 < (String.utf8EncodeChar c).length := List.length_pos_of_ne_nil (encodeChar_ne_nil c)
  have hsame : (String.utf8EncodeChar d)[i] = (String.utf8EncodeChar c)[0] := by
    have hget := congrArg (·[i]?) h
    simp only [encode_cons, List.append_assoc] at hget
    rw [List.getElem?_append_left hi, List.getElem?_append_right (by omega), hlength, Nat.sub_self,
      List.getElem?_append_left hc, List.getElem?_eq_getElem hi, List.getElem?_eq_getElem hc] at hget
    exact Option.some.inj hget
  have hfirst : ((String.utf8EncodeChar d)[i]).IsUTF8FirstByte := by
    rw [hsame]
    exact UInt8.isUTF8FirstByte_getElem_utf8EncodeChar.mpr rfl
  have hzero : i = 0 := UInt8.isUTF8FirstByte_getElem_utf8EncodeChar.mp hfirst
  omega

theorem encode_infix {w s : List Char} (hne : w ≠ []) : encode w <:+: encode s ↔ w <:+: s := by
  induction s with
  | nil =>
    have hbytes : encode w ≠ [] := by
      cases w with
      | nil => exact absurd rfl hne
      | cons c w => simp
    simp [hne, hbytes]
  | cons d s ih =>
    rw [List.infix_cons_iff, ← encode_isPrefix, ← ih]
    constructor
    · rintro ⟨p, q, h⟩
      rw [encode_cons, List.append_assoc, List.append_eq_append_iff] at h
      rcases h with ⟨t, hd, hrest⟩ | ⟨t, hp, hrest⟩
      · by_cases hnil : p = []
        · left
          rw [hnil, List.nil_append] at hd
          rw [encode_cons, hd, ← hrest]
          exact List.prefix_append _ _
        · by_cases ht : t = []
          · right
            rw [ht, List.nil_append] at hrest
            exact ⟨[], q, hrest⟩
          · -- the word begins inside of the first character
            obtain ⟨c, w, rfl⟩ := List.exists_cons_of_ne_nil hne
            have hlength := congrArg List.length hd
            rw [List.length_append] at hlength
            have hpos := List.length_pos_of_ne_nil hnil
            have hrestPos := List.length_pos_of_ne_nil ht
            have htake : (String.utf8EncodeChar d).take p.length = p := by simp [hd]
            have hinside := not_inside_of_encode (c := c) (d := d) (w := w) (q := q) (b := encode s)
              hpos (by omega)
            refine absurd ?_ hinside
            rw [htake, hrest, ← List.append_assoc, ← hd]
      · right
        exact ⟨t, q, by rw [hrest, List.append_assoc]⟩
    · rintro (h | h)
      · exact h.isInfix
      · exact h.trans (List.suffix_append _ _).isInfix

/-! ## Lower case -/

def IsHan (c : Char) : Prop := 0x4E00 ≤ c.toNat ∧ c.toNat ≤ 0x9FFF

instance : DecidablePred IsHan := fun c =>
  inferInstanceAs (Decidable (0x4E00 ≤ c.toNat ∧ c.toNat ≤ 0x9FFF))

/-- What the lower case of a text has for one of its characters.  Outside of ASCII only
the dotted capital I and the Kelvin sign have ASCII letters in theirs. -/
inductive LowersTo : Char → List Char → Prop
  | ascii {c : Char} (h : c.toNat < 128) : LowersTo c [c.toLower]
  | han {c : Char} (h : IsHan c) : LowersTo c [c]
  | dottedCapital : LowersTo '\u0130' ['i', '\u0307']
  | kelvin : LowersTo '\u212a' ['k']
  | other {c : Char} {l : List Char} (h : 128 ≤ c.toNat ∧ ¬ IsHan c) (hne : l ≠ [])
      (hl : ∀ d ∈ l, 128 ≤ d.toNat ∧ ¬ IsHan d) : LowersTo c l

def TakesToLowerCase (f : List Char → List Char) : Prop :=
  ∀ s, ∃ parts, List.Forall₂ LowersTo s parts ∧ f s = parts.flatten

def IsPlain (c : Char) : Prop := (c.toNat < 128 ∧ c ≠ 'k') ∨ IsHan c

instance : DecidablePred IsPlain := fun c =>
  inferInstanceAs (Decidable ((c.toNat < 128 ∧ c ≠ 'k') ∨ IsHan c))

structure IsPlainWord (w : List Char) : Prop where
  plain : ∀ c ∈ w, IsPlain c
  last : w.getLast? ≠ some 'i'

theorem IsPlainWord.tail {c : Char} {w : List Char} (h : IsPlainWord (c :: w)) : IsPlainWord w where
  plain := fun d hd => h.plain d (List.mem_cons_of_mem _ hd)
  last := by
    cases w with
    | nil => simp
    | cons d w => simpa using h.last

theorem not_isPlain_of_other {c : Char} (h : 128 ≤ c.toNat ∧ ¬ IsHan c) : ¬ IsPlain c := by
  rintro (hascii | hhan)
  · omega
  · exact h.2 hhan

theorem toLower_eq_self {c : Char} (h : 128 ≤ c.toNat) : c.toLower = c := by
  unfold Char.toLower
  rw [dif_neg]
  rintro ⟨_, hle⟩
  have : c.toNat ≤ 90 := hle
  omega

theorem LowersTo.prefix_iff {c : Char} {l : List Char} (h : LowersTo c l) {s parts w : List Char}
    (ih : ∀ w, IsPlainWord w → (w <+: parts ↔ w <+: s)) (hw : IsPlainWord w) :
    w <+: l ++ parts ↔ w <+: c.toLower :: s := by
  cases w with
  | nil => simp
  | cons a w =>
    have ha : IsPlain a := hw.plain a (List.mem_cons_self ..)
    rw [List.cons_prefix_cons]
    cases h with
    | ascii => rw [List.singleton_append, List.cons_prefix_cons, ih w hw.tail]
    | han h =>
      have hlower : c.toLower = c := toLower_eq_self (by have := h.1; omega)
      rw [List.singleton_append, List.cons_prefix_cons, hlower, ih w hw.tail]
    | dottedCapital =>
      have hleft : ¬ a :: w <+: ['i', '\u0307'] ++ parts := by
        intro h
        rw [List.cons_append, List.cons_prefix_cons] at h
        obtain ⟨rfl, h⟩ := h
        cases w with
        | nil => exact hw.last rfl
        | cons b w =>
          rw [List.singleton_append, List.cons_prefix_cons] at h
          have hb : IsPlain b := hw.tail.plain b (List.mem_cons_self ..)
          rw [h.1] at hb
          exact absurd hb (by decide)
      have hright : a ≠ Char.toLower '\u0130' := by
        rintro rfl
        exact absurd ha (by decide)
      exact iff_of_false hleft fun h => hright h.1
    | kelvin =>
      have hleft : a ≠ 'k' := by
        rintro rfl
        exact absurd ha (by decide)
      have hright : a ≠ Char.toLower '\u212a' := by
        rintro rfl
        exact absurd ha (by decide)
      rw [List.singleton_append, List.cons_prefix_cons]
      exact iff_of_false (fun h => hleft h.1) fun h => hright h.1
    | other h hne hl =>
      obtain ⟨d, l, rfl⟩ := List.exists_cons_of_ne_nil hne
      have hleft : a ≠ d := by
        rintro rfl
        exact not_isPlain_of_other (hl a (List.mem_cons_self ..)) ha
      have hright : a ≠ c.toLower := by
        rw [toLower_eq_self h.1]
        rintro rfl
        exact not_isPlain_of_other h ha
      rw [List.cons_append, List.cons_prefix_cons]
      exact iff_of_false (fun h => hleft h.1) fun h => hright h.1

theorem lowered_prefix_iff {s : List Char} {parts : List (List Char)}
    (h : List.Forall₂ LowersTo s parts) :
    ∀ w, IsPlainWord w → (w <+: parts.flatten ↔ w <+: s.map Char.toLower) := by
  induction h with
  | nil => simp
  | cons hc _ ih =>
    intro w hw
    rw [List.flatten_cons, List.map_cons]
    exact hc.prefix_iff ih hw

theorem LowersTo.tail_not_plain {c : Char} {l : List Char} (h : LowersTo c l) :
    ∀ d ∈ l.tail, ¬ IsPlain d := by
  cases h with
  | ascii => simp
  | han => simp
  | dottedCapital =>
    intro d hd
    rw [List.mem_singleton.mp hd]
    decide
  | kelvin => simp
  | other h hne hl =>
    intro d hd
    exact not_isPlain_of_other (hl d (List.mem_of_mem_tail hd))

theorem infix_append_of_not_plain {w l s : List Char} (hw : IsPlainWord w) (hne : w ≠ [])
    (hl : ∀ d ∈ l, ¬ IsPlain d) : w <:+: l ++ s ↔ w <:+: s := by
  obtain ⟨a, w, rfl⟩ := List.exists_cons_of_ne_nil hne
  induction l with
  | nil => rfl
  | cons d l ih =>
    have hd : a ≠ d := by
      rintro rfl
      exact hl a (List.mem_cons_self ..) (hw.plain a (List.mem_cons_self ..))
    rw [List.cons_append, List.infix_cons_iff, List.cons_prefix_cons,
      ih fun d h => hl d (List.mem_cons_of_mem _ h)]
    simp [hd]

theorem lowered_infix_iff {s : List Char} {parts : List (List Char)}
    (h : List.Forall₂ LowersTo s parts) {w : List Char} (hw : IsPlainWord w) (hne : w ≠ []) :
    w <:+: parts.flatten ↔ w <:+: s.map Char.toLower := by
  induction h with
  | nil => simp
  | @cons c l s parts hc hs ih =>
    have hl : l ≠ [] := by cases hc <;> simp_all
    obtain ⟨d, l, rfl⟩ := List.exists_cons_of_ne_nil hl
    have hprefix := hc.prefix_iff (lowered_prefix_iff hs) hw
    rw [List.cons_append] at hprefix
    have hrest := infix_append_of_not_plain (s := parts.flatten) hw hne hc.tail_not_plain
    rw [List.tail_cons] at hrest
    rw [List.flatten_cons, List.cons_append, List.infix_cons_iff, List.map_cons,
      List.infix_cons_iff, hprefix, hrest, ih]

theorem TakesToLowerCase.infix_iff {f : List Char → List Char} (hf : TakesToLowerCase f)
    {w : List Char} (hw : IsPlainWord w) (hne : w ≠ []) (s : List Char) :
    w <:+: f s ↔ w <:+: s.map Char.toLower := by
  obtain ⟨parts, hparts, heq⟩ := hf s
  rw [heq]
  exact lowered_infix_iff hparts hw hne

end BlessStar.Lib.UnicodeText
