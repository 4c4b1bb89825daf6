import Mathlib.Data.List.TakeWhile
import Mathlib.Data.Nat.Digits.Lemmas

/-!
# Byte strings

C buffers and file contents as lists of bytes, with the three encodings that
on-disk formats are built from: fixed-width little-endian words, positional
numerals as `printf` writes them and `strtoull` reads them back, and text
split into lines.
-/

namespace BlessStar.Lib.ByteString

/-- The contents of a C buffer, of a `std::string` or of a file. -/
abbrev Bytes := List UInt8

def ascii (s : String) : Bytes := s.toList.map fun c => c.toNat.toUInt8

instance (priority := high) decidableForallMemBytes {p : UInt8 → Prop} [DecidablePred p]
    (s : Bytes) : Decidable (∀ c ∈ s, p c) := List.decidableBAll p s

def cstr (s : Bytes) : Bytes := s.takeWhile (· ≠ 0)

theorem cstr_eq_self {s : Bytes} (h : (0 : UInt8) ∉ s) : cstr s = s := by
  rw [cstr, List.takeWhile_eq_self_iff]
  intro b hb
  have hne : b ≠ 0 := fun h0 => h (h0 ▸ hb)
  simpa using hne

theorem cstr_prefix (s : Bytes) : cstr s <+: s := List.takeWhile_prefix _

theorem not_zero_mem_cstr (s : Bytes) : (0 : UInt8) ∉ cstr s := by
  intro h
  simpa using List.mem_takeWhile_imp h

/-- The `width` low bytes of `n`, least significant first. -/
def leBytes : Nat → Nat → Bytes
  | 0, _ => []
  | width + 1, n => UInt8.ofNat (n % 256) :: leBytes width (n / 256)

/-- The number whose base-256 digits are `bs`, least significant first. -/
def leNat : Bytes → Nat
  | [] => 0
  | b :: bs => b.toNat + 256 * leNat bs

@[simp] theorem length_leBytes (width n : Nat) : (leBytes width n).length = width := by
  induction width generalizing n with
  | zero => rfl
  | succ width ih => simp [leBytes, ih]

theorem leNat_leBytes {width n : Nat} (h : n < 256 ^ width) : leNat (leBytes width n) = n := by
  induction width generalizing n with
  | zero =>
      have hn : n = 0 := by simpa using h
      rw [hn]
      rfl
  | succ width ih =>
      have hdiv : n / 256 < 256 ^ width := by
        rw [Nat.div_lt_iff_lt_mul (by omega)]
        calc
          n < 256 ^ (width + 1) := h
          _ = 256 ^ width * 256 := by rw [Nat.pow_succ]
      have hbyte : (UInt8.ofNat (n % 256)).toNat = n % 256 := by simp
      rw [leBytes, leNat, ih hdiv, hbyte]
      exact Nat.mod_add_div n 256

def digitByte (d : Nat) : UInt8 :=
  if d < 10 then UInt8.ofNat (48 + d) else UInt8.ofNat (87 + d)

/-- The value of a digit character in `base`, as `strtoull` reads it. -/
def digitValue (base : Nat) (b : UInt8) : Option Nat :=
  let v :=
    if 48 ≤ b.toNat ∧ b.toNat ≤ 57 then b.toNat - 48
    else if 97 ≤ b.toNat ∧ b.toNat ≤ 122 then b.toNat - 87
    else if 65 ≤ b.toNat ∧ b.toNat ≤ 90 then b.toNat - 55
    else base
  if v < base then some v else none

/-- The digits of `n` without leading zeros (`0` itself has one digit). -/
def numeral (base n : Nat) : Bytes :=
  if n = 0 then [48] else (Nat.digits base n).reverse.map digitByte

/-- `std::to_string` of an unsigned integer. -/
def decimal (n : Nat) : Bytes := numeral 10 n

/-- The values of the longest prefix of digits in `base`. -/
def digitsPrefix (base : Nat) : Bytes → List Nat
  | [] => []
  | b :: bs =>
      match digitValue base b with
      | some d => d :: digitsPrefix base bs
      | none => []

/-- `isspace` in the C locale. -/
def isSpace (b : UInt8) : Bool := b = 32 ∨ (9 ≤ b ∧ b ≤ 13)

/-- The optional `0x` of base 16, taken only when a digit follows it. -/
def dropHexPrefix (base : Nat) : Bytes → Bytes
  | 48 :: x :: d :: rest =>
      if base = 16 ∧ (x = 120 ∨ x = 88) ∧ (digitValue 16 d).isSome then d :: rest
      else 48 :: x :: d :: rest
  | s => s

/-- `strtoull(s, NULL, base)` for `base` 10 or 16: white space, a sign, for
base 16 an optional `0x`, then the longest run of digits; `ULLONG_MAX` on
overflow. -/
def strtoull (base : Nat) (s : Bytes) : UInt64 :=
  let s := s.dropWhile isSpace
  let neg := s.head? = some 45
  let s := if s.head? = some 45 ∨ s.head? = some 43 then s.drop 1 else s
  let n := (digitsPrefix base (dropHexPrefix base s)).foldl (fun acc d => acc * base + d) 0
  if 2 ^ 64 ≤ n then UInt64.ofNat (2 ^ 64 - 1)
  else if neg then 0 - UInt64.ofNat n
  else UInt64.ofNat n

theorem digitByte_toNat {d : Nat} (h : d < 16) :
    (digitByte d).toNat = if d < 10 then 48 + d else 87 + d := by
  unfold digitByte
  split <;> simp <;> omega

theorem digitValue_digitByte {base d : Nat} (hbase : base ≤ 16) (h : d < base) :
    digitValue base (digitByte d) = some d := by
  have hd : d < 16 := by omega
  unfold digitValue
  rw [digitByte_toNat hd]
  by_cases h10 : d < 10
  · have hr : 48 ≤ 48 + d ∧ 48 + d ≤ 57 := by omega
    have hv : 48 + d - 48 = d := by omega
    simp only [if_pos h10, if_pos hr, hv, if_pos h]
  · have hnr : ¬(48 ≤ 87 + d ∧ 87 + d ≤ 57) := by omega
    have hr : 97 ≤ 87 + d ∧ 87 + d ≤ 122 := by omega
    have hv : 87 + d - 87 = d := by omega
    simp only [if_neg h10, if_neg hnr, if_pos hr, hv, if_pos h]

def IsDigit (base : Nat) (b : UInt8) : Prop := ∃ d < base, b = digitByte d

theorem isDigit_of_mem_numeral {base n : Nat} (hbase : 1 < base) {b : UInt8}
    (hb : b ∈ numeral base n) : IsDigit base b := by
  unfold numeral at hb
  split at hb
  · exact ⟨0, by omega, by simpa [digitByte] using hb⟩
  · rw [List.mem_map] at hb
    obtain ⟨d, hd, rfl⟩ := hb
    exact ⟨d, Nat.digits_lt_base hbase (List.mem_reverse.mp hd), rfl⟩

theorem numeral_ne_nil (base n : Nat) : numeral base n ≠ [] := by
  unfold numeral
  split
  · simp
  · rename_i hn
    simpa [Nat.digits_ne_nil_iff_ne_zero] using hn

theorem IsDigit.toNat_cases {base : Nat} (hbase : base ≤ 16) {b : UInt8} (h : IsDigit base b) :
    (48 ≤ b.toNat ∧ b.toNat ≤ 57) ∨ (97 ≤ b.toNat ∧ b.toNat ≤ 102) := by
  obtain ⟨d, hd, rfl⟩ := h
  rw [digitByte_toNat (by omega)]
  split <;> omega

theorem IsDigit.ne_of_toNat {base : Nat} (hbase : base ≤ 16) {b c : UInt8} (h : IsDigit base b)
    (hc : c.toNat < 48 ∨ (57 < c.toNat ∧ c.toNat < 97) ∨ 102 < c.toNat) : b ≠ c := by
  rintro rfl
  have := h.toNat_cases hbase
  omega

theorem IsDigit.decimal_range {b : UInt8} (h : IsDigit 10 b) : 48 ≤ b.toNat ∧ b.toNat ≤ 57 := by
  obtain ⟨d, hd, rfl⟩ := h
  rw [digitByte_toNat (by omega)]
  split <;> omega

theorem digitsPrefix_map {base : Nat} (hbase : base ≤ 16) (ds : List Nat)
    (hds : ∀ d ∈ ds, d < base) : digitsPrefix base (ds.map digitByte) = ds := by
  induction ds with
  | nil => rfl
  | cons d ds ih =>
      have hd : d < base := hds d (by simp)
      rw [List.map_cons, digitsPrefix, digitValue_digitByte hbase hd]
      simp only
      rw [ih fun x hx => hds x (by simp [hx])]

theorem foldl_digits_reverse (base : Nat) (ds : List Nat) :
    ds.reverse.foldl (fun acc d => acc * base + d) 0 = Nat.ofDigits base ds := by
  rw [List.foldl_reverse, Nat.ofDigits_eq_foldr]
  congr 1
  funext d acc
  simp [Nat.mul_comm, Nat.add_comm]

theorem value_numeral {base : Nat} (h1 : 1 < base) (hbase : base ≤ 16) (n : Nat) :
    (digitsPrefix base (numeral base n)).foldl (fun acc d => acc * base + d) 0 = n := by
  unfold numeral
  split
  · rename_i hn
    have h0 : digitsPrefix base [digitByte 0] = [0] :=
      digitsPrefix_map hbase [0] (by simp; omega)
    rw [show ([48] : Bytes) = [digitByte 0] by rfl, h0, hn]
    simp
  · rw [digitsPrefix_map hbase, foldl_digits_reverse, Nat.ofDigits_digits]
    intro d hd
    exact Nat.digits_lt_base h1 (List.mem_reverse.mp hd)

theorem numeral_inj {base : Nat} (h1 : 1 < base) (hbase : base ≤ 16) {m n : Nat}
    (h : numeral base m = numeral base n) : m = n := by
  rw [← value_numeral h1 hbase m, h, value_numeral h1 hbase n]

theorem decimal_inj {m n : Nat} (h : decimal m = decimal n) : m = n :=
  numeral_inj (by decide) (by decide) h

theorem dropHexPrefix_eq_self (base : Nat) {s : Bytes}
    (h : ∀ b ∈ s, (48 ≤ b.toNat ∧ b.toNat ≤ 57) ∨ (97 ≤ b.toNat ∧ b.toNat ≤ 102)) :
    dropHexPrefix base s = s := by
  unfold dropHexPrefix
  split
  · rename_i x d rest
    have hx := h x (by simp)
    rw [if_neg]
    rintro ⟨-, rfl | rfl, -⟩ <;> simp at hx
  · rfl

theorem strtoull_numeral {base : Nat} (h1 : 1 < base) (hbase : base ≤ 16) (n : UInt64) :
    strtoull base (numeral base n.toNat) = n := by
  have hdigit : ∀ b ∈ numeral base n.toNat, IsDigit base b := fun b hb =>
    isDigit_of_mem_numeral h1 hb
  -- no leading white space, no sign and no `0x`: every byte is a digit
  have hspace : (numeral base n.toNat).dropWhile isSpace = numeral base n.toNat := by
    rw [List.dropWhile_eq_self_iff]
    intro hl hsp
    have hr := (hdigit _ (List.getElem_mem hl)).toNat_cases hbase
    simp only [isSpace, decide_eq_true_eq, UInt8.le_iff_toNat_le, ← UInt8.toNat_inj] at hsp
    simp only [UInt8.reduceToNat] at hsp
    omega
  have hhead : ∀ c : UInt8, c.toNat < 48 → (numeral base n.toNat).head? ≠ some c := by
    intro c hc hh
    exact (hdigit c (List.mem_of_mem_head? hh)).ne_of_toNat hbase (Or.inl hc) rfl
  have hminus := hhead 45 (by decide)
  have hplus := hhead 43 (by decide)
  have hx := dropHexPrefix_eq_self base fun b hb => (hdigit b hb).toNat_cases hbase
  unfold strtoull
  simp only [hspace, hminus, hplus, hx, if_false, or_self]
  rw [value_numeral h1 hbase, if_neg (by have := n.toNat_lt; omega)]
  simp

theorem digitsPrefix_append {base : Nat} (hbase : base ≤ 16) {s rest : Bytes}
    (hs : ∀ b ∈ s, IsDigit base b) (hrest : ∀ c ∈ rest.head?, digitValue base c = none) :
    digitsPrefix base (s ++ rest) = digitsPrefix base s := by
  induction s with
  | nil =>
      cases rest with
      | nil => rfl
      | cons c rest => simp only [List.nil_append, digitsPrefix, hrest c rfl]
  | cons b s ih =>
      obtain ⟨⟨d, hd, rfl⟩, htail⟩ := List.forall_mem_cons.mp hs
      rw [List.cons_append, digitsPrefix, digitsPrefix, digitValue_digitByte hbase hd]
      simp only
      rw [ih htail]

theorem head_digits {s : Bytes} (hs : ∀ b ∈ s, IsDigit 10 b) (hne : s ≠ []) (rest : Bytes) :
    (s ++ rest).dropWhile isSpace = s ++ rest ∧ (s ++ rest).head? ≠ some 45 ∧
      (s ++ rest).head? ≠ some 43 := by
  obtain ⟨d, ds, rfl⟩ := List.exists_cons_of_ne_nil hne
  have hrange := (hs d List.mem_cons_self).decimal_range
  have hd : isSpace d = false := by
    simp only [isSpace, decide_eq_false_iff_not, UInt8.le_iff_toNat_le, ← UInt8.toNat_inj,
      UInt8.reduceToNat]
    omega
  have hhead : ∀ c' : UInt8, c'.toNat < 48 → (d :: ds ++ rest).head? ≠ some c' := by
    intro c' hlow
    rw [List.cons_append, List.head?_cons]
    rintro ⟨⟩
    omega
  refine ⟨?_, hhead 45 (by decide), hhead 43 (by decide)⟩
  rw [List.cons_append, List.dropWhile_cons_of_neg (by rw [hd]; exact Bool.false_ne_true)]

theorem strtoull_append {s rest : Bytes} (hs : ∀ b ∈ s, IsDigit 10 b) (hne : s ≠ [])
    (hrest : ∀ c ∈ rest.head?, digitValue 10 c = none) {n : Nat}
    (hvalue : (digitsPrefix 10 s).foldl (fun acc d => acc * 10 + d) 0 = n) :
    strtoull 10 (s ++ rest) =
      if 2 ^ 64 ≤ n then UInt64.ofNat (2 ^ 64 - 1) else UInt64.ofNat n := by
  obtain ⟨hspace, hminus, hplus⟩ := head_digits hs hne rest
  have hx : dropHexPrefix 10 (s ++ rest) = s ++ rest := by
    unfold dropHexPrefix
    split
    · rename_i x d' rest' heq
      rw [if_neg fun h : 10 = 16 ∧ _ => absurd h.1 (by decide), heq]
    · rfl
  unfold strtoull
  simp only [hspace, hminus, hplus, hx, if_false, or_self]
  rw [digitsPrefix_append (by decide) hs hrest, hvalue]

theorem strtoull_digits {s : Bytes} (hs : ∀ b ∈ s, IsDigit 10 b) (hne : s ≠ []) {n : Nat}
    (hvalue : (digitsPrefix 10 s).foldl (fun acc d => acc * 10 + d) 0 = n) (hn : n < 2 ^ 64)
    {c : UInt8} (hc : digitValue 10 c = none) (rest : Bytes) :
    strtoull 10 (s ++ c :: rest) = UInt64.ofNat n := by
  have hrest : ∀ c' ∈ (c :: rest).head?, digitValue 10 c' = none := by
    rintro c' ⟨⟩
    exact hc
  rw [strtoull_append hs hne hrest hvalue, if_neg (by omega)]

theorem isDigit_of_mem_decimal {n : Nat} {b : UInt8} (h : b ∈ decimal n) : IsDigit 10 b :=
  isDigit_of_mem_numeral (by decide) h

theorem value_decimal (n : Nat) :
    (digitsPrefix 10 (decimal n)).foldl (fun acc d => acc * 10 + d) 0 = n :=
  value_numeral (by decide) (by decide) n

theorem strtoull_decimal (n : UInt64) {c : UInt8} (hc : digitValue 10 c = none) (rest : Bytes) :
    strtoull 10 (32 :: (decimal n.toNat ++ c :: rest)) = n := by
  have hdigits := strtoull_digits (fun _ => isDigit_of_mem_decimal) (numeral_ne_nil 10 n.toNat)
    (value_decimal n.toNat) n.toNat_lt hc rest
  have hblank : isSpace 32 = true := by decide
  have hskip : strtoull 10 (32 :: (decimal n.toNat ++ c :: rest)) =
      strtoull 10 (decimal n.toNat ++ c :: rest) := by
    unfold strtoull
    rw [List.dropWhile_cons_of_pos hblank]
  rw [hskip, hdigits, UInt64.ofNat_toNat]

/-- `find` with a text: what stands from the first `pat` on. -/
def fromFirst (pat : Bytes) : Bytes → Option Bytes
  | [] => if pat = [] then some [] else none
  | c :: s => if pat.isPrefixOf (c :: s) then some (c :: s) else fromFirst pat s

theorem prefix_of_fromFirst {pat s v : Bytes} (h : fromFirst pat s = some v) : pat <+: v := by
  induction s with
  | nil =>
      simp only [fromFirst, Option.ite_none_right_eq_some] at h
      rw [h.1]
      exact List.nil_prefix
  | cons c s ih =>
      rw [fromFirst] at h
      by_cases hpre : pat.isPrefixOf (c :: s) = true
      · rw [if_pos hpre, Option.some.injEq] at h
        rw [← h]
        exact List.isPrefixOf_iff_prefix.mp hpre
      · rw [if_neg hpre] at h
        exact ih h

theorem fromFirst_append {p : UInt8} {pat a : Bytes} (ha : p ∉ a) (b : Bytes) :
    fromFirst (p :: pat) (a ++ b) = fromFirst (p :: pat) b := by
  induction a with
  | nil => rfl
  | cons c a ih =>
      have hne : p ≠ c := fun heq => ha (heq ▸ List.mem_cons_self)
      have hpre : ¬(p :: pat).isPrefixOf (c :: (a ++ b)) = true := by
        simp [List.isPrefixOf, hne]
      rw [List.cons_append, fromFirst, if_neg hpre]
      exact ih fun h => ha (List.mem_cons_of_mem c h)

theorem dropWhile_ne_append {c : UInt8} {a : Bytes} (ha : c ∉ a) (b : Bytes) :
    (a ++ c :: b).dropWhile (· ≠ c) = c :: b := by
  rw [List.dropWhile_append_of_pos, List.dropWhile_cons_of_neg]
  · simp
  · intro x hx
    have hne : x ≠ c := fun heq => ha (heq ▸ hx)
    simpa using hne

theorem takeWhile_ne_append {c : UInt8} {a : Bytes} (ha : c ∉ a) (b : Bytes) :
    (a ++ c :: b).takeWhile (· ≠ c) = a := by
  rw [List.takeWhile_append_of_pos, List.takeWhile_cons_of_neg, List.append_nil]
  · simp
  · intro x hx
    have hne : x ≠ c := fun heq => ha (heq ▸ hx)
    simpa using hne

abbrev LF : UInt8 := 10

/-- The lines `std::getline` delivers: the text between line feeds, the last
piece only if it is not empty. -/
def getLines : Bytes → List Bytes
  | [] => []
  | c :: cs =>
      if c = LF then [] :: getLines cs
      else
        match getLines cs with
        | [] => [[c]]
        | l :: ls => (c :: l) :: ls

theorem getLines_line (l rest : Bytes) (h : LF ∉ l) :
    getLines (l ++ LF :: rest) = l :: getLines rest := by
  induction l with
  | nil => simp [getLines]
  | cons c l ih =>
      have hc : c ≠ LF := fun h0 => h (by simp [h0])
      have hl : LF ∉ l := fun h0 => h (by simp [h0])
      rw [List.cons_append, getLines, if_neg hc, ih hl]

def unlines (ls : List Bytes) : Bytes := ls.flatMap (· ++ [LF])

@[simp] theorem unlines_nil : unlines [] = [] := rfl

theorem unlines_cons (l : Bytes) (ls : List Bytes) :
    unlines (l :: ls) = l ++ LF :: unlines ls := by
  simp [unlines]

theorem unlines_append (ls ms : List Bytes) : unlines (ls ++ ms) = unlines ls ++ unlines ms := by
  simp [unlines]

theorem getLines_unlines {ls : List Bytes} (h : ∀ l ∈ ls, LF ∉ l) : getLines (unlines ls) = ls := by
  induction ls with
  | nil => rfl
  | cons l ls ih =>
      rw [unlines_cons, getLines_line l _ (h l (by simp)), ih fun x hx => h x (by simp [hx])]

theorem not_mem_of_mem_getLines {s l : Bytes} (h : l ∈ getLines s) : LF ∉ l := by
  induction s generalizing l with
  | nil => simp [getLines] at h
  | cons c cs ih =>
      rw [getLines] at h
      split at h
      · rcases List.mem_cons.mp h with rfl | h
        · simp
        · exact ih h
      · rename_i hc
        split at h
        · rw [List.mem_singleton] at h
          subst h
          simpa using Ne.symm hc
        · rename_i l' ls hs
          rcases List.mem_cons.mp h with rfl | h
          · have hl' := ih (l := l') (by rw [hs]; simp)
            simpa [Ne.symm hc] using hl'
          · exact ih (by rw [hs]; simp [h])

end BlessStar.Lib.ByteString
