import Mathlib.Data.Prod.Lex
import BlessStar.Lib.JsonText

/-!
# Version ranges

`version_check.c`: the version of the SDK is compared with the constraints of a
range, one after the other, and the first one it fails ends the check.
-/

namespace BlessStar.Business.VersionCheck

open Lib.ByteString Lib.JsonText

structure BsVersion where
  major : UInt32
  minor : UInt32 := 0
  patch : UInt32 := 0
  deriving DecidableEq, Repr

def isDigit (c : UInt8) : Bool := decide (48 ≤ c ∧ c ≤ 57)

def skipSpaces (s : Bytes) : Bytes := s.dropWhile isSpace

/-- `%u`: white space, a sign and digits, of whose value the low bits are kept. -/
def scanUnsigned (s : Bytes) : Option (UInt32 × Bytes) :=
  let body := s.dropWhile isSpace
  let digits := if body.head? = some 45 ∨ body.head? = some 43 then body.drop 1 else body
  if digits.head?.any isDigit then
    some ((strtoull 10 s).toUInt32, digits.dropWhile isDigit)
  else none

/-- `.%u`. -/
def scanDotted : Bytes → Option (UInt32 × Bytes)
  | [] => none
  | c :: s => if c = ch '.' then scanUnsigned s else none

def parseVersion (s : Bytes) : Option BsVersion :=
  (scanUnsigned (skipSpaces s)).map fun ma =>
    match scanDotted ma.2 with
    | none => { major := ma.1 }
    | some mi =>
        match scanDotted mi.2 with
        | none => { major := ma.1, minor := mi.1 }
        | some pa => { major := ma.1, minor := mi.1, patch := pa.1 }

def versionCmp (a b : BsVersion) : Int :=
  if a.major ≠ b.major then if a.major < b.major then -1 else 1
  else if a.minor ≠ b.minor then if a.minor < b.minor then -1 else 1
  else if a.patch ≠ b.patch then if a.patch < b.patch then -1 else 1
  else 0

/-- The operators in `op`. -/
inductive RangeOp
  | ge
  | gt
  | le
  | lt
  | eq
  | caret
  | tilde
  deriving DecidableEq, Repr

def readOp : Bytes → Option (RangeOp × Bytes)
  | [] => none
  | c :: p =>
      if c = ch '>' then
        if p.head? = some (ch '=') then some (.ge, p.drop 1) else some (.gt, p)
      else if c = ch '<' then
        if p.head? = some (ch '=') then some (.le, p.drop 1) else some (.lt, p)
      else if c = ch '=' then some (.eq, p)
      else if c = ch '^' then some (.caret, p)
      else if c = ch '~' then some (.tilde, p)
      else none

def matchOp (op : RangeOp) (ver bound : BsVersion) : Bool :=
  match op with
  | .ge => decide (0 ≤ versionCmp ver bound)
  | .gt => decide (0 < versionCmp ver bound)
  | .le => decide (versionCmp ver bound ≤ 0)
  | .lt => decide (versionCmp ver bound < 0)
  | .eq => decide (versionCmp ver bound = 0)
  | .caret =>
      if versionCmp ver bound < 0 then false
      else decide (versionCmp ver { major := bound.major + 1 } < 0)
  | .tilde =>
      if versionCmp ver bound < 0 then false
      else decide (versionCmp ver { bound with minor := bound.minor + 1, patch := 0 } < 0)

def skipVersion (p : Bytes) : Bytes := p.dropWhile fun c => isDigit c || c = ch '.'

/-- The body of the loop: the code that is returned, or the rest of the range. -/
def checkConstraint (ver : BsVersion) (p : Bytes) : Except Int Bytes :=
  match readOp p with
  | some (op, p) =>
      let p := skipSpaces p
      if p.head?.any isDigit then
        match parseVersion p with
        | none => .error (-2)
        | some bound =>
            if matchOp op ver bound then .ok (skipSpaces (skipVersion p)) else .error (-1)
      else .error (-2)
  | none =>
      if p.head? = some (ch '-') then .error (-2)
      else if p.head?.any isDigit then
        match parseVersion p with
        | none => .error (-2)
        | some bound =>
            if versionCmp ver bound = 0 then .ok (skipSpaces (skipVersion p)) else .error (-1)
      else .error (-2)

def checkRange (ver : BsVersion) : Nat → Bytes → Option Int
  | 0, _ => none
  | fuel + 1, p =>
      if p = [] then some 0
      else
        match checkConstraint ver p with
        | .error rc => some rc
        | .ok p => checkRange ver fuel p

def versionCompatible (sdkVersion requiredRange : Bytes) : Option Int :=
  match parseVersion sdkVersion with
  | none => some (-2)
  | some ver =>
      let p := skipSpaces requiredRange
      if p = [] then some (-2) else checkRange ver (p.length + 1) p

abbrev Semver := ℕ ×ₗ ℕ ×ₗ ℕ

def semver (major minor patch : Nat) : Semver := toLex (major, toLex (minor, patch))

def Semver.nextMajor (v : Semver) : Semver := semver ((ofLex v).1 + 1) 0 0

def Semver.nextMinor (v : Semver) : Semver :=
  semver (ofLex v).1 ((ofLex (ofLex v).2).1 + 1) 0

structure Digits where
  text : Bytes
  text_ne : text ≠ []
  digits : ∀ c ∈ text, isDigit c

def Digits.value (d : Digits) : Nat :=
  (digitsPrefix 10 d.text).foldl (fun acc d => acc * 10 + d) 0

structure Component extends Digits where
  small : toDigits.value < 2 ^ 32 - 1

inductive VersionText
  | one (major : Component)
  | two (major minor : Component)
  | three (major minor patch : Component)

namespace VersionText

def text : VersionText → Bytes
  | one x => x.text
  | two x y => x.text ++ ch '.' :: y.text
  | three x y z => x.text ++ ch '.' :: (y.text ++ ch '.' :: z.text)

def value : VersionText → Semver
  | one x => semver x.value 0 0
  | two x y => semver x.value y.value 0
  | three x y z => semver x.value y.value z.value

end VersionText

structure Gap where
  text : Bytes
  text_ne : text ≠ []
  space : ∀ c ∈ text, isSpace c

inductive Form
  | constraint (op : RangeOp) (bound : VersionText)
  | exact (bound : VersionText)
  | hyphen (lo : VersionText) (before after : Gap) (hi : VersionText)

def RangeOp.text : RangeOp → Bytes
  | ge => ascii ">="
  | gt => ascii ">"
  | le => ascii "<="
  | lt => ascii "<"
  | eq => ascii "="
  | caret => ascii "^"
  | tilde => ascii "~"

def RangeOp.Holds (v bound : Semver) : RangeOp → Prop
  | ge => bound ≤ v
  | gt => bound < v
  | le => v ≤ bound
  | lt => v < bound
  | eq => v = bound
  | caret => bound ≤ v ∧ v < bound.nextMajor
  | tilde => bound ≤ v ∧ v < bound.nextMinor

instance (v bound : Semver) : (op : RangeOp) → Decidable (op.Holds v bound)
  | .ge => inferInstanceAs (Decidable (bound ≤ v))
  | .gt => inferInstanceAs (Decidable (bound < v))
  | .le => inferInstanceAs (Decidable (v ≤ bound))
  | .lt => inferInstanceAs (Decidable (v < bound))
  | .eq => inferInstanceAs (Decidable (v = bound))
  | .caret => inferInstanceAs (Decidable (bound ≤ v ∧ v < bound.nextMajor))
  | .tilde => inferInstanceAs (Decidable (bound ≤ v ∧ v < bound.nextMinor))

namespace Form

def text : Form → Bytes
  | constraint op bound => op.text ++ bound.text
  | exact bound => bound.text
  | hyphen lo before after hi =>
      lo.text ++ (before.text ++ ch '-' :: (after.text ++ hi.text))

def Holds (v : Semver) : Form → Prop
  | constraint op bound => op.Holds v bound.value
  | exact bound => v = bound.value
  | hyphen lo _ _ hi => lo.value ≤ v ∧ v ≤ hi.value

instance (v : Semver) : (f : Form) → Decidable (f.Holds v)
  | constraint op bound => inferInstanceAs (Decidable (op.Holds v bound.value))
  | exact bound => inferInstanceAs (Decidable (v = bound.value))
  | hyphen lo _ _ hi => inferInstanceAs (Decidable (lo.value ≤ v ∧ v ≤ hi.value))

def IsHyphen : Form → Prop
  | hyphen _ _ _ _ => True
  | _ => False

end Form

/-- A sequence of forms with white space between them, and maybe around them. -/
structure Range where
  lead : Bytes
  first : Form
  more : List (Gap × Form)
  trail : Bytes
  lead_space : ∀ c ∈ lead, isSpace c
  trail_space : ∀ c ∈ trail, isSpace c

namespace Range

def moreText (more : List (Gap × Form)) : Bytes := more.flatMap fun m => m.1.text ++ m.2.text

def text (r : Range) : Bytes := r.lead ++ (r.first.text ++ (moreText r.more ++ r.trail))

def forms (r : Range) : List Form := r.first :: r.more.map Prod.snd

def Holds (v : Semver) (r : Range) : Prop := ∀ f ∈ r.forms, f.Holds v

instance (v : Semver) (r : Range) : Decidable (r.Holds v) :=
  inferInstanceAs (Decidable (∀ f ∈ r.forms, f.Holds v))

end Range

structure SdkVersion where
  major : Digits
  minor : Digits
  patch : Digits

/-- The number that `%u` makes of a value. -/
def asUnsigned (n : Nat) : Nat := min n (2 ^ 64 - 1) % 2 ^ 32

namespace SdkVersion

variable (v : SdkVersion)

def text : Bytes := v.major.text ++ ch '.' :: (v.minor.text ++ ch '.' :: v.patch.text)

def value : Semver := semver v.major.value v.minor.value v.patch.value

def readValue : Semver :=
  semver (asUnsigned v.major.value) (asUnsigned v.minor.value) (asUnsigned v.patch.value)

end SdkVersion

def MeansSyntax (v : SdkVersion) (r : Range) : Prop :=
  versionCompatible v.text r.text = some (if r.Holds v.value then 0 else -1)

/-- A range without hyphens is satisfied alike by the version and by the one that
is read for it.  A range with a hyphen is not satisfied, and a form in front of
the hyphen already fails, or else the version is not the lower one. -/
structure Decided (v : SdkVersion) (r : Range) : Prop where
  plain : (∀ f ∈ r.forms, ¬f.IsHyphen) → (r.Holds v.value ↔ r.Holds v.readValue)
  hyphen : ∀ pre lo before after hi post, r.forms = pre ++ .hyphen lo before after hi :: post →
    (∀ f ∈ pre, ¬f.IsHyphen) →
      ¬r.Holds v.value ∧ (v.readValue = lo.value → ∃ f ∈ pre, ¬f.Holds v.readValue)

theorem isDigit_iff {c : UInt8} : isDigit c ↔ 48 ≤ c.toNat ∧ c.toNat ≤ 57 := by
  simp [isDigit, UInt8.le_iff_toNat_le]

theorem IsDigit.of_isDigit {c : UInt8} (h : isDigit c) : IsDigit 10 c := by
  have hrange := isDigit_iff.mp h
  refine ⟨c.toNat - 48, by omega, ?_⟩
  rw [digitByte, if_pos (by omega), Nat.add_sub_cancel' hrange.1, UInt8.ofNat_toNat]

theorem digitValue_eq_none {c : UInt8} (h : ¬isDigit c) : digitValue 10 c = none := by
  rw [isDigit_iff] at h
  unfold digitValue
  rw [if_neg h]
  refine if_neg ?_
  split
  · omega
  · split <;> omega

theorem not_isSpace_of_isDigit {c : UInt8} (h : isDigit c) : ¬isSpace c := by
  rw [isDigit_iff] at h
  simp only [isSpace, decide_eq_true_eq, UInt8.le_iff_toNat_le, ← UInt8.toNat_inj,
    UInt8.reduceToNat]
  omega

def EndsVersion (rest : Bytes) : Prop := ∀ c ∈ rest.head?, isDigit c = false ∧ c ≠ ch '.'

theorem EndsVersion.of_space {s rest : Bytes} (hs : ∀ c ∈ s, isSpace c)
    (hrest : s = [] → EndsVersion rest) : EndsVersion (s ++ rest) := by
  cases s with
  | nil => exact hrest rfl
  | cons c s =>
      rintro _ ⟨⟩
      have hc := hs c List.mem_cons_self
      refine ⟨Bool.eq_false_iff.mpr fun hdigit => not_isSpace_of_isDigit hdigit hc, ?_⟩
      rintro rfl
      exact absurd hc (by decide)

theorem asUnsigned_eq_self {n : Nat} (h : n < 2 ^ 32) : asUnsigned n = n := by
  unfold asUnsigned
  omega

namespace Digits

variable (d : Digits) {rest : Bytes}

theorem head_isDigit (rest : Bytes) : (d.text ++ rest).head?.any isDigit := by
  obtain ⟨c, s, htext⟩ := List.exists_cons_of_ne_nil d.text_ne
  rw [htext]
  exact d.digits c (htext ▸ List.mem_cons_self)

theorem toUInt32_strtoull (hrest : ∀ c ∈ rest.head?, isDigit c = false) :
    (strtoull 10 (d.text ++ rest)).toUInt32 = UInt32.ofNat (asUnsigned d.value) := by
  rw [strtoull_append (fun c hc => IsDigit.of_isDigit (d.digits c hc)) d.text_ne
    (fun c hc => digitValue_eq_none (Bool.eq_false_iff.mp (hrest c hc))) rfl, ← value,
    ← UInt32.toNat_inj, UInt64.toNat_toUInt32, UInt32.toNat_ofNat', asUnsigned]
  split
  · rw [Nat.min_eq_right (by omega)]
    rfl
  · rw [UInt64.toNat_ofNat', Nat.min_eq_left (by omega)]
    omega

theorem scanUnsigned_text (hrest : ∀ c ∈ rest.head?, isDigit c = false) :
    scanUnsigned (d.text ++ rest) = some (UInt32.ofNat (asUnsigned d.value), rest) := by
  obtain ⟨hspace, hminus, hplus⟩ := head_digits
    (fun c hc => IsDigit.of_isDigit (d.digits c hc)) d.text_ne rest
  have hdrop : (d.text ++ rest).dropWhile isDigit = rest := by
    rw [List.dropWhile_append_of_pos d.digits]
    cases rest with
    | nil => rfl
    | cons c rest => exact List.dropWhile_cons_of_neg (by rw [hrest c rfl]; decide)
  unfold scanUnsigned
  simp only [hspace, hminus, hplus, or_self, if_false]
  rw [if_pos (d.head_isDigit rest), d.toUInt32_strtoull hrest, hdrop]

theorem scanDotted_text (hrest : ∀ c ∈ rest.head?, isDigit c = false) :
    scanDotted (ch '.' :: (d.text ++ rest)) =
      some (UInt32.ofNat (asUnsigned d.value), rest) := by
  rw [scanDotted, if_pos rfl, d.scanUnsigned_text hrest]

end Digits

theorem scanDotted_end {rest : Bytes} (h : EndsVersion rest) : scanDotted rest = none := by
  cases rest with
  | nil => rfl
  | cons c rest => exact if_neg (h c rfl).2

namespace BsVersion

variable (v : BsVersion)

def value : Semver := semver v.major.toNat v.minor.toNat v.patch.toNat

end BsVersion

namespace VersionText

variable {rest : Bytes}

def read : VersionText → BsVersion
  | one x => { major := UInt32.ofNat x.value }
  | two x y => { major := UInt32.ofNat x.value, minor := UInt32.ofNat y.value }
  | three x y z =>
      { major := UInt32.ofNat x.value, minor := UInt32.ofNat y.value, patch := UInt32.ofNat z.value }

theorem head_isDigit (v : VersionText) (rest : Bytes) : (v.text ++ rest).head?.any isDigit := by
  cases v with
  | one x => exact x.head_isDigit rest
  | two x y => rw [text, List.append_assoc]; exact x.head_isDigit _
  | three x y z => rw [text, List.append_assoc]; exact x.head_isDigit _

theorem parseVersion_text (v : VersionText) (hrest : EndsVersion rest) :
    parseVersion (v.text ++ rest) = some v.read := by
  have hdot : ∀ s : Bytes, ∀ c ∈ (ch '.' :: s).head?, isDigit c = false := by
    rintro s _ ⟨⟩
    decide
  have hend : ∀ c ∈ rest.head?, isDigit c = false := fun c hc => (hrest c hc).1
  have hsmall : ∀ x : Component, asUnsigned x.value = x.value := fun x =>
    asUnsigned_eq_self (x.small.trans (by decide))
  have hskip : ∀ (x : Component) (s : Bytes), skipSpaces (x.text ++ s) = x.text ++ s := fun x s =>
    (head_digits (fun c hc => IsDigit.of_isDigit (x.digits c hc)) x.text_ne s).1
  cases v with
  | one x =>
      rw [text, parseVersion, hskip, x.scanUnsigned_text hend, Option.map_some]
      simp only [scanDotted_end hrest, hsmall, read]
  | two x y =>
      rw [text, parseVersion, List.append_assoc, hskip, List.cons_append,
        x.scanUnsigned_text (hdot _), Option.map_some]
      simp only [y.scanDotted_text hend, scanDotted_end hrest, hsmall, read]
  | three x y z =>
      rw [text, parseVersion, List.append_assoc, hskip, List.cons_append, List.append_assoc,
        List.cons_append, x.scanUnsigned_text (hdot _), Option.map_some]
      simp only [y.scanDotted_text (hdot _), z.scanDotted_text hend, hsmall, read]

theorem skipVersion_text (v : VersionText) (hrest : EndsVersion rest) :
    skipVersion (v.text ++ rest) = rest := by
  have hall : ∀ c ∈ v.text, (isDigit c || decide (c = ch '.')) = true := by
    have hdigits : ∀ (x : Component), ∀ c ∈ x.text, (isDigit c || decide (c = ch '.')) = true :=
      fun x c hc => by rw [x.digits c hc, Bool.true_or]
    cases v with
    | one x => exact hdigits x
    | two x y =>
        intro c hc
        rcases List.mem_append.mp hc with hc | hc
        · exact hdigits x c hc
        · rcases List.mem_cons.mp hc with rfl | hc
          · decide
          · exact hdigits y c hc
    | three x y z =>
        intro c hc
        rcases List.mem_append.mp hc with hc | hc
        · exact hdigits x c hc
        · rcases List.mem_cons.mp hc with rfl | hc
          · decide
          · rcases List.mem_append.mp hc with hc | hc
            · exact hdigits y c hc
            · rcases List.mem_cons.mp hc with rfl | hc
              · decide
              · exact hdigits z c hc
  rw [skipVersion, List.dropWhile_append_of_pos hall]
  cases rest with
  | nil => rfl
  | cons c rest =>
      refine List.dropWhile_cons_of_neg ?_
      rw [(hrest c rfl).1, decide_eq_false (hrest c rfl).2]
      decide

theorem value_read (v : VersionText) : v.read.value = v.value := by
  have hsmall : ∀ x : Component, (UInt32.ofNat x.value).toNat = x.value := fun x => by
    rw [UInt32.toNat_ofNat']
    exact Nat.mod_eq_of_lt (x.small.trans (by decide))
  cases v <;> simp [read, value, BsVersion.value, hsmall]

theorem read_small (v : VersionText) :
    v.read.major.toNat < 2 ^ 32 - 1 ∧ v.read.minor.toNat < 2 ^ 32 - 1 := by
  have hsmall : ∀ x : Component, (UInt32.ofNat x.value).toNat < 2 ^ 32 - 1 := fun x => by
    rw [UInt32.toNat_ofNat', Nat.mod_eq_of_lt (x.small.trans (by decide))]
    exact x.small
  cases v with
  | one x => exact ⟨hsmall x, (by decide : (0 : UInt32).toNat < 2 ^ 32 - 1)⟩
  | two x y => exact ⟨hsmall x, hsmall y⟩
  | three x y z => exact ⟨hsmall x, hsmall y⟩

end VersionText

theorem semver_lt {a b c x y z : Nat} :
    semver a b c < semver x y z ↔ a < x ∨ a = x ∧ (b < y ∨ b = y ∧ c < z) := by
  simp only [semver, Prod.Lex.toLex_lt_toLex]

theorem semver_inj {a b c x y z : Nat} :
    semver a b c = semver x y z ↔ a = x ∧ b = y ∧ c = z := by
  simp [semver]

theorem versionCmp_cases (a b : BsVersion) :
    (versionCmp a b = -1 ∧ a.value < b.value) ∨ (versionCmp a b = 0 ∧ a.value = b.value) ∨
      (versionCmp a b = 1 ∧ b.value < a.value) := by
  simp only [BsVersion.value, semver_lt, semver_inj, versionCmp, ne_eq, UInt32.lt_iff_toNat_lt,
    ← UInt32.toNat_inj]
  split <;> split <;> (try split) <;> (try split) <;> simp <;> omega

variable {a b : BsVersion}

theorem versionCmp_neg : versionCmp a b < 0 ↔ a.value < b.value := by
  rcases versionCmp_cases a b with ⟨hcmp, hlt⟩ | ⟨hcmp, heq⟩ | ⟨hcmp, hlt⟩
  · simp [hcmp, hlt]
  · simp [hcmp, heq]
  · simp [hcmp, hlt.le]

theorem versionCmp_zero : versionCmp a b = 0 ↔ a.value = b.value := by
  rcases versionCmp_cases a b with ⟨hcmp, hlt⟩ | ⟨hcmp, heq⟩ | ⟨hcmp, hlt⟩
  · simp [hcmp, hlt.ne]
  · simp [hcmp, heq]
  · simp [hcmp, hlt.ne']

theorem versionCmp_pos : 0 < versionCmp a b ↔ b.value < a.value := by
  rcases versionCmp_cases a b with ⟨hcmp, hlt⟩ | ⟨hcmp, heq⟩ | ⟨hcmp, hlt⟩
  · simp [hcmp, hlt.le]
  · simp [hcmp, heq]
  · simp [hcmp, hlt]

theorem matchOp_iff (op : RangeOp) (ver : BsVersion) (bound : VersionText) :
    matchOp op ver bound.read ↔ op.Holds ver.value bound.value := by
  have hnot : 0 ≤ versionCmp ver bound.read ↔ bound.value ≤ ver.value := by
    rw [← not_lt, versionCmp_neg, not_lt, bound.value_read]
  obtain ⟨hmajor, hminor⟩ := bound.read_small
  have hnextMajor : BsVersion.value { major := bound.read.major + 1 } = bound.value.nextMajor := by
    rw [← bound.value_read, BsVersion.value, UInt32.toNat_add,
      show (1 : UInt32).toNat = 1 from rfl, Nat.mod_eq_of_lt (by omega)]
    rfl
  have hnextMinor : BsVersion.value { bound.read with minor := bound.read.minor + 1, patch := 0 } =
      bound.value.nextMinor := by
    rw [← bound.value_read, BsVersion.value, UInt32.toNat_add,
      show (1 : UInt32).toNat = 1 from rfl, Nat.mod_eq_of_lt (by omega)]
    rfl
  cases op with
  | ge => simpa [matchOp, RangeOp.Holds] using hnot
  | gt => simp [matchOp, RangeOp.Holds, versionCmp_pos, bound.value_read]
  | le =>
      rw [matchOp, decide_eq_true_eq, ← not_lt, versionCmp_pos, not_lt, bound.value_read]
      rfl
  | lt => simp [matchOp, RangeOp.Holds, versionCmp_neg, bound.value_read]
  | eq => simp [matchOp, RangeOp.Holds, versionCmp_zero, bound.value_read]
  | caret =>
      rw [matchOp, RangeOp.Holds, ← hnot, ← hnextMajor, ← versionCmp_neg]
      split
      · simp [not_le.mpr ‹_›]
      · simp [not_lt.mp ‹_›]
  | tilde =>
      rw [matchOp, RangeOp.Holds, ← hnot, ← hnextMinor, ← versionCmp_neg]
      split
      · simp [not_le.mpr ‹_›]
      · simp [not_lt.mp ‹_›]

def verdict (ver : BsVersion) : List Form → Int
  | [] => 0
  | .constraint op bound :: fs => if matchOp op ver bound.read then verdict ver fs else -1
  | .exact bound :: fs => if versionCmp ver bound.read = 0 then verdict ver fs else -1
  | .hyphen lo _ _ _ :: _ => if versionCmp ver lo.read = 0 then -2 else -1

theorem readOp_text (op : RangeOp) (bound : VersionText) (rest : Bytes) :
    readOp (op.text ++ (bound.text ++ rest)) = some (op, bound.text ++ rest) := by
  obtain ⟨c, s, htext⟩ : ∃ c s, bound.text ++ rest = c :: s := by
    cases h : bound.text ++ rest with
    | nil => simpa [h] using bound.head_isDigit rest
    | cons c s => exact ⟨c, s, rfl⟩
  have hc : c ≠ ch '=' := by
    have hdigit := bound.head_isDigit rest
    rw [htext, List.head?_cons, Option.any_some] at hdigit
    rintro rfl
    exact absurd hdigit (by decide)
  have hhead : (c :: s).head? ≠ some (ch '=') := fun h => hc (Option.some.inj h)
  rw [htext]
  cases op with
  | ge => rfl
  | gt => exact if_neg hhead
  | le => rfl
  | lt => exact if_neg hhead
  | eq => rfl
  | caret => rfl
  | tilde => rfl

theorem readOp_version (bound : VersionText) (rest : Bytes) :
    readOp (bound.text ++ rest) = none ∧ (bound.text ++ rest).head? ≠ some (ch '-') := by
  have hdigit := bound.head_isDigit rest
  cases h : bound.text ++ rest with
  | nil => exact ⟨rfl, by simp⟩
  | cons c s =>
      rw [h] at hdigit
      have hne : ∀ d : UInt8, isDigit d = false → c ≠ d := by
        rintro d hd rfl
        rw [List.head?_cons, Option.any_some, hd] at hdigit
        exact absurd hdigit (by decide)
      refine ⟨?_, fun hminus => hne (ch '-') (by decide) (Option.some.inj hminus)⟩
      rw [readOp, if_neg (hne _ (by decide)), if_neg (hne _ (by decide)),
        if_neg (hne _ (by decide)), if_neg (hne _ (by decide)), if_neg (hne _ (by decide))]

theorem skipSpaces_version (bound : VersionText) (rest : Bytes) :
    skipSpaces (bound.text ++ rest) = bound.text ++ rest := by
  have hdigit := bound.head_isDigit rest
  cases h : bound.text ++ rest with
  | nil => rfl
  | cons c s =>
      rw [h] at hdigit
      exact List.dropWhile_cons_of_neg (not_isSpace_of_isDigit hdigit)

variable {rest : Bytes}

theorem checkConstraint_constraint (ver : BsVersion) (op : RangeOp) (bound : VersionText)
    (hrest : EndsVersion rest) : checkConstraint ver (op.text ++ (bound.text ++ rest)) =
      if matchOp op ver bound.read then .ok (skipSpaces rest) else .error (-1) := by
  rw [checkConstraint, readOp_text]
  dsimp only
  rw [skipSpaces_version, if_pos (bound.head_isDigit rest), bound.parseVersion_text hrest,
    bound.skipVersion_text hrest]

theorem checkConstraint_exact (ver : BsVersion) (bound : VersionText) (hrest : EndsVersion rest) :
    checkConstraint ver (bound.text ++ rest) =
      if versionCmp ver bound.read = 0 then .ok (skipSpaces rest) else .error (-1) := by
  obtain ⟨hop, hminus⟩ := readOp_version bound rest
  rw [checkConstraint, hop]
  dsimp only
  rw [if_neg hminus, if_pos (bound.head_isDigit rest), bound.parseVersion_text hrest,
    bound.skipVersion_text hrest]

theorem Form.head_text (f : Form) : ∃ c s, f.text = c :: s ∧ isSpace c = false := by
  have hversion : ∀ v : VersionText, ∃ c s, v.text = c :: s ∧ isSpace c = false := by
    intro v
    have hdigit := v.head_isDigit []
    rw [List.append_nil] at hdigit
    cases h : v.text with
    | nil => simp [h] at hdigit
    | cons c s =>
        rw [h] at hdigit
        exact ⟨c, s, rfl, Bool.eq_false_iff.mpr (not_isSpace_of_isDigit hdigit)⟩
  cases f with
  | constraint op bound => cases op <;> exact ⟨_, _, rfl, by decide⟩
  | exact bound => exact hversion bound
  | hyphen lo before after hi =>
      obtain ⟨c, s, htext, hc⟩ := hversion lo
      exact ⟨c, _, by rw [text, htext]; rfl, hc⟩

theorem skipSpaces_append {s : Bytes} (hs : ∀ c ∈ s, isSpace c) (rest : Bytes) :
    skipSpaces (s ++ rest) = skipSpaces rest := List.dropWhile_append_of_pos hs

theorem skipSpaces_form (f : Form) (rest : Bytes) :
    skipSpaces (f.text ++ rest) = f.text ++ rest := by
  obtain ⟨c, s, htext, hc⟩ := f.head_text
  rw [htext]
  exact List.dropWhile_cons_of_neg (by rw [hc]; decide)

theorem checkRange_cons {ver : BsVersion} {fuel : Nat} {p : Bytes} (hp : p ≠ []) :
    checkRange ver (fuel + 1) p =
      match checkConstraint ver p with
      | .error rc => some rc
      | .ok p => checkRange ver fuel p := if_neg hp

theorem checkRange_form (ver : BsVersion) (f : Form) (hrest : EndsVersion rest) (fuel : Nat) :
    (∃ rc, (∀ fs, verdict ver (f :: fs) = rc) ∧
      checkRange ver (fuel + 2) (f.text ++ rest) = some rc) ∨
    (∀ fs, verdict ver (f :: fs) = verdict ver fs) ∧
      checkRange ver (fuel + 2) (f.text ++ rest) = checkRange ver (fuel + 1) (skipSpaces rest) := by
  have hne : f.text ++ rest ≠ [] := by
    obtain ⟨c, s, htext, -⟩ := f.head_text
    rw [htext]
    exact List.cons_ne_nil _ _
  rw [checkRange_cons hne]
  cases f with
  | constraint op bound =>
      rw [Form.text, List.append_assoc, checkConstraint_constraint ver op bound hrest]
      by_cases hop : matchOp op ver bound.read
      · right
        simp [verdict, hop]
      · left
        simp [verdict, hop]
  | exact bound =>
      rw [Form.text, checkConstraint_exact ver bound hrest]
      by_cases heq : versionCmp ver bound.read = 0
      · right
        simp [verdict, heq]
      · left
        simp [verdict, heq]
  | hyphen lo before after hi =>
      left
      have hgap : EndsVersion (before.text ++ (ch '-' :: (after.text ++ hi.text) ++ rest)) :=
        EndsVersion.of_space before.space fun hnil => absurd hnil before.text_ne
      have hskip : skipSpaces (before.text ++ (ch '-' :: (after.text ++ hi.text) ++ rest)) =
          ch '-' :: (after.text ++ hi.text) ++ rest := by
        rw [skipSpaces_append before.space]
        rfl
      rw [Form.text, List.append_assoc, List.append_assoc, checkConstraint_exact ver lo hgap, hskip]
      by_cases heq : versionCmp ver lo.read = 0
      · rw [if_pos heq]
        exact ⟨-2, fun fs => if_pos heq, rfl⟩
      · rw [if_neg heq]
        exact ⟨-1, fun fs => if_neg heq, rfl⟩

namespace Range

theorem endsVersion_more (more : List (Gap × Form)) {trail : Bytes}
    (htrail : ∀ c ∈ trail, isSpace c) : EndsVersion (moreText more ++ trail) := by
  cases more with
  | nil =>
      rw [moreText, List.flatMap_nil, List.nil_append, ← List.append_nil trail]
      exact EndsVersion.of_space htrail fun _ => by simp [EndsVersion]
  | cons m more =>
      rw [moreText, List.flatMap_cons, List.append_assoc, List.append_assoc]
      exact EndsVersion.of_space m.1.space fun hnil => absurd hnil m.1.text_ne

theorem checkRange_forms (ver : BsVersion) {trail : Bytes} (htrail : ∀ c ∈ trail, isSpace c)
    (more : List (Gap × Form)) (f : Form) (fuel : Nat)
    (hfuel : (f.text ++ (moreText more ++ trail)).length ≤ fuel) :
    checkRange ver (fuel + 1) (f.text ++ (moreText more ++ trail)) =
      some (verdict ver (f :: more.map Prod.snd)) := by
  induction more generalizing f fuel with
  | nil =>
      obtain ⟨fuel, rfl⟩ : ∃ k, fuel = k + 1 := by
        obtain ⟨c, s, htext, -⟩ := f.head_text
        rw [htext, List.cons_append, List.length_cons] at hfuel
        exact ⟨fuel - 1, by omega⟩
      rcases checkRange_form ver f (endsVersion_more [] htrail) fuel with ⟨rc, hrc, hrun⟩ | ⟨hgo, hrun⟩
      · rw [hrun, hrc]
      · have hend : skipSpaces (moreText [] ++ trail) = [] := by
          rw [moreText, List.flatMap_nil, List.nil_append, ← List.append_nil trail,
            skipSpaces_append htrail]
          rfl
        rw [hrun, hgo, hend]
        rfl
  | cons m more ih =>
      have hmore : moreText (m :: more) ++ trail = m.1.text ++ (m.2.text ++ (moreText more ++ trail)) := by
        rw [moreText, List.flatMap_cons, List.append_assoc, List.append_assoc]
        rfl
      have hskip : skipSpaces (moreText (m :: more) ++ trail) = m.2.text ++ (moreText more ++ trail) := by
        rw [hmore, skipSpaces_append m.1.space, skipSpaces_form]
      obtain ⟨c, s, htext, -⟩ := f.head_text
      rw [htext, hmore] at hfuel
      simp only [List.length_append, List.length_cons] at hfuel
      obtain ⟨fuel, rfl⟩ : ∃ k, fuel = k + 1 := ⟨fuel - 1, by omega⟩
      rcases checkRange_form ver f (endsVersion_more (m :: more) htrail) fuel with
        ⟨rc, hrc, hrun⟩ | ⟨hgo, hrun⟩
      · rw [hrun, hrc]
      · rw [hrun, hgo, hskip]
        apply ih
        simp only [List.length_append]
        omega

end Range

namespace SdkVersion

variable (v : SdkVersion)

def read : BsVersion where
  major := UInt32.ofNat (asUnsigned v.major.value)
  minor := UInt32.ofNat (asUnsigned v.minor.value)
  patch := UInt32.ofNat (asUnsigned v.patch.value)

theorem value_read : v.read.value = v.readValue := by
  have hlow : ∀ n, (UInt32.ofNat (asUnsigned n)).toNat = asUnsigned n := fun n => by
    rw [UInt32.toNat_ofNat', asUnsigned]
    omega
  rw [BsVersion.value, read, readValue, hlow, hlow, hlow]

theorem parseVersion_text : parseVersion v.text = some v.read := by
  have hdot : ∀ s : Bytes, ∀ c ∈ (ch '.' :: s).head?, isDigit c = false := by
    rintro s _ ⟨⟩
    decide
  have hskip : skipSpaces v.text = v.text :=
    (head_digits (fun c hc => IsDigit.of_isDigit (v.major.digits c hc)) v.major.text_ne _).1
  have hpatch := @Digits.scanDotted_text v.patch [] (by simp)
  rw [List.append_nil] at hpatch
  rw [parseVersion, hskip, text, v.major.scanUnsigned_text (hdot _), Option.map_some]
  simp only [v.minor.scanDotted_text (hdot _), hpatch]
  rfl

end SdkVersion

theorem versionCompatible_eq (v : SdkVersion) (r : Range) :
    versionCompatible v.text r.text = some (verdict v.read r.forms) := by
  have hskip : skipSpaces r.text = r.first.text ++ (Range.moreText r.more ++ r.trail) := by
    rw [Range.text, skipSpaces_append r.lead_space, skipSpaces_form]
  have hne : r.first.text ++ (Range.moreText r.more ++ r.trail) ≠ [] := by
    obtain ⟨c, s, htext, -⟩ := r.first.head_text
    rw [htext]
    exact List.cons_ne_nil _ _
  rw [versionCompatible, v.parseVersion_text]
  dsimp only
  rw [hskip, if_neg hne]
  exact Range.checkRange_forms v.read r.trail_space r.more r.first _ le_rfl

section Verdict

variable (ver : BsVersion) {fs : List Form}

theorem verdict_cons {f : Form} (hf : ¬f.IsHyphen) :
    (f.Holds ver.value ∧ verdict ver (f :: fs) = verdict ver fs) ∨
      (¬f.Holds ver.value ∧ verdict ver (f :: fs) = -1) := by
  cases f with
  | constraint op bound =>
      by_cases hop : matchOp op ver bound.read
      · exact Or.inl ⟨(matchOp_iff op ver bound).mp hop, if_pos hop⟩
      · exact Or.inr ⟨fun h => hop ((matchOp_iff op ver bound).mpr h), if_neg hop⟩
  | exact bound =>
      have hiff : versionCmp ver bound.read = 0 ↔ ver.value = bound.value := by
        rw [versionCmp_zero, bound.value_read]
      by_cases heq : versionCmp ver bound.read = 0
      · exact Or.inl ⟨hiff.mp heq, if_pos heq⟩
      · exact Or.inr ⟨fun h => heq (hiff.mpr h), if_neg heq⟩
  | hyphen => exact absurd trivial hf

theorem verdict_append {pre : List Form} (hpre : ∀ f ∈ pre, ¬f.IsHyphen) :
    ((∀ f ∈ pre, f.Holds ver.value) ∧ verdict ver (pre ++ fs) = verdict ver fs) ∨
      ((∃ f ∈ pre, ¬f.Holds ver.value) ∧ verdict ver (pre ++ fs) = -1) := by
  induction pre with
  | nil => exact Or.inl ⟨by simp, rfl⟩
  | cons f pre ih =>
      obtain ⟨hf, htail⟩ := List.forall_mem_cons.mp hpre
      rw [List.cons_append]
      rcases verdict_cons ver hf with ⟨hholds, hgo⟩ | ⟨hfails, hstop⟩
      · rw [hgo]
        rcases ih htail with ⟨hall, hrun⟩ | ⟨⟨g, hg, hgfails⟩, hrun⟩
        · exact Or.inl ⟨List.forall_mem_cons.mpr ⟨hholds, hall⟩, hrun⟩
        · exact Or.inr ⟨⟨g, List.mem_cons_of_mem f hg, hgfails⟩, hrun⟩
      · exact Or.inr ⟨⟨f, List.mem_cons_self, hfails⟩, hstop⟩

theorem verdict_plain (hfs : ∀ f ∈ fs, ¬f.IsHyphen) :
    verdict ver fs = if ∀ f ∈ fs, f.Holds ver.value then 0 else -1 := by
  have hrun := @verdict_append ver [] fs hfs
  rw [List.append_nil] at hrun
  rcases hrun with ⟨hall, hrun⟩ | ⟨⟨f, hf, hfails⟩, hrun⟩
  · rw [hrun, if_pos hall]
    rfl
  · rw [hrun, if_neg fun h => hfails (h f hf)]

theorem verdict_hyphen {pre post : List Form} (hpre : ∀ f ∈ pre, ¬f.IsHyphen) (lo hi : VersionText)
    (before after : Gap) :
    verdict ver (pre ++ .hyphen lo before after hi :: post) ≠ 0 ∧
      (verdict ver (pre ++ .hyphen lo before after hi :: post) = -1 ↔
        (ver.value = lo.value → ∃ f ∈ pre, ¬f.Holds ver.value)) := by
  rcases @verdict_append ver (.hyphen lo before after hi :: post) pre hpre with
    ⟨hall, hrun⟩ | ⟨hfails, hrun⟩
  · have hlo : versionCmp ver lo.read = 0 ↔ ver.value = lo.value := by
      rw [versionCmp_zero, lo.value_read]
    have hnone : ¬∃ f ∈ pre, ¬f.Holds ver.value := fun h =>
      h.elim fun f hf => hf.2 (hall f hf.1)
    rw [hrun, verdict]
    by_cases heq : versionCmp ver lo.read = 0
    · rw [if_pos heq]
      exact ⟨by decide, fun h => absurd h (by decide), fun h => absurd (h (hlo.mp heq)) hnone⟩
    · simp [heq, mt hlo.mpr heq]
  · rw [hrun]
    exact ⟨by decide, fun _ _ => hfails, fun _ => rfl⟩

end Verdict

theorem exists_hyphen {fs : List Form} (h : ¬∀ f ∈ fs, ¬f.IsHyphen) :
    ∃ pre lo before after hi post, fs = pre ++ .hyphen lo before after hi :: post ∧
      ∀ f ∈ pre, ¬f.IsHyphen := by
  induction fs with
  | nil => simp at h
  | cons f fs ih =>
      by_cases hf : f.IsHyphen
      · cases f with
        | hyphen lo before after hi => exact ⟨[], lo, before, after, hi, fs, rfl, by simp⟩
        | constraint => exact hf.elim
        | exact => exact hf.elim
      · have htail : ¬∀ f ∈ fs, ¬f.IsHyphen := fun hall =>
          h (List.forall_mem_cons.mpr ⟨hf, hall⟩)
        obtain ⟨pre, lo, before, after, hi, post, rfl, hpre⟩ := ih htail
        exact ⟨f :: pre, lo, before, after, hi, post, rfl, List.forall_mem_cons.mpr ⟨hf, hpre⟩⟩

def sdkVersion : SdkVersion where
  major := ⟨ascii "1", by decide, by decide⟩
  minor := ⟨ascii "2", by decide, by decide⟩
  patch := ⟨ascii "3", by decide, by decide⟩

def fromOneToTwo : Range where
  lead := []
  first :=
    let zero : Component := ⟨⟨ascii "0", by decide, by decide⟩, by decide⟩
    let space : Gap := ⟨ascii " ", by decide, by decide⟩
    .hyphen (.three ⟨⟨ascii "1", by decide, by decide⟩, by decide⟩ zero zero) space space
      (.three ⟨⟨ascii "2", by decide, by decide⟩, by decide⟩ zero zero)
  more := []
  trail := []
  lead_space := by simp
  trail_space := by simp

/-- The version lies in the range and fails it. -/
theorem not_meansSyntax_fromOneToTwo : ¬MeansSyntax sdkVersion fromOneToTwo := by
  have hfails : versionCompatible sdkVersion.text fromOneToTwo.text = some (-1) := by
    decide +kernel
  have hholds : fromOneToTwo.Holds sdkVersion.value := by decide +kernel
  rw [MeansSyntax, hfails, if_pos hholds]
  decide

/-- The code means what the syntax says exactly if no hyphen form decides, and
the version is read as it is. -/
theorem meansSyntax_iff (v : SdkVersion) (r : Range) : MeansSyntax v r ↔ Decided v r := by
  rw [MeansSyntax, versionCompatible_eq, Option.some.injEq]
  by_cases hplain : ∀ f ∈ r.forms, ¬f.IsHyphen
  · have hsame : verdict v.read r.forms = (if r.Holds v.value then 0 else -1) ↔
        (r.Holds v.value ↔ r.Holds v.readValue) := by
      have hread : verdict v.read r.forms = if r.Holds v.readValue then 0 else -1 := by
        rw [verdict_plain v.read hplain, v.value_read]
        rfl
      rw [hread]
      by_cases hvalue : r.Holds v.value <;> by_cases hlow : r.Holds v.readValue <;>
        simp [hvalue, hlow]
    rw [hsame]
    refine ⟨fun h => ⟨fun _ => h, ?_⟩, fun h => h.plain hplain⟩
    intro pre lo before after hi post hforms
    have hmem : Form.hyphen lo before after hi ∈ r.forms := by simp [hforms]
    exact absurd trivial (hplain _ hmem)
  · have hstops : ∀ pre lo before after hi post,
        r.forms = pre ++ .hyphen lo before after hi :: post → (∀ f ∈ pre, ¬f.IsHyphen) →
          (verdict v.read r.forms = (if r.Holds v.value then 0 else -1) ↔
            ¬r.Holds v.value ∧ (v.readValue = lo.value → ∃ f ∈ pre, ¬f.Holds v.readValue)) := by
      intro pre lo before after hi post hforms hpre
      obtain ⟨hne, hfails⟩ := @verdict_hyphen v.read pre post hpre lo hi before after
      rw [← hforms] at hne hfails
      rw [← v.value_read, ← hfails]
      by_cases hvalue : r.Holds v.value
      · simp [hvalue, hne]
      · simp [hvalue]
    constructor
    · intro h
      refine ⟨fun hall => absurd hall hplain, ?_⟩
      intro pre lo before after hi post hforms hpre
      exact (hstops pre lo before after hi post hforms hpre).mp h
    · intro h
      obtain ⟨pre, lo, before, after, hi, post, hforms, hpre⟩ := exists_hyphen hplain
      exact (hstops pre lo before after hi post hforms hpre).mpr
        (h.hyphen pre lo before after hi post hforms hpre)

end BlessStar.Business.VersionCheck
