import Mathlib.Tactic.IntervalCases
import BlessStar.Lib.ByteString

/-!
# JSON texts

The grammar of JSON as trees that hold all bytes of a text: strings and numbers
as they are written, and the white space between tokens.  A text is what such a
tree prints; the value it stands for forgets white space and decodes strings.
-/

namespace BlessStar.Lib.JsonText

open Lib.ByteString

abbrev ch (c : Char) : UInt8 := c.toUInt8

/-! ## Lexical elements -/

def IsGap (ws : Bytes) : Prop := ∀ c ∈ ws, c ∈ ascii " \t\n\r"

instance (ws : Bytes) : Decidable (IsGap ws) :=
  inferInstanceAs (Decidable (∀ c ∈ ws, c ∈ ascii " \t\n\r"))

/-- `true`, `false` and `null`. -/
inductive Word
  | true
  | false
  | null
  deriving DecidableEq

def Word.text : Word → Bytes
  | .true => ascii "true"
  | .false => ascii "false"
  | .null => ascii "null"

def IsDigits (s : Bytes) : Prop := s ≠ [] ∧ ∀ c ∈ s, (digitValue 10 c).isSome

inductive IsInteger : Bytes → Prop
  | mk {sign int : Bytes} : (sign = [] ∨ sign = ascii "-") → IsDigits int →
      (int.length = 1 ∨ int.head? ≠ some (ch '0')) → IsInteger (sign ++ int)

inductive IsNumber : Bytes → Prop
  | mk {int frac exp : Bytes} : IsInteger int →
      (frac = [] ∨ ∃ ds, frac = ch '.' :: ds ∧ IsDigits ds) →
      (exp = [] ∨ ∃ e s ds, exp = e :: (s ++ ds) ∧ e ∈ ascii "eE" ∧
        s ∈ [[], ascii "+", ascii "-"] ∧ IsDigits ds) →
      IsNumber (int ++ frac ++ exp)

inductive IsBody : Bytes → Prop
  | nil : IsBody []
  | raw {c : UInt8} {s : Bytes} : 32 ≤ c → c ≠ ch '"' → c ≠ ch '\\' → IsBody s → IsBody (c :: s)
  | escape {e : UInt8} {s : Bytes} : e ∈ ascii "\"\\/bfnrt" → IsBody s →
      IsBody (ch '\\' :: e :: s)
  | unicode {d₁ d₂ d₃ d₄ : UInt8} {s : Bytes} :
      (∀ d ∈ [d₁, d₂, d₃, d₄], (digitValue 16 d).isSome) → IsBody s →
      IsBody (ch '\\' :: ch 'u' :: d₁ :: d₂ :: d₃ :: d₄ :: s)

/-! ## Decoding strings -/

inductive CodeUnit
  | byte (b : UInt8)
  | code (n : Nat)
  deriving DecidableEq

def unescape (e : UInt8) : UInt8 :=
  if e = ch 'b' then 8
  else if e = ch 'f' then 12
  else if e = ch 'n' then 10
  else if e = ch 'r' then 13
  else if e = ch 't' then 9
  else e

def hex4 (d₁ d₂ d₃ d₄ : UInt8) : Nat :=
  [d₁, d₂, d₃, d₄].foldl (fun n d => n * 16 + (digitValue 16 d).getD 0) 0

def units : Bytes → List CodeUnit
  | [] => []
  | c :: s =>
      if c ≠ ch '\\' then .byte c :: units s
      else
        match s with
        | [] => []
        | e :: s =>
            if e ≠ ch 'u' then .byte (unescape e) :: units s
            else
              match s with
              | d₁ :: d₂ :: d₃ :: d₄ :: s => .code (hex4 d₁ d₂ d₃ d₄) :: units s
              | _ => []

/-- A code point in UTF-8; a surrogate by itself is written the same way. -/
def utf8 (n : Nat) : Bytes :=
  if n < 0x80 then [UInt8.ofNat n]
  else if n < 0x800 then [UInt8.ofNat (0xC0 + n / 64), UInt8.ofNat (0x80 + n % 64)]
  else if n < 0x10000 then
    [UInt8.ofNat (0xE0 + n / 4096), UInt8.ofNat (0x80 + n / 64 % 64),
      UInt8.ofNat (0x80 + n % 64)]
  else
    [UInt8.ofNat (0xF0 + n / 262144), UInt8.ofNat (0x80 + n / 4096 % 64),
      UInt8.ofNat (0x80 + n / 64 % 64), UInt8.ofNat (0x80 + n % 64)]

def encode : List CodeUnit → Bytes
  | [] => []
  | .byte b :: us => b :: encode us
  | .code n :: us =>
      match us with
      | .code low :: us' =>
          if 0xD800 ≤ n ∧ n < 0xDC00 ∧ 0xDC00 ≤ low ∧ low < 0xE000 then
            utf8 (0x10000 + (n - 0xD800) * 0x400 + (low - 0xDC00)) ++ encode us'
          else utf8 n ++ encode (.code low :: us')
      | us => utf8 n ++ encode us

def decode (body : Bytes) : Bytes := encode (units body)

/-! ## Texts -/

structure MemberKey where
  before : Bytes
  body : Bytes
  beforeColon : Bytes
  afterColon : Bytes

mutual

inductive Json
  | string (body : Bytes)
  | number (text : Bytes)
  | word (w : Word)
  | emptyArray (ws : Bytes)
  | array (items : Items)
  | emptyObject (ws : Bytes)
  | object (members : Members)

inductive Items
  | last (before : Bytes) (item : Json) (after : Bytes)
  | more (before : Bytes) (item : Json) (after : Bytes) (rest : Items)

inductive Members
  | last (key : MemberKey) (value : Json) (after : Bytes)
  | more (key : MemberKey) (value : Json) (after : Bytes) (rest : Members)

end

def MemberKey.text (key : MemberKey) : Bytes :=
  key.before ++ ch '"' :: (key.body ++ ch '"' :: (key.beforeColon ++ ch ':' :: key.afterColon))

mutual

def Json.text : Json → Bytes
  | .string body => ch '"' :: (body ++ [ch '"'])
  | .number text => text
  | .word w => w.text
  | .emptyArray ws => ch '[' :: (ws ++ [ch ']'])
  | .array items => ch '[' :: (items.text ++ [ch ']'])
  | .emptyObject ws => ch '\x7b' :: (ws ++ [ch '\x7d'])
  | .object members => ch '\x7b' :: (members.text ++ [ch '\x7d'])

def Items.text : Items → Bytes
  | .last before item after => before ++ (item.text ++ after)
  | .more before item after rest => before ++ (item.text ++ (after ++ ch ',' :: rest.text))

def Members.text : Members → Bytes
  | .last key value after => key.text ++ (value.text ++ after)
  | .more key value after rest => key.text ++ (value.text ++ (after ++ ch ',' :: rest.text))

end

structure MemberKey.Valid (key : MemberKey) : Prop where
  before : IsGap key.before
  body : IsBody key.body
  beforeColon : IsGap key.beforeColon
  afterColon : IsGap key.afterColon

mutual

/-- The strings, numbers and white space of a text are well-formed. -/
def Json.Valid : Json → Prop
  | .string body => IsBody body
  | .number text => IsNumber text
  | .word _ => True
  | .emptyArray ws => IsGap ws
  | .array items => items.Valid
  | .emptyObject ws => IsGap ws
  | .object members => members.Valid

def Items.Valid : Items → Prop
  | .last before item after => IsGap before ∧ item.Valid ∧ IsGap after
  | .more before item after rest => IsGap before ∧ item.Valid ∧ IsGap after ∧ rest.Valid

def Members.Valid : Members → Prop
  | .last key value after => key.Valid ∧ value.Valid ∧ IsGap after
  | .more key value after rest => key.Valid ∧ value.Valid ∧ IsGap after ∧ rest.Valid

end

structure Document where
  before : Bytes
  value : Json
  after : Bytes

def Document.text (doc : Document) : Bytes := doc.before ++ (doc.value.text ++ doc.after)

structure Document.Valid (doc : Document) : Prop where
  before : IsGap doc.before
  value : doc.value.Valid
  after : IsGap doc.after

/-! ## Values -/

mutual

inductive Tree
  | string (s : Bytes)
  | number (text : Bytes)
  | word (w : Word)
  | array (items : Trees)
  | object (members : Fields)
  deriving DecidableEq

inductive Trees
  | nil
  | cons (head : Tree) (tail : Trees)
  deriving DecidableEq

inductive Fields
  | nil
  | cons (key : Bytes) (value : Tree) (rest : Fields)
  deriving DecidableEq

end

mutual

def Json.tree : Json → Tree
  | .string body => .string (decode body)
  | .number text => .number text
  | .word w => .word w
  | .emptyArray _ => .array .nil
  | .array items => .array items.trees
  | .emptyObject _ => .object .nil
  | .object members => .object members.fields

def Items.trees : Items → Trees
  | .last _ item _ => .cons item.tree .nil
  | .more _ item _ rest => .cons item.tree rest.trees

def Members.fields : Members → Fields
  | .last key value _ => .cons (decode key.body) value.tree .nil
  | .more key value _ rest => .cons (decode key.body) value.tree rest.fields

end

def Spells (text : Bytes) (tree : Tree) : Prop :=
  ∃ doc : Document, doc.Valid ∧ doc.text = text ∧ doc.value.tree = tree

/-! ## Bytes of a text -/

theorem digitValue_isSome {c : UInt8} :
    (digitValue 10 c).isSome ↔ 48 ≤ c.toNat ∧ c.toNat ≤ 57 := by
  unfold digitValue
  constructor
  · intro h
    by_contra hne
    simp only [if_neg hne] at h
    split at h
    · split at h
      · omega
      · simp at h
    · split at h
      · split at h
        · omega
        · simp at h
      · simp at h
  · intro h
    simp only [if_pos h]
    rw [if_pos (by omega)]
    rfl

theorem mem_digits {c : UInt8} (h : (digitValue 10 c).isSome) : c ∈ ascii "0123456789" := by
  have hrange := digitValue_isSome.mp h
  have hdigit : ∀ n, 48 ≤ n → n ≤ 57 → UInt8.ofNat n ∈ ascii "0123456789" := by
    intro n hlow hhigh
    interval_cases n <;> decide
  have hof := hdigit c.toNat hrange.1 hrange.2
  rwa [UInt8.ofNat_toNat] at hof

theorem IsInteger.head {t : Bytes} (h : IsInteger t) :
    ∃ c s, t = c :: s ∧ ((digitValue 10 c).isSome ∨ c = ch '-') := by
  obtain ⟨hsign, hint, -⟩ := h
  rcases hsign with rfl | rfl
  · obtain ⟨c, s, rfl⟩ := List.exists_cons_of_ne_nil hint.1
    exact ⟨c, s, rfl, .inl (hint.2 c List.mem_cons_self)⟩
  · exact ⟨_, _, rfl, .inr rfl⟩

theorem IsInteger.mem {t : Bytes} (h : IsInteger t) {c : UInt8} (hc : c ∈ t) :
    (digitValue 10 c).isSome ∨ c = ch '-' := by
  obtain ⟨hsign, hint, -⟩ := h
  rcases List.mem_append.mp hc with hc | hc
  · rcases hsign with rfl | rfl
    · simp at hc
    · exact .inr (List.mem_singleton.mp hc)
  · exact .inl (hint.2 c hc)

theorem IsNumber.head {t : Bytes} (h : IsNumber t) :
    ∃ c s, t = c :: s ∧ ((digitValue 10 c).isSome ∨ c = ch '-') := by
  obtain ⟨hint, -, -⟩ := h
  obtain ⟨c, s, rfl, hc⟩ := hint.head
  exact ⟨c, _, rfl, hc⟩

theorem IsNumber.mem {t : Bytes} (h : IsNumber t) {c : UInt8} (hc : c ∈ t) :
    (digitValue 10 c).isSome ∨ c ∈ ascii "-+.eE" := by
  obtain ⟨hint, hfrac, hexp⟩ := h
  rcases List.mem_append.mp hc with hc | hc
  · rcases List.mem_append.mp hc with hc | hc
    · rcases hint.mem hc with hd | rfl
      · exact .inl hd
      · exact .inr (by decide)
    · rcases hfrac with rfl | ⟨ds, rfl, hds⟩
      · simp at hc
      · rcases List.mem_cons.mp hc with rfl | hc
        · exact .inr (by decide)
        · exact .inl (hds.2 c hc)
  · rcases hexp with rfl | ⟨e, sign, ds, rfl, he, hsign, hds⟩
    · simp at hc
    · rcases List.mem_cons.mp hc with rfl | hc
      · exact .inr ((by decide : ∀ e ∈ ascii "eE", e ∈ ascii "-+.eE") _ he)
      · rcases List.mem_append.mp hc with hc | hc
        · refine .inr ((by decide : ∀ s ∈ [[], ascii "+", ascii "-"], ∀ c ∈ s,
            c ∈ ascii "-+.eE") sign hsign c hc)
        · exact .inl (hds.2 c hc)

theorem IsNumber.forall {t : Bytes} (h : IsNumber t) (p : UInt8 → Prop)
    (hp : ∀ c ∈ ascii "0123456789-+.eE", p c) : ∀ c ∈ t, p c := by
  intro c hc
  apply hp
  rcases h.mem hc with hd | hd
  · exact (by decide : ∀ c ∈ ascii "0123456789", c ∈ ascii "0123456789-+.eE") c (mem_digits hd)
  · exact (by decide : ∀ c ∈ ascii "-+.eE", c ∈ ascii "0123456789-+.eE") c hd

def StartsToken (s : Bytes) : Prop := ∃ c t, s = c :: t ∧ c ∉ ascii " \t\n\r"

theorem StartsToken.append {s : Bytes} (h : StartsToken s) (t : Bytes) : StartsToken (s ++ t) := by
  obtain ⟨c, u, rfl, hc⟩ := h
  exact ⟨c, u ++ t, rfl, hc⟩

theorem IsNumber.startsToken {t : Bytes} (h : IsNumber t) : StartsToken t := by
  obtain ⟨c, s, rfl, -⟩ := h.head
  exact ⟨c, s, rfl, h.forall (· ∉ ascii " \t\n\r") (by decide) c List.mem_cons_self⟩

theorem Json.startsToken {v : Json} (hv : v.Valid) : StartsToken v.text := by
  cases v with
  | string body => exact ⟨_, _, rfl, by decide⟩
  | number text => exact IsNumber.startsToken hv
  | word w => cases w <;> exact ⟨_, _, rfl, by decide⟩
  | emptyArray ws => exact ⟨_, _, rfl, by decide⟩
  | array items => exact ⟨_, _, rfl, by decide⟩
  | emptyObject ws => exact ⟨_, _, rfl, by decide⟩
  | object members => exact ⟨_, _, rfl, by decide⟩

theorem Json.length_text_pos {v : Json} (hv : v.Valid) : 0 < v.text.length := by
  obtain ⟨c, s, hs, -⟩ := Json.startsToken hv
  rw [hs]
  exact Nat.succ_pos _

theorem IsGap.nil : IsGap [] := fun _ hc => absurd hc List.not_mem_nil

theorem IsGap.append {s t : Bytes} (hs : IsGap s) (ht : IsGap t) : IsGap (s ++ t) := fun c hc =>
  (List.mem_append.mp hc).elim (hs c) (ht c)

theorem IsGap.unique {g g' s s' : Bytes} (hg : IsGap g) (hg' : IsGap g') (hs : StartsToken s)
    (hs' : StartsToken s') (heq : g ++ s = g' ++ s') : g = g' ∧ s = s' := by
  obtain ⟨c, t, rfl, hc⟩ := hs
  obtain ⟨c', t', rfl, hc'⟩ := hs'
  induction g generalizing g' with
  | nil =>
      cases g' with
      | nil => exact ⟨rfl, heq⟩
      | cons d g' =>
          obtain ⟨rfl, -⟩ := List.cons.inj heq
          exact absurd (hg' c List.mem_cons_self) hc
  | cons d g ih =>
      cases g' with
      | nil =>
          obtain ⟨rfl, -⟩ := List.cons.inj heq
          exact absurd (hg d List.mem_cons_self) hc'
      | cons d' g' =>
          obtain ⟨rfl, hrest⟩ := List.cons.inj heq
          obtain ⟨rfl, hsame⟩ := ih (fun x hx => hg x (List.mem_cons_of_mem d hx))
            (fun x hx => hg' x (List.mem_cons_of_mem d hx)) hrest
          exact ⟨rfl, hsame⟩

/-! ## Decoded strings -/

theorem units_byte {c : UInt8} (hc : c ≠ ch '\\') (s : Bytes) :
    units (c :: s) = .byte c :: units s := by
  rw [units.eq_def]
  dsimp only
  rw [if_pos hc]

theorem units_escape {e : UInt8} (he : e ≠ ch 'u') (s : Bytes) :
    units (ch '\\' :: e :: s) = .byte (unescape e) :: units s := by
  rw [units.eq_def]
  dsimp only
  rw [if_neg (by simp), if_pos he]

theorem units_unicode (d₁ d₂ d₃ d₄ : UInt8) (s : Bytes) :
    units (ch '\\' :: ch 'u' :: d₁ :: d₂ :: d₃ :: d₄ :: s) =
      .code (hex4 d₁ d₂ d₃ d₄) :: units s := by
  rw [units.eq_def]
  dsimp only
  rw [if_neg (by simp), if_neg (by simp)]

theorem decode_of_not_mem {body : Bytes} (h : ch '\\' ∉ body) : decode body = body := by
  induction body with
  | nil => rfl
  | cons c s ih =>
      obtain ⟨hc, hs⟩ := not_or.mp (mt List.mem_cons.mpr h)
      have hrest : encode (units s) = s := ih hs
      rw [decode, units_byte (Ne.symm hc), encode, hrest]

theorem length_utf8 (n : Nat) : (utf8 n).length ≤ 4 := by
  unfold utf8
  split
  · exact (by decide : 1 ≤ 4)
  split
  · exact (by decide : 2 ≤ 4)
  split
  · exact (by decide : 3 ≤ 4)
  · exact Nat.le_refl 4

def CodeUnit.width : CodeUnit → Nat
  | .byte _ => 1
  | .code _ => 4

def weigh (w : UInt8 → Nat) (s : Bytes) : Nat := (s.map w).sum

structure IsWeight (w : UInt8 → Nat) : Prop where
  le_one : ∀ c, w c ≤ 1
  solid : ∀ c, c ∉ ascii " \t\n\r" → w c = 1

theorem isWeight_one : IsWeight fun _ => 1 := ⟨fun _ => le_rfl, fun _ _ => rfl⟩

@[simp] theorem weigh_nil (w : UInt8 → Nat) : weigh w [] = 0 := rfl

@[simp] theorem weigh_cons (w : UInt8 → Nat) (c : UInt8) (s : Bytes) :
    weigh w (c :: s) = w c + weigh w s := rfl

@[simp] theorem weigh_append (w : UInt8 → Nat) (s t : Bytes) :
    weigh w (s ++ t) = weigh w s + weigh w t := by
  simp [weigh]

theorem weigh_one (s : Bytes) : weigh (fun _ => 1) s = s.length := by
  simp [weigh]

theorem weigh_le_of_sublist (w : UInt8 → Nat) {s t : Bytes} (h : s.Sublist t) :
    weigh w s ≤ weigh w t := by
  induction h with
  | slnil => exact le_rfl
  | cons c _ ih => exact ih.trans (Nat.le_add_left _ _)
  | cons_cons c _ ih => exact Nat.add_le_add_left ih _

def ink (c : UInt8) : Nat := if c ∈ ascii " \t\n\r" then 0 else 1

theorem isWeight_ink : IsWeight ink where
  le_one := fun c => by
    rw [ink]
    split <;> omega
  solid := fun _ hc => if_neg hc

def CodeUnit.weight (w : UInt8 → Nat) : CodeUnit → Nat
  | .byte b => w b
  | u => u.width

section Weights

variable {w : UInt8 → Nat}

theorem IsWeight.weigh_le (hw : IsWeight w) (s : Bytes) : weigh w s ≤ s.length := by
  induction s with
  | nil => exact Nat.le_refl 0
  | cons c s ih =>
      have hone := hw.le_one c
      rw [weigh_cons, List.length_cons]
      omega

theorem IsWeight.weigh_encode (hw : IsWeight w) (us : List CodeUnit) :
    weigh w (encode us) ≤ (us.map (CodeUnit.weight w)).sum := by
  induction us using encode.induct with
  | case1 => exact Nat.le_refl 0
  | case2 b us ih =>
      rw [encode, weigh_cons, List.map_cons, List.sum_cons, CodeUnit.weight]
      omega
  | case3 n low us h ih =>
      have hpair := length_utf8 (0x10000 + (n - 0xD800) * 0x400 + (low - 0xDC00))
      have hweight := hw.weigh_le (utf8 (0x10000 + (n - 0xD800) * 0x400 + (low - 0xDC00)))
      rw [encode, if_pos h, weigh_append]
      simp only [List.map_cons, List.sum_cons, CodeUnit.weight, CodeUnit.width]
      omega
  | case4 n low us h ih =>
      have hone := length_utf8 n
      have hweight := hw.weigh_le (utf8 n)
      rw [encode, if_neg h, weigh_append]
      simp only [List.map_cons, List.sum_cons, CodeUnit.weight, CodeUnit.width] at ih ⊢
      omega
  | case5 n us h ih =>
      have hone := length_utf8 n
      have hweight := hw.weigh_le (utf8 n)
      rw [encode.eq_def]
      dsimp only
      split
      · next low us' => exact absurd rfl (h low us')
      · rw [weigh_append]
        simp only [List.map_cons, List.sum_cons, CodeUnit.weight, CodeUnit.width]
        omega

theorem IsWeight.weigh_decode (hw : IsWeight w) {body : Bytes} (hb : IsBody body) :
    weigh w (decode body) ≤ weigh w body ∧
      (ch '\\' ∈ body → weigh w (decode body) < weigh w body) := by
  have hslash : w (ch '\\') = 1 := hw.solid _ (by decide)
  have hunits : ((units body).map (CodeUnit.weight w)).sum ≤ weigh w body ∧
      (ch '\\' ∈ body → ((units body).map (CodeUnit.weight w)).sum < weigh w body) := by
    induction hb with
    | nil => exact ⟨Nat.le_refl 0, fun h => absurd h List.not_mem_nil⟩
    | @raw c s _ _ hne _ ih =>
        rw [units_byte hne, List.map_cons, List.sum_cons, weigh_cons, CodeUnit.weight]
        refine ⟨by omega, fun h => ?_⟩
        have hmore := ih.2 ((List.mem_cons.mp h).resolve_left (Ne.symm hne))
        omega
    | @escape e s he _ ih =>
        have hne : e ≠ ch 'u' := fun h => absurd (h ▸ he) (by decide)
        have hletter : w e = 1 :=
          hw.solid e ((by decide : ∀ e ∈ ascii "\"\\/bfnrt", e ∉ ascii " \t\n\r") e he)
        have hone := hw.le_one (unescape e)
        rw [units_escape hne, List.map_cons, List.sum_cons, weigh_cons, weigh_cons,
          CodeUnit.weight]
        exact ⟨by omega, fun _ => by omega⟩
    | @unicode d₁ d₂ d₃ d₄ s hd _ ih =>
        have hhex : ∀ d : UInt8, (digitValue 16 d).isSome → w d = 1 := by
          intro d hdigit
          apply hw.solid
          intro hgap
          exact absurd hdigit ((by decide : ∀ d ∈ ascii " \t\n\r", ¬(digitValue 16 d).isSome) d
            hgap)
        have hu : w (ch 'u') = 1 := hw.solid _ (by decide)
        simp only [List.forall_mem_cons] at hd
        obtain ⟨h₁, h₂, h₃, h₄, -⟩ := hd
        rw [units_unicode, List.map_cons, List.sum_cons]
        simp only [weigh_cons, hhex _ h₁, hhex _ h₂, hhex _ h₃, hhex _ h₄, CodeUnit.weight,
          CodeUnit.width]
        exact ⟨by omega, fun _ => by omega⟩
  have hweight := hw.weigh_encode (units body)
  exact ⟨hweight.trans hunits.1, fun h => Nat.lt_of_le_of_lt hweight (hunits.2 h)⟩

end Weights

theorem IsBody.length_decode {body : Bytes} (hb : IsBody body) :
    (decode body).length ≤ body.length ∧
      (ch '\\' ∈ body → (decode body).length < body.length) := by
  have hweight := isWeight_one.weigh_decode hb
  rwa [weigh_one, weigh_one] at hweight

theorem IsBody.ge {body : Bytes} (hb : IsBody body) : ∀ c ∈ body, 32 ≤ c := by
  induction hb with
  | nil => simp
  | raw hc _ _ _ ih => exact List.forall_mem_cons.mpr ⟨hc, ih⟩
  | escape he _ ih =>
      refine List.forall_mem_cons.mpr ⟨by decide, List.forall_mem_cons.mpr ⟨?_, ih⟩⟩
      exact (by decide : ∀ e ∈ ascii "\"\\/bfnrt", 32 ≤ e) _ he
  | unicode hd _ ih =>
      simp only [List.forall_mem_cons] at hd ⊢
      have hhex : ∀ d : UInt8, (digitValue 16 d).isSome → 32 ≤ d := by
        intro d hd
        by_contra hlt
        have hsmall : ∀ n < 32, ¬(digitValue 16 (UInt8.ofNat n)).isSome := by decide
        refine hsmall d.toNat ?_ (by rwa [UInt8.ofNat_toNat])
        simpa [UInt8.le_iff_toNat_le] using hlt
      exact ⟨by decide, by decide, hhex _ hd.1, hhex _ hd.2.1, hhex _ hd.2.2.1, hhex _ hd.2.2.2.1,
        ih⟩

theorem IsBody.raw_of_not_mem {body : Bytes} (hb : IsBody body) (h : ch '\\' ∉ body) :
    ∀ c ∈ body, 32 ≤ c ∧ c ≠ ch '"' := by
  induction hb with
  | nil => simp
  | raw hc hquote _ _ ih =>
      exact List.forall_mem_cons.mpr ⟨⟨hc, hquote⟩, ih fun hs => h (List.mem_cons_of_mem _ hs)⟩
  | escape => exact absurd List.mem_cons_self h
  | unicode => exact absurd List.mem_cons_self h

theorem IsBody.head_ne_quote {body : Bytes} (hb : IsBody body) : body.head? ≠ some (ch '"') := by
  cases hb with
  | nil => simp
  | raw _ hquote _ _ => simpa using hquote
  | escape => exact fun h => absurd (Option.some.inj h) (by decide)
  | unicode => exact fun h => absurd (Option.some.inj h) (by decide)

theorem IsBody.of_append_space {a b : Bytes} (hb : IsBody (a ++ ch ' ' :: b)) :
    IsBody a ∧ units (a ++ ch ' ' :: b) = units a ++ .byte (ch ' ') :: units b := by
  generalize hs : a ++ ch ' ' :: b = s at hb
  induction hb generalizing a with
  | nil => exact absurd hs (by simp)
  | @raw c s hc hquote hslash _ ih =>
      cases a with
      | nil =>
          obtain ⟨rfl, rfl⟩ := List.cons.inj hs
          exact ⟨.nil, units_byte (by decide) b⟩
      | cons d a =>
          obtain ⟨rfl, hrest⟩ := List.cons.inj hs
          obtain ⟨ha, hunits⟩ := ih hrest
          exact ⟨.raw hc hquote hslash ha, by rw [units_byte hslash, units_byte hslash, hunits]; rfl⟩
  | @escape e s he _ ih =>
      have hne : e ≠ ch 'u' := fun h => absurd (h ▸ he) (by decide)
      have hspace : e ≠ ch ' ' := fun h => absurd (h ▸ he) (by decide)
      match a with
      | [] => exact absurd (List.cons.inj hs).1 (by decide)
      | [d] => exact absurd (List.cons.inj (List.cons.inj hs).2).1.symm hspace
      | d :: d' :: a =>
          obtain ⟨rfl, hs'⟩ := List.cons.inj hs
          obtain ⟨rfl, hrest⟩ := List.cons.inj hs'
          obtain ⟨ha, hunits⟩ := ih hrest
          exact ⟨.escape he ha, by rw [units_escape hne, units_escape hne, hunits]; rfl⟩
  | @unicode d₁ d₂ d₃ d₄ s hd _ ih =>
      have hspace : ∀ d : UInt8, (digitValue 16 d).isSome → ch ' ' ≠ d := by
        rintro d hsome rfl
        exact absurd hsome (by decide)
      simp only [List.forall_mem_cons] at hd
      match a with
      | [] => exact absurd (List.cons.inj hs).1 (by decide)
      | [_] => exact absurd (List.cons.inj (List.cons.inj hs).2).1 (by decide)
      | [_, _] => simp [hspace d₁ hd.1] at hs
      | [_, _, _] => simp [hspace d₂ hd.2.1] at hs
      | [_, _, _, _] => simp [hspace d₃ hd.2.2.1] at hs
      | [_, _, _, _, _] => simp [hspace d₄ hd.2.2.2.1] at hs
      | _ :: _ :: _ :: _ :: _ :: _ :: a =>
          simp only [List.cons_append, List.cons.injEq] at hs
          obtain ⟨rfl, rfl, rfl, rfl, rfl, rfl, hrest⟩ := hs
          obtain ⟨ha, hunits⟩ := ih hrest
          refine ⟨.unicode ?_ ha, by rw [units_unicode, units_unicode, hunits]; rfl⟩
          simp only [List.forall_mem_cons]
          exact hd

theorem encode_append_byte (us vs : List CodeUnit) (b : UInt8) :
    encode (us ++ .byte b :: vs) = encode us ++ b :: encode vs := by
  induction us using encode.induct with
  | case1 => rfl
  | case2 c us ih => rw [List.cons_append, encode, encode, ih, List.cons_append]
  | case3 n low us h ih =>
      rw [List.cons_append, List.cons_append, encode, if_pos h, encode, if_pos h, ih,
        List.append_assoc]
  | case4 n low us h ih =>
      rw [List.cons_append] at ih
      rw [List.cons_append, List.cons_append, encode, if_neg h, encode, if_neg h, ih,
        List.append_assoc]
  | case5 n us h ih =>
      have hone : ∀ vs, (∀ low vs', vs ≠ .code low :: vs') →
          encode (.code n :: vs) = utf8 n ++ encode vs := by
        intro vs hvs
        rw [encode.eq_def]
        dsimp only
        split
        · next low vs' => exact absurd rfl (hvs low vs')
        · rfl
      have hnext : ∀ low vs', us ++ .byte b :: vs ≠ .code low :: vs' := by
        intro low vs' heq
        cases us with
        | nil => exact absurd (List.cons.inj heq).1 (by simp)
        | cons u us => exact h low us (by rw [(List.cons.inj heq).1])
      rw [List.cons_append, hone _ hnext, ih, hone us fun low us' hus => h low us' hus,
        List.append_assoc]

theorem IsBody.decode_append_space {a b : Bytes} (hb : IsBody (a ++ ch ' ' :: b)) :
    decode (a ++ ch ' ' :: b) = decode a ++ ch ' ' :: decode b := by
  rw [decode, (IsBody.of_append_space hb).2, encode_append_byte]
  rfl

theorem IsBody.decode_ne_before_space {a b : Bytes} (hb : IsBody (a ++ ch ' ' :: b)) :
    decode (a ++ ch ' ' :: b) ≠ a := by
  intro heq
  induction hn : a.length using Nat.strong_induction_on generalizing a b with
  | _ n ih =>
      have hsplit := (IsBody.decode_append_space hb).symm.trans heq
      -- the part before the space is once more a string and a space
      have hshorter : (decode a).length < n := by
        have hlength := congrArg List.length hsplit
        rw [List.length_append, List.length_cons] at hlength
        omega
      have ha := (IsBody.of_append_space hb).1
      rw [← hsplit] at ha
      exact ih _ hshorter ha (by rw [hsplit]) rfl

theorem isBody_of_plain {s : Bytes} (hs : ∀ c ∈ s, 32 ≤ c ∧ c ≠ ch '"' ∧ c ≠ ch '\\') :
    IsBody s := by
  induction s with
  | nil => exact .nil
  | cons c s ih =>
      obtain ⟨⟨hc, hquote, hslash⟩, hrest⟩ := List.forall_mem_cons.mp hs
      exact .raw hc hquote hslash (ih hrest)

theorem IsBody.append {a b : Bytes} (ha : IsBody a) (hb : IsBody b) : IsBody (a ++ b) := by
  induction ha with
  | nil => exact hb
  | raw hc hquote hslash _ ih => exact .raw hc hquote hslash ih
  | escape he _ ih => exact .escape he ih
  | unicode hd _ ih => exact .unicode hd ih

theorem Items.trees_ne_nil (items : Items) : items.trees ≠ .nil := by
  cases items <;> exact Trees.noConfusion

theorem Members.fields_ne_nil (members : Members) : members.fields ≠ .nil := by
  cases members <;> exact Fields.noConfusion

/-! ## Compact texts -/

def Fields.ofList : List (Bytes × Tree) → Fields
  | [] => .nil
  | (key, value) :: rest => .cons key value (ofList rest)

def Trees.ofList : List Tree → Trees
  | [] => .nil
  | head :: tail => .cons head (ofList tail)

def compactMembers : Bytes × Json → List (Bytes × Json) → Members
  | m, [] => .last ⟨[], m.1, [], []⟩ m.2 []
  | m, m' :: ms => .more ⟨[], m.1, [], []⟩ m.2 [] (compactMembers m' ms)

def compactObject : List (Bytes × Json) → Json
  | [] => .emptyObject []
  | m :: ms => .object (compactMembers m ms)

def compactItems : Json → List Json → Items
  | v, [] => .last [] v []
  | v, v' :: vs => .more [] v [] (compactItems v' vs)

def compactArray : List Json → Json
  | [] => .emptyArray []
  | v :: vs => .array (compactItems v vs)

def compactMember (m : Bytes × Json) : Bytes := ch '"' :: (m.1 ++ ch '"' :: ch ':' :: m.2.text)

theorem intercalate_cons_flatMap (sep x : Bytes) (xs : List Bytes) :
    sep.intercalate (x :: xs) = x ++ xs.flatMap fun y => sep ++ y := by
  induction xs generalizing x with
  | nil => simp [List.intercalate]
  | cons y ys ih =>
      rw [List.intercalate_cons_cons, ih y, List.flatMap_cons]
      simp

/-- Members of an object, each behind the gap `before` and with the gap `colon` in front of its
value, and the gap `after` behind them. -/
def looseMembers (before colon after : Bytes) : Bytes × Json → List (Bytes × Json) → Members
  | m, [] => .last ⟨before, m.1, [], colon⟩ m.2 after
  | m, m' :: ms => .more ⟨before, m.1, [], colon⟩ m.2 [] (looseMembers before colon after m' ms)

def looseMember (colon : Bytes) (m : Bytes × Json) : Bytes :=
  ch '"' :: (m.1 ++ ch '"' :: ch ':' :: (colon ++ m.2.text))

/-- Members of an object, each behind the gap `before`, and the gap `after` behind them. -/
def spacedMembers (before after : Bytes) : Bytes × Json → List (Bytes × Json) → Members
  | m, [] => .last ⟨before, m.1, [], []⟩ m.2 after
  | m, m' :: ms => .more ⟨before, m.1, [], []⟩ m.2 [] (spacedMembers before after m' ms)

/-- Items of an array, the first one behind the gap `first`. -/
def spacedItems (first before after : Bytes) : Json → List Json → Items
  | v, [] => .last first v after
  | v, v' :: vs => .more first v [] (spacedItems before before after v' vs)

/-- An array whose first item stands behind the gap `first`, the others behind `before`, and its
end behind `after`. -/
def spacedArray (first before after : Bytes) : List Json → Json
  | [] => .emptyArray after
  | v :: vs => .array (spacedItems first before after v vs)

section Spaced

variable {first before colon after : Bytes}

theorem text_looseMembers (before colon after : Bytes) (m : Bytes × Json)
    (ms : List (Bytes × Json)) :
    (looseMembers before colon after m ms).text =
      [ch ','].intercalate ((m :: ms).map fun m => before ++ looseMember colon m) ++ after := by
  induction ms generalizing m with
  | nil => simp [looseMembers, Members.text, MemberKey.text, looseMember, List.intercalate]
  | cons m' ms ih =>
      rw [looseMembers, Members.text, ih]
      simp only [List.map_cons, List.intercalate_cons_cons]
      simp [MemberKey.text, looseMember]

theorem spacedMembers_eq (before after : Bytes) (m : Bytes × Json) (ms : List (Bytes × Json)) :
    spacedMembers before after m ms = looseMembers before [] after m ms := by
  induction ms generalizing m with
  | nil => rfl
  | cons m' ms ih => rw [spacedMembers, looseMembers, ih]

theorem text_spacedMembers (before after : Bytes) (m : Bytes × Json) (ms : List (Bytes × Json)) :
    (spacedMembers before after m ms).text =
      [ch ','].intercalate ((m :: ms).map fun m => before ++ compactMember m) ++ after := by
  rw [spacedMembers_eq, text_looseMembers]
  rfl

theorem text_spacedItems (first before after : Bytes) (v : Json) (vs : List Json) :
    (spacedItems first before after v vs).text =
      first ++ v.text ++ (vs.flatMap fun v => ch ',' :: (before ++ v.text)) ++ after := by
  induction vs generalizing first v with
  | nil => simp [spacedItems, Items.text]
  | cons v' vs ih =>
      rw [spacedItems, Items.text, ih]
      simp

theorem valid_looseMembers (hbefore : IsGap before) (hcolon : IsGap colon) (hafter : IsGap after)
    {m : Bytes × Json} {ms : List (Bytes × Json)} (h : ∀ m' ∈ m :: ms, IsBody m'.1 ∧ m'.2.Valid) :
    (looseMembers before colon after m ms).Valid := by
  induction ms generalizing m with
  | nil =>
      obtain ⟨hbody, hvalue⟩ := h m List.mem_cons_self
      exact ⟨⟨hbefore, hbody, .nil, hcolon⟩, hvalue, hafter⟩
  | cons m' ms ih =>
      obtain ⟨⟨hbody, hvalue⟩, hrest⟩ := List.forall_mem_cons.mp h
      exact ⟨⟨hbefore, hbody, .nil, hcolon⟩, hvalue, .nil, ih hrest⟩

theorem valid_spacedMembers (hbefore : IsGap before) (hafter : IsGap after) {m : Bytes × Json}
    {ms : List (Bytes × Json)} (h : ∀ m' ∈ m :: ms, IsBody m'.1 ∧ m'.2.Valid) :
    (spacedMembers before after m ms).Valid := by
  rw [spacedMembers_eq]
  exact valid_looseMembers hbefore .nil hafter h

theorem valid_spacedItems (hfirst : IsGap first) (hbefore : IsGap before) (hafter : IsGap after)
    {v : Json} {vs : List Json} (h : ∀ v' ∈ v :: vs, v'.Valid) :
    (spacedItems first before after v vs).Valid := by
  induction vs generalizing first v with
  | nil => exact ⟨hfirst, h v List.mem_cons_self, hafter⟩
  | cons v' vs ih =>
      obtain ⟨hvalue, hrest⟩ := List.forall_mem_cons.mp h
      exact ⟨hfirst, hvalue, .nil, ih hbefore hrest⟩

theorem fields_looseMembers (before colon after : Bytes) (m : Bytes × Json)
    (ms : List (Bytes × Json)) :
    (looseMembers before colon after m ms).fields =
      Fields.ofList ((m :: ms).map fun m => (decode m.1, m.2.tree)) := by
  induction ms generalizing m with
  | nil => rfl
  | cons m' ms ih =>
      rw [looseMembers, Members.fields, ih]
      rfl

theorem fields_spacedMembers (before after : Bytes) (m : Bytes × Json)
    (ms : List (Bytes × Json)) :
    (spacedMembers before after m ms).fields =
      Fields.ofList ((m :: ms).map fun m => (decode m.1, m.2.tree)) := by
  rw [spacedMembers_eq, fields_looseMembers]

theorem trees_spacedItems (first before after : Bytes) (v : Json) (vs : List Json) :
    (spacedItems first before after v vs).trees = Trees.ofList ((v :: vs).map Json.tree) := by
  induction vs generalizing first v with
  | nil => rfl
  | cons v' vs ih =>
      rw [spacedItems, Items.trees, ih]
      rfl

end Spaced

theorem compactMembers_eq (m : Bytes × Json) (ms : List (Bytes × Json)) :
    compactMembers m ms = spacedMembers [] [] m ms := by
  induction ms generalizing m with
  | nil => rfl
  | cons m' ms ih => rw [compactMembers, spacedMembers, ih]

theorem compactItems_eq (v : Json) (vs : List Json) :
    compactItems v vs = spacedItems [] [] [] v vs := by
  induction vs generalizing v with
  | nil => rfl
  | cons v' vs ih => rw [compactItems, spacedItems, ih]

theorem text_compactObject (ms : List (Bytes × Json)) :
    (compactObject ms).text =
      ch '\x7b' :: ([ch ','].intercalate (ms.map compactMember) ++ [ch '\x7d']) := by
  cases ms with
  | nil => rfl
  | cons m ms =>
      rw [compactObject, Json.text, compactMembers_eq, text_spacedMembers, List.append_nil]
      rfl

theorem text_compactArray (vs : List Json) :
    (compactArray vs).text =
      ch '[' :: ([ch ','].intercalate (vs.map Json.text) ++ [ch ']']) := by
  cases vs with
  | nil => rfl
  | cons v vs =>
      rw [compactArray, Json.text, compactItems_eq, text_spacedItems, List.map_cons,
        intercalate_cons_flatMap, List.flatMap_map, List.append_nil]
      rfl

theorem valid_compactObject {ms : List (Bytes × Json)} (h : ∀ m ∈ ms, IsBody m.1 ∧ m.2.Valid) :
    (compactObject ms).Valid := by
  cases ms with
  | nil => exact IsGap.nil
  | cons m ms =>
      rw [compactObject, Json.Valid, compactMembers_eq]
      exact valid_spacedMembers .nil .nil h

theorem valid_compactArray {vs : List Json} (h : ∀ v ∈ vs, v.Valid) : (compactArray vs).Valid := by
  cases vs with
  | nil => exact IsGap.nil
  | cons v vs =>
      rw [compactArray, Json.Valid, compactItems_eq]
      exact valid_spacedItems .nil .nil .nil h

theorem tree_compactObject (ms : List (Bytes × Json)) :
    (compactObject ms).tree = .object (Fields.ofList (ms.map fun m => (decode m.1, m.2.tree))) := by
  cases ms with
  | nil => rfl
  | cons m ms => rw [compactObject, Json.tree, compactMembers_eq, fields_spacedMembers]

theorem tree_compactArray (vs : List Json) :
    (compactArray vs).tree = .array (Trees.ofList (vs.map Json.tree)) := by
  cases vs with
  | nil => rfl
  | cons v vs => rw [compactArray, Json.tree, compactItems_eq, trees_spacedItems]

/-! ## Braces -/

/-- Where a reader of single bytes is: in front of a token, right behind an opening
brace or not, in a string, or behind a backslash of one. -/
inductive BraceScan
  | outside (opened : Bool)
  | inString
  | escaped
  deriving DecidableEq

/-- The next byte; an opening brace right behind another one is refused. -/
def BraceScan.step : BraceScan → UInt8 → Option BraceScan
  | .outside opened, c =>
      if c = ch '"' then some .inString
      else if c = ch '\x7b' then if opened then none else some (.outside true)
      else if c ∈ ascii " \t\n\r" then some (.outside opened)
      else some (.outside false)
  | .inString, c =>
      if c = ch '"' then some (.outside false)
      else if c = ch '\\' then some .escaped
      else some .inString
  | .escaped, _ => some .inString

def BraceScan.run (s : BraceScan) (text : Bytes) : Option BraceScan := text.foldlM step s

namespace BraceScan

@[simp] theorem run_nil (s : BraceScan) : s.run [] = some s := rfl

@[simp] theorem run_cons (s : BraceScan) (c : UInt8) (text : Bytes) :
    s.run (c :: text) = (s.step c).bind fun s' => s'.run text := rfl

theorem run_append (s : BraceScan) (a b : Bytes) :
    s.run (a ++ b) = (s.run a).bind fun s' => s'.run b := List.foldlM_append

theorem run_gap {ws : Bytes} (hws : IsGap ws) (opened : Bool) :
    (outside opened).run ws = some (.outside opened) := by
  induction ws with
  | nil => rfl
  | cons c ws ih =>
      obtain ⟨hc, hrest⟩ := List.forall_mem_cons.mp hws
      have hother : ∀ c ∈ ascii " \t\n\r", c ≠ ch '"' ∧ c ≠ ch '\x7b' := by decide
      obtain ⟨hquote, hbrace⟩ := hother c hc
      rw [run_cons, step, if_neg hquote, if_neg hbrace, if_pos hc]
      exact ih hrest

theorem step_inString {c : UInt8} (hquote : c ≠ ch '"') (hslash : c ≠ ch '\\') :
    inString.step c = some .inString := by
  rw [step, if_neg hquote, if_neg hslash]

theorem run_body {body : Bytes} (hb : IsBody body) : inString.run body = some .inString := by
  induction hb with
  | nil => rfl
  | raw _ hquote hslash _ ih =>
      rw [run_cons, step_inString hquote hslash]
      exact ih
  | escape _ _ ih => exact ih
  | @unicode d₁ d₂ d₃ d₄ s hd _ ih =>
      have hhex : ∀ d, (digitValue 16 d).isSome → inString.step d = some .inString := by
        intro d hsome
        apply step_inString
        · rintro rfl
          exact absurd hsome (by decide)
        · rintro rfl
          exact absurd hsome (by decide)
      simp only [List.forall_mem_cons] at hd
      have hescape : inString.run (ch '\\' :: ch 'u' :: d₁ :: d₂ :: d₃ :: d₄ :: s) =
          inString.run (d₁ :: d₂ :: d₃ :: d₄ :: s) := rfl
      simp only [hescape, run_cons, hhex _ hd.1, hhex _ hd.2.1, hhex _ hd.2.2.1, hhex _ hd.2.2.2.1,
        Option.bind_some, ih]

theorem run_quoted {body : Bytes} (hb : IsBody body) (opened : Bool) :
    (outside opened).run (ch '"' :: (body ++ [ch '"'])) = some (.outside false) := by
  rw [run_cons, step, if_pos rfl, Option.bind_some, run_append, run_body hb]
  rfl

theorem run_bare {text : Bytes} (h : ∀ c ∈ text, c ∉ ascii "\"\x7b \t\n\r") :
    (outside false).run text = some (.outside false) := by
  have hstep : ∀ c, c ∉ ascii "\"\x7b \t\n\r" → (outside false).step c = some (.outside false) := by
    intro c hc
    have hquote : c ≠ ch '"' := fun heq => hc (by rw [heq]; decide)
    have hbrace : c ≠ ch '\x7b' := fun heq => hc (by rw [heq]; decide)
    rw [step, if_neg hquote, if_neg hbrace, if_neg fun hgap => hc ?_]
    exact (by decide : ∀ c ∈ ascii " \t\n\r", c ∈ ascii "\"\x7b \t\n\r") c hgap
  induction text with
  | nil => rfl
  | cons c text ih =>
      obtain ⟨hc, hrest⟩ := List.forall_mem_cons.mp h
      rw [run_cons, hstep c hc]
      exact ih hrest

end BraceScan

theorem MemberKey.run_text {key : MemberKey} (h : key.Valid) (opened : Bool) :
    (BraceScan.outside opened).run key.text = some (.outside false) := by
  have hquoted := BraceScan.run_quoted h.body opened
  have hshape : key.text = key.before ++ ((ch '"' :: (key.body ++ [ch '"'])) ++
      (key.beforeColon ++ ([ch ':'] ++ key.afterColon))) := by
    simp [MemberKey.text]
  rw [hshape, BraceScan.run_append, BraceScan.run_gap h.before, Option.bind_some,
    BraceScan.run_append, hquoted, Option.bind_some, BraceScan.run_append,
    BraceScan.run_gap h.beforeColon, Option.bind_some, BraceScan.run_append]
  exact BraceScan.run_gap h.afterColon false

mutual

theorem Json.run_text : ∀ {v : Json}, v.Valid →
    (BraceScan.outside false).run v.text = some (.outside false)
  | .string body, h => BraceScan.run_quoted h false
  | .number text, h => BraceScan.run_bare (IsNumber.forall h _ (by decide))
  | .word w, _ => by cases w <;> rfl
  | .emptyArray ws, h => by
      have hopen : (BraceScan.outside false).run (ch '[' :: (ws ++ [ch ']'])) =
          (BraceScan.outside false).run (ws ++ [ch ']']) := rfl
      rw [Json.text, hopen, BraceScan.run_append, BraceScan.run_gap h]
      rfl
  | .array items, h => by
      have hopen : (BraceScan.outside false).run (ch '[' :: (items.text ++ [ch ']'])) =
          (BraceScan.outside false).run (items.text ++ [ch ']']) := rfl
      rw [Json.text, hopen, BraceScan.run_append, Items.run_text h]
      rfl
  | .emptyObject ws, h => by
      have hopen : (BraceScan.outside false).run (ch '\x7b' :: (ws ++ [ch '\x7d'])) =
          (BraceScan.outside true).run (ws ++ [ch '\x7d']) := rfl
      rw [Json.text, hopen, BraceScan.run_append, BraceScan.run_gap h]
      rfl
  | .object members, h => by
      have hopen : (BraceScan.outside false).run (ch '\x7b' :: (members.text ++ [ch '\x7d'])) =
          (BraceScan.outside true).run (members.text ++ [ch '\x7d']) := rfl
      rw [Json.text, hopen, BraceScan.run_append, Members.run_text h true]
      rfl

theorem Items.run_text : ∀ {items : Items}, items.Valid →
    (BraceScan.outside false).run items.text = some (.outside false)
  | .last before item after, ⟨hbefore, hitem, hafter⟩ => by
      rw [Items.text, BraceScan.run_append, BraceScan.run_gap hbefore, Option.bind_some,
        BraceScan.run_append, Json.run_text hitem]
      exact BraceScan.run_gap hafter false
  | .more before item after rest, ⟨hbefore, hitem, hafter, hrest⟩ => by
      rw [Items.text, BraceScan.run_append, BraceScan.run_gap hbefore, Option.bind_some,
        BraceScan.run_append, Json.run_text hitem, Option.bind_some, BraceScan.run_append,
        BraceScan.run_gap hafter]
      exact Items.run_text hrest

theorem Members.run_text : ∀ {members : Members}, members.Valid → ∀ opened,
    (BraceScan.outside opened).run members.text = some (.outside false)
  | .last key value after, ⟨hkey, hvalue, hafter⟩, opened => by
      rw [Members.text, BraceScan.run_append, MemberKey.run_text hkey, Option.bind_some,
        BraceScan.run_append, Json.run_text hvalue]
      exact BraceScan.run_gap hafter false
  | .more key value after rest, ⟨hkey, hvalue, hafter, hrest⟩, opened => by
      rw [Members.text, BraceScan.run_append, MemberKey.run_text hkey, Option.bind_some,
        BraceScan.run_append, Json.run_text hvalue, Option.bind_some, BraceScan.run_append,
        BraceScan.run_gap hafter]
      exact Members.run_text hrest false

end

/-- **No object begins with an object**: a text with an opening brace right behind another
one is no JSON. -/
theorem Spells.run_text {text : Bytes} {tree : Tree} (h : Spells text tree) :
    (BraceScan.outside false).run text = some (.outside false) := by
  obtain ⟨doc, hvalid, rfl, -⟩ := h
  rw [Document.text, BraceScan.run_append, BraceScan.run_gap hvalid.before, Option.bind_some,
    BraceScan.run_append, Json.run_text hvalid.value]
  exact BraceScan.run_gap hvalid.after false

/-! ## Outlines -/

/-- Where a reader of single bytes is: between strings, in one, or behind a backslash of one. -/
inductive TextScan
  | outside
  | inString
  | escaped
  deriving DecidableEq

namespace TextScan

def next : TextScan → UInt8 → TextScan
  | outside, c => if c = ch '"' then inString else outside
  | inString, c => if c = ch '"' then outside else if c = ch '\\' then escaped else inString
  | escaped, _ => inString

def shown : TextScan → UInt8 → Bytes
  | outside, c => if c ∈ ascii " \t\n\r" then [] else [c]
  | _, _ => []

def after (s : TextScan) (text : Bytes) : TextScan := text.foldl next s

def outline : TextScan → Bytes → Bytes
  | _, [] => []
  | s, c :: text => s.shown c ++ outline (s.next c) text

theorem after_append (s : TextScan) (a b : Bytes) : s.after (a ++ b) = (s.after a).after b :=
  List.foldl_append

theorem outline_append (s : TextScan) (a b : Bytes) :
    s.outline (a ++ b) = s.outline a ++ (s.after a).outline b := by
  induction a generalizing s with
  | nil => rfl
  | cons c a ih =>
      rw [List.cons_append, outline, outline, ih, List.append_assoc]
      rfl

theorem outline_prefix (s : TextScan) {a b : Bytes} (h : a <+: b) :
    s.outline a <+: s.outline b := by
  obtain ⟨rest, rfl⟩ := h
  rw [outline_append]
  exact List.prefix_append _ _

end TextScan

/-- A reader in the state `s` is in the state `s'` behind the text, which has this outline. -/
structure Scans (s : TextScan) (text : Bytes) (s' : TextScan) (shown : Bytes) : Prop where
  after : s.after text = s'
  outline : s.outline text = shown

namespace Scans

open TextScan

variable {s s' s'' : TextScan} {a b o o' : Bytes}

theorem nil (s : TextScan) : Scans s [] s [] := ⟨rfl, rfl⟩

theorem append (h : Scans s a s' o) (h' : Scans s' b s'' o') : Scans s (a ++ b) s'' (o ++ o') where
  after := by rw [after_append, h.after, h'.after]
  outline := by rw [outline_append, h.outline, h.after, h'.outline]

theorem cons {c : UInt8} (hnext : s.next c = s') (h : Scans s' a s'' o) :
    Scans s (c :: a) s'' (s.shown c ++ o) where
  after := by rw [TextScan.after, List.foldl_cons, hnext, ← h.after, TextScan.after]
  outline := by rw [TextScan.outline, hnext, h.outline]

theorem gap {ws : Bytes} (hws : IsGap ws) : Scans outside ws outside [] := by
  induction ws with
  | nil => exact .nil outside
  | cons c ws ih =>
      obtain ⟨hc, hrest⟩ := List.forall_mem_cons.mp hws
      have hquote : ∀ c ∈ ascii " \t\n\r", c ≠ ch '"' := by decide
      have hcons := cons (s := outside) (c := c) (if_neg (hquote c hc)) (ih hrest)
      rwa [shown, if_pos hc] at hcons

theorem bare {text : Bytes} (h : ∀ c ∈ text, c ∉ ascii "\" \t\n\r") :
    Scans outside text outside text := by
  induction text with
  | nil => exact .nil outside
  | cons c text ih =>
      obtain ⟨hc, hrest⟩ := List.forall_mem_cons.mp h
      have hquote : c ≠ ch '"' := fun heq => hc (by rw [heq]; decide)
      have hgap : c ∉ ascii " \t\n\r" := fun hmem =>
        hc ((by decide : ∀ c ∈ ascii " \t\n\r", c ∈ ascii "\" \t\n\r") c hmem)
      have hcons := cons (s := outside) (c := c) (if_neg hquote) (ih hrest)
      rwa [shown, if_neg hgap] at hcons

theorem body {body : Bytes} (hb : IsBody body) : Scans inString body inString [] := by
  have hbyte : ∀ {c : UInt8}, c ≠ ch '"' → c ≠ ch '\\' → inString.next c = inString :=
    fun hquote hslash => by rw [next, if_neg hquote, if_neg hslash]
  have hhex : ∀ {d : UInt8}, (digitValue 16 d).isSome → inString.next d = inString := by
    intro d hsome
    apply hbyte
    · rintro rfl
      exact absurd hsome (by decide)
    · rintro rfl
      exact absurd hsome (by decide)
  induction hb with
  | nil => exact .nil inString
  | raw _ hquote hslash _ ih => exact cons (hbyte hquote hslash) ih
  | escape _ _ ih => exact cons rfl (cons rfl ih)
  | unicode hd _ ih =>
      simp only [List.forall_mem_cons] at hd
      exact cons rfl (cons rfl (cons (hhex hd.1) (cons (hhex hd.2.1) (cons (hhex hd.2.2.1)
        (cons (hhex hd.2.2.2.1) ih)))))

theorem quoted {body : Bytes} (hb : IsBody body) :
    Scans outside (ch '"' :: (body ++ [ch '"'])) outside [ch '"'] :=
  cons rfl ((Scans.body hb).append (cons rfl (.nil outside)))

theorem enclosed {left right : UInt8} (hleft : left ∉ ascii "\" \t\n\r")
    (hright : right ∉ ascii "\" \t\n\r") (h : Scans outside a outside o) :
    Scans outside (left :: (a ++ [right])) outside (left :: (o ++ [right])) := by
  have hbyte : ∀ {c : UInt8}, c ∉ ascii "\" \t\n\r" → Scans outside [c] outside [c] := by
    intro c hc
    apply bare
    intro d hd
    rwa [List.mem_singleton.mp hd]
  exact (hbyte hleft).append (h.append (hbyte hright))

end Scans

mutual

def Tree.outline : Tree → Bytes
  | .string _ => [ch '"']
  | .number text => text
  | .word w => w.text
  | .array items => ch '[' :: (items.outline ++ [ch ']'])
  | .object members => ch '\x7b' :: (members.outline ++ [ch '\x7d'])

def Trees.outline : Trees → Bytes
  | .nil => []
  | .cons head .nil => head.outline
  | .cons head tail => head.outline ++ ch ',' :: tail.outline

def Fields.outline : Fields → Bytes
  | .nil => []
  | .cons _ value .nil => ascii "\":" ++ value.outline
  | .cons _ value rest => ascii "\":" ++ value.outline ++ ch ',' :: rest.outline

end

theorem Trees.outline_cons {head : Tree} {tail : Trees} (h : tail ≠ .nil) :
    (Trees.cons head tail).outline = head.outline ++ ch ',' :: tail.outline := by
  cases tail with
  | nil => exact absurd rfl h
  | cons => rfl

theorem Fields.outline_cons {key : Bytes} {value : Tree} {rest : Fields} (h : rest ≠ .nil) :
    (Fields.cons key value rest).outline =
      ascii "\":" ++ value.outline ++ ch ',' :: rest.outline := by
  cases rest with
  | nil => exact absurd rfl h
  | cons => rfl

theorem Scans.comma {a b o o' : Bytes} (h : Scans .outside a .outside o)
    (h' : Scans .outside b .outside o') :
    Scans .outside (a ++ ch ',' :: b) .outside (o ++ ch ',' :: o') :=
  h.append (.cons rfl h')

theorem MemberKey.scans {key : MemberKey} (h : key.Valid) :
    Scans .outside key.text .outside (ascii "\":") := by
  have hshape : key.text = key.before ++ ((ch '"' :: (key.body ++ [ch '"'])) ++
      (key.beforeColon ++ ch ':' :: key.afterColon)) := by
    simp [MemberKey.text]
  rw [hshape]
  exact (Scans.gap h.before).append ((Scans.quoted h.body).append
    ((Scans.gap h.beforeColon).append (.cons rfl (Scans.gap h.afterColon))))

mutual

theorem Json.scans : ∀ {v : Json}, v.Valid → Scans .outside v.text .outside v.tree.outline
  | .string body, h => Scans.quoted h
  | .number text, h => Scans.bare (IsNumber.forall h _ (by decide))
  | .word w, _ => by cases w <;> exact ⟨rfl, rfl⟩
  | .emptyArray ws, h => Scans.enclosed (by decide) (by decide) (Scans.gap h)
  | .array items, h => Scans.enclosed (by decide) (by decide) (Items.scans h)
  | .emptyObject ws, h => Scans.enclosed (by decide) (by decide) (Scans.gap h)
  | .object members, h => Scans.enclosed (by decide) (by decide) (Members.scans h)

theorem Items.scans : ∀ {items : Items}, items.Valid →
    Scans .outside items.text .outside items.trees.outline
  | .last before item after, ⟨hbefore, hitem, hafter⟩ => by
      have h := (Scans.gap hbefore).append ((Json.scans hitem).append (Scans.gap hafter))
      rwa [List.append_nil] at h
  | .more before item after rest, ⟨hbefore, hitem, hafter, hrest⟩ => by
      rw [Items.trees, Trees.outline_cons rest.trees_ne_nil]
      exact (Scans.gap hbefore).append ((Json.scans hitem).append
        ((Scans.gap hafter).comma (Items.scans hrest)))

theorem Members.scans : ∀ {members : Members}, members.Valid →
    Scans .outside members.text .outside members.fields.outline
  | .last key value after, ⟨hkey, hvalue, hafter⟩ => by
      have h := (MemberKey.scans hkey).append ((Json.scans hvalue).append (Scans.gap hafter))
      rwa [List.append_nil] at h
  | .more key value after rest, ⟨hkey, hvalue, hafter, hrest⟩ => by
      rw [Members.fields, Fields.outline_cons rest.fields_ne_nil, List.append_assoc]
      exact (MemberKey.scans hkey).append ((Json.scans hvalue).append
        ((Scans.gap hafter).comma (Members.scans hrest)))

end

/-- **Texts of one value have one outline.** -/
theorem Spells.outline {text : Bytes} {tree : Tree} (h : Spells text tree) :
    TextScan.outside.outline text = tree.outline := by
  obtain ⟨doc, hvalid, rfl, rfl⟩ := h
  have hscans := (Scans.gap hvalid.before).append
    ((Json.scans hvalid.value).append (Scans.gap hvalid.after))
  rw [List.append_nil] at hscans
  exact hscans.outline

/-! ## Lengths -/

mutual

/-- The bytes that a text of a value has at least: strings as they are, and no white space. -/
def Tree.width : Tree → Nat
  | .string s => s.length + 2
  | .number text => text.length
  | .word w => w.text.length
  | .array items => items.width + 2
  | .object members => members.width + 2

def Trees.width : Trees → Nat
  | .nil => 0
  | .cons head .nil => head.width
  | .cons head tail => head.width + 1 + tail.width

def Fields.width : Fields → Nat
  | .nil => 0
  | .cons key value .nil => key.length + 3 + value.width
  | .cons key value rest => key.length + 3 + value.width + 1 + rest.width

end

mutual

def Tree.weight (w : UInt8 → Nat) : Tree → Nat
  | .string s => weigh w s + 2
  | .number text => weigh w text
  | .word v => weigh w v.text
  | .array items => items.weight w + 2
  | .object members => members.weight w + 2

def Trees.weight (w : UInt8 → Nat) : Trees → Nat
  | .nil => 0
  | .cons head .nil => head.weight w
  | .cons head tail => head.weight w + 1 + tail.weight w

def Fields.weight (w : UInt8 → Nat) : Fields → Nat
  | .nil => 0
  | .cons key value .nil => weigh w key + 3 + value.weight w
  | .cons key value rest => weigh w key + 3 + value.weight w + 1 + rest.weight w

end

def IsPlain (s : Bytes) : Prop := ∀ c ∈ s, 32 ≤ c ∧ c ≠ ch '"' ∧ c ≠ ch '\\'

instance (s : Bytes) : Decidable (IsPlain s) :=
  inferInstanceAs (Decidable (∀ c ∈ s, 32 ≤ c ∧ c ≠ ch '"' ∧ c ≠ ch '\\'))

mutual

def Tree.Plain : Tree → Prop
  | .string s => IsPlain s
  | .number _ => True
  | .word _ => True
  | .array items => items.Plain
  | .object members => members.Plain

def Trees.Plain : Trees → Prop
  | .nil => True
  | .cons head tail => head.Plain ∧ tail.Plain

def Fields.Plain : Fields → Prop
  | .nil => True
  | .cons key value rest => IsPlain key ∧ value.Plain ∧ rest.Plain

end

theorem IsPlain.isBody {s : Bytes} (h : IsPlain s) : IsBody s := isBody_of_plain h

theorem IsPlain.decode_eq {s : Bytes} (h : IsPlain s) : decode s = s :=
  decode_of_not_mem fun hmem => (h _ hmem).2.2 rfl

section Weights

variable {w : UInt8 → Nat}

theorem Trees.weight_cons {head : Tree} {tail : Trees} (h : tail ≠ .nil) :
    (Trees.cons head tail).weight w = head.weight w + 1 + tail.weight w := by
  cases tail with
  | nil => exact absurd rfl h
  | cons => rfl

theorem Fields.weight_cons {key : Bytes} {value : Tree} {rest : Fields} (h : rest ≠ .nil) :
    (Fields.cons key value rest).weight w =
      weigh w key + 3 + value.weight w + 1 + rest.weight w := by
  cases rest with
  | nil => exact absurd rfl h
  | cons => rfl

theorem IsWeight.plain_of_weigh (hw : IsWeight w) {body : Bytes} (hb : IsBody body)
    (h : weigh w (decode body) = weigh w body) : IsPlain (decode body) := by
  have hslash : ch '\\' ∉ body := fun hmem => by
    have hlt := (hw.weigh_decode hb).2 hmem
    omega
  rw [decode_of_not_mem hslash]
  intro c hc
  obtain ⟨hge, hquote⟩ := hb.raw_of_not_mem hslash c hc
  exact ⟨hge, hquote, fun heq => hslash (heq ▸ hc)⟩

theorem IsWeight.mark (hw : IsWeight w) : ∀ c ∈ ascii "\":,[]\x7b\x7d", w c = 1 :=
  fun c hc => hw.solid c
    ((by decide : ∀ c ∈ ascii "\":,[]\x7b\x7d", c ∉ ascii " \t\n\r") c hc)

theorem IsWeight.weigh_enclosed (hw : IsWeight w) {left right : UInt8}
    (hleft : left ∈ ascii "\":,[]\x7b\x7d") (hright : right ∈ ascii "\":,[]\x7b\x7d")
    (text : Bytes) : weigh w (left :: (text ++ [right])) = weigh w text + 2 := by
  rw [weigh_cons, weigh_append, weigh_cons, weigh_nil, hw.mark _ hleft, hw.mark _ hright]
  omega

theorem IsWeight.weigh_key (hw : IsWeight w) (key : MemberKey) :
    weigh w key.text = weigh w key.before + weigh w key.body + weigh w key.beforeColon +
      weigh w key.afterColon + 3 := by
  simp only [MemberKey.text, weigh_append, weigh_cons, hw.mark (ch '"') (by decide),
    hw.mark (ch ':') (by decide)]
  omega

mutual

theorem Json.weight_tree (hw : IsWeight w) : ∀ {v : Json}, v.Valid →
    v.tree.weight w ≤ weigh w v.text ∧ (v.tree.weight w = weigh w v.text → v.tree.Plain)
  | .string body, h => by
      have hbody := (hw.weigh_decode h).1
      rw [Json.text, hw.weigh_enclosed (by decide) (by decide), Json.tree, Tree.weight]
      exact ⟨by omega, fun heq => hw.plain_of_weigh h (by omega)⟩
  | .number text, _ => ⟨le_rfl, fun _ => trivial⟩
  | .word v, _ => ⟨le_rfl, fun _ => trivial⟩
  | .emptyArray ws, _ => by
      rw [Json.text, hw.weigh_enclosed (by decide) (by decide), Json.tree, Tree.weight,
        Trees.weight]
      exact ⟨by omega, fun _ => trivial⟩
  | .array items, h => by
      obtain ⟨hle, hplain⟩ := Items.weight_trees hw h
      rw [Json.text, hw.weigh_enclosed (by decide) (by decide), Json.tree, Tree.weight]
      exact ⟨by omega, fun heq => hplain (by omega)⟩
  | .emptyObject ws, _ => by
      rw [Json.text, hw.weigh_enclosed (by decide) (by decide), Json.tree, Tree.weight,
        Fields.weight]
      exact ⟨by omega, fun _ => trivial⟩
  | .object members, h => by
      obtain ⟨hle, hplain⟩ := Members.weight_fields hw h
      rw [Json.text, hw.weigh_enclosed (by decide) (by decide), Json.tree, Tree.weight]
      exact ⟨by omega, fun heq => hplain (by omega)⟩

theorem Items.weight_trees (hw : IsWeight w) : ∀ {items : Items}, items.Valid →
    items.trees.weight w ≤ weigh w items.text ∧
      (items.trees.weight w = weigh w items.text → items.trees.Plain)
  | .last before item after, ⟨_, hitem, _⟩ => by
      obtain ⟨hle, hplain⟩ := Json.weight_tree hw hitem
      rw [Items.trees, Items.text, Trees.weight, weigh_append, weigh_append]
      exact ⟨by omega, fun heq => ⟨hplain (by omega), trivial⟩⟩
  | .more before item after rest, ⟨_, hitem, _, hrest⟩ => by
      obtain ⟨hle, hplain⟩ := Json.weight_tree hw hitem
      obtain ⟨hle', hplain'⟩ := Items.weight_trees hw hrest
      rw [Items.trees, Trees.weight_cons rest.trees_ne_nil, Items.text]
      simp only [weigh_append, weigh_cons, hw.mark (ch ',') (by decide)]
      exact ⟨by omega, fun heq => ⟨hplain (by omega), hplain' (by omega)⟩⟩

theorem Members.weight_fields (hw : IsWeight w) : ∀ {members : Members}, members.Valid →
    members.fields.weight w ≤ weigh w members.text ∧
      (members.fields.weight w = weigh w members.text → members.fields.Plain)
  | .last key value after, ⟨hkey, hvalue, _⟩ => by
      obtain ⟨hle, hplain⟩ := Json.weight_tree hw hvalue
      have hbody := (hw.weigh_decode hkey.body).1
      rw [Members.fields, Members.text, Fields.weight, weigh_append, weigh_append,
        hw.weigh_key key]
      exact ⟨by omega, fun heq =>
        ⟨hw.plain_of_weigh hkey.body (by omega), hplain (by omega), trivial⟩⟩
  | .more key value after rest, ⟨hkey, hvalue, _, hrest⟩ => by
      obtain ⟨hle, hplain⟩ := Json.weight_tree hw hvalue
      obtain ⟨hle', hplain'⟩ := Members.weight_fields hw hrest
      have hbody := (hw.weigh_decode hkey.body).1
      rw [Members.fields, Fields.weight_cons rest.fields_ne_nil, Members.text]
      simp only [weigh_append, weigh_cons, hw.weigh_key key, hw.mark (ch ',') (by decide)]
      exact ⟨by omega, fun heq =>
        ⟨hw.plain_of_weigh hkey.body (by omega), hplain (by omega), hplain' (by omega)⟩⟩

end

theorem Spells.weight (hw : IsWeight w) {text : Bytes} {tree : Tree} (h : Spells text tree) :
    tree.weight w ≤ weigh w text ∧ (tree.weight w = weigh w text → tree.Plain) := by
  obtain ⟨doc, hvalid, rfl, rfl⟩ := h
  obtain ⟨hle, hplain⟩ := Json.weight_tree hw hvalid.value
  rw [Document.text, weigh_append, weigh_append]
  exact ⟨by omega, fun heq => hplain (by omega)⟩

end Weights

theorem Trees.width_cons {head : Tree} {tail : Trees} (h : tail ≠ .nil) :
    (Trees.cons head tail).width = head.width + 1 + tail.width := by
  cases tail with
  | nil => exact absurd rfl h
  | cons => rfl

mutual

theorem Tree.weight_one : ∀ t : Tree, t.weight (fun _ => 1) = t.width
  | .string s => by rw [Tree.weight, Tree.width, weigh_one]
  | .number text => weigh_one text
  | .word v => weigh_one v.text
  | .array items => by rw [Tree.weight, Tree.width, items.weight_one]
  | .object members => by rw [Tree.weight, Tree.width, members.weight_one]

theorem Trees.weight_one : ∀ ts : Trees, ts.weight (fun _ => 1) = ts.width
  | .nil => rfl
  | .cons head .nil => head.weight_one
  | .cons head (.cons next tail) => by
      rw [Trees.weight, Trees.width, head.weight_one, (Trees.cons next tail).weight_one]
      · exact Trees.noConfusion
      · exact Trees.noConfusion

theorem Fields.weight_one : ∀ ms : Fields, ms.weight (fun _ => 1) = ms.width
  | .nil => rfl
  | .cons key value .nil => by rw [Fields.weight, Fields.width, weigh_one, value.weight_one]
  | .cons key value (.cons key' value' rest) => by
      rw [Fields.weight, Fields.width, weigh_one, value.weight_one,
        (Fields.cons key' value' rest).weight_one]
      · exact Fields.noConfusion
      · exact Fields.noConfusion

end

theorem Spells.width {text : Bytes} {tree : Tree} (h : Spells text tree) :
    tree.width ≤ text.length ∧ (tree.width = text.length → tree.Plain) := by
  have hweight := h.weight isWeight_one
  rwa [tree.weight_one, weigh_one] at hweight

/-! ## Strings written as they are -/

mutual

/-- The value of a text whose strings are taken as they are written. -/
def Json.raw : Json → Tree
  | .string body => .string body
  | .number text => .number text
  | .word v => .word v
  | .emptyArray _ => .array .nil
  | .array items => .array items.raws
  | .emptyObject _ => .object .nil
  | .object members => .object members.raws

def Items.raws : Items → Trees
  | .last _ item _ => .cons item.raw .nil
  | .more _ item _ rest => .cons item.raw rest.raws

def Members.raws : Members → Fields
  | .last key value _ => .cons key.body value.raw .nil
  | .more key value _ rest => .cons key.body value.raw rest.raws

end

structure MemberKey.Spaced (key : MemberKey) : Prop where
  before : IsGap key.before
  beforeColon : IsGap key.beforeColon
  afterColon : IsGap key.afterColon

mutual

def Json.Spaced : Json → Prop
  | .string _ => True
  | .number text => IsNumber text
  | .word _ => True
  | .emptyArray ws => IsGap ws
  | .array items => items.Spaced
  | .emptyObject ws => IsGap ws
  | .object members => members.Spaced

def Items.Spaced : Items → Prop
  | .last before item after => IsGap before ∧ item.Spaced ∧ IsGap after
  | .more before item after rest => IsGap before ∧ item.Spaced ∧ IsGap after ∧ rest.Spaced

def Members.Spaced : Members → Prop
  | .last key value after => key.Spaced ∧ value.Spaced ∧ IsGap after
  | .more key value after rest => key.Spaced ∧ value.Spaced ∧ IsGap after ∧ rest.Spaced

end

theorem Items.raws_ne_nil (items : Items) : items.raws ≠ .nil := by
  cases items <;> exact Trees.noConfusion

theorem Members.raws_ne_nil (members : Members) : members.raws ≠ .nil := by
  cases members <;> exact Fields.noConfusion

theorem weigh_gap {ws : Bytes} (hws : IsGap ws) : weigh ink ws = 0 := by
  induction ws with
  | nil => rfl
  | cons c ws ih =>
      obtain ⟨hc, hrest⟩ := List.forall_mem_cons.mp hws
      rw [weigh_cons, ink, if_pos hc, ih hrest]

theorem MemberKey.Spaced.weigh {key : MemberKey} (h : key.Spaced) :
    weigh ink key.text = weigh ink key.body + 3 := by
  rw [isWeight_ink.weigh_key, weigh_gap h.before, weigh_gap h.beforeColon, weigh_gap h.afterColon]
  omega

mutual

theorem Json.weight_raw : ∀ {v : Json}, v.Spaced → v.raw.weight ink = weigh ink v.text
  | .string body, _ => by
      rw [Json.text, isWeight_ink.weigh_enclosed (by decide) (by decide), Json.raw, Tree.weight]
  | .number text, _ => rfl
  | .word v, _ => rfl
  | .emptyArray ws, h => by
      rw [Json.text, isWeight_ink.weigh_enclosed (by decide) (by decide), Json.raw, Tree.weight,
        Trees.weight, weigh_gap h]
  | .array items, h => by
      rw [Json.text, isWeight_ink.weigh_enclosed (by decide) (by decide), Json.raw, Tree.weight,
        Items.weight_raws h]
  | .emptyObject ws, h => by
      rw [Json.text, isWeight_ink.weigh_enclosed (by decide) (by decide), Json.raw, Tree.weight,
        Fields.weight, weigh_gap h]
  | .object members, h => by
      rw [Json.text, isWeight_ink.weigh_enclosed (by decide) (by decide), Json.raw, Tree.weight,
        Members.weight_raws h]

theorem Items.weight_raws : ∀ {items : Items}, items.Spaced →
    items.raws.weight ink = weigh ink items.text
  | .last before item after, h => by
      rw [Items.raws, Items.text, Trees.weight, weigh_append, weigh_append,
        weigh_gap h.1, weigh_gap h.2.2, Json.weight_raw h.2.1]
      omega
  | .more before item after rest, h => by
      rw [Items.raws, Trees.weight_cons rest.raws_ne_nil, Items.text]
      simp only [weigh_append, weigh_cons, isWeight_ink.mark (ch ',') (by decide),
        weigh_gap h.1, weigh_gap h.2.2.1, Json.weight_raw h.2.1, Items.weight_raws h.2.2.2]
      omega

theorem Members.weight_raws : ∀ {members : Members}, members.Spaced →
    members.raws.weight ink = weigh ink members.text
  | .last key value after, h => by
      rw [Members.raws, Members.text, Fields.weight, weigh_append, weigh_append, h.1.weigh,
        weigh_gap h.2.2, Json.weight_raw h.2.1]
      omega
  | .more key value after rest, h => by
      rw [Members.raws, Fields.weight_cons rest.raws_ne_nil, Members.text]
      simp only [weigh_append, weigh_cons, isWeight_ink.mark (ch ',') (by decide), h.1.weigh,
        weigh_gap h.2.2.1, Json.weight_raw h.2.1, Members.weight_raws h.2.2.2]
      omega

end

theorem MemberKey.Spaced.valid {key : MemberKey} (h : key.Spaced) (hplain : IsPlain key.body) :
    key.Valid :=
  ⟨h.before, hplain.isBody, h.beforeColon, h.afterColon⟩

mutual

theorem Json.valid_of_plain : ∀ {v : Json}, v.Spaced → v.raw.Plain → v.Valid ∧ v.tree = v.raw
  | .string body, _, hplain => ⟨hplain.isBody, by rw [Json.tree, Json.raw, hplain.decode_eq]⟩
  | .number _, h, _ => ⟨h, rfl⟩
  | .word _, h, _ => ⟨h, rfl⟩
  | .emptyArray _, h, _ => ⟨h, rfl⟩
  | .array items, h, hplain => by
      have hitems := Items.valid_of_plain h hplain
      exact ⟨hitems.1, by rw [Json.tree, Json.raw, hitems.2]⟩
  | .emptyObject _, h, _ => ⟨h, rfl⟩
  | .object members, h, hplain => by
      have hmembers := Members.valid_of_plain h hplain
      exact ⟨hmembers.1, by rw [Json.tree, Json.raw, hmembers.2]⟩

theorem Items.valid_of_plain : ∀ {items : Items}, items.Spaced → items.raws.Plain →
    items.Valid ∧ items.trees = items.raws
  | .last before item after, h, hplain => by
      have hitem := Json.valid_of_plain h.2.1 hplain.1
      exact ⟨⟨h.1, hitem.1, h.2.2⟩, by rw [Items.trees, Items.raws, hitem.2]⟩
  | .more before item after rest, h, hplain => by
      have hitem := Json.valid_of_plain h.2.1 hplain.1
      have hrest := Items.valid_of_plain h.2.2.2 hplain.2
      exact ⟨⟨h.1, hitem.1, h.2.2.1, hrest.1⟩, by
        rw [Items.trees, Items.raws, hitem.2, hrest.2]⟩

theorem Members.valid_of_plain : ∀ {members : Members}, members.Spaced → members.raws.Plain →
    members.Valid ∧ members.fields = members.raws
  | .last key value after, h, hplain => by
      have hvalue := Json.valid_of_plain h.2.1 hplain.2.1
      exact ⟨⟨h.1.valid hplain.1, hvalue.1, h.2.2⟩, by
        rw [Members.fields, Members.raws, hplain.1.decode_eq, hvalue.2]⟩
  | .more key value after rest, h, hplain => by
      have hvalue := Json.valid_of_plain h.2.1 hplain.2.1
      have hrest := Members.valid_of_plain h.2.2.2 hplain.2.2
      exact ⟨⟨h.1.valid hplain.1, hvalue.1, h.2.2.1, hrest.1⟩, by
        rw [Members.fields, Members.raws, hplain.1.decode_eq, hvalue.2, hrest.2]⟩

end

section Spaced

variable {first before after : Bytes}

theorem spaced_spacedMembers (hbefore : IsGap before) (hafter : IsGap after) {m : Bytes × Json}
    {ms : List (Bytes × Json)} (h : ∀ m' ∈ m :: ms, m'.2.Spaced) :
    (spacedMembers before after m ms).Spaced := by
  induction ms generalizing m with
  | nil => exact ⟨⟨hbefore, .nil, .nil⟩, h m List.mem_cons_self, hafter⟩
  | cons m' ms ih =>
      obtain ⟨hvalue, hrest⟩ := List.forall_mem_cons.mp h
      exact ⟨⟨hbefore, .nil, .nil⟩, hvalue, .nil, ih hrest⟩

theorem spaced_spacedItems (hfirst : IsGap first) (hbefore : IsGap before) (hafter : IsGap after)
    {v : Json} {vs : List Json} (h : ∀ v' ∈ v :: vs, v'.Spaced) :
    (spacedItems first before after v vs).Spaced := by
  induction vs generalizing first v with
  | nil => exact ⟨hfirst, h v List.mem_cons_self, hafter⟩
  | cons v' vs ih =>
      obtain ⟨hvalue, hrest⟩ := List.forall_mem_cons.mp h
      exact ⟨hfirst, hvalue, .nil, ih hbefore hrest⟩

theorem raws_spacedMembers (before after : Bytes) (m : Bytes × Json) (ms : List (Bytes × Json)) :
    (spacedMembers before after m ms).raws =
      Fields.ofList ((m :: ms).map fun m => (m.1, m.2.raw)) := by
  induction ms generalizing m with
  | nil => rfl
  | cons m' ms ih =>
      rw [spacedMembers, Members.raws, ih]
      rfl

theorem raws_spacedItems (first before after : Bytes) (v : Json) (vs : List Json) :
    (spacedItems first before after v vs).raws = Trees.ofList ((v :: vs).map Json.raw) := by
  induction vs generalizing first v with
  | nil => rfl
  | cons v' vs ih =>
      rw [spacedItems, Items.raws, ih]
      rfl

theorem spaced_spacedArray (hfirst : IsGap first) (hbefore : IsGap before) (hafter : IsGap after)
    {vs : List Json} (h : ∀ v ∈ vs, v.Spaced) : (spacedArray first before after vs).Spaced := by
  cases vs with
  | nil => exact hafter
  | cons v vs => exact spaced_spacedItems hfirst hbefore hafter h

theorem raw_spacedArray (first before after : Bytes) (vs : List Json) :
    (spacedArray first before after vs).raw = .array (Trees.ofList (vs.map Json.raw)) := by
  cases vs with
  | nil => rfl
  | cons v vs => rw [spacedArray, Json.raw, raws_spacedItems]

theorem spaced_compactObject {ms : List (Bytes × Json)} (h : ∀ m ∈ ms, m.2.Spaced) :
    (compactObject ms).Spaced := by
  cases ms with
  | nil => exact IsGap.nil
  | cons m ms =>
      rw [compactObject, Json.Spaced, compactMembers_eq]
      exact spaced_spacedMembers .nil .nil h

theorem raw_compactObject (ms : List (Bytes × Json)) :
    (compactObject ms).raw = .object (Fields.ofList (ms.map fun m => (m.1, m.2.raw))) := by
  cases ms with
  | nil => rfl
  | cons m ms => rw [compactObject, Json.raw, compactMembers_eq, raws_spacedMembers]

end Spaced

theorem plain_treesOfList (ts : List Tree) :
    (Trees.ofList ts).Plain ↔ ∀ t ∈ ts, t.Plain := by
  induction ts with
  | nil => exact iff_of_true trivial (List.forall_mem_nil _)
  | cons t ts ih => rw [Trees.ofList, Trees.Plain, List.forall_mem_cons, ih]

theorem plain_fieldsOfList (ms : List (Bytes × Tree)) :
    (Fields.ofList ms).Plain ↔ ∀ m ∈ ms, IsPlain m.1 ∧ m.2.Plain := by
  induction ms with
  | nil => exact iff_of_true trivial (List.forall_mem_nil _)
  | cons m ms ih => rw [Fields.ofList, Fields.Plain, List.forall_mem_cons, ih, and_assoc]

/-! ## Texts without NUL -/

theorem zero_not_mem_gap {ws : Bytes} (hws : IsGap ws) : (0 : UInt8) ∉ ws := fun h =>
  absurd (hws 0 h) (by decide)

theorem zero_not_mem_body {body : Bytes} (hb : IsBody body) : (0 : UInt8) ∉ body := fun h =>
  absurd (hb.ge 0 h) (by decide)

theorem zero_not_mem_key {key : MemberKey} (hkey : key.Valid) : (0 : UInt8) ∉ key.text := by
  have hquote : (0 : UInt8) ≠ ch '"' := by decide
  have hcolon : (0 : UInt8) ≠ ch ':' := by decide
  simp [MemberKey.text, zero_not_mem_gap hkey.before, zero_not_mem_body hkey.body,
    zero_not_mem_gap hkey.beforeColon, zero_not_mem_gap hkey.afterColon, hquote, hcolon]

mutual

theorem zero_not_mem_value (v : Json) (hv : v.Valid) : (0 : UInt8) ∉ v.text := by
  have hquote : (0 : UInt8) ≠ ch '"' := by decide
  have hbracks : (0 : UInt8) ≠ ch '[' ∧ (0 : UInt8) ≠ ch ']' := by decide
  have hbraces : (0 : UInt8) ≠ ch '\x7b' ∧ (0 : UInt8) ≠ ch '\x7d' := by decide
  cases v with
  | string body => simp [Json.text, zero_not_mem_body hv, hquote]
  | number text => exact fun h => IsNumber.forall hv (· ≠ 0) (by decide) 0 h rfl
  | word w => cases w <;> exact (by decide)
  | emptyArray ws => simp [Json.text, zero_not_mem_gap hv, hbracks]
  | array items => simp [Json.text, zero_not_mem_items items hv, hbracks]
  | emptyObject ws => simp [Json.text, zero_not_mem_gap hv, hbraces]
  | object members => simp [Json.text, zero_not_mem_members members hv, hbraces]

theorem zero_not_mem_items (items : Items) (hv : items.Valid) : (0 : UInt8) ∉ items.text := by
  cases items with
  | last before item after =>
      obtain ⟨hbefore, hitem, hafter⟩ := hv
      simp [Items.text, zero_not_mem_gap hbefore, zero_not_mem_value item hitem,
        zero_not_mem_gap hafter]
  | more before item after others =>
      obtain ⟨hbefore, hitem, hafter, hothers⟩ := hv
      have hcomma : (0 : UInt8) ≠ ch ',' := by decide
      simp [Items.text, zero_not_mem_gap hbefore, zero_not_mem_value item hitem,
        zero_not_mem_gap hafter, zero_not_mem_items others hothers, hcomma]

theorem zero_not_mem_members (members : Members) (hv : members.Valid) :
    (0 : UInt8) ∉ members.text := by
  cases members with
  | last key value after =>
      obtain ⟨hkey, hvalue, hafter⟩ := hv
      simp [Members.text, zero_not_mem_key hkey, zero_not_mem_value value hvalue,
        zero_not_mem_gap hafter]
  | more key value after others =>
      obtain ⟨hkey, hvalue, hafter, hothers⟩ := hv
      have hcomma : (0 : UInt8) ≠ ch ',' := by decide
      simp [Members.text, zero_not_mem_key hkey, zero_not_mem_value value hvalue,
        zero_not_mem_gap hafter, zero_not_mem_members others hothers, hcomma]

end

theorem Spells.zero_not_mem {text : Bytes} {tree : Tree} (h : Spells text tree) :
    (0 : UInt8) ∉ text := by
  obtain ⟨doc, hvalid, rfl, -⟩ := h
  simp [Document.text, zero_not_mem_gap hvalid.before, zero_not_mem_value _ hvalid.value,
    zero_not_mem_gap hvalid.after]

end BlessStar.Lib.JsonText
