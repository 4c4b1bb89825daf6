import BlessStar.Lib.JsonText

/-!
# TOML texts

A reader for the core of TOML: lines `key = value`, bare and quoted keys, basic
strings, decimal integers, Booleans, arrays and inline tables.
-/

namespace BlessStar.Lib.TomlText

open Lib.ByteString Lib.JsonText

def isBlank (c : UInt8) : Bool := decide (c ∈ ascii " \t")

def isWhite (c : UInt8) : Bool := decide (c ∈ ascii " \t\n\r")

def isDigitByte (c : UInt8) : Bool := decide (c ∈ ascii "0123456789")

def isBareByte (c : UInt8) : Bool :=
  decide (c ∈ ascii "ABCDEFGHIJKLMNOPQRSTUVWXYZabcdefghijklmnopqrstuvwxyz0123456789-_")

def IsBareKey (key : Bytes) : Prop := key ≠ [] ∧ ∀ c ∈ key, isBareByte c = true

instance (key : Bytes) : Decidable (IsBareKey key) := inferInstanceAs (Decidable (_ ∧ _))

def IsScalarValue (n : Nat) : Prop := n < 0xD800 ∨ 0xE000 ≤ n ∧ n < 0x110000

instance (n : Nat) : Decidable (IsScalarValue n) := inferInstanceAs (Decidable (_ ∨ _))

def scalarBytes (digits : Bytes) : Option Bytes :=
  let n := digits.foldl (fun n d => n * 16 + (digitValue 16 d).getD 0) 0
  if (∀ d ∈ digits, (digitValue 16 d).isSome) ∧ IsScalarValue n then some (utf8 n) else none

def basicString : Bytes → Option (Bytes × Bytes)
  | [] => none
  | c :: s =>
      if c = ch '"' then some ([], s)
      else if c = ch '\\' then
        match s with
        | [] => none
        | e :: s =>
            if e = ch 'u' then
              match s with
              | d₁ :: d₂ :: d₃ :: d₄ :: s => do
                  let point ← scalarBytes [d₁, d₂, d₃, d₄]
                  let (text, rest) ← basicString s
                  some (point ++ text, rest)
              | _ => none
            else if e = ch 'U' then
              match s with
              | d₁ :: d₂ :: d₃ :: d₄ :: d₅ :: d₆ :: d₇ :: d₈ :: s => do
                  let point ← scalarBytes [d₁, d₂, d₃, d₄, d₅, d₆, d₇, d₈]
                  let (text, rest) ← basicString s
                  some (point ++ text, rest)
              | _ => none
            else if e ∈ ascii "btnfr\"\\" then do
              let (text, rest) ← basicString s
              some (unescape e :: text, rest)
            else none
      else if c = 127 ∨ c < 32 ∧ c ≠ 9 then none
      else do
        let (text, rest) ← basicString s
        some (c :: text, rest)

def readKey (s : Bytes) : Option (Bytes × Bytes) :=
  if s.head? = some (ch '"') then basicString s.tail
  else if s.takeWhile isBareByte = [] then none
  else some (s.takeWhile isBareByte, s.dropWhile isBareByte)

def readInteger (s : Bytes) : Option (Bytes × Bytes) :=
  let sign := if s.head? = some (ch '-') then ascii "-" else []
  let digits := (s.drop sign.length).takeWhile isDigitByte
  if digits = [] ∨ digits.head? = some (ch '0') ∧ digits.length ≠ 1 then none
  else some (sign ++ digits, (s.drop sign.length).dropWhile isDigitByte)

def behindItem (close : UInt8) : Bytes → Option (Bool × Bytes)
  | [] => none
  | c :: rest =>
      if c = ch ',' then some (true, rest)
      else if c = close then some (false, rest)
      else none

mutual

def readValue : Nat → Bytes → Option (Tree × Bytes)
  | 0, _ => none
  | fuel + 1, s =>
      match s with
      | [] => none
      | c :: rest =>
          if c = ch '"' then (basicString rest).map fun (text, rest) => (.string text, rest)
          else if c = ch '[' then (readItems fuel rest).map fun (items, rest) => (.array items, rest)
          else if c = ch '\x7b' then
            if (rest.dropWhile isBlank).head? = some (ch '\x7d') then
              some (.object .nil, (rest.dropWhile isBlank).tail)
            else (readFields fuel rest).map fun (fields, rest) => (.object fields, rest)
          else if (ascii "true").isPrefixOf s then some (.word .true, s.drop 4)
          else if (ascii "false").isPrefixOf s then some (.word .false, s.drop 5)
          else (readInteger s).map fun (text, rest) => (.number text, rest)

def readItems : Nat → Bytes → Option (Trees × Bytes)
  | 0, _ => none
  | fuel + 1, s =>
      if (s.dropWhile isWhite).head? = some (ch ']') then some (.nil, (s.dropWhile isWhite).tail)
      else do
        let (item, rest) ← readValue fuel (s.dropWhile isWhite)
        let (more, rest) ← behindItem (ch ']') (rest.dropWhile isWhite)
        if more then (readItems fuel rest).map fun (items, rest) => (.cons item items, rest)
        else some (.cons item .nil, rest)

def readFields : Nat → Bytes → Option (Fields × Bytes)
  | 0, _ => none
  | fuel + 1, s => do
      let (key, value, rest) ← readEntry fuel s
      let (more, rest) ← behindItem (ch '\x7d') (rest.dropWhile isBlank)
      if more then (readFields fuel rest).map fun (fields, rest) => (.cons key value fields, rest)
      else some (.cons key value .nil, rest)

/-- `key = value`. -/
def readEntry : Nat → Bytes → Option (Bytes × Tree × Bytes)
  | 0, _ => none
  | fuel + 1, s => do
      let (key, rest) ← readKey (s.dropWhile isBlank)
      if (rest.dropWhile isBlank).head? = some (ch '=') then
        (readValue fuel ((rest.dropWhile isBlank).tail.dropWhile isBlank)).map
          fun (value, rest) => (key, value, rest)
      else none

end

def readLines : Nat → Bytes → Option Fields
  | 0, _ => none
  | fuel + 1, s =>
      if s.dropWhile isWhite = [] then some .nil
      else do
        let (key, value, rest) ← readEntry fuel (s.dropWhile isWhite)
        match rest.dropWhile isBlank with
        | [] => some (.cons key value .nil)
        | c :: rest =>
            if c = ch '\n' then (readLines fuel rest).map (.cons key value)
            else none

def readToml (s : Bytes) : Option Tree := (readLines (s.length + 3) s).map .object

variable {s r x : Bytes} {fuel : Nat}

theorem basicString_quote (s : Bytes) : basicString (ch '"' :: s) = some ([], s) := by
  rw [basicString.eq_def]
  dsimp only
  rw [if_pos rfl]

theorem basicString_escape {e : UInt8} (he : e ∈ ascii "btnfr\"\\") (s : Bytes) :
    basicString (ch '\\' :: e :: s) =
      (basicString s).map fun (text, rest) => (unescape e :: text, rest) := by
  have hne : ∀ c ∈ ascii "uU", e ≠ c := by
    rintro c hc rfl
    exact absurd he ((by decide : ∀ c ∈ ascii "uU", c ∉ ascii "btnfr\"\\") e hc)
  rw [basicString.eq_def]
  dsimp only
  rw [if_neg (by decide), if_pos rfl, if_neg (hne _ (by decide)), if_neg (hne _ (by decide)),
    if_pos he]
  cases basicString s <;> rfl

theorem basicString_cons {c : UInt8} (hquote : c ≠ ch '"') (hslash : c ≠ ch '\\')
    (hplain : ¬(c = 127 ∨ c < 32 ∧ c ≠ 9)) (s : Bytes) :
    basicString (c :: s) = (basicString s).map fun (text, rest) => (c :: text, rest) := by
  rw [basicString.eq_def]
  dsimp only
  rw [if_neg hquote, if_neg hslash, if_neg hplain]
  cases basicString s <;> rfl

theorem basicString_byte {c : UInt8} (hquote : c ≠ ch '"') (hslash : c ≠ ch '\\')
    (h : basicString (c :: s) = some (x, r)) :
    ∃ text, basicString s = some (text, r) ∧ c :: text = x := by
  rw [basicString.eq_def] at h
  dsimp only at h
  rw [if_neg hquote, if_neg hslash] at h
  split at h
  · exact absurd h (by simp)
  · cases hs : basicString s with
    | none =>
        rw [hs] at h
        exact absurd h (by simp)
    | some y =>
        rw [hs] at h
        obtain ⟨rfl, rfl⟩ := Prod.mk.inj (Option.some.inj h)
        exact ⟨_, rfl, rfl⟩

theorem readKey_bare {key : Bytes} (hkey : IsBareKey key) (hr : ∀ c ∈ r.head?, isBareByte c = false) :
    readKey (key ++ r) = some (key, r) := by
  obtain ⟨hne, hall⟩ := hkey
  obtain ⟨c, s, rfl⟩ := List.exists_cons_of_ne_nil hne
  have hquote : c ≠ ch '"' := by
    rintro rfl
    exact absurd (hall _ List.mem_cons_self) (by decide)
  have htake : r.takeWhile isBareByte = [] ∧ r.dropWhile isBareByte = r := by
    cases r with
    | nil => exact ⟨rfl, rfl⟩
    | cons d r =>
        have hd : ¬isBareByte d = true := by
          rw [hr d rfl]
          decide
        exact ⟨List.takeWhile_cons_of_neg hd, List.dropWhile_cons_of_neg hd⟩
  unfold readKey
  rw [List.takeWhile_append_of_pos hall, List.dropWhile_append_of_pos hall, htake.1, htake.2,
    List.append_nil, if_neg (by simpa using hquote), if_neg hne]

theorem isBareKey_of_readKey (hs : s.head? ≠ some (ch '"')) (h : readKey s = some (x, r)) :
    IsBareKey x ∧ s = x ++ r := by
  unfold readKey at h
  rw [if_neg hs] at h
  split at h
  · exact absurd h (by simp)
  · next hne =>
      obtain ⟨rfl, rfl⟩ := Prod.mk.inj (Option.some.inj h)
      exact ⟨⟨hne, fun c hc => List.mem_takeWhile_imp hc⟩, (List.takeWhile_append_dropWhile).symm⟩

theorem append_of_readInteger (h : readInteger s = some (x, r)) : s = x ++ r := by
  unfold readInteger at h
  obtain ⟨sign, hsign⟩ : ∃ sign, (if s.head? = some (ch '-') then ascii "-" else []) = sign :=
    ⟨_, rfl⟩
  have hwhole : sign ++ s.drop sign.length = s := by
    split at hsign
    · next hhead =>
        cases s with
        | nil => exact absurd hhead (by simp)
        | cons c s =>
            obtain rfl : c = ch '-' := by simpa using hhead
            rw [← hsign]
            rfl
    · rw [← hsign]
      rfl
  rw [hsign] at h
  dsimp only at h
  split at h
  · exact absurd h (by simp)
  · obtain ⟨rfl, rfl⟩ := Prod.mk.inj (Option.some.inj h)
    rw [List.append_assoc, List.takeWhile_append_dropWhile, hwhole]

theorem readInteger_append (hx : IsInteger x) (hr : ∀ c ∈ r.head?, isDigitByte c = false) :
    readInteger (x ++ r) = some (x, r) := by
  obtain ⟨hsign, hint, hzero⟩ := hx
  rename_i sign int
  have hall : ∀ c ∈ int, isDigitByte c = true := fun c hc =>
    decide_eq_true (mem_digits (hint.2 c hc))
  have htake : r.takeWhile isDigitByte = [] ∧ r.dropWhile isDigitByte = r := by
    cases r with
    | nil => exact ⟨rfl, rfl⟩
    | cons d r =>
        have hd : ¬isDigitByte d = true := by
          rw [hr d rfl]
          decide
        exact ⟨List.takeWhile_cons_of_neg hd, List.dropWhile_cons_of_neg hd⟩
  have hdigits : ∀ sign : Bytes, (sign ++ int ++ r).drop sign.length = int ++ r := fun sign => by
    rw [List.append_assoc, List.drop_left']
    rfl
  have hread : (if (sign ++ int ++ r).head? = some (ch '-') then ascii "-" else []) = sign := by
    rcases hsign with rfl | rfl
    · obtain ⟨c, s, rfl⟩ := List.exists_cons_of_ne_nil hint.1
      have hne : c ≠ ch '-' := by
        rintro rfl
        exact absurd (hint.2 _ List.mem_cons_self) (by decide)
      rw [if_neg (by simpa using hne)]
    · rfl
  unfold readInteger
  dsimp only
  rw [hread, hdigits, List.takeWhile_append_of_pos hall, List.dropWhile_append_of_pos hall, htake.1,
    htake.2, List.append_nil, if_neg]
  rintro (hnil | ⟨hhead, hlength⟩)
  · exact hint.1 hnil
  · exact hzero.elim hlength (absurd hhead)

theorem basicString_of_readValue {t : Bytes} (h : readValue fuel s = some (.string t, r)) :
    ∃ s', s = ch '"' :: s' ∧ basicString s' = some (t, r) := by
  cases fuel with
  | zero => exact absurd h (by simp [readValue])
  | succ fuel =>
      rw [readValue.eq_def] at h
      dsimp only at h
      split at h
      · exact absurd h (by simp)
      · next c s =>
          split at h
          · next hquote =>
              obtain ⟨⟨text, rest⟩, hread, heq⟩ := Option.map_eq_some_iff.mp h
              obtain ⟨htext, rfl⟩ := Prod.mk.inj heq
              obtain rfl := Tree.string.inj htext
              exact ⟨s, by rw [hquote], hread⟩
          · exfalso
            split at h
            · simp at h
            · split at h
              · split at h <;> simp at h
              · split at h
                · simp at h
                · split at h <;> simp at h

theorem readValue_digit {c : UInt8} (hc : c ∈ ascii "-0123456789") (fuel : Nat) (s : Bytes) :
    readValue (fuel + 1) (c :: s) =
      (readInteger (c :: s)).map fun (text, rest) => (.number text, rest) := by
  have hne : ∀ d ∈ ascii "\"[\x7btf", c ≠ d := by
    rintro d hd rfl
    exact (by decide : ∀ c ∈ ascii "-0123456789", c ∉ ascii "\"[\x7btf") c hc hd
  have hword : ∀ d ∈ ascii "tf", ∀ t, (d :: t).isPrefixOf (c :: s) = false := by
    intro d hd t
    have hcd : d ≠ c := fun h => hne d ((by decide : ∀ d ∈ ascii "tf", d ∈ ascii "\"[\x7btf") d hd)
      h.symm
    rw [List.isPrefixOf, beq_eq_false_iff_ne.mpr hcd, Bool.false_and]
  rw [readValue.eq_def]
  dsimp only
  rw [if_neg (hne _ (by decide)), if_neg (hne _ (by decide)), if_neg (hne _ (by decide)),
    if_neg (by rw [show ascii "true" = ch 't' :: ascii "rue" from rfl, hword _ (by decide)]; simp),
    if_neg (by rw [show ascii "false" = ch 'f' :: ascii "alse" from rfl, hword _ (by decide)]; simp)]

variable {t : Tree} {ts : Trees} {key : Bytes} {fields : Fields}

theorem readValue_array : readValue (fuel + 1) (ch '[' :: s) = some (.array ts, r) ↔
    readItems fuel s = some (ts, r) := by
  rw [readValue.eq_def]
  dsimp only
  rw [if_neg (by decide), if_pos rfl, Option.map_eq_some_iff]
  constructor
  · rintro ⟨⟨items, rest⟩, hitems, heq⟩
    obtain ⟨hsame, rfl⟩ := Prod.mk.inj heq
    obtain rfl := Tree.array.inj hsame
    exact hitems
  · exact fun hitems => ⟨_, hitems, rfl⟩

theorem readValue_table : readValue (fuel + 1) (ch '\x7b' :: s) = some (.object fields, r) ↔
    if (s.dropWhile isBlank).head? = some (ch '\x7d') then
      fields = .nil ∧ (s.dropWhile isBlank).tail = r
    else readFields fuel s = some (fields, r) := by
  rw [readValue.eq_def]
  dsimp only
  rw [if_neg (by decide), if_neg (by decide), if_pos rfl]
  split
  · constructor
    · intro h
      obtain ⟨hsame, rfl⟩ := Prod.mk.inj (Option.some.inj h)
      exact ⟨(Tree.object.inj hsame).symm, rfl⟩
    · rintro ⟨rfl, rfl⟩
      rfl
  · rw [Option.map_eq_some_iff]
    constructor
    · rintro ⟨⟨members, rest⟩, hfields, heq⟩
      obtain ⟨hsame, rfl⟩ := Prod.mk.inj heq
      obtain rfl := Tree.object.inj hsame
      exact hfields
    · exact fun hfields => ⟨_, hfields, rfl⟩

theorem readItems_cons : readItems (fuel + 1) s = some (.cons t ts, r) ↔
    (s.dropWhile isWhite).head? ≠ some (ch ']') ∧
      ∃ y more z, readValue fuel (s.dropWhile isWhite) = some (t, y) ∧
        behindItem (ch ']') (y.dropWhile isWhite) = some (more, z) ∧
        (if more then readItems fuel z = some (ts, r) else ts = .nil ∧ z = r) := by
  rw [readItems.eq_def]
  dsimp only
  split
  · next hclose =>
      constructor
      · intro h
        exact absurd h (by simp)
      · exact fun h => absurd hclose h.1
  · next hclose =>
      rw [and_iff_right hclose, Option.bind_eq_bind, Option.bind_eq_some_iff]
      constructor
      · rintro ⟨⟨item, y⟩, hvalue, hrest⟩
        obtain ⟨⟨more, z⟩, hbehind, hrest⟩ := Option.bind_eq_some_iff.mp hrest
        cases more with
        | false =>
            obtain ⟨hitems, rfl⟩ := Prod.mk.inj (Option.some.inj hrest)
            obtain ⟨rfl, rfl⟩ := Trees.cons.inj hitems
            exact ⟨y, false, z, hvalue, hbehind, rfl, rfl⟩
        | true =>
            obtain ⟨⟨items, r'⟩, hmore, heq⟩ := Option.map_eq_some_iff.mp hrest
            obtain ⟨hitems, rfl⟩ := Prod.mk.inj heq
            obtain ⟨rfl, rfl⟩ := Trees.cons.inj hitems
            exact ⟨y, true, z, hvalue, hbehind, hmore⟩
      · rintro ⟨y, more, z, hvalue, hbehind, hrest⟩
        refine ⟨(t, y), hvalue, Option.bind_eq_some_iff.mpr ⟨(more, z), hbehind, ?_⟩⟩
        cases more with
        | false =>
            obtain ⟨rfl, rfl⟩ := hrest
            rfl
        | true => exact Option.map_eq_some_iff.mpr ⟨(ts, r), hrest, rfl⟩

theorem readFields_cons : readFields (fuel + 1) s = some (.cons key t fields, r) ↔
    ∃ y more z, readEntry fuel s = some (key, t, y) ∧
      behindItem (ch '\x7d') (y.dropWhile isBlank) = some (more, z) ∧
      (if more then readFields fuel z = some (fields, r) else fields = .nil ∧ z = r) := by
  rw [readFields.eq_def]
  dsimp only
  rw [Option.bind_eq_bind, Option.bind_eq_some_iff]
  constructor
  · rintro ⟨⟨name, value, y⟩, hentry, hrest⟩
    obtain ⟨⟨more, z⟩, hbehind, hrest⟩ := Option.bind_eq_some_iff.mp hrest
    cases more with
    | false =>
        obtain ⟨hfields, rfl⟩ := Prod.mk.inj (Option.some.inj hrest)
        obtain ⟨rfl, rfl, rfl⟩ := Fields.cons.inj hfields
        exact ⟨y, false, z, hentry, hbehind, rfl, rfl⟩
    | true =>
        obtain ⟨⟨others, r'⟩, hmore, heq⟩ := Option.map_eq_some_iff.mp hrest
        obtain ⟨hfields, rfl⟩ := Prod.mk.inj heq
        obtain ⟨rfl, rfl, rfl⟩ := Fields.cons.inj hfields
        exact ⟨y, true, z, hentry, hbehind, hmore⟩
  · rintro ⟨y, more, z, hentry, hbehind, hrest⟩
    refine ⟨(key, t, y), hentry, Option.bind_eq_some_iff.mpr ⟨(more, z), hbehind, ?_⟩⟩
    cases more with
    | false =>
        obtain ⟨rfl, rfl⟩ := hrest
        rfl
    | true => exact Option.map_eq_some_iff.mpr ⟨(fields, r), hrest, rfl⟩

theorem readEntry_eq : readEntry (fuel + 1) s = some (key, t, r) ↔
    ∃ y, readKey (s.dropWhile isBlank) = some (key, y) ∧
      (y.dropWhile isBlank).head? = some (ch '=') ∧
      readValue fuel ((y.dropWhile isBlank).tail.dropWhile isBlank) = some (t, r) := by
  rw [readEntry.eq_def]
  dsimp only
  rw [Option.bind_eq_bind, Option.bind_eq_some_iff]
  constructor
  · rintro ⟨⟨name, y⟩, hkey, hrest⟩
    dsimp only at hrest
    split at hrest
    · next hequals =>
        obtain ⟨⟨value, r'⟩, hvalue, heq⟩ := Option.map_eq_some_iff.mp hrest
        obtain ⟨rfl, hpair⟩ := Prod.mk.inj heq
        obtain ⟨rfl, rfl⟩ := Prod.mk.inj hpair
        exact ⟨y, hkey, hequals, hvalue⟩
    · exact absurd hrest (by simp)
  · rintro ⟨y, hkey, hequals, hvalue⟩
    refine ⟨(key, y), hkey, ?_⟩
    dsimp only
    rw [if_pos hequals]
    exact Option.map_eq_some_iff.mpr ⟨(t, r), hvalue, rfl⟩

theorem readLines_cons : readLines (fuel + 1) s = some (.cons key t fields) ↔
    s.dropWhile isWhite ≠ [] ∧ ∃ y, readEntry fuel (s.dropWhile isWhite) = some (key, t, y) ∧
      ((y.dropWhile isBlank = [] ∧ fields = .nil) ∨
        ∃ z, y.dropWhile isBlank = ch '\n' :: z ∧ readLines fuel z = some fields) := by
  rw [readLines.eq_def]
  dsimp only
  split
  · next hend =>
      constructor
      · intro h
        exact absurd h (by simp)
      · exact fun h => absurd hend h.1
  · next hend =>
      rw [ne_eq, and_iff_right hend, Option.bind_eq_bind, Option.bind_eq_some_iff]
      constructor
      · rintro ⟨⟨name, value, y⟩, hentry, hrest⟩
        dsimp only at hrest
        split at hrest
        · next hy =>
            obtain ⟨rfl, rfl, rfl⟩ := Fields.cons.inj (Option.some.inj hrest)
            exact ⟨y, hentry, .inl ⟨hy, rfl⟩⟩
        · next c z hy =>
            split at hrest
            · next hfeed =>
                obtain ⟨others, hmore, heq⟩ := Option.map_eq_some_iff.mp hrest
                obtain ⟨rfl, rfl, rfl⟩ := Fields.cons.inj heq
                exact ⟨y, hentry, .inr ⟨z, by rw [hy, hfeed], hmore⟩⟩
            · exact absurd hrest (by simp)
      · rintro ⟨y, hentry, hrest⟩
        refine ⟨(key, t, y), hentry, ?_⟩
        rcases hrest with ⟨hy, rfl⟩ | ⟨z, hy, hmore⟩
        · dsimp only
          rw [hy]
        · dsimp only
          rw [hy]
          dsimp only
          rw [if_pos rfl, hmore]
          rfl

end BlessStar.Lib.TomlText
