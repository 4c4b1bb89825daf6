import Mathlib.Data.FinEnum
import Mathlib.Data.List.Forall2
import Mathlib.Logic.Function.Basic
import BlessStar.Lib.JsonText

/-!
# Names of configuration accessors

The backends of `blessstar-codegen` derive the name of an accessor from the key
of a configuration field.  The generated adapter keeps the last good value, and
the Go and TypeScript ones the default too, under that name.
-/

namespace BlessStar.Codegen

open Lib.ByteString Lib.JsonText

/-- `r == '_' || r == '.'` -/
def isSeparator (c : UInt8) : Bool := c = ch '_' || c = ch '.'

/-- `strings.FieldsFunc` with `isSeparator`. -/
def fieldsFunc (s : Bytes) : List Bytes := (s.splitOnP isSeparator).filter (!·.isEmpty)

/-- `string(b)`, the text of a code point. -/
def runeText (b : UInt8) : Bytes :=
  if b < 128 then [b] else [(0xC0 : UInt8) ||| (b >>> 6), (0x80 : UInt8) ||| (b &&& 0x3F)]

/-- `string(p[0]-32) + p[1:]`. -/
def titled : Bytes → Bytes
  | [] => []
  | c :: p => runeText (c - 32) ++ p

/-- `strings.ToUpper` of a byte. -/
def toUpper (c : UInt8) : UInt8 := if 97 ≤ c ∧ c ≤ 122 then c - 32 else c

/-- `strings.ToLower` of a byte. -/
def toLower (c : UInt8) : UInt8 := if 65 ≤ c ∧ c ≤ 90 then c + 32 else c

/-- `strings.ToUpper(p[:1]) + p[1:]`. -/
def upperFirst : Bytes → Bytes
  | [] => []
  | c :: p => toUpper c :: p

/-- `strings.ToLower(p[:1]) + p[1:]`. -/
def lowerFirst : Bytes → Bytes
  | [] => []
  | c :: p => toLower c :: p

def ownParts (key : Bytes) : List Bytes :=
  let parts := key.splitOn (ch '.')
  if 2 ≤ parts.length then parts.drop 1 else parts

/-- `toCamelCase` of the Go backend. -/
def goCamelCase (s : Bytes) : Bytes := (fieldsFunc s).flatMap titled

/-- `MethodNameFromKey` of the Go backend. -/
def goMethodNameFromKey (key : Bytes) : Bytes := (ownParts key).flatMap goCamelCase

/-- `toCamelCase` of the TypeScript backend. -/
def tsCamelCase (s : Bytes) : Bytes :=
  match fieldsFunc s with
  | [] => []
  | p :: ps => lowerFirst p ++ ps.flatMap upperFirst

/-- `MethodNameFromKey` of the TypeScript backend. -/
def tsMethodNameFromKey (key : Bytes) : Bytes := tsCamelCase key

def cFuncName (key : Bytes) : Bytes := [ch '_'].intercalate (ownParts key)

def isLetter (c : UInt8) : Bool := decide (65 ≤ c ∧ c ≤ 90) || decide (97 ≤ c ∧ c ≤ 122)

def isDigit (c : UInt8) : Bool := decide (48 ≤ c ∧ c ≤ 57)

def isWordByte (c : UInt8) : Bool := isLetter c || isDigit c

def IsIdentifier (reserved : List Bytes) (name : Bytes) : Prop :=
  (∃ c s, name = c :: s ∧ (isLetter c ∨ c = ch '_') ∧ ∀ d ∈ s, isWordByte d ∨ d = ch '_') ∧
    name ∉ reserved

def goReserved : List Bytes :=
  ["break", "case", "chan", "const", "continue", "default", "defer", "else", "fallthrough", "for",
    "func", "go", "goto", "if", "import", "interface", "map", "package", "range", "return",
    "select", "struct", "switch", "type", "var"].map ascii

def cReserved : List Bytes :=
  ["auto", "break", "case", "char", "const", "continue", "default", "do", "double", "else", "enum",
    "extern", "float", "for", "goto", "if", "inline", "int", "long", "register", "restrict",
    "return", "short", "signed", "sizeof", "static", "struct", "switch", "typedef", "union",
    "unsigned", "void", "volatile", "while"].map ascii

def tsReserved : List Bytes :=
  ["await", "break", "case", "catch", "class", "const", "continue", "debugger", "default", "delete",
    "do", "else", "enum", "export", "extends", "false", "finally", "for", "function", "if",
    "import", "in", "instanceof", "new", "null", "return", "super", "switch", "this", "throw",
    "true", "try", "typeof", "var", "void", "while", "with", "yield"].map ascii

structure ConfigKey where
  segments : List Bytes
  segments_ne : segments ≠ []
  starts : ∀ s ∈ segments, ∃ c, s.head? = some c ∧ isLetter c
  bytes : ∀ s ∈ segments, ∀ c ∈ s, isWordByte c ∨ c = ch '_'

def ConfigKey.text (k : ConfigKey) : Bytes := [ch '.'].intercalate k.segments

structure ConfigField (V : Type) where
  key : ConfigKey
  default : V

structure DomainConfigs (V : Type) where
  fields : List (ConfigField V)
  nodup : (fields.map (·.key.text)).Nodup

structure Backend where
  accessor : Bytes → Bytes
  reserved : List Bytes
  defaultInline : Bool

def goBackend : Backend := ⟨goMethodNameFromKey, goReserved, false⟩

def tsBackend : Backend := ⟨tsMethodNameFromKey, tsReserved, false⟩

def cBackend : Backend := ⟨cFuncName, cReserved, true⟩

section Adapter

variable {V : Type}

def ConfigField.name (b : Backend) (f : ConfigField V) : Bytes := b.accessor f.key.text

/-- `hardcodedDefaults`: a later entry replaces an earlier one. -/
def Backend.hardcodedDefaults (b : Backend) (fields : List (ConfigField V)) : Bytes → Option V :=
  fields.foldl (fun m f => Function.update m (f.name b) (some f.default)) fun _ => none

structure Call (V : Type) where
  field : ConfigField V
  live : Option V

/-- The generated accessor: the reader, the last good value, the default. -/
def Backend.read (b : Backend) (fields : List (ConfigField V)) (cache : Bytes → Option V)
    (c : Call V) : Option V × (Bytes → Option V) :=
  match c.live with
  | some v => (some v, Function.update cache (c.field.name b) (some v))
  | none =>
      match cache (c.field.name b) with
      | some v => (some v, cache)
      | none =>
          (if b.defaultInline then some c.field.default
            else b.hardcodedDefaults fields (c.field.name b), cache)

def Backend.answers (b : Backend) (fields : List (ConfigField V)) :
    (Bytes → Option V) → List (Call V) → List (Option V)
  | _, [] => []
  | cache, c :: cs => (b.read fields cache c).1 :: b.answers fields (b.read fields cache c).2 cs

/-- The answers when each key keeps its own last good value and its own default. -/
def ownAnswers : (Bytes → Option V) → List (Call V) → List (Option V)
  | _, [] => []
  | last, c :: cs =>
      match c.live with
      | some v => some v :: ownAnswers (Function.update last c.field.key.text (some v)) cs
      | none => some ((last c.field.key.text).getD c.field.default) :: ownAnswers last cs

/-- The names are identifiers, differ for different keys, and no read answers
with the value of another key. -/
structure Backend.KeepsApart (b : Backend) (cfg : DomainConfigs V) : Prop where
  legal : ∀ f ∈ cfg.fields, IsIdentifier b.reserved (f.name b)
  differ : ∀ f ∈ cfg.fields, ∀ g ∈ cfg.fields, f.key.text ≠ g.key.text → f.name b ≠ g.name b
  fallback : ∀ calls : List (Call V), (∀ c ∈ calls, c.field ∈ cfg.fields) →
    b.answers cfg.fields (fun _ => none) calls = ownAnswers (fun _ => none) calls

def NamesApart (cfg : DomainConfigs V) : Prop :=
  ∀ b ∈ [goBackend, tsBackend, cBackend], b.KeepsApart cfg

end Adapter

namespace ConfigKey

def own (k : ConfigKey) : List Bytes :=
  if 2 ≤ k.segments.length then k.segments.drop 1 else k.segments

def wordsOf (segments : List Bytes) : List Bytes := segments.flatMap fieldsFunc

def BeginsWell (words : List Bytes) : Prop :=
  (∀ w ∈ words.head?, ∀ c ∈ w.head?, 97 ≤ c ∧ c ≤ 122) ∧
    ∀ w ∈ words, ∀ c ∈ w.head?, (97 ≤ c ∧ c ≤ 122) ∨ (80 ≤ c ∧ c ≤ 89)

def letters (words : List Bytes) : List (Bool × UInt8) :=
  words.flatMap fun w => (w.take 1).map (true, ·) ++ (w.drop 1).map (false, ·)

def SameLetter (capital : UInt8 → UInt8) (x y : Bool × UInt8) : Prop :=
  (if x.1 then capital x.2 else x.2) = if y.1 then capital y.2 else y.2

def SpelledAlike (capital : UInt8 → UInt8) (u v : List Bytes) : Prop :=
  List.Forall₂ (SameLetter capital) (letters u) (letters v)

end ConfigKey

open ConfigKey in
/-- What keeps the names apart: words that begin in lower case behind the domain,
no key that is a reserved word, and no two keys of the same spelling, without
their domains or with them. -/
structure KeysApart {V : Type} (cfg : DomainConfigs V) : Prop where
  begins : ∀ f ∈ cfg.fields, BeginsWell (wordsOf f.key.own)
  noKeyword : ∀ f ∈ cfg.fields, ∀ s, f.key.own = [s] → s ∉ cReserved
  noReserved : ∀ f ∈ cfg.fields, ∀ w, wordsOf f.key.segments = [w] → lowerFirst w ∉ tsReserved
  ownSpelling : ∀ f ∈ cfg.fields, ∀ g ∈ cfg.fields, f.key.text ≠ g.key.text →
    ¬SpelledAlike (· - 32) (wordsOf f.key.own) (wordsOf g.key.own)
  spelling : ∀ f ∈ cfg.fields, ∀ g ∈ cfg.fields, f.key.text ≠ g.key.text →
    ¬SpelledAlike toUpper (wordsOf f.key.segments) (wordsOf g.key.segments)

variable {s : Bytes} {w : Bytes}

theorem not_mem_splitOnP {p : UInt8 → Bool} (hw : w ∈ s.splitOnP p) :
    ∀ c ∈ w, c ∈ s ∧ p c = false := by
  induction s generalizing w with
  | nil =>
      rw [List.splitOnP_nil, List.mem_singleton] at hw
      simp [hw]
  | cons d s ih =>
      have hlater : ∀ v ∈ s.splitOnP p, ∀ c ∈ v, c ∈ d :: s ∧ p c = false := fun v hv c hc =>
        ⟨List.mem_cons_of_mem d (ih hv c hc).1, (ih hv c hc).2⟩
      rw [List.splitOnP_cons_eq_if_modifyHead] at hw
      split at hw
      · rcases List.mem_cons.mp hw with rfl | hw
        · simp
        · exact hlater w hw
      · next hd =>
          obtain ⟨v, vs, hsplit⟩ := List.exists_cons_of_ne_nil (List.splitOnP_ne_nil p s)
          rw [hsplit, List.modifyHead_cons] at hw
          rcases List.mem_cons.mp hw with rfl | hw
          · intro c hc
            rcases List.mem_cons.mp hc with rfl | hc
            · exact ⟨List.mem_cons_self, Bool.eq_false_iff.mpr hd⟩
            · exact hlater v (hsplit ▸ List.mem_cons_self) c hc
          · exact hlater w (hsplit ▸ List.mem_cons_of_mem v hw)

theorem mem_fieldsFunc (hw : w ∈ fieldsFunc s) :
    w ≠ [] ∧ ∀ c ∈ w, c ∈ s ∧ isSeparator c = false := by
  obtain ⟨hmem, hne⟩ := List.mem_filter.mp hw
  exact ⟨by simpa using hne, not_mem_splitOnP hmem⟩

theorem fieldsFunc_cons {c : UInt8} (hc : isSeparator c = false) (s : Bytes) :
    ∃ w ws, fieldsFunc (c :: s) = (c :: w) :: ws := by
  obtain ⟨v, vs, hsplit⟩ := List.exists_cons_of_ne_nil (List.splitOnP_ne_nil isSeparator s)
  refine ⟨v, vs.filter (!·.isEmpty), ?_⟩
  rw [fieldsFunc, List.splitOnP_cons_eq_if_modifyHead, if_neg (by rw [hc]; decide), hsplit]
  rfl

theorem fieldsFunc_append {c : UInt8} (hc : isSeparator c) (s t : Bytes) :
    fieldsFunc (s ++ c :: t) = fieldsFunc s ++ fieldsFunc t := by
  rw [fieldsFunc, List.splitOnP_append_cons s t hc, List.filter_append]
  rfl

theorem fieldsFunc_intercalate {c : UInt8} (hc : isSeparator c) (segments : List Bytes) :
    fieldsFunc ([c].intercalate segments) = ConfigKey.wordsOf segments := by
  induction segments with
  | nil => rfl
  | cons s segments ih =>
      cases segments with
      | nil => simp [ConfigKey.wordsOf]
      | cons r segments =>
          have hjoin : [c].intercalate (s :: r :: segments) =
              s ++ c :: [c].intercalate (r :: segments) := by
            simp [List.intercalate]
          rw [hjoin, fieldsFunc_append hc, ih]
          rfl

theorem toUpper_eq_iff {c d : UInt8} (hc : isLetter c) (hd : isLetter d) :
    toUpper c = toUpper d ↔ toLower c = toLower d := by
  have hfold : ∀ c : UInt8, isLetter c → toUpper (toLower c) = toUpper c ∧
      toLower (toUpper c) = toLower c := by decide +kernel
  constructor
  · intro h
    rw [← (hfold c hc).2, h, (hfold d hd).2]
  · intro h
    rw [← (hfold c hc).1, h, (hfold d hd).1]

namespace ConfigKey

def named (capital : UInt8 → UInt8) (x : Bool × UInt8) : UInt8 :=
  if x.1 then capital x.2 else x.2

theorem spelledAlike_iff {capital : UInt8 → UInt8} {u v : List Bytes} :
    SpelledAlike capital u v ↔ (letters u).map (named capital) = (letters v).map (named capital) := by
  rw [← List.forall₂_eq_eq_eq, List.forall₂_map_left_iff, List.forall₂_map_right_iff]
  rfl

def Plain (words : List Bytes) : Prop := ∀ w ∈ words, w ≠ [] ∧ ∀ c ∈ w, isWordByte c

theorem letters_map (capital : UInt8 → UInt8) (words : List Bytes) :
    (letters words).map (named capital) =
      words.flatMap fun w => (w.take 1).map capital ++ w.drop 1 := by
  rw [letters, List.map_flatMap]
  refine List.flatMap_congr fun w _ => ?_
  rw [List.map_append, List.map_map, List.map_map]
  congr 1
  exact List.map_id _

theorem flatMap_titled {words : List Bytes} (h : Plain words) :
    words.flatMap titled = (letters words).map (named (· - 32)) := by
  rw [letters_map]
  refine List.flatMap_congr fun w hw => ?_
  cases w with
  | nil => rfl
  | cons c w =>
      have hlow : ∀ c : UInt8, isWordByte c → c - 32 < 128 := by decide +kernel
      rw [titled, runeText, if_pos (hlow c ((h _ hw).2 c List.mem_cons_self))]
      rfl

theorem flatMap_upperFirst (words : List Bytes) :
    words.flatMap upperFirst = (letters words).map (named toUpper) := by
  rw [letters_map]
  refine List.flatMap_congr fun w hw => ?_
  cases w <;> rfl

variable (k : ConfigKey)

theorem segment_of_mem_own {k : ConfigKey} (h : s ∈ k.own) : s ∈ k.segments := by
  unfold own at h
  split at h
  · exact List.mem_of_mem_drop h
  · exact h

theorem own_ne : k.own ≠ [] := by
  unfold own
  split
  · apply List.ne_nil_of_length_pos
    rw [List.length_drop]
    omega
  · exact k.segments_ne

theorem ownParts_text : ownParts k.text = k.own := by
  have hdot : ∀ s ∈ k.segments, ch '.' ∉ s := by
    intro s hs hmem
    exact absurd (k.bytes s hs _ hmem) (by decide)
  have hsplit : k.text.splitOn (ch '.') = k.segments :=
    List.splitOn_intercalate _ hdot k.segments_ne
  rw [ownParts, hsplit]
  rfl

theorem words_of_segments {segments : List Bytes} (hne : segments ≠ [])
    (h : segments ⊆ k.segments) :
    Plain (wordsOf segments) ∧ ∃ c w ws, wordsOf segments = (c :: w) :: ws ∧ isLetter c := by
  constructor
  · intro w hw
    obtain ⟨s, hs, hw⟩ := List.mem_flatMap.mp hw
    obtain ⟨hwne, hbytes⟩ := mem_fieldsFunc hw
    refine ⟨hwne, fun c hc => ?_⟩
    obtain ⟨hmem, hsep⟩ := hbytes c hc
    rcases k.bytes s (h hs) c hmem with hword | rfl
    · exact hword
    · exact absurd hsep (by decide)
  · obtain ⟨s, rest, rfl⟩ := List.exists_cons_of_ne_nil hne
    obtain ⟨c, hhead, hc⟩ := k.starts s (h List.mem_cons_self)
    obtain ⟨t, rfl⟩ : ∃ t, s = c :: t := by
      cases s with
      | nil => simp at hhead
      | cons d t => exact ⟨t, by rw [Option.some.inj hhead]⟩
    have hsep : ∀ c : UInt8, isLetter c → isSeparator c = false := by decide +kernel
    obtain ⟨w, ws, hwords⟩ := fieldsFunc_cons (hsep c hc) t
    exact ⟨c, w, ws ++ wordsOf rest, by rw [wordsOf, List.flatMap_cons, hwords]; rfl, hc⟩

theorem own_words :
    Plain (wordsOf k.own) ∧ ∃ c w ws, wordsOf k.own = (c :: w) :: ws ∧ isLetter c :=
  k.words_of_segments k.own_ne fun _ => segment_of_mem_own

theorem words :
    Plain (wordsOf k.segments) ∧ ∃ c w ws, wordsOf k.segments = (c :: w) :: ws ∧ isLetter c :=
  k.words_of_segments k.segments_ne fun _ => id

theorem goName_eq : goMethodNameFromKey k.text = (letters (wordsOf k.own)).map (named (· - 32)) := by
  rw [goMethodNameFromKey, k.ownParts_text, ← flatMap_titled k.own_words.1, wordsOf,
    List.flatMap_assoc]
  rfl

theorem cName_eq : cFuncName k.text = [ch '_'].intercalate k.own := by
  rw [cFuncName, k.ownParts_text]

theorem goName_of_cName : goMethodNameFromKey k.text = goCamelCase (cFuncName k.text) := by
  rw [goMethodNameFromKey, k.ownParts_text, k.cName_eq, goCamelCase,
    fieldsFunc_intercalate (by decide), wordsOf, List.flatMap_assoc]
  rfl

theorem tsName_eq {c : UInt8} {w : Bytes} {ws : List Bytes}
    (h : wordsOf k.segments = (c :: w) :: ws) :
    tsMethodNameFromKey k.text = toLower c :: (w ++ ws.flatMap upperFirst) := by
  rw [tsMethodNameFromKey, tsCamelCase, text, fieldsFunc_intercalate (by decide), h]
  rfl

theorem goName_legal : IsIdentifier goReserved (goMethodNameFromKey k.text) ↔
    BeginsWell (wordsOf k.own) := by
  obtain ⟨hplain, c, w, ws, hwords, hc⟩ := k.own_words
  have hname : goMethodNameFromKey k.text =
      (c - 32) :: (w ++ (letters ws).map (named (· - 32))) := by
    rw [k.goName_eq, hwords, letters_map, letters_map]
    rfl
  have hfirst : ∀ c : UInt8, isLetter c →
      ((isLetter (c - 32) ∨ c - 32 = ch '_') ↔ 97 ≤ c ∧ c ≤ 122) := by decide +kernel
  have hlater : ∀ c : UInt8, isWordByte c →
      ((isWordByte (c - 32) ∨ c - 32 = ch '_') ↔ (97 ≤ c ∧ c ≤ 122) ∨ (80 ≤ c ∧ c ≤ 89)) := by
    decide +kernel
  have hbytes : (∀ d ∈ w ++ (letters ws).map (named (· - 32)), isWordByte d ∨ d = ch '_') ↔
      ∀ v ∈ ws, ∀ d ∈ v.head?, (97 ≤ d ∧ d ≤ 122) ∨ (80 ≤ d ∧ d ≤ 89) := by
    rw [hwords, Plain, List.forall_mem_cons] at hplain
    rw [List.forall_mem_append, letters_map]
    constructor
    · rintro ⟨-, h⟩ v hv d hd
      refine (hlater d ((hplain.2 v hv).2 d (List.mem_of_mem_head? hd))).mp (h _ ?_)
      refine List.mem_flatMap.mpr ⟨v, hv, List.mem_append_left _ (List.mem_map_of_mem ?_)⟩
      rw [Option.mem_def, List.head?_eq_some_iff] at hd
      obtain ⟨t, rfl⟩ := hd
      exact List.mem_cons_self
    · intro h
      refine ⟨fun d hd => Or.inl (hplain.1.2 d (List.mem_cons_of_mem c hd)), fun d hd => ?_⟩
      obtain ⟨v, hv, hd⟩ := List.mem_flatMap.mp hd
      rcases List.mem_append.mp hd with hd | hd
      · obtain ⟨e, he, rfl⟩ := List.mem_map.mp hd
        have hhead : e ∈ v.head? := by
          cases v with
          | nil => simp at he
          | cons d t => simpa [eq_comm] using he
        exact (hlater e ((hplain.2 v hv).2 e (List.mem_of_mem_head? hhead))).mpr (h v hv e hhead)
      · exact Or.inl ((hplain.2 v hv).2 d (List.mem_of_mem_drop hd))
  have hreserved : ∀ r ∈ goReserved, ∀ d ∈ r.head?, 97 ≤ d := by decide +kernel
  have hlow : ∀ c : UInt8, 97 ≤ c ∧ c ≤ 122 → ¬97 ≤ c - 32 := by decide +kernel
  rw [IsIdentifier, hname, BeginsWell, hwords, List.forall_mem_cons]
  constructor
  · rintro ⟨⟨d, t, hcons, hd, ht⟩, -⟩
    obtain ⟨rfl, rfl⟩ := List.cons.inj hcons
    have hcase := (hfirst c hc).mp hd
    refine ⟨?_, ?_, hbytes.mp ht⟩
    · rintro _ ⟨⟩ _ ⟨⟩
      exact hcase
    · rintro _ ⟨⟩
      exact Or.inl hcase
  · rintro ⟨hhead, -, hrest⟩
    have hcase := hhead _ rfl c rfl
    exact ⟨⟨_, _, rfl, (hfirst c hc).mpr hcase, hbytes.mpr hrest⟩,
      fun hmem => hlow c hcase (hreserved _ hmem _ rfl)⟩

theorem cName_legal : IsIdentifier cReserved (cFuncName k.text) ↔
    ∀ s, k.own = [s] → s ∉ cReserved := by
  obtain ⟨s, rest, hown⟩ := List.exists_cons_of_ne_nil k.own_ne
  obtain ⟨c, hhead, hc⟩ := k.starts s (segment_of_mem_own (hown ▸ List.mem_cons_self))
  obtain ⟨t, rfl⟩ : ∃ t, s = c :: t := by
    cases s with
    | nil => simp at hhead
    | cons d t => exact ⟨t, by rw [Option.some.inj hhead]⟩
  have hall : ∀ d ∈ [ch '_'].intercalate k.own, isWordByte d ∨ d = ch '_' := by
    intro d hd
    have hmem : ∀ segments : List Bytes, d ∈ [ch '_'].intercalate segments →
        d = ch '_' ∨ ∃ s ∈ segments, d ∈ s := by
      intro segments
      induction segments with
      | nil => simp [List.intercalate]
      | cons r segments ih =>
          cases segments with
          | nil => simpa [List.intercalate] using Or.inr
          | cons q segments =>
              rw [show [ch '_'].intercalate (r :: q :: segments) =
                r ++ ch '_' :: [ch '_'].intercalate (q :: segments) by simp [List.intercalate],
                List.mem_append, List.mem_cons]
              rintro (hd | rfl | hd)
              · exact Or.inr ⟨r, List.mem_cons_self, hd⟩
              · exact Or.inl rfl
              · rcases ih hd with heq | ⟨s, hs, hd⟩
                · exact Or.inl heq
                · exact Or.inr ⟨s, List.mem_cons_of_mem r hs, hd⟩
    rcases hmem _ hd with rfl | ⟨s, hs, hd⟩
    · exact Or.inr rfl
    · exact k.bytes s (segment_of_mem_own hs) d hd
  rw [IsIdentifier, k.cName_eq]
  cases rest with
  | nil =>
      have hname : [ch '_'].intercalate k.own = c :: t := by
        rw [hown]
        simp [List.intercalate]
      rw [hname] at hall ⊢
      rw [hown]
      constructor
      · rintro ⟨-, hnot⟩ s hs
        obtain rfl : c :: t = s := by simpa using hs
        exact hnot
      · intro h
        exact ⟨⟨c, t, rfl, Or.inl hc, (List.forall_mem_cons.mp hall).2⟩, h _ rfl⟩
  | cons r rest =>
      have hname : [ch '_'].intercalate k.own =
          c :: (t ++ ch '_' :: [ch '_'].intercalate (r :: rest)) := by
        rw [hown]
        simp [List.intercalate]
      have hscore : ∀ word ∈ cReserved, ch '_' ∉ word := by decide +kernel
      refine ⟨fun _ s hs => by simp [hown] at hs, fun _ => ⟨?_, ?_⟩⟩
      · rw [hname] at hall ⊢
        exact ⟨c, _, rfl, Or.inl hc, (List.forall_mem_cons.mp hall).2⟩
      · intro hmem
        refine hscore _ hmem ?_
        rw [hname]
        simp

theorem tsName_legal : IsIdentifier tsReserved (tsMethodNameFromKey k.text) ↔
    ∀ w, wordsOf k.segments = [w] → lowerFirst w ∉ tsReserved := by
  obtain ⟨hplain, c, w, ws, hwords, hc⟩ := k.words
  have hletter : ∀ c : UInt8, isLetter c → isLetter (toLower c) := by decide +kernel
  have hupper : ∀ c : UInt8, isWordByte c → isWordByte (toUpper c) ∧ ¬(97 ≤ toUpper c) := by
    decide +kernel
  rw [hwords, Plain, List.forall_mem_cons] at hplain
  have hbytes : ∀ d ∈ w ++ ws.flatMap upperFirst, isWordByte d ∨ d = ch '_' := by
    intro d hd
    rcases List.mem_append.mp hd with hd | hd
    · exact Or.inl (hplain.1.2 d (List.mem_cons_of_mem c hd))
    · obtain ⟨v, hv, hd⟩ := List.mem_flatMap.mp hd
      cases v with
      | nil => simp [upperFirst] at hd
      | cons e v =>
          rcases List.mem_cons.mp hd with rfl | hd
          · exact Or.inl (hupper e ((hplain.2 _ hv).2 e List.mem_cons_self)).1
          · exact Or.inl ((hplain.2 _ hv).2 d (List.mem_cons_of_mem e hd))
  have hlegal : IsIdentifier tsReserved (tsMethodNameFromKey k.text) ↔
      tsMethodNameFromKey k.text ∉ tsReserved := by
    refine ⟨And.right, fun h => ⟨?_, h⟩⟩
    rw [k.tsName_eq hwords]
    exact ⟨_, _, rfl, Or.inl (hletter c hc), hbytes⟩
  rw [hlegal, hwords, k.tsName_eq hwords]
  cases ws with
  | nil =>
      constructor
      · rintro h v hv
        obtain rfl : c :: w = v := by simpa using hv
        simpa [lowerFirst] using h
      · intro h
        simpa [lowerFirst] using h _ rfl
  | cons v ws =>
      refine ⟨fun _ v hv => by simp at hv, fun _ hmem => ?_⟩
      have hsmall : ∀ word ∈ tsReserved, ∀ d ∈ word, 97 ≤ d := by decide +kernel
      obtain ⟨hvne, hvword⟩ := hplain.2 v List.mem_cons_self
      obtain ⟨e, v, rfl⟩ := List.exists_cons_of_ne_nil hvne
      refine (hupper e (hvword e List.mem_cons_self)).2 (hsmall _ hmem _ ?_)
      simp [upperFirst]

variable {k} {l : ConfigKey}

theorem goName_eq_iff : goMethodNameFromKey k.text = goMethodNameFromKey l.text ↔
    SpelledAlike (· - 32) (wordsOf k.own) (wordsOf l.own) := by
  rw [k.goName_eq, l.goName_eq, spelledAlike_iff]

theorem tsName_eq_iff : tsMethodNameFromKey k.text = tsMethodNameFromKey l.text ↔
    SpelledAlike toUpper (wordsOf k.segments) (wordsOf l.segments) := by
  obtain ⟨-, c, w, ws, hk, hc⟩ := k.words
  obtain ⟨-, d, v, vs, hl, hd⟩ := l.words
  rw [k.tsName_eq hk, l.tsName_eq hl, spelledAlike_iff, ← flatMap_upperFirst,
    ← flatMap_upperFirst, hk, hl, List.flatMap_cons, List.flatMap_cons, upperFirst, upperFirst,
    List.cons_append, List.cons_append, List.cons.injEq, List.cons.injEq, toUpper_eq_iff hc hd]

end ConfigKey

section Reads

variable {V : Type} (b : Backend) {fields : List (ConfigField V)}

theorem foldl_update_of_ne {n : Bytes} (h : ∀ f ∈ fields, f.name b ≠ n) (m : Bytes → Option V) :
    (fields.foldl (fun m f => Function.update m (f.name b) (some f.default)) m : Bytes → Option V)
      n = m n := by
  induction fields generalizing m with
  | nil => rfl
  | cons f fields ih =>
      obtain ⟨hf, hrest⟩ := List.forall_mem_cons.mp h
      rw [List.foldl_cons, ih hrest, Function.update_of_ne hf.symm]

theorem hardcodedDefaults_name (hnodup : (fields.map (·.key.text)).Nodup)
    (hdiffer : ∀ f ∈ fields, ∀ g ∈ fields, f.key.text ≠ g.key.text → f.name b ≠ g.name b)
    {f : ConfigField V} (hf : f ∈ fields) :
    b.hardcodedDefaults fields (f.name b) = some f.default := by
  obtain ⟨before, after, rfl⟩ := List.append_of_mem hf
  rw [Backend.hardcodedDefaults, List.foldl_append, List.foldl_cons, foldl_update_of_ne b,
    Function.update_self]
  intro g hg
  refine hdiffer g (by simp [hg]) f hf fun heq => ?_
  rw [List.map_append, List.map_cons, List.nodup_append, List.nodup_cons] at hnodup
  exact hnodup.2.1.1 (heq ▸ List.mem_map_of_mem hg)

theorem answers_eq (hdefault : ∀ f ∈ fields, b.defaultInline ∨
      b.hardcodedDefaults fields (f.name b) = some f.default)
    (hdiffer : ∀ f ∈ fields, ∀ g ∈ fields, f.key.text ≠ g.key.text → f.name b ≠ g.name b)
    (calls : List (Call V)) (hcalls : ∀ c ∈ calls, c.field ∈ fields)
    {cache last : Bytes → Option V} (hcache : ∀ f ∈ fields, cache (f.name b) = last f.key.text) :
    b.answers fields cache calls = ownAnswers last calls := by
  induction calls generalizing cache last with
  | nil => rfl
  | cons c calls ih =>
      obtain ⟨hc, hrest⟩ := List.forall_mem_cons.mp hcalls
      rw [Backend.answers, ownAnswers, Backend.read]
      cases hlive : c.live with
      | some v =>
          simp only
          rw [ih hrest]
          intro f hf
          by_cases hkey : f.key.text = c.field.key.text
          · have hname : f.name b = c.field.name b := by rw [ConfigField.name, hkey]; rfl
            rw [hkey, hname, Function.update_self, Function.update_self]
          · rw [Function.update_of_ne hkey, Function.update_of_ne (hdiffer f hf _ hc hkey)]
            exact hcache f hf
      | none =>
          rw [hcache c.field hc]
          cases hlast : last c.field.key.text with
          | some v =>
              simp only
              rw [ih hrest hcache]
              rfl
          | none =>
              simp only
              rw [ih hrest hcache]
              congr 1
              split
              · rfl
              · next hinline =>
                  rcases hdefault c.field hc with hinline' | htable
                  · exact absurd hinline' hinline
                  · exact htable

theorem Backend.keepsApart_of (cfg : DomainConfigs V)
    (hlegal : ∀ f ∈ cfg.fields, IsIdentifier b.reserved (f.name b))
    (hdiffer : ∀ f ∈ cfg.fields, ∀ g ∈ cfg.fields, f.key.text ≠ g.key.text →
      f.name b ≠ g.name b) : b.KeepsApart cfg where
  legal := hlegal
  differ := hdiffer
  fallback calls hcalls := answers_eq b
    (fun _ hf => Or.inr (hardcodedDefaults_name b cfg.nodup hdiffer hf)) hdiffer calls hcalls
    fun _ _ => rfl

end Reads

def dottedConfigs : DomainConfigs Nat where
  fields :=
    [⟨⟨[ascii "a", ascii "x_y"], by decide, by decide +kernel, by decide⟩, 1⟩,
      ⟨⟨[ascii "a", ascii "x", ascii "y"], by decide, by decide +kernel, by decide⟩, 2⟩]
  nodup := by decide +kernel

end BlessStar.Codegen
