import BlessStar.Lib.ByteString

/-!
# INI texts

A reader that goes by lines: `[name]` opens a section, `key = value` is an entry
of the section that is open, or of the root before any.
-/

namespace BlessStar.Lib.IniText

open Lib.ByteString

structure Entry where
  name : Option Bytes
  key : Bytes
  value : Bytes
  deriving DecidableEq

inductive Line
  | header (name : Bytes)
  | entry (key value : Bytes)
  | other
  deriving DecidableEq

def isBlank (c : UInt8) : Bool := decide (c ∈ ascii " \t")

def splitAssign : Bytes → Option (Bytes × Bytes)
  | [] => none
  | c :: s =>
      if (ascii " = ").isPrefixOf (c :: s) then some ([], s.drop 2)
      else (splitAssign s).map fun (key, value) => (c :: key, value)

def unquote (value : Bytes) : Bytes :=
  if 2 ≤ value.length ∧ value.head? = some 34 ∧ value.getLast? = some 34 then
    (value.drop 1).dropLast
  else value

def readLine (line : Bytes) : Line :=
  let text := line.dropWhile isBlank
  if text.head? = some 91 ∧ text.getLast? = some 93 then .header (text.drop 1).dropLast
  else
    match splitAssign text with
    | some (key, value) => .entry key (unquote value)
    | none => .other

/-- The entries of lines, the section `name` being open. -/
def readLines (name : Option Bytes) : List Bytes → List Entry
  | [] => []
  | line :: lines =>
      match readLine line with
      | .header name => readLines (some name) lines
      | .entry key value => ⟨name, key, value⟩ :: readLines name lines
      | .other => readLines name lines

def readIni (text : Bytes) : List Entry := readLines none (getLines text)

variable {s t key value line : Bytes} {name : Option Bytes}

theorem splitAssign_prefix (s : Bytes) : splitAssign (ascii " = " ++ s) = some ([], s) := rfl

theorem append_of_splitAssign (h : splitAssign s = some (key, value)) :
    s = key ++ (ascii " = " ++ value) := by
  induction s generalizing key with
  | nil => exact absurd h (by simp [splitAssign])
  | cons c s ih =>
      rw [splitAssign] at h
      split at h
      · next hprefix =>
          obtain ⟨rfl, rfl⟩ := Prod.mk.inj (Option.some.inj h)
          obtain ⟨u, hu⟩ := List.isPrefixOf_iff_prefix.mp hprefix
          rw [← hu]
          obtain rfl : c = 32 := (List.cons.inj hu).1.symm
          rw [← (List.cons.inj hu).2]
          rfl
      · obtain ⟨⟨k, v⟩, hsplit, heq⟩ := Option.map_eq_some_iff.mp h
        obtain ⟨rfl, rfl⟩ := Prod.mk.inj heq
        rw [ih hsplit]
        rfl

theorem splitAssign_append (hkey : ¬ascii " = " <:+: key ++ ascii " =") (value : Bytes) :
    splitAssign (key ++ (ascii " = " ++ value)) = some (key, value) := by
  induction key with
  | nil => exact splitAssign_prefix value
  | cons c key ih =>
      have hrest : ¬ascii " = " <:+: key ++ ascii " =" := fun h =>
        hkey (h.trans (List.suffix_cons c _).isInfix)
      have hprefix : (ascii " = ").isPrefixOf (c :: (key ++ (ascii " = " ++ value))) ≠ true := by
        intro h
        obtain ⟨u, hu⟩ := List.isPrefixOf_iff_prefix.mp h
        refine hkey (List.IsPrefix.isInfix ?_)
        have hlong : (ascii " = ").length ≤ (c :: (key ++ ascii " =")).length := by
          rw [List.length_cons, List.length_append]
          exact Nat.le_add_left 3 key.length |>.trans (by simp [ascii])
        have hwhole : c :: (key ++ ascii " =") <+: c :: (key ++ (ascii " = " ++ value)) :=
          ⟨32 :: value, by simp [ascii]⟩
        exact List.prefix_of_prefix_length_le ⟨u, hu⟩ hwhole hlong
      rw [List.cons_append, splitAssign, if_neg hprefix, ih hrest]
      rfl

theorem unquote_quoted (value : Bytes) : unquote (34 :: (value ++ [34])) = value := by
  have hlast : (34 :: (value ++ [34]) : Bytes).getLast? = some 34 :=
    List.getLast?_concat (l := 34 :: value)
  unfold unquote
  rw [if_pos ⟨by simp, rfl, hlast⟩]
  simp

theorem unquote_of_head (h : value.head? ≠ some 34) : unquote value = value := by
  unfold unquote
  rw [if_neg fun hquoted => h hquoted.2.1]

theorem readLines_header {inner : Bytes} (h : readLine line = .header inner)
    (name : Option Bytes) (lines : List Bytes) :
    readLines name (line :: lines) = readLines (some inner) lines := by
  rw [readLines, h]

theorem readLines_entry (h : readLine line = .entry key value) (name : Option Bytes)
    (lines : List Bytes) :
    readLines name (line :: lines) = ⟨name, key, value⟩ :: readLines name lines := by
  rw [readLines, h]

theorem readLines_other (h : readLine line = .other) (name : Option Bytes) (lines : List Bytes) :
    readLines name (line :: lines) = readLines name lines := by
  rw [readLines, h]

theorem length_readLines_cons (name : Option Bytes) (line : Bytes) (lines : List Bytes) :
    ∃ name', (readLines name (line :: lines)).length ≤ (readLines name' lines).length + 1 := by
  cases h : readLine line with
  | header inner =>
      rw [readLines_header h]
      exact ⟨some inner, Nat.le_succ _⟩
  | entry key value =>
      rw [readLines_entry h]
      exact ⟨name, Nat.le_refl _⟩
  | other =>
      rw [readLines_other h]
      exact ⟨name, Nat.le_succ _⟩

theorem readLine_bracketed (inner : Bytes) :
    readLine (91 :: (inner ++ [93])) = .header inner := by
  have htext : (91 :: (inner ++ [93]) : Bytes).dropWhile isBlank = 91 :: (inner ++ [93]) :=
    List.dropWhile_cons_of_neg (by decide)
  have hlast : (91 :: (inner ++ [93]) : Bytes).getLast? = some 93 :=
    List.getLast?_concat (l := 91 :: inner)
  unfold readLine
  rw [htext]
  dsimp only
  rw [if_pos ⟨rfl, hlast⟩]
  simp

theorem readLine_nil : readLine [] = .other := rfl

theorem readLine_assign (hblank : ∀ c ∈ s, isBlank c = true) (hne : key ≠ [])
    (hhead : ∀ c ∈ key.head?, isBlank c = false) (hkey : ¬ascii " = " <:+: key ++ ascii " =")
    (hbrackets : ¬(key.head? = some 91 ∧ value.getLast? = some 93)) :
    readLine (s ++ (key ++ (ascii " = " ++ value))) = .entry key (unquote value) := by
  obtain ⟨c, u, rfl⟩ := List.exists_cons_of_ne_nil hne
  have htext : (s ++ (c :: u ++ (ascii " = " ++ value))).dropWhile isBlank =
      c :: u ++ (ascii " = " ++ value) := by
    rw [List.dropWhile_append_of_pos hblank, List.cons_append]
    refine List.dropWhile_cons_of_neg ?_
    rw [hhead c rfl]
    decide
  have hlast : (c :: u ++ (ascii " = " ++ value)).getLast? = some 93 → value.getLast? = some 93 := by
    intro h
    cases value with
    | nil =>
        rw [List.append_nil, List.getLast?_append,
          show (ascii " = ").getLast? = some 32 from rfl] at h
        exact absurd h (by simp)
    | cons d v =>
        rw [List.getLast?_append, List.getLast?_append] at h
        simpa using h
  unfold readLine
  rw [htext]
  dsimp only
  rw [if_neg fun h => hbrackets ⟨h.1, hlast h.2⟩, splitAssign_append hkey]

theorem append_of_readLine (h : readLine line = .entry key value) :
    ∃ v, splitAssign (line.dropWhile isBlank) = some (key, v) ∧ unquote v = value ∧
      ¬((line.dropWhile isBlank).head? = some 91 ∧ (line.dropWhile isBlank).getLast? = some 93) := by
  unfold readLine at h
  dsimp only at h
  split at h
  · exact absurd h (by simp)
  · next hbrackets =>
      split at h
      · next k v hsplit =>
          obtain ⟨rfl, rfl⟩ := Line.entry.inj h
          exact ⟨v, hsplit, rfl, hbrackets⟩
      · exact absurd h (by simp)

theorem unsplit_of_splitAssign {u : Bytes}
    (h : splitAssign (key ++ (ascii " = " ++ u)) = some (key, value)) :
    ¬ascii " = " <:+: key ++ ascii " =" := by
  induction key with
  | nil => decide
  | cons c key ih =>
      rw [List.cons_append, splitAssign] at h
      split at h
      · exact absurd (Prod.mk.inj (Option.some.inj h)).1 (by simp)
      · next hprefix =>
          obtain ⟨⟨k, v⟩, hsplit, heq⟩ := Option.map_eq_some_iff.mp h
          obtain ⟨hk, rfl⟩ := Prod.mk.inj heq
          obtain rfl := (List.cons.inj hk).2
          rintro ⟨a, b, hinfix⟩
          cases a with
          | nil =>
              refine hprefix (List.isPrefixOf_iff_prefix.mpr ⟨b ++ 32 :: u, ?_⟩)
              have hline : c :: (k ++ (ascii " = " ++ u)) = (c :: k ++ ascii " =") ++ 32 :: u := by
                simp [ascii]
              rw [hline, ← hinfix]
              simp
          | cons d a =>
              refine ih hsplit ⟨a, b, ?_⟩
              exact (List.cons.inj hinfix).2

def AtMost (lines : List Bytes) (n : Nat) : Prop := ∀ name, (readLines name lines).length ≤ n

theorem AtMost.cons {lines : List Bytes} {n : Nat} (h : AtMost lines n) (line : Bytes) :
    AtMost (line :: lines) (n + 1) := fun name => by
  obtain ⟨name', hname⟩ := length_readLines_cons name line lines
  exact hname.trans (Nat.add_le_add_right (h name') 1)

theorem AtMost.header {lines : List Bytes} {n : Nat} (h : AtMost lines n) {inner : Bytes}
    (hline : readLine line = .header inner) : AtMost (line :: lines) n := fun name => by
  rw [readLines_header hline]
  exact h _

theorem AtMost.other {lines : List Bytes} {n : Nat} (h : AtMost lines n)
    (hline : readLine line = .other) : AtMost (line :: lines) n := fun name => by
  rw [readLines_other hline]
  exact h _

theorem readLines_cons_iff {lines : List Bytes} {entry : Entry} {entries : List Entry}
    (h : AtMost lines entries.length) :
    readLines name (line :: lines) = entry :: entries ↔
      (name = entry.name ∧ readLine line = .entry entry.key entry.value) ∧
        readLines name lines = entries := by
  have hshort : ∀ name', readLines name' lines ≠ entry :: entries := fun name' heq => by
    have hlength := h name'
    rw [heq, List.length_cons] at hlength
    omega
  cases hline : readLine line with
  | header inner =>
      rw [readLines_header hline]
      exact iff_of_false (hshort _) fun h => absurd h.1.2 (by simp)
  | entry key value =>
      rw [readLines_entry hline, List.cons.injEq]
      obtain ⟨name', key', value'⟩ := entry
      simp
  | other =>
      rw [readLines_other hline]
      exact iff_of_false (hshort _) fun h => absurd h.1.2 (by simp)

end BlessStar.Lib.IniText
