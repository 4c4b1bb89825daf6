import BlessStar.Convert.Proofs.TomlWriting

/-!
# Reading TOML back

A string is written without quotes, or with quotes around its escapes, so it is
never read as the same string.  Numbers and words are read back, and so are flat
arrays and tables of one member; a key is read back when it is bare.
-/

namespace BlessStar.Convert.Proofs.TomlRoundTrip

open Lib.ByteString Lib.JsonText Lib.TomlText TomlWriting

variable {q : UInt8 → Bool} {body s r x y : Bytes} {fuel : Nat} {c d : UInt8}

def Skips (q : UInt8 → Bool) : Prop := ∀ c, q c = true → c ∈ ascii " \t\n\r"

theorem skips_blank : Skips isBlank := fun c hc =>
  (by decide : ∀ c ∈ ascii " \t", c ∈ ascii " \t\n\r") c (of_decide_eq_true hc)

theorem skips_white : Skips isWhite := fun _ hc => of_decide_eq_true hc

theorem dropWhile_token (hq : Skips q) (hc : c ∉ ascii " \t\n\r") (s : Bytes) :
    (c :: s).dropWhile q = c :: s :=
  List.dropWhile_cons_of_neg (mt (hq c) hc)

theorem mem_of_dropWhile (hc : q c = false) (h : (s ++ c :: r).dropWhile q = d :: x) :
    d ∈ s ∨ d = c := by
  induction s with
  | nil =>
      rw [List.nil_append, List.dropWhile_cons_of_neg (by simp [hc])] at h
      exact .inr (List.cons.inj h).1.symm
  | cons e s ih =>
      by_cases he : q e = true
      · rw [List.cons_append, List.dropWhile_cons_of_pos he] at h
        exact (ih h).imp_left (List.mem_cons_of_mem e)
      · rw [List.cons_append, List.dropWhile_cons_of_neg he] at h
        exact .inl ((List.cons.inj h).1 ▸ List.mem_cons_self)

def escaped (body : Bytes) : Bytes :=
  body.flatMap fun c =>
    if c = ch '"' then ascii "\\\"" else if c = ch '\\' then ascii "\\\\" else [c]

theorem stringText_escaped (h : ch '\\' ∈ body) :
    stringText body = ch '"' :: (escaped body ++ [ch '"']) := by
  unfold stringText tomlEmitString
  rw [if_pos]
  · rfl
  · exact List.any_eq_true.mpr ⟨_, h, by simp⟩

theorem stringText_plain (hb : IsBody body) (h : ch '\\' ∉ body) : stringText body = body := by
  have hraw := IsBody.raw_of_not_mem hb h
  unfold stringText tomlEmitString
  rw [if_neg, List.nil_append]
  intro hany
  obtain ⟨c, hc, hspecial⟩ := List.any_eq_true.mp hany
  rcases of_decide_eq_true hspecial with rfl | rfl | rfl
  · exact (hraw _ hc).2 rfl
  · exact absurd (hraw _ hc).1 (by decide)
  · exact h hc

theorem body_of_basicString (h : basicString (escaped body ++ ch '"' :: r) = some (x, y)) :
    x = body := by
  induction body generalizing x with
  | nil =>
      rw [escaped, List.flatMap_nil, List.nil_append, basicString_quote] at h
      exact (Prod.mk.inj (Option.some.inj h)).1.symm
  | cons c body ih =>
      have hstep : ∀ e ∈ ascii "\"\\", basicString (ch '\\' :: e :: (escaped body ++ ch '"' :: r)) =
          some (x, y) → x = e :: body := by
        intro e he hread
        rw [basicString_escape ((by decide : ∀ e ∈ ascii "\"\\", e ∈ ascii "btnfr\"\\") e he),
          Option.map_eq_some_iff] at hread
        obtain ⟨⟨text, rest⟩, hread, heq⟩ := hread
        obtain ⟨rfl, rfl⟩ := Prod.mk.inj heq
        rw [ih hread, (by decide : ∀ e ∈ ascii "\"\\", unescape e = e) e he]
      by_cases hquote : c = ch '"'
      · rw [hquote] at h ⊢
        exact hstep _ (by decide) h
      by_cases hslash : c = ch '\\'
      · rw [hslash] at h ⊢
        exact hstep _ (by decide) h
      · have hescaped : escaped (c :: body) = c :: escaped body := by
          rw [escaped, List.flatMap_cons, if_neg hquote, if_neg hslash]
          rfl
        rw [hescaped] at h
        obtain ⟨text, hread, rfl⟩ := basicString_byte hquote hslash h
        rw [ih hread]

theorem decode_ne (hb : IsBody body) (h : ch '\\' ∈ body) : decode body ≠ body := fun heq => by
  have hlt := (IsBody.length_decode hb).2 h
  rw [heq] at hlt
  exact Nat.lt_irrefl _ hlt

/-- **No string is read back.** -/
theorem readValue_string_ne (hb : IsBody body) (hq : Skips q) (hc : q c = false)
    (hquote : c ≠ ch '"') :
    readValue fuel ((stringText body ++ c :: r).dropWhile q) ≠ some (.string (decode body), y) := by
  intro h
  obtain ⟨s, hs, hread⟩ := basicString_of_readValue h
  by_cases hmem : ch '\\' ∈ body
  · rw [stringText_escaped hmem, List.cons_append, dropWhile_token hq (by decide),
      List.append_assoc] at hs
    rw [← (List.cons.inj hs).2] at hread
    exact decode_ne hb hmem (body_of_basicString hread)
  · rw [stringText_plain hb hmem] at hs
    rcases mem_of_dropWhile hc hs with hin | rfl
    · exact (IsBody.raw_of_not_mem hb hmem _ hin).2 rfl
    · exact hquote rfl

theorem bare_not_mem (hkey : IsBareKey body) {c : UInt8} (hc : isBareByte c = false) : c ∉ body :=
  fun hmem => by
    have hbare := hkey.2 c hmem
    rw [hc] at hbare
    exact absurd hbare (by decide)

theorem bare_dropWhile (hkey : IsBareKey body) (hq : Skips q) (s : Bytes) :
    (body ++ s).dropWhile q = body ++ s := by
  obtain ⟨c, t, rfl⟩ := List.exists_cons_of_ne_nil hkey.1
  refine dropWhile_token hq (fun hc => ?_) _
  have hbare : ∀ c ∈ ascii " \t\n\r", isBareByte c = false := by decide
  exact bare_not_mem hkey (hbare c hc) List.mem_cons_self

/-- **A key is read back** exactly when it is bare. -/
theorem readKey_stringText (hb : IsBody body) (hq : Skips q) (s y : Bytes) :
    readKey ((stringText body ++ (ascii " = " ++ s)).dropWhile q) = some (decode body, y) ↔
      IsBareKey body ∧ ascii " = " ++ s = y := by
  constructor
  · intro h
    by_cases hmem : ch '\\' ∈ body
    · rw [stringText_escaped hmem, List.cons_append, dropWhile_token hq (by decide),
        List.append_assoc] at h
      exact absurd (body_of_basicString h) (decode_ne hb hmem)
    · rw [stringText_plain hb hmem, decode_of_not_mem hmem] at h
      have hquote : ((body ++ (ascii " = " ++ s)).dropWhile q).head? ≠ some (ch '"') := by
        intro hhead
        obtain ⟨t, ht⟩ : ∃ t, (body ++ (ascii " = " ++ s)).dropWhile q = ch '"' :: t := by
          cases hdrop : (body ++ (ascii " = " ++ s)).dropWhile q with
          | nil =>
              rw [hdrop] at hhead
              exact absurd hhead (by simp)
          | cons d t =>
              rw [hdrop] at hhead
              exact ⟨t, by rw [Option.some.inj hhead]⟩
        have hequals : q (ch '=') = false :=
          Bool.eq_false_iff.mpr fun hskip => absurd (hq _ hskip) (by decide)
        rw [show body ++ (ascii " = " ++ s) = (body ++ [ch ' ']) ++ ch '=' :: (ascii " " ++ s) by
          rw [List.append_assoc]; rfl] at ht
        rcases mem_of_dropWhile hequals ht with hin | heq
        · rcases List.mem_append.mp hin with hin | hin
          · exact (IsBody.raw_of_not_mem hb hmem _ hin).2 rfl
          · exact absurd hin (by decide)
        · exact absurd heq (by decide)
      obtain ⟨hkey, hrest⟩ := isBareKey_of_readKey hquote h
      rw [bare_dropWhile hkey hq] at hrest
      exact ⟨hkey, List.append_cancel_left hrest⟩
  · rintro ⟨hkey, rfl⟩
    have hmem : ch '\\' ∉ body := bare_not_mem hkey (by decide)
    rw [stringText_plain hb hmem, decode_of_not_mem hmem, bare_dropWhile hkey hq]
    exact readKey_bare hkey (by
      intro c hc
      obtain rfl : ch ' ' = c := Option.some.inj hc
      decide)

theorem head_ne_brace (hb : IsBody body) (hkey : IsBareKey body) (s : Bytes) :
    ((stringText body ++ s).dropWhile isBlank).head? ≠ some (ch '\x7d') := by
  have hmem : ch '\\' ∉ body := bare_not_mem hkey (by decide)
  rw [stringText_plain hb hmem, bare_dropWhile hkey skips_blank]
  obtain ⟨c, t, rfl⟩ := List.exists_cons_of_ne_nil hkey.1
  intro hbrace
  obtain rfl : c = ch '\x7d' := Option.some.inj hbrace
  exact bare_not_mem hkey (by decide) List.mem_cons_self

theorem readEntry_line (hb : IsBody body) (hq : Skips q) {t : Tree} {value : Bytes}
    (hs : s.dropWhile isBlank = (stringText body ++ (ascii " = " ++ value)).dropWhile q) :
    readEntry (fuel + 1) s = some (decode body, t, y) ↔
      IsBareKey body ∧ readValue fuel (value.dropWhile isBlank) = some (t, y) := by
  rw [readEntry_eq, hs]
  simp only [readKey_stringText hb hq]
  constructor
  · rintro ⟨z, ⟨hkey, rfl⟩, -, hvalue⟩
    exact ⟨hkey, hvalue⟩
  · rintro ⟨hkey, hvalue⟩
    exact ⟨_, ⟨hkey, rfl⟩, rfl, hvalue⟩

theorem isDigitByte_follows (hc : c ∈ ascii ",]\x7d\n") (r : Bytes) :
    ∀ d ∈ (c :: r).head?, isDigitByte d = false := by
  intro d hd
  obtain rfl : c = d := Option.some.inj hd
  exact (by decide : ∀ c ∈ ascii ",]\x7d\n", isDigitByte c = false) c hc

theorem readInteger_take {text : Bytes} (ht : IsInteger text) (hc : c ∈ ascii ",]\x7d\n") :
    readInteger (text.take 127 ++ c :: r) = some (text, y) ↔ text.length ≤ 127 ∧ c :: r = y := by
  constructor
  · intro h
    have heq := append_of_readInteger h
    by_cases hlength : text.length ≤ 127
    · rw [List.take_of_length_le hlength] at heq
      exact ⟨hlength, List.append_cancel_left heq⟩
    · rw [← List.take_append_drop 127 text, List.append_assoc, List.take_left' (by simp; omega)] at heq
      have hcut := List.append_cancel_left heq
      cases hdrop : text.drop 127 with
      | nil =>
          have hzero := congrArg List.length hdrop
          rw [List.length_drop, List.length_nil] at hzero
          omega
      | cons d t =>
          rw [hdrop] at hcut
          obtain rfl : c = d := (List.cons.inj hcut).1
          have hin : c ∈ text := List.mem_of_mem_drop (hdrop ▸ List.mem_cons_self)
          rcases ht.mem hin with hdigit | rfl
          · exact absurd hc ((by decide : ∀ c ∈ ascii "0123456789", c ∉ ascii ",]\x7d\n") c
              (mem_digits hdigit))
          · exact absurd hc (by decide)
  · rintro ⟨hlength, rfl⟩
    rw [List.take_of_length_le hlength]
    exact readInteger_append ht (isDigitByte_follows hc r)

theorem readValue_number {text : Bytes} (ht : IsInteger text) (hq : Skips q)
    (hc : c ∈ ascii ",]\x7d\n") :
    readValue (fuel + 1) ((text.take 127 ++ c :: r).dropWhile q) = some (.number text, y) ↔
      text.length ≤ 127 ∧ c :: r = y := by
  rw [← readInteger_take ht hc]
  obtain ⟨d, t, rfl, hd⟩ := ht.head
  have hdigit : d ∈ ascii "-0123456789" := by
    rcases hd with hd | rfl
    · exact (by decide : ∀ c ∈ ascii "0123456789", c ∈ ascii "-0123456789") d (mem_digits hd)
    · decide
  have hgap : d ∉ ascii " \t\n\r" := fun h =>
    (by decide : ∀ c ∈ ascii "-0123456789", c ∉ ascii " \t\n\r") d hdigit h
  rw [List.take_succ_cons, List.cons_append, dropWhile_token hq hgap, readValue_digit hdigit,
    Option.map_eq_some_iff]
  constructor
  · rintro ⟨⟨z, y'⟩, hread, heq⟩
    obtain ⟨hz, rfl⟩ := Prod.mk.inj heq
    obtain rfl := Tree.number.inj hz
    exact hread
  · exact fun hread => ⟨_, hread, rfl⟩

theorem readValue_word (hq : Skips q) (w : Word) (fuel : Nat) (s : Bytes) :
    readValue (fuel + 1) ((wordText w ++ s).dropWhile q) = some (nullAsString (.word w), s) := by
  cases w with
  | true =>
      rw [show wordText .true ++ s = ch 't' :: (ascii "rue" ++ s) from rfl,
        dropWhile_token hq (by decide)]
      rfl
  | false =>
      rw [show wordText .false ++ s = ch 'f' :: (ascii "alse" ++ s) from rfl,
        dropWhile_token hq (by decide)]
      rfl
  | null =>
      have hnull : basicString (ch 'n' :: ch 'u' :: ch 'l' :: ch 'l' :: ch '"' :: s) =
          some (ascii "null", s) := by
        rw [basicString_cons (by decide) (by decide) (by decide),
          basicString_cons (by decide) (by decide) (by decide),
          basicString_cons (by decide) (by decide) (by decide),
          basicString_cons (by decide) (by decide) (by decide), basicString_quote]
        rfl
      rw [show wordText .null ++ s = ch '"' :: ch 'n' :: ch 'u' :: ch 'l' :: ch 'l' :: ch '"' :: s
        from rfl, dropWhile_token hq (by decide), readValue.eq_def]
      dsimp only
      rw [if_pos rfl, hnull]
      rfl

/-- **A scalar is read back** when it is a word or a number written whole. -/
theorem readValue_scalar {v : Json} (hv : v.Valid) (hi : Integral v) (hscalar : IsScalar v)
    (hq : Skips q) (hskip : q c = false) (hc : c ∈ ascii ",]\x7d\n") :
    readValue (fuel + 1) ((tomlText v ++ c :: r).dropWhile q) = some (nullAsString v.tree, y) ↔
      ScalarKept v ∧ c :: r = y := by
  cases v with
  | string body =>
      have hquote : c ≠ ch '"' := fun h => absurd (h ▸ hc) (by decide)
      exact ⟨fun h => absurd h (readValue_string_ne hv hq hskip hquote), fun h => absurd h.1 id⟩
  | number text => exact readValue_number hi hq hc
  | word w =>
      have hread := readValue_word hq w fuel (c :: r)
      rw [show tomlText (.word w) = wordText w from rfl, show (Json.word w).tree = .word w from rfl,
        hread]
      simp [ScalarKept]
  | emptyArray | array | emptyObject | object => exact absurd hscalar id

theorem readItems_space (fuel : Nat) (s : Bytes) :
    readItems fuel (ch ' ' :: s) = readItems fuel s := by
  cases fuel with
  | zero => rfl
  | succ fuel =>
      rw [readItems.eq_def, readItems.eq_def]
      rfl

theorem head_ne_bracket {v : Json} (hv : v.Valid) (hkept : ScalarKept v) (s : Bytes) :
    ((tomlText v ++ s).dropWhile isWhite).head? ≠ some (ch ']') := by
  have hhead : ∃ d t, tomlText v = d :: t ∧ d ∈ ascii "-0123456789tf\"" := by
    cases v with
    | number text =>
        obtain ⟨d, t, rfl, hd⟩ := IsNumber.head hv
        refine ⟨d, t.take 126, rfl, ?_⟩
        rcases hd with hd | rfl
        · exact (by decide : ∀ c ∈ ascii "0123456789", c ∈ ascii "-0123456789tf\"") d (mem_digits hd)
        · decide
    | word w =>
        cases w with
        | true => exact ⟨_, ascii "rue", rfl, by decide⟩
        | false => exact ⟨_, ascii "alse", rfl, by decide⟩
        | null => exact ⟨_, ascii "null\"", rfl, by decide⟩
    | string | emptyArray | array | emptyObject | object => exact absurd hkept id
  obtain ⟨d, t, htext, hd⟩ := hhead
  have hgap : d ∉ ascii " \t\n\r" := fun h =>
    (by decide : ∀ c ∈ ascii "-0123456789tf\"", c ∉ ascii " \t\n\r") d hd h
  rw [htext, List.cons_append, dropWhile_token skips_white hgap]
  intro hbracket
  obtain rfl : d = ch ']' := Option.some.inj hbracket
  exact absurd hd (by decide)

/-- **An array of scalars is read back** when each of them is. -/
theorem readItems_text (items : Items) (hv : items.Valid) (hi : IntegralItems items)
    (hscalar : ItemsScalar items) {fuel : Nat} (hfuel : (itemsText items).length + 2 ≤ fuel)
    (r y : Bytes) :
    readItems fuel (itemsText items ++ ch ']' :: r) = some (nullAsStrings items.trees, y) ↔
      ItemsFlat items ∧ r = y := by
  obtain ⟨fuel, rfl⟩ : ∃ n, fuel = n + 2 := ⟨fuel - 2, by omega⟩
  match items with
  | .last before item after =>
      have hitem : ∀ z, readValue (fuel + 1) ((tomlText item ++ ch ']' :: r).dropWhile isWhite) =
          some (nullAsString item.tree, z) ↔ ScalarKept item ∧ ch ']' :: r = z := fun z =>
        readValue_scalar hv.2.1 hi hscalar skips_white (by decide) (by decide)
      rw [show nullAsStrings (Items.last before item after).trees =
        .cons (nullAsString item.tree) .nil from rfl, readItems_cons]
      constructor
      · rintro ⟨-, z, more, z', hvalue, hbehind, hrest⟩
        obtain ⟨hkept, rfl⟩ := (hitem z).mp hvalue
        obtain ⟨rfl, rfl⟩ := Prod.mk.inj (Option.some.inj
          (show some (false, r) = some (more, z') from hbehind))
        exact ⟨hkept, hrest.2⟩
      · rintro ⟨hkept, rfl⟩
        exact ⟨head_ne_bracket hv.2.1 hkept _, _, false, r, (hitem _).mpr ⟨hkept, rfl⟩, rfl, rfl, rfl⟩
  | .more before item after rest =>
      have hmore : (itemsText rest).length + 2 ≤ fuel + 1 := by
        simp only [itemsText, List.length_append] at hfuel
        have htwo : (ascii ", ").length = 2 := rfl
        omega
      have hitem : ∀ z, readValue (fuel + 1) ((tomlText item ++
          ch ',' :: ch ' ' :: (itemsText rest ++ ch ']' :: r)).dropWhile isWhite) =
            some (nullAsString item.tree, z) ↔
              ScalarKept item ∧ ch ',' :: ch ' ' :: (itemsText rest ++ ch ']' :: r) = z := fun z =>
        readValue_scalar hv.2.1 hi.1 hscalar.1 skips_white (by decide) (by decide)
      have hitems := readItems_text rest hv.2.2.2 hi.2 hscalar.2 hmore r y
      rw [show nullAsStrings (Items.more before item after rest).trees =
        .cons (nullAsString item.tree) (nullAsStrings rest.trees) from rfl, readItems_cons, itemsText,
        List.append_assoc, List.append_assoc]
      constructor
      · rintro ⟨-, z, more, z', hvalue, hbehind, hrest⟩
        obtain ⟨hkept, rfl⟩ := (hitem z).mp hvalue
        obtain ⟨rfl, rfl⟩ := Prod.mk.inj (Option.some.inj
          (show some (true, ch ' ' :: (itemsText rest ++ ch ']' :: r)) = some (more, z') from hbehind))
        rw [if_pos rfl, readItems_space] at hrest
        obtain ⟨hflat, rfl⟩ := hitems.mp hrest
        exact ⟨⟨hkept, hflat⟩, rfl⟩
      · rintro ⟨⟨hkept, hflat⟩, rfl⟩
        refine ⟨head_ne_bracket hv.2.1 hkept _, _, true, _, (hitem _).mpr ⟨hkept, rfl⟩, rfl, ?_⟩
        rw [if_pos rfl, readItems_space]
        exact hitems.mpr ⟨hflat, rfl⟩

mutual

/-- **A value is read back** exactly when it is kept. -/
theorem readValue_text (v : Json) (hv : v.Valid) (hi : Integral v) (hemits : Emits v)
    {q : UInt8 → Bool} (hq : Skips q) {c : UInt8} (hskip : q c = false) (hc : c ∈ ascii ",]\x7d\n")
    {fuel : Nat} (hfuel : (tomlText v).length < fuel) (r y : Bytes) :
    readValue fuel ((tomlText v ++ c :: r).dropWhile q) = some (nullAsString v.tree, y) ↔
      TomlKept v ∧ c :: r = y := by
  obtain ⟨fuel, rfl⟩ : ∃ n, fuel = n + 1 := ⟨fuel - 1, by omega⟩
  match v with
  | .string body => exact readValue_scalar hv hi trivial hq hskip hc
  | .number text => exact readValue_scalar hv hi trivial hq hskip hc
  | .word w => exact readValue_scalar hv hi trivial hq hskip hc
  | .emptyArray ws =>
      obtain ⟨fuel, rfl⟩ : ∃ n, fuel = n + 1 := ⟨fuel - 1, by
        have htwo : (tomlText (.emptyArray ws)).length = 2 := rfl
        omega⟩
      have hitems : readItems (fuel + 1) (ch ']' :: c :: r) = some (.nil, c :: r) := rfl
      rw [show tomlText (.emptyArray ws) ++ c :: r = ch '[' :: (ch ']' :: c :: r) from rfl,
        dropWhile_token hq (by decide),
        show nullAsString (Json.emptyArray ws).tree = .array .nil from rfl, readValue_array, hitems]
      simp [TomlKept]
  | .array items =>
      have hinside : (itemsText items).length + 2 ≤ fuel := by
        simp only [tomlText, List.length_cons, List.length_append, List.length_nil] at hfuel
        omega
      rw [tomlText, List.cons_append, List.append_assoc, dropWhile_token hq (by decide),
        show nullAsString (Json.array items).tree = .array (nullAsStrings items.trees) from rfl,
        readValue_array]
      exact readItems_text items hv hi hemits hinside (c :: r) y
  | .emptyObject ws =>
      rw [show tomlText (.emptyObject ws) ++ c :: r = ch '\x7b' :: (ch '\x7d' :: c :: r) from rfl,
        dropWhile_token hq (by decide),
        show nullAsString (Json.emptyObject ws).tree = .object .nil from rfl, readValue_table,
        dropWhile_token skips_blank (by decide), List.head?_cons, if_pos rfl]
      simp [TomlKept]
  | .object members =>
      have hinside : (tableText members).length + 1 < fuel := by
        simp only [tomlText, List.length_cons, List.length_append, List.length_nil] at hfuel
        omega
      rw [tomlText, List.cons_append, List.append_assoc, dropWhile_token hq (by decide),
        show nullAsString (Json.object members).tree = .object (nullAsFields members.fields) from rfl,
        readValue_table]
      split
      · next hbrace =>
          cases members with
          | last key value after =>
              constructor
              · exact fun h => absurd h.1 Fields.noConfusion
              · rintro ⟨⟨hkey, -⟩, -⟩
                rw [tableText, List.append_assoc] at hbrace
                exact absurd hbrace (head_ne_brace hv.1.body hkey _)
          | more => exact absurd hemits id
      · exact readFields_text members hv hi hemits (by omega) (c :: r) y

/-- **An inline table is read back** when it has one member that is. -/
theorem readFields_text (members : Members) (hv : members.Valid) (hi : IntegralMembers members)
    (hemits : TableEmits members) {fuel : Nat} (hfuel : (tableText members).length < fuel)
    (r y : Bytes) :
    readFields fuel (tableText members ++ ch '\x7d' :: r) =
        some (nullAsFields members.fields, y) ↔
      TableKept members ∧ r = y := by
  match members with
  | .last key value after =>
      obtain ⟨fuel, rfl⟩ : ∃ n, fuel = n + 2 := ⟨fuel - 2, by
        have hthree : (ascii " = ").length = 3 := rfl
        simp only [tableText, List.length_append] at hfuel
        omega⟩
      have hinside : (tomlText value).length < fuel := by
        have hthree : (ascii " = ").length = 3 := rfl
        simp only [tableText, List.length_append] at hfuel
        omega
      have hvalue := fun z => readValue_text value hv.2.1 hi hemits skips_blank
        (by decide : isBlank (ch '\x7d') = false) (by decide) hinside r z
      have hentry : ∀ z, readEntry (fuel + 1) (tableText (.last key value after) ++
          ch '\x7d' :: r) = some (decode key.body, nullAsString value.tree, z) ↔
            IsBareKey key.body ∧ readValue fuel ((tomlText value ++ ch '\x7d' :: r).dropWhile
              isBlank) = some (nullAsString value.tree, z) := fun z =>
        readEntry_line hv.1.body skips_blank (by simp only [tableText, List.append_assoc])
      rw [show nullAsFields (Members.last key value after).fields =
        .cons (decode key.body) (nullAsString value.tree) .nil from rfl, readFields_cons]
      constructor
      · rintro ⟨z, more, z', hread, hbehind, hrest⟩
        obtain ⟨hkey, hread⟩ := (hentry z).mp hread
        obtain ⟨hkept, rfl⟩ := (hvalue z).mp hread
        obtain ⟨rfl, rfl⟩ := Prod.mk.inj (Option.some.inj
          (show some (false, r) = some (more, z') from hbehind))
        exact ⟨⟨hkey, hkept⟩, hrest.2⟩
      · rintro ⟨⟨hkey, hkept⟩, rfl⟩
        exact ⟨_, false, r, (hentry _).mpr ⟨hkey, (hvalue _).mpr ⟨hkept, rfl⟩⟩, rfl, rfl, rfl⟩
  | .more _ _ _ _ => exact absurd hemits id

end

theorem dropWhile_blank_white (s : Bytes) :
    (s.dropWhile isWhite).dropWhile isBlank = s.dropWhile isWhite := by
  cases hs : s.dropWhile isWhite with
  | nil => rfl
  | cons c t =>
      have hc : isWhite c = false := by
        have hhead := List.head?_dropWhile_not isWhite s
        rw [hs] at hhead
        simpa using hhead
      refine List.dropWhile_cons_of_neg fun hblank => ?_
      rw [isWhite, decide_eq_false_iff_not] at hc
      exact hc (skips_blank c hblank)

theorem readLines_line {key : MemberKey} {value : Json} (hkey : key.Valid) (hv : value.Valid)
    (hi : Integral value) (hemits : Emits value) (hfuel : (tomlText value).length < fuel)
    (rest : Bytes) (fields : Fields) :
    readLines (fuel + 2) (lineText key value ++ rest) =
        some (.cons (decode key.body) (nullAsString value.tree) fields) ↔
      (IsBareKey key.body ∧ TomlKept value) ∧ readLines (fuel + 1) rest = some fields := by
  have hline : lineText key value ++ rest =
      stringText key.body ++ (ascii " = " ++ (tomlText value ++ ch '\n' :: rest)) := by
    simp only [lineText, List.append_assoc]
    rfl
  have hvalue := fun z => readValue_text value hv hi hemits skips_blank
    (by decide : isBlank (ch '\n') = false) (by decide) hfuel rest z
  have hentry : ∀ z, readEntry (fuel + 1) ((lineText key value ++ rest).dropWhile isWhite) =
      some (decode key.body, nullAsString value.tree, z) ↔
        IsBareKey key.body ∧ readValue fuel ((tomlText value ++ ch '\n' :: rest).dropWhile
          isBlank) = some (nullAsString value.tree, z) := fun z =>
    readEntry_line hkey.body skips_white (by rw [dropWhile_blank_white, hline])
  have hfeed : (ch '\n' :: rest).dropWhile isBlank = ch '\n' :: rest := rfl
  rw [readLines_cons]
  constructor
  · rintro ⟨-, y, hread, hrest⟩
    obtain ⟨hbare, hread⟩ := (hentry y).mp hread
    obtain ⟨hkept, rfl⟩ := (hvalue y).mp hread
    rw [hfeed] at hrest
    rcases hrest with ⟨hend, -⟩ | ⟨z, hz, hmore⟩
    · exact absurd hend (List.cons_ne_nil _ _)
    · obtain rfl := (List.cons.inj hz).2
      exact ⟨⟨hbare, hkept⟩, hmore⟩
  · rintro ⟨⟨hbare, hkept⟩, hmore⟩
    refine ⟨?_, _, (hentry _).mpr ⟨hbare, (hvalue _).mpr ⟨hkept, rfl⟩⟩, .inr ⟨rest, hfeed, hmore⟩⟩
    rw [hline, stringText_plain hkey.body (bare_not_mem hbare (by decide)),
      bare_dropWhile hbare skips_white]
    simp [hbare.1]

/-- **The lines are read back** when each of them is. -/
theorem readLines_text (members : Members) (hv : members.Valid) (hi : IntegralMembers members)
    (hemits : LinesEmit members) {fuel : Nat} (hfuel : (linesText members).length < fuel) :
    readLines fuel (linesText members ++ ascii "\n") = some (nullAsFields members.fields) ↔
      LinesKept members := by
  have hthree : (ascii " = ").length = 3 := rfl
  have hone : (ascii "\n").length = 1 := rfl
  match members with
  | .last key value after =>
      obtain ⟨fuel, rfl⟩ : ∃ n, fuel = n + 2 := ⟨fuel - 2, by
        simp only [linesText, lineText, List.length_append] at hfuel
        omega⟩
      have hinside : (tomlText value).length < fuel := by
        simp only [linesText, lineText, List.length_append] at hfuel
        omega
      have hend : readLines (fuel + 1) (ascii "\n") = some .nil := rfl
      rw [linesText, show nullAsFields (Members.last key value after).fields =
        .cons (decode key.body) (nullAsString value.tree) .nil from rfl,
        readLines_line hv.1 hv.2.1 hi hemits hinside, hend]
      simp [LinesKept]
  | .more key value after rest =>
      obtain ⟨fuel, rfl⟩ : ∃ n, fuel = n + 2 := ⟨fuel - 2, by
        simp only [linesText, lineText, List.length_append] at hfuel
        omega⟩
      have hinside : (tomlText value).length < fuel := by
        simp only [linesText, lineText, List.length_append] at hfuel
        omega
      have hmore : (linesText rest).length < fuel + 1 := by
        simp only [linesText, lineText, List.length_append] at hfuel
        omega
      rw [linesText, List.append_assoc, show nullAsFields (Members.more key value after rest).fields =
        .cons (decode key.body) (nullAsString value.tree) (nullAsFields rest.fields) from rfl,
        readLines_line hv.1 hv.2.1 hi.1 hemits.1 hinside,
        readLines_text rest hv.2.2.2 hi.2 hemits.2 hmore]
      simp only [LinesKept, and_assoc]

theorem isScalar_of_kept {v : Json} (hkept : ScalarKept v) : IsScalar v := by
  cases v with
  | number | word => exact trivial
  | string | emptyArray | array | emptyObject | object => exact absurd hkept id

theorem itemsScalar_of_flat (items : Items) (hflat : ItemsFlat items) : ItemsScalar items := by
  match items with
  | .last _ item _ => exact isScalar_of_kept hflat
  | .more _ item _ rest => exact ⟨isScalar_of_kept hflat.1, itemsScalar_of_flat rest hflat.2⟩

mutual

theorem emits_of_kept (v : Json) (hkept : TomlKept v) : Emits v := by
  match v with
  | .string _ | .number _ | .word _ | .emptyArray _ | .emptyObject _ => exact trivial
  | .array items => exact itemsScalar_of_flat items hkept
  | .object members => exact tableEmits_of_kept members hkept

theorem tableEmits_of_kept (members : Members) (hkept : TableKept members) :
    TableEmits members := by
  match members with
  | .last _ value _ => exact emits_of_kept value hkept.2
  | .more _ _ _ _ => exact hkept

end

theorem linesEmit_of_kept (members : Members) (hkept : LinesKept members) : LinesEmit members := by
  match members with
  | .last _ value _ => exact emits_of_kept value hkept.2
  | .more _ value _ rest => exact ⟨emits_of_kept value hkept.2.1, linesEmit_of_kept rest hkept.2.2⟩

theorem readToml_document {v : Json} (hv : v.Valid) (hi : Integral v)
    (hobject : ∃ fields, v.tree = .object fields) (hemits : DocumentEmits v) :
    readToml (documentText v ++ ascii "\n") = some (nullAsString v.tree) ↔
      DocumentKept ⟨[], v, []⟩ := by
  obtain ⟨fields, hfields⟩ := hobject
  cases v with
  | string | number | word | emptyArray | array => exact Tree.noConfusion hfields
  | emptyObject ws => exact iff_of_true rfl trivial
  | object members =>
      have hfuel : (linesText members).length < (linesText members ++ ascii "\n").length + 3 := by
        rw [List.length_append]
        omega
      rw [readToml, documentText, show nullAsString (Json.object members).tree =
        .object (nullAsFields members.fields) from rfl, Option.map_eq_some_iff]
      constructor
      · rintro ⟨fields', hread, heq⟩
        rw [Tree.object.inj heq] at hread
        exact (readLines_text members hv hi hemits hfuel).mp hread
      · exact fun hkept => ⟨_, (readLines_text members hv hi hemits hfuel).mpr hkept, rfl⟩

/-- **The conversion keeps the tree of an object** exactly when the object is
made of lines with bare keys, and its values of words, numbers written whole,
flat arrays of these and tables of at most one member. -/
theorem internalToToml_keeps {doc : Document} (hdoc : IntegralObject doc) :
    TomlKeeps doc ↔ DocumentKept doc := by
  obtain ⟨hrc, hout⟩ := internalToToml_object hdoc.valid hdoc.object
  have hread := readToml_document hdoc.valid.value hdoc.integral hdoc.object
  constructor
  · rintro ⟨hok, text, htext, htree⟩
    have hemits := hrc.mp hok
    rw [hout hemits] at htext
    rw [← List.append_cancel_right htext] at htree
    exact (hread hemits).mp htree
  · intro hkept
    have hemits : DocumentEmits doc.value := by
      obtain ⟨before, value, after⟩ := doc
      cases value with
      | string | number | word | emptyArray | array => exact absurd hkept id
      | emptyObject ws => exact trivial
      | object members => exact linesEmit_of_kept members hkept
    exact ⟨hrc.mpr hemits, _, hout hemits, (hread hemits).mpr hkept⟩

/-- `{"limits": [1, 20], "retry": {"delay": null}}`. -/
def limits : Document :=
  { before := []
    value := .object (.more ⟨[], ascii "limits", [], ascii " "⟩
      (.array (.more [] (.number (ascii "1")) [] (.last (ascii " ") (.number (ascii "20")) []))) []
      (.last ⟨ascii " ", ascii "retry", [], ascii " "⟩
        (.object (.last ⟨[], ascii "delay", [], ascii " "⟩ (.word .null) [])) []))
    after := [] }

/-- `{"host": "dev"}`. -/
def host : Document :=
  { before := []
    value := .object (.last ⟨[], ascii "host", [], ascii " "⟩ (.string (ascii "dev")) [])
    after := [] }

theorem isInteger_digits {s : Bytes} (hs : s ≠ []) (hdigits : ∀ c ∈ s, (digitValue 10 c).isSome)
    (hzero : s.length = 1 ∨ s.head? ≠ some (ch '0')) : IsInteger s :=
  .mk (.inl rfl) ⟨hs, hdigits⟩ hzero

theorem isNumber_integer {s : Bytes} (hs : IsInteger s) : IsNumber s := by
  have h := IsNumber.mk hs (.inl rfl) (.inl rfl)
  rwa [List.append_nil, List.append_nil] at h

theorem limits_integral : IntegralObject limits := by
  have hone : IsInteger (ascii "1") := isInteger_digits (by decide) (by decide) (by decide)
  have htwenty : IsInteger (ascii "20") := isInteger_digits (by decide) (by decide) (by decide)
  have hspace : IsGap (ascii " ") := by decide
  have hkey : ∀ key ∈ [ascii "limits", ascii "retry", ascii "delay"], IsBody key := by
    intro key hkey
    exact isBody_of_plain ((by decide : ∀ key ∈ [ascii "limits", ascii "retry", ascii "delay"],
      ∀ c ∈ key, 32 ≤ c ∧ c ≠ ch '"' ∧ c ≠ ch '\\') key hkey)
  exact
    { valid := ⟨IsGap.nil, ⟨⟨IsGap.nil, hkey _ (by decide), IsGap.nil, hspace⟩,
        ⟨IsGap.nil, isNumber_integer hone, IsGap.nil, hspace, isNumber_integer htwenty, IsGap.nil⟩,
        IsGap.nil, ⟨hspace, hkey _ (by decide), IsGap.nil, hspace⟩,
        ⟨⟨IsGap.nil, hkey _ (by decide), IsGap.nil, hspace⟩, trivial, IsGap.nil⟩, IsGap.nil⟩,
        IsGap.nil⟩
      object := ⟨_, rfl⟩
      integral := ⟨⟨hone, htwenty⟩, trivial⟩ }

theorem limits_keeps : TomlKeeps limits :=
  (internalToToml_keeps limits_integral).mpr ⟨(by decide : IsBareKey (ascii "limits")),
    ⟨(by decide : 1 ≤ 127), (by decide : 2 ≤ 127)⟩, (by decide : IsBareKey (ascii "retry")),
    (by decide : IsBareKey (ascii "delay")), trivial⟩

theorem host_integral : IntegralObject host :=
  { valid := ⟨IsGap.nil, ⟨⟨IsGap.nil, isBody_of_plain (by decide), IsGap.nil,
      (by decide : IsGap (ascii " "))⟩, isBody_of_plain (by decide), IsGap.nil⟩, IsGap.nil⟩
    object := ⟨_, rfl⟩
    integral := trivial }

/-- The string is written without quotes: `host = dev`. -/
theorem host_not_keeps : IntegralObject host ∧ ¬TomlKeeps host := by
  refine ⟨host_integral, ?_⟩
  rintro ⟨-, text, htext, hread⟩
  have hout : (internalToToml host.text).out = ascii "host = dev\n\n" ++ [0] := by decide +kernel
  rw [hout] at htext
  rw [← List.append_cancel_right htext] at hread
  have hnone : readToml (ascii "host = dev\n\n") = none := by decide +kernel
  rw [hnone] at hread
  exact absurd hread (by simp)

end BlessStar.Convert.Proofs.TomlRoundTrip
