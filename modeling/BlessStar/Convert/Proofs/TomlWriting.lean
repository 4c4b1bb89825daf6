import BlessStar.Convert.ToToml

/-!
# What is written in TOML

The emitters fail on an array in an array, on an object in an array and on the
second member of an inline table.  All other values are written as one text.
-/

namespace BlessStar.Convert.Proofs.TomlWriting

open Lib.ByteString Lib.JsonText

variable {before after r buf : Bytes} {fuel : Nat} {first : Bool}

def IsScalar : Json → Prop
  | .string _ => True
  | .number _ => True
  | .word _ => True
  | _ => False

def ItemsScalar : Items → Prop
  | .last _ item _ => IsScalar item
  | .more _ item _ rest => IsScalar item ∧ ItemsScalar rest

mutual

def Emits : Json → Prop
  | .array items => ItemsScalar items
  | .object members => TableEmits members
  | _ => True

def TableEmits : Members → Prop
  | .last _ value _ => Emits value
  | .more _ _ _ _ => False

end

def LinesEmit : Members → Prop
  | .last _ value _ => Emits value
  | .more _ value _ rest => Emits value ∧ LinesEmit rest

def stringText (body : Bytes) : Bytes := tomlEmitString body []

def wordText : Word → Bytes
  | .true => ascii "true"
  | .false => ascii "false"
  | .null => ascii "\"null\""

mutual

def tomlText : Json → Bytes
  | .string body => stringText body
  | .number text => text.take 127
  | .word w => wordText w
  | .emptyArray _ => ascii "[]"
  | .array items => ch '[' :: (itemsText items ++ [ch ']'])
  | .emptyObject _ => ascii "\x7b\x7d"
  | .object members => ch '\x7b' :: (tableText members ++ [ch '\x7d'])

def itemsText : Items → Bytes
  | .last _ item _ => tomlText item
  | .more _ item _ rest => tomlText item ++ (ascii ", " ++ itemsText rest)

def tableText : Members → Bytes
  | .last key value _ => stringText key.body ++ (ascii " = " ++ tomlText value)
  | .more _ _ _ _ => []

end

def lineText (key : MemberKey) (value : Json) : Bytes :=
  stringText key.body ++ (ascii " = " ++ (tomlText value ++ ascii "\n"))

def linesText : Members → Bytes
  | .last key value _ => lineText key value
  | .more key value _ rest => lineText key value ++ linesText rest

theorem tomlEmitString_eq (s buf : Bytes) : tomlEmitString s buf = buf ++ stringText s := by
  unfold stringText tomlEmitString
  split
  · simp only [List.append_assoc, List.nil_append]
  · rw [List.nil_append]

def scalarToken : Json → Token
  | .string body => .string body
  | .number text => .number text
  | .word w => wordToken w
  | _ => .eof

theorem nextToken_scalar {v : Json} (hv : v.Valid) (hscalar : IsScalar v) (hr : EndsNumber r) :
    nextToken (v.text ++ r) = (scalarToken v, r) := by
  cases v with
  | string body =>
      rw [Json.text, List.cons_append, List.append_assoc]
      exact nextToken_string hv r
  | number text => exact nextToken_number hv hr
  | word w => exact nextToken_word w r
  | emptyArray | array | emptyObject | object => exact absurd hscalar id

theorem tomlEmitScalar_eq {v : Json} (hscalar : IsScalar v) (buf : Bytes) :
    tomlEmitScalar (scalarToken v) buf = .ok (buf ++ tomlText v) := by
  cases v with
  | string body => exact congrArg Except.ok (tomlEmitString_eq body buf)
  | number text => rfl
  | word w => cases w <;> rfl
  | emptyArray | array | emptyObject | object => exact absurd hscalar id

theorem scalarToken_ne {v : Json} (hscalar : IsScalar v) :
    scalarToken v ≠ .lbrace ∧ scalarToken v ≠ .lbracket ∧ scalarToken v ≠ .rbracket := by
  cases v with
  | string body => simp [scalarToken]
  | number text => simp [scalarToken]
  | word w => cases w <;> simp [scalarToken, wordToken]
  | emptyArray | array | emptyObject | object => exact absurd hscalar id

theorem skipComma_comma (s : Bytes) (hafter : IsGap after) (r : Bytes) :
    skipComma (s ++ (after ++ ch ',' :: r)) (after ++ ch ',' :: r) = r := by
  have hnext : nextToken (after ++ ch ',' :: r) = (.comma, r) := nextToken_close hafter rfl
  have hlast : lastRead (s ++ (after ++ ch ',' :: r)) r = some (ch ',') := by
    have hsplit : s ++ (after ++ ch ',' :: r) = (s ++ (after ++ [ch ','])) ++ r := by simp
    rw [lastRead, hsplit, List.length_append, Nat.add_sub_cancel, List.take_left']
    · simp
    · rfl
  unfold skipComma nextTok
  rw [hnext]
  dsimp only
  rw [if_pos hlast]

theorem skipComma_of_ne (text : Bytes) {p : Bytes} (h : (nextToken p).1 ≠ .comma) :
    skipComma text p = p := by
  unfold skipComma nextTok
  dsimp only
  split
  · split
    · next q heq => exact absurd (by rw [heq]) h
    · rfl
  · rfl

def separator (first : Bool) : Bytes := if first then [] else ascii ", "

theorem separator_eq (first : Bool) (buf : Bytes) :
    (if first then buf else buf ++ ascii ", ") = buf ++ separator first := by
  cases first
  · rfl
  · exact (List.append_nil buf).symm

theorem tomlEmitArray_scalar {item : Json} (hvalid : item.Valid) (hscalar : IsScalar item)
    (hbefore : IsGap before) (hr : EndsNumber r) :
    tomlEmitArray (fuel + 1) first (before ++ (item.text ++ r)) buf =
      tomlEmitArray fuel false (skipComma (before ++ (item.text ++ r)) r)
        (buf ++ separator first ++ tomlText item) := by
  have hscan : nextToken (before ++ (item.text ++ r)) = (scalarToken item, r) := by
    rw [nextToken_gap hbefore, nextToken_scalar hvalid hscalar hr]
  obtain ⟨hbrace, -, hbracket⟩ := scalarToken_ne hscalar
  rw [tomlEmitArray.eq_def]
  dsimp only [nextTok]
  rw [hscan]
  split
  · next heq => exact absurd (Prod.mk.inj heq).1 hbracket
  · next heq =>
      obtain ⟨rfl, rfl⟩ := Prod.mk.inj heq
      rw [if_neg hbrace, separator_eq, tomlEmitScalar_eq hscalar]
      rfl

theorem tomlEmitArray_error {tok : Token} {p q : Bytes} (hscan : nextToken p = (tok, q))
    (htok : tok = .lbracket ∨ tok = .colon) :
    (tomlEmitArray fuel first p buf).toOption = none := by
  rw [tomlEmitArray.eq_def]
  cases fuel with
  | zero => rfl
  | succ fuel =>
      dsimp only [nextTok]
      rw [hscan]
      rcases htok with rfl | rfl <;> rfl

theorem tomlEmitValue_scalar {v : Json} (hvalid : v.Valid) (hscalar : IsScalar v)
    (hbefore : IsGap before) (hr : EndsNumber r) :
    tomlEmitValue (fuel + 1) (before ++ (v.text ++ r)) buf = .ok (r, buf ++ tomlText v) := by
  have hscan : nextToken (before ++ (v.text ++ r)) = (scalarToken v, r) := by
    rw [nextToken_gap hbefore, nextToken_scalar hvalid hscalar hr]
  obtain ⟨hbrace, hopen, -⟩ := scalarToken_ne hscalar
  rw [tomlEmitValue.eq_def]
  dsimp only [nextTok]
  rw [hscan]
  split
  · next heq => exact absurd (Prod.mk.inj heq).1 hbrace
  · next heq => exact absurd (Prod.mk.inj heq).1 hopen
  · next heq =>
      obtain ⟨rfl, rfl⟩ := Prod.mk.inj heq
      rw [tomlEmitScalar_eq hscalar]
      rfl

theorem tomlEmitArray_object {p q : Bytes} (hscan : nextToken p = (.lbrace, q))
    (hinside : (nextToken q).1 = .rbrace ∨
      ∃ key q' q'', nextToken q = (.string key, q') ∧ nextToken q' = (.colon, q'')) :
    (tomlEmitArray fuel first p buf).toOption = none := by
  rw [tomlEmitArray.eq_def]
  cases fuel with
  | zero => rfl
  | succ fuel =>
      dsimp only [nextTok]
      rw [hscan]
      dsimp only
      rw [if_pos rfl]
      cases fuel with
      | zero => rfl
      | succ fuel =>
          rw [tomlEmitValue.eq_def]
          dsimp only [nextTok]
          rcases hinside with hclose | ⟨key, q', q'', hkey, hcolon⟩
          · rw [show nextToken q = (.rbrace, (nextToken q).2) from Prod.ext hclose rfl]
            rfl
          · rw [hkey]
            dsimp only [tomlEmitScalar, Except.map]
            rw [skipComma_of_ne _ (by rw [hcolon]; simp)]
            exact tomlEmitArray_error hcolon (.inr rfl)

theorem tomlEmitArray_container {item : Json} (hvalid : item.Valid) (hscalar : ¬IsScalar item)
    (hbefore : IsGap before) (r : Bytes) :
    (tomlEmitArray fuel first (before ++ (item.text ++ r)) buf).toOption = none := by
  cases item with
  | string | number | word => exact absurd trivial hscalar
  | emptyArray ws =>
      exact tomlEmitArray_error (nextToken_close hbefore rfl) (.inl rfl)
  | array items =>
      exact tomlEmitArray_error (nextToken_close hbefore rfl) (.inl rfl)
  | emptyObject ws =>
      refine tomlEmitArray_object (nextToken_close hbefore rfl) (.inl ?_)
      have hclose : nextToken (ws ++ ch '\x7d' :: r) = (.rbrace, r) := nextToken_close hvalid rfl
      rw [show (ws ++ [ch '\x7d']).append r = ws ++ ch '\x7d' :: r from List.append_assoc ws _ r,
        hclose]
  | object members =>
      refine tomlEmitArray_object (nextToken_close hbefore rfl) (.inr ?_)
      obtain ⟨key, hkey, s, hs⟩ := exists_key members hvalid (ch '\x7d' :: r)
      obtain ⟨p, hname, hcolon⟩ := nextToken_key hkey s
      refine ⟨key.body, p, _, ?_, hcolon⟩
      rw [show (members.text ++ [ch '\x7d']).append r = members.text ++ ch '\x7d' :: r from
        List.append_assoc members.text _ r, hs, hname]

theorem tomlEmitArray_items (items : Items) (hv : items.Valid) {fuel : Nat}
    (hfuel : items.text.length < fuel) (first : Bool) (buf r : Bytes) (x : Bytes × Bytes) :
    (tomlEmitArray fuel first (items.text ++ ch ']' :: r) buf).toOption = some x ↔
      ItemsScalar items ∧ (r, buf ++ (separator first ++ (itemsText items ++ [ch ']']))) = x := by
  match items with
  | .last before item after =>
      obtain ⟨hbefore, hitem, hafter⟩ := hv
      rw [Items.text, List.append_assoc, List.append_assoc]
      by_cases hscalar : IsScalar item
      · obtain ⟨fuel, rfl⟩ : ∃ n, fuel = n + 2 := ⟨fuel - 2, by
          have hpos := Json.length_text_pos hitem
          simp only [Items.text, List.length_append] at hfuel
          omega⟩
        have hclose : nextToken (after ++ ch ']' :: r) = (.rbracket, r) := nextToken_close hafter rfl
        rw [tomlEmitArray_scalar hitem hscalar hbefore (EndsNumber.gap hafter (by decide) r),
          skipComma_of_ne _ (by rw [hclose]; simp), tomlEmitArray.eq_def]
        dsimp only [nextTok]
        rw [hclose, itemsText]
        simp only [Except.toOption, ItemsScalar, hscalar, true_and, Option.some.injEq,
          List.append_assoc]
        exact Iff.rfl
      · rw [tomlEmitArray_container hitem hscalar hbefore]
        simp [ItemsScalar, hscalar]
  | .more before item after rest =>
      obtain ⟨hbefore, hitem, hafter, hrest⟩ := hv
      simp only [Items.text, List.append_assoc, List.cons_append]
      by_cases hscalar : IsScalar item
      · obtain ⟨fuel, rfl⟩ : ∃ n, fuel = n + 1 := ⟨fuel - 1, by omega⟩
        have hmore : rest.text.length < fuel := by
          simp only [Items.text, List.length_append, List.length_cons] at hfuel
          omega
        rw [tomlEmitArray_scalar hitem hscalar hbefore (EndsNumber.gap hafter (by decide) _),
          ← List.append_assoc before, skipComma_comma _ hafter,
          tomlEmitArray_items rest hrest hmore]
        simp [ItemsScalar, hscalar, itemsText, separator]
      · rw [tomlEmitArray_container hitem hscalar hbefore]
        simp [ItemsScalar, hscalar]

theorem tomlEmitTable_key {key : MemberKey} (hkey : key.Valid) (fuel : Nat) (first : Bool)
    (s buf : Bytes) :
    (tomlEmitTable (fuel + 1) first (key.text ++ s) buf).toOption =
      (tomlEmitValue fuel (key.afterColon ++ s)
        (buf ++ (separator first ++ (stringText key.body ++ ascii " = ")))).toOption.bind fun y =>
          (tomlEmitTable fuel false y.1 y.2).toOption := by
  obtain ⟨p, hname, hcolon⟩ := nextToken_key hkey s
  rw [tomlEmitTable.eq_def]
  dsimp only [nextTok]
  rw [hname]
  dsimp only
  rw [hcolon]
  dsimp only
  rw [separator_eq, tomlEmitString_eq, List.append_assoc, List.append_assoc]
  cases tomlEmitValue fuel (key.afterColon ++ s) _ <;> rfl

mutual

/-- **A value is emitted** as its text, or not at all. -/
theorem tomlEmitValue_text (v : Json) (hv : v.Valid) {fuel : Nat} (hfuel : v.text.length ≤ fuel)
    {before r : Bytes} (hbefore : IsGap before) (hr : EndsNumber r) (buf : Bytes)
    (x : Bytes × Bytes) :
    (tomlEmitValue fuel (before ++ (v.text ++ r)) buf).toOption = some x ↔
      Emits v ∧ (r, buf ++ tomlText v) = x := by
  obtain ⟨fuel, rfl⟩ : ∃ n, fuel = n + 1 := ⟨fuel - 1, by
    have hpos := Json.length_text_pos hv
    omega⟩
  have hscalars : IsScalar v → Emits v → ((tomlEmitValue (fuel + 1) (before ++ (v.text ++ r))
      buf).toOption = some x ↔ Emits v ∧ (r, buf ++ tomlText v) = x) := by
    intro hscalar hemits
    rw [tomlEmitValue_scalar hv hscalar hbefore hr]
    simp [Except.toOption, hemits]
  match v with
  | .string body => exact hscalars trivial trivial
  | .number text => exact hscalars trivial trivial
  | .word w => exact hscalars trivial trivial
  | .emptyArray ws =>
      have hopen : nextToken (before ++ ((Json.emptyArray ws).text ++ r)) =
          (.lbracket, ws ++ [ch ']'] ++ r) := nextToken_close hbefore rfl
      have hclose : nextToken (ws ++ ch ']' :: r) = (.rbracket, r) := nextToken_close hv rfl
      obtain ⟨fuel, rfl⟩ : ∃ n, fuel = n + 1 := ⟨fuel - 1, by
        simp only [Json.text, List.length_cons, List.length_append] at hfuel
        omega⟩
      rw [tomlEmitValue.eq_def]
      dsimp only [nextTok]
      rw [hopen, List.append_assoc]
      dsimp only
      rw [tomlEmitArray.eq_def]
      dsimp only [nextTok]
      rw [show ws ++ ([ch ']'] ++ r) = ws ++ ch ']' :: r from rfl, hclose]
      simp only [Except.toOption, Option.some.injEq, Emits, true_and, List.append_assoc]
      exact Iff.rfl
  | .array items =>
      have hopen : nextToken (before ++ ((Json.array items).text ++ r)) =
          (.lbracket, items.text ++ [ch ']'] ++ r) := nextToken_close hbefore rfl
      have hinside : items.text.length < fuel := by
        simp only [Json.text, List.length_cons, List.length_append, List.length_nil] at hfuel
        omega
      rw [tomlEmitValue.eq_def]
      dsimp only [nextTok]
      rw [hopen, List.append_assoc]
      have hitems := tomlEmitArray_items items hv hinside true (buf ++ ascii "[") r x
      rw [List.append_assoc] at hitems
      exact hitems
  | .emptyObject ws =>
      have hopen : nextToken (before ++ ((Json.emptyObject ws).text ++ r)) =
          (.lbrace, ws ++ [ch '\x7d'] ++ r) := nextToken_close hbefore rfl
      have hclose : nextToken (ws ++ ch '\x7d' :: r) = (.rbrace, r) := nextToken_close hv rfl
      obtain ⟨fuel, rfl⟩ : ∃ n, fuel = n + 1 := ⟨fuel - 1, by
        simp only [Json.text, List.length_cons, List.length_append] at hfuel
        omega⟩
      rw [tomlEmitValue.eq_def]
      dsimp only [nextTok]
      rw [hopen, List.append_assoc]
      dsimp only
      rw [tomlEmitTable.eq_def]
      dsimp only [nextTok]
      rw [show ws ++ ([ch '\x7d'] ++ r) = ws ++ ch '\x7d' :: r from rfl, hclose]
      simp only [Except.toOption, Option.some.injEq, Emits, true_and, List.append_assoc]
      exact Iff.rfl
  | .object members =>
      have hopen : nextToken (before ++ ((Json.object members).text ++ r)) =
          (.lbrace, members.text ++ [ch '\x7d'] ++ r) := nextToken_close hbefore rfl
      have hinside : members.text.length < fuel := by
        simp only [Json.text, List.length_cons, List.length_append, List.length_nil] at hfuel
        omega
      rw [tomlEmitValue.eq_def]
      dsimp only [nextTok]
      rw [hopen, List.append_assoc]
      have hmembers := tomlEmitTable_members members hv hinside (buf ++ ascii "\x7b") r x
      rw [List.append_assoc] at hmembers
      exact hmembers

theorem tomlEmitTable_members (members : Members) (hv : members.Valid) {fuel : Nat}
    (hfuel : members.text.length < fuel) (buf r : Bytes) (x : Bytes × Bytes) :
    (tomlEmitTable fuel true (members.text ++ ch '\x7d' :: r) buf).toOption = some x ↔
      TableEmits members ∧ (r, buf ++ (tableText members ++ [ch '\x7d'])) = x := by
  match members with
  | .last key value after =>
      obtain ⟨hkey, hvalue, hafter⟩ := hv
      obtain ⟨fuel, rfl⟩ : ∃ n, fuel = n + 2 := ⟨fuel - 2, by
        have hpos := Json.length_text_pos hvalue
        simp only [Members.text, List.length_append] at hfuel
        omega⟩
      have hinside : value.text.length ≤ fuel + 1 := by
        simp only [Members.text, List.length_append] at hfuel
        omega
      have hclose : nextToken (after ++ ch '\x7d' :: r) = (.rbrace, r) := nextToken_close hafter rfl
      have hends : EndsNumber (after ++ ch '\x7d' :: r) := EndsNumber.gap hafter (by decide) r
      rw [Members.text, List.append_assoc, List.append_assoc, tomlEmitTable_key hkey,
        Option.bind_eq_some_iff]
      simp only [tomlEmitValue_text value hvalue hinside hkey.afterColon hends]
      constructor
      · rintro ⟨y, ⟨hemits, rfl⟩, htable⟩
        rw [tomlEmitTable.eq_def] at htable
        dsimp only [nextTok] at htable
        rw [hclose] at htable
        refine ⟨hemits, ?_⟩
        rw [← Option.some.inj htable, tableText]
        simp only [List.append_assoc]
        rfl
      · rintro ⟨hemits, rfl⟩
        refine ⟨_, ⟨hemits, rfl⟩, ?_⟩
        rw [tomlEmitTable.eq_def]
        dsimp only [nextTok]
        rw [hclose, tableText]
        simp only [List.append_assoc]
        rfl
  | .more key value after rest =>
      obtain ⟨hkey, hvalue, hafter, hrest⟩ := hv
      obtain ⟨fuel, rfl⟩ : ∃ n, fuel = n + 2 := ⟨fuel - 2, by
        have hpos := Json.length_text_pos hvalue
        simp only [Members.text, List.length_append] at hfuel
        omega⟩
      have hinside : value.text.length ≤ fuel + 1 := by
        simp only [Members.text, List.length_append] at hfuel
        omega
      have hcomma : nextToken (after ++ ch ',' :: (rest.text ++ ch '\x7d' :: r)) =
          (.comma, rest.text ++ ch '\x7d' :: r) := nextToken_close hafter rfl
      have hends : EndsNumber (after ++ ch ',' :: (rest.text ++ ch '\x7d' :: r)) :=
        EndsNumber.gap hafter (by decide) _
      rw [Members.text, List.append_assoc, List.append_assoc, List.append_assoc, List.cons_append,
        tomlEmitTable_key hkey, Option.bind_eq_some_iff]
      simp only [tomlEmitValue_text value hvalue hinside hkey.afterColon hends]
      constructor
      · -- the comma behind the member is taken for a key
        rintro ⟨y, ⟨hemits, rfl⟩, htable⟩
        rw [tomlEmitTable.eq_def] at htable
        dsimp only [nextTok] at htable
        rw [hcomma] at htable
        exact absurd htable (by simp [Except.toOption])
      · exact fun h => absurd h.1 id

end

theorem tomlEmitLines_key {key : MemberKey} (hkey : key.Valid) (fuel : Nat) (s buf : Bytes) :
    (tomlEmitLines (fuel + 1) (key.text ++ s) buf).toOption =
      (tomlEmitValue fuel (key.afterColon ++ s)
        (buf ++ (stringText key.body ++ ascii " = "))).toOption.bind fun y =>
          if (nextToken y.1).1 = .rbrace then some (y.2 ++ ascii "\n")
          else (tomlEmitLines fuel (nextToken y.1).2 (y.2 ++ ascii "\n")).toOption := by
  obtain ⟨p, hname, hcolon⟩ := nextToken_key hkey s
  rw [tomlEmitLines.eq_def]
  dsimp only [nextTok]
  rw [hname]
  dsimp only
  rw [hcolon]
  dsimp only
  rw [tomlEmitString_eq, List.append_assoc]
  cases tomlEmitValue fuel (key.afterColon ++ s) _ with
  | error e => rfl
  | ok y =>
      obtain ⟨q, text⟩ := y
      change _ = if (nextToken q).1 = .rbrace then _ else _
      dsimp only
      generalize nextToken q = scanned
      obtain ⟨tok, q'⟩ := scanned
      cases tok <;> rfl

/-- **The members of the object are emitted** line by line, or not at all. -/
theorem tomlEmitLines_members (members : Members) (hv : members.Valid) {fuel : Nat}
    (hfuel : members.text.length < fuel) (buf r x : Bytes) :
    (tomlEmitLines fuel (members.text ++ ch '\x7d' :: r) buf).toOption = some x ↔
      LinesEmit members ∧ buf ++ linesText members = x := by
  obtain ⟨fuel, rfl⟩ : ∃ n, fuel = n + 1 := ⟨fuel - 1, by omega⟩
  cases members with
  | last key value after =>
      obtain ⟨hkey, hvalue, hafter⟩ := hv
      have hinside : value.text.length ≤ fuel := by
        simp only [Members.text, List.length_append] at hfuel
        omega
      have hclose : nextToken (after ++ ch '\x7d' :: r) = (.rbrace, r) := nextToken_close hafter rfl
      have hends : EndsNumber (after ++ ch '\x7d' :: r) := EndsNumber.gap hafter (by decide) r
      rw [Members.text, List.append_assoc, List.append_assoc, tomlEmitLines_key hkey,
        Option.bind_eq_some_iff]
      simp only [tomlEmitValue_text value hvalue hinside hkey.afterColon hends]
      constructor
      · rintro ⟨y, ⟨hemits, rfl⟩, hline⟩
        rw [hclose, if_pos rfl] at hline
        refine ⟨hemits, ?_⟩
        rw [← Option.some.inj hline, linesText, lineText]
        simp only [List.append_assoc]
      · rintro ⟨hemits, rfl⟩
        refine ⟨_, ⟨hemits, rfl⟩, ?_⟩
        rw [hclose, if_pos rfl, linesText, lineText]
        simp only [List.append_assoc]
  | more key value after rest =>
      obtain ⟨hkey, hvalue, hafter, hrest⟩ := hv
      have hinside : value.text.length ≤ fuel := by
        simp only [Members.text, List.length_append] at hfuel
        omega
      have hmore : rest.text.length < fuel := by
        simp only [Members.text, List.length_append, List.length_cons] at hfuel
        omega
      have hcomma : nextToken (after ++ ch ',' :: (rest.text ++ ch '\x7d' :: r)) =
          (.comma, rest.text ++ ch '\x7d' :: r) := nextToken_close hafter rfl
      have hends : EndsNumber (after ++ ch ',' :: (rest.text ++ ch '\x7d' :: r)) :=
        EndsNumber.gap hafter (by decide) _
      rw [Members.text, List.append_assoc, List.append_assoc, List.append_assoc, List.cons_append,
        tomlEmitLines_key hkey, Option.bind_eq_some_iff]
      simp only [tomlEmitValue_text value hvalue hinside hkey.afterColon hends]
      constructor
      · rintro ⟨y, ⟨hemits, rfl⟩, hlines⟩
        rw [hcomma, if_neg (by simp), tomlEmitLines_members rest hrest hmore] at hlines
        obtain ⟨hemits', rfl⟩ := hlines
        refine ⟨⟨hemits, hemits'⟩, ?_⟩
        rw [linesText, lineText]
        simp only [List.append_assoc]
      · rintro ⟨⟨hemits, hemits'⟩, rfl⟩
        refine ⟨_, ⟨hemits, rfl⟩, ?_⟩
        rw [hcomma, if_neg (by simp), tomlEmitLines_members rest hrest hmore]
        refine ⟨hemits', ?_⟩
        rw [linesText, lineText]
        simp only [List.append_assoc]

def documentText : Json → Bytes
  | .object members => linesText members
  | _ => []

def DocumentEmits : Json → Prop
  | .object members => LinesEmit members
  | .emptyObject _ => True
  | _ => False

theorem tomlEmitLines_error {fuel : Nat} {p buf : Bytes} {e : Int}
    (h : tomlEmitLines fuel p buf = .error e) : e = -EINVAL := by
  induction fuel generalizing p buf with
  | zero => exact (Except.error.inj h).symm
  | succ fuel ih =>
      rw [tomlEmitLines.eq_def] at h
      dsimp only at h
      split at h
      · exact absurd h (by simp)
      · split at h
        · split at h
          · exact (Except.error.inj h).symm
          · split at h
            · exact absurd h (by simp)
            · exact ih h
        · exact (Except.error.inj h).symm
      · exact (Except.error.inj h).symm

theorem internalToToml_lines {text p : Bytes} (hopen : nextToken text = (.lbrace, p)) :
    ((internalToToml text).rc = 0 ↔ (tomlEmitLines (text.length + 1) p []).toOption.isSome) ∧
      ∀ buf, (tomlEmitLines (text.length + 1) p []).toOption = some buf →
        (internalToToml text).out = buf ++ ascii "\n" ++ [0] := by
  unfold internalToToml nextTok
  rw [hopen]
  dsimp only
  cases hlines : tomlEmitLines (text.length + 1) p [] with
  | error e =>
      have hcode : e ≠ 0 := by
        rw [tomlEmitLines_error hlines]
        decide
      exact ⟨by simp [Except.toOption, hcode], fun buf h => absurd h (by simp [Except.toOption])⟩
  | ok buf =>
      refine ⟨by simp [Except.toOption], fun buf' h => ?_⟩
      obtain rfl : buf = buf' := Option.some.inj h
      rfl

/-- **The conversion of an object** succeeds if and only if all its lines are
emitted, and returns them. -/
theorem internalToToml_object {doc : Document} (hdoc : doc.Valid)
    (hobject : ∃ fields, doc.value.tree = .object fields) :
    ((internalToToml doc.text).rc = 0 ↔ DocumentEmits doc.value) ∧
      (DocumentEmits doc.value → (internalToToml doc.text).out =
        documentText doc.value ++ ascii "\n" ++ [0]) := by
  obtain ⟨before, value, after⟩ := doc
  obtain ⟨hbefore, hvalue, hafter⟩ := hdoc
  obtain ⟨fields, hfields⟩ := hobject
  dsimp only at hbefore hvalue hafter hfields ⊢
  cases value with
  | string | number | word | emptyArray | array => exact Tree.noConfusion hfields
  | emptyObject ws =>
      have hopen : nextToken (Document.text ⟨before, .emptyObject ws, after⟩) =
          (.lbrace, ws ++ [ch '\x7d'] ++ after) := nextToken_close hbefore rfl
      have hclose : nextToken (ws ++ [ch '\x7d'] ++ after) = (.rbrace, after) := by
        rw [List.append_assoc]
        exact nextToken_close hvalue rfl
      have hempty : ∀ n, tomlEmitLines (n + 1) (ws ++ [ch '\x7d'] ++ after) [] = .ok [] := by
        intro n
        rw [tomlEmitLines.eq_def]
        dsimp only [nextTok]
        rw [hclose]
      obtain ⟨hrc, hout⟩ := internalToToml_lines hopen
      rw [hempty] at hrc hout
      exact ⟨hrc.trans (iff_of_true rfl trivial), fun _ => hout [] rfl⟩
  | object members =>
      have hopen : nextToken (Document.text ⟨before, .object members, after⟩) =
          (.lbrace, members.text ++ [ch '\x7d'] ++ after) := nextToken_close hbefore rfl
      rw [List.append_assoc] at hopen
      obtain ⟨hrc, hout⟩ := internalToToml_lines hopen
      have hfuel : members.text.length <
          (Document.text ⟨before, .object members, after⟩).length + 1 := by
        simp only [Document.text, Json.text, List.length_append, List.length_cons]
        omega
      have hlines := tomlEmitLines_members members hvalue hfuel [] after
      constructor
      · rw [hrc, Option.isSome_iff_exists]
        constructor
        · rintro ⟨x, hx⟩
          exact ((hlines x).mp hx).1
        · exact fun hemits => ⟨_, (hlines _).mpr ⟨hemits, rfl⟩⟩
      · exact fun hemits => hout _ ((hlines _).mpr ⟨hemits, rfl⟩)

end BlessStar.Convert.Proofs.TomlWriting
