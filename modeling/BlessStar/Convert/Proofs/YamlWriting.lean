import BlessStar.Convert.ToYaml

/-!
# What is written in YAML

Every text is converted, and what is written depends on its skeleton alone: a
scalar by its characters, and a nested array by the lines of its items.
-/

namespace BlessStar.Convert.Proofs.YamlWriting

open Lib.ByteString Lib.JsonText

variable {before after r buf : Bytes} {fuel indent : Nat}

def pad (indent : Nat) : Bytes := (List.replicate indent (ascii "  ")).flatten

def scalarText (text : Bytes) : Bytes := emitYamlString text []

def dash (indent : Nat) : Bytes := ch '\n' :: (pad (indent - 1) ++ ascii "- ")

mutual

def leafText (indent : Nat) : Leaf → Bytes
  | .scalar text => scalarText text
  | .emptyArray => ascii "[]"
  | .emptyObject => ascii "\x7b\x7d"
  | .object entries => ch '\n' :: entriesText indent entries

def linesText (indent : Nat) : Lines → Bytes
  | .last item => dash indent ++ leafText indent item
  | .more item rest => dash indent ++ (leafText indent item ++ linesText indent rest)
  | .opens rest => dash indent ++ linesText indent rest

def entriesText (indent : Nat) : Entries → Bytes
  | .last key value =>
      pad indent ++ (scalarText key ++ (ascii ": " ++ (skeletonText (indent + 1) value ++ ascii "\n")))
  | .more key value rest =>
      pad indent ++ (scalarText key ++ (ascii ": " ++ (skeletonText (indent + 1) value ++
        (ch '\n' :: entriesText indent rest))))

def skeletonText (indent : Nat) : Skeleton → Bytes
  | .leaf l => leafText indent l
  | .array lines => linesText indent lines

end

theorem linesText_append (indent : Nat) (a b : Lines) :
    linesText indent (a.append b) = linesText indent a ++ linesText indent b := by
  match a with
  | .last item => simp only [Lines.append, linesText, List.append_assoc]
  | .more item rest =>
      simp only [Lines.append, linesText, linesText_append indent rest b, List.append_assoc]
  | .opens rest =>
      simp only [Lines.append, linesText, linesText_append indent rest b, List.append_assoc]

theorem linesText_item (indent : Nat) (s : Skeleton) :
    linesText indent s.item = dash indent ++ skeletonText indent s := by
  cases s <;> rfl

theorem emitYamlString_eq (s buf : Bytes) : emitYamlString s buf = buf ++ scalarText s := by
  unfold scalarText emitYamlString
  dsimp only
  split
  · rw [List.nil_append]
  · simp only [List.append_assoc, List.nil_append]

theorem scalarText_plain {s : Bytes} (hne : s ≠ []) (hplain : ∀ c ∈ s, c ∉ yamlSpecial) :
    scalarText s = s := by
  unfold scalarText emitYamlString
  dsimp only
  rw [if_pos, List.nil_append]
  refine ⟨List.any_eq_false.mpr fun c hc => ?_, hne⟩
  simpa using hplain c hc

theorem emitIndent_eq (indent : Nat) (buf : Bytes) : emitIndent indent buf = buf ++ pad indent := rfl

theorem nextToken_value {v : Json} (hv : v.Valid) (hbefore : IsGap before) (hr : EndsNumber r) :
    (nextToken (before ++ (v.text ++ r))).1 ∉ [Token.eof, .rbrace, .rbracket, .colon, .comma] := by
  rw [nextToken_gap hbefore]
  cases v with
  | string body =>
      rw [Json.text, List.cons_append, List.append_assoc, show [ch '"'] ++ r = ch '"' :: r from rfl,
        nextToken_string hv]
      simp
  | number text =>
      rw [Json.text, nextToken_number hv hr]
      simp
  | word w =>
      rw [Json.text, nextToken_word]
      cases w <;> simp [wordToken]
  | emptyArray ws =>
      rw [show nextToken ((Json.emptyArray ws).text ++ r) = (.lbracket, _) from rfl]
      simp
  | array items =>
      rw [show nextToken ((Json.array items).text ++ r) = (.lbracket, _) from rfl]
      simp
  | emptyObject ws =>
      rw [show nextToken ((Json.emptyObject ws).text ++ r) = (.lbrace, _) from rfl]
      simp
  | object members =>
      rw [show nextToken ((Json.object members).text ++ r) = (.lbrace, _) from rfl]
      simp

theorem nextToken_items (items : Items) (hv : items.Valid) (r : Bytes) :
    (nextToken (items.text ++ ch ']' :: r)).1 ≠ .rbracket := by
  cases items with
  | last before item after =>
      have hends : EndsNumber (after ++ ch ']' :: r) := EndsNumber.gap hv.2.2 (by decide) r
      have hvalue := nextToken_value hv.2.1 hv.1 hends
      rw [Items.text, List.append_assoc, List.append_assoc]
      exact fun h => hvalue (by rw [h]; simp)
  | more before item after rest =>
      have hends : EndsNumber (after ++ ch ',' :: (rest.text ++ ch ']' :: r)) :=
        EndsNumber.gap hv.2.2.1 (by decide) _
      have hvalue := nextToken_value hv.2.1 hv.1 hends
      rw [Items.text, List.append_assoc, List.append_assoc, List.append_assoc, List.cons_append]
      exact fun h => hvalue (by rw [h]; simp)

theorem nextToken_members (members : Members) (hv : members.Valid) (r : Bytes) :
    (nextToken (members.text ++ ch '\x7d' :: r)).1 ≠ .rbrace := by
  obtain ⟨key, hkey, s, hs⟩ := exists_key members hv (ch '\x7d' :: r)
  obtain ⟨p, hname, -⟩ := nextToken_key hkey s
  rw [hs, hname]
  simp

theorem emitYamlSequence_item {p : Bytes} (hp : (nextToken p).1 ≠ .rbracket) :
    emitYamlSequence (fuel + 1) p buf indent =
      match emitYamlValue fuel p (buf ++ dash indent) indent with
      | .error rc => .error rc
      | .ok (p, buf) => emitYamlSequence fuel (afterComma p) buf indent := by
  rw [emitYamlSequence.eq_def]
  dsimp only
  split
  · next heq => exact absurd (by rw [heq]) hp
  · rw [emitIndent_eq, List.append_assoc, List.append_assoc]
    rfl

theorem emitYamlSequence_close (hafter : IsGap after) (r : Bytes) :
    emitYamlSequence (fuel + 1) (after ++ ch ']' :: r) buf indent = .ok (r, buf) := by
  have hclose : nextToken (after ++ ch ']' :: r) = (.rbracket, r) := nextToken_close hafter rfl
  rw [emitYamlSequence.eq_def]
  dsimp only
  rw [hclose]

theorem emitYamlMapping_close (hafter : IsGap after) (r : Bytes) :
    emitYamlMapping (fuel + 1) (after ++ ch '\x7d' :: r) buf indent = .ok (r, buf) := by
  have hclose : nextToken (after ++ ch '\x7d' :: r) = (.rbrace, r) := nextToken_close hafter rfl
  rw [emitYamlMapping.eq_def]
  dsimp only
  rw [hclose]

theorem emitYamlMapping_key {key : MemberKey} (hkey : key.Valid) (s : Bytes) :
    emitYamlMapping (fuel + 1) (key.text ++ s) buf indent =
      match emitYamlValue fuel (key.afterColon ++ s)
        (buf ++ (pad indent ++ (scalarText key.body ++ ascii ": "))) (indent + 1) with
      | .error rc => .error rc
      | .ok (p, buf) => emitYamlMapping fuel (afterComma p) (buf ++ ascii "\n") indent := by
  obtain ⟨p, hname, hcolon⟩ := nextToken_key hkey s
  rw [emitYamlMapping.eq_def]
  dsimp only
  rw [hname]
  dsimp only
  rw [hcolon]
  dsimp only
  rw [emitYamlString_eq, emitIndent_eq, List.append_assoc, List.append_assoc] <;> rfl

mutual

/-- **Every value is emitted**, as the text of its skeleton. -/
theorem emitYamlValue_text (v : Json) (hv : v.Valid) {fuel : Nat} (hfuel : v.text.length ≤ fuel)
    {before r : Bytes} (hbefore : IsGap before) (hr : EndsNumber r) (buf : Bytes) (indent : Nat) :
    emitYamlValue fuel (before ++ (v.text ++ r)) buf indent =
      .ok (r, buf ++ skeletonText indent (skeleton v)) := by
  obtain ⟨fuel, rfl⟩ : ∃ n, fuel = n + 1 := ⟨fuel - 1, by
    have hpos := Json.length_text_pos hv
    omega⟩
  rw [emitYamlValue.eq_def]
  dsimp only
  rw [nextToken_gap hbefore]
  match v with
  | .string body =>
      rw [Json.text, List.cons_append, List.append_assoc, show [ch '"'] ++ r = ch '"' :: r from rfl,
        nextToken_string hv]
      dsimp only
      rw [emitYamlString_eq]
      rfl
  | .number text =>
      have hplain : ∀ c ∈ text, c ∉ yamlSpecial := IsNumber.forall hv (· ∉ yamlSpecial) (by decide)
      have hne : text ≠ [] := by
        obtain ⟨c, s, rfl, -⟩ := IsNumber.head hv
        exact List.cons_ne_nil c s
      rw [Json.text, nextToken_number hv hr, skeleton, skeletonText, leafText,
        scalarText_plain hne hplain]
  | .word w =>
      rw [Json.text, nextToken_word]
      cases w <;> rfl
  | .emptyArray ws =>
      have hclose : nextToken (ws ++ [ch ']'] ++ r) = (.rbracket, r) := by
        rw [List.append_assoc]
        exact nextToken_close hv rfl
      rw [show nextToken ((Json.emptyArray ws).text ++ r) = (.lbracket, ws ++ [ch ']'] ++ r) from rfl]
      dsimp only
      rw [hclose]
      rfl
  | .array items =>
      have hinside : items.text.length < fuel := by
        simp only [Json.text, List.length_cons, List.length_append, List.length_nil] at hfuel
        omega
      have hitems := emitYamlSequence_items items hv hinside buf r indent
      rw [show nextToken ((Json.array items).text ++ r) = (.lbracket, items.text ++ [ch ']'] ++ r)
        from rfl, List.append_assoc]
      dsimp only
      split
      · next heq =>
          exact absurd (congrArg Prod.fst heq) (nextToken_items items hv r)
      · exact hitems
  | .emptyObject ws =>
      have hclose : nextToken (ws ++ [ch '\x7d'] ++ r) = (.rbrace, r) := by
        rw [List.append_assoc]
        exact nextToken_close hv rfl
      rw [show nextToken ((Json.emptyObject ws).text ++ r) = (.lbrace, ws ++ [ch '\x7d'] ++ r) from rfl]
      dsimp only
      rw [hclose]
      rfl
  | .object members =>
      have hinside : members.text.length < fuel := by
        simp only [Json.text, List.length_cons, List.length_append, List.length_nil] at hfuel
        omega
      have hmembers := emitYamlMapping_members members hv hinside (buf ++ ascii "\n") r indent
      rw [show nextToken ((Json.object members).text ++ r) = (.lbrace, members.text ++ [ch '\x7d'] ++ r)
        from rfl, List.append_assoc]
      dsimp only
      split
      · next heq =>
          exact absurd (congrArg Prod.fst heq) (nextToken_members members hv r)
      · rw [List.append_assoc] at hmembers
        exact hmembers

theorem emitYamlSequence_items (items : Items) (hv : items.Valid) {fuel : Nat}
    (hfuel : items.text.length < fuel) (buf r : Bytes) (indent : Nat) :
    emitYamlSequence fuel (items.text ++ ch ']' :: r) buf indent =
      .ok (r, buf ++ linesText indent (skeletonLines items)) := by
  have hopen := nextToken_items items hv r
  obtain ⟨fuel, rfl⟩ : ∃ n, fuel = n + 1 := ⟨fuel - 1, by omega⟩
  rw [emitYamlSequence_item hopen]
  match items with
  | .last before item after =>
      obtain ⟨hbefore, hitem, hafter⟩ := hv
      have hends : EndsNumber (after ++ ch ']' :: r) := EndsNumber.gap hafter (by decide) r
      have hinside : item.text.length ≤ fuel := by
        simp only [Items.text, List.length_append] at hfuel
        omega
      obtain ⟨fuel, rfl⟩ : ∃ n, fuel = n + 1 := ⟨fuel - 1, by
        have hpos := Json.length_text_pos hitem
        omega⟩
      rw [Items.text, List.append_assoc, List.append_assoc,
        emitYamlValue_text item hitem hinside hbefore hends]
      dsimp only
      rw [afterComma_close (.inl rfl) hafter, emitYamlSequence_close hafter, skeletonLines,
        linesText_item, List.append_assoc]
  | .more before item after rest =>
      obtain ⟨hbefore, hitem, hafter, hrest⟩ := hv
      have hends : EndsNumber (after ++ ch ',' :: (rest.text ++ ch ']' :: r)) :=
        EndsNumber.gap hafter (by decide) _
      have hinside : item.text.length ≤ fuel ∧ rest.text.length < fuel := by
        simp only [Items.text, List.length_append, List.length_cons] at hfuel
        omega
      rw [Items.text, List.append_assoc, List.append_assoc, List.append_assoc, List.cons_append,
        emitYamlValue_text item hitem hinside.1 hbefore hends]
      dsimp only
      rw [afterComma_comma hafter, emitYamlSequence_items rest hrest hinside.2, skeletonLines,
        linesText_append, linesText_item]
      simp only [List.append_assoc]

theorem emitYamlMapping_members (members : Members) (hv : members.Valid) {fuel : Nat}
    (hfuel : members.text.length < fuel) (buf r : Bytes) (indent : Nat) :
    emitYamlMapping fuel (members.text ++ ch '\x7d' :: r) buf indent =
      .ok (r, buf ++ entriesText indent (skeletonEntries members)) := by
  obtain ⟨fuel, rfl⟩ : ∃ n, fuel = n + 1 := ⟨fuel - 1, by omega⟩
  match members with
  | .last key value after =>
      obtain ⟨hkey, hvalue, hafter⟩ := hv
      have hends : EndsNumber (after ++ ch '\x7d' :: r) := EndsNumber.gap hafter (by decide) r
      have hinside : value.text.length ≤ fuel := by
        simp only [Members.text, List.length_append] at hfuel
        omega
      obtain ⟨fuel, rfl⟩ : ∃ n, fuel = n + 1 := ⟨fuel - 1, by
        have hpos := Json.length_text_pos hvalue
        omega⟩
      rw [Members.text, List.append_assoc, List.append_assoc, emitYamlMapping_key hkey,
        emitYamlValue_text value hvalue hinside hkey.afterColon hends]
      dsimp only
      rw [afterComma_close (.inr rfl) hafter, emitYamlMapping_close hafter, skeletonEntries,
        entriesText]
      simp only [List.append_assoc]
  | .more key value after rest =>
      obtain ⟨hkey, hvalue, hafter, hrest⟩ := hv
      have hends : EndsNumber (after ++ ch ',' :: (rest.text ++ ch '\x7d' :: r)) :=
        EndsNumber.gap hafter (by decide) _
      have hinside : value.text.length ≤ fuel ∧ rest.text.length < fuel := by
        simp only [Members.text, List.length_append, List.length_cons] at hfuel
        omega
      rw [Members.text, List.append_assoc, List.append_assoc, List.append_assoc, List.cons_append,
        emitYamlMapping_key hkey, emitYamlValue_text value hvalue hinside.1 hkey.afterColon hends]
      dsimp only
      rw [afterComma_comma hafter, emitYamlMapping_members rest hrest hinside.2, skeletonEntries,
        entriesText]
      simp only [List.append_assoc]
      rfl

end

/-- **The conversion of a text** succeeds, and depends on its skeleton alone. -/
theorem internalToYaml_text {doc : Document} (hdoc : doc.Valid) :
    (internalToYaml doc.text).rc = 0 ∧ (internalToYaml doc.text).out =
      ascii "---\n" ++ (skeletonText 1 (skeleton doc.value) ++ (ascii "\n" ++ [0])) := by
  have hfuel : doc.value.text.length ≤ doc.text.length + 1 := by
    simp only [Document.text, List.length_append]
    omega
  have hemit := emitYamlValue_text doc.value hdoc.value hfuel hdoc.before
    (EndsNumber.of_isGap hdoc.after) (ascii "---\n") 1
  unfold internalToYaml
  rw [show doc.text = doc.before ++ (doc.value.text ++ doc.after) from rfl] at hemit ⊢
  rw [hemit]
  exact ⟨rfl, by simp only [List.append_assoc]⟩

end BlessStar.Convert.Proofs.YamlWriting
