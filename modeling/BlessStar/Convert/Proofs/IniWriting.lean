import BlessStar.Convert.ToIni

/-!
# What is written in INI

An object of scalars and of sections of scalars is written line by line, in the
order of its members.
-/

namespace BlessStar.Convert.Proofs.IniWriting

open Lib.ByteString Lib.JsonText

variable {before after r buf : Bytes} {fuel : Nat}

def needsQuote (s : Bytes) : Bool := s.any fun c => c = ch ' ' ∨ c = ch '=' ∨ c = ch ';' ∨ c = ch '#'

def valueText : Json → Bytes
  | .string body => if needsQuote body then ch '"' :: (body ++ [ch '"']) else body
  | .number text => text.take 127
  | .word w => w.text
  | _ => []

/-- `key = value`. -/
def assignment (key : MemberKey) (value : Json) : Bytes :=
  key.body ++ (ascii " = " ++ valueText value)

def sectionLines : Members → List Bytes
  | .last key value _ => [ascii "  " ++ assignment key value]
  | .more key value _ rest => (ascii "  " ++ assignment key value) :: sectionLines rest

/-- `[name]`. -/
def headerLine (key : Bytes) : Bytes := ch '[' :: (sectionName key ++ [ch ']'])

def memberLines (key : MemberKey) : Json → List Bytes
  | .object members => headerLine key.body :: (sectionLines members ++ [[]])
  | .emptyObject _ => [headerLine key.body, []]
  | value => [assignment key value]

def iniLines : Members → List Bytes
  | .last key value _ => memberLines key value
  | .more key value _ rest => memberLines key value ++ iniLines rest

theorem unlines_single (line : Bytes) : unlines [line] = line ++ ascii "\n" := by
  rw [unlines_cons, unlines_nil]
  rfl

theorem mem_sectionName {key : Bytes} {c : UInt8} (h : c ∈ sectionName key) : c ∈ key := by
  unfold sectionName at h
  split at h
  · exact h
  · exact List.mem_of_mem_take h

theorem sectionHeader_eq {key : Bytes} (hkey : IsBody key) :
    sectionHeader key = headerLine key ++ ascii "\n" := by
  have hname : (0 : UInt8) ∉ sectionName key := fun h =>
    absurd (IsBody.ge hkey 0 (mem_sectionName h)) (by decide)
  rw [sectionHeader, cstr_eq_self hname, headerLine]
  simp only [List.append_assoc, List.cons_append]
  rfl

theorem iniEmitValue_scalar {v : Json} (hv : v.Valid) (hscalar : (scalarValue v).isSome)
    (hbefore : IsGap before) (hr : EndsNumber r) (buf : Bytes) :
    iniEmitValue (before ++ (v.text ++ r)) buf = .ok (r, buf ++ valueText v) := by
  unfold iniEmitValue
  dsimp only [nextItok]
  rw [nextToken_gap hbefore]
  cases v with
  | string body =>
      rw [Json.text, List.cons_append, List.append_assoc, show [ch '"'] ++ r = ch '"' :: r from rfl,
        nextToken_string hv]
      dsimp only
      rw [valueText]
      unfold needsQuote
      split
      · simp only [List.append_assoc]
        rfl
      · rfl
  | number text =>
      rw [Json.text, nextToken_number hv hr]
      rfl
  | word w =>
      rw [Json.text, nextToken_word]
      cases w <;> rfl
  | emptyArray | array | emptyObject | object => exact absurd hscalar (by simp [scalarValue])

theorem iniEmitSection_members (members : Members) (hv : members.Valid)
    (hflat : SectionFlat members) {fuel : Nat} (hfuel : members.text.length < fuel)
    (buf r : Bytes) :
    iniEmitSection fuel (members.text ++ ch '\x7d' :: r) buf =
      .ok (r, buf ++ unlines (sectionLines members)) := by
  obtain ⟨fuel, rfl⟩ : ∃ n, fuel = n + 1 := ⟨fuel - 1, by omega⟩
  match members with
  | .last key value after =>
      obtain ⟨hkey, hvalue, hafter⟩ := hv
      have hends : EndsNumber (after ++ ch '\x7d' :: r) := EndsNumber.gap hafter (by decide) r
      have hclose : nextToken (after ++ ch '\x7d' :: r) = (.rbrace, r) := nextToken_close hafter rfl
      rw [Members.text, List.append_assoc, List.append_assoc]
      obtain ⟨p, hname, hcolon⟩ := nextToken_key hkey (value.text ++ (after ++ ch '\x7d' :: r))
      rw [iniEmitSection.eq_def]
      dsimp only [nextItok]
      rw [hname]
      dsimp only
      rw [hcolon]
      dsimp only
      rw [iniEmitValue_scalar hvalue hflat hkey.afterColon hends]
      dsimp only
      rw [hclose, sectionLines, unlines_single, assignment]
      simp only [List.append_assoc]
  | .more key value after rest =>
      obtain ⟨hkey, hvalue, hafter, hrest⟩ := hv
      have hends : EndsNumber (after ++ ch ',' :: (rest.text ++ ch '\x7d' :: r)) :=
        EndsNumber.gap hafter (by decide) _
      have hcomma : nextToken (after ++ ch ',' :: (rest.text ++ ch '\x7d' :: r)) =
          (.comma, rest.text ++ ch '\x7d' :: r) := nextToken_close hafter rfl
      have hmore : rest.text.length < fuel := by
        simp only [Members.text, List.length_append, List.length_cons] at hfuel
        omega
      rw [Members.text, List.append_assoc, List.append_assoc, List.append_assoc, List.cons_append]
      obtain ⟨p, hname, hcolon⟩ :=
        nextToken_key hkey (value.text ++ (after ++ ch ',' :: (rest.text ++ ch '\x7d' :: r)))
      rw [iniEmitSection.eq_def]
      dsimp only [nextItok]
      rw [hname]
      dsimp only
      rw [hcolon]
      dsimp only
      rw [iniEmitValue_scalar hvalue hflat.1 hkey.afterColon hends]
      dsimp only
      rw [hcomma]
      dsimp only
      rw [iniEmitSection_members rest hrest hflat.2 hmore, sectionLines, unlines_cons, assignment]
      simp only [List.append_assoc]
      rfl

theorem iniEmitMembers_scalar {key : MemberKey} {value : Json} (hkey : key.Valid)
    (hvalue : value.Valid) (hscalar : (scalarValue value).isSome) (hr : EndsNumber r) (fuel : Nat)
    (buf : Bytes) :
    iniEmitMembers (fuel + 1) (key.text ++ (value.text ++ r)) buf =
      match nextToken r with
      | (.rbrace, _) => .ok (buf ++ unlines [assignment key value])
      | (_, p) => iniEmitMembers fuel p (buf ++ unlines [assignment key value]) := by
  obtain ⟨p, hname, hcolon⟩ := nextToken_key hkey (value.text ++ r)
  rw [iniEmitMembers.eq_def]
  dsimp only [nextItok]
  rw [hname]
  dsimp only
  rw [hcolon]
  dsimp only
  split
  · next heq =>
      exfalso
      rw [nextToken_gap hkey.afterColon] at heq
      cases value with
      | string body =>
          rw [Json.text, List.cons_append, List.append_assoc, show [ch '"'] ++ r = ch '"' :: r from rfl,
            nextToken_string hvalue] at heq
          exact absurd (Prod.mk.inj heq).1 (by simp)
      | number text =>
          rw [Json.text, nextToken_number hvalue hr] at heq
          exact absurd (Prod.mk.inj heq).1 (by simp)
      | word w =>
          rw [Json.text, nextToken_word] at heq
          exact absurd (Prod.mk.inj heq).1 (by cases w <;> simp [wordToken])
      | emptyArray | array | emptyObject | object => exact absurd hscalar (by simp [scalarValue])
  · rw [iniEmitValue_scalar hvalue hscalar hkey.afterColon hr, unlines_single, assignment]
    simp only [List.append_assoc] <;> rfl

theorem iniEmitMembers_section {key : MemberKey} {inside : Bytes} {lines : List Bytes}
    (hkey : key.Valid) {fuel : Nat} (hinside : ∀ buf, iniEmitSection fuel (inside ++ r) buf =
      .ok (r, buf ++ unlines lines)) (buf : Bytes) :
    iniEmitMembers (fuel + 1) (key.text ++ (ch '\x7b' :: inside ++ r)) buf =
      iniEmitMembers fuel (afterComma r)
        (buf ++ unlines (headerLine key.body :: (lines ++ [[]]))) := by
  obtain ⟨p, hname, hcolon⟩ := nextToken_key hkey (ch '\x7b' :: inside ++ r)
  have hopen : nextToken (key.afterColon ++ (ch '\x7b' :: inside ++ r)) = (.lbrace, inside ++ r) :=
    nextToken_close hkey.afterColon rfl
  rw [iniEmitMembers.eq_def]
  dsimp only [nextItok]
  rw [hname]
  dsimp only
  rw [hcolon]
  dsimp only
  rw [hopen]
  dsimp only
  rw [hinside, sectionHeader_eq hkey.body, unlines_cons, unlines_append, unlines_single]
  simp only [List.append_assoc]
  rfl

theorem iniEmitSection_value {value : Json} (hvalue : value.Valid) (hflat : MemberFlat value)
    (hopens : opensSection value = true) (hfuel : value.text.length ≤ fuel) :
    ∃ inside lines, value.text = ch '\x7b' :: inside ∧
      (∀ key, memberLines key value = headerLine key.body :: (lines ++ [[]])) ∧
      ∀ r buf, iniEmitSection fuel (inside ++ r) buf = .ok (r, buf ++ unlines lines) := by
  cases value with
  | string | number | word | emptyArray | array => exact absurd hopens (by simp [opensSection])
  | emptyObject ws =>
      refine ⟨ws ++ [ch '\x7d'], [], rfl, fun _ => rfl, fun r buf => ?_⟩
      obtain ⟨fuel, rfl⟩ : ∃ n, fuel = n + 1 := ⟨fuel - 1, by
        have hpos := Json.length_text_pos (v := .emptyObject ws) hvalue
        omega⟩
      have hclose : nextToken (ws ++ ch '\x7d' :: r) = (.rbrace, r) := nextToken_close hvalue rfl
      rw [List.append_assoc, show ws ++ ([ch '\x7d'] ++ r) = ws ++ ch '\x7d' :: r from rfl,
        iniEmitSection.eq_def]
      dsimp only [nextItok]
      rw [hclose, unlines_nil, List.append_nil]
  | object members =>
      refine ⟨members.text ++ [ch '\x7d'], sectionLines members, rfl, fun _ => rfl, fun r buf => ?_⟩
      rw [List.append_assoc]
      refine iniEmitSection_members members hvalue hflat ?_ buf r
      simp only [Json.text, List.length_cons, List.length_append, List.length_nil] at hfuel
      omega

theorem isSome_of_not_opens {value : Json} (hflat : MemberFlat value)
    (hopens : opensSection value = false) :
    (scalarValue value).isSome ∧ ∀ key, memberLines key value = [assignment key value] := by
  cases value with
  | string | number | word => exact ⟨hflat, fun _ => rfl⟩
  | emptyArray | array => exact absurd hflat (by simp [MemberFlat, scalarValue])
  | emptyObject | object => exact absurd hopens (by simp [opensSection])

theorem iniEmitMembers_comma {key : MemberKey} {value : Json} (hkey : key.Valid)
    (hvalue : value.Valid) (hflat : MemberFlat value) (hafter : IsGap after)
    (hfuel : value.text.length ≤ fuel) (buf r : Bytes) :
    iniEmitMembers (fuel + 1) (key.text ++ (value.text ++ (after ++ ch ',' :: r))) buf =
      iniEmitMembers fuel r (buf ++ unlines (memberLines key value)) := by
  cases hopens : opensSection value with
  | false =>
      obtain ⟨hscalar, hlines⟩ := isSome_of_not_opens hflat hopens
      have hends : EndsNumber (after ++ ch ',' :: r) := EndsNumber.gap hafter (by decide) r
      have hcomma : nextToken (after ++ ch ',' :: r) = (.comma, r) := nextToken_close hafter rfl
      rw [iniEmitMembers_scalar hkey hvalue hscalar hends, hcomma, hlines]
  | true =>
      obtain ⟨inside, lines, htext, hlines, hinside⟩ :=
        iniEmitSection_value hvalue hflat hopens hfuel
      rw [htext, iniEmitMembers_section hkey (hinside _), afterComma_comma hafter, hlines]

theorem iniEmitMembers_close {key : MemberKey} {value : Json} (hkey : key.Valid)
    (hvalue : value.Valid) (hflat : MemberFlat value) (hafter : IsGap after)
    (hfuel : value.text.length ≤ fuel) (buf r : Bytes) :
    iniEmitMembers (fuel + 1) (key.text ++ (value.text ++ (after ++ ch '\x7d' :: r))) buf =
      .ok (buf ++ unlines (memberLines key value)) := by
  have hclose : nextToken (after ++ ch '\x7d' :: r) = (.rbrace, r) := nextToken_close hafter rfl
  cases hopens : opensSection value with
  | false =>
      obtain ⟨hscalar, hlines⟩ := isSome_of_not_opens hflat hopens
      have hends : EndsNumber (after ++ ch '\x7d' :: r) := EndsNumber.gap hafter (by decide) r
      rw [iniEmitMembers_scalar hkey hvalue hscalar hends, hclose, hlines]
  | true =>
      obtain ⟨inside, lines, htext, hlines, hinside⟩ :=
        iniEmitSection_value hvalue hflat hopens hfuel
      obtain ⟨fuel, rfl⟩ : ∃ n, fuel = n + 1 := ⟨fuel - 1, by
        have hpos := Json.length_text_pos hvalue
        omega⟩
      rw [htext, iniEmitMembers_section hkey (hinside _), afterComma_close (.inr rfl) hafter, hlines,
        iniEmitMembers.eq_def]
      dsimp only [nextItok]
      rw [hclose]

/-- **An object of scalars and sections of scalars** is written line by line. -/
theorem iniEmitMembers_members (members : Members) (hv : members.Valid)
    (hflat : MembersFlat members) {fuel : Nat} (hfuel : members.text.length < fuel)
    (buf r : Bytes) :
    iniEmitMembers fuel (members.text ++ ch '\x7d' :: r) buf =
      .ok (buf ++ unlines (iniLines members)) := by
  obtain ⟨fuel, rfl⟩ : ∃ n, fuel = n + 1 := ⟨fuel - 1, by omega⟩
  match members with
  | .last key value after =>
      have hinside : value.text.length ≤ fuel := by
        simp only [Members.text, List.length_append] at hfuel
        omega
      rw [Members.text, List.append_assoc, List.append_assoc,
        iniEmitMembers_close hv.1 hv.2.1 hflat hv.2.2 hinside]
      rfl
  | .more key value after rest =>
      have hinside : value.text.length ≤ fuel ∧ rest.text.length < fuel := by
        simp only [Members.text, List.length_append, List.length_cons] at hfuel
        omega
      rw [Members.text, List.append_assoc, List.append_assoc, List.append_assoc, List.cons_append,
        iniEmitMembers_comma hv.1 hv.2.1 hflat.1 hv.2.2.1 hinside.1,
        iniEmitMembers_members rest hv.2.2.2 hflat.2 hinside.2, iniLines, unlines_append,
        List.append_assoc]

def documentLines : Json → List Bytes
  | .object members => iniLines members
  | _ => []

/-- **The conversion of an object** of scalars and sections of scalars. -/
theorem internalToIni_lines {doc : Document} (hdoc : doc.Valid)
    (hobject : ∃ fields, doc.value.tree = .object fields) (hflat : DocumentFlat doc) :
    (internalToIni doc.text).rc = 0 ∧
      (internalToIni doc.text).out = unlines (documentLines doc.value ++ [[]]) ++ [0] := by
  obtain ⟨before, value, after⟩ := doc
  obtain ⟨hbefore, hvalue, hafter⟩ := hdoc
  obtain ⟨fields, hfields⟩ := hobject
  dsimp only at hbefore hvalue hafter hfields hflat ⊢
  cases value with
  | string | number | word | emptyArray | array => exact Tree.noConfusion hfields
  | emptyObject ws =>
      have hopen : nextToken (Document.text ⟨before, .emptyObject ws, after⟩) =
          (.lbrace, ws ++ [ch '\x7d'] ++ after) := nextToken_close hbefore rfl
      have hclose : nextToken (ws ++ [ch '\x7d'] ++ after) = (.rbrace, after) := by
        rw [List.append_assoc]
        exact nextToken_close hvalue rfl
      unfold internalToIni nextItok
      rw [hopen]
      dsimp only
      rw [iniEmitMembers.eq_def]
      dsimp only [nextItok]
      rw [hclose]
      exact ⟨rfl, rfl⟩
  | object members =>
      have hopen : nextToken (Document.text ⟨before, .object members, after⟩) =
          (.lbrace, members.text ++ [ch '\x7d'] ++ after) := nextToken_close hbefore rfl
      have hfuel : members.text.length <
          (Document.text ⟨before, .object members, after⟩).length + 1 := by
        simp only [Document.text, Json.text, List.length_append, List.length_cons]
        omega
      unfold internalToIni nextItok
      rw [hopen, List.append_assoc]
      dsimp only
      rw [show members.text ++ ([ch '\x7d'] ++ after) = members.text ++ ch '\x7d' :: after from rfl,
        iniEmitMembers_members members hvalue hflat hfuel]
      refine ⟨rfl, ?_⟩
      rw [unlines_append, unlines_single]
      rfl

theorem lineFeed_not_mem_body {body : Bytes} (hb : IsBody body) : LF ∉ body := fun h =>
  absurd (IsBody.ge hb LF h) (by decide)

theorem lineFeed_not_mem_value {v : Json} (hv : v.Valid) : LF ∉ valueText v := by
  cases v with
  | string body =>
      have hbody := lineFeed_not_mem_body hv
      rw [valueText]
      split
      · simp only [List.mem_cons, List.mem_append, List.not_mem_nil, or_false, not_or]
        exact ⟨by decide, hbody, by decide⟩
      · exact hbody
  | number text =>
      intro h
      have hplain := IsNumber.forall hv (· ≠ LF) (by decide)
      exact hplain LF (List.mem_of_mem_take h) rfl
  | word w =>
      rw [valueText]
      cases w <;> decide
  | emptyArray | array | emptyObject | object => exact List.not_mem_nil

theorem lineFeed_not_mem_assignment {key : MemberKey} {value : Json} (hkey : key.Valid)
    (hvalue : value.Valid) : LF ∉ assignment key value := by
  simp only [assignment, List.mem_append, not_or]
  exact ⟨lineFeed_not_mem_body hkey.body, by decide, lineFeed_not_mem_value hvalue⟩

theorem lineFeed_not_mem_section (members : Members) (hv : members.Valid) :
    ∀ line ∈ sectionLines members, LF ∉ line := by
  have hindented : ∀ {key : MemberKey} {value : Json}, key.Valid → value.Valid →
      LF ∉ ascii "  " ++ assignment key value := by
    intro key value hkey hvalue
    rw [List.mem_append, not_or]
    exact ⟨by decide, lineFeed_not_mem_assignment hkey hvalue⟩
  cases members with
  | last key value after =>
      exact List.forall_mem_cons.mpr ⟨hindented hv.1 hv.2.1, by simp⟩
  | more key value after rest =>
      exact List.forall_mem_cons.mpr ⟨hindented hv.1 hv.2.1,
        lineFeed_not_mem_section rest hv.2.2.2⟩

theorem lineFeed_not_mem_member {key : MemberKey} {value : Json} (hkey : key.Valid)
    (hvalue : value.Valid) : ∀ line ∈ memberLines key value, LF ∉ line := by
  have hheader : LF ∉ headerLine key.body := by
    simp only [headerLine, List.mem_cons, List.mem_append, List.not_mem_nil, or_false, not_or]
    exact ⟨by decide, fun h => lineFeed_not_mem_body hkey.body (mem_sectionName h), by decide⟩
  have hassignment := lineFeed_not_mem_assignment hkey hvalue
  cases value with
  | object members =>
      refine List.forall_mem_cons.mpr ⟨hheader, fun line hline => ?_⟩
      rcases List.mem_append.mp hline with hline | hline
      · exact lineFeed_not_mem_section members hvalue line hline
      · rw [List.mem_singleton.mp hline]
        exact List.not_mem_nil
  | emptyObject ws =>
      exact List.forall_mem_cons.mpr ⟨hheader, by simp⟩
  | string | number | word | emptyArray | array =>
      exact List.forall_mem_cons.mpr ⟨hassignment, by simp⟩

theorem lineFeed_not_mem_lines (members : Members) (hv : members.Valid) :
    ∀ line ∈ iniLines members, LF ∉ line := by
  cases members with
  | last key value after => exact lineFeed_not_mem_member hv.1 hv.2.1
  | more key value after rest =>
      intro line hline
      rcases List.mem_append.mp hline with hline | hline
      · exact lineFeed_not_mem_member hv.1 hv.2.1 line hline
      · exact lineFeed_not_mem_lines rest hv.2.2.2 line hline

theorem getLines_document {v : Json} (hv : v.Valid) :
    getLines (unlines (documentLines v ++ [[]])) = documentLines v ++ [[]] := by
  refine getLines_unlines fun line hline => ?_
  rcases List.mem_append.mp hline with hline | hline
  · cases v with
    | object members => exact lineFeed_not_mem_lines members hv line hline
    | string | number | word | emptyArray | array | emptyObject =>
        exact absurd hline List.not_mem_nil
  · rw [List.mem_singleton.mp hline]
    exact List.not_mem_nil

end BlessStar.Convert.Proofs.IniWriting
