import BlessStar.UiMap.Proofs.UidlText

/-!
# Descriptions are complete and valid

The text written for a schema spells the description of its fields, and the
validator has nothing to say about it.
-/

namespace BlessStar.UiMap

open Lib.ByteString
open Lib.JsonText hiding ch
open Gate (Astok CDouble asparseAdvance ch isBlank lex jsonEscape)
open Schema (FieldDef FieldInfo SchemaType dictGet intText member)

section

variable {ν : Type} {D : CDouble ν}

theorem dictGet_control (info : FieldInfo) (path : Bytes) (children : Json) :
    let d := (controlMember path :: controlRest info children).map fun e => (e.1, some e.2.text)
    dictGet d (ascii "field") = some (jsonEscape path) ∧
      dictGet d (ascii "widget") = some (jsonEscape (fieldWidget info).typeStr) ∧
      dictGet d (ascii "children") = some children.text := by
  refine ⟨rfl, rfl, ?_⟩
  cases hlabel : info.uiLabel <;> cases hhint : info.aiHint <;>
    simp only [controlRest, controlMember, hlabel, hhint] <;> rfl

theorem fieldErrors_string (s : Bytes) : fieldErrors (some (jsonEscape s)) = [] := rfl

theorem widgetErrors_widget (w : UiWidget) : widgetErrors (some (jsonEscape w.typeStr)) = [] := by
  cases w <;> decide

theorem childrenErrors_nil (validate : Bytes → List Bytes) :
    childrenErrors D validate (some (childrenJson []).text) = [] := rfl

theorem childrenErrors_cons (hD : ReadsIntegers D) {validate : Bytes → List Bytes}
    {members : Members} (hv : members.Valid) (hint : MembersIntegersOnly members)
    (hvalid : validate (Json.object members).text = []) (vs : List Json) :
    childrenErrors D validate (some (childrenJson (.object members :: vs)).text) = [] := by
  have htext : ∃ s, (childrenJson (.object members :: vs)).text =
      ch '[' :: (lineFeed ++ ((Json.object members).text ++ s)) := by
    rw [childrenJson, Json.text]
    cases vs with
    | nil => exact ⟨[ch ']'], by simp [linedItems, Items.text]⟩
    | cons v vs =>
        refine ⟨ch ',' :: ((linedItems v vs).text ++ [ch ']']), ?_⟩
        simp [linedItems, Items.text]
  obtain ⟨s, hs⟩ := htext
  have harray := arrayErrors_first hv (hint.numbersRead hD) hvalid isGap_lineFeed s
  have hlong : 2 ≤ (ch '[' :: (lineFeed ++ ((Json.object members).text ++ s))).length := by
    simp [lineFeed]
  rw [hs, childrenErrors, if_pos ⟨hlong, rfl⟩, harray]

theorem validate_members (hD : ReadsIntegers D) {info : FieldInfo} {path : Bytes} {n : Nat}
    {vs : List Json} (hgood : ∀ v ∈ vs, v.Valid ∧ IntegersOnly v)
    (hchildren : childrenErrors D (validateControlJson D n) (some (childrenJson vs).text) = []) :
    validateControlJson D (n + 1) (Json.object (linedMembers (controlMember path)
      (controlRest info (childrenJson vs)))).text = [] := by
  have hmembers := goodMember_control info path
    (valid_childrenJson fun v hv => (hgood v hv).1)
    (integers_childrenJson fun v hv => (hgood v hv).2)
  have hcount : (entries (linedMembers (controlMember path)
      (controlRest info (childrenJson vs)))).length ≤ maxDict := by
    rw [entries_linedMembers]
    cases hlabel : info.uiLabel <;> cases hhint : info.aiHint <;>
      simp [controlRest, hlabel, hhint, maxDict]
  have hparse := parseDict_plain (GoodMember.members_valid hmembers)
    ((GoodMember.members_integers hmembers).numbersRead hD) (GoodMember.members_keys hmembers) hcount []
  obtain ⟨hfield, hwidget, hkids⟩ := dictGet_control info path (childrenJson vs)
  have hlex (ms : Members) :
      lex D (Json.object ms).text = ⟨.lbrace, ms.text ++ ch '\x7d' :: []⟩ := by
    rw [Json.text]
    exact lex_lbrace _
  rw [entries_linedMembers] at hparse
  simp only [validateControlJson, hlex, Astok.isLbrace, if_true, hparse, hfield, hwidget, hkids, fieldErrors_string,
    widgetErrors_widget, hchildren, List.append_nil]

mutual

theorem validate_controlJson (hD : ReadsIntegers D) (parentPath : Bytes) (above : List Bytes)
    (depth : Nat) : ∀ fd : FieldDef, FieldFits above depth fd →
      validateControlJson D (33 - depth) (Json.object (controlJson parentPath fd)).text = []
  | .mk info nested elems => by
      intro hfit
      obtain ⟨hdepth, -, hbelow⟩ := hfit
      have hleft : 33 - depth = 33 - (depth + 1) + 1 := by omega
      have hgood := good_controlsJson (pathBuf parentPath info.name)
      rw [hleft]
      simp only [controlJson]
      split
      · next hobj =>
          rw [if_pos hobj] at hbelow
          exact validate_members hD (hgood nested) (validate_controlsJson hD _ _ _ nested hbelow)
      · next hobj =>
          rw [if_neg hobj] at hbelow
          split
          · next harr =>
              rw [if_pos harr] at hbelow
              exact validate_members hD (hgood elems)
                (validate_controlsJson hD _ _ _ elems hbelow)
          · exact validate_members hD (by simp) (childrenErrors_nil _)

theorem validate_controlsJson (hD : ReadsIntegers D) (parentPath : Bytes) (above : List Bytes)
    (depth : Nat) : ∀ fds : List FieldDef, FieldsFit above depth fds →
      childrenErrors D (validateControlJson D (33 - depth))
        (some (childrenJson (controlsJson parentPath fds)).text) = []
  | [] => fun _ => rfl
  | fd :: fds => by
      intro hfit
      obtain ⟨hv, hint, -⟩ := good_controlJson parentPath fd
      rw [controlsJson]
      exact childrenErrors_cons hD hv hint
        (validate_controlJson hD parentPath above depth fd hfit.1) _

end

def rootControls : List Json → Json
  | [] => .emptyArray lineFeed
  | v :: vs => .array (linedItems v vs)

def versionMember : Bytes × Json := (ascii "uidl_version", .number (intText 1))

def rootRest (schemaId : Option Bytes) (rootFields : List FieldDef) : List (Bytes × Json) :=
  [(ascii "schema_ref", stringJson (schemaId.getD (ascii "unknown"))),
    (ascii "controls", rootControls (controlsJson [] rootFields))]

def rootJson (schemaId : Option Bytes) (rootFields : List FieldDef) : Members :=
  linedMembers versionMember (rootRest schemaId rootFields)

theorem text_rootControls (vs : List Json) :
    (rootControls vs).text =
      ascii "[\n" ++ (ascii ",\n").intercalate (vs.map Json.text) ++ ascii "]" := by
  cases vs with
  | nil => rfl
  | cons v vs =>
      rw [rootControls, Json.text, text_linedItems]
      simp [lineFeed, ascii]
      exact ⟨rfl, rfl, rfl⟩

theorem text_rootJson (schemaId : Option Bytes) (rootFields : List FieldDef) :
    (Json.object (rootJson schemaId rootFields)).text ++ lineFeed =
      schemaToUidl schemaId rootFields := by
  have hone : intText 1 = ascii "1" := by decide
  rw [rootJson, text_object_lined, schemaToUidl]
  simp only [versionMember, rootRest, List.map_cons, List.map_nil, memberText_ascii,
    text_stringJson, text_rootControls, text_controlsJson, Json.text, hone]
  rfl

theorem goodMember_root (schemaId : Option Bytes) (rootFields : List FieldDef) :
    ∀ e ∈ versionMember :: rootRest schemaId rootFields, GoodMember e := by
  have hcontrols : GoodMember (ascii "controls", rootControls (controlsJson [] rootFields)) := by
    have hall := good_controlsJson [] rootFields
    refine ⟨(by decide : PlainKey (ascii "controls")), ?_, ?_⟩
    · cases hvs : controlsJson [] rootFields with
      | nil => exact isGap_lineFeed
      | cons v vs =>
          rw [hvs] at hall
          exact valid_linedItems fun w hw => (hall w hw).1
    · cases hvs : controlsJson [] rootFields with
      | nil => trivial
      | cons v vs =>
          rw [hvs] at hall
          exact integers_linedItems fun w hw => (hall w hw).2
  simp only [rootRest, versionMember, List.forall_mem_cons, List.mem_nil_iff, false_implies,
    implies_true, and_true]
  exact ⟨goodMember_integer (by decide) 1, goodMember_string (by decide) _, hcontrols⟩

theorem tree_rootJson (schemaId : Option Bytes) {rootFields : List FieldDef}
    (hfit : FieldsFit [] 0 rootFields) :
    (Json.object (rootJson schemaId rootFields)).tree = uidlTree schemaId rootFields := by
  have hgood := goodMember_root schemaId rootFields
  have hone : intText 1 = ascii "1" := by decide
  have htrees : treesOf (controlsJson [] rootFields) = controlTrees [] rootFields :=
    trees_controlsJson [] 0 rootFields hfit
  have hroot : (rootControls (controlsJson [] rootFields)).tree =
      .array (controlTrees [] rootFields) := by
    rw [← htrees]
    cases controlsJson [] rootFields with
    | nil => rfl
    | cons v vs => rw [rootControls, Json.tree, trees_linedItems]
  rw [rootJson, tree_linedMembers fun e he => (hgood e he).decode_key, uidlTree]
  simp only [versionMember, rootRest, List.map_cons, List.map_nil, tree_stringJson, hroot,
    Json.tree, hone]

theorem controlsErrors_root (hD : ReadsIntegers D) {rootFields : List FieldDef}
    (hfit : FieldsFit [] 0 rootFields) :
    controlsErrors D (some (rootControls (controlsJson [] rootFields)).text) = [] := by
  cases rootFields with
  | nil => rfl
  | cons fd fds =>
      have hchildren := validate_controlsJson hD [] [] 0 (fd :: fds) hfit
      have hsame : rootControls (controlsJson [] (fd :: fds)) =
          childrenJson (controlsJson [] (fd :: fds)) := rfl
      have hhead : (childrenJson (controlsJson [] (fd :: fds))).text.head? = some (ch '[') := rfl
      have hlong : 2 ≤ (childrenJson (controlsJson [] (fd :: fds))).text.length := by
        simp [controlsJson, childrenJson, Json.text]
      rw [childrenErrors, if_pos ⟨hlong, hhead⟩] at hchildren
      rw [hsame, controlsErrors, if_pos hhead]
      exact hchildren

theorem uidlValidate_root (hD : ReadsIntegers D) (schemaId : Option Bytes)
    {rootFields : List FieldDef} (hfit : FieldsFit [] 0 rootFields) :
    uidlValidate D (schemaToUidl schemaId rootFields) = [] := by
  have hgood := goodMember_root schemaId rootFields
  have hlex : lex D (schemaToUidl schemaId rootFields) =
      ⟨.lbrace, (rootJson schemaId rootFields).text ++ ch '\x7d' :: lineFeed⟩ := by
    rw [← text_rootJson, Json.text, List.cons_append, List.append_assoc]
    exact lex_lbrace _
  have hparse := parseDict_plain (GoodMember.members_valid hgood)
    ((GoodMember.members_integers hgood).numbersRead hD) (GoodMember.members_keys hgood)
    (by rw [entries_linedMembers]; exact (by decide : 3 ≤ maxDict)) lineFeed
  rw [entries_linedMembers] at hparse
  have hversion : versionErrors (some (intText 1)) = [] := by decide
  have href : schemaRefErrors (some (jsonEscape (schemaId.getD (ascii "unknown")))) = [] := rfl
  have hcontrols := controlsErrors_root hD hfit
  simp only [uidlValidate, hlex, Astok.isLbrace, if_true, rootJson, hparse]
  show List.take maxUidlErrs (versionErrors (some (intText 1)) ++
    schemaRefErrors (some (jsonEscape (schemaId.getD (ascii "unknown")))) ++
    controlsErrors D (some (rootControls (controlsJson [] rootFields)).text)) = []
  rw [hversion, href, hcontrols]
  rfl

/-- **The text of a schema is a JSON document with one control for each field, and the
validator reports nothing on it.** -/
theorem uidl_complete_and_valid (hD : ReadsIntegers D) (schemaId : Option Bytes)
    (rootFields : List FieldDef) (hfit : FieldsFit [] 0 rootFields) :
    Spells (schemaToUidl schemaId rootFields) (uidlTree schemaId rootFields) ∧
      uidlValidate D (schemaToUidl schemaId rootFields) = [] := by
  have hvalid := GoodMember.members_valid (goodMember_root schemaId rootFields)
  refine ⟨⟨⟨[], .object (rootJson schemaId rootFields), lineFeed⟩,
    ⟨.nil, hvalid, isGap_lineFeed⟩, ?_, tree_rootJson schemaId hfit⟩,
    uidlValidate_root hD schemaId hfit⟩
  exact text_rootJson schemaId rootFields

end

def signedIntegers : CDouble Int where
  strtod s :=
    let negative := s.head? = some (ch '-')
    let digits := digitsPrefix 10 (if negative then s.drop 1 else s)
    let value : Int := digits.foldl (fun acc d => acc * 10 + d) 0
    (if negative then -value else value, digits.length + if negative then 1 else 0)
  formatG n := intText n
  lt a b := a < b
  le a b := a ≤ b

theorem length_digitsPrefix {int rest : Bytes} (hint : IsDigits int) (hrest : Delimited rest) :
    (digitsPrefix 10 (int ++ rest)).length = int.length := by
  obtain ⟨-, hdigits⟩ := hint
  induction int with
  | nil =>
      obtain ⟨c, r, rfl, hc⟩ := hrest
      have hnone : digitValue 10 c = none :=
        (by decide : ∀ c ∈ ascii ",]\x7d \t\n\r", digitValue 10 c = none) c hc
      simp [digitsPrefix, hnone]
  | cons d int ih =>
      obtain ⟨hd, hrest⟩ := List.forall_mem_cons.mp hdigits
      obtain ⟨n, hn⟩ := Option.isSome_iff_exists.mp hd
      rw [List.cons_append, digitsPrefix, hn, List.length_cons, List.length_cons, ih hrest]

theorem readsIntegers_signedIntegers : ReadsIntegers signedIntegers := by
  rintro t ⟨hsign, hint, -⟩ rest hrest
  rcases hsign with rfl | rfl
  · obtain ⟨d, int, rfl⟩ := List.exists_cons_of_ne_nil hint.1
    have hdash : d ≠ ch '-' := by
      rintro rfl
      exact absurd (hint.2 _ List.mem_cons_self) (by decide)
    have hlen := length_digitsPrefix hint hrest
    simpa [signedIntegers, hdash] using hlen
  · have hlen := length_digitsPrefix hint hrest
    rename_i int
    have hdash : (ascii "-" ++ int ++ rest).head? = some (ch '-') := rfl
    have hdrop : (ascii "-" ++ int ++ rest).drop 1 = int ++ rest := rfl
    have htotal : (ascii "-" ++ int).length = int.length + 1 := by
      rw [List.length_append, Nat.add_comm]
      rfl
    simp only [signedIntegers, hdash, hdrop, hlen, htotal, if_true]

def sampleFields : List FieldDef :=
  [.mk { name := ascii "db", type := .obj, aiHint := some (ascii "storage") }
      [.mk { name := ascii "host", uiLabel := some (ascii "Host \"name\""), uiOrder := -1 } [] [],
        .mk { name := ascii "replicas", type := .arr, elemType := .obj } []
          [.mk { name := ascii "port", type := .i32, uiOrder := 12 } [] []]] [],
    .mk { name := ascii "debug", type := .bool } [] []]

theorem uidl_complete_and_valid_sample :
    Spells (schemaToUidl (some (ascii "app")) sampleFields)
        (uidlTree (some (ascii "app")) sampleFields) ∧
      uidlValidate signedIntegers (schemaToUidl (some (ascii "app")) sampleFields) = [] :=
  uidl_complete_and_valid readsIntegers_signedIntegers (some (ascii "app")) sampleFields (by
    simp only [sampleFields, FieldsFit, FieldFits]
    decide)

end BlessStar.UiMap
