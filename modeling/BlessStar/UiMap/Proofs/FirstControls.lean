import BlessStar.UiMap.Proofs.UidlValidity

/-!
# Which descriptions the validator accepts

The loops over the controls and over the children look for a comma at the closing brace
of the first object and end there.  So the validator follows one chain: the root, its
first control, that one's first child, and so on.
-/

namespace BlessStar.UiMap

open Lib.ByteString
open Lib.JsonText hiding ch
open Gate (Asparse Astok CDouble asparseAdvance ch isBlank lex lexToken scanString)
open Schema (JsonDict dictGet)

def fieldList : Fields → List (Bytes × Tree)
  | .nil => []
  | .cons key value rest => (key, value) :: fieldList rest

def itemList : Trees → List Tree
  | .nil => []
  | .cons head tail => head :: itemList tail

inductive ControlGood : Tree → Prop
  | mk {fields : Fields}
      (field : ∃ s, (ascii "field", .string s) ∈ fieldList fields)
      (widget : ∃ s ∈ knownWidgets, (ascii "widget", .string s) ∈ fieldList fields)
      (children : ∀ items, (ascii "children", .array items) ∈ fieldList fields →
        ∀ t ∈ itemList items, ControlGood t) :
      ControlGood (.object fields)

/-- A description with a version, a schema and controls that are all valid. -/
def DescriptionGood (t : Tree) : Prop :=
  ∃ fields, t = .object fields ∧
    (∃ n, (ascii "uidl_version", .number n) ∈ fieldList fields) ∧
    (∃ s, (ascii "schema_ref", .string s) ∈ fieldList fields) ∧
    ∃ items, (ascii "controls", .array items) ∈ fieldList fields ∧
      ∀ t ∈ itemList items, ControlGood t

def ControlsWithin : Nat → Tree → Prop
  | 0, _ => False
  | n + 1, .object fields => ∀ items, (ascii "children", .array items) ∈ fieldList fields →
      ∀ t ∈ itemList items, ControlsWithin n t
  | _ + 1, _ => True

mutual

def FewMembers : Json → Prop
  | .array items => ItemsFewMembers items
  | .object members => (readEntries members).length < maxDict ∧ MembersFewMembers members
  | _ => True

def ItemsFewMembers : Items → Prop
  | .last _ item _ => FewMembers item
  | .more _ item _ rest => FewMembers item ∧ ItemsFewMembers rest

def MembersFewMembers : Members → Prop
  | .last _ value _ => FewMembers value
  | .more _ value _ rest => FewMembers value ∧ MembersFewMembers rest

end

def memberOf (name : Bytes) : Members → Option Json
  | .last key value _ => if readBody key.body = name then some value else none
  | .more key value _ rest => if readBody key.body = name then some value else memberOf name rest

def firstItem : Items → Json
  | .last _ item _ => item
  | .more _ item _ _ => item

inductive ChainPasses : Json → Prop
  | mk {members : Members}
      (field : ∃ body, memberOf (ascii "field") members = some (.string body))
      (widget : ∃ body ∈ knownWidgets, memberOf (ascii "widget") members = some (.string body))
      (children : ∀ items, memberOf (ascii "children") members = some (.array items) →
        IsObject (firstItem items) → ChainPasses (firstItem items)) :
      ChainPasses (.object members)

/-- A description as the validator takes it: its version has no sign, and of its controls it
looks at the first one, if that is an object. -/
def RootPasses (v : Json) : Prop :=
  ∃ members, v = .object members ∧
    (∃ n, memberOf (ascii "uidl_version") members = some (.number n) ∧ n.head? ≠ some (ch '-')) ∧
    (∃ body, memberOf (ascii "schema_ref") members = some (.string body)) ∧
    ((∃ ws, memberOf (ascii "controls") members = some (.emptyArray ws)) ∨
      ∃ items, memberOf (ascii "controls") members = some (.array items) ∧
        (IsObject (firstItem items) → ChainPasses (firstItem items)))

section

variable {ν : Type} {D : CDouble ν}

theorem dictGet_readEntries (name : Bytes) (members : Members) :
    dictGet (readEntries members) name = (memberOf name members).map Json.text := by
  cases members with
  | last key value after =>
      by_cases hkey : readBody key.body = name <;> simp [dictGet, readEntries, memberOf, hkey]
  | more key value after rest =>
      have hrest := dictGet_readEntries name rest
      by_cases hkey : readBody key.body = name
      · simp [dictGet, readEntries, memberOf, hkey]
      · simpa [dictGet, readEntries, memberOf, hkey] using hrest

theorem memberOf_spec {name : Bytes} {v : Json} : ∀ {members : Members},
    memberOf name members = some v → members.Valid → MembersNumbersRead D members →
      MembersFewMembers members → v.Valid ∧ NumbersRead D v ∧ FewMembers v
  | .last key value after, h, hv, hnum, hfew => by
      rw [memberOf] at h
      split_ifs at h
      cases h
      exact ⟨hv.2.1, hnum, hfew⟩
  | .more key value after rest, h, hv, hnum, hfew => by
      rw [memberOf] at h
      split_ifs at h
      · cases h
        exact ⟨hv.2.1, hnum.1, hfew.1⟩
      · exact memberOf_spec h hv.2.2.2 hnum.2 hfew.2

theorem firstItem_spec {items : Items} (hv : items.Valid) (hnum : ItemsNumbersRead D items)
    (hfew : ItemsFewMembers items) :
    (firstItem items).Valid ∧ NumbersRead D (firstItem items) ∧ FewMembers (firstItem items) := by
  cases items with
  | last before item after => exact ⟨hv.2.1, hnum, hfew⟩
  | more before item after rest => exact ⟨hv.2.1, hnum.1, hfew.1⟩

theorem firstItem_mem (items : Items) : (firstItem items).tree ∈ itemList items.trees := by
  cases items with
  | last before item after => exact List.mem_singleton_self _
  | more before item after rest => exact List.mem_cons_self ..

def EscapeFree (name : Bytes) : Prop :=
  ∀ c ∈ name, c ≠ ch '\\' ∧ ∀ e ∈ ascii "\"\\/bfnrtu", Gate.unescape e ≠ c

instance (name : Bytes) : Decidable (EscapeFree name) :=
  inferInstanceAs (Decidable (∀ c ∈ name, c ≠ ch '\\' ∧
    ∀ e ∈ ascii "\"\\/bfnrtu", Gate.unescape e ≠ c))

theorem EscapeFree.eq_of_readBody {name : Bytes} (hname : EscapeFree name) {body : Bytes}
    (hb : IsBody body) (h : readBody body = name) : body = name := by
  induction hb generalizing name with
  | nil => exact h
  | @raw c t _ _ hslash _ ih =>
      rw [readBody_raw hslash] at h
      subst h
      rw [← ih (List.forall_mem_cons.mp hname).2 rfl]
  | @escape e t he _ _ =>
      rw [readBody_escape] at h
      subst h
      exact absurd rfl ((hname _ List.mem_cons_self).2 e
        ((by decide : ∀ e ∈ ascii "\"\\/bfnrt", e ∈ ascii "\"\\/bfnrtu") e he))
  | @unicode d₁ d₂ d₃ d₄ t _ _ _ =>
      rw [readBody_escape] at h
      subst h
      exact absurd rfl ((hname _ List.mem_cons_self).2 (ch 'u') (by decide))

theorem EscapeFree.decode_eq {name : Bytes} (hname : EscapeFree name) {body : Bytes}
    (hb : IsBody body) (h : readBody body = name) : decode body = name := by
  rw [hname.eq_of_readBody hb h]
  exact decode_of_not_mem fun hmem => (hname _ hmem).1 rfl

theorem EscapeFree.mem_fieldList {name : Bytes} (hname : EscapeFree name) {v : Json} :
    ∀ {members : Members}, members.Valid → memberOf name members = some v →
      (name, v.tree) ∈ fieldList members.fields
  | .last key value after, hv, h => by
      rw [memberOf] at h
      split_ifs at h with hread
      cases h
      rw [Members.fields, fieldList, hname.decode_eq hv.1.body hread]
      exact List.mem_cons_self ..
  | .more key value after rest, hv, h => by
      rw [memberOf] at h
      rw [Members.fields, fieldList]
      split_ifs at h with hread
      · cases h
        rw [hname.decode_eq hv.1.body hread]
        exact List.mem_cons_self ..
      · exact List.mem_cons_of_mem _ (hname.mem_fieldList hv.2.2.2 h)

theorem head_quote_iff {v : Json} (hv : v.Valid) :
    v.text.head? = some (ch '"') ↔ ∃ body, v = .string body := by
  cases v with
  | string body => exact iff_of_true rfl ⟨body, rfl⟩
  | number text =>
      refine iff_of_false (fun h => ?_) (by rintro ⟨_, ⟨⟩⟩)
      obtain ⟨c, s, rfl, -⟩ := IsNumber.head hv
      have hc := IsNumber.forall hv (· ≠ ch '"') (by decide) c List.mem_cons_self
      exact hc (Option.some.inj h)
  | word w =>
      refine iff_of_false (fun h => ?_) (by rintro ⟨_, ⟨⟩⟩)
      cases w <;> exact absurd h (by decide)
  | _ => exact iff_of_false (fun h => by cases h) (by rintro ⟨_, ⟨⟩⟩)

theorem head_bracket_iff {v : Json} (hv : v.Valid) :
    v.text.head? = some (ch '[') ↔ (∃ ws, v = .emptyArray ws) ∨ ∃ items, v = .array items := by
  cases v with
  | emptyArray ws => exact iff_of_true rfl (.inl ⟨ws, rfl⟩)
  | array items => exact iff_of_true rfl (.inr ⟨items, rfl⟩)
  | number text =>
      refine iff_of_false (fun h => ?_) (by rintro (⟨_, ⟨⟩⟩ | ⟨_, ⟨⟩⟩))
      obtain ⟨c, s, rfl, -⟩ := IsNumber.head hv
      have hc := IsNumber.forall hv (· ≠ ch '[') (by decide) c List.mem_cons_self
      exact hc (Option.some.inj h)
  | word w =>
      refine iff_of_false (fun h => ?_) (by rintro (⟨_, ⟨⟩⟩ | ⟨_, ⟨⟩⟩))
      cases w <;> exact absurd h (by decide)
  | _ => exact iff_of_false (fun h => by cases h) (by rintro (⟨_, ⟨⟩⟩ | ⟨_, ⟨⟩⟩))

def textOf (v : Option Json) : Option Bytes := v.map Json.text

section

variable {v : Option Json}

theorem fieldErrors_eq_nil_iff (hv : ∀ w, v = some w → w.Valid) :
    fieldErrors (textOf v) = [] ↔ ∃ body, v = some (.string body) := by
  cases v with
  | none => simp [textOf, fieldErrors]
  | some v =>
      have hhead := head_quote_iff (hv v rfl)
      by_cases hquote : v.text.head? = some (ch '"')
      · simpa [textOf, fieldErrors, hquote] using hhead.mp hquote
      · simpa [textOf, fieldErrors, hquote] using mt hhead.mpr hquote

theorem schemaRefErrors_eq_nil_iff (hv : ∀ w, v = some w → w.Valid) :
    schemaRefErrors (textOf v) = [] ↔ ∃ body, v = some (.string body) := by
  cases v with
  | none => simp [textOf, schemaRefErrors]
  | some v =>
      have hhead := head_quote_iff (hv v rfl)
      by_cases hquote : v.text.head? = some (ch '"')
      · simpa [textOf, schemaRefErrors, hquote] using hhead.mp hquote
      · simpa [textOf, schemaRefErrors, hquote] using mt hhead.mpr hquote

theorem widgetErrors_eq_nil_iff (hv : ∀ w, v = some w → w.Valid) :
    widgetErrors (textOf v) = [] ↔ ∃ body ∈ knownWidgets, v = some (.string body) := by
  cases v with
  | none => simp [textOf, widgetErrors]
  | some v =>
      have hhead := head_quote_iff (hv v rfl)
      by_cases hquote : v.text.head? = some (ch '"')
      · obtain ⟨body, rfl⟩ := hhead.mp hquote
        have hlast : (ch '"' :: (body ++ [ch '"'])).getLast? = some (ch '"') := by
          rw [← List.cons_append, List.getLast?_concat]
        have hwidget : ((ch '"' :: (body ++ [ch '"'])).drop 1).dropLast = body := by
          rw [List.drop_succ_cons, List.drop_zero, List.dropLast_concat]
        have hlong : 2 ≤ (ch '"' :: (body ++ [ch '"'])).length := by simp
        rw [textOf, Option.map_some, widgetErrors, Json.text, if_pos ⟨hlong, rfl, hlast⟩, hwidget]
        by_cases hknown : body ∈ knownWidgets <;> simp [hknown]
      · have hnot : ∀ body, v ≠ .string body := fun body h => hquote (hhead.mpr ⟨body, h⟩)
        rw [textOf, Option.map_some, widgetErrors, if_neg fun h => hquote h.2.1]
        simp [hnot]

theorem versionErrors_eq_nil_iff (hv : ∀ w, v = some w → w.Valid) :
    versionErrors (textOf v) = [] ↔ ∃ n, v = some (.number n) ∧ n.head? ≠ some (ch '-') := by
  cases v with
  | none => simp [textOf, versionErrors]
  | some v =>
      have hvalid := hv v rfl
      rw [textOf, Option.map_some, versionErrors]
      cases v with
      | number n =>
          obtain ⟨c, s, rfl, hc⟩ := IsNumber.head hvalid
          rcases hc with hdigit | rfl
          · have hrange := digitValue_isSome.mp hdigit
            have hle : ch '0' ≤ c ∧ c ≤ ch '9' := by
              rw [UInt8.le_iff_toNat_le, UInt8.le_iff_toNat_le]
              exact hrange
            have hdash : c ≠ ch '-' := by
              rintro rfl
              exact absurd hdigit (by decide)
            simp [Json.text, hle, hdash]
          · have hnot : ¬(ch '0' ≤ ch '-' ∧ ch '-' ≤ ch '9') := by decide
            simp [Json.text, hnot]
      | word w => cases w <;> simp [Json.text, Word.text] <;> decide
      | _ =>
          simp [Json.text]
          decide

end

theorem ite_isLbrace {p : Prop} [Decidable p] {a b : Asparse ν} (ha : a.tok.isLbrace = false)
    (hb : b.tok.isLbrace = false) : (if p then a else b).tok.isLbrace = false := by
  split
  · exact ha
  · exact hb

theorem lexToken_isLbrace {c : UInt8} (hc : c ≠ ch '\x7b') (rest : Bytes) :
    (lexToken D c rest).tok.isLbrace = false := by
  rw [lexToken, if_neg hc]
  refine ite_isLbrace rfl (ite_isLbrace rfl (ite_isLbrace rfl (ite_isLbrace rfl
    (ite_isLbrace rfl (ite_isLbrace ?_ (ite_isLbrace rfl (ite_isLbrace rfl (ite_isLbrace rfl
      (ite_isLbrace (ite_isLbrace rfl rfl) rfl)))))))))
  cases scanString rest <;> rfl

theorem lex_isLbrace {w : Json} (hv : w.Valid) (hobj : ¬ IsObject w) (rest : Bytes) :
    (lex D (w.text ++ rest)).tok.isLbrace = false := by
  have other {c : UInt8} {s : Bytes} (htext : w.text = c :: s) (hblank : isBlank c = false)
      (hc : c ≠ ch '\x7b') : (lex D (w.text ++ rest)).tok.isLbrace = false := by
    rw [htext, List.cons_append, lex_cons hblank]
    exact lexToken_isLbrace hc _
  cases w with
  | string body => exact other rfl (by decide) (by decide)
  | number text =>
      obtain ⟨c, s, rfl, -⟩ := IsNumber.head hv
      have hc := IsNumber.forall hv (fun c => isBlank c = false ∧ c ≠ ch '\x7b') (by decide) c
        List.mem_cons_self
      exact other rfl hc.1 hc.2
  | word w => cases w <;> exact other rfl (by decide) (by decide)
  | emptyArray ws => exact other rfl (by decide) (by decide)
  | array items => exact other rfl (by decide) (by decide)
  | emptyObject ws => exact absurd trivial hobj
  | object members => exact absurd trivial hobj

theorem text_array {items : Items} (hv : items.Valid) :
    ∃ before s, IsGap before ∧
      (Json.array items).text = ch '[' :: (before ++ ((firstItem items).text ++ s)) := by
  cases items with
  | last before item after =>
      exact ⟨before, after ++ [ch ']'], hv.1, by simp [Json.text, Items.text, firstItem]⟩
  | more before item after rest =>
      exact ⟨before, after ++ ch ',' :: (rest.text ++ [ch ']']), hv.1,
        by simp [Json.text, Items.text, firstItem]⟩

theorem arrayErrors_items (validate : Bytes → List Bytes) {items : Items} (hv : items.Valid)
    (hnum : ItemsNumbersRead D items) (hfew : ItemsFewMembers items) :
    arrayErrors D validate (Json.array items).text = [] ↔
      (IsObject (firstItem items) → validate (firstItem items).text = []) := by
  obtain ⟨before, s, hbefore, htext⟩ := text_array hv
  obtain ⟨hvalid, hread, -⟩ := firstItem_spec hv hnum hfew
  rw [htext]
  by_cases hobj : IsObject (firstItem items)
  · rw [arrayErrors_object hvalid hread hobj validate hbefore s]
    exact ⟨fun h _ => h, fun h => h hobj⟩
  · refine iff_of_true ?_ fun h => absurd h hobj
    have hlex := lex_isLbrace (D := D) hvalid hobj s
    rw [← lex_gap hbefore] at hlex
    simp [arrayErrors, lex_lbrack, asparseAdvance, objectsLoop, hlex]

theorem arrayErrors_empty (validate : Bytes → List Bytes) {ws : Bytes} (hws : IsGap ws) :
    arrayErrors D validate (Json.emptyArray ws).text = [] := by
  have hlex : lex D (ws ++ [ch ']']) = ⟨.rbrack, []⟩ := by rw [lex_gap hws, lex_rbrack]
  rw [Json.text, arrayErrors, lex_lbrack]
  simp [asparseAdvance, hlex, objectsLoop, Astok.isLbrace]

section

variable {v : Option Json} (hv : ∀ w, v = some w → w.Valid ∧ NumbersRead D w ∧ FewMembers w)

include hv

theorem childrenErrors_eq_nil_iff (validate : Bytes → List Bytes) :
    childrenErrors D validate (textOf v) = [] ↔
      ∀ items, v = some (.array items) → IsObject (firstItem items) →
        validate (firstItem items).text = [] := by
  cases v with
  | none => simp [textOf, childrenErrors]
  | some v =>
      obtain ⟨hvalid, hnum, hfew⟩ := hv v rfl
      rw [textOf, Option.map_some, childrenErrors]
      by_cases hbracket : v.text.head? = some (ch '[')
      · rcases (head_bracket_iff hvalid).mp hbracket with ⟨ws, rfl⟩ | ⟨items, rfl⟩
        · have hlong : 2 ≤ (Json.emptyArray ws).text.length := by simp [Json.text]
          rw [if_pos ⟨hlong, hbracket⟩, arrayErrors_empty validate hvalid]
          simp
        · have hlong : 2 ≤ (Json.array items).text.length := by simp [Json.text]
          rw [if_pos ⟨hlong, hbracket⟩, arrayErrors_items validate hvalid hnum hfew]
          simp
      · have hnot : ∀ items, v ≠ .array items := fun items h =>
          hbracket ((head_bracket_iff hvalid).mpr (.inr ⟨items, h⟩))
        rw [if_neg fun h => hbracket h.2]
        simp [hnot]

theorem controlsErrors_eq_nil_iff :
    controlsErrors D (textOf v) = [] ↔
      (∃ ws, v = some (.emptyArray ws)) ∨ ∃ items, v = some (.array items) ∧
        (IsObject (firstItem items) →
          validateControlJson D 33 (firstItem items).text = []) := by
  cases v with
  | none => simp [textOf, controlsErrors]
  | some v =>
      obtain ⟨hvalid, hnum, hfew⟩ := hv v rfl
      rw [textOf, Option.map_some, controlsErrors]
      by_cases hbracket : v.text.head? = some (ch '[')
      · rw [if_pos hbracket]
        rcases (head_bracket_iff hvalid).mp hbracket with ⟨ws, rfl⟩ | ⟨items, rfl⟩
        · rw [arrayErrors_empty _ hvalid]
          simp
        · rw [arrayErrors_items _ hvalid hnum hfew]
          simp
      · have hnot := mt (head_bracket_iff hvalid).mpr hbracket
        rw [not_or, not_exists, not_exists] at hnot
        rw [if_neg hbracket]
        simp [hnot]

end

theorem ControlsWithin.first {n : Nat} {members : Members} (hv : members.Valid)
    (h : ControlsWithin (n + 1) (Json.object members).tree) {items : Items}
    (hitems : memberOf (ascii "children") members = some (.array items)) :
    ControlsWithin n (firstItem items).tree :=
  h items.trees (EscapeFree.mem_fieldList (by decide) hv hitems) _ (firstItem_mem items)

theorem validateControlJson_eq_nil_iff (n : Nat) {v : Json} (hobj : IsObject v) (hv : v.Valid)
    (hnum : NumbersRead D v) (hfew : FewMembers v) (hdepth : ControlsWithin n v.tree) :
    validateControlJson D n v.text = [] ↔ ChainPasses v := by
  induction n generalizing v with
  | zero => exact hdepth.elim
  | succ n ih =>
      cases v with
      | emptyObject ws =>
          refine iff_of_false (fun h => ?_) (by rintro ⟨⟩)
          have hlex : lex D (Json.emptyObject ws).text = ⟨.lbrace, ws ++ [ch '\x7d']⟩ := by
            rw [Json.text]
            exact lex_lbrace _
          have hclose : lex D (ws ++ [ch '\x7d']) = ⟨.rbrace, []⟩ := by
            rw [lex_gap hv, lex_rbrace]
          simp [validateControlJson, hlex, parseDict, parseDictLoop, asparseAdvance, hclose, dictGet,
            fieldErrors, Astok.isLbrace] at h
      | object members =>
          have hlex : lex D (Json.object members).text =
              ⟨.lbrace, members.text ++ ch '\x7d' :: []⟩ := by
            rw [Json.text]
            exact lex_lbrace _
          have hparse := parseDict_members hv hnum (Nat.le_of_lt hfew.1) []
          have hmember {name : Bytes} (w : Json) (hw : memberOf name members = some w) :=
            memberOf_spec hw hv hnum hfew.2
          have hvalid {name : Bytes} (w : Json) (hw : memberOf name members = some w) : w.Valid :=
            (hmember w hw).1
          have hchildren : (∀ items, memberOf (ascii "children") members = some (.array items) →
              IsObject (firstItem items) →
              validateControlJson D n (firstItem items).text = []) ↔
              ∀ items, memberOf (ascii "children") members = some (.array items) →
                IsObject (firstItem items) → ChainPasses (firstItem items) := by
            refine forall_congr' fun items => forall_congr' fun hitems => forall_congr' fun hfirst => ?_
            obtain ⟨hv', hnum', hfew'⟩ := hmember _ hitems
            obtain ⟨hfv, hfn, hff⟩ := firstItem_spec hv' hnum' hfew'
            exact ih hfirst hfv hfn hff (hdepth.first hv hitems)
          simp only [validateControlJson, hlex, Astok.isLbrace, if_true, hparse,
            dictGet_readEntries, List.append_eq_nil_iff]
          change (fieldErrors (textOf _) = [] ∧ widgetErrors (textOf _) = []) ∧
            childrenErrors D _ (textOf _) = [] ↔ _
          rw [fieldErrors_eq_nil_iff hvalid, widgetErrors_eq_nil_iff hvalid,
            childrenErrors_eq_nil_iff hmember, hchildren]
          constructor
          · rintro ⟨⟨hfield, hwidget⟩, hkids⟩
            exact .mk hfield hwidget hkids
          · rintro ⟨hfield, hwidget, hkids⟩
            exact ⟨⟨hfield, hwidget⟩, hkids⟩
      | _ => exact hobj.elim

theorem ControlsWithin.succ {n : Nat} {t : Tree} (h : ControlsWithin n t) :
    ControlsWithin (n + 1) t := by
  induction n generalizing t with
  | zero => exact h.elim
  | succ n ih =>
      cases t with
      | object fields => exact fun items hitems t ht => ih (h items hitems t ht)
      | _ => trivial

/-- `strtod` in the C locale takes a number up to the byte behind it. -/
def ReadsNumbers (D : CDouble ν) : Prop := ∀ t, IsNumber t → NumberRead D t

mutual

theorem numbersRead_of_valid (hD : ReadsNumbers D) : ∀ {v : Json}, v.Valid → NumbersRead D v
  | .string _, _ => trivial
  | .number _, h => hD _ h
  | .word _, _ => trivial
  | .emptyArray _, _ => trivial
  | .array _, h => itemsNumbersRead_of_valid hD h
  | .emptyObject _, _ => trivial
  | .object _, h => membersNumbersRead_of_valid hD h

theorem itemsNumbersRead_of_valid (hD : ReadsNumbers D) :
    ∀ {items : Items}, items.Valid → ItemsNumbersRead D items
  | .last _ _ _, h => numbersRead_of_valid hD h.2.1
  | .more _ _ _ _, h => ⟨numbersRead_of_valid hD h.2.1, itemsNumbersRead_of_valid hD h.2.2.2⟩

theorem membersNumbersRead_of_valid (hD : ReadsNumbers D) :
    ∀ {members : Members}, members.Valid → MembersNumbersRead D members
  | .last _ _ _, h => numbersRead_of_valid hD h.2.1
  | .more _ _ _ _, h => ⟨numbersRead_of_valid hD h.2.1, membersNumbersRead_of_valid hD h.2.2.2⟩

end

/-- A document whose objects have fewer than 256 members, and whose controls are nested in
at most 32 levels. -/
structure UidlDocument (doc : Document) : Prop where
  valid : doc.Valid
  few : FewMembers doc.value
  depth : ∀ fields items, doc.value.tree = .object fields →
    (ascii "controls", .array items) ∈ fieldList fields →
      ∀ t ∈ itemList items, ControlsWithin 32 t

theorem uidlValidate_eq_nil_iff (hD : ReadsNumbers D) {doc : Document} (hdoc : UidlDocument doc) :
    uidlValidate D doc.text = [] ↔ RootPasses doc.value := by
  obtain ⟨before, v, after⟩ := doc
  obtain ⟨⟨hbefore, hv, hafter⟩, hfew, hdepth⟩ := hdoc
  have hnum := numbersRead_of_valid hD hv
  have hfirst (w : Json) (hw : ¬ IsObject w) (hvalid : w.Valid) :
      uidlValidate D (Document.text ⟨before, w, after⟩) = [] ↔ RootPasses w := by
    refine iff_of_false ?_ ?_
    · have hlex := lex_isLbrace (D := D) hvalid hw after
      rw [← lex_gap hbefore] at hlex
      rw [uidlValidate, Document.text]
      simp [hlex, maxUidlErrs]
    · rintro ⟨members, rfl, -⟩
      exact hw trivial
  cases v with
  | emptyObject ws =>
      refine iff_of_false (fun h => ?_) (by rintro ⟨_, ⟨⟩, -⟩)
      have hlex : lex D (Document.text ⟨before, .emptyObject ws, after⟩) =
          ⟨.lbrace, ws ++ ch '\x7d' :: after⟩ := by
        rw [Document.text, lex_gap hbefore, Json.text, List.cons_append, List.append_assoc]
        exact lex_lbrace _
      have hclose : lex D (ws ++ ch '\x7d' :: after) = ⟨.rbrace, after⟩ := by
        rw [lex_gap hv, lex_rbrace]
      simp [uidlValidate, hlex, parseDict, parseDictLoop, asparseAdvance, hclose, dictGet,
        versionErrors, Astok.isLbrace, maxUidlErrs] at h
  | object members =>
      have hlex : lex D (Document.text ⟨before, .object members, after⟩) =
          ⟨.lbrace, members.text ++ ch '\x7d' :: after⟩ := by
        rw [Document.text, lex_gap hbefore, Json.text, List.cons_append, List.append_assoc]
        exact lex_lbrace _
      have hparse := parseDict_members hv hnum (Nat.le_of_lt hfew.1) after
      have hmember {name : Bytes} (w : Json) (hw : memberOf name members = some w) :=
        memberOf_spec hw hv hnum hfew.2
      have hvalid {name : Bytes} (w : Json) (hw : memberOf name members = some w) : w.Valid :=
        (hmember w hw).1
      have hcontrols : ∀ items, memberOf (ascii "controls") members = some (.array items) →
          IsObject (firstItem items) →
          (validateControlJson D 33 (firstItem items).text = [] ↔ ChainPasses (firstItem items)) := by
        intro items hitems hobj
        obtain ⟨hv', hnum', hfew'⟩ := hmember _ hitems
        obtain ⟨hfv, hfn, hff⟩ := firstItem_spec hv' hnum' hfew'
        have hwithin := hdepth _ items.trees rfl (EscapeFree.mem_fieldList (by decide) hv hitems) _
          (firstItem_mem items)
        exact validateControlJson_eq_nil_iff 33 hobj hfv hfn hff hwithin.succ
      simp only [uidlValidate, hlex, Astok.isLbrace, if_true, hparse, dictGet_readEntries,
        List.take_eq_nil_iff, List.append_eq_nil_iff]
      change (maxUidlErrs = 0 ∨ (versionErrors (textOf _) = [] ∧ schemaRefErrors (textOf _) = []) ∧
        controlsErrors D (textOf _) = []) ↔ _
      rw [versionErrors_eq_nil_iff hvalid, schemaRefErrors_eq_nil_iff hvalid,
        controlsErrors_eq_nil_iff hmember, or_iff_right (by decide)]
      constructor
      · rintro ⟨⟨hversion, href⟩, hlist⟩
        refine ⟨members, rfl, hversion, href, hlist.imp_right ?_⟩
        rintro ⟨items, hitems, hpass⟩
        exact ⟨items, hitems, fun hobj => (hcontrols items hitems hobj).mp (hpass hobj)⟩
      · rintro ⟨_, ⟨⟩, hversion, href, hlist⟩
        refine ⟨⟨hversion, href⟩, hlist.imp_right ?_⟩
        rintro ⟨items, hitems, hpass⟩
        exact ⟨items, hitems, fun hobj => (hcontrols items hitems hobj).mpr (hpass hobj)⟩
  | _ => exact hfirst _ (fun h => h) hv

/-- **The verdict is right exactly where the chain of first controls tells whether the whole
description is valid.** -/
theorem verdict_iff (hD : ReadsNumbers D) {doc : Document} (hdoc : UidlDocument doc) :
    (uidlValidate D doc.text = [] ↔ DescriptionGood doc.value.tree) ↔
      (RootPasses doc.value ↔ DescriptionGood doc.value.tree) := by
  rw [uidlValidate_eq_nil_iff hD hdoc]

end

/-- `strtod` of the bytes of a number, with the value of a whole one. -/
def spannedNumbers : CDouble Int where
  strtod s := ((signedIntegers.strtod s).1, (s.takeWhile (· ∈ ascii "0123456789-+.eE")).length)
  formatG := signedIntegers.formatG
  lt := signedIntegers.lt
  le := signedIntegers.le

theorem readsNumbers_spannedNumbers : ReadsNumbers spannedNumbers := by
  intro t ht rest hrest
  obtain ⟨c, r, rfl, hc⟩ := hrest
  have hall : ∀ d ∈ t, decide (d ∈ ascii "0123456789-+.eE") = true :=
    IsNumber.forall ht (fun d => decide (d ∈ ascii "0123456789-+.eE") = true) (by decide)
  have hstop : decide (c ∈ ascii "0123456789-+.eE") = false :=
    (by decide : ∀ c ∈ ascii ",]\x7d \t\n\r", decide (c ∈ ascii "0123456789-+.eE") = false) c hc
  change ((t ++ c :: r).takeWhile (· ∈ ascii "0123456789-+.eE")).length = t.length
  rw [List.takeWhile_append_of_pos hall, List.takeWhile_cons_of_neg (by simp [hstop]),
    List.append_nil]

def plainKey (name : String) : MemberKey := ⟨[], ascii name, [], []⟩

def firstMembers : Members :=
  .more (plainKey "field") (.string (ascii "a")) []
    (.last (plainKey "widget") (.string (ascii "input")) [])

def twoControls (second : Members) : Document where
  before := []
  value := .object (.more (plainKey "uidl_version") (.number (ascii "1")) []
    (.more (plainKey "schema_ref") (.string (ascii "s")) []
      (.last (plainKey "controls") (.array
        (.more [] (.object firstMembers) [] (.last [] (.object second) []))) [])))
  after := []

def noWidget : Members := .last (plainKey "field") (.string (ascii "b")) []

def withWidget : Members :=
  .more (plainKey "field") (.string (ascii "b")) [] (.last (plainKey "widget") (.string (ascii "input")) [])

theorem valid_twoControls {second : Members} (hsecond : second.Valid) :
    (twoControls second).Valid := by
  have hgap : IsGap [] := by decide
  have hbody : ∀ s ∈ ["uidl_version", "schema_ref", "controls", "field", "widget", "s", "a", "input"],
      IsBody (ascii s) := by
    intro s hs
    have hplain : ∀ s ∈ ["uidl_version", "schema_ref", "controls", "field", "widget", "s", "a",
        "input"], ∀ c ∈ ascii s, 32 ≤ c ∧ c ≠ ch '"' ∧ c ≠ ch '\\' := by decide
    exact isBody_of_plain (hplain s hs)
  have hkey (s : String) (hs : s ∈ ["uidl_version", "schema_ref", "controls", "field", "widget", "s",
      "a", "input"]) : (plainKey s).Valid := ⟨hgap, hbody s hs, hgap, hgap⟩
  refine ⟨hgap, ⟨hkey _ (by decide), ?_, hgap, hkey _ (by decide), hbody "s" (by decide), hgap,
    hkey _ (by decide), ⟨hgap, ⟨hkey _ (by decide), hbody "a" (by decide), hgap,
      hkey _ (by decide), hbody "input" (by decide), hgap⟩, hgap, hgap, hsecond, hgap⟩, hgap⟩, hgap⟩
  exact isNumber_of_isInteger (isInteger_intText 1)

theorem valid_bare (name value : String) (h : ∀ s ∈ [name, value],
    ∀ c ∈ ascii s, 32 ≤ c ∧ c ≠ ch '"' ∧ c ≠ ch '\\') :
    (plainKey name).Valid ∧ (Json.string (ascii value)).Valid := by
  have hgap : IsGap [] := by decide
  exact ⟨⟨hgap, isBody_of_plain (h name (by simp)), hgap, hgap⟩,
    isBody_of_plain (h value (by simp))⟩

def firstControl : Tree :=
  .object (.cons (ascii "field") (.string (ascii "a"))
    (.cons (ascii "widget") (.string (ascii "input")) .nil))

def rootFields (second : Fields) : Fields :=
  .cons (ascii "uidl_version") (.number (ascii "1")) (.cons (ascii "schema_ref") (.string (ascii "s"))
    (.cons (ascii "controls") (.array (.cons firstControl (.cons (.object second) .nil))) .nil))

theorem tree_twoControls (second : Members) :
    (twoControls second).value.tree = .object (rootFields second.fields) := by
  have hdecode : ∀ s ∈ ["uidl_version", "schema_ref", "controls", "field", "widget", "s", "a",
      "input"], decode (ascii s) = ascii s := by decide +kernel
  simp only [List.forall_mem_cons, List.not_mem_nil, false_imp_iff, implies_true, and_true] at hdecode
  obtain ⟨hversion, href, hcontrols, hfield, hwidget, hs, ha, hinput⟩ := hdecode
  simp only [twoControls, firstMembers, Json.tree, Members.fields, Items.trees, plainKey, rootFields, firstControl,
    hversion, href, hcontrols, hfield, hwidget, hs, ha, hinput]

theorem controls_rootFields {second : Fields} {items : Trees}
    (h : (ascii "controls", .array items) ∈ fieldList (rootFields second)) :
    itemList items = [firstControl, .object second] := by
  have hnames : ascii "controls" ≠ ascii "uidl_version" ∧ ascii "controls" ≠ ascii "schema_ref" := by
    decide
  simp only [rootFields, fieldList, List.mem_cons, Prod.mk.injEq, hnames.1, hnames.2, false_and,
    false_or, true_and, List.not_mem_nil, or_false, Tree.array.injEq] at h
  rw [h]
  rfl

theorem controlsWithin_leaf {fields : Fields}
    (h : ∀ p ∈ fieldList fields, p.1 ≠ ascii "children") (n : Nat) :
    ControlsWithin (n + 1) (.object fields) :=
  fun _ hitems => absurd rfl (h _ hitems)

theorem uidlDocument_twoControls {second : Members} (hvalid : second.Valid)
    (hfew : (readEntries second).length < maxDict ∧ MembersFewMembers second)
    (hleaf : ∀ p ∈ fieldList second.fields, p.1 ≠ ascii "children") :
    UidlDocument (twoControls second) := by
  refine ⟨valid_twoControls hvalid, ?_, ?_⟩
  · simp [twoControls, firstMembers, FewMembers, MembersFewMembers, ItemsFewMembers, readEntries,
      maxDict, hfew.2]
    exact hfew.1
  · intro fields items hfields hitems t ht
    obtain rfl := Tree.object.inj ((tree_twoControls second).symm.trans hfields)
    rw [controls_rootFields hitems, List.mem_cons, List.mem_singleton] at ht
    rcases ht with rfl | rfl
    · exact controlsWithin_leaf (by decide) 31
    · exact controlsWithin_leaf hleaf 31

/-- The second control is not looked at. -/
theorem not_verdict_noWidget : UidlDocument (twoControls noWidget) ∧
    ¬(uidlValidate spannedNumbers (twoControls noWidget).text = [] ↔
      DescriptionGood (twoControls noWidget).value.tree) := by
  have hfield := valid_bare "field" "b" (by decide)
  refine ⟨uidlDocument_twoControls ⟨hfield.1, hfield.2, by decide⟩ ⟨by decide, trivial⟩ (by decide),
    fun h => ?_⟩
  have haccepted : uidlValidate spannedNumbers (twoControls noWidget).text = [] := by decide +kernel
  obtain ⟨fields, hfields, -, -, items, hitems, hgood⟩ := h.mp haccepted
  obtain rfl := Tree.object.inj ((tree_twoControls noWidget).symm.trans hfields)
  have hsecond := hgood (.object noWidget.fields) (by rw [controls_rootFields hitems]; simp)
  cases hsecond with
  | mk _ widget _ =>
      obtain ⟨s, -, hs⟩ := widget
      have hnames : ∀ p ∈ fieldList noWidget.fields, p.1 ≠ ascii "widget" := by decide
      exact hnames _ hs rfl

theorem controlGood_leaf (field : Bytes) : ControlGood (.object (.cons (ascii "field") (.string field)
    (.cons (ascii "widget") (.string (ascii "input")) .nil))) := by
  refine .mk ⟨field, by simp [fieldList]⟩ ⟨ascii "input", by decide, by simp [fieldList]⟩
    fun items hitems => ?_
  have hnames : ascii "children" ≠ ascii "field" ∧ ascii "children" ≠ ascii "widget" := by decide
  simp [fieldList, hnames] at hitems

/-- With a widget the verdict is right. -/
theorem verdict_withWidget :
    uidlValidate spannedNumbers (twoControls withWidget).text = [] ↔
      DescriptionGood (twoControls withWidget).value.tree := by
  have hfield := valid_bare "field" "b" (by decide)
  have hwidget := valid_bare "widget" "input" (by decide)
  have hdoc : UidlDocument (twoControls withWidget) :=
    uidlDocument_twoControls ⟨hfield.1, hfield.2, by decide, hwidget.1, hwidget.2, by decide⟩
      ⟨by decide, trivial, trivial⟩ (by decide)
  have hread : ∀ s ∈ ["uidl_version", "schema_ref", "controls", "field", "widget"],
      ∀ t ∈ ["uidl_version", "schema_ref", "controls", "field", "widget", "children"],
      readBody (ascii s) = ascii t ↔ s = t := by decide +kernel
  have hchain : ChainPasses (.object firstMembers) := by
    refine .mk ⟨ascii "a", ?_⟩ ⟨ascii "input", by decide, ?_⟩ fun items hitems => ?_
    · simp [firstMembers, memberOf, plainKey, hread]
    · simp [firstMembers, memberOf, plainKey, hread]
    · simp [firstMembers, memberOf, plainKey, hread] at hitems
  refine (verdict_iff readsNumbers_spannedNumbers hdoc).mpr (iff_of_true ?_ ?_)
  · refine ⟨_, rfl, ⟨ascii "1", ?_, by decide⟩, ⟨ascii "s", ?_⟩,
      .inr ⟨.more [] (.object firstMembers) [] (.last [] (.object withWidget) []), ?_,
        fun _ => hchain⟩⟩
    all_goals simp [memberOf, plainKey, hread]
  · have hfields : withWidget.fields = .cons (ascii "field") (.string (ascii "b"))
        (.cons (ascii "widget") (.string (ascii "input")) .nil) := by
      have hdecode : ∀ s ∈ ["field", "b", "widget", "input"], decode (ascii s) = ascii s := by
        decide +kernel
      simp [withWidget, Members.fields, Json.tree, plainKey, hdecode]
    rw [tree_twoControls]
    refine ⟨_, rfl, ⟨ascii "1", by simp [rootFields, fieldList]⟩,
      ⟨ascii "s", by simp [rootFields, fieldList]⟩,
      .cons firstControl (.cons (.object withWidget.fields) .nil), by simp [rootFields, fieldList], ?_⟩
    simp only [itemList, List.forall_mem_cons, hfields, firstControl]
    exact ⟨controlGood_leaf _, controlGood_leaf _, by simp⟩

end BlessStar.UiMap
