import BlessStar.Gate.Proofs.JsonStrings
import BlessStar.UiMap.SchemaToUidl
import BlessStar.UiMap.Proofs.TextReading

/-!
# The text of a description

The text that is written for a schema as a JSON tree: it is valid, and its value
is the one that is expected.
-/

namespace BlessStar.UiMap

open Lib.ByteString
open Lib.JsonText hiding ch
open Gate (body_jsonEscape ch jsonEscape jsonEscapeByte)
open Schema (FieldDef FieldInfo SchemaType intText member)

def stringJson (s : Bytes) : Json := .string (s.flatMap jsonEscapeByte)

theorem text_stringJson (s : Bytes) : (stringJson s).text = jsonEscape s := rfl

theorem valid_stringJson (s : Bytes) : (stringJson s).Valid := (body_jsonEscape s).1

theorem tree_stringJson (s : Bytes) : (stringJson s).tree = .string s := by
  rw [stringJson, Json.tree, (body_jsonEscape s).2]

theorem isDigits_decimal (n : Nat) : IsDigits (decimal n) := by
  refine ⟨numeral_ne_nil 10 n, ?_⟩
  intro c hc
  obtain ⟨d, hd, rfl⟩ := isDigit_of_mem_numeral (by decide) hc
  rw [digitValue_digitByte (by decide) hd]
  rfl

theorem decimal_lead (n : Nat) :
    (decimal n).length = 1 ∨ (decimal n).head? ≠ some (ch '0') := by
  unfold decimal numeral
  by_cases hn : n = 0
  · exact .inl (by rw [if_pos hn]; rfl)
  · right
    rw [if_neg hn, List.head?_map, List.head?_reverse]
    have hne : Nat.digits 10 n ≠ [] := Nat.digits_ne_nil_iff_ne_zero.mpr hn
    have hlast := Nat.getLast_digit_ne_zero 10 hn
    have hlt : (Nat.digits 10 n).getLast hne < 10 :=
      Nat.digits_lt_base (by decide) (List.getLast_mem hne)
    rw [List.getLast?_eq_some_getLast hne, Option.map_some]
    intro h
    have hbyte : ∀ d < 10, d ≠ 0 → digitByte d ≠ ch '0' := by decide
    exact hbyte _ hlt hlast (Option.some.inj h)

theorem isInteger_intText (n : Int) : IsInteger (intText n) := by
  unfold intText
  by_cases hn : n < 0
  · rw [if_pos hn]
    exact @IsInteger.mk [ch '-'] _ (.inr rfl) (isDigits_decimal _) (decimal_lead _)
  · rw [if_neg hn]
    exact @IsInteger.mk [] _ (.inl rfl) (isDigits_decimal _) (decimal_lead _)

theorem isNumber_of_isInteger {t : Bytes} (h : IsInteger t) : IsNumber t := by
  have hnum := @IsNumber.mk t [] [] h (.inl rfl) (.inl rfl)
  rwa [List.append_nil, List.append_nil] at hnum

def lineFeed : Bytes := [ch '\n']

theorem isGap_lineFeed : IsGap lineFeed := by
  unfold IsGap
  decide

def linedKey (key : Bytes) : MemberKey := ⟨lineFeed, key, [], []⟩

def linedMembers : Bytes × Json → List (Bytes × Json) → Members
  | m, [] => .last (linedKey m.1) m.2 lineFeed
  | m, m' :: ms => .more (linedKey m.1) m.2 [] (linedMembers m' ms)

def linedItems : Json → List Json → Items
  | v, [] => .last lineFeed v []
  | v, v' :: vs => .more lineFeed v [] (linedItems v' vs)

def memberText (m : Bytes × Json) : Bytes := ch '"' :: (m.1 ++ ch '"' :: ch ':' :: m.2.text)

theorem text_linedMembers (m : Bytes × Json) (ms : List (Bytes × Json)) :
    (linedMembers m ms).text =
      lineFeed ++ ((ascii ",\n").intercalate ((m :: ms).map memberText) ++ lineFeed) := by
  induction ms generalizing m with
  | nil => simp [linedMembers, Members.text, MemberKey.text, linedKey, memberText, List.intercalate]
  | cons m' ms ih =>
      rw [linedMembers, Members.text, ih]
      simp only [List.map_cons, List.intercalate_cons_cons]
      simp [MemberKey.text, linedKey, memberText, lineFeed, ascii]
      exact ⟨rfl, rfl⟩

theorem text_linedItems (v : Json) (vs : List Json) :
    (linedItems v vs).text =
      lineFeed ++ (ascii ",\n").intercalate ((v :: vs).map Json.text) := by
  induction vs generalizing v with
  | nil => simp [linedItems, Items.text, List.intercalate]
  | cons v' vs ih =>
      rw [linedItems, Items.text, ih]
      simp only [List.map_cons, List.intercalate_cons_cons]
      simp [lineFeed, ascii]
      exact ⟨rfl, rfl⟩

theorem valid_linedMembers {m : Bytes × Json} {ms : List (Bytes × Json)}
    (h : ∀ e ∈ m :: ms, IsBody e.1 ∧ e.2.Valid) : (linedMembers m ms).Valid := by
  have hkey : ∀ key, IsBody key → (linedKey key).Valid := fun key hb =>
    ⟨isGap_lineFeed, hb, .nil, .nil⟩
  induction ms generalizing m with
  | nil =>
      obtain ⟨hbody, hvalue⟩ := h m List.mem_cons_self
      exact ⟨hkey _ hbody, hvalue, isGap_lineFeed⟩
  | cons m' ms ih =>
      obtain ⟨hbody, hvalue⟩ := h m List.mem_cons_self
      exact ⟨hkey _ hbody, hvalue, .nil, ih fun e he => h e (List.mem_cons_of_mem m he)⟩

theorem integers_linedMembers {m : Bytes × Json} {ms : List (Bytes × Json)}
    (h : ∀ e ∈ m :: ms, IntegersOnly e.2) : MembersIntegersOnly (linedMembers m ms) := by
  induction ms generalizing m with
  | nil => exact h m List.mem_cons_self
  | cons m' ms ih =>
      exact ⟨h m List.mem_cons_self, ih fun e he => h e (List.mem_cons_of_mem m he)⟩

theorem plainKeys_linedMembers {m : Bytes × Json} {ms : List (Bytes × Json)}
    (h : ∀ e ∈ m :: ms, ∀ c ∈ e.1, c ≠ ch '"' ∧ c ≠ ch '\\') :
    PlainKeys (linedMembers m ms) := by
  induction ms generalizing m with
  | nil => exact h m List.mem_cons_self
  | cons m' ms ih =>
      exact ⟨h m List.mem_cons_self, ih fun e he => h e (List.mem_cons_of_mem m he)⟩

theorem entries_linedMembers (m : Bytes × Json) (ms : List (Bytes × Json)) :
    entries (linedMembers m ms) = (m :: ms).map fun e => (e.1, some e.2.text) := by
  induction ms generalizing m with
  | nil => rfl
  | cons m' ms ih =>
      rw [linedMembers, entries, ih]
      rfl

theorem tree_linedMembers {m : Bytes × Json} {ms : List (Bytes × Json)}
    (h : ∀ e ∈ m :: ms, decode e.1 = e.1) :
    (Json.object (linedMembers m ms)).tree =
      objectTree ((m :: ms).map fun e => (e.1, e.2.tree)) := by
  have hfields : (linedMembers m ms).fields = ((m :: ms).map fun e => (e.1, e.2.tree)).foldr
      (fun m rest => Fields.cons m.1 m.2 rest) .nil := by
    induction ms generalizing m with
    | nil =>
        have hkey := h m List.mem_cons_self
        simp [linedMembers, Members.fields, linedKey, hkey]
    | cons m' ms ih =>
        have hkey := h m List.mem_cons_self
        rw [linedMembers, Members.fields, ih fun e he => h e (List.mem_cons_of_mem m he)]
        simp [linedKey, hkey]
  rw [Json.tree, hfields, objectTree]

theorem valid_linedItems {v : Json} {vs : List Json} (h : ∀ e ∈ v :: vs, e.Valid) :
    (linedItems v vs).Valid := by
  induction vs generalizing v with
  | nil => exact ⟨isGap_lineFeed, h v List.mem_cons_self, .nil⟩
  | cons v' vs ih =>
      exact ⟨isGap_lineFeed, h v List.mem_cons_self, .nil,
        ih fun e he => h e (List.mem_cons_of_mem v he)⟩

theorem integers_linedItems {v : Json} {vs : List Json} (h : ∀ e ∈ v :: vs, IntegersOnly e) :
    ItemsIntegersOnly (linedItems v vs) := by
  induction vs generalizing v with
  | nil => exact h v List.mem_cons_self
  | cons v' vs ih =>
      exact ⟨h v List.mem_cons_self, ih fun e he => h e (List.mem_cons_of_mem v he)⟩

def treesOf (vs : List Json) : Trees := vs.foldr (fun v rest => .cons v.tree rest) .nil

theorem trees_linedItems (v : Json) (vs : List Json) :
    (linedItems v vs).trees = treesOf (v :: vs) := by
  induction vs generalizing v with
  | nil => rfl
  | cons v' vs ih =>
      rw [linedItems, Items.trees, ih]
      rfl

def controlRest (info : FieldInfo) (children : Json) : List (Bytes × Json) :=
  [(ascii "widget", stringJson (fieldWidget info).typeStr)] ++
    (info.uiLabel.toList.map fun label => (ascii "label", stringJson label)) ++
    [(ascii "order", .number (intText info.uiOrder))] ++
    (info.aiHint.toList.map fun hint => (ascii "ai_layout_hint", stringJson hint)) ++
    [(ascii "visibility", .word .null), (ascii "default_value", .word .null),
      (ascii "children", children), (ascii "validation_ref", .word .null)]

def controlMember (path : Bytes) : Bytes × Json := (ascii "field", stringJson path)

def childrenJson : List Json → Json
  | [] => .emptyArray []
  | v :: vs => .array (linedItems v vs)

mutual

def controlJson (parentPath : Bytes) : FieldDef → Members
  | .mk info nested elems =>
      let path := pathBuf parentPath info.name
      linedMembers (controlMember path) (controlRest info (childrenJson
        (if info.type = .obj then controlsJson path nested
        else if info.type = .arr ∧ info.elemType = .obj then controlsJson path elems
        else [])))

def controlsJson (parentPath : Bytes) : List FieldDef → List Json
  | [] => []
  | fd :: fds => .object (controlJson parentPath fd) :: controlsJson parentPath fds

end

theorem memberText_ascii (key : String) (v : Json) :
    memberText (ascii key, v) = member key v.text := by
  simp [memberText, member, ascii]
  exact ⟨rfl, rfl⟩

theorem text_object_lined (m : Bytes × Json) (ms : List (Bytes × Json)) :
    (Json.object (linedMembers m ms)).text = linedObject ((m :: ms).map memberText) := by
  rw [Json.text, text_linedMembers, linedObject]
  simp [lineFeed, ascii]
  exact ⟨rfl, rfl, rfl⟩

theorem text_childrenJson (vs : List Json) :
    (childrenJson vs).text = childrenText (vs.map Json.text) := by
  cases vs with
  | nil => rfl
  | cons v vs =>
      rw [childrenJson, Json.text, text_linedItems, childrenText, if_neg (by simp)]
      simp [lineFeed, ascii]
      exact ⟨rfl, rfl, rfl⟩

theorem map_controlRest (info : FieldInfo) (path : Bytes) (children : Json) :
    (controlMember path :: controlRest info children).map memberText =
      controlMembers info path children.text := by
  cases hlabel : info.uiLabel <;> cases hhint : info.aiHint <;>
    simp [controlMember, controlRest, controlMembers, memberText_ascii, text_stringJson, hlabel,
      hhint, Json.text, Word.text]

mutual

theorem text_controlJson (parentPath : Bytes) : ∀ fd : FieldDef,
    (Json.object (controlJson parentPath fd)).text = emitOneControl parentPath fd
  | .mk info nested elems => by
      have hnested := text_controlsJson (pathBuf parentPath info.name) nested
      have helems := text_controlsJson (pathBuf parentPath info.name) elems
      rw [controlJson, text_object_lined, map_controlRest, text_childrenJson, emitOneControl]
      split
      · rw [hnested]
      · split
        · rw [helems]
        · rfl

theorem text_controlsJson (parentPath : Bytes) : ∀ fds : List FieldDef,
    (controlsJson parentPath fds).map Json.text = emitControls parentPath fds
  | [] => rfl
  | fd :: fds => by
      rw [controlsJson, List.map_cons, text_controlJson parentPath fd,
        text_controlsJson parentPath fds, emitControls]

end

def PlainKey (key : Bytes) : Prop := ∀ c ∈ key, 32 ≤ c ∧ c ≠ ch '"' ∧ c ≠ ch '\\'

instance : DecidablePred PlainKey := fun key =>
  inferInstanceAs (Decidable (∀ c ∈ key, 32 ≤ c ∧ c ≠ ch '"' ∧ c ≠ ch '\\'))

structure GoodMember (m : Bytes × Json) : Prop where
  key : PlainKey m.1
  valid : m.2.Valid
  integers : IntegersOnly m.2

section

variable {m : Bytes × Json} {ms : List (Bytes × Json)}

theorem GoodMember.members_valid (h : ∀ e ∈ m :: ms, GoodMember e) : (linedMembers m ms).Valid :=
  valid_linedMembers fun e he => ⟨isBody_of_plain (h e he).key, (h e he).valid⟩

theorem GoodMember.members_integers (h : ∀ e ∈ m :: ms, GoodMember e) :
    MembersIntegersOnly (linedMembers m ms) :=
  integers_linedMembers fun e he => (h e he).integers

theorem GoodMember.members_keys (h : ∀ e ∈ m :: ms, GoodMember e) :
    PlainKeys (linedMembers m ms) :=
  plainKeys_linedMembers fun e he c hc => ((h e he).key c hc).2

theorem GoodMember.decode_key {e : Bytes × Json} (h : GoodMember e) : decode e.1 = e.1 :=
  decode_of_not_mem fun hmem => (h.key _ hmem).2.2 rfl

end

theorem goodMember_string {key : Bytes} (hkey : PlainKey key) (s : Bytes) :
    GoodMember (key, stringJson s) := ⟨hkey, valid_stringJson s, trivial⟩

theorem goodMember_word {key : Bytes} (hkey : PlainKey key) (w : Word) :
    GoodMember (key, .word w) := ⟨hkey, trivial, trivial⟩

theorem goodMember_integer {key : Bytes} (hkey : PlainKey key) (n : Int) :
    GoodMember (key, .number (intText n)) :=
  ⟨hkey, isNumber_of_isInteger (isInteger_intText n), isInteger_intText n⟩

theorem goodMember_control (info : FieldInfo) (path : Bytes) {children : Json}
    (hv : children.Valid) (hint : IntegersOnly children) :
    ∀ e ∈ controlMember path :: controlRest info children, GoodMember e := by
  simp only [controlRest, controlMember, List.forall_mem_cons, List.forall_mem_append,
    List.forall_mem_map, List.mem_nil_iff, false_implies, implies_true, and_true]
  exact ⟨goodMember_string (by decide) _, ⟨⟨⟨goodMember_string (by decide) _,
    fun label _ => goodMember_string (by decide) label⟩, goodMember_integer (by decide) _⟩,
    fun hint _ => goodMember_string (by decide) hint⟩, goodMember_word (by decide) _,
    goodMember_word (by decide) _,
    ⟨(by decide : PlainKey (ascii "children")), hv, hint⟩, goodMember_word (by decide) _⟩

theorem valid_childrenJson {vs : List Json} (hv : ∀ v ∈ vs, v.Valid) :
    (childrenJson vs).Valid := by
  cases vs with
  | nil => exact .nil
  | cons v vs => exact valid_linedItems hv

theorem integers_childrenJson {vs : List Json} (hint : ∀ v ∈ vs, IntegersOnly v) :
    IntegersOnly (childrenJson vs) := by
  cases vs with
  | nil => trivial
  | cons v vs => exact integers_linedItems hint

mutual

theorem good_controlJson (parentPath : Bytes) : ∀ fd : FieldDef,
    (controlJson parentPath fd).Valid ∧ MembersIntegersOnly (controlJson parentPath fd) ∧
      PlainKeys (controlJson parentPath fd)
  | .mk info nested elems => by
      have hnested := good_controlsJson (pathBuf parentPath info.name) nested
      have helems := good_controlsJson (pathBuf parentPath info.name) elems
      have hgood (vs : List Json) (h : ∀ v ∈ vs, v.Valid ∧ IntegersOnly v) :=
        goodMember_control info (pathBuf parentPath info.name)
          (valid_childrenJson fun v hv => (h v hv).1)
          (integers_childrenJson fun v hv => (h v hv).2)
      have hall (vs : List Json) (h : ∀ v ∈ vs, v.Valid ∧ IntegersOnly v) :
          let members := linedMembers (controlMember (pathBuf parentPath info.name))
            (controlRest info (childrenJson vs))
          members.Valid ∧ MembersIntegersOnly members ∧ PlainKeys members :=
        ⟨GoodMember.members_valid (hgood vs h), GoodMember.members_integers (hgood vs h),
          GoodMember.members_keys (hgood vs h)⟩
      rw [controlJson]
      split
      · exact hall _ hnested
      · split
        · exact hall _ helems
        · exact hall [] (by simp)

theorem good_controlsJson (parentPath : Bytes) : ∀ fds : List FieldDef,
    ∀ v ∈ controlsJson parentPath fds, v.Valid ∧ IntegersOnly v
  | [] => by simp [controlsJson]
  | fd :: fds => by
      obtain ⟨hv, hint, -⟩ := good_controlJson parentPath fd
      rw [controlsJson]
      exact List.forall_mem_cons.mpr ⟨⟨hv, hint⟩, good_controlsJson parentPath fds⟩

end

theorem intercalate_concat (sep : Bytes) {xs : List Bytes} (hne : xs ≠ []) (x : Bytes) :
    sep.intercalate (xs ++ [x]) = sep.intercalate xs ++ (sep ++ x) := by
  induction xs with
  | nil => exact absurd rfl hne
  | cons y ys ih =>
      cases ys with
      | nil => simp [List.intercalate_cons_cons]
      | cons z zs =>
          have htail := ih (List.cons_ne_nil z zs)
          rw [List.cons_append] at htail
          rw [List.cons_append, List.cons_append, List.intercalate_cons_cons, htail,
            List.intercalate_cons_cons]
          simp only [List.append_assoc]

theorem dottedPath_append (above : List Bytes) (name : Bytes) :
    dottedPath (above ++ [name]) =
      if dottedPath above ≠ [] then dottedPath above ++ ch '.' :: name else name := by
  unfold dottedPath
  cases hd : above.dropWhile (· = []) with
  | nil =>
      have hall : ∀ n ∈ above, decide (n = []) = true := List.dropWhile_eq_nil_iff.mp hd
      rw [List.dropWhile_append_of_pos hall]
      by_cases hname : name = []
      · simp [hname]
      · simp [hname]
  | cons n ns =>
      have hn : n ≠ [] := by
        have hhead := List.head_dropWhile_not (l := above) (fun n : Bytes => decide (n = []))
          (by rw [hd]; exact List.cons_ne_nil n ns)
        simpa [hd] using hhead
      have hjoined : [Lib.JsonText.ch '.'].intercalate (n :: ns) ≠ [] := by
        cases ns with
        | nil => simpa using hn
        | cons m ms => simp [List.intercalate_cons_cons]
      rw [List.dropWhile_append, hd, if_neg (by simp), if_pos hjoined,
        intercalate_concat _ (List.cons_ne_nil n ns)]
      rfl

theorem pathBuf_dottedPath {above : List Bytes} {name : Bytes}
    (hlen : (dottedPath (above ++ [name])).length < 1024) :
    pathBuf (dottedPath above) name = dottedPath (above ++ [name]) := by
  rw [pathBuf, ← dottedPath_append, List.take_of_length_le (by omega)]

theorem tree_childrenJson (vs : List Json) : (childrenJson vs).tree = .array (treesOf vs) := by
  cases vs with
  | nil => rfl
  | cons v vs => rw [childrenJson, Json.tree, trees_linedItems]

theorem map_tree_control (info : FieldInfo) (path : Bytes) (children : Json) (trees : Trees)
    (h : children.tree = .array trees) :
    ((controlMember path :: controlRest info children).map fun e => (e.1, e.2.tree)) =
      controlMemberTrees info path trees := by
  cases hlabel : info.uiLabel <;> cases hhint : info.aiHint <;>
    simp [controlMember, controlRest, controlMemberTrees, tree_stringJson, hlabel, hhint,
      Json.tree, h]

mutual

theorem tree_controlJson (above : List Bytes) (depth : Nat) : ∀ fd : FieldDef,
    FieldFits above depth fd →
      (Json.object (controlJson (dottedPath above) fd)).tree = controlTree above fd
  | .mk info nested elems => by
      intro hfit
      obtain ⟨-, hlen, hbelow⟩ := hfit
      have hpath := pathBuf_dottedPath hlen
      have hcontrol (vs : List Json) (trees : Trees) (hvalid : ∀ v ∈ vs, v.Valid ∧ IntegersOnly v)
          (htrees : treesOf vs = trees) :
          (Json.object (linedMembers (controlMember (dottedPath (above ++ [info.name])))
            (controlRest info (childrenJson vs)))).tree =
              objectTree (controlMemberTrees info (dottedPath (above ++ [info.name])) trees) := by
        have hgood := goodMember_control info (dottedPath (above ++ [info.name]))
          (valid_childrenJson fun v hv => (hvalid v hv).1)
          (integers_childrenJson fun v hv => (hvalid v hv).2)
        rw [tree_linedMembers fun e he => (hgood e he).decode_key,
          map_tree_control info _ _ trees (by rw [tree_childrenJson, htrees])]
      simp only [controlJson, hpath, controlTree]
      split
      · next hobj =>
          rw [if_pos hobj] at hbelow
          exact hcontrol _ _ (good_controlsJson _ nested)
            (trees_controlsJson (above ++ [info.name]) (depth + 1) nested hbelow)
      · next hobj =>
          rw [if_neg hobj] at hbelow
          split
          · next harr =>
              rw [if_pos harr] at hbelow
              exact hcontrol _ _ (good_controlsJson _ elems)
                (trees_controlsJson (above ++ [info.name]) (depth + 1) elems hbelow)
          · exact hcontrol [] .nil (by simp) rfl

theorem trees_controlsJson (above : List Bytes) (depth : Nat) : ∀ fds : List FieldDef,
    FieldsFit above depth fds →
      treesOf (controlsJson (dottedPath above) fds) = controlTrees above fds
  | [] => fun _ => rfl
  | fd :: fds => by
      intro hfit
      have hrest := trees_controlsJson above depth fds hfit.2
      rw [controlsJson, controlTrees, ← tree_controlJson above depth fd hfit.1, ← hrest]
      rfl

end

end BlessStar.UiMap
