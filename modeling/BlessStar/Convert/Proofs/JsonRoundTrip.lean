import BlessStar.Convert.Proofs.JsonPrinting

/-!
# The value of a JSON text printed again

Where every string comes through, the printed text is the tree of the text with
other white space and respaced strings.  It has the value of the text, and its
size decides whether it fits the buffer.
-/

namespace BlessStar.Convert.Proofs.JsonRoundTrip

open Lib.ByteString Lib.JsonText JsonPrinting

def reprintKey (indent : Int) (key : MemberKey) : MemberKey :=
  { before := newline indent, body := respace key.body, beforeColon := []
    afterColon := ascii " " }

mutual

def reprint (indent : Int) : Json → Json
  | .string body => .string (respace body)
  | .number text => .number text
  | .word w => .word w
  | .emptyArray _ => .emptyArray (newline (indent + 1) ++ newline indent)
  | .array items => .array (reprintItems (indent + 1) items)
  | .emptyObject _ => .emptyObject (newline (indent + 1) ++ newline indent)
  | .object members => .object (reprintMembers (indent + 1) members)

def reprintItems (indent : Int) : Items → Items
  | .last _ item _ => .last (newline indent) (reprint indent item) (newline (indent - 1))
  | .more _ item _ rest =>
      .more (newline indent) (reprint indent item) [] (reprintItems indent rest)

def reprintMembers (indent : Int) : Members → Members
  | .last key value _ =>
      .last (reprintKey indent key) (reprint indent value) (newline (indent - 1))
  | .more key value _ rest =>
      .more (reprintKey indent key) (reprint indent value) [] (reprintMembers indent rest)

end

theorem indentAt_container {o c : UInt8} (h : Brackets o c) (indent : Int) (s : Bytes) :
    indentAt indent (o :: (s ++ [c])) = indentAt (indent + 1) s - 1 := by
  have hopen : indentAfter indent o = indent + 1 := by
    rcases h with ⟨rfl, -⟩ | ⟨rfl, -⟩ <;> rfl
  have hclose : ∀ level, indentAfter level c = level - 1 := by
    rcases h with ⟨-, rfl⟩ | ⟨-, rfl⟩ <;> exact fun _ => rfl
  rw [indentAt, List.foldl_cons, hopen, List.foldl_append]
  exact hclose _

theorem printed_inside {o c : UInt8} (h : Brackets o c) {indent : Int} {s t : Bytes}
    (hs : newline (indent + 1) ++ (printed (indent + 1) s ++ newline (indent + 1 - 1)) = t)
    (hindent : indentAt (indent + 1) s = indent + 1) :
    printed indent (o :: (s ++ [c])) = o :: (t ++ [c]) ∧
      indentAt indent (o :: (s ++ [c])) = indent := by
  constructor
  · rw [printed_container h, hindent, ← hs]
    simp only [List.append_assoc]
  · rw [indentAt_container h, hindent]
    omega

theorem printed_empty {o c : UInt8} (h : Brackets o c) {ws : Bytes} (hws : IsGap ws)
    (indent : Int) :
    printed indent (o :: (ws ++ [c])) = o :: ((newline (indent + 1) ++ newline indent) ++ [c]) ∧
      indentAt indent (o :: (ws ++ [c])) = indent := by
  refine printed_inside h ?_ (printed_gap hws _).2
  rw [(printed_gap hws _).1, List.nil_append, Int.add_sub_cancel]

theorem printed_spaced {before s after : Bytes} (hbefore : IsGap before) (hafter : IsGap after)
    {indent : Int} (hindent : indentAt indent s = indent) (rest : Bytes) :
    printed indent (before ++ (s ++ (after ++ rest))) =
        printed indent s ++ printed indent rest ∧
      indentAt indent (before ++ (s ++ (after ++ rest))) = indentAt indent rest := by
  constructor
  · rw [printed_append, (printed_gap hbefore _).1, (printed_gap hbefore _).2, List.nil_append,
      printed_append, hindent, printed_append, (printed_gap hafter _).1, (printed_gap hafter _).2,
      List.nil_append]
  · rw [indentAt_append, (printed_gap hbefore _).2, indentAt_append, hindent, indentAt_append,
      (printed_gap hafter _).2]

theorem printed_member {key : MemberKey} (hkey : key.Valid) (hkept : BodyKept key.body)
    (indent : Int) :
    newline indent ++ printed indent key.text = (reprintKey indent key).text ∧
      indentAt indent key.text = indent := by
  obtain ⟨hbody, hindent⟩ := printed_body (IsBody.ge hkey.body) hkept.1 indent
  constructor
  · have hprinted := printed_key hkey indent []
    rw [List.append_nil, hbody] at hprinted
    rw [hprinted]
    rfl
  · have hplain : ∀ c ∈ ascii "\":", indentAfter indent c = indent := by
      intro c hc
      have hcases : ∀ c ∈ ascii "\":", c = ch '"' ∨ c = ch ':' := by decide
      rcases hcases c hc with rfl | rfl <;> rfl
    rw [MemberKey.text, indentAt_append, (printed_gap hkey.before _).2, indentAt, List.foldl_cons,
      hplain _ (by decide)]
    change indentAt indent _ = indent
    rw [indentAt_append, hindent, indentAt, List.foldl_cons, hplain _ (by decide)]
    change indentAt indent _ = indent
    rw [indentAt_append, (printed_gap hkey.beforeColon _).2, indentAt, List.foldl_cons,
      hplain _ (by decide)]
    exact (printed_gap hkey.afterColon _).2

mutual

theorem printed_value (v : Json) (hv : v.Valid) (hkept : StringsKept v) (indent : Int) :
    printed indent v.text = (reprint indent v).text ∧ indentAt indent v.text = indent := by
  match v with
  | .string body =>
      obtain ⟨hbody, hindent⟩ := printed_body (IsBody.ge hv) hkept.1 indent
      constructor
      · rw [Json.text, printed_quoted, hbody]
        rfl
      · rw [Json.text, indentAt, List.foldl_cons, List.foldl_append]
        exact congrArg (indentAfter · (ch '"')) hindent
  | .number text => exact printed_number hv indent
  | .word w => exact printed_word w indent
  | .emptyArray ws => exact printed_empty (.inl ⟨rfl, rfl⟩) hv indent
  | .array items =>
      obtain ⟨hinside, hindent⟩ := printed_items items hv hkept (indent + 1)
      exact printed_inside (.inl ⟨rfl, rfl⟩) hinside hindent
  | .emptyObject ws => exact printed_empty (.inr ⟨rfl, rfl⟩) hv indent
  | .object members =>
      obtain ⟨hinside, hindent⟩ := printed_members members hv hkept (indent + 1)
      exact printed_inside (.inr ⟨rfl, rfl⟩) hinside hindent

theorem printed_items (items : Items) (hv : items.Valid) (hkept : ItemsKept items)
    (indent : Int) :
    newline indent ++ (printed indent items.text ++ newline (indent - 1)) =
        (reprintItems indent items).text ∧
      indentAt indent items.text = indent := by
  match items with
  | .last before item after =>
      obtain ⟨hbefore, hitem, hafter⟩ := hv
      obtain ⟨hvalue, hindent⟩ := printed_value item hitem hkept indent
      obtain ⟨hprinted, hlevel⟩ := printed_spaced hbefore hafter hindent []
      rw [List.append_nil] at hprinted hlevel
      constructor
      · rw [Items.text, hprinted, hvalue, printed, List.append_nil]
        rfl
      · exact hlevel
  | .more before item after rest =>
      obtain ⟨hbefore, hitem, hafter, hrest⟩ := hv
      obtain ⟨hvalue, hindent⟩ := printed_value item hitem hkept.1 indent
      obtain ⟨hprinted, hlevel⟩ := printed_spaced hbefore hafter hindent (ch ',' :: rest.text)
      obtain ⟨hinside, hindent'⟩ := printed_items rest hrest hkept.2 indent
      constructor
      · rw [Items.text, hprinted, hvalue, printed_comma, reprintItems, Items.text, ← hinside]
        simp only [List.append_assoc, List.cons_append, List.nil_append]
      · rw [Items.text, hlevel]
        exact hindent'

theorem printed_members (members : Members) (hv : members.Valid) (hkept : MembersKept members)
    (indent : Int) :
    newline indent ++ (printed indent members.text ++ newline (indent - 1)) =
        (reprintMembers indent members).text ∧
      indentAt indent members.text = indent := by
  match members with
  | .last key value after =>
      obtain ⟨hkey, hvalid, hafter⟩ := hv
      obtain ⟨hvalue, hindent⟩ := printed_value value hvalid hkept.2 indent
      obtain ⟨hname, hindent'⟩ := printed_member hkey hkept.1 indent
      obtain ⟨hprinted, hlevel⟩ := printed_spaced IsGap.nil hafter hindent []
      rw [List.append_nil, List.nil_append] at hprinted hlevel
      constructor
      · rw [Members.text, printed_append, hindent', hprinted, hvalue, printed, List.append_nil,
          reprintMembers, Members.text, ← hname]
        simp only [List.append_assoc]
      · rw [Members.text, indentAt_append, hindent', hlevel]
        rfl
  | .more key value after rest =>
      obtain ⟨hkey, hvalid, hafter, hrest⟩ := hv
      obtain ⟨hvalue, hindent⟩ := printed_value value hvalid hkept.2.1 indent
      obtain ⟨hname, hindent'⟩ := printed_member hkey hkept.1 indent
      obtain ⟨hprinted, hlevel⟩ := printed_spaced IsGap.nil hafter hindent (ch ',' :: rest.text)
      obtain ⟨hinside, hindent''⟩ := printed_members rest hrest hkept.2.2 indent
      rw [List.nil_append] at hprinted hlevel
      constructor
      · rw [Members.text, printed_append, hindent', hprinted, hvalue, printed_comma,
          reprintMembers, Members.text, ← hname, ← hinside]
        simp only [List.append_assoc, List.cons_append, List.nil_append]
      · rw [Members.text, indentAt_append, hindent', hlevel]
        exact hindent''

end

theorem reprintKey_valid {key : MemberKey} (hkey : key.Valid) (indent : Int) :
    (reprintKey indent key).Valid :=
  ⟨isGap_newline indent, IsBody.respace hkey.body, IsGap.nil, (by decide : IsGap (ascii " "))⟩

mutual

theorem reprint_valid (v : Json) (hv : v.Valid) (indent : Int) : (reprint indent v).Valid := by
  match v with
  | .string body => exact IsBody.respace hv
  | .number text => exact hv
  | .word w => exact trivial
  | .emptyArray ws => exact (isGap_newline _).append (isGap_newline _)
  | .array items => exact reprintItems_valid items hv _
  | .emptyObject ws => exact (isGap_newline _).append (isGap_newline _)
  | .object members => exact reprintMembers_valid members hv _

theorem reprintItems_valid (items : Items) (hv : items.Valid) (indent : Int) :
    (reprintItems indent items).Valid := by
  match items with
  | .last before item after =>
      exact ⟨isGap_newline _, reprint_valid item hv.2.1 _, isGap_newline _⟩
  | .more before item after rest =>
      exact ⟨isGap_newline _, reprint_valid item hv.2.1 _, IsGap.nil,
        reprintItems_valid rest hv.2.2.2 _⟩

theorem reprintMembers_valid (members : Members) (hv : members.Valid) (indent : Int) :
    (reprintMembers indent members).Valid := by
  match members with
  | .last key value after =>
      exact ⟨reprintKey_valid hv.1 _, reprint_valid value hv.2.1 _, isGap_newline _⟩
  | .more key value after rest =>
      exact ⟨reprintKey_valid hv.1 _, reprint_valid value hv.2.1 _, IsGap.nil,
        reprintMembers_valid rest hv.2.2.2 _⟩

end

mutual

theorem reprint_tree (v : Json) (hkept : StringsKept v) (indent : Int) :
    (reprint indent v).tree = v.tree := by
  match v with
  | .string body => exact congrArg Tree.string hkept.2
  | .number text => rfl
  | .word w => rfl
  | .emptyArray ws => rfl
  | .array items => exact congrArg Tree.array (reprintItems_trees items hkept _)
  | .emptyObject ws => rfl
  | .object members => exact congrArg Tree.object (reprintMembers_fields members hkept _)

theorem reprintItems_trees (items : Items) (hkept : ItemsKept items) (indent : Int) :
    (reprintItems indent items).trees = items.trees := by
  match items with
  | .last before item after =>
      rw [reprintItems, Items.trees, reprint_tree item hkept, Items.trees]
  | .more before item after rest =>
      rw [reprintItems, Items.trees, reprint_tree item hkept.1, reprintItems_trees rest hkept.2,
        Items.trees]

theorem reprintMembers_fields (members : Members) (hkept : MembersKept members) (indent : Int) :
    (reprintMembers indent members).fields = members.fields := by
  match members with
  | .last key value after =>
      rw [reprintMembers, Members.fields, reprint_tree value hkept.2, Members.fields]
      exact congrArg (Fields.cons · _ _) hkept.1.2
  | .more key value after rest =>
      rw [reprintMembers, Members.fields, reprint_tree value hkept.2.1,
        reprintMembers_fields rest hkept.2.2, Members.fields]
      exact congrArg (Fields.cons · _ _) hkept.1.2

end

theorem length_newline (level : Nat) : (newline level).length = 2 * level + 1 := by
  simp [newline, spaces, ascii, Nat.mul_comm]

theorem length_newline_succ (level : Nat) : (newline ((level : Int) + 1)).length = 2 * level + 3 := by
  have h := length_newline (level + 1)
  rw [Nat.cast_add_one] at h
  omega

mutual

theorem length_reprint (v : Json) (level : Nat) :
    (reprint level v).text.length = indentedSize level v := by
  have hnext := length_newline_succ level
  have hlevel := length_newline level
  match v with
  | .string body =>
      rw [reprint, Json.text, indentedSize, List.length_cons, List.length_append]
      rfl
  | .number text => rfl
  | .word w => rfl
  | .emptyArray ws =>
      simp only [reprint, Json.text, indentedSize, List.length_cons, List.length_append,
        List.length_nil]
      omega
  | .array items =>
      have hitems := length_reprintItems items level
      simp only [reprint, Json.text, indentedSize, List.length_cons, List.length_append,
        List.length_nil]
      omega
  | .emptyObject ws =>
      simp only [reprint, Json.text, indentedSize, List.length_cons, List.length_append,
        List.length_nil]
      omega
  | .object members =>
      have hmembers := length_reprintMembers members level
      simp only [reprint, Json.text, indentedSize, List.length_cons, List.length_append,
        List.length_nil]
      omega

theorem length_reprintItems (items : Items) (level : Nat) :
    (reprintItems ((level : Int) + 1) items).text.length =
      4 * level + 4 + itemsSize (level + 1) items := by
  have hnext := length_newline_succ level
  have hlevel := length_newline level
  match items with
  | .last before item after =>
      have hitem := length_reprint item (level + 1)
      rw [Nat.cast_add_one] at hitem
      simp only [reprintItems, Items.text, itemsSize, List.length_append, Int.add_sub_cancel]
      omega
  | .more before item after rest =>
      have hitem := length_reprint item (level + 1)
      have hrest := length_reprintItems rest level
      rw [Nat.cast_add_one] at hitem
      simp only [reprintItems, Items.text, itemsSize, List.length_append, List.length_cons,
        List.length_nil]
      omega

theorem length_reprintMembers (members : Members) (level : Nat) :
    (reprintMembers ((level : Int) + 1) members).text.length =
      4 * level + 4 + membersSize (level + 1) members := by
  have hnext := length_newline_succ level
  have hlevel := length_newline level
  have hspace : (ascii " ").length = 1 := rfl
  match members with
  | .last key value after =>
      have hvalue := length_reprint value (level + 1)
      rw [Nat.cast_add_one] at hvalue
      simp only [reprintMembers, reprintKey, Members.text, MemberKey.text, membersSize,
        List.length_append, List.length_cons, List.length_nil, Int.add_sub_cancel]
      omega
  | .more key value after rest =>
      have hvalue := length_reprint value (level + 1)
      have hrest := length_reprintMembers rest level
      rw [Nat.cast_add_one] at hvalue
      simp only [reprintMembers, reprintKey, Members.text, MemberKey.text, membersSize,
        List.length_append, List.length_cons, List.length_nil]
      omega

end

theorem Document.text_ne_nil {doc : Document} (hdoc : doc.Valid) : doc.text ≠ [] := by
  intro h
  obtain ⟨c, s, hvalue, -⟩ := Json.startsToken hdoc.value
  rw [Document.text, hvalue] at h
  exact List.cons_ne_nil _ _ (List.append_eq_nil_iff.mp (List.append_eq_nil_iff.mp h).2).1

theorem printed_document {doc : Document} (hdoc : doc.Valid) :
    printed 0 doc.text = printed 0 doc.value.text := by
  rw [Document.text, printed_append, (printed_gap hdoc.before _).1, (printed_gap hdoc.before _).2,
    List.nil_append, printed_append, (printed_gap hdoc.after _).1, List.append_nil]

theorem length_printed {v : Json} (hv : v.Valid) (hkept : StringsKept v) :
    (printed 0 v.text).length = indentedSize 0 v := by
  rw [(printed_value v hv hkept 0).1]
  exact length_reprint v 0

theorem KeepsValue.stringsKept {doc : Document} (hdoc : doc.Valid) (h : KeepsValue doc) :
    StringsKept doc.value := by
  obtain ⟨text, hout, doc', hvalid', htext', htree⟩ := h.value
  rw [(internalToJson_out h.rc).1] at hout
  have htext : printed 0 doc.value.text = doc'.text := by
    rw [htext', ← printed_document hdoc]
    exact List.append_cancel_right hout
  have hvalue : printed 0 doc.value.text ++ [] = doc'.value.text ++ doc'.after := by
    rw [List.append_nil]
    exact (IsGap.nil.unique hvalid'.before (startsToken_printed hdoc.value 0)
      ((Json.startsToken hvalid'.value).append _) htext).2
  exact (kept_of_printed doc.value doc'.value hdoc.value hvalid'.value htree 0 _ _ hvalue).1

/-- **The conversion keeps the value of a text** exactly when its printed text
fits the buffer and its strings come through. -/
theorem internalToJson_keepsValue {doc : Document} (hdoc : doc.Valid) :
    KeepsValue doc ↔
      indentedSize 0 doc.value < doc.text.length * 2 + 256 ∧ StringsKept doc.value := by
  constructor
  · intro h
    have hkept := KeepsValue.stringsKept hdoc h
    have hfits := (internalToJson_ok (Document.text_ne_nil hdoc)).mp h.rc
    rw [printed_document hdoc, length_printed hdoc.value hkept] at hfits
    exact ⟨hfits, hkept⟩
  · rintro ⟨hfits, hkept⟩
    have hrc : (internalToJson doc.text).rc = 0 := by
      rw [internalToJson_ok (Document.text_ne_nil hdoc), printed_document hdoc,
        length_printed hdoc.value hkept]
      exact hfits
    obtain ⟨hout, hover⟩ := internalToJson_out hrc
    refine ⟨hrc, hover, _, hout, ⟨[], reprint 0 doc.value, []⟩,
      ⟨IsGap.nil, reprint_valid doc.value hdoc.value 0, IsGap.nil⟩, ?_,
      reprint_tree doc.value hkept 0⟩
    rw [printed_document hdoc, (printed_value doc.value hdoc.value hkept 0).1, Document.text,
      List.nil_append, List.append_nil]

/-- `{"label": "dev8"}`. -/
def labelled : Document :=
  { before := []
    value := .object (.last ⟨[], ascii "label", [], ascii " "⟩ (.string (ascii "dev8")) [])
    after := [] }

/-- `{"hosts": "a,b"}`. -/
def listed : Document :=
  { before := []
    value := .object (.last ⟨[], ascii "hosts", [], ascii " "⟩ (.string (ascii "a,b")) [])
    after := [] }

theorem labelled_valid : labelled.Valid :=
  ⟨IsGap.nil, ⟨⟨IsGap.nil, isBody_of_plain (by decide), IsGap.nil, (by decide : IsGap (ascii " "))⟩,
    isBody_of_plain (by decide), IsGap.nil⟩, IsGap.nil⟩

theorem listed_valid : listed.Valid :=
  ⟨IsGap.nil, ⟨⟨IsGap.nil, isBody_of_plain (by decide), IsGap.nil, (by decide : IsGap (ascii " "))⟩,
    isBody_of_plain (by decide), IsGap.nil⟩, IsGap.nil⟩

theorem labelled_keepsValue : KeepsValue labelled :=
  (internalToJson_keepsValue labelled_valid).mpr ⟨by decide, by decide,
    (by decide : BodyKept (ascii "dev8"))⟩

/-- A comma in a string puts a line feed there. -/
theorem listed_not_keepsValue : listed.Valid ∧ ¬KeepsValue listed := by
  refine ⟨listed_valid, fun h => ?_⟩
  have hkept : BodyKept (ascii "hosts") ∧ BodyKept (ascii "a,b") :=
    KeepsValue.stringsKept listed_valid h
  exact absurd hkept.2 (by decide)

end BlessStar.Convert.Proofs.JsonRoundTrip
