import BlessStar.Sdk.PublishedSchema

/-!
# The schema follows the declarations

A text made anew lists the declarations as they are.  A text that is kept lists
them as long as the call that keeps it says nothing new.
-/

namespace BlessStar.Sdk.Proofs.SchemaPublishing

open Lib.ByteString Gate ConfigDeclareState

/-! ## Well-formed texts -/

theorem spells_escape {c e : UInt8} {s t : Bytes} (he : e ∈ ascii "\"\\/bfnrt")
    (hc : jsonUnescape e = c) (h : SpellsJsonString s t) :
    SpellsJsonString (c :: s) (ch '\\' :: e :: t) := by
  rw [← hc]
  exact .escape he h

theorem isHex4_control : ∀ n < 32,
    ([ch '0', ch '0', digitByte (n / 16), digitByte (n % 16)].all
        fun c => (digitValue 16 c).isSome) = true ∧
      (digitsPrefix 16 [ch '0', ch '0', digitByte (n / 16), digitByte (n % 16)]).foldl
        (fun acc d => acc * 16 + d) 0 = n ∧
      String.utf8EncodeChar (Char.ofNat n) = [UInt8.ofNat n] := by
  decide

theorem spells_escapeByte (c : UInt8) {s t : Bytes} (h : SpellsJsonString s t) :
    SpellsJsonString (c :: s) (jsonEscapeByte c ++ t) := by
  by_cases hquote : c = ch '"'
  · subst hquote
    exact spells_escape (by decide) (by decide) h
  by_cases hslash : c = ch '\\'
  · subst hslash
    exact spells_escape (by decide) (by decide) h
  by_cases h10 : c = 10
  · subst h10
    exact spells_escape (by decide) (by decide) h
  by_cases h13 : c = 13
  · subst h13
    exact spells_escape (by decide) (by decide) h
  by_cases h9 : c = 9
  · subst h9
    exact spells_escape (by decide) (by decide) h
  rw [jsonEscapeByte, if_neg hquote, if_neg hslash, if_neg h10, if_neg h13, if_neg h9]
  by_cases hlow : c < 32
  · have hc : c.toNat < 32 := UInt8.lt_iff_toNat_lt.mp hlow
    obtain ⟨hdigits, hvalue, hbyte⟩ := isHex4_control c.toNat hc
    have hsurrogate : ¬(0xD800 ≤ c.toNat ∧ c.toNat < 0xE000) := by omega
    have hhex : IsHex4 [ch '0', ch '0', digitByte (c.toNat / 16), digitByte (c.toNat % 16)]
        c.toNat := ⟨rfl, List.all_eq_true.mp hdigits, hvalue⟩
    have htext := SpellsJsonString.unicode hhex hsurrogate h
    rw [hbyte, UInt8.ofNat_toNat] at htext
    rw [if_pos hlow]
    exact htext
  · rw [if_neg hlow]
    exact .raw (UInt8.not_lt.mp hlow) hquote hslash h

theorem spells_flatMap_escape (s : Bytes) : SpellsJsonString s (s.flatMap jsonEscapeByte) := by
  induction s with
  | nil => exact .nil
  | cons c s ih =>
      rw [List.flatMap_cons]
      exact spells_escapeByte c ih

theorem spellsQuoted (s : Bytes) : SpellsQuoted s (Gate.jsonEscape s) :=
  .mk (spells_flatMap_escape s)

def Spaced {α : Type} (P : α → Bytes → Prop) (a : α) (y : Bytes) : Prop :=
  ∃ ws x, IsGap ws ∧ P a x ∧ y = ws ++ x

theorem isGap_append {ws ws' : Bytes} (h : IsGap ws) (h' : IsGap ws') : IsGap (ws ++ ws') := by
  intro c hc
  rcases List.mem_append.mp hc with hc | hc
  · exact h c hc
  · exact h' c hc

theorem isGap_nil : IsGap [] := fun _ hc => absurd hc List.not_mem_nil

theorem spellsList_intercalate {α : Type} {P : α → Bytes → Prop} {gap trail : Bytes}
    (hgap : IsGap gap) (htrail : IsGap trail) {as : List α} {ys : List Bytes} (hne : as ≠ [])
    (h : List.Forall₂ (Spaced P) as ys) {lead : Bytes} (hlead : IsGap lead) :
    SpellsList P as (lead ++ ((ch ',' :: gap).intercalate ys ++ trail)) := by
  induction h generalizing lead with
  | nil => exact absurd rfl hne
  | cons hy hrest ih =>
      obtain ⟨ws, x, hws, hx, rfl⟩ := hy
      cases hrest with
      | nil =>
          have hone : lead ++ ((ch ',' :: gap).intercalate [ws ++ x] ++ trail) =
              (lead ++ ws) ++ (x ++ trail) := by
            simp [List.intercalate]
          rw [hone]
          exact .last (isGap_append hlead hws) hx htrail
      | cons hy' hrest' =>
          rw [List.intercalate_cons_cons]
          have hmore := SpellsList.more (isGap_append hlead hws) hx isGap_nil
            (ih (List.cons_ne_nil _ _) hgap)
          simpa using hmore

def PlainName (name : Bytes) : Prop := name.flatMap jsonEscapeByte = name

instance : DecidablePred PlainName := fun name =>
  inferInstanceAs (Decidable (name.flatMap jsonEscapeByte = name))

theorem spellsNamed (name : Bytes) {x : Bytes} {value : Bytes → Prop} (hname : PlainName name)
    (hx : value x) :
    SpellsNamed (name, value) (ch '"' :: (name ++ ch '"' :: ch ':' :: ch ' ' :: x)) := by
  have hplain := spells_flatMap_escape name
  rw [hname] at hplain
  have hblank : IsGap [ch ' '] := by
    unfold IsGap
    decide
  exact .mk hplain isGap_nil hblank hx

theorem spaced_named (name : Bytes) {x : Bytes} {value : Bytes → Prop} (hname : PlainName name)
    (hx : value x) :
    Spaced SpellsNamed (name, value) (ch '"' :: (name ++ ch '"' :: ch ':' :: ch ' ' :: x)) :=
  ⟨[], _, isGap_nil, spellsNamed name hname hx, rfl⟩

section Texts

variable (mem : Address → Bytes)

theorem spellsQuoted_textAt (p : Address) :
    SpellsQuoted (textAt mem p) (ConfigDeclareState.jsonEscape (textAt mem p)) := by
  have hnul : (0 : UInt8) ∉ textAt mem p := by
    unfold textAt
    split
    · exact List.not_mem_nil
    · exact not_zero_mem_cstr _
  rw [ConfigDeclareState.jsonEscape, cstr_eq_self hnul]
  exact spellsQuoted _

theorem spellsQuoted_fieldTypeStr (t : Int) :
    SpellsQuoted (fieldTypeStr t) (ConfigDeclareState.jsonEscape (fieldTypeStr t)) := by
  have hnul : (0 : UInt8) ∉ fieldTypeStr t := by
    unfold fieldTypeStr
    split_ifs <;> decide
  rw [ConfigDeclareState.jsonEscape, cstr_eq_self hnul]
  exact spellsQuoted _

def memberTexts (f : FieldDecl) : List Bytes :=
  [ascii "\"key\": " ++ ConfigDeclareState.jsonEscape (textAt mem f.key),
      ascii "\"type\": " ++ ConfigDeclareState.jsonEscape (fieldTypeStr f.type),
      ascii "\"default\": " ++ ConfigDeclareState.jsonEscape (textAt mem f.defaultStr),
      ascii "\"description\": " ++ ConfigDeclareState.jsonEscape (textAt mem f.description)] ++
    if f.required then [ascii "\"required\": true"] else []

theorem fieldText_eq (f : FieldDecl) :
    fieldText mem f = ascii "    " ++
      ch '\x7b' :: ([] ++ ((ascii ", ").intercalate (memberTexts mem f) ++ []) ++
        [ch '\x7d']) := by
  unfold fieldText memberTexts
  cases f.required with
  | false =>
      simp only [List.intercalate_cons_cons, List.append_assoc, List.nil_append, List.append_nil,
        Bool.false_eq_true, if_false]
      simp [List.intercalate]
      rfl
  | true =>
      simp only [List.intercalate_cons_cons, List.append_assoc, List.nil_append, List.append_nil,
        List.cons_append, if_true]
      simp [List.intercalate]
      rfl

theorem spaced_memberTexts (f : FieldDecl) :
    List.Forall₂ (Spaced SpellsNamed) (rowOf mem f).members (memberTexts mem f) := by
  have hkey := spaced_named (ascii "key") (by decide) (spellsQuoted_textAt mem f.key)
  have htype := spaced_named (ascii "type") (by decide) (spellsQuoted_fieldTypeStr f.type)
  have hdefault :=
    spaced_named (ascii "default") (by decide) (spellsQuoted_textAt mem f.defaultStr)
  have hdescription :=
    spaced_named (ascii "description") (by decide) (spellsQuoted_textAt mem f.description)
  have hrequired : Spaced SpellsNamed (ascii "required", (· = ascii "true")) _ :=
    spaced_named _ (by decide) rfl
  unfold SchemaRow.members memberTexts rowOf
  cases f.required with
  | false => exact .cons hkey (.cons htype (.cons hdefault (.cons hdescription .nil)))
  | true =>
      exact .cons hkey (.cons htype (.cons hdefault (.cons hdescription (.cons hrequired .nil))))

theorem spellsRow_fieldText (f : FieldDecl) : Spaced SpellsRow (rowOf mem f) (fieldText mem f) := by
  have hindent : IsGap (ascii "    ") := by
    unfold IsGap
    decide
  have hblank : IsGap [ch ' '] := by
    unfold IsGap
    decide
  have hne : (rowOf mem f).members ≠ [] := by simp [SchemaRow.members]
  have hmembers := spellsList_intercalate hblank isGap_nil hne (spaced_memberTexts mem f) isGap_nil
  exact ⟨ascii "    ", _, hindent, .list hmembers, fieldText_eq mem f⟩

theorem spaced_rows (fields : List FieldDecl) :
    List.Forall₂ (Spaced SpellsRow) (fields.map (rowOf mem)) (fields.map (fieldText mem)) := by
  rw [List.forall₂_map_left_iff, List.forall₂_map_right_iff]
  exact List.forall₂_same.mpr fun f _ => spellsRow_fieldText mem f

theorem spellsSchema_schemaText (ts : Bytes) {fields : List FieldDecl} (hne : fields ≠ []) :
    SpellsSchema (cstr ts) (fields.map (rowOf mem)) (schemaText mem ts fields) := by
  have hline : IsGap (ascii "\n") := by
    unfold IsGap
    decide
  have hindent : IsGap (ascii "\n  ") := by
    unfold IsGap
    decide
  have hrows := spellsList_intercalate hline hindent (by simpa using hne) (spaced_rows mem fields)
    hline
  have hmembers : List.Forall₂ (Spaced SpellsNamed)
      [(ascii "version", SpellsQuoted (ascii "1.0")),
        (ascii "generated_at", SpellsQuoted (cstr ts)),
        (ascii "fields", SpellsBracketed (ch '[') (ch ']') SpellsRow (fields.map (rowOf mem)))] _ :=
    .cons (spaced_named _ (by decide) (spellsQuoted (ascii "1.0")))
      (.cons (spaced_named _ (by decide) (spellsQuoted (cstr ts)))
        (.cons (spaced_named _ (by decide) (.list hrows)) .nil))
  have hobject := spellsList_intercalate hindent hline (List.cons_ne_nil _ _) hmembers hindent
  have htext := SpellsSchema.mk isGap_nil hline (.list hobject)
  convert htext using 1
  unfold schemaText
  simp only [List.intercalate_cons_cons, List.append_assoc, List.nil_append, List.cons_append,
    List.intercalate_singleton]
  rfl

end Texts

/-! ## The declarations so far -/

section Declarations

variable {mem : Address → Bytes}

theorem lastDeclared_append (xs ys : List FieldDecl) (k : Bytes) :
    lastDeclared mem (xs ++ ys) k = (lastDeclared mem ys k).or (lastDeclared mem xs k) := by
  rw [lastDeclared, List.filter_append, List.getLast?_append]
  rfl

theorem lastDeclared_singleton (f : FieldDecl) (k : Bytes) :
    lastDeclared mem [f] k = if textAt mem f.key = k then some f else none := by
  unfold lastDeclared
  by_cases h : textAt mem f.key = k <;> simp [h]

theorem key_of_lastDeclared {decls : List FieldDecl} {k : Bytes} {f : FieldDecl}
    (h : lastDeclared mem decls k = some f) : textAt mem f.key = k := by
  have hmem := List.mem_of_getLast? h
  exact of_decide_eq_true (List.mem_filter.mp hmem).2

def Holds (mem : Address → Bytes) (fields : StringMap FieldDecl) (decls : List FieldDecl) : Prop :=
  ∀ k, fields.lookup k = if k = [] then none else lastDeclared mem decls k

theorem holds_declareField {s : ConfigDeclareState} {decls : List FieldDecl}
    (h : Holds mem s.fields decls) (f : FieldDecl) :
    Holds mem (declareField mem s f).fields (decls ++ [f]) := by
  intro k
  rw [lastDeclared_append, lastDeclared_singleton]
  have hinsert : textAt mem f.key ≠ [] → (s.fields.insert (textAt mem f.key) f).lookup k =
      if k = [] then none
      else (if textAt mem f.key = k then some f else none).or (lastDeclared mem decls k) := by
    intro hne
    by_cases hk : k = textAt mem f.key
    · rw [hk, Finmap.lookup_insert, if_neg hne, if_pos rfl]
      rfl
    · rw [Finmap.lookup_insert_of_ne _ hk, h k, if_neg (Ne.symm hk)]
      rfl
  unfold declareField
  dsimp only
  by_cases hempty : textAt mem f.key = []
  · rw [if_pos hempty, h k]
    by_cases hk : k = []
    · rw [if_pos hk, if_pos hk]
    · rw [if_neg hk, if_neg hk, hempty, if_neg (Ne.symm hk)]
      rfl
  rw [if_neg hempty]
  split
  · rename_i g hg
    by_cases hsame : g = f
    · -- nothing is stored, and nothing changes
      rw [if_pos hsame]
      by_cases hk : k = textAt mem f.key
      · rw [hk, hg, if_neg hempty, if_pos rfl, hsame]
        rfl
      · rw [h k, if_neg (Ne.symm hk)]
        rfl
    · rw [if_neg hsame]
      exact hinsert hempty
  · exact hinsert hempty

theorem declareField_schemaJson (s : ConfigDeclareState) (f : FieldDecl) :
    (declareField mem s f).schemaJson = s.schemaJson := by
  unfold declareField
  dsimp only
  split
  · rfl
  split
  · split <;> rfl
  · rfl

theorem holds_merge {s : ConfigDeclareState} {decls : List FieldDecl}
    (h : Holds mem s.fields decls) (src : List FieldDecl) :
    Holds mem (merge mem s src).fields (decls ++ src) := by
  have hrun : ∀ s decls, Holds mem s.fields decls →
      Holds mem (src.foldl (declareField mem) s).fields (decls ++ src) := by
    induction src with
    | nil =>
        intro s decls hs
        rw [List.append_nil]
        exact hs
    | cons f src ih =>
        intro s decls hs
        rw [List.foldl_cons, ← List.singleton_append, ← List.append_assoc]
        exact ih _ _ (holds_declareField hs f)
  exact hrun _ _ h

theorem merge_schemaJson (s : ConfigDeclareState) (src : List FieldDecl) :
    (merge mem s src).schemaJson = s.schemaJson := by
  have hrun : ∀ s, (src.foldl (declareField mem) s).schemaJson = s.schemaJson := by
    induction src with
    | nil => exact fun s => rfl
    | cons f src ih => exact fun s => (ih _).trans (declareField_schemaJson s f)
  exact hrun s.ensureInit

/-! ## What is published -/

theorem ne_nil_of_publishesSchema {decls : List FieldDecl} {json : Bytes}
    (h : PublishesSchema mem decls json) : json ≠ [] := by
  obtain ⟨ts, rows, hspells, -⟩ := h
  obtain ⟨-, -, hx⟩ := hspells
  cases hx with
  | list _ => simp

theorem publishesSchema_serialize {fields : StringMap FieldDecl} {decls : List FieldDecl}
    (h : Holds mem fields decls) {order : MapOrder FieldDecl} {ts json : Bytes}
    (hjson : serializeSchema mem order ts fields = some json) : PublishesSchema mem decls json := by
  have hmem := order.mem_entries fields
  have hkey : ∀ kv ∈ order.entries fields, textAt mem kv.2.key = kv.1 := by
    intro kv hkv
    have hlookup := (hmem kv.1 kv.2).mp hkv
    rw [h kv.1] at hlookup
    by_cases hnil : kv.1 = []
    · rw [if_pos hnil] at hlookup
      exact absurd hlookup (by simp)
    · rw [if_neg hnil] at hlookup
      exact key_of_lastDeclared hlookup
  unfold serializeSchema at hjson
  by_cases hempty : fields = ∅
  · rw [if_pos hempty] at hjson
    exact absurd hjson (by simp)
  rw [if_neg hempty, Option.some.injEq] at hjson
  have hne : (order.entries fields).map Prod.snd ≠ [] := by
    simpa using order.entries_ne_nil hempty
  refine ⟨cstr ts, _, hjson ▸ spellsSchema_schemaText mem ts hne, ?_, ?_⟩
  · have hkeys : (((order.entries fields).map Prod.snd).map (rowOf mem)).map (·.key) =
        (order.entries fields).map Prod.fst := by
      rw [List.map_map, List.map_map]
      exact List.map_congr_left hkey
    rw [hkeys]
    exact order.nodup_keys fields
  · intro r
    constructor
    · intro hr
      obtain ⟨f, hf, rfl⟩ := List.mem_map.mp hr
      obtain ⟨kv, hkv, rfl⟩ := List.mem_map.mp hf
      have hlookup := (hmem kv.1 kv.2).mp hkv
      rw [h kv.1] at hlookup
      have hrow : (rowOf mem kv.2).key = kv.1 := hkey kv hkv
      rw [hrow]
      by_cases hnil : kv.1 = []
      · rw [if_pos hnil] at hlookup
        exact absurd hlookup (by simp)
      · rw [if_neg hnil] at hlookup
        exact ⟨hnil, kv.2, hlookup, rfl⟩
    · rintro ⟨hnil, f, hf, hrow⟩
      have hlookup := h r.key
      rw [if_neg hnil, hf] at hlookup
      have hentry := (hmem r.key f).mpr hlookup
      rw [← hrow]
      exact List.mem_map_of_mem (List.mem_map_of_mem hentry)

theorem publishesSchema_append {decls src : List FieldDecl} {json : Bytes}
    (h : PublishesSchema mem decls json)
    (hsame : ∀ key f, key ≠ [] → lastDeclared mem src key = some f →
      ∃ g, lastDeclared mem decls key = some g ∧ rowOf mem g = rowOf mem f) :
    PublishesSchema mem (decls ++ src) json := by
  obtain ⟨ts, rows, hspells, hnodup, hrows⟩ := h
  refine ⟨ts, rows, hspells, hnodup, fun r => ?_⟩
  rw [hrows, lastDeclared_append]
  apply and_congr_right
  intro hnil
  cases hlast : lastDeclared mem src r.key with
  | none => rfl
  | some f =>
      obtain ⟨g, hg, hrow⟩ := hsame r.key f hnil hlast
      rw [hg]
      simp [hrow]

/-! ## Runs -/

structure Follows (mem : Address → Bytes) (t : DeclareRun) : Prop where
  holds : Holds mem t.state.fields t.decls
  published : ∀ json, t.state.schemaJson = some json → PublishesSchema mem t.decls json

theorem Follows.declare {t : DeclareRun} (h : Follows mem t) {order : MapOrder FieldDecl}
    {ts : Bytes} {src : List FieldDecl} (hkeeps : KeepsRows mem t (.declare order ts src)) :
    Follows mem (declareStep mem t (.declare order ts src)) := by
  have hmerge := holds_merge h.holds src
  unfold declareStep ConfigDeclareState.declare
  dsimp only
  by_cases hsrc : src = []
  · rw [if_pos hsrc, hsrc, List.append_nil]
    exact h
  rw [if_neg hsrc]
  by_cases hinc : (merge mem t.state src).incremental = true
  · rw [if_pos hinc]
    refine ⟨hmerge, fun json hjson => ?_⟩
    have hold : t.state.schemaJson = some json := (merge_schemaJson t.state src).symm.trans hjson
    exact publishesSchema_append (h.published json hold) (hkeeps hinc)
  · rw [if_neg hinc]
    exact ⟨hmerge, fun json hjson => publishesSchema_serialize hmerge hjson⟩

theorem Follows.write {t : DeclareRun} (h : Follows mem t) (key value : Bytes) :
    Follows mem (declareStep mem t (.write key value)) := by
  unfold declareStep ConfigDeclareState.write
  dsimp only
  split
  · exact h
  split
  · exact ⟨h.holds, h.published⟩
  · exact ⟨h.holds, h.published⟩

theorem follows_of_reachable {t : DeclareRun}
    (h : (declareMachine mem).ReachableMeeting (KeepsRows mem) t) : Follows mem t := by
  refine h.invariant ?_ ?_
  · refine ⟨fun k => ?_, fun json hjson => absurd hjson (by simp [declareMachine])⟩
    simp [declareMachine, lastDeclared]
  · rintro t e t' hfollows hmeets hstep
    cases hstep
    cases e with
    | declare order ts src => exact hfollows.declare hmeets
    | write key value => exact hfollows.write key value
    | clearDirty => exact ⟨hfollows.holds, hfollows.published⟩
    | reset =>
        refine ⟨fun k => ?_, fun json hjson => absurd hjson (by simp [declareStep, reset])⟩
        simp [declareStep, reset, lastDeclared]

theorem schemaJson_of_declared {s : ConfigDeclareState} {order : MapOrder FieldDecl} {ts : Bytes}
    {src : List FieldDecl} (h : (s.declare mem order ts src).1 = 0) :
    ∃ json, (s.declare mem order ts src).2.schemaJson = some json := by
  unfold ConfigDeclareState.declare at h ⊢
  dsimp only at h ⊢
  by_cases hsrc : src = []
  · rw [if_pos hsrc] at h
    exact absurd h (by simp)
  rw [if_neg hsrc] at h ⊢
  by_cases hinc : (merge mem s src).incremental = true
  · rw [if_pos hinc]
    unfold incremental at hinc
    rw [Bool.and_eq_true] at hinc
    exact Option.isSome_iff_exists.mp hinc.2
  · rw [if_neg hinc] at h ⊢
    cases hjson : serializeSchema mem order ts (merge mem s src).fields with
    | none =>
        rw [hjson] at h
        exact absurd h (by simp)
    | some json => exact ⟨json, rfl⟩

/-- After a declaration the text lists the declarations, in every run whose calls
declare nothing new where they keep the text. -/
theorem published_after_declare {t : DeclareRun}
    (h : (declareMachine mem).ReachableMeeting (KeepsRows mem) t) {order : MapOrder FieldDecl}
    {ts : Bytes} {src : List FieldDecl} (hkeeps : KeepsRows mem t (.declare order ts src))
    (hok : (t.state.declare mem order ts src).1 = 0) :
    ∃ json, (t.state.declare mem order ts src).2.getSchemaJson = some json ∧
      PublishesSchema mem (t.decls ++ src) json := by
  obtain ⟨json, hjson⟩ := schemaJson_of_declared hok
  have hpublished : PublishesSchema mem (t.decls ++ src) json :=
    ((follows_of_reachable h).declare hkeeps).published json hjson
  refine ⟨json, ?_, hpublished⟩
  have hne := ne_nil_of_publishesSchema hpublished
  rw [getSchemaJson, hjson]
  cases json with
  | nil => exact absurd rfl hne
  | cons c json => rfl

end Declarations

/-! ## A schema that is kept -/

section Paths

variable {mem : Address → Bytes} {s : ConfigDeclareState} {order : MapOrder FieldDecl} {ts : Bytes}
  {src : List FieldDecl}

theorem declare_anew (hsrc : src ≠ []) (hinc : ¬(merge mem s src).incremental = true)
    (hfields : (merge mem s src).fields ≠ ∅) :
    s.declare mem order ts src = (0, { merge mem s src with
      schemaJson := some (schemaText mem ts
        ((order.entries (merge mem s src).fields).map Prod.snd))
      lastSerializedCount := (merge mem s src).fields.keys.card }) := by
  rw [ConfigDeclareState.declare, if_neg hsrc]
  simp only [if_neg hinc, serializeSchema, if_neg hfields, Option.isSome_some, if_true]

theorem declare_kept (hsrc : src ≠ []) (hinc : (merge mem s src).incremental = true) :
    s.declare mem order ts src = (0, { merge mem s src with
      lastSerializedCount := (merge mem s src).fields.keys.card }) := by
  rw [ConfigDeclareState.declare, if_neg hsrc]
  simp only [if_pos hinc]

end Paths

def letterAt (p : Address) : Bytes := [UInt8.ofNat (64 + p)]

/-- A field with its key at `p` and its default at `d`. -/
def letterField (p d : Address) : FieldDecl := ⟨p, 2, d, 0, false, []⟩

/-- The fields `A` to `K`, each with the default `a`. -/
def elevenFields : List FieldDecl := (List.range 11).map fun p => letterField (p + 1) 33

/-- One field is declared; its text is made anew. -/
theorem oneField_published :
    ∃ json, (({} : ConfigDeclareState).declare letterAt default []
        [letterField 1 33]).2.getSchemaJson = some json ∧
      PublishesSchema letterAt [letterField 1 33] json := by
  apply published_after_declare (.init (declareMachine letterAt) _)
  · intro hinc
    exact absurd hinc (by decide)
  · have hanew : ({} : ConfigDeclareState).declare letterAt default [] [letterField 1 33] = (0, _) :=
      declare_anew (List.cons_ne_nil _ _) (by decide) (by decide)
    exact congrArg Prod.fst hanew

section Bytes

variable {α : Type} {P : α → Bytes → Prop}

theorem subset_of_spellsList {as : List α} {x : Bytes} (h : SpellsList P as x) {a : α}
    (ha : a ∈ as) : ∃ y, y ⊆ x ∧ P a y := by
  induction h with
  | @last b ws y ws' _ hy _ =>
      rw [List.mem_singleton.mp ha]
      exact ⟨y, fun c hc => by simp [hc], hy⟩
  | @more b bs ws y ws' z _ hy _ _ ih =>
      rcases List.mem_cons.mp ha with rfl | ha
      · exact ⟨y, fun c hc => by simp [hc], hy⟩
      · obtain ⟨u, hsub, hu⟩ := ih ha
        exact ⟨u, fun c hc => by simp [hsub hc], hu⟩

theorem subset_of_spellsBracketed {opening closing : UInt8} {as : List α} {x : Bytes}
    (h : SpellsBracketed opening closing P as x) {a : α} (ha : a ∈ as) : ∃ y, y ⊆ x ∧ P a y := by
  cases h with
  | nil _ => exact absurd ha List.not_mem_nil
  | list hlist =>
      obtain ⟨y, hsub, hy⟩ := subset_of_spellsList hlist ha
      exact ⟨y, fun c hc => by simp [hsub hc], hy⟩

theorem subset_of_spellsNamed {name x : Bytes} {value : Bytes → Prop}
    (h : SpellsNamed (name, value) x) : ∃ y, y ⊆ x ∧ value y := by
  cases h with
  | mk _ _ _ hy => exact ⟨_, fun c hc => by simp [hc], hy⟩

theorem eq_of_spells {s t : Bytes} (h : SpellsJsonString s t) (hslash : ch '\\' ∉ t) : t = s := by
  induction h with
  | nil => rfl
  | raw _ _ _ _ ih => rw [ih fun hmem => hslash (List.mem_cons_of_mem _ hmem)]
  | escape _ _ _ => exact absurd List.mem_cons_self hslash
  | unicode _ _ _ _ => exact absurd List.mem_cons_self hslash
  | surrogates _ _ _ _ _ _ _ _ => exact absurd List.mem_cons_self hslash

theorem subset_of_spellsQuoted {s x : Bytes} (h : SpellsQuoted s x) (hslash : ch '\\' ∉ x) :
    s ⊆ x := by
  cases h with
  | mk ht =>
      rw [← eq_of_spells ht fun hmem => hslash (by simp [hmem])]
      exact fun c hc => by simp [hc]

theorem default_subset_of_spellsRow {r : SchemaRow} {x : Bytes} (h : SpellsRow r x)
    (hslash : ch '\\' ∉ x) : r.default ⊆ x := by
  have hmember : (ascii "default", SpellsQuoted r.default) ∈ r.members := by
    simp [SchemaRow.members]
  obtain ⟨y, hy, hnamed⟩ := subset_of_spellsBracketed h hmember
  obtain ⟨z, hz, hquoted⟩ := subset_of_spellsNamed hnamed
  have hin : z ⊆ x := List.Subset.trans hz hy
  exact List.Subset.trans (subset_of_spellsQuoted hquoted fun hmem => hslash (hin hmem)) hin

theorem subset_of_spellsSchema {ts json : Bytes} {rows : List SchemaRow}
    (h : SpellsSchema ts rows json) {r : SchemaRow} (hr : r ∈ rows) :
    ∃ y, y ⊆ json ∧ SpellsRow r y := by
  cases h with
  | @mk ws x ws' _ _ hobject =>
      have hmember : (ascii "fields", SpellsBracketed (ch '[') (ch ']') SpellsRow rows) ∈
          [(ascii "version", SpellsQuoted (ascii "1.0")), (ascii "generated_at", SpellsQuoted ts),
            (ascii "fields", SpellsBracketed (ch '[') (ch ']') SpellsRow rows)] := by simp
      obtain ⟨y, hy, hnamed⟩ := subset_of_spellsBracketed hobject hmember
      obtain ⟨z, hz, hitems⟩ := subset_of_spellsNamed hnamed
      obtain ⟨u, hu, hrow⟩ := subset_of_spellsBracketed hitems hr
      have hin : u ⊆ x := List.Subset.trans hu (List.Subset.trans hz hy)
      exact ⟨u, fun c hc => by simp [hin hc], hrow⟩

theorem default_subset {decls : List FieldDecl} {mem : Address → Bytes} {json : Bytes}
    (h : PublishesSchema mem decls json) (hslash : ch '\\' ∉ json) {k : Bytes} {f : FieldDecl}
    (hk : k ≠ []) (hf : lastDeclared mem decls k = some f) : textAt mem f.defaultStr ⊆ json := by
  obtain ⟨ts, rows, hspells, -, hrows⟩ := h
  have hkey : (rowOf mem f).key = k := key_of_lastDeclared hf
  have hr : rowOf mem f ∈ rows := (hrows _).mpr (hkey ▸ ⟨hk, f, hf, rfl⟩)
  obtain ⟨y, hy, hrow⟩ := subset_of_spellsSchema hspells hr
  have hdefault := default_subset_of_spellsRow hrow fun hmem => hslash (hy hmem)
  exact List.Subset.trans hdefault hy

theorem not_mem_intercalate {c : UInt8} {sep : Bytes} {xs : List Bytes} (hsep : c ∉ sep)
    (h : ∀ x ∈ xs, c ∉ x) : c ∉ sep.intercalate xs := by
  induction xs with
  | nil => simp
  | cons x xs ih =>
      rw [List.forall_mem_cons] at h
      cases xs with
      | nil => simpa using h.1
      | cons y ys =>
          rw [List.intercalate_cons_cons]
          simp [h.1, hsep, ih h.2]

end Bytes

theorem not_mem_schemaText {mem : Address → Bytes} {c : UInt8} (hsep : c ∉ ascii ",\n")
    (hframe : c ∉ schemaText mem [] []) {fields : List FieldDecl}
    (h : ∀ f ∈ fields, c ∉ fieldText mem f) : c ∉ schemaText mem [] fields := by
  have hrows : c ∉ (ascii ",\n").intercalate (fields.map (fieldText mem)) := by
    apply not_mem_intercalate hsep
    intro x hx
    obtain ⟨f, hf, rfl⟩ := List.mem_map.mp hx
    exact h f hf
  unfold schemaText at hframe ⊢
  simp only [List.mem_append, not_or] at hframe ⊢
  simp only [hrows, hframe, not_false_eq_true, and_self]

theorem not_mem_elevenText {c : UInt8} (hsep : c ∉ ascii ",\n")
    (hframe : c ∉ schemaText letterAt [] []) (h : ∀ f ∈ elevenFields, c ∉ fieldText letterAt f) :
    c ∉ schemaText letterAt [] (((default : MapOrder FieldDecl).entries
      (merge letterAt {} elevenFields).fields).map Prod.snd) := by
  apply not_mem_schemaText hsep hframe
  intro f hf
  obtain ⟨kv, hkv, rfl⟩ := List.mem_map.mp hf
  have hlookup := (MapOrder.mem_entries _ _ kv.1 kv.2).mp hkv
  have hholds : Holds letterAt ∅ [] := fun k => by simp [lastDeclared]
  rw [holds_merge (s := {}) hholds elevenFields kv.1] at hlookup
  split at hlookup
  · exact absurd hlookup (by simp)
  · exact h _ (List.mem_of_mem_filter (List.mem_of_getLast? hlookup))

theorem schemaJson_of_getSchemaJson {s : ConfigDeclareState} {json : Bytes}
    (h : s.getSchemaJson = some json) : s.schemaJson = some json := by
  unfold getSchemaJson at h
  split at h
  · exact absurd h (by simp)
  · exact h

noncomputable def elevenDeclared : DeclareRun :=
  declareStep letterAt (declareStep letterAt {} (.declare default [] elevenFields)) .clearDirty

/-- The default `Z` of the key `A` is declared, and the text has no `Z`. -/
theorem newDefault_not_published :
    (elevenDeclared.state.declare letterAt default [] [letterField 1 26]).1 = 0 ∧
      ¬∃ json, (elevenDeclared.state.declare letterAt default []
          [letterField 1 26]).2.getSchemaJson = some json ∧
        PublishesSchema letterAt (elevenDeclared.decls ++ [letterField 1 26]) json := by
  have hfields : (merge letterAt {} elevenFields).fields ≠ ∅ := by decide
  have hfirst : ({} : ConfigDeclareState).declare letterAt default [] elevenFields = (0, _) :=
    declare_anew (by decide) (by decide) hfields
  have hstate : elevenDeclared.state =
      clearDirty (({} : ConfigDeclareState).declare letterAt default [] elevenFields).2 := rfl
  rw [hfirst] at hstate
  have hinc : (merge letterAt elevenDeclared.state [letterField 1 26]).incremental = true := by
    rw [hstate]
    decide
  rw [declare_kept (by decide) hinc]
  refine ⟨rfl, ?_⟩
  rintro ⟨json, hjson, hpublished⟩
  have htext := schemaJson_of_getSchemaJson hjson
  rw [merge_schemaJson, hstate] at htext
  have hjson' : schemaText letterAt [] _ = json := Option.some.inj htext
  have hdefault := default_subset (k := [65]) (f := letterField 1 26) hpublished
    (hjson' ▸ not_mem_elevenText (by decide) (by decide) (by decide)) (by decide) (by decide)
  apply not_mem_elevenText (c := ch 'Z') (by decide) (by decide) (by decide)
  rw [hjson']
  exact hdefault (by decide)

end BlessStar.Sdk.Proofs.SchemaPublishing
