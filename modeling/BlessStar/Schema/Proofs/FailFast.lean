import BlessStar.Schema.Validator

/-!
# Fail-fast against collecting

What a validation finds, for fields, elements and whole configurations: nothing
exactly when the value conforms, and first a finding that a fail-fast run passes
over exactly when the first violation is one of nested fields, which are
validated without `fail_fast`.
-/

namespace BlessStar.Schema.Proofs.FailFast

open Lib.ByteString Lib.Reporting Schema

/-- What the two runs of a validation tell, for one schema and one value: the
fail-fast run fails exactly when the other records an error, and records the
first of its errors. -/
def FailFastAgrees (env : ValidatorEnv) (registry : List SchemaEntry) (id ver : Bytes)
    (config : Value) : Prop :=
  let all := schemaValidate env registry id ver config false
  let fast := schemaValidate env registry id ver config true
  (fast.status = .validation ↔ all.errors ≠ []) ∧ fast.errors = all.errors.take 1

variable (env : ValidatorEnv)

theorem tells_appendError (e : ValidationError) :
    Tells .validation (fun b => appendError b e) False False :=
  Finds.tells_single (e := e)
    ⟨fun log => by simp [appendError], fun log => by simp [appendError, upToStop]⟩

theorem tells_ite (bad : Bool) (e : ValidationError) :
    Tells .validation (fun b => if bad then appendError b e else .pass) (bad = false) False := by
  cases bad with
  | false => exact Tells.pass.congr (by simp) Iff.rfl
  | true => exact (tells_appendError e).congr (by simp) Iff.rfl

theorem tells_option {α : Type} {s : Bool → SchemaStep} {failed : Option α}
    (hnone : failed = none → ∀ b, s b = .pass)
    (hsome : ∀ a, failed = some a → ∃ e, ∀ b, s b = appendError b e) :
    Tells .validation s (failed = none) False := by
  cases failed with
  | none =>
      obtain rfl : s = fun _ => Step.pass := funext (hnone rfl)
      exact Tells.pass.congr (by simp) Iff.rfl
  | some a =>
      obtain ⟨e, he⟩ := hsome a rfl
      obtain rfl : s = fun b => appendError b e := funext he
      exact (tells_appendError e).congr (by simp) Iff.rfl

theorem tells_patternCheck (info : FieldInfo) (val : Value) (path : Bytes) :
    Tells .validation (fun b => patternCheck env b info val path)
      (failedPattern env info val = none) False := by
  apply tells_option
  · intro h b
    rw [patternCheck, h]
  · intro pattern h
    exact ⟨_, fun b => by rw [patternCheck, h]⟩

theorem tells_customCheck (info : FieldInfo) (val : Value) (path : Bytes) :
    Tells .validation (fun b => customCheck env b info val path)
      (failedCustom env info val = none) False := by
  apply tells_option
  · intro h b
    rw [customCheck, h]
  · intro failed h
    exact ⟨_, fun b => by rw [customCheck, h]⟩

theorem tells_ownChecks (info : FieldInfo) (val : Value) (path : Bytes)
    (htype : val.type = expectedValueType info.type) :
    Tells .validation (fun b => ownChecks env b info val path) (OwnRulesHold env info val)
      False := by
  have henum : Tells .validation (fun b => enumCheck b info val path)
      (enumFails info val = false) False := tells_ite _ _
  have hmin : Tells .validation (fun b => minCheck env b info val path)
      (belowMin info val = false) False := tells_ite _ _
  have hmax : Tells .validation (fun b => maxCheck env b info val path)
      (aboveMax info val = false) False := tells_ite _ _
  have hall := henum.andThen (hmin.andThen (hmax.andThen
    ((tells_patternCheck env info val path).andThen (tells_customCheck env info val path))))
  refine Tells.congr hall ?_ ?_
  · constructor
    · rintro ⟨h1, h2, h3, h4, h5⟩
      exact ⟨htype, h1, h2, h3, h4, h5⟩
    · rintro ⟨-, h1, h2, h3, h4, h5⟩
      exact ⟨h1, h2, h3, h4, h5⟩
  · simp

/-- **The body of a field**, from what its nested fields and its elements tell. -/
theorem callTells_fieldBody (info : FieldInfo) (val : Value) (path : Bytes) (hasNested : Bool)
    {nested : SchemaCall} {elements : Bool → SchemaStep}
    {nestedClean elementsClean elementsPass : Prop}
    (hnested : val.type = expectedValueType info.type → info.type = .obj → hasNested = true →
      Tells .validation (fun b => Step.call .ok b nested) nestedClean (¬nestedClean))
    (helements : Tells .validation elements elementsClean elementsPass) :
    CallTells .ok .validation
      (fun b => fieldBody env b info val path hasNested nested (elements b))
      (OwnRulesHold env info val ∧ (info.type = .obj → hasNested = true → nestedClean) ∧
        elementsClean)
      (OwnRulesHold env info val ∧
        ((info.type = .obj ∧ hasNested = true ∧ ¬nestedClean) ∨
          ((info.type = .obj → hasNested = true → nestedClean) ∧ elementsPass))) := by
  by_cases htype : val.type = expectedValueType info.type
  · have htypeCheck : ∀ b rest, (typeCheck b info val path).andThen rest = rest := by
      intro b rest
      funext log
      simp [Step.andThen, typeCheck, htype]
    have hnestedStep : Tells .validation
        (fun b => if info.type = .obj ∧ hasNested = true then Step.call .ok b nested
          else Step.pass)
        (info.type = .obj → hasNested = true → nestedClean)
        (info.type = .obj ∧ hasNested = true ∧ ¬nestedClean) := by
      by_cases hobj : info.type = .obj ∧ hasNested = true
      · simp only [if_pos hobj]
        exact (hnested htype hobj.1 hobj.2).congr (by simp [hobj]) (by simp [hobj])
      · simp only [if_neg hobj]
        refine Tells.pass.congr ?_ ?_
        · simp only [true_iff]
          intro h1 h2
          exact absurd ⟨h1, h2⟩ hobj
        · simp only [false_iff]
          rintro ⟨h1, h2, -⟩
          exact hobj ⟨h1, h2⟩
    have hall := (tells_ownChecks env info val path htype).andThen
      (hnestedStep.andThen helements)
    obtain ⟨fs, hfs, hnil, hfirst⟩ := hall.finish SchemaStatus.ok
    refine ⟨fs, ?_, hnil, ?_⟩
    · simp only [fieldBody, htypeCheck]
      exact hfs
    · rw [hfirst]
      simp
  · have hmismatch : CallTells SchemaStatus.ok .validation
        (fun b => fieldBody env b info val path hasNested nested (elements b)) False False := by
      apply CallFinds.tells_single
        (e := info.error path (ascii "type") (ascii "type=" ++ schemaTypeName info.type)
          (valueTypeName val.type))
      constructor
      · intro log
        simp [fieldBody, Step.finish, Step.andThen, typeCheck, htype]
      · intro log
        simp [fieldBody, Step.finish, Step.andThen, typeCheck, htype, upToStop]
    apply hmismatch.congr
    · simp only [false_iff]
      rintro ⟨hown, -⟩
      exact htype hown.type
    · simp only [false_iff]
      rintro ⟨hown, -⟩
      exact htype hown.type

theorem tells_withObject (val : Value) (path : Bytes)
    {loop : Bool → List (Bytes × Value) → SchemaStep} {clean : List (Bytes × Value) → Prop}
    {passes : List (Bytes × Value) → Prop}
    (h : ∀ kvs, Tells .validation (fun b => loop b kvs) (clean kvs) (passes kvs)) :
    CallTells .ok .validation (fun b => withObject b val path (loop b))
      (val.type = .obj ∧ clean val.objFields) (val.type = .obj ∧ passes val.objFields) := by
  have hother : ∀ val : Value, val.type ≠ .obj →
      (∀ b log, withObject b val path (loop b) log =
        (if b then SchemaStatus.validation else .ok,
          log ++ [⟨path, ascii "type", ascii "obj", valueTypeName val.type, []⟩])) →
      CallTells .ok .validation (fun b => withObject b val path (loop b))
        (val.type = .obj ∧ clean val.objFields) (val.type = .obj ∧ passes val.objFields) := by
    intro val hval hbody
    have hsingle : CallTells .ok .validation (fun b => withObject b val path (loop b)) False
        False :=
      CallFinds.tells_single (e := ⟨path, ascii "type", ascii "obj", valueTypeName val.type, []⟩)
        ⟨fun log => by simp [hbody], fun log => by simp [hbody, upToStop]⟩
    exact hsingle.congr (by simp [hval]) (by simp [hval])
  cases val with
  | obj kvs =>
      obtain ⟨fs, hfs, hnil, hfirst⟩ := (h kvs).finish SchemaStatus.ok
      exact ⟨fs, ⟨hfs.collecting, hfs.stopping⟩, by simp [hnil, Value.type, Value.objFields],
        by simp [hfirst, Value.type, Value.objFields]⟩
  | null => exact hother .null (by simp [Value.type]) (fun b log => rfl)
  | bool x => exact hother (.bool x) (by simp [Value.type]) (fun b log => rfl)
  | i32 n => exact hother (.i32 n) (by simp [Value.type]) (fun b log => rfl)
  | i64 n => exact hother (.i64 n) (by simp [Value.type]) (fun b log => rfl)
  | f64 x => exact hother (.f64 x) (by simp [Value.type]) (fun b log => rfl)
  | str x => exact hother (.str x) (by simp [Value.type]) (fun b log => rfl)
  | arr items => exact hother (.arr items) (by simp [Value.type]) (fun b log => rfl)

theorem tells_fieldStep (info : FieldInfo) (path : Bytes) (found : Option Value)
    {validate : Bool → Value → SchemaCall} {clean passes : Value → Prop}
    (h : ∀ val, CallTells .ok .validation (fun b => validate b val) (clean val) (passes val)) :
    Tells .validation (fun b => fieldStep b info path found (validate b))
      (EntryConforms info found clean)
      (∃ val, found = some val ∧ val ≠ .null ∧ passes val) := by
  have hpresent : ∀ val : Value, val ≠ .null →
      Tells .validation (fun b => Step.call .ok b (validate b val)) (clean val)
        (∃ val', some val = some val' ∧ val' ≠ .null ∧ passes val') := by
    intro val hval
    refine ((h val).call (by simp)).congr Iff.rfl ?_
    constructor
    · intro hpasses
      exact ⟨val, rfl, hval, hpasses⟩
    · rintro ⟨val', heq, -, hpasses⟩
      cases heq
      exact hpasses
  match found with
  | none =>
      have hmissing := tells_ite info.required (info.error path (ascii "required")
        (ascii "required field must be present and non-null") (ascii "absent"))
      exact hmissing.congr Iff.rfl (by simp)
  | some .null =>
      have hnull := tells_ite info.required (info.error path (ascii "required")
        (ascii "required field must be present and non-null") (valueTypeName .null))
      exact hnull.congr Iff.rfl (by simp)
  | some (.bool x) => exact hpresent (.bool x) (by simp)
  | some (.i32 n) => exact hpresent (.i32 n) (by simp)
  | some (.i64 n) => exact hpresent (.i64 n) (by simp)
  | some (.f64 x) => exact hpresent (.f64 x) (by simp)
  | some (.str x) => exact hpresent (.str x) (by simp)
  | some (.arr items) => exact hpresent (.arr items) (by simp)
  | some (.obj kvs) => exact hpresent (.obj kvs) (by simp)

theorem ownRulesHold_elemInfo (info : FieldInfo) (val : Value) :
    OwnRulesHold env (elemInfo info) val ↔ val.type = .obj := by
  constructor
  · intro h
    exact h.type
  · intro h
    exact ⟨h, rfl, rfl, rfl, rfl, rfl⟩

theorem tells_elementsLoop (elems : List FieldDef) (path : Bytes)
    {validate : Bool → Value → Bytes → SchemaCall}
    (h : ∀ item path, CallTells .ok .validation (fun b => validate b item path)
      (item.type = .obj ∧ FieldsConform env item.objFields elems)
      (item.type = .obj ∧ ¬FieldsConform env item.objFields elems))
    (i : Nat) (items : List Value) :
    Tells .validation (fun b => elementsLoop b path (validate b) i items)
      (∀ item ∈ items, item.type = .obj ∧ FieldsConform env item.objFields elems)
      (NestedFirstElement env elems items) := by
  induction items generalizing i with
  | nil =>
      refine Tells.pass.congr (by simp) ?_
      simp only [false_iff]
      intro hfirst
      cases hfirst
  | cons item items ih =>
      have hitem := ((h item (elemPath path i)).call (by simp)).andThen (ih (i + 1))
      refine hitem.congr (by simp) ?_
      constructor
      · rintro (⟨hobj, hbad⟩ | ⟨⟨hobj, hgood⟩, hrest⟩)
        · exact .here hobj hbad
        · exact .later hobj hgood hrest
      · intro hfirst
        cases hfirst with
        | here hobj hbad => exact Or.inl ⟨hobj, hbad⟩
        | later hobj hgood hrest => exact Or.inr ⟨⟨hobj, hgood⟩, hrest⟩

theorem tells_nestedCall {fields : List FieldDef} {val : Value} {path : Bytes}
    (h : ∀ kvs, Tells .validation (fun b => validateLoop env b kvs path fields)
      (FieldsConform env kvs fields) (NestedFirst env kvs fields))
    (hobj : val.type = .obj) :
    Tells .validation
      (fun b => Step.call .ok b
        (withObject false val path fun kvs => validateLoop env false kvs path fields))
      (FieldsConform env val.objFields fields) (¬FieldsConform env val.objFields fields) := by
  have hcollecting := (tells_withObject val path h).call_collecting
  exact hcollecting.congr (by simp [hobj]) (by simp [hobj])

theorem callTells_element {elems : List FieldDef} (info : FieldInfo) (hne : elems ≠ [])
    (h : ∀ kvs path, Tells .validation (fun b => validateLoop env b kvs path elems)
      (FieldsConform env kvs elems) (NestedFirst env kvs elems))
    (item : Value) (path : Bytes) :
    CallTells .ok .validation
      (fun b => fieldBody env b (elemInfo info) item path (!elems.isEmpty)
        (withObject false item path fun kvs => validateLoop env false kvs path elems) .pass)
      (item.type = .obj ∧ FieldsConform env item.objFields elems)
      (item.type = .obj ∧ ¬FieldsConform env item.objFields elems) := by
  have hnonempty : (!elems.isEmpty) = true := by simpa using hne
  have hbody := callTells_fieldBody env (elemInfo info) item path true
    (fun htype _ _ => tells_nestedCall env (fun kvs => h kvs path) htype) Tells.pass
  rw [hnonempty]
  have htype : (elemInfo info).type = .obj := rfl
  refine hbody.congr ?_ ?_
  · simp [ownRulesHold_elemInfo, htype]
  · simp [ownRulesHold_elemInfo, htype]

mutual

theorem tells_validateLoop (config : List (Bytes × Value)) (path : Bytes) :
    ∀ fds : List FieldDef, Tells .validation (fun b => validateLoop env b config path fds)
      (FieldsConform env config fds) (NestedFirst env config fds)
  | [] => by
      refine Tells.pass.congr ?_ ?_
      · rw [FieldsConform]
      · simp only [false_iff]
        intro hfirst
        cases hfirst
  | fd :: fds => by
      have hfd := tells_fieldStep fd.info (buildPath path fd.info.name)
        (findFieldValue config fd.info.name)
        fun val => callTells_validateFieldInternal val (buildPath path fd.info.name) fd
      have hboth := hfd.andThen (tells_validateLoop config path fds)
      simp only [validateLoop]
      refine hboth.congr ?_ ?_
      · rw [FieldsConform]
      · constructor
        · rintro (⟨val, hfound, hval, hin⟩ | ⟨hclean, hrest⟩)
          · exact .here hfound hval hin
          · exact .later hclean hrest
        · intro hfirst
          cases hfirst with
          | here hfound hval hin => exact Or.inl ⟨_, hfound, hval, hin⟩
          | later hclean hrest => exact Or.inr ⟨hclean, hrest⟩

theorem callTells_validateFieldInternal (val : Value) (path : Bytes) :
    ∀ fd : FieldDef, CallTells .ok .validation
      (fun b => validateFieldInternal env b fd val path) (FieldConforms env fd val)
      (NestedFirstIn env fd val)
  | .mk info nested elems => by
      have hnested := fun kvs => tells_validateLoop kvs path nested
      have helems := fun kvs path => tells_validateLoop kvs path elems
      have helements : Tells .validation
          (fun b => if validatesElements info (!elems.isEmpty) = true then
            elementsLoop b path (fun item elemPath =>
              fieldBody env b (elemInfo info) item elemPath (!elems.isEmpty)
                (withObject false item elemPath fun kvs =>
                  validateLoop env false kvs elemPath elems) .pass) 0 val.arrItems
            else Step.pass)
          (validatesElements info (!elems.isEmpty) = true → ∀ item ∈ val.arrItems,
            item.type = .obj ∧ FieldsConform env item.objFields elems)
          (validatesElements info (!elems.isEmpty) = true ∧
            NestedFirstElement env elems val.arrItems) := by
        by_cases hvalidates : validatesElements info (!elems.isEmpty) = true
        · have hne : elems ≠ [] := by
            rintro rfl
            simp [validatesElements] at hvalidates
          simp only [hvalidates, if_true]
          have hloop := tells_elementsLoop env elems path
            (callTells_element env info hne helems) 0 val.arrItems
          exact hloop.congr (by simp) (by simp)
        · simp only [hvalidates]
          exact Tells.pass.congr (by simp) (by simp)
      have hbody := callTells_fieldBody env info val path (!nested.isEmpty)
        (fun htype hobj _ => tells_nestedCall env hnested (by rw [htype, hobj]; rfl)) helements
      have hempty : (!nested.isEmpty) = true ∨ FieldsConform env val.objFields nested := by
        cases nested with
        | nil => exact Or.inr trivial
        | cons fd fds => exact Or.inl rfl
      have hexclusive : validatesElements info (!elems.isEmpty) = true → info.type ≠ .obj := by
        intro hvalidates hobj
        simp [validatesElements, hobj] at hvalidates
      simp only [validateFieldInternal]
      refine hbody.congr ?_ ?_
      · rw [FieldConforms]
        constructor
        · rintro ⟨hown, hfields, hitems⟩
          exact ⟨hown, fun hobj => hempty.elim (hfields hobj) id, hitems⟩
        · rintro ⟨hown, hfields, hitems⟩
          exact ⟨hown, fun hobj _ => hfields hobj, hitems⟩
      · rw [NestedFirstIn]
        constructor
        · rintro ⟨hown, ⟨hobj, -, hbad⟩ | ⟨-, hfirst⟩⟩
          · exact ⟨hown, Or.inl ⟨hobj, hbad⟩⟩
          · exact ⟨hown, Or.inr hfirst⟩
        · rintro ⟨hown, ⟨hobj, hbad⟩ | ⟨hvalidates, hfirst⟩⟩
          · exact ⟨hown, Or.inl ⟨hobj, hempty.resolve_right hbad, hbad⟩⟩
          · exact ⟨hown, Or.inr ⟨fun hobj => absurd hobj (hexclusive hvalidates),
              hvalidates, hfirst⟩⟩

end

/-- **A whole validation** finds nothing exactly on values that conform. -/
theorem callTells_validateFields (fields : List FieldDef) (config : Value) (path : Bytes) :
    CallTells .ok .validation (fun b => validateFields env b fields config path)
      (Conforms env fields config)
      (config.type = .obj ∧ NestedFirst env config.objFields fields) := by
  by_cases hempty : fields = []
  · subst hempty
    have hnone : ∀ kvs, ¬NestedFirst env kvs [] := by
      intro kvs hfirst
      cases hfirst
    refine ⟨[], ⟨fun log => by simp [validateFields], fun log => by
      simp [validateFields, upToStop]⟩, ?_, ?_⟩
    · simp [Conforms]
    · simp [not_passesFirst_nil, hnone]
  · have hobject := tells_withObject config path
      fun kvs => tells_validateLoop env kvs path fields
    obtain ⟨fs, hfs, hnil, hfirst⟩ := hobject
    refine ⟨fs, ⟨?_, ?_⟩, ?_, hfirst⟩
    · intro log
      rw [validateFields, if_neg hempty]
      exact hfs.collecting log
    · intro log
      rw [validateFields, if_neg hempty]
      exact hfs.stopping log
    · rw [hnil, Conforms]
      simp [hempty]

/-- In the first violation, the rule broken is one of nested fields. -/
def NestedViolationFirst (registry : List SchemaEntry) (id ver : Bytes) (config : Value) : Prop :=
  ∃ entry, registry.find? (fun entry => entry.schemaId = id && entry.version = ver) = some entry ∧
    config.type = .obj ∧ NestedFirst env config.objFields entry.rootFields

def plainEnv : ValidatorEnv where
  regexMatch _ _ := none
  evalExpr _ _ := (1, [])
  lookupFn _ := none
  globalFind _ := none
  formatG _ := []

/-- A schema whose object `o` has a required field `a`. -/
def nestedRegistry : List SchemaEntry :=
  [{  schemaId := ascii "s"
      version := ascii "1.0"
      rootFields :=
        [.mk { name := ascii "o", type := .obj }
          [.mk { name := ascii "a", required := true } [] []] []] }]

end BlessStar.Schema.Proofs.FailFast
