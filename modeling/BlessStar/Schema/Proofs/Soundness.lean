import BlessStar.Schema.Proofs.FailFast

/-!
# What a validation without errors says

A value on which nothing is recorded obeys the rules that are checked.  It has
the declared structure as well exactly when the parts that are never looked at
have it.
-/

namespace BlessStar.Schema.Proofs.Soundness

open Lib.ByteString Schema Schema.Proofs.FailFast

/-- A value on which collecting records no error has the structure that the
schema declares. -/
def ValidationSound (env : ValidatorEnv) (registry : List SchemaEntry) (id ver : Bytes)
    (config : Value) : Prop :=
  ∀ entry, registry.find? (fun entry => entry.schemaId = id && entry.version = ver) = some entry →
    (schemaValidate env registry id ver config false).errors = [] →
      Structured entry.rootFields config

/-- A value that obeys the rules has the declared structure in the parts that
are not looked at. -/
def SkippedPartsFit (env : ValidatorEnv) (registry : List SchemaEntry) (id ver : Bytes)
    (config : Value) : Prop :=
  ∀ entry, registry.find? (fun entry => entry.schemaId = id && entry.version = ver) = some entry →
    Conforms env entry.rootFields config →
      SkippedPartsHold config.objFields entry.rootFields

variable {env : ValidatorEnv}

theorem entryConforms_iff {info : FieldInfo} {found : Option Value} {P : Value → Prop} :
    EntryConforms info found P ↔
      (found = none ∨ found = some .null → info.required = false) ∧
        ∀ val, found = some val → val ≠ .null → P val := by
  cases found with
  | none => simp [EntryConforms]
  | some val => cases val <;> simp [EntryConforms]

theorem hasDeclaredType_of_ownRules {info : FieldInfo} {val : Value}
    (h : OwnRulesHold env info val) (hlist : info.type = .enum → info.enumValues ≠ none) :
    HasDeclaredType info val := by
  refine ⟨h.type, ?_⟩
  intro henum
  cases hvalues : info.enumValues with
  | none => exact absurd hvalues (hlist henum)
  | some values =>
      have hfails := h.enum
      simpa [enumFails, hvalues, henum] using hfails

mutual

theorem fieldsStructured_of_conform (kvs : List (Bytes × Value)) : ∀ fds : List FieldDef,
    FieldsConform env kvs fds → SkippedPartsHold kvs fds → FieldsStructured kvs fds
  | [], _, _ => trivial
  | fd :: fds, hconform, hskipped => by
      rw [FieldsConform] at hconform
      rw [SkippedPartsHold] at hskipped
      rw [FieldsStructured]
      refine ⟨?_, fieldsStructured_of_conform kvs fds hconform.2 hskipped.2⟩
      obtain ⟨hrequired, hpresent⟩ := entryConforms_iff.mp hconform.1
      apply entryConforms_iff.mpr
      refine ⟨hrequired, ?_⟩
      intro val hfound hnull
      exact fieldStructured_of_conforms val fd (hpresent val hfound hnull)
        (hskipped.1 val hfound hnull)

theorem fieldStructured_of_conforms (val : Value) : ∀ fd : FieldDef,
    FieldConforms env fd val → SkippedPartsHoldIn fd val → FieldStructured fd val
  | .mk info nested elems, hconforms, hskipped => by
      rw [FieldConforms] at hconforms
      rw [SkippedPartsHoldIn] at hskipped
      rw [FieldStructured]
      obtain ⟨hown, hfields, hitems⟩ := hconforms
      obtain ⟨hlist, hskippedFields, hskippedItems⟩ := hskipped
      refine ⟨hasDeclaredType_of_ownRules hown hlist, ?_, ?_⟩
      · intro hobj
        exact fieldsStructured_of_conform _ nested (hfields hobj) (hskippedFields hobj)
      · intro harr item hitem
        have hskippedItem := hskippedItems harr item hitem
        split at hskippedItem
        · rename_i hvalidated
          have hvalidates : validatesElements info (!elems.isEmpty) = true := by
            simp [validatesElements, harr, hvalidated.1, hvalidated.2]
          obtain ⟨hobj, hitemFields⟩ := hitems hvalidates item hitem
          refine ⟨by rw [hobj, hvalidated.1]; rfl, ?_⟩
          intro _
          exact fieldsStructured_of_conform _ elems hitemFields hskippedItem
        · rename_i hnot
          refine ⟨hskippedItem, ?_⟩
          intro hobj
          cases elems with
          | nil => trivial
          | cons e es => exact absurd ⟨hobj, List.cons_ne_nil e es⟩ hnot

end

mutual

theorem skippedPartsHold_of_structured (kvs : List (Bytes × Value)) : ∀ fds : List FieldDef,
    FieldsStructured kvs fds → SkippedPartsHold kvs fds
  | [], _ => trivial
  | fd :: fds, h => by
      rw [FieldsStructured] at h
      rw [SkippedPartsHold]
      refine ⟨?_, skippedPartsHold_of_structured kvs fds h.2⟩
      intro val hfound hnull
      exact skippedPartsHoldIn_of_structured val fd ((entryConforms_iff.mp h.1).2 val hfound hnull)

theorem skippedPartsHoldIn_of_structured (val : Value) : ∀ fd : FieldDef,
    FieldStructured fd val → SkippedPartsHoldIn fd val
  | .mk info nested elems, h => by
      rw [FieldStructured] at h
      rw [SkippedPartsHoldIn]
      obtain ⟨htype, hfields, hitems⟩ := h
      refine ⟨?_, ?_, ?_⟩
      · intro henum hnone
        have hmem := htype.2 henum
        simp [hnone] at hmem
      · intro hobj
        exact skippedPartsHold_of_structured _ nested (hfields hobj)
      · intro harr item hitem
        obtain ⟨hitemType, hitemFields⟩ := hitems harr item hitem
        split
        · rename_i hvalidated
          exact skippedPartsHold_of_structured _ elems (hitemFields hvalidated.1)
        · exact hitemType

end

theorem errors_eq_nil_iff {registry : List SchemaEntry} {id ver : Bytes} {entry : SchemaEntry}
    (hfind : registry.find? (fun entry => entry.schemaId = id && entry.version = ver) = some entry)
    (config : Value) :
    (schemaValidate env registry id ver config false).errors = [] ↔
      Conforms env entry.rootFields config := by
  obtain ⟨fs, hfs, hnil, -⟩ := callTells_validateFields env entry.rootFields config []
  simp only [schemaValidate, hfind, hfs.collecting, List.nil_append, List.map_eq_nil_iff]
  exact hnil

/-- **Validation is sound for structure** exactly where the parts that are never
looked at fit. -/
theorem validation_sound_iff (env : ValidatorEnv) (registry : List SchemaEntry) (id ver : Bytes)
    (config : Value) :
    ValidationSound env registry id ver config ↔ SkippedPartsFit env registry id ver config := by
  constructor
  · intro hsound entry hfind hconforms
    have hstructured := hsound entry hfind ((errors_eq_nil_iff hfind config).mpr hconforms)
    by_cases hempty : entry.rootFields = []
    · rw [hempty]
      trivial
    · exact skippedPartsHold_of_structured _ _ (hstructured hempty).2
  · intro hfit entry hfind herrors hempty
    have hconforms := (errors_eq_nil_iff hfind config).mp herrors
    obtain ⟨hobj, hfields⟩ := hconforms hempty
    exact ⟨hobj, fieldsStructured_of_conform _ _ hfields (hfit entry hfind hconforms)⟩

/-- A schema with an array of `i32`. -/
def arrayRegistry : List SchemaEntry :=
  [{  schemaId := ascii "s"
      version := ascii "1.0"
      rootFields := [.mk { name := ascii "a", type := .arr, elemType := .i32 } [] []] }]

/-- A string among the elements is not noticed. -/
theorem array_of_strings_accepted :
    (schemaValidate plainEnv arrayRegistry (ascii "s") (ascii "1.0")
        (.obj [(ascii "a", .arr [.str (ascii "x")])]) false).errors = [] ∧
      ¬ValidationSound plainEnv arrayRegistry (ascii "s") (ascii "1.0")
        (.obj [(ascii "a", .arr [.str (ascii "x")])]) := by
  refine ⟨rfl, ?_⟩
  intro hsound
  have hstructured := hsound _ rfl rfl (List.cons_ne_nil _ _)
  have hitem : (Value.str (ascii "x")).type = expectedValueType .i32 :=
    (hstructured.2.1.2.2 rfl (.str (ascii "x")) List.mem_cons_self).1
  cases hitem

end BlessStar.Schema.Proofs.Soundness
