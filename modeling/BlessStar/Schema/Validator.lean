import BlessStar.Lib.Reporting
import BlessStar.Schema.Types

/-!
# The schema validator

`schema_validator.c` with `bs_schema_validate` of `schema_registry.c`.  The
regex library, the custom validators and the formatting of doubles are
parameters.  A function with an error list to append to is a step on that list.
-/

namespace BlessStar.Schema

open Lib.ByteString Lib.Reporting

/-- `bs_custom_validator_fn`: its status and the text it leaves in `err_buf`. -/
abbrev CustomValidator := Value → Int × Bytes

structure ValidatorEnv where
  /-- `regcomp` and `regexec`; `none` when the pattern does not compile. -/
  regexMatch : Bytes → Bytes → Option Bool
  /-- `bs_custom_validator_eval_expr`. -/
  evalExpr : Bytes → CustomValidator
  /-- `lookup_fn`. -/
  lookupFn : Bytes → Option CustomValidator
  /-- `bs_custom_validator_global_find`. -/
  globalFind : Bytes → Option CustomValidator
  /-- A double as `%g`. -/
  formatG : Float → Bytes

abbrev SchemaStep := Step ValidationError SchemaStatus

abbrev SchemaCall := Call ValidationError SchemaStatus

def schemaTypeName : SchemaType → Bytes
  | .str => ascii "str"
  | .i32 => ascii "i32"
  | .i64 => ascii "i64"
  | .f64 => ascii "f64"
  | .bool => ascii "bool"
  | .arr => ascii "arr"
  | .obj => ascii "obj"
  | .enum => ascii "enum"

def valueTypeName : ValueType → Bytes
  | .null => ascii "null"
  | .bool => ascii "bool"
  | .i32 => ascii "i32"
  | .i64 => ascii "i64"
  | .f64 => ascii "f64"
  | .str => ascii "str"
  | .arr => ascii "arr"
  | .obj => ascii "obj"

/-- `value_type_for_schema_type`, with the string for an enum that
`validate_field_internal` puts in its place. -/
def expectedValueType : SchemaType → ValueType
  | .str => .str
  | .i32 => .i32
  | .i64 => .i64
  | .f64 => .f64
  | .bool => .bool
  | .arr => .arr
  | .obj => .obj
  | .enum => .str

/-- `find_field_value` in the fields of an object. -/
def findFieldValue (fields : List (Bytes × Value)) (name : Bytes) : Option Value :=
  (fields.find? fun kv => kv.1 = name).map (·.2)

def buildPath (parent name : Bytes) : Bytes :=
  if parent = [] then name else parent ++ ascii "." ++ name

def valueToDouble : Value → Float
  | .i32 n => n.toFloat
  | .i64 n => n.toFloat
  | .f64 x => x
  | _ => 0

/-- `append_error`, with the return that `fail_fast` asks for. -/
def appendError (failFast : Bool) (e : ValidationError) : SchemaStep := fun log =>
  (if failFast then some .validation else none, log ++ [e])

def FieldInfo.error (info : FieldInfo) (path ruleName expected actual : Bytes) : ValidationError :=
  ⟨path, ruleName, expected, actual, info.aiHint.getD []⟩

def typeCheck (failFast : Bool) (info : FieldInfo) (val : Value) (path : Bytes) : SchemaStep :=
  fun log =>
    if val.type ≠ expectedValueType info.type then
      (some (if failFast then .validation else .ok),
        log ++ [info.error path (ascii "type") (ascii "type=" ++ schemaTypeName info.type)
          (valueTypeName val.type)])
    else (none, log)

def enumFails (info : FieldInfo) (val : Value) : Bool :=
  match info.enumValues with
  | none => false
  | some values => info.type = .enum && !values.contains val.strVal

def enumCheck (failFast : Bool) (info : FieldInfo) (val : Value) (path : Bytes) : SchemaStep :=
  if enumFails info val then
    appendError failFast (info.error path (ascii "enum") (ascii "must be one of [enum values]")
      val.strVal)
  else .pass

def isNumeric (t : SchemaType) : Bool := t = .i32 || t = .i64 || t = .f64

def belowMin (info : FieldInfo) (val : Value) : Bool :=
  isNumeric info.type && info.range.hasMin && valueToDouble val < info.range.min - 1e-9

def aboveMax (info : FieldInfo) (val : Value) : Bool :=
  isNumeric info.type && info.range.hasMax && info.range.max + 1e-9 < valueToDouble val

def minCheck (env : ValidatorEnv) (failFast : Bool) (info : FieldInfo) (val : Value)
    (path : Bytes) : SchemaStep :=
  if belowMin info val then
    appendError failFast (info.error path (ascii "range")
      (ascii ">= " ++ env.formatG info.range.min) (env.formatG (valueToDouble val)))
  else .pass

def maxCheck (env : ValidatorEnv) (failFast : Bool) (info : FieldInfo) (val : Value)
    (path : Bytes) : SchemaStep :=
  if aboveMax info val then
    appendError failFast (info.error path (ascii "range")
      (ascii "<= " ++ env.formatG info.range.max) (env.formatG (valueToDouble val)))
  else .pass

def failedPattern (env : ValidatorEnv) (info : FieldInfo) (val : Value) : Option Bytes :=
  match info.pattern with
  | none => none
  | some pattern =>
      if info.type = .str ∧ env.regexMatch pattern val.strVal = some false then some pattern
      else none

def patternCheck (env : ValidatorEnv) (failFast : Bool) (info : FieldInfo) (val : Value)
    (path : Bytes) : SchemaStep :=
  match failedPattern env info val with
  | none => .pass
  | some pattern =>
      appendError failFast (info.error path (ascii "pattern") pattern val.strVal)

/-- What `err_buf` of 256 bytes holds when neither an expression nor a function
has this text. -/
def notRecognized (text : Bytes) : Bytes :=
  (ascii "custom_validator '" ++ text ++ ascii "' not recognized").take 255

/-- The text in `err_buf` if the custom validator refuses the value: a text that
is no expression is looked up as the name of a function. -/
def customRefusal (env : ValidatorEnv) (text : Bytes) (val : Value) : Option Bytes :=
  let expr := env.evalExpr text val
  if expr.1 < 0 then
    match (env.lookupFn text).orElse fun _ => env.globalFind text with
    | some cfn => if (cfn val).1 = 0 then some (cfn val).2 else none
    | none => some (notRecognized text)
  else if expr.1 = 0 then some expr.2
  else none

def failedCustom (env : ValidatorEnv) (info : FieldInfo) (val : Value) : Option (Bytes × Bytes) :=
  info.customValidator.bind fun text => (customRefusal env text val).map fun err => (text, err)

def customCheck (env : ValidatorEnv) (failFast : Bool) (info : FieldInfo) (val : Value)
    (path : Bytes) : SchemaStep :=
  match failedCustom env info val with
  | none => .pass
  | some (text, err) => appendError failFast (info.error path (ascii "custom") text err)

def ownChecks (env : ValidatorEnv) (failFast : Bool) (info : FieldInfo) (val : Value)
    (path : Bytes) : SchemaStep :=
  (enumCheck failFast info val path).andThen <|
    (minCheck env failFast info val path).andThen <|
      (maxCheck env failFast info val path).andThen <|
        (patternCheck env failFast info val path).andThen <|
          customCheck env failFast info val path

/-- `validate_field_internal` with its recursive calls: the call for the nested
fields, if there are any, and the loop over the elements. -/
def fieldBody (env : ValidatorEnv) (failFast : Bool) (info : FieldInfo) (val : Value)
    (path : Bytes) (hasNested : Bool) (nested : SchemaCall) (elements : SchemaStep) : SchemaCall :=
  Step.finish .ok <| (typeCheck failFast info val path).andThen <|
    (ownChecks env failFast info val path).andThen <|
      (if info.type = .obj ∧ hasNested then Step.call .ok failFast nested else .pass).andThen
        elements

/-- What `bs_schema_validate_fields` does around its loop. -/
def withObject (failFast : Bool) (config : Value) (parentPath : Bytes)
    (loop : List (Bytes × Value) → SchemaStep) : SchemaCall := fun log =>
  match config with
  | .obj fields => (loop fields).finish .ok log
  | val =>
      (if failFast then .validation else .ok,
        log ++ [⟨parentPath, ascii "type", ascii "obj", valueTypeName val.type, []⟩])

def fieldStep (failFast : Bool) (info : FieldInfo) (path : Bytes) (found : Option Value)
    (validate : Value → SchemaCall) : SchemaStep :=
  match found with
  | none =>
      if info.required then
        appendError failFast (info.error path (ascii "required")
          (ascii "required field must be present and non-null") (ascii "absent"))
      else .pass
  | some .null =>
      if info.required then
        appendError failFast (info.error path (ascii "required")
          (ascii "required field must be present and non-null") (valueTypeName .null))
      else .pass
  | some val => Step.call .ok failFast (validate val)

/-- `elem_path`, a buffer of 1024 bytes. -/
def elemPath (path : Bytes) (i : Nat) : Bytes :=
  (path ++ ascii "[" ++ decimal i ++ ascii "]").take 1023

/-- The loop over the elements of an array, from element `i` on. -/
def elementsLoop (failFast : Bool) (path : Bytes) (validate : Value → Bytes → SchemaCall) :
    Nat → List Value → SchemaStep
  | _, [] => .pass
  | i, item :: items =>
      (Step.call .ok failFast (validate item (elemPath path i))).andThen
        (elementsLoop failFast path validate (i + 1) items)

/-- `elem_def` without its nested fields. -/
def elemInfo (info : FieldInfo) : FieldInfo := { type := .obj, aiHint := info.aiHint }

def validatesElements (info : FieldInfo) (hasElemFields : Bool) : Bool :=
  info.type = .arr && info.elemType = .obj && hasElemFields

mutual

/-- The loop of `bs_schema_validate_fields`. -/
def validateLoop (env : ValidatorEnv) (failFast : Bool) (config : List (Bytes × Value))
    (parentPath : Bytes) : List FieldDef → SchemaStep
  | [] => .pass
  | fd :: fds =>
      (fieldStep failFast fd.info (buildPath parentPath fd.info.name)
        (findFieldValue config fd.info.name) fun val =>
          validateFieldInternal env failFast fd val (buildPath parentPath fd.info.name)).andThen
        (validateLoop env failFast config parentPath fds)

/-- `validate_field_internal`; it validates nested fields without options, that
is without `fail_fast`. -/
def validateFieldInternal (env : ValidatorEnv) (failFast : Bool) :
    FieldDef → Value → Bytes → SchemaCall
  | .mk info nested elems, val, path =>
      fieldBody env failFast info val path (!nested.isEmpty)
        (withObject false val path fun fields => validateLoop env false fields path nested)
        (if validatesElements info (!elems.isEmpty) then
          elementsLoop failFast path (fun item elemPath =>
            fieldBody env failFast (elemInfo info) item elemPath (!elems.isEmpty)
              (withObject false item elemPath fun fields =>
                validateLoop env false fields elemPath elems) .pass) 0 val.arrItems
        else .pass)

end

def validateFields (env : ValidatorEnv) (failFast : Bool) (fields : List FieldDef) (config : Value)
    (parentPath : Bytes) : SchemaCall := fun log =>
  if fields = [] then (.ok, log)
  else
    withObject failFast config parentPath
      (fun kvs => validateLoop env failFast kvs parentPath fields) log

/-- `bs_schema_validate`; without options it collects.  An entry is found by its
id and version. -/
def schemaValidate (env : ValidatorEnv) (registry : List SchemaEntry) (id ver : Bytes)
    (config : Value) (failFast : Bool) : ValidationResult :=
  match registry.find? fun entry => entry.schemaId = id && entry.version = ver with
  | none => ⟨.notFound, []⟩
  | some entry =>
      let r := validateFields env failFast entry.rootFields config [] []
      ⟨r.1, r.2⟩

end BlessStar.Schema

/-!
## Conformance of values

What a schema asks of a value, apart from the order in which a validator looks:
the rules that are checked, the structure that is declared, and the part of it
that is never looked at.
-/

namespace BlessStar.Schema

open Lib.ByteString

def EntryConforms (info : FieldInfo) (found : Option Value) (conforms : Value → Prop) : Prop :=
  match found with
  | none | some .null => info.required = false
  | some val => conforms val

structure OwnRulesHold (env : ValidatorEnv) (info : FieldInfo) (val : Value) : Prop where
  type : val.type = expectedValueType info.type
  enum : enumFails info val = false
  min : belowMin info val = false
  max : aboveMax info val = false
  pattern : failedPattern env info val = none
  custom : failedCustom env info val = none

mutual

def FieldsConform (env : ValidatorEnv) (config : List (Bytes × Value)) : List FieldDef → Prop
  | [] => True
  | fd :: fds =>
      EntryConforms fd.info (findFieldValue config fd.info.name)
          (fun val => FieldConforms env fd val) ∧
        FieldsConform env config fds

/-- The rules of a field, of its nested fields, and of the elements that are
validated. -/
def FieldConforms (env : ValidatorEnv) : FieldDef → Value → Prop
  | .mk info nested elems, val =>
      OwnRulesHold env info val ∧
        (info.type = .obj → FieldsConform env val.objFields nested) ∧
        (validatesElements info (!elems.isEmpty) = true → ∀ item ∈ val.arrItems,
          item.type = .obj ∧ FieldsConform env item.objFields elems)

end

/-- `bs_schema_validate_fields` asks for an object if there are fields. -/
def Conforms (env : ValidatorEnv) (fields : List FieldDef) (config : Value) : Prop :=
  fields ≠ [] → config.type = .obj ∧ FieldsConform env config.objFields fields

inductive NestedFirstElement (env : ValidatorEnv) (elems : List FieldDef) : List Value → Prop
  | here {item : Value} {items : List Value} :
      item.type = .obj → ¬FieldsConform env item.objFields elems →
        NestedFirstElement env elems (item :: items)
  | later {item : Value} {items : List Value} :
      item.type = .obj → FieldsConform env item.objFields elems →
        NestedFirstElement env elems items → NestedFirstElement env elems (item :: items)

/-- The rules of the field itself hold, and the first violation is one of nested
fields: its own or those of an element. -/
def NestedFirstIn (env : ValidatorEnv) : FieldDef → Value → Prop
  | .mk info nested elems, val =>
      OwnRulesHold env info val ∧
        ((info.type = .obj ∧ ¬FieldsConform env val.objFields nested) ∨
          (validatesElements info (!elems.isEmpty) = true ∧
            NestedFirstElement env elems val.arrItems))

/-- In the order of the fields, the first violation is one of nested fields. -/
inductive NestedFirst (env : ValidatorEnv) (config : List (Bytes × Value)) : List FieldDef → Prop
  | here {fd : FieldDef} {fds : List FieldDef} {val : Value} :
      findFieldValue config fd.info.name = some val → val ≠ .null → NestedFirstIn env fd val →
        NestedFirst env config (fd :: fds)
  | later {fd : FieldDef} {fds : List FieldDef} :
      EntryConforms fd.info (findFieldValue config fd.info.name) (FieldConforms env fd) →
        NestedFirst env config fds → NestedFirst env config (fd :: fds)

def HasDeclaredType (info : FieldInfo) (val : Value) : Prop :=
  val.type = expectedValueType info.type ∧
    (info.type = .enum → val.strVal ∈ info.enumValues.getD [])

mutual

def FieldsStructured (config : List (Bytes × Value)) : List FieldDef → Prop
  | [] => True
  | fd :: fds =>
      EntryConforms fd.info (findFieldValue config fd.info.name)
          (fun val => FieldStructured fd val) ∧
        FieldsStructured config fds

/-- The declared type, at every depth: of the value, of its nested fields, of
its elements and of theirs. -/
def FieldStructured : FieldDef → Value → Prop
  | .mk info nested elems, val =>
      HasDeclaredType info val ∧
        (info.type = .obj → FieldsStructured val.objFields nested) ∧
        (info.type = .arr → ∀ item ∈ val.arrItems,
          item.type = expectedValueType info.elemType ∧
            (info.elemType = .obj → FieldsStructured item.objFields elems))

end

def Structured (fields : List FieldDef) (config : Value) : Prop :=
  fields ≠ [] → config.type = .obj ∧ FieldsStructured config.objFields fields

mutual

/-- At every depth that is looked at, an enum has a list, and an element that is
not validated has the declared type. -/
def SkippedPartsHold (config : List (Bytes × Value)) : List FieldDef → Prop
  | [] => True
  | fd :: fds =>
      (∀ val, findFieldValue config fd.info.name = some val → val ≠ .null →
          SkippedPartsHoldIn fd val) ∧
        SkippedPartsHold config fds

def SkippedPartsHoldIn : FieldDef → Value → Prop
  | .mk info nested elems, val =>
      (info.type = .enum → info.enumValues ≠ none) ∧
        (info.type = .obj → SkippedPartsHold val.objFields nested) ∧
        (info.type = .arr → ∀ item ∈ val.arrItems,
          if info.elemType = .obj ∧ elems ≠ [] then SkippedPartsHold item.objFields elems
          else item.type = expectedValueType info.elemType)

end

end BlessStar.Schema
