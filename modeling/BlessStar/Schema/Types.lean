import BlessStar.Lib.ByteString

/-!
# Schemas and values

The types of `schema_types.h`: the values a configuration is made of, the
fields of a schema, and the errors of a validation.  C strings are their bytes
without the terminator; a pointer that may be `NULL` is an `Option`.
-/

namespace BlessStar.Schema

open Lib.ByteString

inductive SchemaType
  | str
  | i32
  | i64
  | f64
  | bool
  | arr
  | obj
  | enum
  deriving DecidableEq, Repr

inductive ValueType
  | null
  | bool
  | i32
  | i64
  | f64
  | str
  | arr
  | obj
  deriving DecidableEq, Repr

/-- `bs_value_t`; the fields of an object are `bs_field_t`. -/
inductive Value
  | null
  | bool (b : Bool)
  | i32 (n : Int32)
  | i64 (n : Int64)
  | f64 (x : Float)
  | str (s : Bytes)
  | arr (items : List Value)
  | obj (fields : List (Bytes × Value))

namespace Value

def type : Value → ValueType
  | null => .null
  | bool _ => .bool
  | i32 _ => .i32
  | i64 _ => .i64
  | f64 _ => .f64
  | str _ => .str
  | arr _ => .arr
  | obj _ => .obj

def strVal : Value → Bytes
  | str s => s
  | _ => []

/-- `data.arr.items`. -/
def arrItems : Value → List Value
  | arr items => items
  | _ => []

/-- `data.obj.fields`. -/
def objFields : Value → List (Bytes × Value)
  | obj fields => fields
  | _ => []

end Value

structure RangeDef where
  min : Float := 0
  max : Float := 0
  hasMin : Bool := false
  hasMax : Bool := false

/-- The members of `bs_schema_field_def_t` that hold no further fields. -/
structure FieldInfo where
  name : Bytes := []
  type : SchemaType := .str
  required : Bool := false
  range : RangeDef := {}
  pattern : Option Bytes := none
  enumValues : Option (List Bytes) := none
  customValidator : Option Bytes := none
  aiHint : Option Bytes := none
  uiLabel : Option Bytes := none
  uiDescription : Option Bytes := none
  uiPlaceholder : Option Bytes := none
  uiOrder : Int := 0
  elemType : SchemaType := .str

inductive FieldDef
  | mk (info : FieldInfo) (nestedFields elemFields : List FieldDef)

namespace FieldDef

def info : FieldDef → FieldInfo
  | mk info _ _ => info

def nestedFields : FieldDef → List FieldDef
  | mk _ nested _ => nested

def elemFields : FieldDef → List FieldDef
  | mk _ _ elems => elems

end FieldDef

structure ValidationError where
  fieldPath : Bytes
  ruleName : Bytes
  expected : Bytes
  actual : Bytes
  aiHint : Bytes
  deriving DecidableEq

/-- `bs_schema_entry_t`, with the title and the description of its `ui_meta`. -/
structure SchemaEntry where
  schemaId : Bytes
  version : Bytes
  rootFields : List FieldDef
  title : Option Bytes := none
  description : Option Bytes := none

inductive SchemaStatus
  | ok
  | validation
  | notFound
  deriving DecidableEq, Repr

/-- `bs_schema_validation_result_t`; its `ok` tells whether `errors` is empty. -/
structure ValidationResult where
  status : SchemaStatus
  errors : List ValidationError

end BlessStar.Schema
