import BlessStar.Convert.ToJson
import BlessStar.Convert.Tokens
import BlessStar.Lib.FixedBuffer

/-!
# Schemas derived from values

`schema_derive.c`: the members of an object, at any depth of objects, become
fields with inferred types, and the fields a JSON Schema that is printed into a
buffer of 4096 bytes.  The scanner is the one of the converters; for `true` and
`false` it leaves the variables of the token as they are.
-/

namespace BlessStar.Convert

open Lib.ByteString Lib.FixedBuffer Lib.JsonText

abbrev nextStok : Bytes → Token × Bytes := nextToken

inductive DerivedType
  | unknown
  | string
  | integer
  | number
  | boolean
  | array
  | object
  | enum
  deriving DecidableEq

structure DerivedField where
  key : Bytes
  type : DerivedType
  exampleValue : Option Bytes
  isRequired : Bool
  enumCandidate : Bool

def hasDecimal (s : Bytes) : Bool := s.any fun c => c = ch '.' ∨ c = ch 'e' ∨ c = ch 'E'

def isSpace (c : UInt8) : Bool := decide (c = 32 ∨ (9 ≤ c ∧ c ≤ 13))

def looksLikeEnumCandidate (key val : Bytes) : Bool :=
  if 20 < val.length ∨ val = [] then false
  else if val.any isSpace then false
  else !([ascii "id", ascii "name", ascii "path"].any fun s => decide (s <:+: key))

/-- `fa_add`: the field that is put behind the others. -/
def faAdd (key : Bytes) (type : DerivedType) (val : Bytes) (isRequired : Bool) : DerivedField where
  key := cstr key
  type := type
  exampleValue := if val = [] then none else some (ch '"' :: (val ++ [ch '"']))
  isRequired := isRequired
  enumCandidate := decide (type = .string) && looksLikeEnumCandidate key val

/-- `%.*s` with `(int)len`: a length that wraps around to a negative number is no limit. -/
def precision (s : Bytes) : Bytes :=
  let len := s.length % 2 ^ 32
  cstr (if len < 2 ^ 31 then s.take len else s)

/-- `full_key`, an array of 1024 bytes. -/
def fullKey (pre key : Bytes) : Bytes :=
  (if pre = [] then precision key else pre ++ ascii "." ++ precision key).take 1023

/-- The loop over the contents of an array, in a string or not, up to the bracket
that closes it. -/
def skipArray : Bool → Nat → Bytes → Bytes
  | _, 0, p => p
  | _, _, [] => []
  | false, depth + 1, c :: p =>
      if c = ch '[' then skipArray false (depth + 2) p
      else if c = ch ']' then skipArray false depth p
      else if c = ch '"' then skipArray true (depth + 1) p
      else skipArray false (depth + 1) p
  | true, depth + 1, c :: p =>
      if c = ch '"' then skipArray false (depth + 1) p
      else if c = ch '\\' then
        match p with
        | [] => []
        | _ :: p => skipArray true (depth + 1) p
      else skipArray true (depth + 1) p

section Walk

-- what the two variables of the token point to at a `true` or a `false`
variable (stale : Bytes)

mutual

/-- The loop of `derive_object`. -/
def deriveObject : Nat → Bytes → Bytes → List DerivedField →
    Except Int (Bytes × List DerivedField)
  | 0, _, _, _ => .error (-EINVAL)
  | fuel + 1, pre, p, fa =>
      match nextStok p with
      | (.rbrace, p) => .ok (p, fa)
      | (.string key, p) =>
          match nextStok p with
          | (.colon, p) =>
              match deriveValue fuel (fullKey pre key) p fa with
              | .error e => .error e
              | .ok (p, fa) =>
                  match nextStok p with
                  | (.rbrace, p) => .ok (p, fa)
                  | (_, p) => deriveObject fuel pre p fa
          | _ => .error (-EINVAL)
      | _ => .error (-EINVAL)

def deriveValue : Nat → Bytes → Bytes → List DerivedField →
    Except Int (Bytes × List DerivedField)
  | 0, _, _, _ => .error (-EINVAL)
  | fuel + 1, key, p, fa =>
      match nextStok p with
      | (.string v, p) => .ok (p, fa ++ [faAdd key .string v true])
      | (.number v, p) =>
          .ok (p, fa ++ [faAdd key (if hasDecimal v then .number else .integer) v true])
      | (.true, p) => .ok (p, fa ++ [faAdd key .boolean stale true])
      | (.false, p) => .ok (p, fa ++ [faAdd key .boolean stale true])
      | (.null, p) => .ok (p, fa ++ [faAdd key .unknown [] false])
      | (.lbrace, p) => deriveObject fuel key p (fa ++ [faAdd key .object [] true])
      | (.lbracket, p) => .ok (skipArray false 1 p, fa ++ [faAdd key .array [] true])
      | _ => .error (-EINVAL)

end

end Walk

/-- `type_to_jsonschema`: the name of the type. -/
def jsonschemaType : DerivedType → Bytes
  | .integer => ascii "integer"
  | .number => ascii "number"
  | .boolean => ascii "boolean"
  | .array => ascii "array"
  | .object => ascii "object"
  | .string => ascii "string"
  | .enum => ascii "string"
  | .unknown => ascii "string"

def DerivedField.isContainer (f : DerivedField) : Bool :=
  decide (f.type = .object ∨ f.type = .array)

def schemaCap : Nat := 4096

def schemaHeader : Bytes :=
  ascii "\x7b\n  \"$schema\": \"http://json-schema.org/draft-07/schema#\",\n" ++
    ascii "  \"type\": \"object\",\n  \"properties\": \x7b\n"

def propertyLine (f : DerivedField) (comma : Bool) : Bytes :=
  ascii "    \"" ++ f.key ++ ascii "\": \x7b \"type\": \"" ++ jsonschemaType f.type ++
    ascii "\" \x7d" ++ (if comma then ascii "," else []) ++ ascii "\n"

def propertyLines : List DerivedField → List Bytes
  | [] => []
  | f :: fs =>
      if f.isContainer then propertyLines fs
      else propertyLine f (!fs.isEmpty) :: propertyLines fs

/-- The loop over the properties: a line that does not fit ends it, and is not
counted. -/
def printLines (b : PrintBuffer) : List Bytes → PrintBuffer
  | [] => b
  | line :: lines =>
      let printed := b.print schemaCap line
      if maxPrinted < line.length ∨ sizeLeft schemaCap b.len ≤ line.length then
        { printed with len := b.len }
      else printLines printed lines

def requiredKeys : Bool → List DerivedField → List Bytes
  | _, [] => []
  | first, f :: fs =>
      if f.isRequired && !f.isContainer then
        ((if first then [] else ascii ", ") ++ ascii "\"" ++ f.key ++ ascii "\"") ::
          requiredKeys false fs
      else requiredKeys first fs

def schemaMiddle : Bytes := ascii "  \x7d,\n  \"required\": ["

def schemaEnd : Bytes := ascii "]\n\x7d\n"

def generateJsonschema (fa : List DerivedField) : PrintBuffer :=
  (printLines (PrintBuffer.print schemaCap {} schemaHeader) (propertyLines fa)).printAll schemaCap
    (schemaMiddle :: requiredKeys true fa ++ [schemaEnd])

/-- What a call returns, whether it stores a token through a null pointer, and
whether a write left the buffer of the schema. -/
structure DeriveResult where
  rc : Int
  fields : List DerivedField := []
  schemaJson : Bytes := []
  nullStore : Bool := false
  overrun : Bool := false

def derivedSchema (fa : List DerivedField) : DeriveResult where
  rc := 0
  fields := fa
  schemaJson := (generateJsonschema fa).text schemaCap
  overrun := (generateJsonschema fa).overrun

def schemaDerive (stale v1Json : Bytes) : DeriveResult :=
  match nextStok v1Json with
  | (.lbrace, p) =>
      match deriveObject stale (v1Json.length + 1) [] p [] with
      | .error rc => { rc := rc }
      | .ok (_, fa) => derivedSchema fa
  | (.lbracket, _) => derivedSchema [faAdd (ascii "$root") .array [] true]
  | (.string _, _) => { rc := -EINVAL, nullStore := true }
  | (.number _, _) => { rc := -EINVAL, nullStore := true }
  | _ => { rc := -EINVAL }

mutual

/-- The members of a value at any depth of objects, in order, with the keys on
the way to them. -/
def valueMembers (path : List Bytes) : Json → List (List Bytes × Json)
  | .object members => memberPaths path members
  | _ => []

def memberPaths (path : List Bytes) : Members → List (List Bytes × Json)
  | .last key value _ => (path ++ [key.body], value) :: valueMembers (path ++ [key.body]) value
  | .more key value _ rest =>
      (path ++ [key.body], value) :: valueMembers (path ++ [key.body]) value ++
        memberPaths path rest

end

def dottedPath (path : List Bytes) : Bytes := (ascii ".").intercalate path

def inferredType : Json → DerivedType
  | .string _ => .string
  | .number text => if hasDecimal text then .number else .integer
  | .word .null => .unknown
  | .word _ => .boolean
  | .emptyArray _ => .array
  | .array _ => .array
  | .emptyObject _ => .object
  | .object _ => .object

def isScalar (value : Json) : Bool :=
  decide (inferredType value ≠ .object ∧ inferredType value ≠ .array)

def isNull (value : Json) : Bool := decide (inferredType value = .unknown)

def leaves (value : Json) : List (Bytes × Json) :=
  ((valueMembers [] value).filter fun m => isScalar m.2).map fun m => (dottedPath m.1, m.2)

def propertyTree (leaf : Bytes × Json) : Bytes × Tree :=
  (decode leaf.1, .object (Fields.ofList
    [(ascii "type", .string (jsonschemaType (inferredType leaf.2)))]))

def schemaTree (leaves : List (Bytes × Json)) : Tree :=
  .object (Fields.ofList [
    (ascii "$schema", .string (ascii "http://json-schema.org/draft-07/schema#")),
    (ascii "type", .string (ascii "object")),
    (ascii "properties", .object (Fields.ofList (leaves.map propertyTree))),
    (ascii "required", .array (Trees.ofList
      ((leaves.filter fun l => !isNull l.2).map fun l => .string (decode l.1))))])

/-- The call succeeds, its fields are the members with their paths and types, and
its text is a schema of the leaves. -/
structure DerivesSchema (doc : Document) (result : DeriveResult) : Prop where
  rc : result.rc = 0
  fields : (result.fields.map fun f => (f.key, f.type)) =
    (valueMembers [] doc.value).map fun m => (dottedPath m.1, inferredType m.2)
  inside : result.overrun = false
  schema : Spells result.schemaJson (schemaTree (leaves doc.value))

def schemaSize (leaves : List (Bytes × Json)) : Nat :=
  let required := leaves.filter fun l => !isNull l.2
  120 + (leaves.map fun l => l.1.length + (jsonschemaType (inferredType l.2)).length + 24).sum +
    (required.map fun l => l.1.length + 4).sum - (if leaves = [] then 0 else 1) -
      (if required = [] then 0 else 2)

/-- The key of a member of the whole text that has members itself is not empty,
the last member is a scalar, or none is, and the schema fits. -/
structure SchemaFits (value : Json) : Prop where
  named : ∀ m ∈ valueMembers [] value, m.1.length ≤ 1 ∨ m.1.head? ≠ some []
  lastScalar : leaves value = [] ∨ ∀ m ∈ (valueMembers [] value).getLast?, isScalar m.2
  size : schemaSize (leaves value) ≤ schemaCap

end BlessStar.Convert
