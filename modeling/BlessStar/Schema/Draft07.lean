import BlessStar.Gate.Json
import BlessStar.Schema.Types

/-!
# Schemas as Draft-07 documents

`bs_json_converter_to_draft07` and `bs_json_converter_from_draft07` of
`schema_json_converter.c`.  Its tokenizer, its skipping of nested values and its
escaping of strings are those of the gate chain, byte for byte.
-/

namespace BlessStar.Schema

open Lib.ByteString
open Gate (Asparse CNumber asparseAdvance ch isBlank jsonEscape lex skipComma skipLoop)

section

variable (D : CNumber Float)

/-- `%d`. -/
def intText (n : Int) : Bytes :=
  if n < 0 then ch '-' :: decimal n.natAbs else decimal n.natAbs

/-- `"key":` and a text. -/
def member (key : String) (val : Bytes) : Bytes :=
  ascii "\"" ++ ascii key ++ ascii "\":" ++ val

def escapedMember (key : String) (s : Option Bytes) : List Bytes :=
  s.toList.map fun s => member key (jsonEscape s)

/-- The `ui` object of a field. -/
def uiMembers (info : FieldInfo) : List Bytes :=
  escapedMember "label" info.uiLabel ++ escapedMember "description" info.uiDescription ++
    escapedMember "placeholder" info.uiPlaceholder ++
    (if info.uiOrder ≠ 0 then [member "order" (intText info.uiOrder)] else [])

def bracedMembers (members : List Bytes) : Bytes :=
  ascii "\x7b" ++ (ascii ",").intercalate members ++ ascii "\x7d"

def emitXBlessstar (info : FieldInfo) : Bytes :=
  let members := escapedMember "ai_hint" info.aiHint ++
    escapedMember "custom_validator" info.customValidator ++
    (if uiMembers info = [] then [] else [member "ui" (bracedMembers (uiMembers info))])
  if members = [] then [] else ascii "," ++ member "x-blessstar" (bracedMembers members)

/-- The bounds that stand for `i32`. -/
def i32Type : Bytes := ascii "\"type\":\"integer\",\"minimum\":-2147483648,\"maximum\":2147483647"

def emitType : SchemaType → Bytes
  | .str => ascii "\"type\":\"string\""
  | .i32 => i32Type
  | .i64 => ascii "\"type\":\"integer\""
  | .f64 => ascii "\"type\":\"number\""
  | .bool => ascii "\"type\":\"boolean\""
  | .arr => ascii "\"type\":\"array\""
  | .obj => ascii "\"type\":\"object\""
  | .enum => ascii "\"type\":\"string\""

def emitElemType : SchemaType → Bytes
  | .i32 => i32Type
  | .i64 => ascii "\"type\":\"integer\""
  | .f64 => ascii "\"type\":\"number\""
  | .bool => ascii "\"type\":\"boolean\""
  | _ => ascii "\"type\":\"string\""

def emitRange (range : RangeDef) : Bytes :=
  (if range.hasMin then ascii "," ++ member "minimum" (D.formatG range.min) else []) ++
    if range.hasMax then ascii "," ++ member "maximum" (D.formatG range.max) else []

def emitPattern (info : FieldInfo) : Bytes :=
  match info.pattern with
  | none => []
  | some pattern => ascii "," ++ member "pattern" (jsonEscape pattern)

def emitEnum (info : FieldInfo) : Bytes :=
  match info.enumValues with
  | none => []
  | some values =>
      ascii "," ++
        member "enum" (ascii "[" ++ (ascii ",").intercalate (values.map jsonEscape) ++ ascii "]")

def emitRequired (fields : List FieldDef) : Bytes :=
  ascii "[" ++ (ascii ",").intercalate
    ((fields.filter (·.info.required)).map fun fd => jsonEscape fd.info.name) ++ ascii "]"

mutual

/-- `emit_field_to_draft07`. -/
def emitField : FieldDef → Bytes
  | .mk info nested elems =>
      ascii "\x7b" ++ emitType info.type ++ emitRange D info.range ++ emitPattern info ++
        emitEnum info ++
        (if info.type = .obj ∧ nested ≠ [] then
          ascii "," ++ member "properties" (bracedMembers (emitProperties nested)) ++
            ascii "," ++ member "required" (emitRequired nested)
        else []) ++
        (if info.type = .arr then
          ascii "," ++ member "items" (ascii "\x7b" ++
            (if info.elemType = .obj then
              ascii "\"type\":\"object\"," ++
                member "properties" (bracedMembers (emitProperties elems))
            else emitElemType info.elemType) ++ ascii "\x7d")
        else []) ++
        emitXBlessstar info ++ ascii "\x7d"

/-- The members of a `properties` object. -/
def emitProperties : List FieldDef → List Bytes
  | [] => []
  | fd :: fds => (jsonEscape fd.info.name ++ ascii ":" ++ emitField fd) :: emitProperties fds

end

def draft07Head : Bytes :=
  ascii "\x7b\n\"$schema\":\"http://json-schema.org/draft-07/schema#\",\n\"$id\":\""

def draft07Tail (entry : SchemaEntry) : Bytes :=
  ascii "\",\n\"title\":\"" ++ entry.title.getD [] ++
    ascii "\",\n\"description\":\"" ++ entry.description.getD [] ++
    ascii "\",\n\"type\":\"object\",\n\"properties\":\x7b\n" ++
    (ascii ",\n").intercalate (emitProperties D entry.rootFields) ++
    ascii "\n\x7d,\n\"required\":" ++ emitRequired entry.rootFields ++
    ascii ",\n\"x-blessstar\":\x7b\"schema_id\":\"" ++ entry.schemaId ++
    ascii "\",\"version\":\"" ++ entry.version ++ ascii "\"\x7d\n\x7d\n"

/-- `bs_json_converter_to_draft07`; the id, the title and the description are not
escaped. -/
def toDraft07 (entry : SchemaEntry) : Bytes :=
  draft07Head ++ entry.schemaId ++ draft07Tail D entry

def maxDict : Nat := 128

/-- `json_dict_t`: the keys with the texts of their values, `none` where the text
could not be copied. -/
abbrev JsonDict := List (Bytes × Option Bytes)

/-- `json_dict_add`. -/
def dictAdd (d : JsonDict) (key : Bytes) (val : Option Bytes) : JsonDict :=
  if maxDict ≤ d.length then d else d ++ [(key, val)]

/-- `json_dict_get`. -/
def dictGet (d : JsonDict) (key : Bytes) : Option Bytes := (d.find? (·.1 = key)).bind (·.2)

/-- The text from `start` to where `rest` begins. -/
def slice (start rest : Bytes) : Bytes := start.take (start.length - rest.length)

/-- A value of `parse_dict_into` after its colon, and the token behind it. -/
def dictValue (colon : Asparse Float) : Option Bytes × Asparse Float :=
  let start := colon.rest.dropWhile isBlank
  let p := asparseAdvance D.toCDouble colon
  match p.tok with
  | .lbrace | .lbrack =>
      let close := skipLoop D.toCDouble (p.rest.length + 1) 1 p
      (some (slice start close.rest),
        if close.tok.isEof then close else asparseAdvance D.toCDouble close)
  -- no token starts here: the length is an address, and `malloc` fails
  | .eof => (none, p)
  | _ =>
      -- the length is taken behind the next token
      let next := asparseAdvance D.toCDouble p
      (some (slice start next.rest), next)

/-- The loop of `parse_dict_into`. -/
def parseDictLoop : Nat → Asparse Float → JsonDict → JsonDict
  | 0, _, d => d
  | n + 1, p, d =>
      match p.tok with
      | .string key =>
          let colon := asparseAdvance D.toCDouble p
          if colon.tok.isColon then
            let val := dictValue D colon
            parseDictLoop n (skipComma D.toCDouble val.2) (dictAdd d key val.1)
          else d
      | _ => d

def parseDictInto (p : Asparse Float) : JsonDict :=
  if p.tok.isLbrace then
    parseDictLoop D (p.rest.length + 1) (asparseAdvance D.toCDouble p) []
  else []

def extractQuoted : Bytes → Option Bytes
  | [] => none
  | c :: body => if c = ch '"' ∧ body ≠ [] then some body.dropLast else none

/-- The texts behind the quotes of `s`, each up to the next quote: the quote that
closes one of them opens another. -/
def quotedParts (s : Bytes) : List Bytes := (s.splitOn (ch '"')).tail

/-- The type of a field; it stays `BS_SCHEMA_TYPE_STR` at a text that is none. -/
def readType (text : Option Bytes) : SchemaType :=
  if text = some (ascii "\"string\"") then .str
  else if text = some (ascii "\"integer\"") then .i64
  else if text = some (ascii "\"number\"") then .f64
  else if text = some (ascii "\"boolean\"") then .bool
  else if text = some (ascii "\"array\"") then .arr
  else if text = some (ascii "\"object\"") then .obj
  else .str

def readRange (min max : Option Bytes) : RangeDef where
  min := (min.map fun s => (D.strtod s).1).getD 0
  max := (max.map fun s => (D.strtod s).1).getD 0
  hasMin := min.isSome
  hasMax := max.isSome

/-- An integer with the bounds of `i32` is one. -/
def detectI32 (type : SchemaType) (range : RangeDef) : SchemaType :=
  if type = .i64 ∧ range.hasMin ∧ range.hasMax ∧
      range.min == -2147483648.0 ∧ range.max == 2147483647.0 then .i32
  else type

def readEnum (s : Bytes) : List Bytes :=
  if ch ']' ∈ (s.drop 1).takeWhile (· ≠ ch '"') then [] else quotedParts (s.drop 1)

def readUi (ui : Bytes) (info : FieldInfo) : FieldInfo :=
  let p := lex D.toCDouble ui
  if p.tok.isLbrace then
    let d := parseDictInto D p
    { info with
      uiLabel := (dictGet d (ascii "label")).bind extractQuoted
      uiDescription := (dictGet d (ascii "description")).bind extractQuoted
      uiPlaceholder := (dictGet d (ascii "placeholder")).bind extractQuoted
      uiOrder := ((dictGet d (ascii "order")).map fun s => D.toInt (D.strtod s).1).getD 0 }
  else info

def readXBlessstar (xb : Bytes) (info : FieldInfo) : FieldInfo :=
  let p := lex D.toCDouble xb
  if p.tok.isLbrace then
    let d := parseDictInto D p
    let info := { info with
      aiHint := some (((dictGet d (ascii "ai_hint")).bind extractQuoted).getD [])
      customValidator := (dictGet d (ascii "custom_validator")).bind extractQuoted }
    match dictGet d (ascii "ui") with
    | none => info
    | some ui => readUi D ui info
  else info

/-- A field of `parse_draft07_to_entry`; its nested fields are not read. -/
def readField (name : Bytes) (val : Option Bytes) : FieldInfo :=
  match val with
  | none => { name := name }
  | some val =>
      let p := lex D.toCDouble val
      if p.tok.isLbrace then
        let d := parseDictInto D p
        let range := readRange D (dictGet d (ascii "minimum")) (dictGet d (ascii "maximum"))
        let enumValues := (dictGet d (ascii "enum")).map readEnum
        let type := detectI32 (readType (dictGet d (ascii "type"))) range
        let info : FieldInfo := {
          name := name
          type := if enumValues.isSome then .enum else type
          range := range
          pattern := (dictGet d (ascii "pattern")).bind extractQuoted
          enumValues := enumValues }
        match dictGet d (ascii "x-blessstar") with
        | none => info
        | some xb => readXBlessstar D xb info
      else { name := name }

def markRequired : List FieldInfo → Bytes → List FieldInfo
  | [], _ => []
  | info :: infos, name =>
      if info.name = name then { info with required := true } :: infos
      else info :: markRequired infos name

/-- The fields of the `properties`, with the names of the required ones. -/
def readFields (props : Bytes) (required : Option Bytes) : List FieldDef :=
  let infos := (parseDictInto D (lex D.toCDouble props)).map fun e => readField D e.1 e.2
  let infos := ((required.map quotedParts).getD []).foldl markRequired infos
  infos.map fun info => .mk info [] []

/-- What `parse_draft07_to_entry` takes from the members of the document. -/
def readEntry (root : JsonDict) : SchemaEntry where
  schemaId := ((dictGet root (ascii "$id")).bind extractQuoted).getD (ascii "unknown")
  version := ascii "1.0"
  rootFields :=
    match dictGet root (ascii "properties") with
    | none => []
    | some props => readFields D props (dictGet root (ascii "required"))

/-- `bs_json_converter_from_draft07`; `none` is `BS_SCHEMA_ERR_PARSE`. -/
def fromDraft07 (json : Bytes) : Option SchemaEntry :=
  let p := lex D.toCDouble json
  if p.tok.isLbrace then some (readEntry D (parseDictInto D p)) else none

/-- The document of an entry is read as an entry with the same id, the same version
and the same fields. -/
def RoundTrips (entry : SchemaEntry) : Prop :=
  ∃ back, fromDraft07 D (toDraft07 D entry) = some back ∧ back.schemaId = entry.schemaId ∧
    back.version = entry.version ∧ back.rootFields = entry.rootFields

end

end BlessStar.Schema
