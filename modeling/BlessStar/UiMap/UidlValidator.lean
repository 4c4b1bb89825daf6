import BlessStar.Schema.Draft07

/-!
# The validator of render descriptions

`bs_uidl_validate` of `uidl_validator.c`.  Its tokenizer is that of the gate
chain, byte for byte.
-/

namespace BlessStar.UiMap

open Lib.ByteString
open Gate (Asparse Astok CDouble asparseAdvance ch isBlank lex skipComma)
open Schema (JsonDict dictGet slice)

section

variable {ν : Type} (D : CDouble ν)

def maxDict : Nat := 256

/-- `jdict_add`; the copy is read as a C string. -/
def jdictAdd (d : JsonDict) (key : Bytes) (val : Option Bytes) : JsonDict :=
  if maxDict ≤ d.length then d else d ++ [(key, val.map cstr)]

/-- The loop that looks for the closing bracket, where `step` is the change of depth at a
token. -/
def closeLoop (step : Astok ν → Int) : Nat → Int → Asparse ν → Asparse ν
  | 0, _, p => p
  | n + 1, depth, p =>
      match p.tok with
      | .eof | .error => p
      | _ =>
          if depth ≤ 0 then p
          else
            let p := asparseAdvance D p
            closeLoop step n (depth + step p.tok) p

/-- The closing bracket of the one at `p`. -/
def closing (step : Astok ν → Int) (p : Asparse ν) : Asparse ν :=
  closeLoop D step (p.rest.length + 1) 1 p

/-- A value of `parse_dict` after its colon, and the token behind it. -/
def dictValue (colon : Asparse ν) : Option Bytes × Asparse ν :=
  let start := colon.rest.dropWhile isBlank
  let p := asparseAdvance D colon
  match p.tok with
  | .lbrace | .lbrack =>
      let close := closing D Astok.depthStep p
      (some (slice start close.rest), if close.tok.isEof then close else asparseAdvance D close)
  -- no token starts here: the length is an address, and `malloc` fails
  | .eof => (none, p)
  | _ => (some (slice start p.rest), asparseAdvance D p)

/-- The loop of `parse_dict`. -/
def parseDictLoop : Nat → Asparse ν → JsonDict → JsonDict
  | 0, _, d => d
  | n + 1, p, d =>
      match p.tok with
      | .string key =>
          let colon := asparseAdvance D p
          if colon.tok.isColon then
            let val := dictValue D colon
            parseDictLoop n (skipComma D val.2) (jdictAdd d key val.1)
          else d
      | _ => d

def parseDict (p : Asparse ν) : JsonDict :=
  if p.tok.isLbrace then parseDictLoop D (p.rest.length + 1) (asparseAdvance D p) [] else []

def braceStep : Astok ν → Int
  | .lbrace => 1
  | .rbrace => -1
  | _ => 0

/-- The loop over the objects of an array.  It looks for a comma at the closing brace, so
that it ends behind the first object. -/
def objectsLoop (validate : Bytes → List Bytes) : Nat → Asparse ν → List Bytes
  | 0, _ => []
  | n + 1, p =>
      if p.tok.isLbrace then
        let close := closing D braceStep p
        validate (cstr (slice (ch '\x7b' :: p.rest) close.rest)) ++
          objectsLoop validate n (skipComma D close)
      else []

def arrayErrors (validate : Bytes → List Bytes) (text : Bytes) : List Bytes :=
  let p := lex D text
  match p.tok with
  | .lbrack => objectsLoop D validate (p.rest.length + 1) (asparseAdvance D p)
  | _ => []

/-- The widgets of `is_known_widget`. -/
def knownWidgets : List Bytes :=
  [ascii "input", ascii "select", ascii "checkbox", ascii "radio", ascii "switch",
    ascii "textarea", ascii "number", ascii "datepicker", ascii "file_upload",
    ascii "key_value_table", ascii "group", ascii "table", ascii "repeatable_group",
    ascii "custom"]

/-- The check of `field`. -/
def fieldErrors : Option Bytes → List Bytes
  | none => [ascii "control missing 'field'"]
  | some s => if s.head? = some (ch '"') then [] else [ascii "control 'field' not a string"]

/-- The check of `widget`; the message is cut to its buffer. -/
def widgetErrors : Option Bytes → List Bytes
  | none => [ascii "control missing 'widget'"]
  | some s =>
      if 2 ≤ s.length ∧ s.head? = some (ch '"') ∧ s.getLast? = some (ch '"') then
        let wv := (s.drop 1).dropLast
        if knownWidgets.contains wv then []
        else [(ascii "unknown widget: '" ++ wv ++ ascii "'").take 255]
      else [ascii "control 'widget' not a string"]

/-- The check of `children`. -/
def childrenErrors (validate : Bytes → List Bytes) : Option Bytes → List Bytes
  | none => []
  | some s =>
      if 2 ≤ s.length ∧ s.head? = some (ch '[') then arrayErrors D validate s else []

/-- `validate_control_json` with this many levels left. -/
def validateControlJson : Nat → Bytes → List Bytes
  | 0, _ => [ascii "control nesting too deep (>32)"]
  | n + 1, json =>
      let p := lex D json
      if p.tok.isLbrace then
        let d := parseDict D p
        fieldErrors (dictGet d (ascii "field")) ++ widgetErrors (dictGet d (ascii "widget")) ++
          childrenErrors D (validateControlJson n) (dictGet d (ascii "children"))
      else [ascii "control not an object"]

/-- The check of `uidl_version`. -/
def versionErrors : Option Bytes → List Bytes
  | none => [ascii "missing 'uidl_version'"]
  | some s =>
      if s.head?.any fun c => ch '0' ≤ c ∧ c ≤ ch '9' then []
      else [ascii "'uidl_version' not a number"]

/-- The check of `schema_ref`. -/
def schemaRefErrors : Option Bytes → List Bytes
  | none => [ascii "missing 'schema_ref'"]
  | some s => if s.head? = some (ch '"') then [] else [ascii "'schema_ref' not a string"]

/-- The check of `controls`: 32 levels below the first are allowed. -/
def controlsErrors : Option Bytes → List Bytes
  | none => [ascii "missing 'controls'"]
  | some s =>
      if s.head? = some (ch '[') then arrayErrors D (validateControlJson D 33) s
      else [ascii "'controls' not an array"]

def maxUidlErrs : Nat := 64

/-- `bs_uidl_validate`: the errors it reports. -/
def uidlValidate (json : Bytes) : List Bytes :=
  let p := lex D json
  (if p.tok.isLbrace then
    let root := parseDict D p
    versionErrors (dictGet root (ascii "uidl_version")) ++
      schemaRefErrors (dictGet root (ascii "schema_ref")) ++
      controlsErrors D (dictGet root (ascii "controls"))
  else [ascii "root not an object"]).take maxUidlErrs

end

end BlessStar.UiMap
