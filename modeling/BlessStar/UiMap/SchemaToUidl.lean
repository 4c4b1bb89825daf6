import BlessStar.Schema.Draft07
import BlessStar.Lib.JsonText

/-!
# Schemas as render descriptions

`bs_schema_to_uidl` of `schema_to_uidl.c` with the default widgets of
`ui_render_desc.c`, and the JSON value that a description should have.  Strings
are escaped as in the gate chain, byte for byte.
-/

namespace BlessStar.UiMap

open Lib.ByteString
open Gate (ch jsonEscape)
open Schema (FieldDef FieldInfo SchemaType intText member)

/-- `bs_ui_widget_type_t`. -/
inductive UiWidget
  | input
  | select
  | checkbox
  | radio
  | switch
  | textarea
  | number
  | datepicker
  | fileUpload
  | keyValueTable
  | group
  | table
  | repeatableGroup
  | custom
  deriving DecidableEq, Repr

def UiWidget.typeStr : UiWidget → Bytes
  | input => ascii "input"
  | select => ascii "select"
  | checkbox => ascii "checkbox"
  | radio => ascii "radio"
  | switch => ascii "switch"
  | textarea => ascii "textarea"
  | number => ascii "number"
  | datepicker => ascii "datepicker"
  | fileUpload => ascii "file_upload"
  | keyValueTable => ascii "key_value_table"
  | group => ascii "group"
  | table => ascii "table"
  | repeatableGroup => ascii "repeatable_group"
  | custom => ascii "custom"

def defaultWidgetForType (type : SchemaType) (hasEnum : Bool) : UiWidget :=
  match type with
  | .enum => .select
  | .str => if hasEnum then .select else .input
  | .i32 | .i64 | .f64 => .number
  | .bool => .checkbox
  | .obj => .group
  | .arr => .repeatableGroup

def fieldWidget (info : FieldInfo) : UiWidget :=
  defaultWidgetForType info.type (info.enumValues.getD [] ≠ [])

/-- `path_buf`: the buffer holds 1023 bytes and the terminator. -/
def pathBuf (parentPath name : Bytes) : Bytes :=
  (if parentPath ≠ [] then parentPath ++ ch '.' :: name else name).take 1023

def childrenText (controls : List Bytes) : Bytes :=
  if controls = [] then ascii "[]"
  else ascii "[\n" ++ (ascii ",\n").intercalate controls ++ ascii "]"

def controlMembers (info : FieldInfo) (path children : Bytes) : List Bytes :=
  [member "field" (jsonEscape path), member "widget" (jsonEscape (fieldWidget info).typeStr)] ++
    (info.uiLabel.toList.map fun label => member "label" (jsonEscape label)) ++
    [member "order" (intText info.uiOrder)] ++
    (info.aiHint.toList.map fun hint => member "ai_layout_hint" (jsonEscape hint)) ++
    [member "visibility" (ascii "null"), member "default_value" (ascii "null"),
      member "children" children, member "validation_ref" (ascii "null")]

def linedObject (members : List Bytes) : Bytes :=
  ascii "\x7b\n" ++ (ascii ",\n").intercalate members ++ ascii "\n\x7d"

mutual

def emitOneControl (parentPath : Bytes) : FieldDef → Bytes
  | .mk info nested elems =>
      let path := pathBuf parentPath info.name
      linedObject (controlMembers info path (childrenText
        (if info.type = .obj then emitControls path nested
        else if info.type = .arr ∧ info.elemType = .obj then emitControls path elems
        else [])))

/-- The controls that `emit_controls` separates with commas. -/
def emitControls (parentPath : Bytes) : List FieldDef → List Bytes
  | [] => []
  | fd :: fds => emitOneControl parentPath fd :: emitControls parentPath fds

end

/-- `bs_schema_to_uidl`; `none` is a schema without an id. -/
def schemaToUidl (schemaId : Option Bytes) (rootFields : List FieldDef) : Bytes :=
  linedObject
    [member "uidl_version" (ascii "1"),
      member "schema_ref" (jsonEscape (schemaId.getD (ascii "unknown"))),
      member "controls" (ascii "[\n" ++ (ascii ",\n").intercalate (emitControls [] rootFields) ++
        ascii "]")] ++ ascii "\n"

section

open Lib.JsonText (Tree Trees Fields Word)

def dottedPath (names : List Bytes) : Bytes := [ch '.'].intercalate (names.dropWhile (· = []))

def objectTree (members : List (Bytes × Tree)) : Tree :=
  .object (members.foldr (fun m rest => Fields.cons m.1 m.2 rest) .nil)

def controlMemberTrees (info : FieldInfo) (path : Bytes) (children : Trees) :
    List (Bytes × Tree) :=
  [(ascii "field", .string path), (ascii "widget", .string (fieldWidget info).typeStr)] ++
    (info.uiLabel.toList.map fun label => (ascii "label", .string label)) ++
    [(ascii "order", .number (intText info.uiOrder))] ++
    (info.aiHint.toList.map fun hint => (ascii "ai_layout_hint", .string hint)) ++
    [(ascii "visibility", .word .null), (ascii "default_value", .word .null),
      (ascii "children", .array children), (ascii "validation_ref", .word .null)]

mutual

/-- The control of a field below the fields of these names: its path, its label and
its hint, and below it one control for each of its fields, in order. -/
def controlTree (above : List Bytes) : FieldDef → Tree
  | .mk info nested elems =>
      objectTree (controlMemberTrees info (dottedPath (above ++ [info.name]))
        (if info.type = .obj then controlTrees (above ++ [info.name]) nested
        else if info.type = .arr ∧ info.elemType = .obj then
          controlTrees (above ++ [info.name]) elems
        else .nil))

def controlTrees (above : List Bytes) : List FieldDef → Trees
  | [] => .nil
  | fd :: fds => .cons (controlTree above fd) (controlTrees above fds)

end

def uidlTree (schemaId : Option Bytes) (rootFields : List FieldDef) : Tree :=
  objectTree [(ascii "uidl_version", .number (ascii "1")),
    (ascii "schema_ref", .string (schemaId.getD (ascii "unknown"))),
    (ascii "controls", .array (controlTrees [] rootFields))]

end

mutual

/-- A field at this depth: it is at most 32, the path is shorter than 1024 bytes, and
so for the fields below. -/
def FieldFits (above : List Bytes) (depth : Nat) : FieldDef → Prop
  | .mk info nested elems =>
      depth ≤ 32 ∧ (dottedPath (above ++ [info.name])).length < 1024 ∧
        if info.type = .obj then FieldsFit (above ++ [info.name]) (depth + 1) nested
        else if info.type = .arr ∧ info.elemType = .obj then
          FieldsFit (above ++ [info.name]) (depth + 1) elems
        else True

def FieldsFit (above : List Bytes) (depth : Nat) : List FieldDef → Prop
  | [] => True
  | fd :: fds => FieldFits above depth fd ∧ FieldsFit above depth fds

end

end BlessStar.UiMap
