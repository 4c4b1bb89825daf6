import BlessStar.Assistant.ExecutionTrace

/-!
# Gate documents and Blockly blocks

The seven registered block types with the fields of their JSON definitions,
their generators and their deserializers (`blocks/*.ts`).  A generator's output
is modelled by the JSON values whose texts it concatenates, so that `JSON.parse`
reads one value back and rejects two texts in a row.
-/

namespace BlessStar.Blockly

open Lib.Utf8Text Assistant

/-- `GateChainNode`: an object of a registered type with its members, or what else a
member may hold: an array, and the raw text of several generated values. -/
inductive GateJson where
  | gateDefault (gateId scenario : Utf16) (do_ : GateJson)
  | condition (conditionId : Utf16) (if_ then_ else_ : Option GateJson)
  | logicAnd (a b : Option GateJson)
  | logicOr (a b : Option GateJson)
  | metaRule (field operator value : Utf16)
  | policyAttr (key value : Utf16)
  | customGate (gateType vendor version : Utf16) (do_ : GateJson)
  | array (items : List GateJson)
  | text (codes : List GateJson)

namespace GateJson

/-- `node.do`. -/
def doMember : GateJson → Option GateJson
  | gateDefault _ _ d => some d
  | customGate _ _ _ d => some d
  | _ => none

/-- `node.then`. -/
def thenMember : GateJson → Option GateJson
  | condition _ _ t _ => t
  | _ => none

/-- `node.else`. -/
def elseMember : GateJson → Option GateJson
  | condition _ _ _ e => e
  | _ => none

/-- `node.if`. -/
def ifMember : GateJson → Option GateJson
  | condition _ i _ _ => i
  | _ => none

/-- `node.A`. -/
def aMember : GateJson → Option GateJson
  | logicAnd a _ => a
  | logicOr a _ => a
  | _ => none

/-- `node.B`. -/
def bMember : GateJson → Option GateJson
  | logicAnd _ b => b
  | logicOr _ b => b
  | _ => none

def elements : Option GateJson → List GateJson
  | some (array items) => items
  | _ => []

end GateJson

structure GateChainDocument where
  version : Utf16
  gates : List GateJson

inductive BlockType where
  | gateDefault | condition | logicAnd | logicOr | metaRule | policyAttr | customGate
  deriving DecidableEq, Repr

/-- `findBlockType` with the look-up in the registry; `none` is an unknown type. -/
def findBlockType : GateJson → Option BlockType
  | .gateDefault .. => some .gateDefault
  | .condition .. => some .condition
  | .logicAnd .. => some .logicAnd
  | .logicOr .. => some .logicOr
  | .metaRule .. => some .metaRule
  | .policyAttr .. => some .policyAttr
  | .customGate .. => some .customGate
  | .array _ => none
  | .text _ => none

inductive FieldName where
  | gateName | scenario | condName | field | operator | value
  | attrKey | attrValue | gateType | vendor | version
  deriving DecidableEq, Repr

/-- A field of a JSON definition: `field_input` with its text, or `field_dropdown`. -/
inductive FieldDef where
  | input (text : Utf16)
  | dropdown (options : List Utf16)

def FieldDef.initial : FieldDef → Utf16
  | input text => text
  | dropdown options => options.headD []

def FieldDef.accepts : FieldDef → Utf16 → Bool
  | input _, _ => true
  | dropdown options, v => options.contains v

/-- The options of `SCENARIO`. -/
def scenarioOptions : List Utf16 :=
  [utf16Of "default", utf16Of "production", utf16Of "disaster_recovery", utf16Of "audit",
    utf16Of "debug"]

/-- The options of `OPERATOR`. -/
def operatorOptions : List Utf16 :=
  [utf16Of "eq", utf16Of "ne", utf16Of "contains", utf16Of "regex", utf16Of "exists",
    utf16Of "not_exists"]

def fieldDef : BlockType → FieldName → Option FieldDef
  | .gateDefault, .gateName => some (.input (utf16Of "gate_id"))
  | .gateDefault, .scenario => some (.dropdown scenarioOptions)
  | .condition, .condName => some (.input (utf16Of "condition_id"))
  | .metaRule, .field => some (.input (utf16Of "metadata.field"))
  | .metaRule, .operator => some (.dropdown operatorOptions)
  | .metaRule, .value => some (.input [])
  | .policyAttr, .attrKey => some (.input (utf16Of "key"))
  | .policyAttr, .attrValue => some (.input (utf16Of "value"))
  | .customGate, .gateType => some (.input (utf16Of "custom_type"))
  | .customGate, .vendor => some (.input (utf16Of "default"))
  | .customGate, .version => some (.input (utf16Of "1.0.0"))
  | _, _ => none

abbrev Fields := FieldName → Option Utf16

/-- The fields of `workspace.newBlock(type)`. -/
def newFields (type : BlockType) : Fields := fun name => (fieldDef type name).map FieldDef.initial

/-- `setFieldValue`: a missing field and a value that the field rejects change nothing. -/
def setFieldValue (type : BlockType) (fields : Fields) (name : FieldName) (v : Utf16) : Fields :=
  match fieldDef type name with
  | none => fields
  | some d => if d.accepts v then Function.update fields name (some v) else fields

/-- `v || d` on strings. -/
def orDefault (v d : Utf16) : Utf16 := if v = [] then d else v

/-- The `deserializer` of each block type; the logic blocks have none. -/
def deserializer : GateJson → List (FieldName × Utf16)
  | .gateDefault gateId scenario _ =>
      [(.gateName, orDefault gateId (utf16Of "gate_id")),
        (.scenario, orDefault scenario (utf16Of "default"))]
  | .condition conditionId _ _ _ =>
      [(.condName, orDefault conditionId (utf16Of "condition_id"))]
  | .metaRule field operator value =>
      [(.field, orDefault field (utf16Of "metadata.field")),
        (.operator, orDefault operator (utf16Of "eq")), (.value, orDefault value [])]
  | .policyAttr key value =>
      [(.attrKey, orDefault key (utf16Of "key")), (.attrValue, orDefault value [])]
  | .customGate gateType vendor version _ =>
      [(.gateType, orDefault gateType (utf16Of "custom_type")),
        (.vendor, orDefault vendor (utf16Of "default")),
        (.version, orDefault version (utf16Of "1.0.0"))]
  | _ => []

/-- A block with its fields, the blocks in its value inputs `IF`, `A` and `B`, and those
stacked in its statement inputs `DO`, `THEN` and `ELSE`. -/
inductive Block where
  | mk (type : BlockType) (fields : Fields) (if_ a b : Option Block)
      (do_ then_ else_ : List Block)

/-- `deserializeSingleNode` without a parent. -/
def deserializeSingleNode (node : GateJson) : Option (BlockType × Fields) :=
  (findBlockType node).map fun type =>
    (type, (deserializer node).foldl (fun fs p => setFieldValue type fs p.1 p.2) (newFields type))

/-- `block.getFieldValue(name) || d`. -/
def fieldOr (fields : Fields) (name : FieldName) (d : Utf16) : Utf16 :=
  orDefault ((fields name).getD []) d

/-- `code ? JSON.parse(code) : []`, which throws on two texts in a row. -/
def parseStatements : List GateJson → Option GateJson
  | [] => some (.array [])
  | [j] => some j
  | _ => none

/-- The member set by `if (code) try \x7b JSON.parse(code) \x7d catch \x7b code \x7d`. -/
def parseMember : List GateJson → Option GateJson
  | [] => none
  | [j] => some j
  | codes => some (.text codes)

mutual

/-- The generator of a block; `none` is an exception. -/
def generate : Block → Option GateJson
  | .mk .gateDefault fields _ _ _ do_ _ _ => do
      let code ← statementToCode do_
      let member ← parseStatements code
      return .gateDefault (fieldOr fields .gateName (utf16Of "gate_id"))
        (fieldOr fields .scenario (utf16Of "default")) member
  | .mk .condition fields if_ _ _ _ then_ else_ => do
      let ifValue ← valueToCode if_
      let thenStatements ← statementToCode then_
      let elseStatements ← statementToCode else_
      return .condition (fieldOr fields .condName (utf16Of "condition_id")) (parseMember ifValue)
        (parseMember thenStatements) (parseMember elseStatements)
  | .mk .logicAnd _ _ a b _ _ _ => do
      let aVal ← valueToCode a
      let bVal ← valueToCode b
      return .logicAnd (parseMember aVal) (parseMember bVal)
  | .mk .logicOr _ _ a b _ _ _ => do
      let aVal ← valueToCode a
      let bVal ← valueToCode b
      return .logicOr (parseMember aVal) (parseMember bVal)
  | .mk .metaRule fields _ _ _ _ _ _ =>
      some (.metaRule (fieldOr fields .field (utf16Of "metadata.field"))
        (fieldOr fields .operator (utf16Of "eq")) (fieldOr fields .value []))
  | .mk .policyAttr fields _ _ _ _ _ _ =>
      some (.policyAttr (fieldOr fields .attrKey (utf16Of "key")) (fieldOr fields .attrValue []))
  | .mk .customGate fields _ _ _ do_ _ _ => do
      let code ← statementToCode do_
      let member ← parseStatements code
      return .customGate (fieldOr fields .gateType (utf16Of "custom_type"))
        (fieldOr fields .vendor (utf16Of "default"))
        (fieldOr fields .version (utf16Of "1.0.0")) member

def valueToCode : Option Block → Option (List GateJson)
  | none => some []
  | some block => do
      let code ← generate block
      return [code]

/-- `generator.statementToCode`: the outputs of the stacked blocks in a row. -/
def statementToCode : List Block → Option (List GateJson)
  | [] => some []
  | block :: rest => do
      let code ← generate block
      let codes ← statementToCode rest
      return code :: codes

end

end BlessStar.Blockly

/-!
## Loading a document into the workspace and back

`deserializer.ts` and `serializer.ts`.  The workspace is the list of its top
stacks, each a block with the blocks below it.  What Blockly adds is taken as a
parameter: the connections a type of block has, and whether the value that
`initSvg()` returns can be called.
-/

namespace BlessStar.Blockly

open Lib.Utf8Text Assistant

/-- `previousStatement`, `nextStatement` and `output` of a JSON definition. -/
structure Connections where
  previous : Bool := false
  next : Bool := false
  output : Bool := false

/-- The editor that the two functions run in.  No semicolon stands between `initSvg()` and the
parenthesis on the line after it, so that the two lines are the call
`block.initSvg()(block).render()`. -/
structure Editor where
  connections : BlockType → Connections
  initSvgCallable : Bool

/-- The editor of the registered definitions: none of them declares a connection, and
`initSvg()` returns nothing. -/
def declaredEditor : Editor := ⟨fun _ => {}, false⟩

abbrev Workspace := List (List Block)

namespace Block

def type : Block → BlockType
  | mk type .. => type

def single : BlockType × Fields → Block
  | (type, fields) => mk type fields none none none [] [] []

/-- The block with `A` and `B` connected. -/
def withOperands : Block → Option Block → Option Block → Block
  | mk type fields if_ _ _ do_ then_ else_, a, b => mk type fields if_ a b do_ then_ else_

end Block

namespace Editor

variable (ed : Editor)

def joinsValue (type : BlockType) : Bool :=
  (ed.connections type).output && !(ed.connections type).previous

def connectValue (block : Block) : Option Block × Workspace :=
  if ed.joinsValue block.type then (some block, []) else (none, [[block]])

/-- `deserializeSingleNode` of a member `A` or `B`, when there is one. -/
def deserializeOperand : Option GateJson → Option Block × Workspace
  | none => (none, [])
  | some node =>
      match deserializeSingleNode node with
      | none => (none, [])
      | some new => ed.connectValue (Block.single new)

/-- The member `if` with its own `A` and `B`. -/
def deserializeTest : Option GateJson → Option Block × Workspace
  | none => (none, [])
  | some node =>
      match deserializeSingleNode node with
      | none => (none, [])
      | some new =>
          let a := ed.deserializeOperand node.aMember
          let b := ed.deserializeOperand node.bMember
          let test := ed.connectValue ((Block.single new).withOperands a.1 b.1)
          (test.1, test.2 ++ a.2 ++ b.2)

def stacked (blocks : List Block) : Workspace :=
  blocks.splitBy fun prevChild child =>
    (ed.connections prevChild.type).next && (ed.connections child.type).previous

def connectStatement : Workspace → List Block × Workspace
  | (block :: below) :: rest =>
      if (ed.connections block.type).previous then (block :: below, rest)
      else ([], (block :: below) :: rest)
  | other => ([], other)

/-- `deserializeChildren`; the first child that becomes a block runs into the call of
`initSvg()`'s value. -/
def deserializeChildren (children : List GateJson) : Option (List Block × Workspace) :=
  let blocks := (children.filterMap deserializeSingleNode).map Block.single
  if blocks ≠ [] ∧ ed.initSvgCallable = false then none
  else some (ed.connectStatement (ed.stacked blocks))

/-- One pass of the loop of `deserializeToWorkspace`: the stacks that a gate adds. -/
def deserializeGate (node : GateJson) : Option Workspace :=
  match deserializeSingleNode node with
  | none => some []
  | some (type, fields) => do
      let do_ ← ed.deserializeChildren (GateJson.elements node.doMember)
      let then_ ← ed.deserializeChildren (GateJson.elements node.thenMember)
      let else_ ← ed.deserializeChildren (GateJson.elements node.elseMember)
      let if_ := ed.deserializeTest node.ifMember
      let a := ed.deserializeOperand node.aMember
      let b := ed.deserializeOperand node.bMember
      let topBlock := Block.mk type fields if_.1 a.1 b.1 do_.1 then_.1 else_.1
      if ed.initSvgCallable then
        some ([topBlock] :: (do_.2 ++ then_.2 ++ else_.2 ++ if_.2 ++ a.2 ++ b.2))
      else none

def deserializeToWorkspace (jsonDoc : GateChainDocument) : Option Workspace :=
  (jsonDoc.gates.mapM ed.deserializeGate).map List.flatten

end Editor

/-- `serializeWorkspace`: the output of the generators of the top blocks. -/
def serializeWorkspace (workspace : Workspace) : Option GateChainDocument :=
  ((workspace.filterMap List.head?).mapM generate).map fun gates => ⟨utf16Of "1.0", gates⟩

/-- A document through the workspace and back; `none` is an exception on the way. -/
def visualRoundTrip (ed : Editor) (jsonDoc : GateChainDocument) : Option GateChainDocument :=
  (ed.deserializeToWorkspace jsonDoc).bind serializeWorkspace

end BlessStar.Blockly
