import BlessStar.Gate.AstCompiler

/-!
# Gate chains as JSON

`bs_gate_chain_to_json` and `bs_gate_chain_from_json` of
`gate_chain_serialize.c`.  Its tokenizer and the code that skips a value are
those of the AST compiler, byte for byte.
-/

namespace BlessStar.Gate

open Lib.ByteString

/-- The numbers of the chain parser, which also casts them to `int`. -/
structure CNumber (ν : Type) extends CDouble ν where
  toInt : ν → Int

def gateLayerCount : Int := 3

/-- One turn of `json_escape`. -/
def jsonEscapeByte (c : UInt8) : Bytes :=
  if c = ch '"' then ascii "\\\""
  else if c = ch '\\' then ascii "\\\\"
  else if c = 10 then ascii "\\n"
  else if c = 13 then ascii "\\r"
  else if c = 9 then ascii "\\t"
  else if c < 32 then ascii "\\u00" ++ [digitByte (c.toNat / 16), digitByte (c.toNat % 16)]
  else [c]

def jsonEscape (s : Bytes) : Bytes := ch '"' :: (s.flatMap jsonEscapeByte ++ [ch '"'])

def indentation (indent : Nat) : Bytes := (List.replicate indent (ascii "  ")).flatten

def stringMember (key : String) (s : Option Bytes) : List Bytes :=
  s.toList.map fun s => ascii "\"" ++ ascii key ++ ascii "\":" ++ jsonEscape s

def scalarMembers (s : GateScalars) : List Bytes :=
  stringMember "type" s.type ++ stringMember "id" s.id ++ stringMember "field_key" s.fieldKey ++
    stringMember "op" s.op ++ stringMember "value" s.value ++
    (if 0 ≤ s.layer ∧ s.layer < gateLayerCount then
      [ascii "\"layer\":" ++ decimal s.layer.toNat] else []) ++
    stringMember "stable_key" s.stableKey ++ stringMember "sub_category" s.subCategory ++
    stringMember "domain" s.domain ++ stringMember "entity" s.entity

/-- The frame of `serialize_node_array` around its items. -/
def arrayText (indent : Nat) (items : List Bytes) : Bytes :=
  ascii "[\n" ++
    (ascii ",\n").intercalate (items.map fun item => indentation (indent + 1) ++ item) ++
    ascii "\n" ++ indentation indent ++ ascii "]"

def arrayMember (indent : Nat) (key : String) (items : List Bytes) : List Bytes :=
  if items = [] then []
  else [ascii "\n" ++ indentation (indent + 1) ++ ascii "\"" ++ ascii key ++ ascii "\":" ++
    arrayText (indent + 1) items]

def objectText (members : List Bytes) : Bytes :=
  ascii "\x7b" ++ (ascii ",").intercalate members ++ ascii "\x7d"

mutual

def serializeNode (indent : Nat) : GateNode → Bytes
  | .mk s children doNodes =>
      objectText (scalarMembers s ++
        arrayMember indent "children" (serializeNodes (indent + 2) children) ++
        arrayMember indent "do" (serializeNodes (indent + 2) doNodes))

def serializeNodes (indent : Nat) : List GateNode → List Bytes
  | [] => []
  | n :: ns => serializeNode indent n :: serializeNodes indent ns

end

def gateChainToJson (chain : GateChain) : Bytes :=
  ascii "\x7b\n" ++
    (ascii "  \"version\":\"" ++ chain.version.getD (ascii "1.0") ++ ascii "\",\n") ++
    ascii "  \"root\":" ++
    (match chain.root with
      | some root => serializeNode 1 root
      | none => ascii "null") ++
    ascii "\n\x7d\n"

section

variable {ν : Type} (D : CNumber ν)

/-- The fields of `parse_node` that are no arrays; `none` for another key or
another kind of token. -/
def setScalar (key : Bytes) (tok : Astok ν) (s : GateScalars) : Option GateScalars :=
  match tok with
  | .string val =>
      if key = ascii "type" then some { s with type := some val }
      else if key = ascii "id" then some { s with id := some val }
      else if key = ascii "field_key" then some { s with fieldKey := some val }
      else if key = ascii "op" then some { s with op := some val }
      else if key = ascii "value" then some { s with value := some val }
      else if key = ascii "stable_key" then some { s with stableKey := some val }
      else if key = ascii "sub_category" then some { s with subCategory := some val }
      else if key = ascii "domain" then some { s with domain := some val }
      else if key = ascii "entity" then some { s with entity := some val }
      else none
  | .number val => if key = ascii "layer" then some { s with layer := D.toInt val } else none
  | _ => none

mutual

/-- The loop of `parse_node`; out of fuel is `none`. -/
def parseMembers : Nat → Asparse ν → GateNode → Option (GateNode × Asparse ν)
  | 0, _, _ => none
  | n + 1, p, node =>
      match p.tok with
      | .string key =>
          let colon := asparseAdvance D.toCDouble p
          if colon.tok.isColon = false then some (node, colon)
          else
            let p := asparseAdvance D.toCDouble colon
            match setScalar D key p.tok node.scalars, p.tok with
            | some s, _ =>
                parseMembers n (skipComma D.toCDouble (asparseAdvance D.toCDouble p))
                  (.mk s node.children node.doNodes)
            | none, .lbrack =>
                if key = ascii "children" then
                  match parseNodeArray n p with
                  | none => none
                  | some (arr, p) =>
                      parseMembers n (skipComma D.toCDouble p) (.mk node.scalars arr node.doNodes)
                else if key = ascii "do" then
                  match parseNodeArray n p with
                  | none => none
                  | some (arr, p) =>
                      parseMembers n (skipComma D.toCDouble p) (.mk node.scalars node.children arr)
                else parseMembers n (skipComma D.toCDouble (skipValue D.toCDouble p)) node
            | none, _ => parseMembers n (skipComma D.toCDouble (skipValue D.toCDouble p)) node
      | _ => some (node, p)

/-- `parse_node`, at an opening brace. -/
def parseNode : Nat → Asparse ν → Option (GateNode × Asparse ν)
  | 0, _ => none
  | n + 1, p =>
      (parseMembers n (asparseAdvance D.toCDouble p) (.mk {} [] [])).map fun r =>
        (r.1, closeObject D.toCDouble r.2)

/-- The loop of `parse_node_array`. -/
def parseNodes : Nat → Asparse ν → Option (List GateNode × Asparse ν)
  | 0, _ => none
  | n + 1, p =>
      if p.tok.isLbrace = false then some ([], p)
      else
        match parseNode n p with
        | none => none
        | some (node, p) =>
            (parseNodes n (skipComma D.toCDouble p)).map fun r => (node :: r.1, r.2)

/-- `parse_node_array`, at an opening bracket. -/
def parseNodeArray : Nat → Asparse ν → Option (List GateNode × Asparse ν)
  | 0, _ => none
  | n + 1, p =>
      (parseNodes n (asparseAdvance D.toCDouble p)).map fun r =>
        (r.1, if r.2.tok.isEof then r.2 else asparseAdvance D.toCDouble r.2)

end

def legacyGatesToDag (nodes : List GateNode) : Option GateNode :=
  match nodes with
  | [] => none
  | [node] => some node
  | _ => some (.mk { type := some (ascii "bs_gate_root"), id := some (ascii "_auto_root") } nodes [])

/-- The value of a key of the chain; `none` out of fuel. -/
def parseChainValue (n : Nat) (key : Bytes) (p : Asparse ν) (chain : GateChain) :
    Option (GateChain × Asparse ν) :=
  if key = ascii "version" then
    match p.tok with
    | .string val => some ({ chain with version := some val }, asparseAdvance D.toCDouble p)
    | _ => some (chain, asparseAdvance D.toCDouble p)
  else if key = ascii "root" then
    match p.tok with
    | .lbrace => (parseNode D n p).map fun r => ({ chain with root := some r.1 }, r.2)
    | .null => some ({ chain with root := none }, asparseAdvance D.toCDouble p)
    | _ => some (chain, p)
  else if key = ascii "gates" then
    match p.tok with
    | .lbrack =>
        (parseNodeArray D n p).map fun r => ({ chain with root := legacyGatesToDag r.1 }, r.2)
    | _ => some (chain, skipValue D.toCDouble p)
  else some (chain, skipValue D.toCDouble p)

/-- The loop of `bs_gate_chain_from_json`; the code -1 is `some none`. -/
def parseChain : Nat → Asparse ν → GateChain → Option (Option GateChain)
  | 0, _, _ => none
  | n + 1, p, chain =>
      match p.tok with
      | .string key =>
          let colon := asparseAdvance D.toCDouble p
          if colon.tok.isColon = false then some none
          else
            match parseChainValue D n key (asparseAdvance D.toCDouble colon) chain with
            | none => none
            | some (chain, p) => parseChain n (skipComma D.toCDouble p) chain
      | _ => some (some chain)

/-- `bs_gate_chain_from_json`; the code -1 is `some none`. -/
def gateChainFromJson (fuel : Nat) (json : Bytes) : Option (Option GateChain) :=
  let p : Asparse ν := lex D.toCDouble (cstr json)
  if p.tok.isLbrace = false then some none
  else parseChain D fuel (asparseAdvance D.toCDouble p) {}

end

end BlessStar.Gate
