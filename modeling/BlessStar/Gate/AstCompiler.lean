import BlessStar.Gate.Lexer

/-!
# The gate AST compiler

`bs_gate_ast_compile` of `gate_ast_compiler.c`: a recursive descent over the
JSON text that builds gate nodes as it goes.  The recursion takes fuel and
gives `none` when it runs out.
-/

namespace BlessStar.Gate

open Lib.ByteString

structure AstFields where
  type : Option Bytes := none
  field : Option Bytes := none
  op : Option Bytes := none
  value : Option Bytes := none
  name : Option Bytes := none
  left : Option GateNode := none
  right : Option GateNode := none
  when : Option GateNode := none
  doNode : Option GateNode := none
  notNode : Option GateNode := none

inductive AstSlot
  | left
  | right
  | when
  | doNode
  | notNode

def AstSlot.ofKey (key : Bytes) : Option AstSlot :=
  if key = ascii "left" then some left
  else if key = ascii "right" then some right
  else if key = ascii "when" then some when
  else if key = ascii "do" then some doNode
  else if key = ascii "node" then some notNode
  else none

def AstFields.setNode (f : AstFields) (node : Option GateNode) : AstSlot → AstFields
  | .left => { f with left := node }
  | .right => { f with right := node }
  | .when => { f with when := node }
  | .doNode => { f with doNode := node }
  | .notNode => { f with notNode := node }

/-- What a node gets when it is registered in its chain: a stable key, if it
has a field and an operator and no key yet. -/
def GateNode.register (n : GateNode) : GateNode :=
  match n.scalars.stableKey, n.scalars.fieldKey, n.scalars.op with
  | none, some field, some op =>
      let key := ascii "ast:" ++ field ++ ascii ":" ++ op ++ ascii ":" ++
        decimal n.scalars.layer.toNat ++ ascii ":compiled"
      -- `snprintf` into a `char[256]`
      mk { n.scalars with stableKey := some (key.take 255) } n.children n.doNodes
  | _, _, _ => n

/-- The node of a `then`: a condition that takes over the scalar fields and the
children of its when-part. -/
def thenNode (when doNode : Option GateNode) : GateNode :=
  let node := GateNode.create (ascii "bs_condition") none
  let node :=
    match when with
    | none => node
    | some w =>
        .mk { node.scalars with
              fieldKey := w.scalars.fieldKey, op := w.scalars.op, value := w.scalars.value }
          w.children []
  node.linkDo doNode

def buildNode (type : Bytes) (f : AstFields) : Option GateNode :=
  if type = ascii "condition" then
    some (.mk { type := some (ascii "bs_condition"), fieldKey := f.field, op := f.op,
                value := f.value, layer := gateLayerDefault } [] [])
  else if type = ascii "and" then
    some (((GateNode.create (ascii "bs_logic_and") none).linkChild f.left).linkChild f.right)
  else if type = ascii "or" then
    some (((GateNode.create (ascii "bs_logic_or") none).linkChild f.left).linkChild f.right)
  else if type = ascii "not" then f.notNode
  else if type = ascii "then" then some (thenNode f.when f.doNode)
  else if type = ascii "action" then
    some (.mk { type := some (ascii "bs_meta_rule"), fieldKey := f.name,
                op := some (ascii "action"), value := f.value } [] [])
  else some (GateNode.create type none)

section

variable {ν : Type} (D : CDouble ν)

def parseStringField (p : Asparse ν) : Option Bytes × Asparse ν :=
  match p.tok with
  | .string val => (some val, asparseAdvance D p)
  | _ => (none, p)

def parseValueAsString (p : Asparse ν) : Option Bytes × Asparse ν :=
  match p.tok with
  | .string val => (some val, asparseAdvance D p)
  | .number val => (some (D.formatG val), asparseAdvance D p)
  | _ => (none, p)

/-- `peek_type`: only the first key of the object is looked at. -/
def peekType (p : Asparse ν) : Option Bytes :=
  match p.tok, (asparseAdvance D p).tok with
  | .lbrace, .string key =>
      let colon := asparseAdvance D (asparseAdvance D p)
      if colon.tok.isColon = false ∨ key ≠ ascii "type" then none
      else
        match (asparseAdvance D colon).tok with
        | .string type => some type
        | _ => none
  | _, _ => none

def skipLoop : Nat → Int → Asparse ν → Asparse ν
  | 0, _, p => p
  | n + 1, depth, p =>
      match p.tok with
      | .eof | .error => p
      | _ =>
          if depth ≤ 0 then p
          else
            let p := asparseAdvance D p
            skipLoop n (depth + p.tok.depthStep) p

def skipNested (p : Asparse ν) : Asparse ν :=
  let p := skipLoop D (p.rest.length + 1) 1 p
  if p.tok.isEof then p else asparseAdvance D p

def skipValue (p : Asparse ν) : Asparse ν :=
  match p.tok with
  | .lbrace | .lbrack => skipNested D p
  | _ => asparseAdvance D p

def skipComma (p : Asparse ν) : Asparse ν := if p.tok.isComma then asparseAdvance D p else p

/-- The end of `ast_parse_fields`. -/
def closeObject (p : Asparse ν) : Asparse ν := if p.tok.isRbrace then asparseAdvance D p else p

/-- The value of a key that is not a node; `none` for other keys. -/
def parseScalar (key : Bytes) (p : Asparse ν) (f : AstFields) : Option (AstFields × Asparse ν) :=
  let str := parseStringField D p
  if key = ascii "type" then some ({ f with type := str.1 }, str.2)
  else if key = ascii "field" then some ({ f with field := str.1 }, str.2)
  else if key = ascii "op" then some ({ f with op := str.1 }, str.2)
  else if key = ascii "value" then
    let value := parseValueAsString D p
    some ({ f with value := value.1 }, value.2)
  else if key = ascii "name" then some ({ f with name := str.1 }, str.2)
  else none

mutual

/-- The loop of `ast_parse_fields`, after the opening brace. -/
def astParseFields : Nat → Asparse ν → AstFields → Option (AstFields × Asparse ν)
  | 0, _, _ => none
  | n + 1, p, f =>
      match p.tok with
      | .string key =>
          let colon := asparseAdvance D p
          if colon.tok.isColon = false then some (f, closeObject D colon)
          else
            let p := asparseAdvance D colon
            match parseScalar D key p f with
            | some (f, p) => astParseFields n (skipComma D p) f
            | none =>
                match AstSlot.ofKey key, p.tok.isLbrace with
                | some slot, true =>
                    match compileAstNode n p with
                    | none => none
                    | some (node, p) => astParseFields n (skipComma D p) (f.setNode node slot)
                | _, _ => astParseFields n (skipComma D (skipValue D p)) f
      | _ => some (f, closeObject D p)

def compileAstNode : Nat → Asparse ν → Option (Option GateNode × Asparse ν)
  | 0, _ => none
  | n + 1, p =>
      if p.tok.isLbrace = false then some (none, p)
      else
        match peekType D p with
        | none => some (none, skipNested D p)
        | some type =>
            match astParseFields n (asparseAdvance D p) {} with
            | none => none
            | some (f, p) => some ((buildNode type f).map GateNode.register, p)

end

def compileArray : Nat → Asparse ν → GateNode → Option GateNode
  | 0, _, _ => none
  | n + 1, p, root =>
      if p.tok.isLbrace = false then some root
      else
        match compileAstNode D n p with
        | none => none
        | some (child, p) => compileArray n (skipComma D p) (root.linkChild child)

def gateAstCompile (json : Bytes) : Option GateChain :=
  let text := cstr json
  let p : Asparse ν := lex D text
  match p.tok with
  | .lbrace => (compileAstNode D (text.length + 2) p).map fun r => { root := r.1 }
  | .lbrack =>
      (compileArray D (text.length + 2) (asparseAdvance D p)
        (GateNode.create (ascii "bs_gate_root") (some (ascii "_ast_root")))).map fun root =>
          { root := some root }
  | _ => some {}

end

def gateAstCompileCondition (fieldKey op value : Bytes) : GateChain where
  root := some (.mk { type := some (ascii "bs_condition"), fieldKey := some fieldKey,
                      op := some op, value := some value, layer := gateLayerDefault } [] [])

end BlessStar.Gate
