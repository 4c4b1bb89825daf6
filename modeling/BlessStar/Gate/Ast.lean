import BlessStar.Gate.AstCompiler
import BlessStar.Gate.Evaluator

/-!
# The gate AST and its readings

The AST of `gate_ast.h` as a type of its own, its JSON texts, the reading its
schema suggests and the one the compiler and the evaluator give it.
-/

namespace BlessStar.Gate

open Lib.ByteString

/-- The node types of `gate_ast.h`. -/
inductive GateAst
  | condition (field op value : Bytes)
  | and (left right : GateAst)
  | or (left right : GateAst)
  | not (node : GateAst)
  | thenDo (when doPart : GateAst)
  | action (name value : Bytes)

namespace GateAst

section

variable {ν : Type} (D : CDouble ν) (field value : Bytes)

/-- The Boolean reading: a `then` asks for its do-part when its when-part
holds. -/
def holds : GateAst → Bool
  | condition f op v => f ≠ field || evalOp D op v value
  | and left right => left.holds && right.holds
  | or left right => left.holds || right.holds
  | not node => !node.holds
  | thenDo when doPart => !when.holds || doPart.holds
  | action _ _ => true

def onOtherField : GateAst → Bool
  | condition f _ _ => f ≠ field
  | action name _ => name ≠ field
  | not node => node.onOtherField
  | _ => false

/-- The gate reading: `not` is not supported and stands for its operand, and a
`then` about the field asks for both of its parts. -/
def passes : GateAst → Bool
  | condition f op v => f ≠ field || evalOp D op v value
  | and left right => left.passes && right.passes
  | or left right => left.passes || right.passes
  | not node => node.passes
  | thenDo when doPart => when.onOtherField field || (when.passes && doPart.passes)
  | action _ _ => true

end

/-- A condition or an action, under any number of `not`s. -/
def IsLeaf : GateAst → Prop
  | condition _ _ _ => True
  | action _ _ => True
  | not node => node.IsLeaf
  | _ => False

/-- Neither a `not` nor a `then`. -/
def IsPositive : GateAst → Prop
  | condition _ _ _ => True
  | and left right => left.IsPositive ∧ right.IsPositive
  | or left right => left.IsPositive ∧ right.IsPositive
  | action _ _ => True
  | _ => False

def ThenOnLeaves : GateAst → Prop
  | condition _ _ _ => True
  | and left right => left.ThenOnLeaves ∧ right.ThenOnLeaves
  | or left right => left.ThenOnLeaves ∧ right.ThenOnLeaves
  | not node => node.ThenOnLeaves
  | thenDo when doPart => when.IsLeaf ∧ doPart.ThenOnLeaves
  | action _ _ => True

section

variable {ν : Type}

def member (key : String) (value : List (Astok ν)) : List (Astok ν) :=
  .comma :: .string (ascii key) :: .colon :: value

def object (type : String) (members : List (List (Astok ν))) : List (Astok ν) :=
  .lbrace :: .string (ascii "type") :: .colon :: .string (ascii type) ::
    (members.flatten ++ [.rbrace])

/-- The tokens of the JSON texts of an AST: the type first, then the other
members of the schema in any order. -/
inductive Tokens : GateAst → List (Astok ν) → Prop
  | condition {f op v : Bytes} {ms : List (List (Astok ν))} :
      ms.Perm [member "field" [.string f], member "op" [.string op],
        member "value" [.string v]] →
      Tokens (condition f op v) (object "condition" ms)
  | and {left right : GateAst} {l r : List (Astok ν)} {ms : List (List (Astok ν))} :
      Tokens left l → Tokens right r → ms.Perm [member "left" l, member "right" r] →
      Tokens (and left right) (object "and" ms)
  | or {left right : GateAst} {l r : List (Astok ν)} {ms : List (List (Astok ν))} :
      Tokens left l → Tokens right r → ms.Perm [member "left" l, member "right" r] →
      Tokens (or left right) (object "or" ms)
  | not {node : GateAst} {t : List (Astok ν)} :
      Tokens node t → Tokens (not node) (object "not" [member "node" t])
  | thenDo {when doPart : GateAst} {w d : List (Astok ν)} {ms : List (List (Astok ν))} :
      Tokens when w → Tokens doPart d → ms.Perm [member "when" w, member "do" d] →
      Tokens (thenDo when doPart) (object "then" ms)
  | action {name v : Bytes} {ms : List (List (Astok ν))} :
      ms.Perm [member "name" [.string name], member "value" [.string v]] →
      Tokens (action name v) (object "action" ms)

end

end GateAst

inductive SpellsString : Bytes → Bytes → Prop
  | nil : SpellsString [] []
  | raw {c : UInt8} {s t : Bytes} : c ≠ 0 → c ≠ ch '"' → c ≠ ch '\\' → SpellsString s t →
      SpellsString (c :: s) (c :: t)
  | escape {c : UInt8} {s t : Bytes} : c ∈ ascii "\"\\/nrt" → SpellsString s t →
      SpellsString (unescape c :: s) (ch '\\' :: c :: t)

inductive SpellsToken {ν : Type} : Astok ν → Bytes → Prop
  | lbrace : SpellsToken .lbrace (ascii "\x7b")
  | rbrace : SpellsToken .rbrace (ascii "\x7d")
  | comma : SpellsToken .comma (ascii ",")
  | colon : SpellsToken .colon (ascii ":")
  | string {s t : Bytes} : SpellsString s t → SpellsToken (.string s) (ch '"' :: (t ++ [ch '"']))

/-- The texts of a sequence of tokens, with white space anywhere between them. -/
inductive Spells {ν : Type} : List (Astok ν) → Bytes → Prop
  | nil {ws : Bytes} : (∀ c ∈ ws, c ∈ ascii " \t\n\r") → Spells [] ws
  | cons {tok : Astok ν} {ts : List (Astok ν)} {ws x y : Bytes} :
      (∀ c ∈ ws, c ∈ ascii " \t\n\r") → SpellsToken tok x → Spells ts y →
      Spells (tok :: ts) (ws ++ (x ++ y))

def printString (s : Bytes) : Bytes :=
  s.flatMap fun c => if c = ch '"' ∨ c = ch '\\' then [ch '\\', c] else [c]

def quoted (s : Bytes) : Bytes := ch '"' :: (printString s ++ [ch '"'])

def printMember (key : String) (value : Bytes) : Bytes :=
  ascii "," ++ quoted (ascii key) ++ ascii ":" ++ value

def printObject (type : String) (members : Bytes) : Bytes :=
  ascii "\x7b" ++ quoted (ascii "type") ++ ascii ":" ++ quoted (ascii type) ++ members ++
    ascii "\x7d"

/-- The JSON text in the order of the schema, without white space. -/
def GateAst.json : GateAst → Bytes
  | condition f op v =>
      printObject "condition"
        (printMember "field" (quoted f) ++ printMember "op" (quoted op) ++
          printMember "value" (quoted v))
  | and left right =>
      printObject "and" (printMember "left" left.json ++ printMember "right" right.json)
  | or left right =>
      printObject "or" (printMember "left" left.json ++ printMember "right" right.json)
  | not node => printObject "not" (printMember "node" node.json)
  | thenDo when doPart =>
      printObject "then" (printMember "when" when.json ++ printMember "do" doPart.json)
  | action name v =>
      printObject "action" (printMember "name" (quoted name) ++ printMember "value" (quoted v))

def GateAst.NoNul : GateAst → Prop
  | condition f op v => 0 ∉ f ∧ 0 ∉ op ∧ 0 ∉ v
  | and left right => left.NoNul ∧ right.NoNul
  | or left right => left.NoNul ∧ right.NoNul
  | not node => node.NoNul
  | thenDo when doPart => when.NoNul ∧ doPart.NoNul
  | action name v => 0 ∉ name ∧ 0 ∉ v

end BlessStar.Gate

/-!
## Gate documents

JSON documents of gate ASTs with their members in any order, the type
included.  Of the order a document keeps only whether `type` is the first key
of each object, which is all that `peek_type` sees of it.
-/

namespace BlessStar.Gate

open Lib.ByteString

inductive GateDoc
  | condition (first : Bool) (field op value : Bytes)
  | and (first : Bool) (left right : GateDoc)
  | or (first : Bool) (left right : GateDoc)
  | not (first : Bool) (node : GateDoc)
  | thenDo (first : Bool) (when doPart : GateDoc)
  | action (first : Bool) (name value : Bytes)

namespace GateDoc

def ast : GateDoc → GateAst
  | condition _ f op v => .condition f op v
  | and _ left right => .and left.ast right.ast
  | or _ left right => .or left.ast right.ast
  | not _ node => .not node.ast
  | thenDo _ when doPart => .thenDo when.ast doPart.ast
  | action _ name v => .action name v

/-- The type comes first in every object that can be seen in the chain.  The
do-part of a `then` that stands as a when-part cannot. -/
def LeadsAs : Bool → GateDoc → Prop
  | _, condition first _ _ _ => first = true
  | _, and first left right => first = true ∧ left.LeadsAs false ∧ right.LeadsAs false
  | _, or first left right => first = true ∧ left.LeadsAs false ∧ right.LeadsAs false
  | isWhen, not first node => first = true ∧ node.LeadsAs isWhen
  | isWhen, thenDo first when doPart =>
      first = true ∧ when.LeadsAs true ∧ (isWhen = false → doPart.LeadsAs false)
  | _, action first _ _ => first = true

section

variable {ν : Type}

structure Members (first : Bool) (type : String) (members ms : List (List (Astok ν))) : Prop where
  perm : ms.Perm (GateAst.member "type" [.string (ascii type)] :: members)
  first_iff : first = true ↔ ms.head? = some (GateAst.member "type" [.string (ascii type)])

def braced (ms : List (List (Astok ν))) : List (Astok ν) :=
  .lbrace :: (ms.flatten.tail ++ [.rbrace])

open GateAst (member)

inductive Tokens : GateDoc → List (Astok ν) → Prop
  | condition {b : Bool} {f op v : Bytes} {ms : List (List (Astok ν))} :
      Members b "condition" [member "field" [.string f], member "op" [.string op],
        member "value" [.string v]] ms →
      Tokens (condition b f op v) (braced ms)
  | and {b : Bool} {left right : GateDoc} {l r : List (Astok ν)} {ms : List (List (Astok ν))} :
      Tokens left l → Tokens right r →
      Members b "and" [member "left" l, member "right" r] ms → Tokens (and b left right) (braced ms)
  | or {b : Bool} {left right : GateDoc} {l r : List (Astok ν)} {ms : List (List (Astok ν))} :
      Tokens left l → Tokens right r →
      Members b "or" [member "left" l, member "right" r] ms → Tokens (or b left right) (braced ms)
  | not {b : Bool} {node : GateDoc} {t : List (Astok ν)} {ms : List (List (Astok ν))} :
      Tokens node t → Members b "not" [member "node" t] ms → Tokens (not b node) (braced ms)
  | thenDo {b : Bool} {when doPart : GateDoc} {w d : List (Astok ν)}
      {ms : List (List (Astok ν))} :
      Tokens when w → Tokens doPart d →
      Members b "then" [member "when" w, member "do" d] ms →
      Tokens (thenDo b when doPart) (braced ms)
  | action {b : Bool} {name v : Bytes} {ms : List (List (Astok ν))} :
      Members b "action" [member "name" [.string name], member "value" [.string v]] ms →
      Tokens (action b name v) (braced ms)

end

end GateDoc

/-- What `bs_gate_ast_compile` takes: one AST or an array of ASTs. -/
inductive GateDocument
  | one (d : GateDoc)
  | array (ds : List GateDoc)

namespace GateDocument

def Leads : GateDocument → Prop
  | one d => d.LeadsAs false
  | array ds => ∀ d ∈ ds, d.LeadsAs false

/-- The same document with the keys of its objects in another order. -/
def Reorders : GateDocument → GateDocument → Prop
  | one d, one d' => d.ast = d'.ast
  | array ds, array ds' => ds.map GateDoc.ast = ds'.map GateDoc.ast
  | _, _ => False

inductive Tokens {ν : Type} : GateDocument → List (Astok ν) → Prop
  | one {d : GateDoc} {ts : List (Astok ν)} : d.Tokens ts → Tokens (one d) ts
  | array {ds : List GateDoc} {tss : List (List (Astok ν))} :
      List.Forall₂ GateDoc.Tokens ds tss →
      Tokens (array ds)
        (.lbrack :: ((tss.map fun ts => .comma :: ts).flatten.tail ++ [.rbrack]))

end GateDocument

end BlessStar.Gate
