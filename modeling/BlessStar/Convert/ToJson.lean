import BlessStar.Lib.JsonText

/-!
# JSON to JSON

`to_json.c`: the text is printed again byte by byte into a buffer whose size is
guessed from the size of the text.  A byte that is written behind the buffer is
kept as an overrun.
-/

namespace BlessStar.Convert

open Lib.ByteString Lib.JsonText

def EINVAL : Int := 22

def ENOBUFS : Int := 105

/-- The buffer of `pretty_print_json` and its indentation. -/
structure PrettyPrinter where
  buf : Bytes := []
  indent : Int := 0
  overrun : Bool := false

structure Converted where
  rc : Int
  out : Bytes := []
  overrun : Bool := false

namespace PrettyPrinter

/-- `buf[pos++] = c`. -/
def put (cap : Nat) (c : UInt8) (p : PrettyPrinter) : PrettyPrinter :=
  { p with buf := p.buf ++ [c], overrun := p.overrun || decide (cap ≤ p.buf.length) }

def pad (cap : Nat) : Nat → PrettyPrinter → PrettyPrinter
  | 0, p => p
  | n + 1, p =>
      if p.buf.length < cap then pad cap n ((p.put cap (ch ' ')).put cap (ch ' ')) else p

def char (cap : Nat) (c : UInt8) (p : PrettyPrinter) : PrettyPrinter :=
  if c = ch '\x7b' ∨ c = ch '[' then
    let p := p.put cap c
    let p := { p with indent := p.indent + 1 }
    (p.put cap (ch '\n')).pad cap p.indent.toNat
  else if c = ch '\x7d' ∨ c = ch ']' then
    let p := { p with indent := p.indent - 1 }
    ((p.put cap (ch '\n')).pad cap p.indent.toNat).put cap c
  else if c = ch ',' then
    ((p.put cap c).put cap (ch '\n')).pad cap p.indent.toNat
  else if c = ch ':' then
    (p.put cap c).put cap (ch ' ')
  else if c = ch ' ' ∨ c = ch '\t' ∨ c = ch '\n' ∨ c = ch '\r' then p
  else p.put cap c

def loop (cap : Nat) : Bytes → PrettyPrinter → PrettyPrinter
  | [], p => p
  | c :: rest, p => if p.buf.length < cap then loop cap rest (p.char cap c) else p

end PrettyPrinter

def prettyPrintJson (input : Bytes) : Converted :=
  if input = [] then { rc := -EINVAL }
  else
    let cap := input.length * 2 + 256
    let p := PrettyPrinter.loop cap input {}
    if cap ≤ p.buf.length then { rc := -ENOBUFS, overrun := p.overrun }
    else { rc := 0, out := p.buf ++ [0], overrun := p.overrun }

def internalToJson (v1Json : Bytes) : Converted := prettyPrintJson v1Json

/-- The conversion succeeds within its buffer, and gives a text of the same
value and a NUL. -/
structure KeepsValue (doc : Document) : Prop where
  rc : (internalToJson doc.text).rc = 0
  inBuffer : (internalToJson doc.text).overrun = false
  value : ∃ text, (internalToJson doc.text).out = text ++ [0] ∧ Spells text doc.value.tree

def respace (body : Bytes) : Bytes :=
  body.flatMap fun c => if c = ch ' ' then [] else if c = ch ':' then [c, ch ' '] else [c]

def BodyKept (body : Bytes) : Prop :=
  (∀ c ∈ body, c ∉ ascii "\x7b\x7d[],") ∧ decode (respace body) = decode body

instance (body : Bytes) : Decidable (BodyKept body) := inferInstanceAs (Decidable (_ ∧ _))

mutual

def StringsKept : Json → Prop
  | .string body => BodyKept body
  | .number _ => True
  | .word _ => True
  | .emptyArray _ => True
  | .array items => ItemsKept items
  | .emptyObject _ => True
  | .object members => MembersKept members

def ItemsKept : Items → Prop
  | .last _ item _ => StringsKept item
  | .more _ item _ rest => StringsKept item ∧ ItemsKept rest

def MembersKept : Members → Prop
  | .last key value _ => BodyKept key.body ∧ StringsKept value
  | .more key value _ rest => BodyKept key.body ∧ StringsKept value ∧ MembersKept rest

end

mutual

/-- The bytes of a value on lines of their own, indented by two spaces a level. -/
def indentedSize (level : Nat) : Json → Nat
  | .string body => (respace body).length + 2
  | .number text => text.length
  | .word w => w.text.length
  | .emptyArray _ => 4 * level + 6
  | .array items => 4 * level + 6 + itemsSize (level + 1) items
  | .emptyObject _ => 4 * level + 6
  | .object members => 4 * level + 6 + membersSize (level + 1) members

def itemsSize (level : Nat) : Items → Nat
  | .last _ item _ => indentedSize level item
  | .more _ item _ rest => indentedSize level item + (2 * level + 2) + itemsSize level rest

def membersSize (level : Nat) : Members → Nat
  | .last key value _ => (respace key.body).length + 4 + indentedSize level value
  | .more key value _ rest =>
      (respace key.body).length + 4 + indentedSize level value + (2 * level + 2) +
        membersSize level rest

end

end BlessStar.Convert
