import BlessStar.Convert.ToJson
import BlessStar.Convert.Tokens
import BlessStar.Lib.TomlText

/-!
# JSON to TOML

`to_toml.c`.  The members of the object become lines `key = value`; containers
below them are written inline.  The buffer grows as it is needed, so it is a
list of bytes.  Every call of an emitter takes a token, so the bytes left are
fuel enough.
-/

namespace BlessStar.Convert

open Lib.ByteString Lib.JsonText Lib.TomlText

abbrev nextTok : Bytes → Token × Bytes := nextToken

def tomlEmitString (s buf : Bytes) : Bytes :=
  if s.any fun c => c = ch '"' ∨ c = ch '\n' ∨ c = ch '\\' then
    buf ++ ch '"' :: (s.flatMap fun c =>
      if c = ch '"' then ascii "\\\""
      else if c = ch '\\' then ascii "\\\\"
      else [c]) ++ [ch '"']
  else buf ++ s

/-- `toml_emit_scalar`: a number goes through a buffer of 128 bytes. -/
def tomlEmitScalar (tok : Token) (buf : Bytes) : Except Int Bytes :=
  match tok with
  | .string s => .ok (tomlEmitString s buf)
  | .number text => .ok (buf ++ text.take 127)
  | .true => .ok (buf ++ ascii "true")
  | .false => .ok (buf ++ ascii "false")
  | .null => .ok (buf ++ ascii "\"null\"")
  | _ => .error (-EINVAL)

/-- `after[-1]`: the last byte that was read of a text. -/
def lastRead (text after : Bytes) : Option UInt8 :=
  (text.take (text.length - after.length)).getLast?

def skipComma (text p : Bytes) : Bytes :=
  let after := (nextTok p).2
  if lastRead text after = some (ch ',') then
    match nextTok p with
    | (.comma, q) => q
    | _ => p
  else p

mutual

def tomlEmitValue : Nat → Bytes → Bytes → Except Int (Bytes × Bytes)
  | 0, _, _ => .error (-EINVAL)
  | fuel + 1, p, buf =>
      match nextTok p with
      | (.lbrace, p) => tomlEmitTable fuel true p (buf ++ ascii "\x7b")
      | (.lbracket, p) => tomlEmitArray fuel true p (buf ++ ascii "[")
      | (tok, p) => (tomlEmitScalar tok buf).map fun buf => (p, buf)

def tomlEmitTable : Nat → Bool → Bytes → Bytes → Except Int (Bytes × Bytes)
  | 0, _, _, _ => .error (-EINVAL)
  | fuel + 1, first, p, buf =>
      match nextTok p with
      | (.rbrace, p) => .ok (p, buf ++ ascii "\x7d")
      | (.string key, p) =>
          match nextTok p with
          | (.colon, p) =>
              let buf := if first then buf else buf ++ ascii ", "
              match tomlEmitValue fuel p (tomlEmitString key buf ++ ascii " = ") with
              | .error _ => .error (-1)
              | .ok (p, buf) => tomlEmitTable fuel false p buf
          | _ => .error (-EINVAL)
      | _ => .error (-EINVAL)

def tomlEmitArray : Nat → Bool → Bytes → Bytes → Except Int (Bytes × Bytes)
  | 0, _, _, _ => .error (-EINVAL)
  | fuel + 1, first, p, buf =>
      match nextTok p with
      | (.rbracket, p) => .ok (p, buf ++ ascii "]")
      | (tok, q) =>
          let buf := if first then buf else buf ++ ascii ", "
          let item :=
            if tok = .lbrace then tomlEmitValue fuel q buf
            else (tomlEmitScalar tok buf).map fun buf => (q, buf)
          match item with
          | .error _ => .error (-1)
          | .ok (q, buf) => tomlEmitArray fuel false (skipComma p q) buf

end

/-- The loop of `bs_internal_to_toml` over the members of the object. -/
def tomlEmitLines : Nat → Bytes → Bytes → Except Int Bytes
  | 0, _, _ => .error (-EINVAL)
  | fuel + 1, p, buf =>
      match nextTok p with
      | (.rbrace, _) => .ok buf
      | (.string key, p) =>
          match nextTok p with
          | (.colon, p) =>
              match tomlEmitValue fuel p (tomlEmitString key buf ++ ascii " = ") with
              | .error _ => .error (-EINVAL)
              | .ok (p, buf) =>
                  match nextTok p with
                  | (.rbrace, _) => .ok (buf ++ ascii "\n")
                  | (_, p) => tomlEmitLines fuel p (buf ++ ascii "\n")
          | _ => .error (-EINVAL)
      | _ => .error (-EINVAL)

def internalToToml (v1Json : Bytes) : Converted :=
  match nextTok v1Json with
  | (.lbrace, p) =>
      match tomlEmitLines (v1Json.length + 1) p [] with
      | .error e => { rc := e }
      | .ok buf => { rc := 0, out := buf ++ ascii "\n" ++ [0] }
  | _ => { rc := -EINVAL }

mutual

def nullAsString : Tree → Tree
  | .word .null => .string (ascii "null")
  | .string s => .string s
  | .number text => .number text
  | .word w => .word w
  | .array items => .array (nullAsStrings items)
  | .object members => .object (nullAsFields members)

def nullAsStrings : Trees → Trees
  | .nil => .nil
  | .cons head tail => .cons (nullAsString head) (nullAsStrings tail)

def nullAsFields : Fields → Fields
  | .nil => .nil
  | .cons key value rest => .cons key (nullAsString value) (nullAsFields rest)

end

/-- The conversion succeeds, and gives a TOML text that denotes the value and a
NUL. -/
structure TomlKeeps (doc : Document) : Prop where
  rc : (internalToToml doc.text).rc = 0
  value : ∃ text, (internalToToml doc.text).out = text ++ [0] ∧
    readToml text = some (nullAsString doc.value.tree)

mutual

def Integral : Json → Prop
  | .string _ => True
  | .number text => IsInteger text
  | .word _ => True
  | .emptyArray _ => True
  | .array items => IntegralItems items
  | .emptyObject _ => True
  | .object members => IntegralMembers members

def IntegralItems : Items → Prop
  | .last _ item _ => Integral item
  | .more _ item _ rest => Integral item ∧ IntegralItems rest

def IntegralMembers : Members → Prop
  | .last _ value _ => Integral value
  | .more _ value _ rest => Integral value ∧ IntegralMembers rest

end

structure IntegralObject (doc : Document) : Prop where
  valid : doc.Valid
  object : ∃ fields, doc.value.tree = .object fields
  integral : Integral doc.value

def ScalarKept : Json → Prop
  | .number text => text.length ≤ 127
  | .word _ => True
  | _ => False

def ItemsFlat : Items → Prop
  | .last _ item _ => ScalarKept item
  | .more _ item _ rest => ScalarKept item ∧ ItemsFlat rest

mutual

/-- A value without strings, whose arrays are flat and whose objects have at
most one member, with a bare key. -/
def TomlKept : Json → Prop
  | .string _ => False
  | .number text => text.length ≤ 127
  | .word _ => True
  | .emptyArray _ => True
  | .array items => ItemsFlat items
  | .emptyObject _ => True
  | .object members => TableKept members

def TableKept : Members → Prop
  | .last key value _ => IsBareKey key.body ∧ TomlKept value
  | .more _ _ _ _ => False

end

def LinesKept : Members → Prop
  | .last key value _ => IsBareKey key.body ∧ TomlKept value
  | .more key value _ rest => IsBareKey key.body ∧ TomlKept value ∧ LinesKept rest

def DocumentKept (doc : Document) : Prop :=
  match doc.value with
  | .emptyObject _ => True
  | .object members => LinesKept members
  | _ => False

end BlessStar.Convert
