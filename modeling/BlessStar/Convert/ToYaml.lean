import BlessStar.Convert.ToJson
import BlessStar.Convert.Tokens

/-!
# JSON to YAML

`to_yaml.c`.  Objects become block mappings and arrays block sequences; a string
is quoted when it holds one of a list of characters.  The buffer grows as it is
needed, so it is a list of bytes.
-/

namespace BlessStar.Convert

open Lib.ByteString Lib.JsonText

def yamlSpecial : Bytes := ascii ":#\x7b[ '\"\n"

def emitYamlString (s buf : Bytes) : Bytes :=
  let needsQuotes := s.any fun c => c ∈ yamlSpecial
  if needsQuotes = false ∧ s ≠ [] then buf ++ s
  else buf ++ ch '\'' :: (s.flatMap fun c => if c = ch '\'' then [c, ch '\''] else [c]) ++ [ch '\'']

def emitIndent (indent : Nat) (buf : Bytes) : Bytes :=
  buf ++ (List.replicate indent (ascii "  ")).flatten

mutual

def emitYamlValue : Nat → Bytes → Bytes → Nat → Except Int (Bytes × Bytes)
  | 0, _, _, _ => .error (-EINVAL)
  | fuel + 1, p, buf, indent =>
      match nextToken p with
      | (.string s, p) => .ok (p, emitYamlString s buf)
      | (.number text, p) => .ok (p, buf ++ text)
      | (.true, p) => .ok (p, buf ++ ascii "true")
      | (.false, p) => .ok (p, buf ++ ascii "false")
      | (.null, p) => .ok (p, buf ++ ascii "null")
      | (.lbrace, p) =>
          match nextToken p with
          | (.rbrace, p) => .ok (p, buf ++ ascii "\x7b\x7d")
          | _ => emitYamlMapping fuel p (buf ++ ascii "\n") indent
      | (.lbracket, p) =>
          match nextToken p with
          | (.rbracket, p) => .ok (p, buf ++ ascii "[]")
          | _ => emitYamlSequence fuel p buf indent
      | _ => .error (-EINVAL)

def emitYamlMapping : Nat → Bytes → Bytes → Nat → Except Int (Bytes × Bytes)
  | 0, _, _, _ => .error (-EINVAL)
  | fuel + 1, p, buf, indent =>
      match nextToken p with
      | (.rbrace, p) => .ok (p, buf)
      | (.string key, p) =>
          match nextToken p with
          | (.colon, p) =>
              match emitYamlValue fuel p (emitYamlString key (emitIndent indent buf) ++ ascii ": ")
                (indent + 1) with
              | .error rc => .error rc
              | .ok (p, buf) => emitYamlMapping fuel (afterComma p) (buf ++ ascii "\n") indent
          | _ => .error (-EINVAL)
      | _ => .error (-EINVAL)

def emitYamlSequence : Nat → Bytes → Bytes → Nat → Except Int (Bytes × Bytes)
  | 0, _, _, _ => .error (-EINVAL)
  | fuel + 1, p, buf, indent =>
      match nextToken p with
      | (.rbracket, p) => .ok (p, buf)
      | _ =>
          match emitYamlValue fuel p (emitIndent (indent - 1) (buf ++ ascii "\n") ++ ascii "- ")
            indent with
          | .error rc => .error rc
          | .ok (p, buf) => emitYamlSequence fuel (afterComma p) buf indent

end

def internalToYaml (v1Json : Bytes) : Converted :=
  match emitYamlValue (v1Json.length + 1) v1Json (ascii "---\n") 1 with
  | .error rc => { rc := rc }
  | .ok (_, buf) => { rc := 0, out := buf ++ ascii "\n" ++ [0] }

/-- Two texts of different values are converted to different texts. -/
def YamlDistinguishes (a b : Document) : Prop :=
  a.value.tree ≠ b.value.tree →
    (internalToYaml a.text).rc = 0 ∧ (internalToYaml b.text).rc = 0 ∧
      (internalToYaml a.text).out ≠ (internalToYaml b.text).out

mutual

/-- A scalar by its characters, an empty container, or an object. -/
inductive Leaf
  | scalar (text : Bytes)
  | emptyArray
  | emptyObject
  | object (entries : Entries)

inductive Lines
  | last (leaf : Leaf)
  | more (leaf : Leaf) (rest : Lines)
  | opens (rest : Lines)

inductive Entries
  | last (key : Bytes) (value : Skeleton)
  | more (key : Bytes) (value : Skeleton) (rest : Entries)

inductive Skeleton
  | leaf (leaf : Leaf)
  | array (lines : Lines)

end

def Lines.append : Lines → Lines → Lines
  | .last leaf, lines => .more leaf lines
  | .more leaf rest, lines => .more leaf (rest.append lines)
  | .opens rest, lines => .opens (rest.append lines)

def Skeleton.item : Skeleton → Lines
  | .leaf l => .last l
  | .array lines => .opens lines

mutual

/-- The skeleton of a value; a string is taken as it is written. -/
def skeleton : Json → Skeleton
  | .string body => .leaf (.scalar body)
  | .number text => .leaf (.scalar text)
  | .word w => .leaf (.scalar w.text)
  | .emptyArray _ => .leaf .emptyArray
  | .array items => .array (skeletonLines items)
  | .emptyObject _ => .leaf .emptyObject
  | .object members => .leaf (.object (skeletonEntries members))

def skeletonLines : Items → Lines
  | .last _ item _ => (skeleton item).item
  | .more _ item _ rest => (skeleton item).item.append (skeletonLines rest)

def skeletonEntries : Members → Entries
  | .last key value _ => .last key.body (skeleton value)
  | .more key value _ rest => .more key.body (skeleton value) (skeletonEntries rest)

end

end BlessStar.Convert
