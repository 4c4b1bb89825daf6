import BlessStar.Gate.Types

/-!
# The tokenizer of the gate AST compiler

`asparse_t` and `asparse_advance` of `gate_ast_compiler.c`.
-/

namespace BlessStar.Gate

open Lib.ByteString

abbrev ch (c : Char) : UInt8 := c.toUInt8

/-- `astok_kind_t`, with `str_val` or `num_val` where the kind has one. -/
inductive Astok (ν : Type)
  | eof
  | lbrace
  | rbrace
  | lbrack
  | rbrack
  | comma
  | colon
  | string (val : Bytes)
  | number (val : ν)
  | true
  | false
  | null
  | error

/-- `asparse_t`: the current token and the text after it. -/
structure Asparse (ν : Type) where
  tok : Astok ν
  rest : Bytes

/-- The byte that a backslash and `c` stand for. -/
def unescape (c : UInt8) : UInt8 :=
  if c = ch 'n' then 10 else if c = ch 't' then 9 else if c = ch 'r' then 13 else c

/-- A string after its opening quote: the decoded bytes and the text after the
closing quote. -/
def scanString : Bytes → Option (Bytes × Bytes)
  | [] => none
  | c :: rest =>
      if c = ch '"' then some ([], rest)
      else if c = ch '\\' then
        match rest with
        | [] => none
        | e :: rest => (scanString rest).map fun r => (unescape e :: r.1, r.2)
      else (scanString rest).map fun r => (c :: r.1, r.2)

theorem scanString_quote (rest : Bytes) : scanString (ch '"' :: rest) = some ([], rest) := by
  cases rest <;> simp [scanString]

theorem scanString_raw {c : UInt8} (hquote : c ≠ ch '"') (hslash : c ≠ ch '\\') (rest : Bytes) :
    scanString (c :: rest) = (scanString rest).map fun r => (c :: r.1, r.2) := by
  cases rest <;> simp [scanString, hquote, hslash]

theorem scanString_escape (c : UInt8) (rest : Bytes) :
    scanString (ch '\\' :: c :: rest) =
      (scanString rest).map fun r => (unescape c :: r.1, r.2) := by
  have hquote : ch '\\' ≠ ch '"' := by decide
  simp [scanString, hquote]

def isBlank (c : UInt8) : Bool := c.toNat ≤ 32

section

variable {ν : Type} (D : CDouble ν)

/-- A token that starts with `c`. -/
def lexToken (c : UInt8) (rest : Bytes) : Asparse ν :=
  if c = ch '{' then ⟨.lbrace, rest⟩
  else if c = ch '}' then ⟨.rbrace, rest⟩
  else if c = ch '[' then ⟨.lbrack, rest⟩
  else if c = ch ']' then ⟨.rbrack, rest⟩
  else if c = ch ',' then ⟨.comma, rest⟩
  else if c = ch ':' then ⟨.colon, rest⟩
  else if c = ch '"' then
    match scanString rest with
    | none => ⟨.error, []⟩
    | some (val, rest) => ⟨.string val, rest⟩
  else if (c :: rest).take 4 = ascii "true" then ⟨.true, (c :: rest).drop 4⟩
  else if (c :: rest).take 5 = ascii "false" then ⟨.false, (c :: rest).drop 5⟩
  else if (c :: rest).take 4 = ascii "null" then ⟨.null, (c :: rest).drop 4⟩
  else if c = ch '-' ∨ (ch '0' ≤ c ∧ c ≤ ch '9') then
    let num := D.strtod (c :: rest)
    if 0 < num.2 then ⟨.number num.1, (c :: rest).drop num.2⟩ else ⟨.error, c :: rest⟩
  else ⟨.error, c :: rest⟩

def lex (text : Bytes) : Asparse ν :=
  match text.dropWhile isBlank with
  | [] => ⟨.eof, []⟩
  | c :: rest => lexToken D c rest

def asparseAdvance (p : Asparse ν) : Asparse ν := lex D p.rest

end

namespace Astok

variable {ν : Type}

def isColon : Astok ν → Bool
  | colon => Bool.true
  | _ => Bool.false

def isComma : Astok ν → Bool
  | comma => Bool.true
  | _ => Bool.false

def isLbrace : Astok ν → Bool
  | lbrace => Bool.true
  | _ => Bool.false

def isRbrace : Astok ν → Bool
  | rbrace => Bool.true
  | _ => Bool.false

def isRbrack : Astok ν → Bool
  | rbrack => Bool.true
  | _ => Bool.false

def isEof : Astok ν → Bool
  | eof => Bool.true
  | _ => Bool.false

def isEnd : Astok ν → Bool
  | eof | error => Bool.true
  | _ => Bool.false

def depthStep : Astok ν → Int
  | lbrace | lbrack => 1
  | rbrace | rbrack => -1
  | _ => 0

end Astok

end BlessStar.Gate
