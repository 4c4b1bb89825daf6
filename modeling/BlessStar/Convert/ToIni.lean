import BlessStar.Convert.ToJson
import BlessStar.Convert.Tokens
import BlessStar.Lib.IniText

/-!
# JSON to INI

`to_ini.c`.  A member whose value is an object opens a section; a container
below it is announced and not skipped.  The buffer grows as it is needed, so it
is a list of bytes.
-/

namespace BlessStar.Convert

open Lib.ByteString Lib.JsonText Lib.IniText

abbrev nextItok : Bytes → Token × Bytes := nextToken

/-- `ini_emit_value`: a number goes through a buffer of 128 bytes. -/
def iniEmitValue (p buf : Bytes) : Except Int (Bytes × Bytes) :=
  match nextItok p with
  | (.string s, p) =>
      if s.any fun c => c = ch ' ' ∨ c = ch '=' ∨ c = ch ';' ∨ c = ch '#' then
        .ok (p, buf ++ ascii "\"" ++ s ++ ascii "\"")
      else .ok (p, buf ++ s)
  | (.number text, p) => .ok (p, buf ++ text.take 127)
  | (.true, p) => .ok (p, buf ++ ascii "true")
  | (.false, p) => .ok (p, buf ++ ascii "false")
  | (.null, p) => .ok (p, buf ++ ascii "null")
  | (.lbrace, p) => .ok (p, buf ++ ascii "\"" ++ ascii "<complex>" ++ ascii "\"")
  | (.lbracket, p) => .ok (p, buf ++ ascii "\"" ++ ascii "<complex>" ++ ascii "\"")
  | _ => .error (-EINVAL)

/-- `section`: a key in a buffer of 256 bytes. -/
def sectionName (key : Bytes) : Bytes := if key.length < 256 then key else key.take 255

/-- `header`, as `snprintf` prints it. -/
def sectionHeader (key : Bytes) : Bytes := ascii "[" ++ cstr (sectionName key) ++ ascii "]\n"

def iniEmitSection : Nat → Bytes → Bytes → Except Int (Bytes × Bytes)
  | 0, _, _ => .error (-EINVAL)
  | fuel + 1, p, buf =>
      match nextItok p with
      | (.rbrace, p) => .ok (p, buf)
      | (.string key, p) =>
          match nextItok p with
          | (.colon, p) =>
              match iniEmitValue p (buf ++ ascii "  " ++ key ++ ascii " = ") with
              | .error _ => .error (-EINVAL)
              | .ok (p, buf) =>
                  match nextItok p with
                  | (.rbrace, p) => .ok (p, buf ++ ascii "\n")
                  | (_, p) => iniEmitSection fuel p (buf ++ ascii "\n")
          | _ => .error (-EINVAL)
      | _ => .error (-EINVAL)

/-- The loop of `bs_internal_to_ini`. -/
def iniEmitMembers : Nat → Bytes → Bytes → Except Int Bytes
  | 0, _, _ => .error (-EINVAL)
  | fuel + 1, p, buf =>
      match nextItok p with
      | (.rbrace, _) => .ok buf
      | (.string key, p) =>
          match nextItok p with
          | (.colon, p) =>
              match nextItok p with
              | (.lbrace, peek) =>
                  match iniEmitSection fuel peek (buf ++ sectionHeader key) with
                  | .error e => .error e
                  | .ok (p, buf) => iniEmitMembers fuel (afterComma p) (buf ++ ascii "\n")
              | _ =>
                  match iniEmitValue p (buf ++ key ++ ascii " = ") with
                  | .error _ => .error (-EINVAL)
                  | .ok (p, buf) =>
                      match nextItok p with
                      | (.rbrace, _) => .ok (buf ++ ascii "\n")
                      | (_, p) => iniEmitMembers fuel p (buf ++ ascii "\n")
          | _ => .error (-EINVAL)
      | _ => .error (-EINVAL)

def internalToIni (v1Json : Bytes) : Converted :=
  match nextItok v1Json with
  | (.lbrace, p) =>
      match iniEmitMembers (v1Json.length + 1) p [] with
      | .error e => { rc := e }
      | .ok buf => { rc := 0, out := buf ++ ascii "\n" ++ [0] }
  | _ => { rc := -EINVAL }

def scalarValue : Json → Option Bytes
  | .string body => some (decode body)
  | .number text => some text
  | .word w => some w.text
  | _ => none

def sectionEntries (name : Bytes) : Members → List Entry
  | .last key value _ => [⟨some name, decode key.body, (scalarValue value).getD (ascii "<complex>")⟩]
  | .more key value _ rest =>
      ⟨some name, decode key.body, (scalarValue value).getD (ascii "<complex>")⟩ ::
        sectionEntries name rest

def memberEntries (key : MemberKey) : Json → List Entry
  | .object members => sectionEntries (decode key.body) members
  | value => (scalarValue value).toList.map fun text => ⟨none, decode key.body, text⟩

def iniEntries : Members → List Entry
  | .last key value _ => memberEntries key value
  | .more key value _ rest => memberEntries key value ++ iniEntries rest

def documentEntries : Json → List Entry
  | .object members => iniEntries members
  | _ => []

/-- The conversion succeeds, and gives lines whose entries are the scalars at
their paths, and a NUL. -/
structure IniKeeps (doc : Document) : Prop where
  rc : (internalToIni doc.text).rc = 0
  entries : ∃ text, (internalToIni doc.text).out = text ++ [0] ∧
    readIni text = documentEntries doc.value

structure KeyKept (key : Bytes) : Prop where
  plain : decode key = key
  begins : ∃ c s, key = c :: s ∧ c ≠ ch ' '
  unsplit : ¬ascii " = " <:+: key ++ ascii " ="

/-- A string without escapes, a number of at most 127 bytes, or a word. -/
def ValueKept : Json → Prop
  | .string body => decode body = body
  | .number text => text.length ≤ 127
  | .word _ => True
  | _ => False

def Unbracketed (key : Bytes) (value : Json) : Prop :=
  ¬(key.head? = some (ch '[') ∧ ∃ body, value = .string body ∧ body.getLast? = some (ch ']') ∧
    ∀ c ∈ body, c ∉ ascii " =;#")

def EntryKept (key : MemberKey) (value : Json) : Prop :=
  KeyKept key.body ∧ ValueKept value ∧ Unbracketed key.body value

def SectionKept : Members → Prop
  | .last key value _ => EntryKept key value
  | .more key value _ rest => EntryKept key value ∧ SectionKept rest

def MemberKept (opened : Bool) (key : MemberKey) : Json → Prop
  | .object members => decode key.body = sectionName key.body ∧ SectionKept members
  | .emptyObject _ => True
  | value => opened = false ∧ EntryKept key value

def opensSection : Json → Bool
  | .object _ => true
  | .emptyObject _ => true
  | _ => false

def MembersKeptIni (opened : Bool) : Members → Prop
  | .last key value _ => MemberKept opened key value
  | .more key value _ rest =>
      MemberKept opened key value ∧ MembersKeptIni (opened || opensSection value) rest

def DocumentKeptIni (doc : Document) : Prop :=
  match doc.value with
  | .emptyObject _ => True
  | .object members => MembersKeptIni false members
  | _ => False

def SectionFlat : Members → Prop
  | .last _ value _ => (scalarValue value).isSome
  | .more _ value _ rest => (scalarValue value).isSome ∧ SectionFlat rest

def MemberFlat : Json → Prop
  | .object members => SectionFlat members
  | .emptyObject _ => True
  | value => (scalarValue value).isSome

def MembersFlat : Members → Prop
  | .last _ value _ => MemberFlat value
  | .more _ value _ rest => MemberFlat value ∧ MembersFlat rest

def DocumentFlat (doc : Document) : Prop :=
  match doc.value with
  | .object members => MembersFlat members
  | _ => True

end BlessStar.Convert
