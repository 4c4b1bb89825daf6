import BlessStar.Persistence.Basic
import BlessStar.Sdk.ConfigDeclare

/-!
# The file of runtime values

`bs_config_persist_write_c` and `bs_config_persist_load_c` of
`config_declare.cpp`.
-/

namespace BlessStar.Sdk

open Lib.ByteString Lib.FileSystem Gate Persistence

def persistMember (kv : Bytes × Bytes) : Bytes :=
  ascii "  " ++ ConfigDeclareState.jsonEscape kv.1 ++ ascii ": " ++
    ConfigDeclareState.jsonEscape kv.2

def persistText (entries : List (Bytes × Bytes)) : Bytes :=
  ascii "\x7b\n" ++ (ascii ",\n").intercalate (entries.map persistMember) ++ ascii "\n\x7d\n"

def persistTmpPath (path : Path) : Path := path ++ ascii ".tmp"

inductive PersistFault
  | none
  | openTmp
  | write (done : Nat)
  | flush
  | rename
  deriving DecidableEq

/-- The file steps of the writer: the temporary file is opened, written and
flushed, and renamed, or removed where one of these is refused. -/
def persistSteps (path : Path) (text : Bytes) : PersistFault → List (AttachDisk → AttachDisk)
  | .none =>
      [fun d => d.write (persistTmpPath path) [],
        fun d => appendFile d (persistTmpPath path) text,
        fun d => d.rename (persistTmpPath path) path]
  | .openTmp => []
  | .write done =>
      [fun d => d.write (persistTmpPath path) [],
        fun d => appendFile d (persistTmpPath path) (text.take done),
        fun d => d.remove (persistTmpPath path)]
  | .flush =>
      [fun d => d.write (persistTmpPath path) [],
        fun d => d.remove (persistTmpPath path)]
  | .rename =>
      [fun d => d.write (persistTmpPath path) [],
        fun d => appendFile d (persistTmpPath path) text,
        fun d => d.remove (persistTmpPath path)]

/-- The steps of `bs_config_persist_write_c` with its result. -/
def persistWriteSteps (order : MapOrder Bytes) (fault : PersistFault) (s : ConfigDeclareState)
    (path : Path) : Int × List (AttachDisk → AttachDisk) :=
  let path := cstr path
  if path = [] ∨ s.initialized = false then (-1, [])
  else if s.runtimeValues = ∅ then (0, [])
  else
    (if fault = .none then 0 else -1,
      persistSteps path (persistText (order.entries s.runtimeValues)) fault)

/-- `bs_config_persist_write_c`. -/
def persistWrite (order : MapOrder Bytes) (fault : PersistFault) (s : ConfigDeclareState)
    (path : Path) (d : AttachDisk) : Int × AttachDisk :=
  let r := persistWriteSteps order fault s path
  (r.1, runSteps r.2 d)

def isWhite (c : UInt8) : Bool := c = ch ' ' || c = 9 || c = 10 || c = 13

def skipBlanks (p : Bytes) : Bytes := p.dropWhile isWhite

def loadString : Bytes → Bytes × Bytes
  | [] => ([], [])
  | c :: rest =>
      if c = ch '"' then ([], c :: rest)
      else if c = ch '\\' then
        match rest with
        | [] => ([c], [])
        | e :: rest => (e :: (loadString rest).1, (loadString rest).2)
      else (c :: (loadString rest).1, (loadString rest).2)

def endsBare (c : UInt8) : Bool := c = ch ',' || c = ch '\x7d' || isWhite c

def loadValue (p : Bytes) : Bytes × Bytes :=
  match p with
  | [] => ([], [])
  | c :: rest =>
      if c = ch '"' then ((loadString rest).1, (loadString rest).2.drop 1)
      else (p.takeWhile (!endsBare ·), p.dropWhile (!endsBare ·))

def loadMember (p : Bytes) : Option ((Bytes × Bytes) × Bytes) :=
  match p with
  | [] => none
  | c :: rest =>
      if c ≠ ch '"' then none
      else
        let key := loadString rest
        match key.2 with
        | [] => none
        | _ :: rest =>
            match skipBlanks rest with
            | [] => none
            | c :: rest =>
                if c ≠ ch ':' then none
                else
                  let value := loadValue (skipBlanks rest)
                  some ((key.1, value.1), value.2)

/-- The members from here on, and whether the loop ends without an error; every
turn takes a byte at least. -/
def loadMembers : Nat → Bytes → List (Bytes × Bytes) × Bool
  | 0, _ => ([], true)
  | fuel + 1, p =>
      match skipBlanks p with
      | [] => ([], true)
      | c :: rest =>
          if c = ch '\x7d' then ([], true)
          else if c = ch ',' then loadMembers fuel rest
          else
            match loadMember (c :: rest) with
            | none => ([], false)
            | some (kv, rest) =>
                let more := loadMembers fuel rest
                (kv :: more.1, more.2)

def loadText (content : Bytes) : List (Bytes × Bytes) × Bool :=
  match skipBlanks (cstr content) with
  | [] => ([], false)
  | c :: rest => if c = ch '\x7b' then loadMembers (rest.length + 1) rest else ([], false)

def loadEntry (s : ConfigDeclareState) (kv : Bytes × Bytes) : ConfigDeclareState :=
  if kv.1 = [] then s
  else
    match s.fields.lookup kv.1 with
    | some _ => { s with runtimeValues := s.runtimeValues.insert kv.1 kv.2 }
    | none => s

/-- `bs_config_persist_load_c`; what was read before an error stays. -/
def persistLoad (s : ConfigDeclareState) (path : Path) (d : AttachDisk) :
    Int × ConfigDeclareState :=
  if cstr path = [] then (-1, s)
  else
    let s := s.ensureInit
    match d (cstr path) with
    | none => (0, s)
    | some [] => (0, s)
    | some content =>
        let r := loadText content
        (if r.2 then 0 else -1, r.1.foldl loadEntry s)

def freshState (fields : StringMap FieldDecl) : ConfigDeclareState where
  initialized := !decide (fields = ∅)
  fields := fields

def written (fields : StringMap FieldDecl) (writes : List (Bytes × Bytes)) : ConfigDeclareState :=
  writes.foldl (fun s kv => (s.write kv.1 kv.2).2) (freshState fields)

def loadedAfresh (fields : StringMap FieldDecl) (path : Path) (d : AttachDisk) :
    Int × StringMap Bytes :=
  let r := persistLoad (freshState fields) path d
  (r.1, r.2.runtimeValues)

/-- The write and the load return 0 and the values come back; a crash after any
of the file steps, whatever the file functions refuse, leaves a file that loads
as before the write or as after it. -/
def SurvivesRestart (order : MapOrder Bytes) (s : ConfigDeclareState) (path : Path)
    (d : AttachDisk) : Prop :=
  ((persistWrite order .none s path d).1 = 0 ∧
    loadedAfresh s.fields path (persistWrite order .none s path d).2 = (0, s.runtimeValues)) ∧
  ∀ fault k,
    let left := crashAfter k (persistWriteSteps order fault s path).2 d
    loadedAfresh s.fields path left = loadedAfresh s.fields path d ∨
      loadedAfresh s.fields path left = (0, s.runtimeValues)

def IsPlain (text : Bytes) : Prop := ∀ c ∈ text, 32 ≤ c

/-- The file is named, and either all keys and values are plain, or there is
nothing to write and the file so far has no value of a declared key. -/
def Persistable (s : ConfigDeclareState) (path : Path) (d : AttachDisk) : Prop :=
  cstr path ≠ [] ∧
    if s.runtimeValues = ∅ then
      s.initialized = true ∧ ∀ content ∈ d (cstr path), content ≠ [] →
        (loadText content).2 = true ∧
          ∀ kv ∈ (loadText content).1, kv.1 ≠ [] → s.fields.lookup kv.1 = none
    else ∀ k v, s.runtimeValues.lookup k = some v → IsPlain k ∧ IsPlain v

end BlessStar.Sdk
