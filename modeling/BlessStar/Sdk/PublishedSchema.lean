import BlessStar.Gate.RuleFile
import BlessStar.Lib.Transition
import BlessStar.Sdk.ConfigDeclare

/-!
# The published schema

What the schema text is for: JSON that lists the fields as they were declared
last.  The runs are those of the calls of `config_declare.cpp` that have to do
with it.
-/

namespace BlessStar.Sdk

open Lib.ByteString Lib.Transition Gate ConfigDeclareState

inductive SpellsQuoted (s : Bytes) : Bytes → Prop
  | mk {t : Bytes} : SpellsJsonString s t → SpellsQuoted s (ch '"' :: (t ++ [ch '"']))

inductive SpellsNamed : Bytes × (Bytes → Prop) → Bytes → Prop
  | mk {name s ws ws' x : Bytes} {value : Bytes → Prop} : SpellsJsonString name s → IsGap ws →
      IsGap ws' → value x →
      SpellsNamed (name, value) (ch '"' :: (s ++ ch '"' :: (ws ++ ch ':' :: (ws' ++ x))))

def SpellsObject (members : List (Bytes × (Bytes → Prop))) (x : Bytes) : Prop :=
  SpellsBracketed (ch '\x7b') (ch '\x7d') SpellsNamed members x

structure SchemaRow where
  key : Bytes
  type : Bytes
  default : Bytes
  description : Bytes
  required : Bool
  deriving DecidableEq

def SchemaRow.members (r : SchemaRow) : List (Bytes × (Bytes → Prop)) :=
  [(ascii "key", SpellsQuoted r.key), (ascii "type", SpellsQuoted r.type),
      (ascii "default", SpellsQuoted r.default),
      (ascii "description", SpellsQuoted r.description)] ++
    if r.required then [(ascii "required", (· = ascii "true"))] else []

def SpellsRow (r : SchemaRow) (x : Bytes) : Prop := SpellsObject r.members x

/-- The text of a schema with these rows, made at the time `ts`. -/
inductive SpellsSchema (ts : Bytes) (rows : List SchemaRow) : Bytes → Prop
  | mk {ws x ws' : Bytes} : IsGap ws → IsGap ws' →
      SpellsObject [(ascii "version", SpellsQuoted (ascii "1.0")),
        (ascii "generated_at", SpellsQuoted ts),
        (ascii "fields", SpellsBracketed (ch '[') (ch ']') SpellsRow rows)] x →
      SpellsSchema ts rows (ws ++ (x ++ ws'))

section Runs

variable (mem : Address → Bytes)

def rowOf (f : FieldDecl) : SchemaRow where
  key := textAt mem f.key
  type := fieldTypeStr f.type
  default := textAt mem f.defaultStr
  description := textAt mem f.description
  required := f.required

def lastDeclared (decls : List FieldDecl) (key : Bytes) : Option FieldDecl :=
  (decls.filter fun f => textAt mem f.key = key).getLast?

/-- The text is a schema that lists each declared key once, as declared last. -/
def PublishesSchema (decls : List FieldDecl) (json : Bytes) : Prop :=
  ∃ ts rows, SpellsSchema ts rows json ∧ (rows.map (·.key)).Nodup ∧
    ∀ r, r ∈ rows ↔ r.key ≠ [] ∧ ∃ f, lastDeclared mem decls r.key = some f ∧ rowOf mem f = r

inductive DeclareCall
  | declare (order : MapOrder FieldDecl) (ts : Bytes) (src : List FieldDecl)
  | write (key value : Bytes)
  | clearDirty
  | reset

structure DeclareRun where
  state : ConfigDeclareState := {}
  decls : List FieldDecl := []

def declareStep (t : DeclareRun) : DeclareCall → DeclareRun
  | .declare order ts src =>
      { state := (t.state.declare mem order ts src).2, decls := t.decls ++ src }
  | .write key value => { t with state := (t.state.write key value).2 }
  | .clearDirty => { t with state := t.state.clearDirty }
  | .reset => { state := t.state.reset, decls := [] }

def declareMachine : Machine DeclareRun DeclareCall where
  init := {}
  step := fun t e => some (declareStep mem t e)

/-- A call that keeps the text of the schema declares every key as it was. -/
def KeepsRows (t : DeclareRun) : DeclareCall → Prop
  | .declare _ _ src =>
      (ConfigDeclareState.merge mem t.state src).incremental = true → ∀ key f, key ≠ [] →
        lastDeclared mem src key = some f →
          ∃ g, lastDeclared mem t.decls key = some g ∧ rowOf mem g = rowOf mem f
  | _ => True

end Runs

end BlessStar.Sdk
