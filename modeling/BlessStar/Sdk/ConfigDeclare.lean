import BlessStar.Gate.Json
import Mathlib.Data.Finmap

/-!
# Declared fields and their runtime values

`ConfigDeclareState` of `config_declare.cpp` with the calls on it: declarations
and the schema text made of them, runtime values, and the version counter of the
editor windows.

The strings that declarations point to stay where they are: `mem` says what is
at an address, and address 0 is the null pointer.  An `unordered_map` is a
finite map; the order in which a loop meets its entries is a parameter.
-/

namespace BlessStar.Sdk

open Lib.ByteString Gate

/-- `std::unordered_map<std::string, β>`. -/
abbrev StringMap (β : Type) := Finmap fun _ : Bytes => β

/-- The order in which iteration over a map meets the entries. -/
structure MapOrder (β : Type) where
  entries : StringMap β → List (Bytes × β)
  mem_entries : ∀ m k v, (k, v) ∈ entries m ↔ m.lookup k = some v
  nodup_keys : ∀ m, ((entries m).map Prod.fst).Nodup

noncomputable instance {β : Type} : Inhabited (MapOrder β) where
  default :=
    { entries := fun m => m.entries.toList.map fun s => (s.1, s.2)
      mem_entries := by
        intro m k v
        rw [Finmap.lookup_eq_some_iff, ← Multiset.mem_toList, List.mem_map]
        constructor
        · rintro ⟨s, hs, heq⟩
          cases heq
          exact hs
        · exact fun h => ⟨_, h, rfl⟩
      nodup_keys := by
        intro m
        have h := m.nodupKeys.nodup_keys
        rw [← Multiset.coe_toList m.entries] at h
        rw [List.map_map]
        exact h }

theorem MapOrder.entries_ne_nil {β : Type} (order : MapOrder β) {m : StringMap β} (h : m ≠ ∅) :
    order.entries m ≠ [] := by
  intro hnil
  apply h
  apply Finmap.ext_lookup
  intro k
  rw [Finmap.lookup_empty, Option.eq_none_iff_forall_ne_some]
  intro v hv
  have hmem := (order.mem_entries m k v).mpr hv
  rw [hnil] at hmem
  exact absurd hmem List.not_mem_nil

abbrev Address := Nat

/-- `bs_field_decl_t`, with the bytes of it that no member covers. -/
structure FieldDecl where
  key : Address
  type : Int
  defaultStr : Address
  description : Address
  required : Bool
  padding : Bytes := []
  deriving DecidableEq

/-- `ConfigDeclareState`; `initialized` once `ensure_init` has made it. -/
structure ConfigDeclareState where
  initialized : Bool := false
  fields : StringMap FieldDecl := ∅
  runtimeValues : StringMap Bytes := ∅
  dirtyKeys : List Bytes := []
  lastSerializedCount : Nat := 0
  dirty : Bool := false
  schemaJson : Option Bytes := none
  versionCounter : UInt64 := 0

namespace ConfigDeclareState

def ensureInit (s : ConfigDeclareState) : ConfigDeclareState := { s with initialized := true }

/-- `json_escape` of a string that is there. -/
def jsonEscape (s : Bytes) : Bytes := Gate.jsonEscape (cstr s)

def fieldTypeStr (t : Int) : Bytes :=
  if t = 0 then ascii "int32"
  else if t = 1 then ascii "int64"
  else if t = 2 then ascii "string"
  else if t = 3 then ascii "double"
  else if t = 4 then ascii "bool"
  else if t = 5 then ascii "file"
  else ascii "unknown"

section Strings

variable (mem : Address → Bytes)

def textAt (p : Address) : Bytes := if p = 0 then [] else cstr (mem p)

/-- One field of `serialize_schema`. -/
def fieldText (f : FieldDecl) : Bytes :=
  ascii "    \x7b" ++ ascii "\"key\": " ++ jsonEscape (textAt mem f.key) ++
    ascii ", \"type\": " ++ jsonEscape (fieldTypeStr f.type) ++
    ascii ", \"default\": " ++ jsonEscape (textAt mem f.defaultStr) ++
    ascii ", \"description\": " ++ jsonEscape (textAt mem f.description) ++
    (if f.required then ascii ", \"required\": true" else []) ++ ascii "\x7d"

/-- The text of `serialize_schema` at the time `ts`. -/
def schemaText (ts : Bytes) (fields : List FieldDecl) : Bytes :=
  ascii "\x7b\n" ++ ascii "  \"version\": \"1.0\",\n" ++ ascii "  \"generated_at\": " ++
    jsonEscape ts ++ ascii ",\n" ++ ascii "  \"fields\": [\n" ++
    (ascii ",\n").intercalate (fields.map (fieldText mem)) ++ ascii "\n  ]\n\x7d\n"

/-- `serialize_schema`, which fails without fields. -/
def serializeSchema (order : MapOrder FieldDecl) (ts : Bytes) (fields : StringMap FieldDecl) :
    Option Bytes :=
  if fields = ∅ then none else some (schemaText mem ts ((order.entries fields).map Prod.snd))

/-- One turn of the loop of `bs_config_declare`.  The comparison with `memcmp` is
one of the addresses, not of the texts. -/
def declareField (s : ConfigDeclareState) (src : FieldDecl) : ConfigDeclareState :=
  let key := textAt mem src.key
  if key = [] then s
  else
    match s.fields.lookup key with
    | some f =>
        if f = src then s
        else { s with fields := s.fields.insert key src, dirtyKeys := s.dirtyKeys ++ [key] }
    | none => { s with fields := s.fields.insert key src, dirtyKeys := s.dirtyKeys ++ [key] }

def merge (s : ConfigDeclareState) (src : List FieldDecl) : ConfigDeclareState :=
  { src.foldl (declareField mem) s.ensureInit with dirty := true }

/-- Whether less than a tenth of the fields is dirty, and there is a schema; at
the sizes of memory the `double` of the ratio decides as the fraction does. -/
def incremental (s : ConfigDeclareState) : Bool :=
  10 * s.dirtyKeys.length < s.fields.keys.card && 0 < s.dirtyKeys.length && s.schemaJson.isSome

/-- `bs_config_declare` of an array that is there. -/
def declare (order : MapOrder FieldDecl) (ts : Bytes) (s : ConfigDeclareState)
    (src : List FieldDecl) : Int × ConfigDeclareState :=
  if src = [] then (-1, s)
  else
    let s := merge mem s src
    let total := s.fields.keys.card
    if s.incremental then
      -- the text of the schema stays as it is
      (0, { s with lastSerializedCount := total })
    else
      let json := serializeSchema mem order ts s.fields
      (if json.isSome then 0 else -1,
        { s with schemaJson := json, lastSerializedCount := total })

end Strings

def getSchemaJson (s : ConfigDeclareState) : Option Bytes :=
  match s.schemaJson with
  | some [] => none
  | json => json

def reset (s : ConfigDeclareState) : ConfigDeclareState :=
  { s.ensureInit with
    fields := ∅, dirtyKeys := [], dirty := false, lastSerializedCount := 0, schemaJson := none }

def clearDirty (s : ConfigDeclareState) : ConfigDeclareState :=
  { s.ensureInit with dirtyKeys := [] }

def read (mem : Address → Bytes) (s : ConfigDeclareState) (key : Bytes) : Option Bytes :=
  let key := cstr key
  if key = [] then none
  else
    match s.runtimeValues.lookup key with
    | some value => some value
    | none =>
        match s.fields.lookup key with
        | some f => if f.defaultStr = 0 then none else some (textAt mem f.defaultStr)
        | none => none

def write (s : ConfigDeclareState) (key value : Bytes) : Int × ConfigDeclareState :=
  let key := cstr key
  if key = [] then (-1, s)
  else
    let s := s.ensureInit
    match s.fields.lookup key with
    | none => (-1, s)
    | some _ =>
        (0, { s with
          runtimeValues := s.runtimeValues.insert key (cstr value)
          dirtyKeys := s.dirtyKeys ++ [key]
          dirty := true })

def getVersion (s : ConfigDeclareState) : UInt64 :=
  if s.initialized then s.versionCounter else 0

def commitCheckVersion (s : ConfigDeclareState) (expected : UInt64) : Int × ConfigDeclareState :=
  if s.initialized = false then (-1, s)
  else if s.versionCounter = expected then (0, { s with versionCounter := expected + 1 })
  else (-1, s)

end ConfigDeclareState

end BlessStar.Sdk
