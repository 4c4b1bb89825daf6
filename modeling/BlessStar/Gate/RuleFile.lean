import BlessStar.Gate.Ast
import BlessStar.Gate.RuleLoader

/-!
# Gate rule files

What a well-formed `gate_rule_def.json` is, which rules it declares, what their
operators ask for, and what it is to enforce them.
-/

namespace BlessStar.Gate

open Lib.ByteString

def IsGap (ws : Bytes) : Prop := ∀ c ∈ ws, c ∈ ascii " \t\n\r"

def IsHex4 (ds : Bytes) (n : Nat) : Prop :=
  ds.length = 4 ∧ (∀ c ∈ ds, (digitValue 16 c).isSome) ∧
    (digitsPrefix 16 ds).foldl (fun acc d => acc * 16 + d) 0 = n

def jsonUnescape (c : UInt8) : UInt8 :=
  if c = ch 'b' then 8 else if c = ch 'f' then 12 else unescape c

inductive SpellsJsonString : Bytes → Bytes → Prop
  | nil : SpellsJsonString [] []
  | raw {c : UInt8} {s t : Bytes} : 32 ≤ c → c ≠ ch '"' → c ≠ ch '\\' → SpellsJsonString s t →
      SpellsJsonString (c :: s) (c :: t)
  | escape {c : UInt8} {s t : Bytes} : c ∈ ascii "\"\\/bfnrt" → SpellsJsonString s t →
      SpellsJsonString (jsonUnescape c :: s) (ch '\\' :: c :: t)
  | unicode {ds s t : Bytes} {n : Nat} : IsHex4 ds n → ¬(0xD800 ≤ n ∧ n < 0xE000) →
      SpellsJsonString s t →
      SpellsJsonString (String.utf8EncodeChar (Char.ofNat n) ++ s) (ch '\\' :: ch 'u' :: (ds ++ t))
  | surrogates {ds ds' s t : Bytes} {high low : Nat} :
      IsHex4 ds high → 0xD800 ≤ high → high < 0xDC00 →
      IsHex4 ds' low → 0xDC00 ≤ low → low < 0xE000 → SpellsJsonString s t →
      SpellsJsonString
        (String.utf8EncodeChar
          (Char.ofNat (0x10000 + (high - 0xD800) * 0x400 + (low - 0xDC00))) ++ s)
        (ch '\\' :: ch 'u' :: (ds ++ ch '\\' :: ch 'u' :: (ds' ++ t)))

def IsDigits (s : Bytes) : Prop := s ≠ [] ∧ ∀ c ∈ s, (digitValue 10 c).isSome

inductive IsNumber : Bytes → Prop
  | mk {sign int frac exp : Bytes} : (sign = [] ∨ sign = ascii "-") → IsDigits int →
      (int.length = 1 ∨ int.head? ≠ some (ch '0')) →
      (frac = [] ∨ ∃ ds, frac = ch '.' :: ds ∧ IsDigits ds) →
      (exp = [] ∨ ∃ e s ds, exp = e :: (s ++ ds) ∧ e ∈ ascii "eE" ∧
        s ∈ [[], ascii "+", ascii "-"] ∧ IsDigits ds) →
      IsNumber (sign ++ int ++ frac ++ exp)

def IsBare (s : Bytes) : Prop :=
  IsNumber s ∨ s ∈ [ascii "true", ascii "false", ascii "null"]

mutual

/-- The text of a JSON value, with `arrays` and `objects` in it where these hold. -/
inductive IsJson (arrays objects : Prop) : Bytes → Prop
  | string {s t : Bytes} : SpellsJsonString s t → IsJson arrays objects (ch '"' :: (t ++ [ch '"']))
  | bare {t : Bytes} : IsBare t → IsJson arrays objects t
  | nested {t : Bytes} : IsNested arrays objects t → IsJson arrays objects t

inductive IsNested (arrays objects : Prop) : Bytes → Prop
  | noItems {ws : Bytes} : arrays → IsGap ws → IsNested arrays objects (ch '[' :: (ws ++ [ch ']']))
  | array {t : Bytes} : arrays → IsItems arrays objects t →
      IsNested arrays objects (ch '[' :: (t ++ [ch ']']))
  | noMembers {ws : Bytes} : objects → IsGap ws →
      IsNested arrays objects (ch '\x7b' :: (ws ++ [ch '\x7d']))
  | object {t : Bytes} : objects → IsMembers arrays objects t →
      IsNested arrays objects (ch '\x7b' :: (t ++ [ch '\x7d']))

inductive IsItems (arrays objects : Prop) : Bytes → Prop
  | last {ws t ws' : Bytes} : IsGap ws → IsJson arrays objects t → IsGap ws' →
      IsItems arrays objects (ws ++ (t ++ ws'))
  | more {ws t ws' u : Bytes} : IsGap ws → IsJson arrays objects t → IsGap ws' →
      IsItems arrays objects u → IsItems arrays objects (ws ++ (t ++ (ws' ++ ch ',' :: u)))

inductive IsMembers (arrays objects : Prop) : Bytes → Prop
  | last {ws x ws' : Bytes} : IsGap ws → IsMember arrays objects x → IsGap ws' →
      IsMembers arrays objects (ws ++ (x ++ ws'))
  | more {ws x ws' u : Bytes} : IsGap ws → IsMember arrays objects x → IsGap ws' →
      IsMembers arrays objects u → IsMembers arrays objects (ws ++ (x ++ (ws' ++ ch ',' :: u)))

inductive IsMember (arrays objects : Prop) : Bytes → Prop
  | mk {k s ws ws' t : Bytes} : SpellsJsonString k s → IsGap ws → IsGap ws' →
      IsJson arrays objects t →
      IsMember arrays objects (ch '"' :: (s ++ ch '"' :: (ws ++ ch ':' :: (ws' ++ t))))

end

/-- A value of a member, as far as the rules tell values apart. -/
inductive RuleValue
  | string (val text : Bytes)
  | nat (n : Nat)
  | bare (text : Bytes)
  | nested (text : Bytes)

def RuleValue.text : RuleValue → Bytes
  | string _ text => ch '"' :: (text ++ [ch '"'])
  | nat n => decimal n
  | bare text => text
  | nested text => text

def RuleValue.IsWellFormed : RuleValue → Prop
  | string val text => SpellsJsonString val text
  | nat _ => True
  | bare text => IsBare text
  | nested text => IsNested True True text

/-- A member of a rule: its name, what its key is written as, and its value. -/
structure RuleMember where
  name : Bytes
  keyText : Bytes
  value : RuleValue

def stringNames : List Bytes :=
  ["field_key", "field_type", "op", "scenario", "sub_category", "stable_key", "error_hint"].map
    ascii

def RuleMember.IsTyped (m : RuleMember) : Prop :=
  (m.name ∈ stringNames → ∃ val text, m.value = .string val text) ∧
    (m.name = ascii "value" → ∀ text, m.value ≠ .nested text) ∧
    (m.name = ascii "layer" → ∃ n < 2 ^ 31, m.value = .nat n) ∧
    (m.name = ascii "enabled" → m.value = .bare (ascii "true") ∨ m.value = .bare (ascii "false"))

structure IsRule (ms : List RuleMember) : Prop where
  keys : ∀ m ∈ ms, SpellsJsonString m.name m.keyText
  values : ∀ m ∈ ms, m.value.IsWellFormed
  typed : ∀ m ∈ ms, m.IsTyped
  distinct : (ms.map (·.name)).Nodup

inductive SpellsList {α : Type} (P : α → Bytes → Prop) : List α → Bytes → Prop
  | last {a : α} {ws x ws' : Bytes} : IsGap ws → P a x → IsGap ws' →
      SpellsList P [a] (ws ++ (x ++ ws'))
  | more {a : α} {as : List α} {ws x ws' y : Bytes} : IsGap ws → P a x → IsGap ws' →
      SpellsList P as y → SpellsList P (a :: as) (ws ++ (x ++ (ws' ++ ch ',' :: y)))

inductive SpellsBracketed {α : Type} (opening closing : UInt8) (P : α → Bytes → Prop) :
    List α → Bytes → Prop
  | nil {ws : Bytes} : IsGap ws →
      SpellsBracketed opening closing P [] (opening :: (ws ++ [closing]))
  | list {as : List α} {x : Bytes} : SpellsList P as x →
      SpellsBracketed opening closing P as (opening :: (x ++ [closing]))

inductive SpellsMember : RuleMember → Bytes → Prop
  | mk {m : RuleMember} {ws ws' : Bytes} : IsGap ws → IsGap ws' →
      SpellsMember m (ch '"' :: (m.keyText ++ ch '"' :: (ws ++ ch ':' :: (ws' ++ m.value.text))))

def SpellsRule (ms : List RuleMember) (x : Bytes) : Prop :=
  IsRule ms ∧ SpellsBracketed (ch '\x7b') (ch '\x7d') SpellsMember ms x

inductive SpellsFile (file : List (List RuleMember)) : Bytes → Prop
  | mk {ws x ws' : Bytes} : IsGap ws → SpellsBracketed (ch '[') (ch ']') SpellsRule file x →
      IsGap ws' → SpellsFile file (ws ++ (x ++ ws'))

def valueOf (ms : List RuleMember) (name : String) : Option RuleValue :=
  (ms.find? (·.name = ascii name)).map (·.value)

def RuleValue.bytes : RuleValue → Bytes
  | string val _ => val
  | nat n => decimal n
  | bare text => text
  | nested _ => []

def bytesOf (ms : List RuleMember) (name : String) : Bytes :=
  ((valueOf ms name).map (·.bytes)).getD []

/-- The rule with its own member values; `junk` stands for a missing layer. -/
def ruleOf (junk : Int) (ms : List RuleMember) : GateRuleDef where
  fieldKey := bytesOf ms "field_key"
  fieldTypeStr := bytesOf ms "field_type"
  op := bytesOf ms "op"
  value := bytesOf ms "value"
  scenario := bytesOf ms "scenario"
  layer :=
    match valueOf ms "layer" with
    | some (.nat n) => n
    | _ => junk
  subCategory := bytesOf ms "sub_category"
  stableKey := bytesOf ms "stable_key"
  errorHint := bytesOf ms "error_hint"
  enabled :=
    match valueOf ms "enabled" with
    | some (.bare text) => text = ascii "true"
    | _ => true

def activeRules (junk : Int) (file : List (List RuleMember)) : List GateRuleDef :=
  (file.map (ruleOf junk)).filter fun r => r.enabled ∧ r.fieldKey ≠ []

section

variable {ν : Type} (D : CDouble ν) (fits : Bytes → Bytes → Prop)

/-- The inside of `[min,max]`. -/
def rangeInner (thresh : Bytes) : Bytes :=
  let s := jsonSkipByte (ch '[') thresh
  if s.getLast? = some (ch ']') then s.dropLast else s

/-- The number of a value lies between the two numbers of a text `min,max`. -/
def IsBetween (bounds value : Bytes) : Prop :=
  let val := (D.strtod value).1
  ch ',' ∈ bounds ∧ D.le (D.strtod (bounds.takeWhile (· ≠ ch ','))).1 val ∧
    D.le val (D.strtod (bounds.dropWhile (· ≠ ch ',')).tail).1

/-- What the operators ask of a value; `fits` tells whether a text fits a pattern. -/
def Satisfies (op thresh value : Bytes) : Prop :=
  if op = ascii "eq" then value = thresh
  else if op = ascii "ne" then value ≠ thresh
  else if op = ascii "gt" then D.lt (D.strtod thresh).1 (D.strtod value).1 = true
  else if op = ascii "lt" then D.lt (D.strtod value).1 (D.strtod thresh).1 = true
  else if op = ascii "gte" then D.le (D.strtod thresh).1 (D.strtod value).1 = true
  else if op = ascii "lte" then D.le (D.strtod value).1 (D.strtod thresh).1 = true
  else if op = ascii "in" then value ≠ [] ∧ value ∈ thresh.splitOn (ch ',')
  else if op = ascii "range" then IsBetween D (rangeInner thresh) value
  else if op = ascii "match" then fits thresh value
  else True

/-- The evaluator can tell every value that violates a rule: it compares with a bound
by `<` only, takes the bounds of a range with their brackets, and does not know `match`. -/
def Enforceable (op thresh : Bytes) : Prop :=
  if op = ascii "gte" then
    ∀ value, D.le (D.strtod thresh).1 (D.strtod value).1 ∨
      D.lt (D.strtod value).1 (D.strtod thresh).1
  else if op = ascii "lte" then
    ∀ value, D.le (D.strtod value).1 (D.strtod thresh).1 ∨
      D.lt (D.strtod value).1 (D.strtod thresh).1 = false ∧
        D.lt (D.strtod thresh).1 (D.strtod value).1
  else if op = ascii "range" then
    ch ',' ∈ thresh ∧ ∀ value, IsBetween D thresh value → IsBetween D (rangeInner thresh) value
  else if op = ascii "match" then ∀ value, fits thresh value
  else True

def OwnNodes (chain : LinkedChain) (rules : List GateRuleDef) : Prop :=
  ∃ ptrs : List Nat, ptrs.Nodup ∧
    List.Forall₂ (fun ptr r => ptr ∈ chain.reachable ∧ chain.nodes[ptr]? = some (ruleNode r))
      ptrs rules

def Guards (chain : LinkedChain) (r : GateRuleDef) : Prop :=
  ∀ value, ¬Satisfies D fits r.op r.value value →
    (gateEvaluatorEvaluate D ⟨some r.fieldKey, some value⟩ chain.toGateChain).passed = false

/-- The active rules of a file are loaded, and a chain that is built of them has them
all as nodes and enforces them all. -/
structure EnforcedInFull (junk : Int) (file : List (List RuleMember)) (content : Bytes) : Prop where
  loaded : loadGateRules junk content = activeRules junk file
  enforced : ∀ fuel, ∃ chain, buildGateChain (fuel + 3) {} (activeRules junk file) = some chain ∧
    OwnNodes chain (activeRules junk file) ∧ ∀ r ∈ activeRules junk file, Guards D fits chain r

end

/-- The loader can read the member: a key that is not empty, the escapes it knows in
the keys and in the strings of the rule, and one kind of brackets in a nested value. -/
def RuleMember.IsReadable (m : RuleMember) : Prop :=
  SpellsString m.name m.keyText ∧ m.name ≠ [] ∧
    match m.value with
    | .string val text => m.name ∈ ascii "value" :: stringNames → SpellsString val text
    | .nested text => IsNested True False text ∨ IsNested False True text
    | _ => True

end BlessStar.Gate
