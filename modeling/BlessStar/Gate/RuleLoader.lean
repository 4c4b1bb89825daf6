import BlessStar.Gate.Lexer
import BlessStar.Gate.Map

/-!
# The gate rule loader

`load_gate_rules` and `build_gate_chain` of `gate_rule_loader.cpp`, the three
factories, and `bs_gate_chain_upsert_node` of `gate_chain_serialize.c`.  A text
ends at its NUL, so a file is the bytes in front of its first one.
-/

namespace BlessStar.Gate

open Lib.ByteString

structure GateRuleDef where
  fieldKey : Bytes := []
  fieldTypeStr : Bytes := []
  op : Bytes := []
  value : Bytes := []
  scenario : Bytes := []
  layer : Int
  subCategory : Bytes := []
  stableKey : Bytes := []
  errorHint : Bytes := []
  enabled : Bool := true
  deriving DecidableEq

def jsonSkipSpaces (s : Bytes) : Bytes := s.dropWhile isBlank

/-- The loop of `json_parse_string`, behind the opening quote. -/
def jsonStringBody : Bytes → Bytes × Bytes
  | [] => ([], [])
  | c :: rest =>
      if c = ch '"' then ([], rest)
      else if c = ch '\\' then
        match rest with
        | [] => ([c], [])
        | e :: rest =>
            let r := jsonStringBody rest
            (unescape e :: r.1, r.2)
      else
        let r := jsonStringBody rest
        (c :: r.1, r.2)

/-- `json_parse_string`: the string and the text behind it. -/
def jsonParseString (s : Bytes) : Bytes × Bytes :=
  match jsonSkipSpaces s with
  | [] => ([], [])
  | c :: rest => if c = ch '"' then jsonStringBody rest else ([], c :: rest)

theorem jsonStringBody_quote (rest : Bytes) : jsonStringBody (ch '"' :: rest) = ([], rest) := by
  cases rest <;> simp [jsonStringBody]

theorem jsonStringBody_raw {c : UInt8} (hquote : c ≠ ch '"') (hslash : c ≠ ch '\\') (rest : Bytes) :
    jsonStringBody (c :: rest) = (c :: (jsonStringBody rest).1, (jsonStringBody rest).2) := by
  cases rest <;> simp [jsonStringBody, hquote, hslash]

theorem jsonStringBody_escape (c : UInt8) (rest : Bytes) :
    jsonStringBody (ch '\\' :: c :: rest) =
      (unescape c :: (jsonStringBody rest).1, (jsonStringBody rest).2) := by
  have hquote : ch '\\' ≠ ch '"' := by decide
  simp [jsonStringBody, hquote]

theorem length_jsonStringBody_le (s : Bytes) : (jsonStringBody s).2.length ≤ s.length := by
  induction s using jsonStringBody.induct with
  | case1 => exact Nat.le_refl _
  | case2 rest =>
      rw [jsonStringBody_quote]
      exact Nat.le_succ _
  | case3 => exact Nat.zero_le _
  | case4 e rest _ ih =>
      rw [jsonStringBody_escape]
      exact Nat.le_succ_of_le (Nat.le_succ_of_le ih)
  | case5 c rest hquote hslash ih =>
      rw [jsonStringBody_raw hquote hslash]
      exact Nat.le_succ_of_le ih

/-- The loop that skips a nested value: both kinds of brackets open a level, and only
`close` ends one. -/
def jsonSkipNested (close : UInt8) (depth : Nat) (s : Bytes) : Bytes :=
  match depth, s with
  | 0, s => s
  | _ + 1, [] => []
  | depth + 1, c :: rest =>
      if c = ch '"' then jsonSkipNested close (depth + 1) (jsonStringBody rest).2
      else if c = ch '\x7b' ∨ c = ch '[' then jsonSkipNested close (depth + 2) rest
      else if c = close then jsonSkipNested close depth rest
      else jsonSkipNested close (depth + 1) rest
termination_by s.length
decreasing_by
  · exact Nat.lt_succ_of_le (length_jsonStringBody_le rest)
  all_goals exact Nat.lt_succ_self _

def isBareByte (c : UInt8) : Bool :=
  !isSpace c && c ≠ ch ',' && c ≠ ch '\x7d' && c ≠ ch ']'

/-- `json_parse_value`: the value, empty for a nested one, and the text behind it. -/
def jsonParseValue (s : Bytes) : Bytes × Bytes :=
  match jsonSkipSpaces s with
  | [] => ([], [])
  | c :: rest =>
      if c = ch '"' then jsonStringBody rest
      else if c = ch '\x7b' then ([], jsonSkipNested (ch '\x7d') 1 rest)
      else if c = ch '[' then ([], jsonSkipNested (ch ']') 1 rest)
      else ((c :: rest).takeWhile isBareByte, (c :: rest).dropWhile isBareByte)

def atoi (s : Bytes) : Int :=
  let s := s.dropWhile isSpace
  let digits := if s.head? = some (ch '-') ∨ s.head? = some (ch '+') then s.drop 1 else s
  let n : Nat := (digitsPrefix 10 digits).foldl (fun acc d => acc * 10 + d) 0
  if s.head? = some (ch '-') then -n else n

def readMember (key s : Bytes) (rule : GateRuleDef) : GateRuleDef × Bytes :=
  let str := jsonParseString s
  let val := jsonParseValue s
  if key = ascii "field_key" then ({ rule with fieldKey := str.1 }, str.2)
  else if key = ascii "field_type" then ({ rule with fieldTypeStr := str.1 }, str.2)
  else if key = ascii "op" then ({ rule with op := str.1 }, str.2)
  else if key = ascii "value" then ({ rule with value := val.1 }, val.2)
  else if key = ascii "scenario" then ({ rule with scenario := str.1 }, str.2)
  else if key = ascii "sub_category" then ({ rule with subCategory := str.1 }, str.2)
  else if key = ascii "stable_key" then ({ rule with stableKey := str.1 }, str.2)
  else if key = ascii "error_hint" then ({ rule with errorHint := str.1 }, str.2)
  else if key = ascii "layer" then ({ rule with layer := atoi val.1 }, val.2)
  else if key = ascii "enabled" then ({ rule with enabled := val.1 = ascii "true" }, val.2)
  else (rule, val.2)

def startsWith (c : UInt8) (s : Bytes) : Bool := s.head? = some c

@[simp] theorem startsWith_cons (c d : UInt8) (s : Bytes) :
    startsWith c (d :: s) = decide (d = c) := by
  simp [startsWith]

/-- Pass over the byte `c`, if it is next. -/
def jsonSkipByte (c : UInt8) (s : Bytes) : Bytes := if startsWith c s then s.tail else s

def readMembers : Nat → Bytes → GateRuleDef → GateRuleDef × Bytes
  | 0, s, rule => (rule, s)
  | n + 1, s, rule =>
      if s = [] then (rule, s)
      else
        let s := jsonSkipSpaces s
        if startsWith (ch '\x7d') s then (rule, s)
        else
          let key := jsonParseString s
          let s := jsonSkipSpaces key.2
          if key.1 = [] then (rule, key.2)
          else if startsWith (ch ':') s then
            let r := readMember key.1 s.tail rule
            readMembers n (jsonSkipByte (ch ',') (jsonSkipSpaces r.2)) r.1
          else (rule, s)

/-- The loop over the rules; `junk` is what the memory of `layer` holds. -/
def readRules (junk : Int) : Nat → Bytes → List GateRuleDef
  | 0, _ => []
  | n + 1, s =>
      match jsonSkipSpaces s with
      | [] => []
      | c :: rest =>
          if c = ch ']' then []
          else if c = ch '\x7b' then
            let r := readMembers rest.length rest { layer := junk }
            let s := jsonSkipByte (ch '\x7d') (jsonSkipSpaces r.2)
            if r.1.enabled ∧ r.1.fieldKey ≠ [] then
              r.1 :: readRules junk n (jsonSkipByte (ch ',') (jsonSkipSpaces s))
            else readRules junk n s
          else readRules junk n rest

/-- `load_gate_rules` on the contents of the file. -/
def loadGateRules (junk : Int) (content : Bytes) : List GateRuleDef :=
  match jsonSkipSpaces (cstr content) with
  | [] => []
  | c :: rest => if c = ch '[' then readRules junk rest.length rest else []

/-- `strstr`, for a text in UTF-8. -/
def mentions (hint : Bytes) (word : String) : Bool := word.toUTF8.toList <:+: hint

/-- `bs_gate_factory_infer_sub_category`. -/
def inferSubCategory (op aiHint : Bytes) : Bytes :=
  if op = ascii "eq" ∨ op = ascii "ne" then
    if ["enum", "枚举", "format", "格式"].any (mentions aiHint) then ascii "enum_check"
    else ascii "format"
  else if op = ascii "gt" ∨ op = ascii "lt" ∨ op = ascii "gte" ∨ op = ascii "lte" then
    ascii "threshold"
  else if op = ascii "in" then ascii "enum_check"
  else if op = ascii "range" then ascii "threshold"
  else if op = ascii "match" then ascii "format"
  else if ["阈值", "threshold", "限制", "limit", "上限", "下限", "max", "min"].any
      (mentions aiHint) then ascii "threshold"
  else if ["审批", "approve", "approval"].any (mentions aiHint) then ascii "approval"
  else if ["告警", "alert", "warn"].any (mentions aiHint) then ascii "alert"
  else if ["枚举", "enum"].any (mentions aiHint) then ascii "enum_check"
  else ascii "threshold"

def produceNode (type : Bytes) (layer : Nat) (r : GateRuleDef) : GateScalars :=
  let sub := inferSubCategory r.op r.errorHint
  -- `snprintf` into a `char[512]`
  let key := (r.scenario ++ ascii ":" ++ r.fieldKey ++ ascii ":" ++ decimal layer ++ ascii ":" ++
    sub).take 511
  { type := some type, id := some key, fieldKey := some r.fieldKey, op := some r.op,
    value := some r.value, stableKey := some key, layer := layer, subCategory := some sub }

def defaultProduce (r : GateRuleDef) : GateScalars := produceNode (ascii "bs_condition") 0 r

def policyProduce (r : GateRuleDef) : GateScalars := produceNode (ascii "bs_policy_attr") 1 r

def customProduce (r : GateRuleDef) : GateScalars := produceNode (ascii "bs_custom_gate") 2 r

def domainAndEntity (stableKey : Bytes) : Option Bytes × Option Bytes :=
  match stableKey.splitOn (ch ':') with
  | domain :: entity :: _ :: _ => (some domain, some entity)
  | [domain, _] => (some domain, none)
  | _ => (none, none)

/-- The node of a rule, as `build_gate_chain` hands it to the chain.  The factory has
set the stable key and the sub-category. -/
def ruleNode (r : GateRuleDef) : GateScalars :=
  let node :=
    if r.layer = 1 then policyProduce r
    else if r.layer = 2 then customProduce r
    else defaultProduce r
  let parts := domainAndEntity r.stableKey
  { node with domain := parts.1, entity := parts.2 }

/-- `bs_gate_chain_t` with its nodes by address, in the order of their allocation.
Neither a factory nor `copy_node_fields` makes an edge, so a node is its scalars. -/
structure LinkedChain where
  nodes : List GateScalars := []
  root : Option Nat := none
  map : Option (GateMap Nat) := none

namespace LinkedChain

def addNode (chain : LinkedChain) (src : GateScalars) (map : GateMap Nat) : LinkedChain where
  nodes := chain.nodes ++ [src]
  root := chain.root <|> some chain.nodes.length
  map := some map

/-- `bs_gate_chain_upsert_node`; the code of the insert is not looked at. -/
def upsertNode (fuel : Nat) (chain : LinkedChain) (src : GateScalars) : Option LinkedChain :=
  let map := chain.map.getD (GateMap.create 16)
  match src.stableKey with
  | none => some (chain.addNode src map)
  | some key =>
      match map.lookup key with
      | some ptr => some { chain with nodes := chain.nodes.set ptr src, map := some map }
      | none => (map.insert fuel key chain.nodes.length).map fun r => chain.addNode src r.2

def reachable (chain : LinkedChain) : List Nat := chain.root.toList

def toGateChain (chain : LinkedChain) : GateChain where
  root := (chain.root.bind (chain.nodes[·]?)).map fun s => .mk s [] []

end LinkedChain

/-- `build_gate_chain`, which no rule makes fail; out of fuel in the map is `none`. -/
def buildGateChain (fuel : Nat) (chain : LinkedChain) (rules : List GateRuleDef) :
    Option LinkedChain :=
  rules.foldlM (fun chain r => chain.upsertNode fuel (ruleNode r)) chain

end BlessStar.Gate
