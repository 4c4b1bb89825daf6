import BlessStar.Gate.RuleLoader
import BlessStar.Lib.JsonText

/-!
# The loader of business manifests

`bs_manifest_load_from_json` of `manifest_loader.c`.  A cursor is the text that is
left and the error flag; the parser passes it along.  An array of the manifest that
is `NULL` is `none`.  Memory is sufficient.
-/

namespace BlessStar.Business

open Lib.ByteString
open Gate (atoi ch isBareByte scanString)

structure ManifestField where
  key : Bytes := []
  type : Bytes := []
  defaultStr : Bytes := []
  description : Bytes := []
  required : Bool := false
  deriving DecidableEq, Repr

structure InvEntry where
  keyword : Bytes := []
  configKeys : List Bytes := []
  deriving DecidableEq, Repr

structure DomainShard where
  domainName : Bytes := []
  keywords : List Bytes := []
  domainDescription : Bytes := []
  deriving DecidableEq, Repr

structure SkillRoute where
  prefixName : Bytes := []
  description : Bytes := []
  toolChain : List Bytes := []
  priority : Int := 0
  deriving DecidableEq, Repr

/-- `bs_manifest_ai_data_t`; `config_labels` are its keys with their values. -/
structure AiData where
  configLabels : Option (List (Bytes × Bytes)) := none
  invertedIndex : Option (List InvEntry) := none
  domainShards : Option (List DomainShard) := none
  skillRoutes : Option (List SkillRoute) := none
  deriving DecidableEq, Repr

structure Manifest where
  bizId : Bytes := []
  displayName : Bytes := []
  sdkVersion : Bytes := []
  fields : Option (List ManifestField) := none
  aiData : AiData := {}
  normalizerLibPath : Bytes := []
  deriving DecidableEq, Repr

def Manifest.OwnsNothing (m : Manifest) : Prop := m.fields = none ∧ m.aiData = {}

instance : DecidablePred Manifest.OwnsNothing := fun m =>
  inferInstanceAs (Decidable (m.fields = none ∧ m.aiData = {}))

/-- `json_parse_ctx_t`. -/
structure Ctx where
  rest : Bytes
  error : Bool := false
  deriving DecidableEq, Repr

abbrev Reader := StateM Ctx

/-- `ctx->error = 1`. -/
def raise : Reader Unit := fun ctx => ((), { ctx with error := true })

def hasError : Reader Bool := fun ctx => (ctx.error, ctx)

def jmatch (c : UInt8) : Reader Bool := fun ctx =>
  match ctx.rest.dropWhile isSpace with
  | [] => (false, { ctx with rest := [] })
  | d :: rest =>
      if d = c then (true, { ctx with rest := rest })
      else (false, { ctx with rest := d :: rest })

def jparseString : Reader (Option Bytes) := fun ctx =>
  match ctx.rest.dropWhile isSpace with
  | [] => (none, ⟨[], true⟩)
  | c :: rest =>
      if c = ch '"' then
        match scanString rest with
        | some (buf, rest) => (some buf, { ctx with rest := rest })
        | none => (none, ⟨[], true⟩)
      else (none, ⟨c :: rest, true⟩)

def jparseValueStr : Reader (Option Bytes) := fun ctx =>
  match ctx.rest.dropWhile isSpace with
  | [] => (none, { ctx with rest := [] })
  | c :: rest =>
      if c = ch '"' then jparseString { ctx with rest := c :: rest }
      else
        (some ((c :: rest).takeWhile isBareByte),
          { ctx with rest := (c :: rest).dropWhile isBareByte })

/-- The loop of `jskip_value` over an object or an array: only brackets of its own kind
count. -/
def skipNested (opened closed : UInt8) : Nat → Nat → Ctx → Ctx
  | 0, _, ctx => ctx
  | n + 1, depth, ctx =>
      match ctx.rest with
      | [] => ctx
      | c :: rest =>
          if depth = 0 then ctx
          else if c = ch '"' then skipNested opened closed n depth (jparseString ctx).2
          else
            skipNested opened closed n
              (if c = opened then depth + 1 else if c = closed then depth - 1 else depth)
              { ctx with rest := rest }

def jskipValue : Reader Unit := fun ctx =>
  match ctx.rest.dropWhile isSpace with
  | [] => ((), { ctx with rest := [] })
  | c :: rest =>
      if c = ch '"' then ((), (jparseString { ctx with rest := c :: rest }).2)
      else if c = ch '\x7b' then
        ((), skipNested (ch '\x7b') (ch '\x7d') (rest.length + 1) 1 { ctx with rest := rest })
      else if c = ch '[' then
        ((), skipNested (ch '[') (ch ']') (rest.length + 1) 1 { ctx with rest := rest })
      else ((), { ctx with rest := (c :: rest).dropWhile isBareByte })

/-- The loop over the members of an object.  It tells whether it broke off at a key or a
colon; a missing colon is an error where it is `strict`. -/
def objectLoop {α : Type} (strict : Bool) (member : Bytes → α → Reader α) :
    Nat → α → Reader (α × Bool)
  | 0, a => pure (a, false)
  | n + 1, a => fun ctx =>
      if ctx.rest = [] ∨ ctx.error = true then ((a, false), ctx)
      else
        let closed := jmatch (ch '\x7d') ctx
        if closed.1 then ((a, false), closed.2)
        else
          let key := jparseString closed.2
          match key.1 with
          | none => ((a, true), key.2)
          | some k =>
              let colon := jmatch (ch ':') key.2
              if colon.1 then
                let value := member k a colon.2
                objectLoop strict member n value.1 (jmatch (ch ',') value.2).2
              else ((a, true), { colon.2 with error := colon.2.error || strict })

def jobject {α : Type} (strict : Bool) (member : Bytes → α → Reader α) (a : α) :
    Reader (α × Bool) := fun ctx => objectLoop strict member (ctx.rest.length + 1) a ctx

/-- The loop over an array of objects behind its bracket; `none` is an array that was
freed. -/
def objectsLoop {α : Type} (item : Reader (Option α)) : Nat → List α → Reader (Option (List α))
  | 0, items => pure (some items)
  | n + 1, items => fun ctx =>
      if ctx.rest = [] ∨ ctx.error = true then (some items, ctx)
      else
        let closed := jmatch (ch ']') ctx
        if closed.1 then (some items, closed.2)
        else
          let opened := jmatch (ch '\x7b') closed.2
          if opened.1 then
            let value := item opened.2
            match value.1 with
            | none => (none, value.2)
            | some a => objectsLoop item n (items ++ [a]) (jmatch (ch ',') value.2).2
          else (none, { opened.2 with error := true })

def jobjects {α : Type} (item : Reader (Option α)) : Reader (Option (List α)) := fun ctx =>
  objectsLoop item (ctx.rest.length + 1) [] ctx

def stringsLoop : Nat → List Bytes → Reader (List Bytes)
  | 0, items => pure items
  | n + 1, items => fun ctx =>
      if ctx.rest = [] ∨ ctx.error = true then (items, ctx)
      else
        let closed := jmatch (ch ']') ctx
        if closed.1 then (items, closed.2)
        else
          let value := jparseString closed.2
          match value.1 with
          | none => (items, value.2)
          | some v => stringsLoop n (items ++ [v]) (jmatch (ch ',') value.2).2

def jstrings : Reader (Option (List Bytes)) := do
  if ← jmatch (ch '[') then
    let items ← fun ctx => stringsLoop (ctx.rest.length + 1) [] ctx
    return some items
  else
    jskipValue
    return none

/-- `strncpy(dst, v, sizeof(dst) - 1)` into a buffer of this size. -/
def copyTo (size : Nat) (v : Bytes) : Bytes := v.take (size - 1)

def setString {α : Type} (set : Bytes → α → α) (a : α) : Reader α := do
  match ← jparseString with
  | none => return a
  | some v => return set v a

/-- The members of a field in `parse_fields`. -/
def fieldMember (k : Bytes) (f : ManifestField) : Reader ManifestField := do
  match ← jparseValueStr with
  | none => return f
  | some v =>
      return if k = ascii "key" then { f with key := copyTo 64 v }
        else if k = ascii "type" then { f with type := copyTo 16 v }
        else if k = ascii "default" then { f with defaultStr := copyTo 256 v }
        else if k = ascii "description" then { f with description := copyTo 512 v }
        else if k = ascii "required" then { f with required := v = ascii "true" }
        else f

/-- A field behind its brace; `none` is a return that frees the fields. -/
def fieldItem : Reader (Option ManifestField) := do
  let (f, aborted) ← jobject true fieldMember {}
  if aborted then
    return none
  else if !(← hasError) && f.key = [] then
    raise
    return none
  else
    return some f

def parseFields (m : Manifest) : Reader Manifest := do
  if ← jmatch (ch '[') then
    match ← jobjects fieldItem with
    | none => return m
    | some fields => return { m with fields := some fields }
  else
    raise
    return m

def parseConfigLabels : Reader (Option (List (Bytes × Bytes))) := do
  if ← jmatch (ch '\x7b') then
    let (labels, _) ← jobject false (fun k labels => do
      let v ← jparseString
      return labels ++ [(k, v.getD [])]) []
    return some labels
  else
    jskipValue
    return none

def parseObjects {α : Type} (member : Bytes → α → Reader α) (new : α) :
    Reader (Option (List α)) := do
  if ← jmatch (ch '[') then
    jobjects do
      let (a, _) ← jobject false member new
      return some a
  else
    jskipValue
    return none

/-- The members of an entry in `parse_inverted_index`. -/
def invMember (k : Bytes) (e : InvEntry) : Reader InvEntry := do
  if k = ascii "keyword" then
    setString (fun v e => { e with keyword := copyTo 128 v }) e
  else if k = ascii "config_keys" then
    match ← jstrings with
    | none => return e
    | some keys => return { e with configKeys := keys }
  else
    jskipValue
    return e

/-- The members of a shard in `parse_domain_shards`. -/
def shardMember (k : Bytes) (s : DomainShard) : Reader DomainShard := do
  if k = ascii "domain_name" then
    setString (fun v s => { s with domainName := copyTo 128 v }) s
  else if k = ascii "domain_description" then
    setString (fun v s => { s with domainDescription := copyTo 1024 v }) s
  else if k = ascii "keywords" then
    match ← jstrings with
    | none => return s
    | some keys => return { s with keywords := keys }
  else
    jskipValue
    return s

/-- The members of a route in `parse_skill_routes`. -/
def routeMember (k : Bytes) (r : SkillRoute) : Reader SkillRoute := do
  if k = ascii "prefix" then
    setString (fun v r => { r with prefixName := copyTo 64 v }) r
  else if k = ascii "description" then
    setString (fun v r => { r with description := copyTo 512 v }) r
  else if k = ascii "priority" then
    match ← jparseValueStr with
    | none => return r
    | some v => return { r with priority := atoi v }
  else if k = ascii "tool_chain" then
    match ← jstrings with
    | none => return r
    | some tools => return { r with toolChain := tools }
  else
    jskipValue
    return r

/-- The members of `ai_data` in `parse_ai_data`. -/
def aiMember (k : Bytes) (d : AiData) : Reader AiData := do
  if k = ascii "config_labels" then
    return { d with configLabels := ← parseConfigLabels }
  else if k = ascii "inverted_index" then
    return { d with invertedIndex := ← parseObjects invMember {} }
  else if k = ascii "domain_shards" then
    return { d with domainShards := ← parseObjects shardMember {} }
  else if k = ascii "skill_routes" then
    return { d with skillRoutes := ← parseObjects routeMember {} }
  else
    jskipValue
    return d

def parseAiData : Reader AiData := do
  if ← jmatch (ch '\x7b') then
    let (d, _) ← jobject true aiMember {}
    return d
  else
    jskipValue
    return {}

/-- The output with the flags `found_biz_id` and `found_display`. -/
structure Loaded where
  out : Manifest := {}
  foundBizId : Bool := false
  foundDisplay : Bool := false
  deriving DecidableEq, Repr

def manifestMember (k : Bytes) (l : Loaded) : Reader Loaded := do
  if k = ascii "biz_id" then
    setString (fun v l =>
      { l with out := { l.out with bizId := copyTo 64 v }, foundBizId := true }) l
  else if k = ascii "display_name" then
    setString (fun v l =>
      { l with out := { l.out with displayName := copyTo 128 v }, foundDisplay := true }) l
  else if k = ascii "sdk_version" then
    setString (fun v l => { l with out := { l.out with sdkVersion := copyTo 64 v } }) l
  else if k = ascii "normalizer_lib_path" then
    setString (fun v l => { l with out := { l.out with normalizerLibPath := copyTo 256 v } }) l
  else if k = ascii "fields" then
    return { l with out := ← parseFields l.out }
  else if k = ascii "ai_data" then
    return { l with out := { l.out with aiData := ← parseAiData } }
  else
    jskipValue
    return l

structure LoadResult where
  rc : Int
  out : Manifest
  deriving DecidableEq, Repr

/-- `bs_manifest_load_from_json`; without an id or a name `bs_manifest_destroy` clears the
output. -/
def manifestLoadFromJson (json : Bytes) : LoadResult :=
  let opened := jmatch (ch '\x7b') ⟨json, false⟩
  if opened.1 then
    let run := jobject true manifestMember {} opened.2
    let loaded := run.1.1
    if loaded.foundBizId && loaded.foundDisplay then
      ⟨if run.2.error then -1 else 0, loaded.out⟩
    else ⟨-1, {}⟩
  else ⟨-1, {}⟩

end BlessStar.Business

/-!
## Business manifests as documents

The manifest that a JSON object declares, read off its value and not from the loader:
names are distinct at every level, unknown members may have any value, and strings
fit the buffers they are copied to.
-/

namespace BlessStar.Business

open Lib.ByteString
open Lib.JsonText (Tree Trees Fields Word Spells)
open Gate (atoi ch)

def memberNames : Fields → List Bytes
  | .nil => []
  | .cons name _ rest => name :: memberNames rest

def memberNamed (name : Bytes) : Fields → Option Tree
  | .nil => none
  | .cons key value rest => if key = name then some value else memberNamed name rest

def objectIn {α : Type} (read : Fields → Option α) : Tree → Option α
  | .object members => if (memberNames members).Nodup then read members else none
  | _ => none

def treesIn {α : Type} (read : Tree → Option α) : Trees → Option (List α)
  | .nil => some []
  | .cons head tail => do return (← read head) :: (← treesIn read tail)

def arrayIn {α : Type} (read : Tree → Option α) : Tree → Option (List α)
  | .array items => treesIn read items
  | _ => none

def optionalIn {α : Type} (read : Tree → Option α) (absent : α) (name : String)
    (members : Fields) : Option α :=
  match memberNamed (ascii name) members with
  | none => some absent
  | some value => read value

def requiredIn {α : Type} (read : Tree → Option α) (name : String) (members : Fields) :
    Option α :=
  memberNamed (ascii name) members >>= read

def stringIn (size : Nat) : Tree → Option Bytes
  | .string s => if s.length < size then some s else none
  | _ => none

def scalarIn (size : Nat) : Tree → Option Bytes
  | .string s | .number s => if s.length < size then some s else none
  | .word w => some w.text
  | _ => none

def anyString : Tree → Option Bytes
  | .string s => some s
  | _ => none

def boolIn : Tree → Option Bool
  | .word .true => some true
  | .word .false => some false
  | _ => none

/-- A number without fraction and exponent that an `int` holds. -/
def intIn : Tree → Option Int
  | .number s =>
      if (∀ c ∈ s, c ∈ ascii "-0123456789") ∧ -2 ^ 31 ≤ atoi s ∧ atoi s < 2 ^ 31 then
        some (atoi s)
      else none
  | _ => none

def fieldIn (members : Fields) : Option ManifestField := do
  let key ← requiredIn (stringIn 64) "key" members
  if key = [] then none
  else
    return {
      key
      type := ← optionalIn (scalarIn 16) [] "type" members
      defaultStr := ← optionalIn (scalarIn 256) [] "default" members
      description := ← optionalIn (scalarIn 512) [] "description" members
      required := ← optionalIn boolIn false "required" members }

def labelsIn : Fields → Option (List (Bytes × Bytes))
  | .nil => some []
  | .cons key value rest => do return (key, ← anyString value) :: (← labelsIn rest)

def invEntryIn (members : Fields) : Option InvEntry := do
  return {
    keyword := ← optionalIn (stringIn 128) [] "keyword" members
    configKeys := ← optionalIn (arrayIn anyString) [] "config_keys" members }

def domainShardIn (members : Fields) : Option DomainShard := do
  return {
    domainName := ← optionalIn (stringIn 128) [] "domain_name" members
    keywords := ← optionalIn (arrayIn anyString) [] "keywords" members
    domainDescription := ← optionalIn (stringIn 1024) [] "domain_description" members }

def skillRouteIn (members : Fields) : Option SkillRoute := do
  return {
    prefixName := ← optionalIn (stringIn 64) [] "prefix" members
    description := ← optionalIn (stringIn 512) [] "description" members
    toolChain := ← optionalIn (arrayIn anyString) [] "tool_chain" members
    priority := ← optionalIn intIn 0 "priority" members }

def objectsIn {α : Type} (read : Fields → Option α) (name : String) (members : Fields) :
    Option (Option (List α)) :=
  optionalIn (fun value => (arrayIn (objectIn read) value).map some) none name members

def aiDataIn (members : Fields) : Option AiData := do
  return {
    configLabels :=
      ← optionalIn (fun value => (objectIn labelsIn value).map some) none "config_labels" members
    invertedIndex := ← objectsIn invEntryIn "inverted_index" members
    domainShards := ← objectsIn domainShardIn "domain_shards" members
    skillRoutes := ← objectsIn skillRouteIn "skill_routes" members }

def manifestIn (members : Fields) : Option Manifest := do
  return {
    bizId := ← requiredIn (stringIn 64) "biz_id" members
    displayName := ← requiredIn (stringIn 128) "display_name" members
    sdkVersion := ← optionalIn (stringIn 64) [] "sdk_version" members
    fields := ← objectsIn fieldIn "fields" members
    aiData := ← optionalIn (objectIn aiDataIn) {} "ai_data" members
    normalizerLibPath := ← optionalIn (stringIn 256) [] "normalizer_lib_path" members }

/-- A text is a well-formed manifest and declares `m`. -/
def IsManifest (text : Bytes) (m : Manifest) : Prop :=
  ∃ tree, Spells text tree ∧ objectIn manifestIn tree = some m

/-- What loading the text of a manifest and what is left of it promises. -/
structure LoadsExactly (text : Bytes) (m : Manifest) : Prop where
  /-- The whole text gives the whole manifest. -/
  whole : manifestLoadFromJson text = ⟨0, m⟩
  /-- A text that has lost more than white space is refused. -/
  cut : ∀ kept lost, text = kept ++ lost → (∃ c ∈ lost, isSpace c = false) →
    (manifestLoadFromJson kept).rc ≠ 0
  /-- A refused text leaves nothing in the output. -/
  clean : ∀ kept lost, text = kept ++ lost → (manifestLoadFromJson kept).rc ≠ 0 →
    (manifestLoadFromJson kept).out.OwnsNothing

end BlessStar.Business
