import BlessStar.Gate.Json
import BlessStar.Lib.FileSystem
import BlessStar.Schema.Types

/-!
# The fingerprint of the agent index

`bs_agent_index_export` and `bs_agent_index_needs_rebuild` of
`agent_indexer.c`.  The texts of the builders are parameters, and so is which
files `fopen` can open for writing; what is opened is written in full.
`unsigned long` has 64 bits.
-/

namespace BlessStar.Sdk

open Lib.ByteString Lib.FileSystem
open Schema (FieldDef SchemaEntry SchemaType)

/-- The values of `bs_schema_type_t`. -/
def typeCode : SchemaType → UInt64
  | .str => 0
  | .i32 => 1
  | .i64 => 2
  | .f64 => 3
  | .bool => 4
  | .arr => 5
  | .obj => 6
  | .enum => 7

/-- `ctx->hash = ctx->hash * 131 + v`. -/
def mixHash (hash v : UInt64) : UInt64 := hash * 131 + v

def mixText (hash : UInt64) (text : Bytes) : UInt64 :=
  text.foldl (fun hash c => mixHash hash c.toUInt64) hash

def mixField (hash : UInt64) (name : Bytes) (type : SchemaType) : UInt64 :=
  mixHash (mixText hash name) (typeCode type)

/-- `fingerprint_foreach_cb`. -/
def fingerprintForeach (hash : UInt64) (entry : SchemaEntry) : UInt64 :=
  entry.rootFields.foldl (fun hash fd => mixField hash fd.info.name fd.info.type)
    (mixText hash entry.schemaId)

/-- The hash of the entries, in the order of `bs_schema_foreach`. -/
def fingerprint (reg : List SchemaEntry) : UInt64 := reg.foldl fingerprintForeach 5381

/-- What of `struct tm` the stamps show. -/
structure Tm where
  year : Int
  month : Nat
  day : Nat
  hour : Nat
  min : Nat
  sec : Nat
  month_lt : month < 100
  day_lt : day < 100
  hour_le : hour ≤ 23
  min_le : min ≤ 59
  sec_le : sec ≤ 60

/-- `%02d`. -/
def twoDigits (n : Nat) : Bytes := [digitByte (n / 10), digitByte (n % 10)]

/-- `%Y`. -/
def yearText (year : Int) : Bytes :=
  (if year < 0 then ascii "-" else []) ++ decimal year.natAbs

/-- `get_iso_timestamp`; without a `tm` `gmtime_r` failed. -/
def isoTimestamp : Option Tm → Bytes
  | some tm =>
      yearText tm.year ++ ascii "-" ++ twoDigits tm.month ++ ascii "-" ++ twoDigits tm.day ++
        ascii "T" ++ twoDigits tm.hour ++ ascii ":" ++ twoDigits tm.min ++ ascii ":" ++
        twoDigits tm.sec ++ ascii "Z"
  | none => ascii "unknown"

def scanLiteral (literal s : Bytes) : Option Bytes :=
  if literal <+: s then some (s.drop literal.length) else none

/-- `%*[^:]`. -/
def scanNotColon (s : Bytes) : Option Bytes :=
  if s.takeWhile (· ≠ 58) = [] then none else some (s.dropWhile (· ≠ 58))

/-- `%lu`. -/
def scanUnsigned (s : Bytes) : Option UInt64 :=
  let t := s.dropWhile isSpace
  let t := if t.head? = some 45 ∨ t.head? = some 43 then t.drop 1 else t
  if digitsPrefix 10 t = [] then none else some (strtoull 10 s)

/-- `fscanf` with `biz_semantic_index:v1:%*[^:]:%*[^:]:%lu`. -/
def scanFingerprint (content : Bytes) : Option UInt64 := do
  let s ← scanLiteral (ascii "biz_semantic_index:v1:") content
  let s ← scanNotColon s
  let s ← scanLiteral (ascii ":") s
  let s ← scanNotColon s
  let s ← scanLiteral (ascii ":") s
  scanUnsigned s

def fgets (size : Nat) (content : Bytes) : Bytes :=
  (content.takeWhile (· ≠ LF) ++ if LF ∈ content then [LF] else []).take (size - 1)

/-- What `bs_agent_index_needs_rebuild` reads from the file. -/
def oldFingerprint (content : Bytes) : UInt64 :=
  match scanFingerprint content with
  | some fp => fp
  | none => strtoull 10 (cstr (fgets 256 content))

structure AgentIndexConfig where
  outputDir : Bytes
  businessName : Option Bytes
  includeGateChain : Bool
  includeBizIndex : Bool
  format : Option Bytes

/-- `config->business_name ? config->business_name : "default"`. -/
def AgentIndexConfig.name (config : AgentIndexConfig) : Bytes :=
  config.businessName.getD (ascii "default")

/-- The path of a file of the index, as `snprintf` cuts it. -/
def AgentIndexConfig.path (config : AgentIndexConfig) (file : String) : Bytes :=
  (config.outputDir ++ ascii "/" ++ ascii file).take 511

structure IndexTexts where
  domainKnowledge : Bytes
  domainKnowledgeCompact : Bytes
  constraintKnowledge : Bytes
  constraintKnowledgeCompact : Bytes
  fieldSemantics : Bytes
  fieldSemanticsCompact : Bytes

/-- The text of `biz_semantic_index.json`. -/
def bizSemanticIndex (ts name : Bytes) : Bytes :=
  ascii "\x7b\n\"version\":\"1.0\",\n\"generated_at\":" ++ Gate.jsonEscape ts ++
    ascii ",\n\"business_name\":" ++ Gate.jsonEscape name ++
    ascii ",\n\"symbols_by_entity\":\x7b\n  \x7d\n\x7d\n"

/-- The line of `biz_index_fingerprint.txt`. -/
def fingerprintLine (ts name : Bytes) (fp : UInt64) : Bytes :=
  ascii "biz_semantic_index:v1:" ++ ts ++ ascii ":" ++ name ++ ascii ":" ++ decimal fp.toNat ++
    ascii "\n"

def indexFiles (config : AgentIndexConfig) (hasChain : Bool) (texts : IndexTexts) (ts : Bytes) :
    List (String × Bytes) :=
  let compact := config.format = some (ascii "compact")
  let gates := config.includeGateChain && hasChain
  [("domain_knowledge.json", texts.domainKnowledge)] ++
    (if compact then [("domain_knowledge.compact", texts.domainKnowledgeCompact)] else []) ++
    (if gates then [("constraint_knowledge.json", texts.constraintKnowledge)] else []) ++
    (if compact ∧ gates then [("constraint_knowledge.compact", texts.constraintKnowledgeCompact)]
      else []) ++
    [("field_semantics.json", texts.fieldSemantics)] ++
    (if compact then [("field_semantics.compact", texts.fieldSemanticsCompact)] else []) ++
    (if config.includeBizIndex then [("biz_semantic_index.json", bizSemanticIndex ts config.name)]
      else [])

/-- The index files under `fopen`. -/
structure IndexEnv where
  /-- Whether `fopen(path, "w")` succeeds. -/
  opens : Bytes → Bool

def writeFile (env : IndexEnv) (path content : Bytes) (d : Disk Bytes Bytes) :
    Int × Disk Bytes Bytes :=
  if env.opens path then (0, d.write path content) else (-1, d)

def writeFiles (env : IndexEnv) (config : AgentIndexConfig) :
    List (String × Bytes) → Disk Bytes Bytes → Int × Disk Bytes Bytes
  | [], d => (0, d)
  | (file, content) :: files, d =>
      let ret := writeFile env (config.path file) content d
      if ret.1 ≠ 0 then ret else writeFiles env config files ret.2

/-- `bs_agent_index_export`; `ts` is the time of the fourth part. -/
def agentIndexExport (env : IndexEnv) (reg : List SchemaEntry) (hasChain : Bool)
    (config : AgentIndexConfig) (texts : IndexTexts) (ts : Option Tm) (d : Disk Bytes Bytes) :
    Int × Disk Bytes Bytes :=
  let ret := writeFiles env config (indexFiles config hasChain texts (isoTimestamp ts)) d
  if ret.1 ≠ 0 then ret
  else if config.includeBizIndex then
    let path := config.path "biz_index_fingerprint.txt"
    -- a file that cannot be opened is passed over
    if env.opens path then
      (0, ret.2.write path (fingerprintLine (isoTimestamp ts) config.name (fingerprint reg)))
    else (0, ret.2)
  else (0, ret.2)

def agentIndexNeedsRebuild (reg : List SchemaEntry) (config : AgentIndexConfig)
    (d : Disk Bytes Bytes) : Int :=
  match d (config.path "biz_index_fingerprint.txt") with
  | none => 1
  | some content => if fingerprint reg = oldFingerprint content then 0 else 1

def entryShape (entry : SchemaEntry) : Bytes × List (Bytes × SchemaType) :=
  (entry.schemaId, entry.rootFields.map fun fd => (fd.info.name, fd.info.type))

def SameShape (reg reg' : List SchemaEntry) : Prop := reg'.map entryShape = reg.map entryShape

theorem fingerprintForeach_eq (hash : UInt64) (entry : SchemaEntry) :
    fingerprintForeach hash entry =
      (entryShape entry).2.foldl (fun hash f => mixField hash f.1 f.2)
        (mixText hash (entryShape entry).1) := by
  rw [fingerprintForeach, entryShape, List.foldl_map]

theorem fingerprint_eq (reg : List SchemaEntry) :
    fingerprint reg = (reg.map entryShape).foldl (fun hash shape =>
      shape.2.foldl (fun hash f => mixField hash f.1 f.2) (mixText hash shape.1)) 5381 := by
  rw [fingerprint, List.foldl_map]
  congr 1
  funext hash entry
  exact fingerprintForeach_eq hash entry

theorem SameShape.fingerprint_eq {reg reg' : List SchemaEntry} (h : SameShape reg reg') :
    fingerprint reg' = fingerprint reg := by
  rw [Sdk.fingerprint_eq, Sdk.fingerprint_eq, h]

theorem scanLiteral_append (literal s : Bytes) : scanLiteral literal (literal ++ s) = some s := by
  rw [scanLiteral, if_pos (List.prefix_append literal s), List.drop_left]

theorem scanNotColon_append {t : Bytes} (hne : t ≠ []) (ht : (58 : UInt8) ∉ t) (s : Bytes) :
    scanNotColon (t ++ ascii ":" ++ s) = some (ascii ":" ++ s) := by
  have hsplit : t ++ ascii ":" ++ s = t ++ 58 :: s := by
    rw [List.append_assoc]
    rfl
  rw [scanNotColon, hsplit, takeWhile_ne_append ht, dropWhile_ne_append ht, if_neg hne]
  rfl

theorem scanFingerprint_parts {a b : Bytes} (ha : a ≠ []) (hacolon : (58 : UInt8) ∉ a) (hb : b ≠ [])
    (hbcolon : (58 : UInt8) ∉ b) (s : Bytes) :
    scanFingerprint (ascii "biz_semantic_index:v1:" ++
      (a ++ ascii ":" ++ (b ++ ascii ":" ++ s))) = scanUnsigned s := by
  rw [scanFingerprint, scanLiteral_append]
  simp only [Option.bind_eq_bind, Option.bind_some]
  rw [scanNotColon_append ha hacolon]
  simp only [Option.bind_some]
  rw [scanLiteral_append]
  simp only [Option.bind_some]
  rw [scanNotColon_append hb hbcolon]
  simp only [Option.bind_some]
  rw [scanLiteral_append]
  rfl

theorem scanUnsigned_digits {s : Bytes} (hs : ∀ b ∈ s, IsDigit 10 b) (hne : s ≠ []) {n : Nat}
    (hvalue : (digitsPrefix 10 s).foldl (fun acc d => acc * 10 + d) 0 = n) (hn : n < 2 ^ 64)
    {c : UInt8} (hc : digitValue 10 c = none) (rest : Bytes) :
    scanUnsigned (s ++ c :: rest) = some (UInt64.ofNat n) := by
  obtain ⟨hspace, hminus, hplus⟩ := head_digits hs hne (c :: rest)
  have hsome : digitsPrefix 10 (s ++ c :: rest) ≠ [] := by
    rw [digitsPrefix_append (by decide) hs (by rintro _ ⟨⟩; exact hc)]
    obtain ⟨d, ds, rfl⟩ := List.exists_cons_of_ne_nil hne
    obtain ⟨k, hk, rfl⟩ := hs d List.mem_cons_self
    rw [digitsPrefix, digitValue_digitByte (by decide) hk]
    exact List.cons_ne_nil _ _
  unfold scanUnsigned
  simp only [hspace, hminus, hplus, or_self, if_false]
  rw [if_neg hsome, strtoull_digits hs hne hvalue hn hc]

theorem isDigit_twoDigits {n : Nat} (hn : n < 100) {b : UInt8} (hb : b ∈ twoDigits n) :
    IsDigit 10 b := by
  rcases List.mem_pair.mp hb with rfl | rfl
  · exact ⟨n / 10, by omega, rfl⟩
  · exact ⟨n % 10, by omega, rfl⟩

theorem value_twoDigits {n : Nat} (hn : n < 100) :
    (digitsPrefix 10 (twoDigits n)).foldl (fun acc d => acc * 10 + d) 0 = n := by
  rw [twoDigits, show [digitByte (n / 10), digitByte (n % 10)] = [n / 10, n % 10].map digitByte
    from rfl, digitsPrefix_map (by decide)]
  · simp only [List.foldl_cons, List.foldl_nil]
    omega
  · intro d hd
    rcases List.mem_pair.mp hd with rfl | rfl
    · omega
    · omega

theorem not_colon_of_isDigit {s : Bytes} (hs : ∀ b ∈ s, IsDigit 10 b) : (58 : UInt8) ∉ s := by
  intro h
  have hrange := (hs 58 h).decimal_range
  exact absurd hrange.2 (by decide)

def stampDate (tm : Tm) : Bytes :=
  yearText tm.year ++ ascii "-" ++ twoDigits tm.month ++ ascii "-" ++ twoDigits tm.day ++
    ascii "T" ++ twoDigits tm.hour

theorem not_colon_stampDate (tm : Tm) : (58 : UInt8) ∉ stampDate tm := by
  have hyear : (58 : UInt8) ∉ yearText tm.year := by
    unfold yearText
    split
    · simpa using ⟨by decide, not_colon_of_isDigit fun _ => isDigit_of_mem_decimal⟩
    · exact not_colon_of_isDigit fun _ => isDigit_of_mem_decimal
  have hhour : tm.hour < 100 := Nat.lt_of_le_of_lt tm.hour_le (by decide)
  simp only [stampDate, List.mem_append, not_or]
  refine ⟨⟨⟨⟨⟨⟨hyear, by decide⟩, ?_⟩, by decide⟩, ?_⟩, by decide⟩, ?_⟩
  · exact not_colon_of_isDigit fun _ => isDigit_twoDigits tm.month_lt
  · exact not_colon_of_isDigit fun _ => isDigit_twoDigits tm.day_lt
  · exact not_colon_of_isDigit fun _ => isDigit_twoDigits hhour

theorem scanFingerprint_stamp (tm : Tm) (name : Bytes) (fp : UInt64) :
    scanFingerprint (fingerprintLine (isoTimestamp (some tm)) name fp) =
      some (UInt64.ofNat tm.sec) := by
  have hmin : tm.min < 100 := Nat.lt_of_le_of_lt tm.min_le (by decide)
  have hsec : tm.sec < 100 := Nat.lt_of_le_of_lt tm.sec_le (by decide)
  have hline : fingerprintLine (isoTimestamp (some tm)) name fp =
      ascii "biz_semantic_index:v1:" ++ (stampDate tm ++ ascii ":" ++ (twoDigits tm.min ++
        ascii ":" ++ (twoDigits tm.sec ++ 90 :: (ascii ":" ++ name ++ ascii ":" ++
          decimal fp.toNat ++ ascii "\n")))) := by
    have hz : ascii "Z" = [90] := rfl
    simp [fingerprintLine, isoTimestamp, stampDate, hz]
  have hdate : stampDate tm ≠ [] := by simp [stampDate, twoDigits]
  have hscan := scanUnsigned_digits (fun _ => isDigit_twoDigits hsec) (List.cons_ne_nil _ _)
    (value_twoDigits hsec) (by omega) (c := 90) (by decide)
    (ascii ":" ++ name ++ ascii ":" ++ decimal fp.toNat ++ ascii "\n")
  have hminutes : twoDigits tm.min ≠ [] := List.cons_ne_nil _ _
  rw [hline, scanFingerprint_parts hdate (not_colon_stampDate tm) hminutes
    (not_colon_of_isDigit fun _ => isDigit_twoDigits hmin), hscan]

theorem scanFingerprint_unknown {name : Bytes} (hne : name ≠ []) (hname : (58 : UInt8) ∉ name)
    (fp : UInt64) :
    scanFingerprint (fingerprintLine (isoTimestamp none) name fp) = some fp := by
  have hline : fingerprintLine (isoTimestamp none) name fp =
      ascii "biz_semantic_index:v1:" ++ (ascii "unknown" ++ ascii ":" ++ (name ++
        ascii ":" ++ (decimal fp.toNat ++ 10 :: []))) := by
    have hlf : ascii "\n" = [10] := rfl
    simp [fingerprintLine, isoTimestamp, hlf]
  have hscan := scanUnsigned_digits (fun _ => isDigit_of_mem_decimal) (numeral_ne_nil 10 fp.toNat)
    (value_decimal fp.toNat) fp.toNat_lt (c := 10) (by decide) []
  rw [hline, scanFingerprint_parts (by decide) (by decide) hne hname, hscan, UInt64.ofNat_toNat]

theorem oldFingerprint_nameless (fp : UInt64) :
    oldFingerprint (fingerprintLine (isoTimestamp none) [] fp) = 0 := by
  have hscan : scanFingerprint (fingerprintLine (isoTimestamp none) [] fp) = none := by
    have hline : fingerprintLine (isoTimestamp none) [] fp =
        ascii "biz_semantic_index:v1:" ++ (ascii "unknown" ++ ascii ":" ++
          (58 :: (decimal fp.toNat ++ ascii "\n"))) := by
      have hcolon : ascii ":" = [58] := rfl
      simp [fingerprintLine, isoTimestamp, hcolon]
    rw [hline, scanFingerprint, scanLiteral_append]
    simp only [Option.bind_eq_bind, Option.bind_some]
    rw [scanNotColon_append (by decide) (by decide)]
    simp only [Option.bind_some]
    rw [scanLiteral_append]
    rfl
  have hfirst : ∃ rest, cstr (fgets 256 (fingerprintLine (isoTimestamp none) [] fp)) =
      98 :: rest := by
    have hline : ∃ rest, fingerprintLine (isoTimestamp none) [] fp = 98 :: rest := ⟨_, rfl⟩
    obtain ⟨rest, hline⟩ := hline
    rw [hline]
    exact ⟨_, rfl⟩
  obtain ⟨rest, hrest⟩ := hfirst
  rw [oldFingerprint, hscan]
  dsimp only
  rw [hrest]
  rfl

/-- What the stamp and the name must be for the line to be read back. -/
def ReadsBack (ts : Option Tm) (name : Bytes) (fp : UInt64) : Prop :=
  match ts with
  | some tm => fp = UInt64.ofNat tm.sec
  | none => name ≠ [] ∨ fp = 0

theorem oldFingerprint_line_iff (ts : Option Tm) {name : Bytes} (hname : (58 : UInt8) ∉ name)
    (fp : UInt64) :
    fp = oldFingerprint (fingerprintLine (isoTimestamp ts) name fp) ↔ ReadsBack ts name fp := by
  cases ts with
  | some tm =>
      rw [oldFingerprint, scanFingerprint_stamp]
      rfl
  | none =>
      by_cases hne : name = []
      · rw [hne, oldFingerprint_nameless]
        simp [ReadsBack]
      · rw [oldFingerprint, scanFingerprint_unknown hne hname]
        simp [ReadsBack, hne]

def diskBefore (env : IndexEnv) (hasChain : Bool) (config : AgentIndexConfig) (texts : IndexTexts)
    (ts : Option Tm) (d : Disk Bytes Bytes) : Disk Bytes Bytes :=
  (writeFiles env config (indexFiles config hasChain texts (isoTimestamp ts)) d).2

def AlreadyHeld (config : AgentIndexConfig) (fp : UInt64) (d : Disk Bytes Bytes) : Prop :=
  ∃ content, d (config.path "biz_index_fingerprint.txt") = some content ∧
    fp = oldFingerprint content

/-- **When the index is up to date** behind an export that succeeds: the line is
read back, or could not be written and was there before. -/
theorem needsRebuild_export_iff (env : IndexEnv) {reg reg' : List SchemaEntry}
    (hsame : SameShape reg reg') (hasChain : Bool) {config : AgentIndexConfig}
    (hindex : config.includeBizIndex = true) (hname : (58 : UInt8) ∉ config.name)
    (texts : IndexTexts) (ts : Option Tm) (d : Disk Bytes Bytes)
    (hrc : (agentIndexExport env reg hasChain config texts ts d).1 = 0) :
    agentIndexNeedsRebuild reg' config (agentIndexExport env reg hasChain config texts ts d).2 =
        0 ↔
      if env.opens (config.path "biz_index_fingerprint.txt") then
        ReadsBack ts config.name (fingerprint reg)
      else AlreadyHeld config (fingerprint reg) (diskBefore env hasChain config texts ts d) := by
  have hfiles : (writeFiles env config (indexFiles config hasChain texts (isoTimestamp ts)) d).1 =
      0 := by
    by_contra hfailed
    rw [agentIndexExport] at hrc
    dsimp only at hrc
    rw [if_pos hfailed] at hrc
    exact hfailed hrc
  rw [agentIndexExport]
  dsimp only
  rw [if_neg (not_not.mpr hfiles), if_pos hindex, agentIndexNeedsRebuild, hsame.fingerprint_eq]
  by_cases hopens : env.opens (config.path "biz_index_fingerprint.txt") = true
  · rw [if_pos hopens, if_pos hopens, ← oldFingerprint_line_iff ts hname]
    dsimp only
    rw [Disk.write_same]
    simp
  · rw [if_neg hopens, if_neg hopens]
    dsimp only [AlreadyHeld, diskBefore]
    generalize (writeFiles env config (indexFiles config hasChain texts (isoTimestamp ts)) d).2
      (config.path "biz_index_fingerprint.txt") = file
    cases file with
    | none => simp
    | some content => simp

def sampleConfig : AgentIndexConfig := ⟨ascii "out", some (ascii "biz"), false, true, none⟩

def sampleTexts : IndexTexts := ⟨[], [], [], [], [], []⟩

def sampleTime : Tm where
  year := 2024
  month := 1
  day := 1
  hour := 0
  min := 0
  sec := 30
  month_lt := by decide
  day_lt := by decide
  hour_le := by decide
  min_le := by decide
  sec_le := by decide

/-- An empty registry, exported at half past the minute, is exported again. -/
theorem rebuilt_at_once :
    (agentIndexExport ⟨fun _ => true⟩ [] false sampleConfig sampleTexts (some sampleTime)
        fun _ => none).1 = 0 ∧
      agentIndexNeedsRebuild [] sampleConfig (agentIndexExport ⟨fun _ => true⟩ [] false
        sampleConfig sampleTexts (some sampleTime) fun _ => none).2 = 1 := by
  refine ⟨rfl, ?_⟩
  have hrun : (agentIndexExport ⟨fun _ => true⟩ [] false sampleConfig sampleTexts
      (some sampleTime) fun _ => none).2 =
        (diskBefore ⟨fun _ => true⟩ false sampleConfig sampleTexts (some sampleTime)
          fun _ => none).write (sampleConfig.path "biz_index_fingerprint.txt")
            (fingerprintLine (isoTimestamp (some sampleTime)) (ascii "biz") 5381) := rfl
  rw [agentIndexNeedsRebuild, hrun, Disk.write_same]
  dsimp only
  rw [oldFingerprint, scanFingerprint_stamp]
  rfl

theorem needsRebuild_export_iff_unknown :
    agentIndexNeedsRebuild [] sampleConfig (agentIndexExport ⟨fun _ => true⟩ [] false
      sampleConfig sampleTexts none fun _ => none).2 = 0 :=
  (needsRebuild_export_iff ⟨fun _ => true⟩ rfl false rfl (by decide) sampleTexts none
    (fun _ => none) rfl).mpr (Or.inl (by decide))

end BlessStar.Sdk
