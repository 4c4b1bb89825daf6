import Mathlib.Tactic.IntervalCases
import BlessStar.Lib.ByteString
import BlessStar.Lib.FileSystem
import BlessStar.Lib.Transition

/-!
# The audit log of memory configurations

`MemAuditLog` of `mem_audit_log.cpp`: `Record`, and the manifest that is written
and scanned again.  The disk is the audit directory; no operation on it fails.
-/

namespace BlessStar.Sdk

open Lib.ByteString Lib.FileSystem Lib.Transition

structure AuditKey where
  bytes : Bytes
  noNul : (0 : UInt8) ∉ bytes
  noSlash : (47 : UInt8) ∉ bytes
  short : bytes.length + 16 ≤ 255

/-- A time that `strftime` prints. -/
structure AuditStamp where
  text : Bytes
  chars : ∀ c ∈ text, c ∈ ascii "0123456789-:T"

structure KeyState where
  currentSeq : UInt32 := 0
  snapshotCount : UInt32 := 0
  deriving DecidableEq

structure KeyEntry where
  key : Bytes
  state : KeyState := {}
  deriving DecidableEq

def maxSnapshotsPerKey : UInt32 := 5

def auditManifestName : Bytes := ascii "manifest.json"

/-- `"%s.v%u.bin"` in a buffer of 1024 bytes. -/
def snapshotName (key : Bytes) (seq : UInt32) : Bytes :=
  (key ++ ascii ".v" ++ decimal seq.toNat ++ ascii ".bin").take 1023

/-- What is written about a key; `time` is called for every one. -/
def auditEntryText (stamp : AuditStamp) (e : KeyEntry) : Bytes :=
  ascii "    \"" ++ e.key ++ ascii "\": \x7b\n" ++
    (ascii "      \"current_seq\": " ++ decimal e.state.currentSeq.toNat ++
      ascii ",\n      \"last_submit_time\": \"" ++ stamp.text ++
      ascii "\",\n      \"snapshot_count\": " ++ decimal e.state.snapshotCount.toNat ++
      ascii "\n    ") ++ ascii "\x7d"

def auditEntriesText (stamp : Nat → AuditStamp) : List KeyEntry → Bytes
  | [] => []
  | e :: es =>
      auditEntryText (stamp es.length) e ++ (if es.isEmpty then [] else ascii ",") ++
        ascii "\n" ++ auditEntriesText stamp es

/-- `SaveManifest`. -/
def auditManifestText (stamp : Nat → AuditStamp) (keys : List KeyEntry) : Bytes :=
  ascii "\x7b\n  \"version\": 1,\n  \"max_snapshots_per_key\": " ++
    decimal maxSnapshotsPerKey.toNat ++ ascii ",\n  \"keys\": \x7b\n" ++
    auditEntriesText stamp keys ++ ascii "  \x7d\n" ++ ascii "\x7d\n"

def auditField (name : String) (valJson : Bytes) : UInt32 :=
  match fromFirst (ascii name) valJson with
  | none => 0
  | some s =>
      match s.dropWhile (· ≠ 58) with
      | [] => 0
      | _ :: number => (strtoull 10 number).toUInt32

def scanAuditKeys : Nat → Bytes → List KeyEntry
  | 0, _ => []
  | fuel + 1, keysBody =>
      match keysBody.dropWhile (· ≠ 34) with
      | [] => []
      | _ :: s =>
          match s.dropWhile (· ≠ 34) with
          | [] => []
          | quote =>
              match quote.dropWhile (· ≠ 123) with
              | [] => []
              | _ :: val =>
                  match val.dropWhile (· ≠ 125) with
                  | [] => []
                  | _ :: next =>
                      let valJson := val.takeWhile (· ≠ 125)
                      { key := s.takeWhile (· ≠ 34)
                        state := { currentSeq := auditField "current_seq" valJson
                                   snapshotCount := auditField "snapshot_count" valJson } } ::
                        scanAuditKeys fuel next

def beforeLastBrace (s : Bytes) : Option Bytes :=
  match s.reverse.dropWhile (· ≠ 125) with
  | [] => none
  | _ :: front => some front.reverse

/-- The keys that `LoadManifest` finds. -/
def scanAuditManifest (content : Bytes) : List KeyEntry :=
  match fromFirst (ascii "\"keys\"") content with
  | none => []
  | some s =>
      match s.dropWhile (· ≠ 123) with
      | [] => []
      | _ :: s =>
          match beforeLastBrace s with
          | none => []
          | some keysBody => scanAuditKeys (keysBody.length + 1) keysBody

/-- `LoadManifest` of a new log. -/
def loadAuditManifest (disk : Disk Bytes Bytes) : List KeyEntry :=
  ((disk auditManifestName).map scanAuditManifest).getD []

def auditStateOf (keys : List KeyEntry) (key : Bytes) : KeyState :=
  ((keys.find? fun e => e.key = key).map (·.state)).getD {}

def setAuditState (key : Bytes) (st : KeyState) : List KeyEntry → List KeyEntry
  | [] => [{ key, state := st }]
  | e :: es => if e.key = key then { e with state := st } :: es else e :: setAuditState key st es

structure AuditRecord where
  key : Bytes
  seq : UInt32
  data : Bytes
  deriving DecidableEq

/-- A log with its directory; `history` are the snapshots recorded so far. -/
structure MemAuditLog where
  disk : Disk Bytes Bytes
  keys : List KeyEntry := []
  history : List AuditRecord := []

/-- `Record`; nothing is recorded without data. -/
def auditRecord (log : MemAuditLog) (key : AuditKey) (data : Bytes) (stamp : Nat → AuditStamp) :
    MemAuditLog :=
  if data = [] then log
  else
    let old := auditStateOf log.keys key.bytes
    let seq := old.currentSeq + 1
    let count := old.snapshotCount + 1
    let disk := log.disk.write (snapshotName key.bytes seq) data
    let oldestSeq := seq - count + 1
    let evict := maxSnapshotsPerKey < count
    let disk := if evict then disk.remove (snapshotName key.bytes oldestSeq) else disk
    let count := if evict then count - 1 else count
    let keys := setAuditState key.bytes ⟨seq, count⟩ log.keys
    { disk := disk.write auditManifestName (auditManifestText stamp keys)
      keys
      history := log.history ++ [⟨key.bytes, seq, data⟩] }

def auditRestart (log : MemAuditLog) : MemAuditLog :=
  { log with keys := loadAuditManifest log.disk }

inductive AuditAction
  | record (key : AuditKey) (data : Bytes) (stamp : Nat → AuditStamp)
  | restart

def auditMachine : Machine MemAuditLog AuditAction where
  init := { disk := fun _ => none }
  step log
    | .record key data stamp => some (auditRecord log key data stamp)
    | .restart => some (auditRestart log)

namespace MemAuditLog

def versions (log : MemAuditLog) (key : Bytes) : List AuditRecord :=
  log.history.filter fun r => r.key = key

def lastVersions (log : MemAuditLog) (key : Bytes) : List AuditRecord :=
  (log.versions key).drop ((log.versions key).length - maxSnapshotsPerKey.toNat)

/-- The files of the directory are the manifest and the last snapshots of every key with their
bytes, no sequence number is used twice, and a reload finds all keys as they are. -/
structure Retains (log : MemAuditLog) : Prop where
  files : ∀ name, name ≠ auditManifestName → ∀ data,
    log.disk name = some data ↔
      ∃ r ∈ log.lastVersions r.key, snapshotName r.key r.seq = name ∧ r.data = data
  seqs : (log.history.map fun r => (r.key, r.seq)).Nodup
  reload : loadAuditManifest log.disk = log.keys

end MemAuditLog

/-- The key has no quote, and has not been recorded for each sequence number. -/
def AuditKeyReadable (log : MemAuditLog) : AuditAction → Prop
  | .record key _ _ => (34 : UInt8) ∉ key.bytes ∧ (log.versions key.bytes).length < 2 ^ 32
  | .restart => True

theorem strtoull_uint32 (n : UInt32) {c : UInt8} (hc : digitValue 10 c = none) (rest : Bytes) :
    (strtoull 10 (32 :: (decimal n.toNat ++ c :: rest))).toUInt32 = n := by
  have hread := strtoull_decimal n.toUInt64 hc rest
  rw [UInt32.toNat_toUInt64] at hread
  rw [hread, UInt32.toUInt32_toUInt64]

theorem not_mem_decimal {n : Nat} {c : UInt8} (hc : c.toNat < 48 ∨ 57 < c.toNat) :
    c ∉ decimal n := by
  intro hmem
  have hdigit : IsDigit 10 c := isDigit_of_mem_numeral (by decide) hmem
  have hrange := hdigit.decimal_range
  omega

theorem not_mem_stamp (stamp : AuditStamp) {c : UInt8} (hc : c ∉ ascii "0123456789-:T") :
    c ∉ stamp.text := fun hmem => hc (stamp.chars c hmem)

def auditValueText (stamp : AuditStamp) (st : KeyState) : Bytes :=
  ascii "\n      \"current_seq\": " ++ decimal st.currentSeq.toNat ++
    ascii ",\n      \"last_submit_time\": \"" ++ stamp.text ++
    ascii "\",\n      \"snapshot_count\": " ++ decimal st.snapshotCount.toNat ++ ascii "\n    "

theorem auditField_currentSeq (stamp : AuditStamp) (st : KeyState) :
    auditField "current_seq" (auditValueText stamp st) = st.currentSeq := by
  have hfirst : ∀ t, fromFirst (ascii "current_seq") (ascii "\n      \"current_seq\": " ++ t) =
      some (ascii "current_seq\": " ++ t) := fun t => rfl
  have hcolon : ∀ t, (ascii "current_seq\": " ++ t).dropWhile (· ≠ 58) = 58 :: 32 :: t :=
    fun t => @dropWhile_ne_append 58 (ascii "current_seq\"") (by decide) (32 :: t)
  rw [auditField, auditValueText]
  simp only [List.append_assoc, hfirst, hcolon]
  exact strtoull_uint32 st.currentSeq (by decide) _

theorem auditField_snapshotCount (stamp : AuditStamp) (st : KeyState) :
    auditField "snapshot_count" (auditValueText stamp st) = st.snapshotCount := by
  have hpattern : ascii "snapshot_count" = 115 :: ascii "napshot_count" := rfl
  have hseq : ∀ t, fromFirst (ascii "snapshot_count") (ascii "\n      \"current_seq\": " ++ t) =
      fromFirst (ascii "snapshot_count") t := fun t => rfl
  have htime : ∀ t, fromFirst (ascii "snapshot_count")
      (ascii ",\n      \"last_submit_time\": \"" ++ t) =
        fromFirst (ascii "snapshot_count") t := fun t => rfl
  have hcount : ∀ t, fromFirst (ascii "snapshot_count")
      (ascii "\",\n      \"snapshot_count\": " ++ t) =
        some (ascii "snapshot_count\": " ++ t) := fun t => rfl
  have hcolon : ∀ t, (ascii "snapshot_count\": " ++ t).dropWhile (· ≠ 58) = 58 :: 32 :: t :=
    fun t => @dropWhile_ne_append 58 (ascii "snapshot_count\"") (by decide) (32 :: t)
  have hdigits : (115 : UInt8) ∉ decimal st.currentSeq.toNat := not_mem_decimal (by decide)
  have hstamp : (115 : UInt8) ∉ stamp.text := not_mem_stamp stamp (by decide)
  have hskip : ∀ a t, (115 : UInt8) ∉ a → fromFirst (ascii "snapshot_count") (a ++ t) =
      fromFirst (ascii "snapshot_count") t := fun a t ha => by
    rw [hpattern, fromFirst_append ha]
  rw [auditField, auditValueText]
  simp only [List.append_assoc, hseq, hskip _ _ hdigits, htime, hskip _ _ hstamp, hcount, hcolon]
  exact strtoull_uint32 st.snapshotCount (by decide) _

/-- **One turn of the scan** takes a key whose text has no quote. -/
theorem scanAuditKeys_entry {pre : Bytes} (hpre : (34 : UInt8) ∉ pre) {e : KeyEntry}
    (hkey : (34 : UInt8) ∉ e.key) (stamp : AuditStamp) (fuel : Nat) (next : Bytes) :
    scanAuditKeys (fuel + 1) (pre ++ auditEntryText stamp e ++ next) =
      e :: scanAuditKeys fuel next := by
  have hshape : pre ++ auditEntryText stamp e ++ next =
      (pre ++ ascii "    ") ++ 34 :: (e.key ++ 34 :: (ascii ": " ++ 123 ::
        (auditValueText stamp e.state ++ 125 :: next))) := by
    have hopen : ascii "    \"" = ascii "    " ++ [34] := by decide
    have hvalue : ascii "\": \x7b\n" = 34 :: (ascii ": " ++ [123]) ++ ascii "\n" := by decide
    have hseq : ascii "\n      \"current_seq\": " =
        ascii "\n" ++ ascii "      \"current_seq\": " := by
      decide
    have hclose : ascii "\x7d" = [125] := by decide
    rw [auditEntryText, auditValueText, hopen, hvalue, hseq, hclose]
    simp
  have hblank : (34 : UInt8) ∉ pre ++ ascii "    " := by
    rw [List.mem_append, not_or]
    exact ⟨hpre, by decide⟩
  have hcolon : ∀ t, (34 :: (ascii ": " ++ 123 :: t)).dropWhile (· ≠ 123) = 123 :: t :=
    fun t => @dropWhile_ne_append 123 (34 :: ascii ": ") (by decide) t
  have hbrace : (125 : UInt8) ∉ auditValueText stamp e.state := by
    simp only [auditValueText, List.mem_append, not_or]
    exact ⟨⟨⟨⟨⟨⟨by decide, not_mem_decimal (by decide)⟩, by decide⟩,
      not_mem_stamp stamp (by decide)⟩, by decide⟩, not_mem_decimal (by decide)⟩, by decide⟩
  rw [hshape, scanAuditKeys, dropWhile_ne_append hblank]
  simp only [dropWhile_ne_append hkey, takeWhile_ne_append hkey, hcolon,
    dropWhile_ne_append hbrace, takeWhile_ne_append hbrace, auditField_currentSeq,
    auditField_snapshotCount]

theorem scanAuditKeys_entries (stamp : Nat → AuditStamp) {keys : List KeyEntry}
    (hkeys : ∀ e ∈ keys, (34 : UInt8) ∉ e.key) {pre : Bytes} (hpre : (34 : UInt8) ∉ pre)
    {tail : Bytes} (htail : (34 : UInt8) ∉ tail) {fuel : Nat} (hfuel : keys.length < fuel) :
    scanAuditKeys fuel (pre ++ auditEntriesText stamp keys ++ tail) = keys := by
  induction keys generalizing pre fuel with
  | nil =>
      obtain ⟨fuel, rfl⟩ := Nat.exists_eq_succ_of_ne_zero (by omega : fuel ≠ 0)
      have hnone : (pre ++ auditEntriesText stamp [] ++ tail).dropWhile (· ≠ 34) = [] := by
        rw [List.dropWhile_eq_nil_iff]
        intro c hc
        have hne : c ≠ 34 := by
          rintro rfl
          simp [auditEntriesText, hpre, htail] at hc
        simpa using hne
      rw [scanAuditKeys, hnone]
  | cons e es ih =>
      obtain ⟨hkey, hrest⟩ := List.forall_mem_cons.mp hkeys
      obtain ⟨fuel, rfl⟩ := Nat.exists_eq_succ_of_ne_zero (by omega : fuel ≠ 0)
      have hcomma : (34 : UInt8) ∉ (if es.isEmpty then [] else ascii ",") ++ ascii "\n" := by
        split <;> decide
      have hshape : pre ++ auditEntriesText stamp (e :: es) ++ tail =
          pre ++ auditEntryText (stamp es.length) e ++
            ((if es.isEmpty then [] else ascii ",") ++ ascii "\n" ++
              auditEntriesText stamp es ++ tail) := by
        rw [auditEntriesText]
        simp
      rw [hshape, scanAuditKeys_entry hpre hkey, ih hrest hcomma (by simp at hfuel; omega)]

theorem beforeLastBrace_append (a : Bytes) {b : Bytes} (hb : (125 : UInt8) ∉ b) :
    beforeLastBrace (a ++ 125 :: b) = some a := by
  have hreverse : (a ++ 125 :: b).reverse = b.reverse ++ 125 :: a.reverse := by simp
  have hb' : (125 : UInt8) ∉ b.reverse := fun h => hb (List.mem_reverse.mp h)
  rw [beforeLastBrace, hreverse, dropWhile_ne_append hb']
  simp

theorem length_auditEntriesText (stamp : Nat → AuditStamp) (keys : List KeyEntry) :
    keys.length ≤ (auditEntriesText stamp keys).length := by
  induction keys with
  | nil => exact Nat.zero_le _
  | cons e es ih =>
      have hline : (ascii "\n").length = 1 := rfl
      simp only [auditEntriesText, List.length_append, List.length_cons, hline]
      omega

/-- **The manifest is read as it was written**, when no key has a quote. -/
theorem scanAuditManifest_text (stamp : Nat → AuditStamp) {keys : List KeyEntry}
    (hkeys : ∀ e ∈ keys, (34 : UInt8) ∉ e.key) :
    scanAuditManifest (auditManifestText stamp keys) = keys := by
  have hpattern : ascii "\"keys\"" = 34 :: ascii "keys\"" := rfl
  have hhead : ∀ t, fromFirst (ascii "\"keys\"")
      (ascii "\x7b\n  \"version\": 1,\n  \"max_snapshots_per_key\": " ++ t) =
        fromFirst (ascii "\"keys\"") t := fun t => rfl
  have hdigits : (34 : UInt8) ∉ decimal maxSnapshotsPerKey.toNat := not_mem_decimal (by decide)
  have hlimit : ∀ t, fromFirst (ascii "\"keys\"") (decimal maxSnapshotsPerKey.toNat ++ t) =
      fromFirst (ascii "\"keys\"") t := fun t => by
    rw [hpattern, fromFirst_append hdigits]
  have hfound : ∀ t, fromFirst (ascii "\"keys\"") (ascii ",\n  \"keys\": \x7b\n" ++ t) =
      some (ascii "\"keys\": " ++ 123 :: (ascii "\n" ++ t)) := fun t => rfl
  have hopen : ∀ t, (ascii "\"keys\": " ++ 123 :: t).dropWhile (· ≠ 123) = 123 :: t :=
    fun t => dropWhile_ne_append (by decide : (123 : UInt8) ∉ ascii "\"keys\": ") t
  have hclose : ascii "\x7d\n" = 125 :: ascii "\n" := rfl
  have hbody : ∀ t, beforeLastBrace (ascii "\n" ++ (t ++ (ascii "  \x7d\n" ++ ascii "\x7d\n"))) =
      some (ascii "\n" ++ t ++ ascii "  \x7d\n") := fun t => by
    rw [hclose, ← List.append_assoc, ← List.append_assoc]
    exact beforeLastBrace_append _ (by decide)
  rw [scanAuditManifest, auditManifestText]
  simp only [List.append_assoc, hhead, hlimit, hfound, hopen, hbody]
  have hlength := length_auditEntriesText stamp keys
  have hfuel : keys.length <
      (ascii "\n" ++ auditEntriesText stamp keys ++ ascii "  \x7d\n").length + 1 := by
    simp only [List.length_append]
    omega
  have hscan := scanAuditKeys_entries stamp hkeys (by decide : (34 : UInt8) ∉ ascii "\n")
    (by decide : (34 : UInt8) ∉ ascii "  \x7d\n") hfuel
  simpa only [List.append_assoc] using hscan

theorem length_decimal_uint32 (n : UInt32) : (decimal n.toNat).length ≤ 10 := by
  have hlt := n.toNat_lt
  unfold decimal numeral
  split
  · decide
  · rw [List.length_map, List.length_reverse, Nat.digits_length_le_iff (by omega)]
    omega

theorem snapshotName_eq (key : AuditKey) (seq : UInt32) :
    snapshotName key.bytes seq =
      key.bytes ++ ascii ".v" ++ decimal seq.toNat ++ ascii ".bin" := by
  have hshort := key.short
  have hdecimal := length_decimal_uint32 seq
  have hparts : (ascii ".v").length = 2 ∧ (ascii ".bin").length = 4 := ⟨rfl, rfl⟩
  rw [snapshotName, List.take_of_length_le]
  simp only [List.length_append, hparts]
  omega

theorem snapshotName_inj {key key' : AuditKey} {seq seq' : UInt32}
    (h : snapshotName key.bytes seq = snapshotName key'.bytes seq') :
    key.bytes = key'.bytes ∧ seq = seq' := by
  rw [snapshotName_eq, snapshotName_eq, List.append_cancel_right_eq] at h
  have hreverse : ∀ (k : Bytes) (n : Nat), (k ++ ascii ".v" ++ decimal n).reverse =
      (decimal n).reverse ++ 118 :: (46 :: k.reverse) := by
    intro k n
    have hv : (ascii ".v").reverse = [118, 46] := rfl
    simp [hv]
  have hv : ∀ n, (118 : UInt8) ∉ (decimal n).reverse := fun n hmem =>
    not_mem_decimal (by decide) (List.mem_reverse.mp hmem)
  have hdigits := congrArg (fun s : Bytes => s.reverse.takeWhile (· ≠ 118)) h
  simp only [hreverse, takeWhile_ne_append (hv _)] at hdigits
  have hseq : seq.toNat = seq'.toNat := decimal_inj (List.reverse_injective hdigits)
  rw [hseq, List.append_cancel_right_eq, List.append_cancel_right_eq] at h
  exact ⟨h, UInt32.toNat_inj.mp hseq⟩

theorem auditStateOf_set (keys : List KeyEntry) (key : Bytes) (st : KeyState) (key' : Bytes) :
    auditStateOf (setAuditState key st keys) key' =
      if key' = key then st else auditStateOf keys key' := by
  induction keys with
  | nil =>
      by_cases h : key' = key
      · simp [setAuditState, auditStateOf, h]
      · have hne : key ≠ key' := fun heq => h heq.symm
        simp [setAuditState, auditStateOf, h, hne]
  | cons e es ih =>
      by_cases he : e.key = key
      · by_cases h : key' = key
        · simp [setAuditState, auditStateOf, he, h]
        · have hne : key ≠ key' := fun heq => h heq.symm
          simp [setAuditState, auditStateOf, he, h, hne]
      · by_cases h' : e.key = key'
        · have hne : key' ≠ key := fun heq => he (h'.trans heq)
          simp [setAuditState, auditStateOf, h', hne]
        · have hset : auditStateOf (setAuditState key st (e :: es)) key' =
              auditStateOf (setAuditState key st es) key' := by
            simp [setAuditState, auditStateOf, he, h']
          have hold : auditStateOf (e :: es) key' = auditStateOf es key' := by
            simp [auditStateOf, h']
          rw [hset, hold, ih]

theorem mem_setAuditState {keys : List KeyEntry} {key : Bytes} {st : KeyState} {e : KeyEntry}
    (h : e ∈ setAuditState key st keys) : e.key = key ∨ ∃ e' ∈ keys, e'.key = e.key := by
  induction keys with
  | nil => exact .inl (by rw [List.mem_singleton.mp h])
  | cons a as ih =>
      by_cases ha : a.key = key
      · rw [setAuditState, if_pos ha] at h
        rcases List.mem_cons.mp h with rfl | h
        · exact .inl ha
        · exact .inr ⟨e, List.mem_cons_of_mem a h, rfl⟩
      · rw [setAuditState, if_neg ha] at h
        rcases List.mem_cons.mp h with rfl | h
        · exact .inr ⟨e, List.mem_cons_self, rfl⟩
        · rcases ih h with hkey | ⟨e', he', hkey⟩
          · exact .inl hkey
          · exact .inr ⟨e', List.mem_cons_of_mem a he', hkey⟩

theorem ofNat_ne {a b : Nat} (ha : 0 < a) (hab : a < b) (hb : b ≤ 2 ^ 32) :
    UInt32.ofNat a ≠ UInt32.ofNat b := by
  intro h
  have hmod := congrArg UInt32.toNat h
  rw [UInt32.toNat_ofNat', UInt32.toNat_ofNat'] at hmod
  omega

/-- What the two counters of a key say behind `n` snapshots. -/
def countersAfter (n : Nat) : KeyState := ⟨UInt32.ofNat n, UInt32.ofNat (min n 5)⟩

theorem countersAfter_next (n : Nat) :
    (countersAfter n).currentSeq + 1 = UInt32.ofNat (n + 1) ∧
      (maxSnapshotsPerKey < (countersAfter n).snapshotCount + 1 ↔ 5 ≤ n) ∧
      (5 ≤ n → (countersAfter n).currentSeq + 1 - ((countersAfter n).snapshotCount + 1) + 1 =
        UInt32.ofNat (n - 4)) ∧
      (if maxSnapshotsPerKey < (countersAfter n).snapshotCount + 1
        then (countersAfter n).snapshotCount + 1 - 1
        else (countersAfter n).snapshotCount + 1) = UInt32.ofNat (min (n + 1) 5) := by
  have hnext : UInt32.ofNat (n + 1) = UInt32.ofNat n + 1 := UInt32.ofNat_add n 1
  by_cases hfull : 5 ≤ n
  · obtain ⟨k, rfl⟩ := Nat.exists_eq_add_of_le hfull
    have hcount : (countersAfter (5 + k)).snapshotCount = 5 := by
      rw [countersAfter, Nat.min_eq_right hfull]
      rfl
    have hlast : min (5 + k + 1) 5 = 5 := by omega
    rw [hcount, hlast]
    refine ⟨hnext.symm, iff_of_true (by decide) hfull, fun _ => ?_, by decide⟩
    have hold : 5 + k - 4 = k + 1 := by omega
    have hseq : (countersAfter (5 + k)).currentSeq = UInt32.ofNat k + 5 := by
      rw [countersAfter, Nat.add_comm 5 k, UInt32.ofNat_add]
      rfl
    rw [hold, hseq, UInt32.add_assoc _ 5 1, UInt32.add_sub_cancel, UInt32.ofNat_add]
    rfl
  · have hn : n < 5 := by omega
    refine ⟨hnext.symm, ?_, fun h => absurd h hfull, ?_⟩
    · interval_cases n <;> decide
    · interval_cases n <;> decide

namespace MemAuditLog

structure Keeping (log : MemAuditLog) : Prop extends Retains log where
  states : ∀ key, auditStateOf log.keys key = countersAfter (log.versions key).length
  readable : ∀ e ∈ log.keys, (34 : UInt8) ∉ e.key
  names : ∀ r ∈ log.history, ∃ key : AuditKey, key.bytes = r.key
  numbered : ∀ key i r, (log.versions key)[i]? = some r → r.seq = UInt32.ofNat (i + 1)
  few : ∀ key, (log.versions key).length ≤ 2 ^ 32

theorem mem_versions {log : MemAuditLog} {r : AuditRecord} :
    r ∈ log.history ↔ r ∈ log.versions r.key := by
  simp [versions]

theorem versions_append (log : MemAuditLog) (r : AuditRecord) (disk : Disk Bytes Bytes)
    (keys : List KeyEntry) (key : Bytes) :
    MemAuditLog.versions ⟨disk, keys, log.history ++ [r]⟩ key =
      if r.key = key then log.versions key ++ [r] else log.versions key := by
  rw [versions, List.filter_append, versions]
  split
  · rw [List.filter_cons_of_pos (by simpa), List.filter_nil]
  · rw [List.filter_cons_of_neg (by simpa), List.filter_nil, List.append_nil]

theorem Keeping.seq_ne {log : MemAuditLog} (h : log.Keeping) {r : AuditRecord}
    (hr : r ∈ log.history) (hfew : (log.versions r.key).length < 2 ^ 32) :
    r.seq ≠ UInt32.ofNat ((log.versions r.key).length + 1) := by
  obtain ⟨i, hi⟩ := List.mem_iff_getElem?.mp (mem_versions.mp hr)
  have hlt := (List.getElem?_eq_some_iff.mp hi).1
  rw [h.numbered r.key i r hi]
  exact ofNat_ne (by omega) (by omega) (by omega)

theorem Keeping.mem_lastVersions {log : MemAuditLog} (h : log.Keeping) {new : AuditRecord}
    (hfew : (log.versions new.key).length < 2 ^ 32) (disk : Disk Bytes Bytes)
    (keys : List KeyEntry) (r : AuditRecord) :
    r ∈ MemAuditLog.lastVersions ⟨disk, keys, log.history ++ [new]⟩ r.key ↔
      r = new ∨ (r ∈ log.lastVersions r.key ∧
        ¬(5 ≤ (log.versions new.key).length ∧ r.key = new.key ∧
          r.seq = UInt32.ofNat ((log.versions new.key).length - 4))) := by
  have hfive : maxSnapshotsPerKey.toNat = 5 := rfl
  rw [lastVersions, versions_append, lastVersions, hfive]
  by_cases hkey : new.key = r.key
  · rw [if_pos hkey, ← hkey]
    set vs := log.versions new.key with hvs
    have hlength : (vs ++ [new]).length - 5 = vs.length + 1 - 5 := by simp
    rw [hlength]
    by_cases hfull : 5 ≤ vs.length
    · -- the oldest one of five is the sixth from the last
      have hfirst : vs.length - 5 < vs.length := by omega
      have hcut : vs.drop (vs.length - 5) =
          vs[vs.length - 5] :: vs.drop (vs.length - 4) := by
        have hnext : vs.length - 5 + 1 = vs.length - 4 := by omega
        rw [List.drop_eq_getElem_cons hfirst, hnext]
      have hold : vs[vs.length - 5].seq = UInt32.ofNat (vs.length - 4) := by
        have hnumber := h.numbered new.key (vs.length - 5) vs[vs.length - 5]
          (List.getElem?_eq_getElem hfirst)
        have hnext : vs.length - 5 + 1 = vs.length - 4 := by omega
        rwa [hnext] at hnumber
      have hother : ∀ r' ∈ vs.drop (vs.length - 4),
          r'.seq ≠ UInt32.ofNat (vs.length - 4) := by
        intro r' hr'
        obtain ⟨i, hi⟩ := List.mem_iff_getElem?.mp hr'
        rw [List.getElem?_drop] at hi
        have hlt := (List.getElem?_eq_some_iff.mp hi).1
        rw [h.numbered new.key _ r' hi]
        exact (ofNat_ne (by omega) (by omega) (by omega)).symm
      have hdrop : vs.length + 1 - 5 = vs.length - 4 := by omega
      rw [hdrop, List.drop_append_of_le_length (by omega), hcut]
      rw [List.mem_append, List.mem_singleton, List.mem_cons]
      constructor
      · rintro (hmem | hnew)
        · exact .inr ⟨.inr hmem, fun hevicted => hother r hmem hevicted.2.2⟩
        · exact .inl hnew
      · rintro (hnew | ⟨holdest | hmem, hkept⟩)
        · exact .inr hnew
        · exact absurd ⟨hfull, rfl, holdest ▸ hold⟩ hkept
        · exact .inl hmem
    · have hzero : vs.length + 1 - 5 = 0 := by omega
      have hzero' : vs.length - 5 = 0 := by omega
      rw [hzero, hzero', List.drop_zero, List.drop_zero]
      simp [hfull, or_comm]
  · rw [if_neg hkey]
    have hne : r ≠ new := fun heq => hkey (congrArg AuditRecord.key heq).symm
    have hother : r.key ≠ new.key := fun heq => hkey heq.symm
    simp [hne, hother]

theorem Keeping.auditRecord_eq {log : MemAuditLog} (h : log.Keeping) (key : AuditKey) {data : Bytes}
    (hdata : data ≠ []) (stamp : Nat → AuditStamp) {n : Nat}
    (hn : (log.versions key.bytes).length = n) :
    let keys := setAuditState key.bytes (countersAfter (n + 1)) log.keys
    let disk := log.disk.write (snapshotName key.bytes (UInt32.ofNat (n + 1))) data
    auditRecord log key data stamp =
      { disk := ((if 5 ≤ n then disk.remove (snapshotName key.bytes (UInt32.ofNat (n - 4)))
          else disk).write auditManifestName (auditManifestText stamp keys))
        keys
        history := log.history ++ [⟨key.bytes, UInt32.ofNat (n + 1), data⟩] } := by
  obtain ⟨hseq, hevict, hold, hcount⟩ := countersAfter_next n
  have hstate := h.states key.bytes
  rw [hn] at hstate
  rw [auditRecord, if_neg hdata, hstate]
  dsimp only
  rw [hcount]
  by_cases hfull : 5 ≤ n
  · rw [if_pos (hevict.mpr hfull), if_pos hfull, hold hfull, hseq]
    rfl
  · rw [if_neg (fun hlt => hfull (hevict.mp hlt)), if_neg hfull, hseq]
    rfl

theorem Keeping.files_record {log : MemAuditLog} (h : log.Keeping) {key : AuditKey} {n : Nat}
    (hn : (log.versions key.bytes).length = n) (hfew : n < 2 ^ 32) {data name : Bytes}
    (hname : name ≠ auditManifestName) (data' : Bytes) (disk : Disk Bytes Bytes)
    (keys : List KeyEntry) :
    (if 5 ≤ n then
        (log.disk.write (snapshotName key.bytes (UInt32.ofNat (n + 1))) data).remove
          (snapshotName key.bytes (UInt32.ofNat (n - 4)))
      else log.disk.write (snapshotName key.bytes (UInt32.ofNat (n + 1))) data) name =
        some data' ↔
      ∃ r ∈ MemAuditLog.lastVersions
          ⟨disk, keys, log.history ++ [⟨key.bytes, UInt32.ofNat (n + 1), data⟩]⟩ r.key,
        snapshotName r.key r.seq = name ∧ r.data = data' := by
  set new : AuditRecord := ⟨key.bytes, UInt32.ofNat (n + 1), data⟩ with hnew
  have hlast := fun r => @Keeping.mem_lastVersions log h new (by rw [hn]; exact hfew) disk keys r
  simp only [hlast]
  have hnames : ∀ r ∈ log.history, ∀ seq, snapshotName r.key r.seq = snapshotName key.bytes seq →
      r.key = key.bytes ∧ r.seq = seq := by
    intro r hr seq heq
    obtain ⟨key', hkey'⟩ := h.names r hr
    rw [← hkey'] at heq ⊢
    exact snapshotName_inj heq
  have hold : ∀ r, r ∈ log.lastVersions r.key → r ∈ log.history := fun r hr =>
    mem_versions.mpr (List.mem_of_mem_drop hr)
  have hother : ∀ r ∈ log.history, snapshotName r.key r.seq ≠ snapshotName key.bytes new.seq := by
    intro r hr heq
    obtain ⟨hkey, hseq⟩ := hnames r hr _ heq
    have hne := h.seq_ne hr (by rw [hkey, hn]; exact hfew)
    rw [hkey, hn] at hne
    exact hne hseq
  have hevicted : 5 ≤ n →
      snapshotName key.bytes new.seq ≠ snapshotName key.bytes (UInt32.ofNat (n - 4)) := by
    intro hfull heq
    exact ofNat_ne (by omega) (by omega) (by omega) (snapshotName_inj heq).2.symm
  have hwritten : (if 5 ≤ n then
        (log.disk.write (snapshotName key.bytes new.seq) data).remove
          (snapshotName key.bytes (UInt32.ofNat (n - 4)))
      else log.disk.write (snapshotName key.bytes new.seq) data) name =
      if name = snapshotName key.bytes new.seq then some data
      else if 5 ≤ n ∧ name = snapshotName key.bytes (UInt32.ofNat (n - 4)) then none
      else log.disk name := by
    by_cases hnewName : name = snapshotName key.bytes new.seq
    · rw [if_pos hnewName, hnewName]
      by_cases hfull : 5 ≤ n
      · rw [if_pos hfull, Disk.remove_other (hevicted hfull), Disk.write_same]
      · rw [if_neg hfull, Disk.write_same]
    · rw [if_neg hnewName]
      by_cases hfull : 5 ≤ n
      · by_cases holdName : name = snapshotName key.bytes (UInt32.ofNat (n - 4))
        · rw [if_pos hfull, if_pos ⟨hfull, holdName⟩, holdName, Disk.remove_same]
        · rw [if_pos hfull, if_neg fun hboth => holdName hboth.2, Disk.remove_other holdName,
            Disk.write_other hnewName]
      · rw [if_neg hfull, if_neg fun hboth => hfull hboth.1, Disk.write_other hnewName]
  rw [hwritten]
  constructor
  · intro hdisk
    by_cases hnewName : name = snapshotName key.bytes new.seq
    · rw [if_pos hnewName, Option.some.injEq] at hdisk
      exact ⟨new, .inl rfl, hnewName.symm, hdisk⟩
    · rw [if_neg hnewName] at hdisk
      by_cases holdName : 5 ≤ n ∧ name = snapshotName key.bytes (UInt32.ofNat (n - 4))
      · rw [if_pos holdName] at hdisk
        exact absurd hdisk (Option.some_ne_none _).symm
      · rw [if_neg holdName] at hdisk
        obtain ⟨r, hr, hrname, hrdata⟩ := (h.files name hname data').mp hdisk
        refine ⟨r, .inr ⟨hr, ?_⟩, hrname, hrdata⟩
        rintro ⟨hfull, hkey, hseq⟩
        rw [hn] at hfull hseq
        exact holdName ⟨hfull, by rw [← hrname, hkey, hseq]⟩
  · rintro ⟨r, rfl | ⟨hr, hkept⟩, hrname, hrdata⟩
    · rw [if_pos hrname.symm]
      exact congrArg some hrdata
    · have hmem := hold r hr
      have hnewName : name ≠ snapshotName key.bytes new.seq := hrname ▸ hother r hmem
      have holdName : ¬(5 ≤ n ∧ name = snapshotName key.bytes (UInt32.ofNat (n - 4))) := by
        rintro ⟨hfull, heq⟩
        obtain ⟨hkey, hseq⟩ := hnames r hmem _ (hrname.trans heq)
        exact hkept ⟨by rw [hn]; exact hfull, hkey, by rw [hn]; exact hseq⟩
      rw [if_neg hnewName, if_neg holdName]
      exact (h.files name hname data').mpr ⟨r, hr, hrname, hrdata⟩

/-- **A snapshot is recorded.** -/
theorem Keeping.record {log : MemAuditLog} (h : log.Keeping) {key : AuditKey}
    (hquote : (34 : UInt8) ∉ key.bytes) (hfew : (log.versions key.bytes).length < 2 ^ 32)
    {data : Bytes} (hdata : data ≠ []) (stamp : Nat → AuditStamp) :
    (auditRecord log key data stamp).Keeping := by
  rw [h.auditRecord_eq key hdata stamp rfl]
  set n := (log.versions key.bytes).length with hn
  set new : AuditRecord := ⟨key.bytes, UInt32.ofNat (n + 1), data⟩ with hnew
  have hreadable : ∀ e ∈ setAuditState key.bytes (countersAfter (n + 1)) log.keys,
      (34 : UInt8) ∉ e.key := by
    intro e he
    rcases mem_setAuditState he with hkey | ⟨e', he', hkey⟩
    · rw [hkey]
      exact hquote
    · rw [← hkey]
      exact h.readable e' he'
  have hseq : ∀ r ∈ log.history, r.key = key.bytes → r.seq ≠ UInt32.ofNat (n + 1) := by
    intro r hr hkey
    have hne := h.seq_ne hr (by rw [hkey]; exact hfew)
    rwa [hkey] at hne
  refine { files := ?_, seqs := ?_, reload := ?_, states := ?_, readable := hreadable, names := ?_,
           numbered := ?_, few := ?_ }
  · intro name hname data'
    dsimp only
    rw [Disk.write_other hname]
    exact h.files_record rfl hfew hname data' _ _
  · rw [List.map_append, List.nodup_append]
    refine ⟨h.seqs, List.nodup_singleton _, ?_⟩
    intro a ha b hb heq
    obtain ⟨r, hr, rfl⟩ := List.mem_map.mp ha
    rw [List.map_singleton, List.mem_singleton] at hb
    rw [hb, Prod.mk.injEq] at heq
    exact hseq r hr heq.1 heq.2
  · dsimp only
    rw [loadAuditManifest, Disk.write_same]
    exact scanAuditManifest_text stamp hreadable
  · intro key'
    rw [auditStateOf_set, versions_append]
    by_cases hkey : key' = key.bytes
    · have hlength : (log.versions key.bytes ++ [new]).length = n + 1 := by simp [hn]
      rw [if_pos hkey, hkey, if_pos rfl, hlength]
    · have hne : new.key ≠ key' := fun heq => hkey heq.symm
      rw [if_neg hkey, if_neg hne]
      exact h.states key'
  · intro r hr
    rcases List.mem_append.mp hr with hr | hr
    · exact h.names r hr
    · rw [List.mem_singleton.mp hr]
      exact ⟨key, rfl⟩
  · intro key' i r hi
    rw [versions_append] at hi
    by_cases hkey : new.key = key'
    · rw [if_pos hkey, ← hkey] at hi
      rw [List.getElem?_append] at hi
      split at hi
      · exact h.numbered _ i r hi
      · rename_i hge
        obtain ⟨hzero, hr⟩ := List.getElem?_eq_some_iff.mp hi
        have hlast : i = n := by
          rw [List.length_singleton] at hzero
          have hlength : (log.versions new.key).length = n := rfl
          omega
        rw [List.getElem_singleton] at hr
        rw [← hr, hlast]
    · rw [if_neg hkey] at hi
      exact h.numbered key' i r hi
  · intro key'
    rw [versions_append]
    split
    · rename_i hkey
      rw [← hkey, List.length_append, List.length_singleton]
      exact hfew
    · exact h.few key'

end MemAuditLog

/-- **Every step** on a readable key keeps the log. -/
theorem keeping_step {log log' : MemAuditLog} {a : AuditAction} (h : log.Keeping)
    (hreadable : AuditKeyReadable log a) (hstep : auditMachine.step log a = some log') :
    log'.Keeping := by
  cases a with
  | record key data stamp =>
      obtain rfl : auditRecord log key data stamp = log' := Option.some.inj hstep
      by_cases hdata : data = []
      · rw [auditRecord, if_pos hdata]
        exact h
      · exact h.record hreadable.1 hreadable.2 hdata stamp
  | restart =>
      obtain rfl : auditRestart log = log' := Option.some.inj hstep
      have hsame : auditRestart log = log := by
        rw [auditRestart, h.reload]
      rw [hsame]
      exact h

/-- **Retention.**  As long as keys without quotes are recorded, each at most 2^32 times, the
files are the last snapshots of every key, no sequence number repeats, and a reload finds all
keys as they are. -/
theorem retains_of_reachable {log : MemAuditLog}
    (h : auditMachine.ReachableMeeting AuditKeyReadable log) : log.Retains := by
  have hkeeping : log.Keeping := by
    apply h.invariant
    · exact {
        files := fun name _ data => by simp [auditMachine, MemAuditLog.lastVersions,
          MemAuditLog.versions]
        seqs := List.nodup_nil
        reload := rfl
        states := fun key => rfl
        readable := List.forall_mem_nil _
        names := List.forall_mem_nil _
        numbered := fun key i r hi => by simp [auditMachine, MemAuditLog.versions] at hi
        few := fun key => by simp [auditMachine, MemAuditLog.versions] }
    · exact fun s e s' hs he hstep => keeping_step hs he hstep
  exact hkeeping.toRetains

def auditStamp : Nat → AuditStamp := fun _ =>
  { text := ascii "2026-01-01T00:00:00"
    chars := by decide }

def auditKey (name : String) (h : (0 : UInt8) ∉ ascii name ∧ (47 : UInt8) ∉ ascii name ∧
    (ascii name).length + 16 ≤ 255) : AuditKey := ⟨ascii name, h.1, h.2.1, h.2.2⟩

/-- A snapshot and a restart. -/
theorem retains_one :
    ∃ log, auditMachine.run auditMachine.init
        [.record (auditKey "net" (by decide)) [1, 2] auditStamp, .restart] = some log ∧
      log.Retains := by
  have hrun : auditMachine.run auditMachine.init
      [.record (auditKey "net" (by decide)) [1, 2] auditStamp, .restart] = some _ := rfl
  have hmeets : auditMachine.RunMeets AuditKeyReadable auditMachine.init
      [.record (auditKey "net" (by decide)) [1, 2] auditStamp, .restart] :=
    ⟨⟨by decide, by decide⟩, trivial, trivial⟩
  exact ⟨_, hrun, retains_of_reachable ((Machine.ReachableMeeting.init _ _).run hmeets hrun)⟩

/-- A key with a quote is not found again. -/
theorem quoted_key_not_reloaded :
    ¬∀ log, auditMachine.Reachable log → log.Retains := by
  intro h
  have hretains := h _ (Machine.reachable_of_run
    [.record (auditKey "a\"b" (by decide)) [1] auditStamp] rfl)
  exact absurd hretains.reload (by decide +kernel)

end BlessStar.Sdk
