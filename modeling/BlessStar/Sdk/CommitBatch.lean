import BlessStar.Lib.JsonText
import BlessStar.Sdk.ConfigDeclare
import BlessStar.Sdk.ReloadSession

/-!
# Editor windows

`config_commit_batch_c` of `config_reload_session.cpp`, called by any number of
windows on the version counter of `config_declare.cpp`.  The commit of the
session is a function on the configuration.
-/

namespace BlessStar.Sdk

open Lib.ByteString Lib.Transition

def upToQuote (s : Bytes) : Option (Bytes × Bytes) :=
  match s.dropWhile (· ≠ 34) with
  | [] => none
  | rest => some (s.takeWhile (· ≠ 34), rest)

def parseEntries : Nat → Bytes → List (Bytes × Bytes)
  | 0, _ => []
  | fuel + 1, s =>
      match s.dropWhile (· ≠ 123) with
      | [] => []
      | brace :: s =>
          match fromFirst (ascii "\"key\":\"") (brace :: s) with
          | none => parseEntries fuel s
          | some k =>
              match upToQuote (k.drop 7) with
              | none => []
              | some (key, s) =>
                  match fromFirst (ascii "\"value\":\"") s with
                  | none => parseEntries fuel (s.drop 1)
                  | some v =>
                      -- one byte short of what was searched for
                      match upToQuote (v.drop 8) with
                      | none => []
                      | some (value, s) => (key, value) :: parseEntries fuel (s.drop 1)

def entriesOf (entriesJson : Bytes) : List (Bytes × Bytes) :=
  parseEntries (entriesJson.length + 1) (cstr entriesJson)

/-- `ConfigReloadSession::AddPath` on the pending bytes; nothing is refused but an empty value. -/
def addPath (pending : StringMap Bytes) (key data : Bytes) : Bool × StringMap Bytes :=
  if data = [] then (false, pending) else (true, pending.insert key data)

/-- What the session has pending when `config_commit_batch_c` commits it. -/
def pendingOf (entriesJson : Bytes) : StringMap Bytes :=
  (entriesOf entriesJson).foldl (fun pending e => (addPath pending e.1 e.2).2) ∅

/-- Where a call of `config_commit_batch_c` is. -/
inductive CommitCallAt
  | entered (entriesJson : Bytes)
  | loaded (entriesJson : Bytes) (expected : UInt64)
  | passed (entriesJson : Bytes)

structure EditorWindow (σ : Type) where
  read : Option (UInt64 × σ) := none
  call : Option CommitCallAt := none

inductive WindowMark
  | read (window : Nat)
  | conflict (window : Nat)
  | reported (window : Nat) (based : UInt64) (status : ReportStatus)
  deriving DecidableEq

structure EditorState (σ : Type) where
  declare : ConfigDeclareState := {}
  config : σ
  windows : Nat → EditorWindow σ := fun _ => {}
  log : List WindowMark := []

inductive EditorEvent
  | ensureInit
  | checkVersion (expected : UInt64)
  | read (window : Nat)
  | call (window : Nat) (entriesJson : Bytes)
  | load (window : Nat)
  | exchange (window : Nat)
  | finish (window : Nat)

namespace EditorState

variable {σ : Type}

def setWindow (s : EditorState σ) (window : Nat) (w : EditorWindow σ) : EditorState σ :=
  { s with windows := Function.update s.windows window w }

def mark (s : EditorState σ) (m : WindowMark) : EditorState σ := { s with log := s.log ++ [m] }

def step (commit : List (Bytes × Bytes) → σ → ReportStatus × σ) (s : EditorState σ) :
    EditorEvent → Option (EditorState σ)
  | .ensureInit => some { s with declare := s.declare.ensureInit }
  | .checkVersion expected =>
      -- another caller of the function
      some { s with declare := (s.declare.commitCheckVersion expected).2 }
  | .read window =>
      match (s.windows window).call with
      | some _ => none
      | none =>
          some ((s.setWindow window
            { read := some (s.declare.getVersion, s.config) }).mark (.read window))
  | .call window entriesJson =>
      match s.windows window with
      | ⟨some read, none⟩ => some (s.setWindow window ⟨some read, some (.entered entriesJson)⟩)
      | _ => none
  | .load window =>
      match s.windows window with
      | ⟨some read, some (.entered entriesJson)⟩ =>
          some (s.setWindow window ⟨some read, some (.loaded entriesJson s.declare.getVersion)⟩)
      | _ => none
  | .exchange window =>
      match s.windows window with
      | ⟨some read, some (.loaded entriesJson expected)⟩ =>
          let check := s.declare.commitCheckVersion expected
          if check.1 = 0 then
            some ({ s with declare := check.2 }.setWindow window
              ⟨some read, some (.passed entriesJson)⟩)
          else some ((s.setWindow window ⟨some read, none⟩).mark (.conflict window))
      | _ => none
  | .finish window =>
      match s.windows window with
      | ⟨some (based, config), some (.passed entriesJson)⟩ =>
          let s := s.setWindow window ⟨some (based, config), none⟩
          if entriesOf entriesJson = [] then some s
          else
            let report := commit (entriesOf entriesJson) s.config
            some ({ s with config := report.2 }.mark (.reported window based report.1))
      | _ => none

end EditorState

def editorMachine {σ : Type} (commit : List (Bytes × Bytes) → σ → ReportStatus × σ) (config : σ) :
    Machine (EditorState σ) EditorEvent where
  init := { config := config }
  step := EditorState.step commit

def sinceRead (window : Nat) (log : List WindowMark) : List WindowMark :=
  log.reverse.takeWhile (· ≠ .read window)

def UpToDate (window : Nat) (log : List WindowMark) : Prop :=
  ∀ other based, other ≠ window → .reported other based .success ∉ sinceRead window log

def ReportsUpToDate (past : List WindowMark) : WindowMark → Prop
  | .reported window _ _ => UpToDate window past
  | _ => True

def WindowMark.isReportOn (based : UInt64) : WindowMark → Bool
  | .reported _ b _ => b = based
  | _ => false

/-- Without a conflict, one commit at most for a version, and none of a window
that read before another one's commit. -/
structure NoLostUpdate (log : List WindowMark) : Prop where
  once : ∀ based, log.countP (WindowMark.isReportOn based) ≤ 1
  upToDate : Guarded ReportsUpToDate log

/-- A window does not read while a commit is past its check, a call finds the
version that its window read, and the counter has a next version. -/
def SamplesWhatItRead {σ : Type} (s : EditorState σ) : EditorEvent → Prop
  | .read _ => ∀ window entriesJson, (s.windows window).call ≠ some (.passed entriesJson)
  | .load window =>
      ∀ based config, (s.windows window).read = some (based, config) →
        based = s.declare.getVersion
  | .checkVersion _ => s.declare.versionCounter.toNat + 1 < 2 ^ 64
  | .exchange _ => s.declare.versionCounter.toNat + 1 < 2 ^ 64
  | _ => True

section Submitted

open Lib.JsonText

def stringMember (name : Bytes) : Fields → Option Bytes
  | .nil => none
  | .cons key value rest =>
      match value with
      | .string s => if key = name then some s else stringMember name rest
      | _ => stringMember name rest

/-- The pairs of an array of objects that each hold a key and a value. -/
def pairsOf : Trees → Option (List (Bytes × Bytes))
  | .nil => some []
  | .cons (.object members) rest =>
      match stringMember (ascii "key") members, stringMember (ascii "value") members, pairsOf rest with
      | some key, some value, some pairs => some ((key, value) :: pairs)
      | _, _, _ => none
  | .cons _ _ => none

def SubmitsPairs (entriesJson : Bytes) (pairs : List (Bytes × Bytes)) : Prop :=
  pendingOf entriesJson = pairs.foldl (fun pending e => pending.insert e.1 e.2) ∅

theorem upToQuote_drop {v : Bytes} (h : ascii "\"value\":\"" <+: v) :
    ∃ rest, upToQuote (v.drop 8) = some ([], rest) := by
  obtain ⟨rest, rfl⟩ := h
  have hquote : (ascii "\"value\":\"" ++ rest).drop 8 = 34 :: rest := by
    rw [List.drop_append_of_le_length (by decide)]
    rfl
  exact ⟨34 :: rest, by rw [hquote]; rfl⟩

theorem value_of_parseEntries (fuel : Nat) (s : Bytes) : ∀ e ∈ parseEntries fuel s, e.2 = [] := by
  induction fuel generalizing s with
  | zero => simp [parseEntries]
  | succ fuel ih =>
      intro e he
      unfold parseEntries at he
      split at he
      · cases he
      · split at he
        · exact ih _ e he
        · split at he
          · cases he
          · split at he
            · exact ih _ e he
            · rename_i v hfirst
              obtain ⟨rest, hvalue⟩ := upToQuote_drop (prefix_of_fromFirst hfirst)
              rw [hvalue] at he
              rcases List.mem_cons.mp he with rfl | he
              · rfl
              · exact ih _ e he

theorem pendingOf_eq_empty (entriesJson : Bytes) : pendingOf entriesJson = ∅ := by
  have hvalues := value_of_parseEntries (entriesJson.length + 1) (cstr entriesJson)
  unfold pendingOf entriesOf
  generalize parseEntries (entriesJson.length + 1) (cstr entriesJson) = entries at hvalues ⊢
  induction entries with
  | nil => rfl
  | cons e es ih =>
      rw [List.forall_mem_cons] at hvalues
      rw [List.foldl_cons, addPath, if_pos hvalues.1]
      exact ih hvalues.2

theorem lookup_foldl_insert_isSome {β : Type} (pairs : List (Bytes × β)) (m : StringMap β)
    {key : Bytes} (h : (m.lookup key).isSome) :
    ((pairs.foldl (fun pending e => pending.insert e.1 e.2) m).lookup key).isSome := by
  induction pairs generalizing m with
  | nil => exact h
  | cons e pairs ih =>
      apply ih
      by_cases hkey : key = e.1
      · rw [hkey, Finmap.lookup_insert]
        rfl
      · rwa [Finmap.lookup_insert_of_ne m hkey]

theorem nil_of_pairsOf_nil {items : Trees} (h : pairsOf items = some []) : items = .nil := by
  cases items with
  | nil => rfl
  | cons item rest =>
      unfold pairsOf at h
      split at h
      · contradiction
      · rename_i members _ heq
        cases heq
        split at h
        · cases h
        · cases h
      · cases h

/-- **A call submits the pairs of its objects** only if there are none: it takes every
value as empty, and the session refuses empty values. -/
theorem submitsPairs_iff {entriesJson : Bytes} {items : Trees} {pairs : List (Bytes × Bytes)}
    (_hspells : Spells entriesJson (.array items)) (hpairs : pairsOf items = some pairs) :
    SubmitsPairs entriesJson pairs ↔ items = .nil := by
  rw [SubmitsPairs, pendingOf_eq_empty]
  constructor
  · intro hempty
    cases pairs with
    | nil => exact nil_of_pairsOf_nil hpairs
    | cons e es =>
        have hsome : (((∅ : StringMap Bytes).insert e.1 e.2).lookup e.1).isSome := by
          rw [Finmap.lookup_insert]
          rfl
        have hlast := lookup_foldl_insert_isSome es _ hsome
        rw [List.foldl_cons] at hempty
        rw [← hempty, Finmap.lookup_empty] at hlast
        cases hlast
  · rintro rfl
    cases hpairs
    rfl

/-- An array without objects. -/
theorem submitsPairs_nil : SubmitsPairs (ascii "[ ]") [] :=
  (@submitsPairs_iff (ascii "[ ]") .nil []
    ⟨⟨[], .emptyArray (ascii " "), []⟩, ⟨by decide, by unfold Json.Valid; decide, by decide⟩, rfl,
      rfl⟩ rfl).mpr rfl

/-- One object, which is not submitted. -/
theorem one_pair_not_submitted : ∃ items,
    Spells (ascii "[\x7b\"key\":\"a\",\"value\":\"1\"\x7d]") (.array items) ∧
      pairsOf items = some [(ascii "a", ascii "1")] ∧
      ¬SubmitsPairs (ascii "[\x7b\"key\":\"a\",\"value\":\"1\"\x7d]")
        [(ascii "a", ascii "1")] := by
  have hgap : IsGap [] := by decide
  have hbody : ∀ s ∈ ["key", "value", "a", "1"], IsBody (ascii s) := by
    intro s hs
    have hplain : ∀ s ∈ ["key", "value", "a", "1"],
        ∀ c ∈ ascii s, 32 ≤ c ∧ c ≠ ch '"' ∧ c ≠ ch '\\' := by decide
    exact isBody_of_plain (hplain s hs)
  refine ⟨.cons (.object (.cons (ascii "key") (.string (ascii "a"))
    (.cons (ascii "value") (.string (ascii "1")) .nil))) .nil, ?_, by decide, ?_⟩
  · refine ⟨⟨[], .array (.last [] (.object
      (.more ⟨[], ascii "key", [], []⟩ (.string (ascii "a")) []
        (.last ⟨[], ascii "value", [], []⟩ (.string (ascii "1")) []))) []), []⟩, ?_, rfl, rfl⟩
    have hkey := hbody "key" (by decide)
    have ha := hbody "a" (by decide)
    have hvalue := hbody "value" (by decide)
    have hone := hbody "1" (by decide)
    exact ⟨hgap, ⟨hgap, ⟨⟨hgap, hkey, hgap, hgap⟩, ha, hgap, ⟨hgap, hvalue, hgap, hgap⟩, hone, hgap⟩,
      hgap⟩, hgap⟩
  · rw [SubmitsPairs, pendingOf_eq_empty]
    intro hempty
    have hlookup := congrArg (Finmap.lookup (ascii "a")) hempty
    simp at hlookup

end Submitted

end BlessStar.Sdk
