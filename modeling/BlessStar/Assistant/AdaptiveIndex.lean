import BlessStar.Lib.ObjectMap
import BlessStar.Lib.Utf8Text

/-!
# The adaptive index

The learned routes of `adaptiveIndex.ts`: the three layers, the calls that change them,
and what `saveIndex` and `loadIndex` keep of them in `localStorage`.  `JSON.parse` gives
back what `JSON.stringify` was given, so the stored item is the data itself.
-/

namespace BlessStar.Assistant.AdaptiveIndex

open Lib
open Lib.Utf8Text (Utf16)

def text (s : String) : Utf16 := s.toList.map fun c => c.toNat.toUInt16

inductive IndexSource
  | baseline
  | personalProfile
  | groupProfile
  | aiSuggested
  deriving DecidableEq

inductive TargetType
  | config
  | concept
  | skill
  deriving DecidableEq

def TargetType.name : TargetType → Utf16
  | .config => text "config"
  | .concept => text "concept"
  | .skill => text "skill"

structure Route where
  keyword : Utf16
  targetType : TargetType
  targetId : Utf16
  deriving DecidableEq

def Route.entryKey (r : Route) : Utf16 :=
  r.keyword ++ text "::" ++ r.targetType.name ++ text "::" ++ r.targetId

structure RouteEntry extends Route where
  source : IndexSource
  freq : Nat
  lastHit : Nat
  sourceWeight : Rat
  deriving DecidableEq

def sourceWeight : IndexSource → Rat
  | .personalProfile => 15 / 10
  | .baseline => 12 / 10
  | .groupProfile => 1
  | .aiSuggested => 7 / 10

abbrev Layer := ObjectMap Utf16 RouteEntry

inductive LayerName
  | personalProfile
  | groupProfile
  | baseline
  deriving DecidableEq

structure AdaptiveIndexData where
  personalProfile : Layer := ObjectMap.empty
  groupProfile : Layer := ObjectMap.empty
  baseline : Layer := ObjectMap.empty
  deriving DecidableEq

namespace AdaptiveIndexData

/-- `idx[layer]`. -/
def layer (idx : AdaptiveIndexData) : LayerName → Layer
  | .personalProfile => idx.personalProfile
  | .groupProfile => idx.groupProfile
  | .baseline => idx.baseline

def setLayer (idx : AdaptiveIndexData) (name : LayerName) (l : Layer) : AdaptiveIndexData :=
  match name with
  | .personalProfile => { idx with personalProfile := l }
  | .groupProfile => { idx with groupProfile := l }
  | .baseline => { idx with baseline := l }

end AdaptiveIndexData

def makeEntry (now : Nat) (r : Route) (source : IndexSource) : RouteEntry :=
  { r with source, freq := 1, lastHit := now, sourceWeight := sourceWeight source }

/-- `BASELINE_KW` and the natural language skills with their keywords, in the order in
which they are enumerated. -/
structure Registry where
  baselineKW : List (Utf16 × List Utf16) := []
  skills : List (Utf16 × List Utf16) := []

def factoryEntry (r : Route) : RouteEntry :=
  { r with source := .baseline, freq := 0, lastHit := 0, sourceWeight := sourceWeight .baseline }

def Registry.routes (registry : Registry) : List Route :=
  (registry.baselineKW.flatMap fun p => p.2.map fun key => ⟨p.1, .config, key⟩) ++
    registry.skills.flatMap fun p => p.2.map fun keyword => ⟨keyword, .skill, p.1⟩

def initBaseline (registry : Registry) : Layer :=
  registry.routes.foldl (fun entries r => entries.assign r.entryKey (factoryEntry r)) .empty

def mergeEntry (baseline : Layer) (p : Utf16 × RouteEntry) : Layer :=
  match baseline.get p.1 with
  | some e => baseline.assign p.1 { e with freq := p.2.freq, lastHit := p.2.lastHit }
  | none => baseline

def mergeBaseline (registry : Registry) (stored : Layer) : Layer :=
  stored.entries.foldl mergeEntry (initBaseline registry)

structure IndexEntryV1 where
  keyword : Option Utf16
  configKey : Option Utf16
  source : Option IndexSource := none
  freq : Option Nat := none
  lastHit : Option Nat := none
  sourceWeight : Option Rat := none
  deriving DecidableEq

structure IndexDataV1 where
  personalProfile : Option (ObjectMap Utf16 IndexEntryV1) := none
  groupProfile : Option (ObjectMap Utf16 IndexEntryV1) := none
  baseline : Option (ObjectMap Utf16 IndexEntryV1) := none
  deriving DecidableEq

def IndexDataV1.entries (old : IndexDataV1) (name : LayerName) : List (Utf16 × IndexEntryV1) :=
  ((match name with
    | .personalProfile => old.personalProfile
    | .groupProfile => old.groupProfile
    | .baseline => old.baseline).map ObjectMap.entries).getD []

def migrateEntry (old : IndexEntryV1) : RouteEntry where
  keyword := old.keyword.getD []
  targetType := .config
  targetId := old.configKey.getD []
  source := old.source.getD .baseline
  freq := old.freq.getD 0
  lastHit := old.lastHit.getD 0
  sourceWeight := old.sourceWeight.getD (AdaptiveIndex.sourceWeight .baseline)

/-- A layer of `migrateV1ToV2`. -/
def migrateLayer (entries : List (Utf16 × IndexEntryV1)) : Layer :=
  entries.foldl
    (fun layer p => layer.assign (migrateEntry p.2).toRoute.entryKey (migrateEntry p.2)) .empty

def migrateV1ToV2 (old : IndexDataV1) : AdaptiveIndexData where
  personalProfile := migrateLayer (old.entries .personalProfile)
  groupProfile := migrateLayer (old.entries .groupProfile)
  baseline := migrateLayer (old.entries .baseline)

/-- What `JSON.parse` makes of the stored item. -/
inductive Stored
  | v1 (data : IndexDataV1)
  | v2 (data : AdaptiveIndexData)
  deriving DecidableEq

/-- The item of `localStorage`, and `_index`. -/
structure Browser where
  item : Option Stored := none
  index : Option AdaptiveIndexData := none
  deriving DecidableEq

/-- `saveIndex`; it is called with an index only. -/
def saveIndex (b : Browser) : Browser :=
  match b.index with
  | some idx => { b with item := some (.v2 idx) }
  | none => b

/-- The index that `loadIndex` returns. -/
def loaded (registry : Registry) (b : Browser) : AdaptiveIndexData :=
  match b.index, b.item with
  | some idx, _ => idx
  | none, some (.v1 old) =>
      let idx := migrateV1ToV2 old
      { idx with baseline := mergeBaseline registry idx.baseline }
  | none, some (.v2 old) => { old with baseline := mergeBaseline registry old.baseline }
  | none, none => { baseline := initBaseline registry }

/-- What `loadIndex` leaves: data of version 1 is written back after the migration. -/
def loadIndex (registry : Registry) (b : Browser) : Browser :=
  let b' := { b with index := some (loaded registry b) }
  match b.index, b.item with
  | none, some (.v1 _) => saveIndex b'
  | _, _ => b'

def restart (b : Browser) : Browser := { b with index := none }

/-- A call, with what `Date.now()` says while it runs. -/
inductive Call
  | confirmRoute (now : Nat) (userInput : Utf16) (targetType : TargetType) (targetId : Utf16)
      (toBaseline : Bool)
  | confirmMatch (now : Nat) (userInput configKey : Utf16)
  | confirmConcept (now : Nat) (userInput conceptId : Utf16)
  | recordHit (now : Nat) (userInput configKey : Utf16)
  | seedConceptKeywords (now : Nat) (keywords : List (Utf16 × Utf16))
  deriving DecidableEq

def hit (now : Nat) (e : RouteEntry) : RouteEntry := { e with freq := e.freq + 1, lastHit := now }

def confirmIn (now : Nat) (r : Route) (source : IndexSource) (layer : Layer) : Layer :=
  match layer.get r.entryKey with
  | some e => layer.assign r.entryKey (hit now e)
  | none => layer.assign r.entryKey (makeEntry now r source)

def confirmRoute (now : Nat) (r : Route) (toBaseline : Bool) (idx : AdaptiveIndexData) :
    AdaptiveIndexData :=
  if toBaseline then { idx with baseline := confirmIn now r .baseline idx.baseline }
  else { idx with personalProfile := confirmIn now r .personalProfile idx.personalProfile }

def confirmMatch (now : Nat) (userInput configKey : Utf16) (idx : AdaptiveIndexData) :
    AdaptiveIndexData where
  personalProfile :=
    confirmIn now ⟨userInput, .config, configKey⟩ .personalProfile idx.personalProfile
  groupProfile := idx.groupProfile
  baseline := idx.baseline.modify fun _ e =>
    if e.targetType = .config ∧ e.targetId = configKey then { e with freq := min (e.freq + 1) 100 }
    else e

def confirmConcept (now : Nat) (userInput conceptId : Utf16) (idx : AdaptiveIndexData) :
    AdaptiveIndexData :=
  confirmRoute now ⟨userInput, .concept, conceptId⟩ false idx

section

variable (toLowerCase trim : Utf16 → Utf16)

/-- An entry that `recordHit` takes for the one that was hit. -/
def isHit (userInput configKey : Utf16) (e : RouteEntry) : Bool :=
  let lowerInput := trim (toLowerCase userInput)
  e.targetType = .config ∧ e.targetId = configKey ∧
    (toLowerCase e.keyword = lowerInput ∨ lowerInput <:+: toLowerCase e.keyword)

def hitFirst (now : Nat) (p : RouteEntry → Bool) (layer : Layer) : Option Layer :=
  (layer.entries.find? fun q => p q.2).map fun q => layer.assign q.1 (hit now q.2)

/-- `recordHit`; `none` where nothing is hit, and nothing is saved. -/
def recordHit (now : Nat) (userInput configKey : Utf16) (idx : AdaptiveIndexData) :
    Option AdaptiveIndexData :=
  match hitFirst now (isHit toLowerCase trim userInput configKey) idx.personalProfile with
  | some layer => some { idx with personalProfile := layer }
  | none =>
      match hitFirst now (isHit toLowerCase trim userInput configKey) idx.baseline with
      | some layer => some { idx with baseline := layer }
      | none => none

def seedRoute (seed : Utf16 × Utf16) : Route := ⟨seed.1, .concept, seed.2⟩

/-- `seedConceptKeywords`; `none` where nothing has changed. -/
def seedConceptKeywords (now : Nat) (keywords : List (Utf16 × Utf16)) (idx : AdaptiveIndexData) :
    Option AdaptiveIndexData :=
  let r := keywords.foldl
    (fun (r : Layer × Bool) seed =>
      match r.1.get (seedRoute seed).entryKey with
      | some _ => r
      | none =>
          (r.1.assign (seedRoute seed).entryKey (makeEntry now (seedRoute seed) .baseline), true))
    (idx.baseline, false)
  if r.2 then some { idx with baseline := r.1 } else none

def apply (idx : AdaptiveIndexData) : Call → Option AdaptiveIndexData
  | .confirmRoute now userInput targetType targetId toBaseline =>
      some (confirmRoute now ⟨userInput, targetType, targetId⟩ toBaseline idx)
  | .confirmMatch now userInput configKey => some (confirmMatch now userInput configKey idx)
  | .confirmConcept now userInput conceptId => some (confirmConcept now userInput conceptId idx)
  | .recordHit now userInput configKey => recordHit toLowerCase trim now userInput configKey idx
  | .seedConceptKeywords now keywords => seedConceptKeywords now keywords idx

inductive Step
  | call (c : Call)
  | restart
  deriving DecidableEq

def step (registry : Registry) (b : Browser) : Step → Browser
  | .call c =>
      let b := loadIndex registry b
      match apply toLowerCase trim (loaded registry b) c with
      | some idx => saveIndex { b with index := some idx }
      | none => b
  | .restart => restart b

def execute (registry : Registry) (b : Browser) (run : List Step) : Browser :=
  run.foldl (step toLowerCase trim registry) b

end

def Rescored (base layer : Layer) : Prop :=
  ∃ f : Utf16 → RouteEntry → Nat × Nat,
    layer = base.modify fun k e => { e with freq := (f k e).1, lastHit := (f k e).2 }

theorem Rescored.refl (base : Layer) : Rescored base base := by
  refine ⟨fun _ e => (e.freq, e.lastHit), ?_⟩
  rw [ObjectMap.modify_eq_self fun _ _ _ => rfl]

theorem Rescored.modify {base layer : Layer} (h : Rescored base layer)
    (g : Utf16 → RouteEntry → Nat × Nat) :
    Rescored base (layer.modify fun k e => { e with freq := (g k e).1, lastHit := (g k e).2 }) := by
  obtain ⟨f, rfl⟩ := h
  rw [ObjectMap.modify_modify]
  exact ⟨fun k e => g k { e with freq := (f k e).1, lastHit := (f k e).2 }, rfl⟩

theorem Rescored.assign {base layer : Layer} (h : Rescored base layer) {k : Utf16} {e : RouteEntry}
    (hget : layer.get k = some e) (freq lastHit : Nat) :
    Rescored base (layer.assign k { e with freq, lastHit }) := by
  rw [ObjectMap.assign_of_get hget]
  have hsame : (layer.modify fun k' b => if k' = k then { e with freq, lastHit } else b) =
      layer.modify fun k' b =>
        { b with
          freq := (if k' = k then (freq, lastHit) else (b.freq, b.lastHit)).1
          lastHit := (if k' = k then (freq, lastHit) else (b.freq, b.lastHit)).2 } := by
    refine ObjectMap.modify_congr fun k' b hb => ?_
    by_cases hk : k' = k
    · have heq : b = e := by
        rw [hk, hget] at hb
        exact (Option.some.inj hb).symm
      simp [hk, heq]
    · simp [hk]
  rw [hsame]
  exact h.modify fun k' b => if k' = k then (freq, lastHit) else (b.freq, b.lastHit)

def rescore (o : Option RouteEntry) (e : RouteEntry) : RouteEntry :=
  match o with
  | some o => { e with freq := o.freq, lastHit := o.lastHit }
  | none => e

theorem mergeEntry_eq (base : Layer) (p : Utf16 × RouteEntry) :
    mergeEntry base p = base.modify fun k e => if k = p.1 then rescore (some p.2) e else e := by
  unfold mergeEntry
  cases hget : base.get p.1 with
  | some e =>
    dsimp only
    rw [ObjectMap.assign_of_get hget]
    refine ObjectMap.modify_congr fun k b hb => ?_
    by_cases hk : k = p.1
    · rw [hk, hget] at hb
      rw [if_pos hk, if_pos hk, Option.some.inj hb, rescore]
    · rw [if_neg hk, if_neg hk]
  | none =>
    refine (ObjectMap.modify_eq_self fun k b hb => ?_).symm
    have hk : k ≠ p.1 := by
      rintro rfl
      rw [hget] at hb
      cases hb
    rw [if_neg hk]

theorem foldl_mergeEntry {stored : List (Utf16 × RouteEntry)}
    (hnodup : (stored.map Prod.fst).Nodup) (base : Layer) :
    stored.foldl mergeEntry base =
      base.modify fun k e => rescore (ObjectMap.get ⟨stored, hnodup⟩ k) e := by
  induction stored generalizing base with
  | nil => exact (ObjectMap.modify_eq_self fun _ _ _ => rfl).symm
  | cons p stored ih =>
    have hcons := List.nodup_cons.mp hnodup
    rw [List.foldl_cons, ih hcons.2, mergeEntry_eq, ObjectMap.modify_modify]
    refine ObjectMap.modify_congr fun k e _ => ?_
    rw [ObjectMap.get_cons]
    by_cases hk : k = p.1
    · have hnone : ObjectMap.get ⟨stored, hcons.2⟩ p.1 = none := by
        rw [← Option.not_isSome_iff_eq_none, ObjectMap.get_isSome_iff]
        exact hcons.1
      rw [if_pos hk, if_pos hk, hk, hnone]
      rfl
    · rw [if_neg hk, if_neg hk]

theorem mergeBaseline_eq (registry : Registry) (stored : Layer) :
    mergeBaseline registry stored =
      (initBaseline registry).modify fun k e => rescore (stored.get k) e :=
  foldl_mergeEntry stored.nodup _

theorem rescored_mergeBaseline (registry : Registry) (stored : Layer) :
    Rescored (initBaseline registry) (mergeBaseline registry stored) := by
  rw [mergeBaseline_eq]
  refine ⟨fun k e => ((rescore (stored.get k) e).freq, (rescore (stored.get k) e).lastHit), ?_⟩
  refine ObjectMap.modify_congr fun k e _ => ?_
  dsimp only
  cases stored.get k <;> rfl

theorem mergeBaseline_of_rescored {registry : Registry} {layer : Layer}
    (h : Rescored (initBaseline registry) layer) : mergeBaseline registry layer = layer := by
  rw [mergeBaseline_eq]
  obtain ⟨f, rfl⟩ := h
  refine ObjectMap.modify_congr fun k e he => ?_
  rw [ObjectMap.get_modify, he]
  rfl

def Keyed (l : Layer) : Prop := ∀ k e, l.get k = some e → k = e.toRoute.entryKey

structure WellKept (registry : Registry) (idx : AdaptiveIndexData) : Prop where
  baseline : Rescored (initBaseline registry) idx.baseline
  personal : Keyed idx.personalProfile

def Grows (l l' : Layer) : Prop :=
  ∀ k e, l.get k = some e → ∃ e', l'.get k = some e' ∧ e'.toRoute = e.toRoute

theorem Grows.refl (l : Layer) : Grows l l := fun _ e h => ⟨e, h, rfl⟩

theorem Grows.trans {l m n : Layer} (h : Grows l m) (h' : Grows m n) : Grows l n := by
  intro k e he
  obtain ⟨e', he', hroute⟩ := h k e he
  obtain ⟨e'', he'', hroute'⟩ := h' k e' he'
  exact ⟨e'', he'', hroute'.trans hroute⟩

theorem grows_assign {l : Layer} {k : Utf16} {a : RouteEntry}
    (h : ∀ e, l.get k = some e → a.toRoute = e.toRoute) : Grows l (l.assign k a) := by
  intro k' e he
  rw [ObjectMap.get_assign]
  by_cases hk : k' = k
  · rw [if_pos hk]
    exact ⟨a, rfl, h e (hk ▸ he)⟩
  · rw [if_neg hk]
    exact ⟨e, he, rfl⟩

theorem Rescored.get {base layer : Layer} (h : Rescored base layer) {k : Utf16} {e : RouteEntry}
    (hget : base.get k = some e) : ∃ e', layer.get k = some e' ∧ e'.toRoute = e.toRoute := by
  obtain ⟨f, rfl⟩ := h
  refine ⟨{ e with freq := (f k e).1, lastHit := (f k e).2 }, ?_, rfl⟩
  rw [ObjectMap.get_modify, hget, Option.map_some]

theorem grows_confirmIn (now : Nat) (r : Route) (source : IndexSource) (l : Layer) :
    Grows l (confirmIn now r source l) := by
  unfold confirmIn
  cases hget : l.get r.entryKey with
  | some e =>
    refine grows_assign fun e' he' => ?_
    rw [hget] at he'
    cases he'
    rfl
  | none =>
    refine grows_assign fun e' he' => ?_
    rw [hget] at he'
    cases he'

theorem get_confirmIn {r : Route} {l : Layer}
    (hfits : ∀ e, l.get r.entryKey = some e → e.toRoute = r) (now : Nat) (source : IndexSource) :
    ∃ e, (confirmIn now r source l).get r.entryKey = some e ∧ e.toRoute = r := by
  unfold confirmIn
  cases hget : l.get r.entryKey with
  | some e => exact ⟨hit now e, by rw [ObjectMap.get_assign, if_pos rfl], hfits e hget⟩
  | none => exact ⟨makeEntry now r source, by rw [ObjectMap.get_assign, if_pos rfl], rfl⟩

theorem Keyed.assign {l : Layer} (h : Keyed l) {k : Utf16} {a : RouteEntry}
    (ha : k = a.toRoute.entryKey) : Keyed (l.assign k a) := by
  intro k' e he
  rw [ObjectMap.get_assign] at he
  by_cases hk : k' = k
  · rw [if_pos hk] at he
    rw [hk, ha, Option.some.inj he]
  · rw [if_neg hk] at he
    exact h k' e he

theorem Keyed.confirmIn {l : Layer} (h : Keyed l) (now : Nat) (r : Route) (source : IndexSource) :
    Keyed (confirmIn now r source l) := by
  unfold AdaptiveIndex.confirmIn
  cases hget : l.get r.entryKey with
  | some e => exact h.assign (h _ e hget)
  | none => exact h.assign rfl

theorem Rescored.confirmIn {base l : Layer} (h : Rescored base l) {r : Route} {e : RouteEntry}
    (hbase : base.get r.entryKey = some e) (now : Nat) (source : IndexSource) :
    Rescored base (confirmIn now r source l) := by
  obtain ⟨e', he', -⟩ := h.get hbase
  unfold AdaptiveIndex.confirmIn
  rw [he']
  exact h.assign he' _ _

theorem hitFirst_eq_some {now : Nat} {p : RouteEntry → Bool} {l l' : Layer}
    (h : hitFirst now p l = some l') :
    ∃ k e, l.get k = some e ∧ l' = l.assign k (hit now e) := by
  rw [hitFirst, Option.map_eq_some_iff] at h
  obtain ⟨⟨k, e⟩, hfind, rfl⟩ := h
  exact ⟨k, e, ObjectMap.get_eq_some_iff.mpr (List.mem_of_find?_eq_some hfind), rfl⟩

theorem grows_assign_hit {l : Layer} {k : Utf16} {e : RouteEntry} (h : l.get k = some e)
    (now : Nat) : Grows l (l.assign k (hit now e)) := by
  refine grows_assign fun e' he' => ?_
  rw [h] at he'
  cases he'
  rfl

/-- The routes that a call has the index learn, with their layers. -/
def Call.learned : Call → List (LayerName × Route)
  | .confirmRoute _ userInput targetType targetId toBaseline =>
      [(if toBaseline then .baseline else .personalProfile, ⟨userInput, targetType, targetId⟩)]
  | .confirmMatch _ userInput configKey => [(.personalProfile, ⟨userInput, .config, configKey⟩)]
  | .confirmConcept _ userInput conceptId => [(.personalProfile, ⟨userInput, .concept, conceptId⟩)]
  | .recordHit .. => []
  | .seedConceptKeywords _ keywords => keywords.map fun seed => (.baseline, seedRoute seed)

/-- A route can be learned: in the baseline the factory has it, and elsewhere no other
route has its key. -/
def Fits (registry : Registry) (idx : AdaptiveIndexData) : LayerName × Route → Prop
  | (.baseline, r) => ∃ e, (initBaseline registry).get r.entryKey = some e ∧ e.toRoute = r
  | (name, r) => ∀ e, (idx.layer name).get r.entryKey = some e → e.toRoute = r

def Present (idx : AdaptiveIndexData) (p : LayerName × Route) : Prop :=
  ∃ e, (idx.layer p.1).get p.2.entryKey = some e ∧ e.toRoute = p.2

structure Keeps (registry : Registry) (learned : List (LayerName × Route))
    (idx idx' : AdaptiveIndexData) : Prop where
  wellKept : WellKept registry idx'
  grows : ∀ name, Grows (idx.layer name) (idx'.layer name)
  present : ∀ p ∈ learned, Present idx' p

section

variable {registry : Registry} {idx : AdaptiveIndexData}

theorem confirmRoute_keeps (h : WellKept registry idx) {now : Nat} {r : Route} {toBaseline : Bool}
    (hfits : Fits registry idx (if toBaseline then .baseline else .personalProfile, r)) :
    Keeps registry [(if toBaseline then .baseline else .personalProfile, r)] idx
      (confirmRoute now r toBaseline idx) := by
  cases toBaseline with
  | true =>
    obtain ⟨e, hget, hroute⟩ := hfits
    have hlayer : ∀ e', idx.baseline.get r.entryKey = some e' → e'.toRoute = r := by
      intro e' he'
      obtain ⟨e'', he'', hroute'⟩ := h.baseline.get hget
      rw [he''] at he'
      rw [← Option.some.inj he', hroute', hroute]
    refine ⟨⟨h.baseline.confirmIn hget now _, h.personal⟩, fun name => ?_, fun p hp => ?_⟩
    · cases name with
      | baseline => exact grows_confirmIn now r _ _
      | personalProfile => exact Grows.refl _
      | groupProfile => exact Grows.refl _
    · obtain rfl := List.mem_singleton.mp hp
      exact get_confirmIn hlayer now _
  | false =>
    refine ⟨⟨h.baseline, h.personal.confirmIn now r _⟩, fun name => ?_, fun p hp => ?_⟩
    · cases name with
      | personalProfile => exact grows_confirmIn now r _ _
      | baseline => exact Grows.refl _
      | groupProfile => exact Grows.refl _
    · obtain rfl := List.mem_singleton.mp hp
      exact get_confirmIn hfits now _

theorem confirmMatch_keeps (h : WellKept registry idx) {now : Nat} {userInput configKey : Utf16}
    (hfits : Fits registry idx (.personalProfile, ⟨userInput, .config, configKey⟩)) :
    Keeps registry [(.personalProfile, ⟨userInput, .config, configKey⟩)] idx
      (confirmMatch now userInput configKey idx) := by
  let raise (e : RouteEntry) : Nat × Nat :=
    if e.targetType = .config ∧ e.targetId = configKey then (min (e.freq + 1) 100, e.lastHit)
    else (e.freq, e.lastHit)
  have hraised : (confirmMatch now userInput configKey idx).baseline =
      idx.baseline.modify fun _ e => { e with freq := (raise e).1, lastHit := (raise e).2 } := by
    rw [confirmMatch]
    dsimp only
    refine ObjectMap.modify_congr fun k e _ => ?_
    dsimp only [raise]
    split_ifs <;> rfl
  refine ⟨⟨?_, h.personal.confirmIn now _ _⟩, fun name => ?_, fun p hp => ?_⟩
  · rw [hraised]
    exact h.baseline.modify fun _ e => raise e
  · cases name with
    | personalProfile => exact grows_confirmIn now _ _ _
    | groupProfile => exact Grows.refl _
    | baseline =>
      have hgrows : Grows idx.baseline (confirmMatch now userInput configKey idx).baseline := by
        rw [hraised]
        intro k e he
        rw [ObjectMap.get_modify, he]
        exact ⟨_, rfl, rfl⟩
      exact hgrows
  · obtain rfl := List.mem_singleton.mp hp
    exact get_confirmIn hfits now _

theorem recordHit_keeps (toLowerCase trim : Utf16 → Utf16) (h : WellKept registry idx) {now : Nat}
    {userInput configKey : Utf16} {idx' : AdaptiveIndexData}
    (hrun : recordHit toLowerCase trim now userInput configKey idx = some idx') :
    Keeps registry [] idx idx' := by
  unfold recordHit at hrun
  cases hpersonal : hitFirst now (isHit toLowerCase trim userInput configKey)
    idx.personalProfile with
  | some layer =>
    rw [hpersonal] at hrun
    cases hrun
    obtain ⟨k, e, hget, rfl⟩ := hitFirst_eq_some hpersonal
    refine ⟨⟨h.baseline, h.personal.assign (h.personal k e hget)⟩, fun name => ?_, by simp⟩
    cases name with
    | personalProfile => exact grows_assign_hit hget now
    | groupProfile => exact Grows.refl _
    | baseline => exact Grows.refl _
  | none =>
    rw [hpersonal] at hrun
    cases hbaseline : hitFirst now (isHit toLowerCase trim userInput configKey) idx.baseline with
    | none =>
      rw [hbaseline] at hrun
      cases hrun
    | some layer =>
      rw [hbaseline] at hrun
      cases hrun
      obtain ⟨k, e, hget, rfl⟩ := hitFirst_eq_some hbaseline
      refine ⟨⟨h.baseline.assign hget _ _, h.personal⟩, fun name => ?_, by simp⟩
      cases name with
      | personalProfile => exact Grows.refl _
      | groupProfile => exact Grows.refl _
      | baseline => exact grows_assign_hit hget now

theorem present_of_factory (h : WellKept registry idx) {r : Route}
    (hfits : Fits registry idx (.baseline, r)) : Present idx (.baseline, r) := by
  obtain ⟨e, hget, hroute⟩ := hfits
  obtain ⟨e', he', hroute'⟩ := h.baseline.get hget
  exact ⟨e', he', hroute'.trans hroute⟩

theorem seedConceptKeywords_eq_none (h : WellKept registry idx) {now : Nat}
    {keywords : List (Utf16 × Utf16)}
    (hfits : ∀ seed ∈ keywords, Fits registry idx (.baseline, seedRoute seed)) :
    seedConceptKeywords now keywords idx = none := by
  have hrun : ∀ r : Layer × Bool, r.1 = idx.baseline → keywords.foldl
      (fun (r : Layer × Bool) seed =>
        match r.1.get (seedRoute seed).entryKey with
        | some _ => r
        | none =>
            (r.1.assign (seedRoute seed).entryKey (makeEntry now (seedRoute seed) .baseline), true))
      r = r := by
    induction keywords with
    | nil => exact fun _ _ => rfl
    | cons seed keywords ih =>
      intro r hr
      obtain ⟨e, he, -⟩ := present_of_factory h (hfits seed (List.mem_cons_self ..))
      have hget : r.1.get (seedRoute seed).entryKey = some e := hr ▸ he
      rw [List.foldl_cons, hget]
      exact ih (fun s hs => hfits s (List.mem_cons_of_mem _ hs)) r hr
  rw [seedConceptKeywords, hrun (idx.baseline, false) rfl]
  rfl

theorem apply_keeps (toLowerCase trim : Utf16 → Utf16) (h : WellKept registry idx) {c : Call}
    (hfits : ∀ p ∈ c.learned, Fits registry idx p) :
    Keeps registry c.learned idx ((apply toLowerCase trim idx c).getD idx) := by
  cases c with
  | confirmRoute now userInput targetType targetId toBaseline =>
    exact confirmRoute_keeps h (hfits _ (List.mem_singleton_self _))
  | confirmMatch now userInput configKey =>
    exact confirmMatch_keeps h (hfits _ (List.mem_singleton_self _))
  | confirmConcept now userInput conceptId =>
    exact @confirmRoute_keeps _ _ h _ _ false (hfits _ (List.mem_singleton_self _))
  | recordHit now userInput configKey =>
    cases hrun : recordHit toLowerCase trim now userInput configKey idx with
    | some idx' =>
      rw [apply, hrun]
      exact recordHit_keeps toLowerCase trim h hrun
    | none =>
      rw [apply, hrun]
      exact ⟨h, fun _ => Grows.refl _, by simp [Call.learned]⟩
  | seedConceptKeywords now keywords =>
    have hseeds : ∀ seed ∈ keywords, Fits registry idx (.baseline, seedRoute seed) :=
      fun seed hseed => hfits _ (List.mem_map_of_mem hseed)
    rw [apply, seedConceptKeywords_eq_none h hseeds]
    exact ⟨h, fun _ => Grows.refl _, fun p hp => by
      obtain ⟨seed, hseed, rfl⟩ := List.mem_map.mp hp
      exact present_of_factory h (hseeds seed hseed)⟩

end

structure Durable (registry : Registry) (b : Browser) : Prop where
  wellKept : WellKept registry (loaded registry b)
  restored : loaded registry (restart b) = loaded registry b

theorem loaded_of_index {registry : Registry} {b : Browser} {idx : AdaptiveIndexData}
    (h : b.index = some idx) : loaded registry b = idx := by
  rw [loaded, h]

theorem index_loadIndex (registry : Registry) (b : Browser) :
    (loadIndex registry b).index = some (loaded registry b) := by
  unfold loadIndex
  dsimp only
  split <;> rfl

theorem loaded_loadIndex (registry : Registry) (b : Browser) :
    loaded registry (loadIndex registry b) = loaded registry b :=
  loaded_of_index (index_loadIndex registry b)

theorem durable_saveIndex {registry : Registry} {b : Browser} {idx : AdaptiveIndexData}
    (hindex : b.index = some idx) (h : WellKept registry idx) : Durable registry (saveIndex b) := by
  have hsaved : saveIndex b = { item := some (.v2 idx), index := some idx } := by
    rw [saveIndex, hindex]
  rw [hsaved]
  refine ⟨h, ?_⟩
  change { idx with baseline := mergeBaseline registry idx.baseline } = idx
  rw [mergeBaseline_of_rescored h.baseline]

theorem durable_loadIndex {registry : Registry} {b : Browser} (h : Durable registry b) :
    Durable registry (loadIndex registry b) := by
  have hindex := index_loadIndex registry b
  obtain ⟨item, index⟩ := b
  cases index with
  | some idx => exact ⟨by rw [loaded_loadIndex]; exact h.wellKept, h.restored⟩
  | none =>
    cases item with
    | none => exact ⟨by rw [loaded_loadIndex]; exact h.wellKept, rfl⟩
    | some item =>
      cases item with
      | v2 old => exact ⟨by rw [loaded_loadIndex]; exact h.wellKept, rfl⟩
      | v1 old =>
        let b : Browser := { item := some (.v1 old) }
        exact durable_saveIndex (b := { b with index := some (loaded registry b) }) rfl h.wellKept

section

variable (toLowerCase trim : Utf16 → Utf16)

theorem loaded_step_call (registry : Registry) (b : Browser) (c : Call) :
    loaded registry (step toLowerCase trim registry b (.call c)) =
      (apply toLowerCase trim (loaded registry b) c).getD (loaded registry b) := by
  rw [step, loaded_loadIndex]
  cases apply toLowerCase trim (loaded registry b) c with
  | some idx => rfl
  | none => exact loaded_loadIndex registry b

def StepFits (registry : Registry) (b : Browser) : Step → Prop
  | .call c => ∀ p ∈ c.learned, Fits registry (loaded registry b) p
  | .restart => True

theorem durable_step {registry : Registry} {b : Browser} (h : Durable registry b) {s : Step}
    (hfits : StepFits registry b s) : Durable registry (step toLowerCase trim registry b s) := by
  cases s with
  | restart =>
    refine ⟨?_, rfl⟩
    change WellKept registry (loaded registry (restart b))
    rw [h.restored]
    exact h.wellKept
  | call c =>
    have hkeeps := (apply_keeps toLowerCase trim h.wellKept hfits).wellKept
    rw [step, loaded_loadIndex]
    cases hrun : apply toLowerCase trim (loaded registry b) c with
    | none => exact durable_loadIndex h
    | some idx =>
      rw [hrun] at hkeeps
      exact durable_saveIndex rfl hkeeps

theorem step_keeps {registry : Registry} {b : Browser} (h : Durable registry b) {s : Step}
    (hfits : StepFits registry b s) :
    (∀ name, Grows ((loaded registry b).layer name)
      ((loaded registry (step toLowerCase trim registry b s)).layer name)) ∧
    ∀ c, s = .call c → ∀ p ∈ c.learned,
      Present (loaded registry (step toLowerCase trim registry b s)) p := by
  cases s with
  | restart =>
    refine ⟨fun name => ?_, fun c hc => by cases hc⟩
    change Grows _ ((loaded registry (restart b)).layer name)
    rw [h.restored]
    exact Grows.refl _
  | call c =>
    have hkeeps := apply_keeps toLowerCase trim h.wellKept hfits
    rw [← loaded_step_call] at hkeeps
    refine ⟨hkeeps.grows, fun c' hc => ?_⟩
    obtain rfl := Step.call.inj hc
    exact hkeeps.present

def RunFits (registry : Registry) (b : Browser) : List Step → Prop
  | [] => True
  | s :: run => StepFits registry b s ∧ RunFits registry (step toLowerCase trim registry b s) run

def learned (run : List Step) : List (LayerName × Route) :=
  run.flatMap fun s => match s with
    | .call c => c.learned
    | .restart => []

theorem Present.grows {idx idx' : AdaptiveIndexData} {p : LayerName × Route} (h : Present idx p)
    (hgrows : ∀ name, Grows (idx.layer name) (idx'.layer name)) : Present idx' p := by
  obtain ⟨e, hget, hroute⟩ := h
  obtain ⟨e', hget', hroute'⟩ := hgrows p.1 _ e hget
  exact ⟨e', hget', hroute'.trans hroute⟩

theorem run_keeps {registry : Registry} {b : Browser} (h : Durable registry b) {run : List Step}
    (hfits : RunFits toLowerCase trim registry b run) :
    Durable registry (execute toLowerCase trim registry b run) ∧
    (∀ name, Grows ((loaded registry b).layer name)
      ((loaded registry (execute toLowerCase trim registry b run)).layer name)) ∧
    ∀ p ∈ learned run, Present (loaded registry (execute toLowerCase trim registry b run)) p := by
  induction run generalizing b with
  | nil => exact ⟨h, fun _ => Grows.refl _, by simp [learned]⟩
  | cons s run ih =>
    obtain ⟨hstep, hrest⟩ := hfits
    obtain ⟨hdurable, hgrows, hpresent⟩ := ih (durable_step toLowerCase trim h hstep) hrest
    obtain ⟨hgrowsStep, hpresentStep⟩ := step_keeps toLowerCase trim h hstep
    refine ⟨hdurable, fun name => (hgrowsStep name).trans (hgrows name), fun p hp => ?_⟩
    rw [learned, List.flatMap_cons, List.mem_append] at hp
    rcases hp with hp | hp
    · cases s with
      | restart => cases hp
      | call c => exact (hpresentStep c rfl p hp).grows hgrows
    · exact hpresent p hp

end

def newKey (p : Utf16 × IndexEntryV1) : Utf16 := (migrateEntry p.2).toRoute.entryKey

theorem keyed_migrateLayer (entries : List (Utf16 × IndexEntryV1)) :
    Keyed (migrateLayer entries) := by
  have hrun : ∀ layer : Layer, Keyed layer → Keyed (entries.foldl
      (fun layer p => layer.assign (migrateEntry p.2).toRoute.entryKey (migrateEntry p.2)) layer) := by
    induction entries with
    | nil => exact fun _ h => h
    | cons p entries ih => exact fun layer h => ih _ (h.assign rfl)
  refine hrun _ fun k e h => ?_
  rw [ObjectMap.get_empty] at h
  cases h

theorem get_migrateLayer {entries : List (Utf16 × IndexEntryV1)} (h : (entries.map newKey).Nodup)
    {p : Utf16 × IndexEntryV1} (hp : p ∈ entries) :
    (migrateLayer entries).get (newKey p) = some (migrateEntry p.2) := by
  have hkeep : ∀ (entries : List (Utf16 × IndexEntryV1)) (layer : Layer) (k : Utf16),
      k ∉ entries.map newKey → (entries.foldl
        (fun layer p => layer.assign (migrateEntry p.2).toRoute.entryKey (migrateEntry p.2))
        layer).get k = layer.get k := by
    intro entries
    induction entries with
    | nil => exact fun _ _ _ => rfl
    | cons q entries ih =>
      intro layer k hk
      rw [List.map_cons, List.mem_cons, not_or] at hk
      rw [List.foldl_cons, ih _ k hk.2, ObjectMap.get_assign]
      exact if_neg hk.1
  unfold migrateLayer
  generalize (ObjectMap.empty : Layer) = layer
  induction entries generalizing layer with
  | nil => cases hp
  | cons q entries ih =>
    rw [List.map_cons, List.nodup_cons] at h
    rw [List.foldl_cons]
    rcases List.mem_cons.mp hp with rfl | hp
    · rw [hkeep _ _ _ h.1, ObjectMap.get_assign]
      exact if_pos rfl
    · exact ih h.2 hp _

def start (v1 : Option IndexDataV1) : Browser := { item := v1.map .v1 }

theorem durable_start (registry : Registry) (v1 : Option IndexDataV1) :
    Durable registry (start v1) := by
  refine ⟨?_, rfl⟩
  cases v1 with
  | none =>
    refine ⟨Rescored.refl _, fun k e h => ?_⟩
    rw [loaded, start] at h
    cases h
  | some old => exact ⟨rescored_mergeBaseline _ _, keyed_migrateLayer _⟩

/-- Data of version 1 that the migration can keep apart: no two entries of a layer get one
key, and the factory has the routes of the baseline. -/
structure V1Fits (registry : Registry) (old : IndexDataV1) : Prop where
  distinct : ∀ name, ((old.entries name).map newKey).Nodup
  factory : ∀ p ∈ old.entries .baseline, ∃ e,
    (initBaseline registry).get (newKey p) = some e ∧ e.toRoute = (migrateEntry p.2).toRoute

def Holds (layer : Layer) (e : RouteEntry) : Prop :=
  ∃ k e', layer.get k = some e' ∧ e'.toRoute = e.toRoute ∧ e'.freq = e.freq ∧ e'.lastHit = e.lastHit

theorem holds_migrated {registry : Registry} {old : IndexDataV1} (h : V1Fits registry old)
    (name : LayerName) {p : Utf16 × IndexEntryV1} (hp : p ∈ old.entries name) :
    Holds ((loaded registry (start (some old))).layer name) (migrateEntry p.2) := by
  have hget := get_migrateLayer (h.distinct name) hp
  cases name with
  | personalProfile => exact ⟨_, _, hget, rfl, rfl, rfl⟩
  | groupProfile => exact ⟨_, _, hget, rfl, rfl, rfl⟩
  | baseline =>
    obtain ⟨e, he, hroute⟩ := h.factory p hp
    refine ⟨newKey p, rescore (some (migrateEntry p.2)) e, ?_, hroute, rfl, rfl⟩
    change (mergeBaseline registry (migrateLayer (old.entries .baseline))).get (newKey p) = _
    rw [mergeBaseline_eq, ObjectMap.get_modify, he, Option.map_some, hget]

section

variable (toLowerCase trim : Utf16 → Utf16)

def indexAfter (registry : Registry) (v1 : Option IndexDataV1) (run : List Step) :
    AdaptiveIndexData :=
  loaded registry (execute toLowerCase trim registry (start v1) run)

def indexReloaded (registry : Registry) (v1 : Option IndexDataV1) (run : List Step) :
    AdaptiveIndexData :=
  loaded registry (restart (saveIndex (loadIndex registry
    (execute toLowerCase trim registry (start v1) run))))

/-- Every entry comes back with its frequency and last hit, every route that was learned has
an entry of its own, and the data of version 1 lost none. -/
structure RoutesSurvive (registry : Registry) (v1 : Option IndexDataV1) (run : List Step) :
    Prop where
  kept : ∀ name k e, ((indexAfter toLowerCase trim registry v1 run).layer name).get k = some e →
    ∃ e', ((indexReloaded toLowerCase trim registry v1 run).layer name).get k = some e' ∧
      e'.toRoute = e.toRoute ∧ e'.freq = e.freq ∧ e'.lastHit = e.lastHit
  apart : ∀ p ∈ learned run, ∃ k e,
    ((indexReloaded toLowerCase trim registry v1 run).layer p.1).get k = some e ∧ e.toRoute = p.2
  migrated : ∀ old, v1 = some old → ∀ name, ∀ p ∈ old.entries name,
    Holds ((loaded registry (start v1)).layer name) (migrateEntry p.2)

/-- In a run whose routes fit, all that was learned survives. -/
theorem routesSurvive {registry : Registry} {v1 : Option IndexDataV1} {run : List Step}
    (hv1 : ∀ old, v1 = some old → V1Fits registry old)
    (hrun : RunFits toLowerCase trim registry (start v1) run) :
    RoutesSurvive toLowerCase trim registry v1 run := by
  obtain ⟨hdurable, -, hpresent⟩ :=
    run_keeps toLowerCase trim (durable_start registry v1) hrun
  have hreload : indexReloaded toLowerCase trim registry v1 run =
      indexAfter toLowerCase trim registry v1 run := by
    have hsaved := (durable_saveIndex (index_loadIndex registry
      (execute toLowerCase trim registry (start v1) run)) hdurable.wellKept).restored
    rw [indexReloaded, hsaved, indexAfter]
    exact loaded_of_index (by rw [saveIndex, index_loadIndex])
  refine ⟨fun name k e he => ⟨e, hreload ▸ he, rfl, rfl, rfl⟩, fun p hp => ?_, ?_⟩
  · obtain ⟨e, hget, hroute⟩ := hpresent p hp
    exact ⟨_, e, by rw [hreload]; exact hget, hroute⟩
  · rintro old rfl name p hp
    exact holds_migrated (hv1 old rfl) name hp

end

def baselineConcept : List Step := [.call (.confirmRoute 1 (text "x") .concept (text "y") true)]

theorem not_routesSurvive_baselineConcept : ¬ RoutesSurvive id id {} none baselineConcept := by
  intro h
  obtain ⟨k, e, hget, hroute⟩ := h.apart (.baseline, ⟨text "x", .concept, text "y"⟩) (by decide)
  have hnone : (indexReloaded id id {} none baselineConcept).baseline = ObjectMap.empty := by
    decide +kernel
  change (indexReloaded id id {} none baselineConcept).baseline.get k = some e at hget
  rw [hnone, ObjectMap.get_empty] at hget
  cases hget

/-- A concept that is confirmed, and confirmed again after a restart. -/
def confirmedTwice : List Step :=
  [.call (.confirmConcept 1 (text "x") (text "y")), .restart,
    .call (.confirmConcept 2 (text "x") (text "y"))]

theorem routesSurvive_confirmedTwice : RoutesSurvive id id {} none confirmedTwice := by
  refine routesSurvive id id (fun _ h => by cases h) ⟨fun p hp => ?_, trivial, fun p hp => ?_, trivial⟩
  · obtain rfl := List.mem_singleton.mp hp
    intro e he
    cases he
  · obtain rfl := List.mem_singleton.mp hp
    intro e he
    have hget : (indexAfter id id {} none (confirmedTwice.take 2)).personalProfile.get
        (Route.entryKey ⟨text "x", .concept, text "y"⟩) =
        some (makeEntry 1 ⟨text "x", .concept, text "y"⟩ .personalProfile) := by
      decide +kernel
    obtain rfl := Option.some.inj (hget.symm.trans he)
    rfl

end BlessStar.Assistant.AdaptiveIndex
