import BlessStar.Runtime.PluginManager

/-!
# The indexes of the plugin manager

What every clean call keeps: the two indexes hold the same plugins, and each
plugin is destroyed and its handle released once.
-/

namespace BlessStar.Runtime.Proofs.PluginIndexes

open Lib.ByteString Lib.Transition BlessStar.Runtime
open BlessStar.Runtime.PluginManager

/-- What holds of a manager: the indexes agree, nothing is called that is not
exported, and once the manager is destroyed every plugin has been. -/
structure PluginsSound (w : PluginManager) : Prop where
  same : w.byName.Perm w.byType
  once : w.byName.Nodup
  names : (w.plugins.map Prod.fst).Nodup
  types : (w.pluginsByType.map Prod.fst).Nodup
  exported : ∀ fn p, .call fn p ∈ w.trace → w.libs p fn = true
  ended : w.destroyed = true → ∀ p, .loaded p ∈ w.trace →
    w.trace.count (.call .destroy p) = 1 ∧ w.trace.count (.release p) = 1

def KeepsPointers (acts : PluginActs) : Prop :=
  ∀ fn p r, (acts fn p r).2.handle = r.handle ∧ (acts fn p r).2.fns = r.fns

def loadedRecord (acts : PluginActs) (ex : PluginFn → Bool) (p : Nat) : Plugin :=
  (startLoaded acts p
    { (acts .init p { handle := some p, fns := ex }).2 with state := .loaded }).record

def FreshName (acts : PluginActs) (library : Option (PluginFn → Bool)) (w : PluginManager) : Prop :=
  ∀ ex, library = some ex → (loadedRecord acts ex w.next).key ∉ w.plugins.map Prod.fst

def KeepsType (acts : PluginActs) (name : Bytes) (w : PluginManager) : Prop :=
  ∀ p, w.plugins.lookup name = some p →
    ∃ l, w.pluginsByType.lookup (shutDown acts p (w.records p)).record.type = some l ∧ p ∈ l

def CanEnd (acts : PluginActs) (p : Nat) (r : Plugin) : Prop :=
  (r.state = .active → r.fns .stop = true ∧ (acts .stop p r).2.state ≠ .unloaded) ∧
    r.state ≠ .unloaded

def Clean (w : PluginManager) (e : PluginStep) : Prop :=
  KeepsPointers e.acts ∧
    match e.call with
    | .load library => FreshName e.acts library w
    | .unload name => KeepsType e.acts name w
    | .reload name library =>
        ∀ p, w.plugins.lookup name = some p →
          KeepsType e.acts name (w.getPath e.acts p).2 ∧
            FreshName e.acts library ((w.getPath e.acts p).2.unload e.acts name).2
    | .startAll _ => True
    | .stopAll _ => True
    | .destroy _ => ∀ p ∈ w.byName, CanEnd e.acts p (w.records p)

theorem setKey_of_notMem {key : Bytes} {plugins : List (Bytes × Nat)} (p : Nat)
    (h : key ∉ plugins.map Prod.fst) : setKey key p plugins = plugins ++ [(key, p)] := by
  induction plugins with
  | nil => rfl
  | cons kv rest ih =>
      rw [List.map_cons, List.mem_cons, not_or] at h
      rw [setKey, if_neg (fun heq => h.1 heq.symm), ih h.2, List.cons_append]

theorem map_fst_modifyAt (f : List Nat → List Nat) (t : Nat) (types : List (Nat × List Nat)) :
    (modifyAt f t types).map Prod.fst =
      if t ∈ types.map Prod.fst then types.map Prod.fst else types.map Prod.fst ++ [t] := by
  induction types with
  | nil => rfl
  | cons ul rest ih =>
      rw [modifyAt]
      by_cases hu : ul.1 = t
      · simp [hu]
      · have hu' : t ≠ ul.1 := Ne.symm hu
        simp only [if_neg hu, List.map_cons, List.mem_cons, hu', false_or, ih]
        split <;> rfl

theorem nodup_snoc {α : Type} {l : List α} {a : α} (h : l.Nodup) (ha : a ∉ l) :
    (l ++ [a]).Nodup := by
  rw [← List.concat_eq_append]
  exact h.concat ha

theorem nodup_modifyAt {types : List (Nat × List Nat)} (h : (types.map Prod.fst).Nodup)
    (f : List Nat → List Nat) (t : Nat) : ((modifyAt f t types).map Prod.fst).Nodup := by
  rw [map_fst_modifyAt]
  split
  · exact h
  · rename_i hnew
    exact nodup_snoc h hnew

theorem perm_modifyAt_push (p t : Nat) (types : List (Nat × List Nat)) :
    ((modifyAt (· ++ [p]) t types).flatMap Prod.snd).Perm (types.flatMap Prod.snd ++ [p]) := by
  induction types with
  | nil => rfl
  | cons ul rest ih =>
      rw [modifyAt]
      split
      · rw [List.flatMap_cons, List.flatMap_cons, List.append_assoc, List.append_assoc]
        exact List.perm_append_comm.append_left _
      · rw [List.flatMap_cons, List.flatMap_cons, List.append_assoc]
        exact ih.append_left _

theorem perm_modifyAt_erase {p t : Nat} {types : List (Nat × List Nat)} {l : List Nat}
    (ht : types.lookup t = some l) (hp : p ∈ l) :
    (p :: (modifyAt (·.erase p) t types).flatMap Prod.snd).Perm (types.flatMap Prod.snd) := by
  induction types with
  | nil => cases ht
  | cons ul rest ih =>
      rw [modifyAt]
      by_cases hu : ul.1 = t
      · rw [List.lookup_cons, hu, BEq.rfl] at ht
        have hl : ul.2 = l := Option.some.inj ht
        rw [if_pos hu, List.flatMap_cons, List.flatMap_cons, ← List.cons_append]
        exact (List.perm_cons_erase (hl ▸ hp)).symm.append_right _
      · have hbeq : (t == ul.1) = false := by simpa using Ne.symm hu
        rw [List.lookup_cons, hbeq] at ht
        rw [if_neg hu, List.flatMap_cons, List.flatMap_cons]
        exact List.perm_middle.symm.trans ((ih ht).append_left _)

theorem exists_split_lookup {plugins : List (Bytes × Nat)} {name : Bytes} {p : Nat}
    (h : plugins.lookup name = some p) :
    ∃ pre post, plugins = pre ++ (name, p) :: post ∧
      (plugins.eraseP fun kv => kv.1 = name) = pre ++ post := by
  induction plugins with
  | nil => cases h
  | cons kv rest ih =>
      by_cases hk : kv.1 = name
      · rw [List.lookup_cons, hk, BEq.rfl] at h
        have hp : kv.2 = p := Option.some.inj h
        refine ⟨[], rest, by rw [List.nil_append, ← hk, ← hp], ?_⟩
        rw [List.eraseP_cons_of_pos (by simpa using hk), List.nil_append]
      · have hbeq : (name == kv.1) = false := by simpa using Ne.symm hk
        rw [List.lookup_cons, hbeq] at h
        obtain ⟨pre, post, hsplit, herase⟩ := ih h
        refine ⟨kv :: pre, post, by rw [hsplit, List.cons_append], ?_⟩
        rw [List.eraseP_cons_of_neg (by simpa using hk), herase, List.cons_append]

structure Indexed (w : PluginManager) : Prop where
  same : w.byName.Perm w.byType
  once : w.byName.Nodup
  names : (w.plugins.map Prod.fst).Nodup
  types : (w.pluginsByType.map Prod.fst).Nodup

theorem Indexed.insert {w w' : PluginManager} (h : Indexed w) {key : Bytes} {p t : Nat}
    (hkey : key ∉ w.plugins.map Prod.fst) (hp : p ∉ w.byName)
    (hplugins : w'.plugins = setKey key p w.plugins)
    (htypes : w'.pluginsByType = modifyAt (· ++ [p]) t w.pluginsByType) :
    Indexed w' ∧ w'.byName = w.byName ++ [p] := by
  rw [setKey_of_notMem p hkey] at hplugins
  have hnames : w'.byName = w.byName ++ [p] := by
    rw [byName, hplugins, List.map_append]
    rfl
  refine ⟨⟨?_, ?_, ?_, ?_⟩, hnames⟩
  · rw [hnames, byType, htypes]
    exact (h.same.append_right [p]).trans (perm_modifyAt_push p t w.pluginsByType).symm
  · rw [hnames]
    exact nodup_snoc h.once hp
  · rw [hplugins, List.map_append]
    exact nodup_snoc h.names hkey
  · rw [htypes]
    exact nodup_modifyAt h.types _ t

theorem Indexed.remove {w w' : PluginManager} (h : Indexed w) {name : Bytes} {p t : Nat}
    {l : List Nat} (hname : w.plugins.lookup name = some p)
    (ht : w.pluginsByType.lookup t = some l) (hp : p ∈ l)
    (hplugins : w'.plugins = w.plugins.eraseP fun kv => kv.1 = name)
    (htypes : w'.pluginsByType = modifyAt (·.erase p) t w.pluginsByType) :
    Indexed w' ∧ p ∈ w.byName ∧ ∀ q, q ∈ w'.byName ↔ q ∈ w.byName ∧ q ≠ p := by
  obtain ⟨pre, post, hsplit, herase⟩ := exists_split_lookup hname
  rw [herase] at hplugins
  have hold : w.byName.Perm (p :: w'.byName) := by
    rw [byName, byName, hplugins, hsplit, List.map_append, List.map_append, List.map_cons]
    exact List.perm_middle
  have hnodup : (p :: w'.byName).Nodup := hold.nodup_iff.mp h.once
  refine ⟨⟨?_, (List.nodup_cons.mp hnodup).2, ?_, ?_⟩, hold.mem_iff.mpr List.mem_cons_self, ?_⟩
  · apply (List.perm_cons p).mp
    rw [byType, htypes]
    exact (hold.symm.trans h.same).trans (perm_modifyAt_erase ht hp).symm
  · have hnames := h.names
    rw [hsplit, List.map_append, List.map_cons] at hnames
    rw [hplugins, List.map_append]
    exact (List.nodup_middle.mp hnames).of_cons
  · rw [htypes]
    exact nodup_modifyAt h.types _ t
  · intro q
    rw [hold.mem_iff, List.mem_cons]
    constructor
    · intro hq
      exact ⟨Or.inr hq, fun heq => (List.nodup_cons.mp hnodup).1 (heq ▸ hq)⟩
    · rintro ⟨rfl | hq, hne⟩
      · exact absurd rfl hne
      · exact hq

/-- Calls of exported functions of `p`, none of them `destroy`. -/
def Harmless (lib : PluginFn → Bool) (p : Nat) (events : List PluginEvent) : Prop :=
  ∀ e ∈ events, ∃ fn, e = .call fn p ∧ fn ≠ .destroy ∧ lib fn = true

def about : PluginEvent → Nat
  | .call _ p => p
  | .release h => h
  | .loaded p => p

/-- What the trace says, when the plugins of `live` are still in the manager. -/
structure Accounts (live : List Nat) (w : PluginManager) : Prop where
  record : ∀ p ∈ live, (w.records p).handle = some p ∧ (w.records p).fns = w.libs p ∧
    w.libs p .destroy = true
  lt : ∀ p ∈ live, p < w.next
  fresh : ∀ e ∈ w.trace, about e < w.next
  exported : ∀ fn p, .call fn p ∈ w.trace → w.libs p fn = true
  held : ∀ p ∈ live, w.trace.count (.call .destroy p) = 0 ∧ w.trace.count (.release p) = 0
  ended : ∀ p, .loaded p ∈ w.trace → p ∉ live →
    w.trace.count (.call .destroy p) = 1 ∧ w.trace.count (.release p) = 1

theorem Accounts.congr {live live' : List Nat} {w w' : PluginManager} (h : Accounts live w)
    (hlive : ∀ p, p ∈ live' ↔ p ∈ live) (hrecords : w'.records = w.records) (hnext : w'.next = w.next)
    (hlibs : w'.libs = w.libs) (htrace : w'.trace = w.trace) : Accounts live' w' := by
  constructor
  · intro p hp
    rw [hrecords, hlibs]
    exact h.record p ((hlive p).mp hp)
  · intro p hp
    rw [hnext]
    exact h.lt p ((hlive p).mp hp)
  · rw [htrace, hnext]
    exact h.fresh
  · rw [htrace, hlibs]
    exact h.exported
  · intro p hp
    rw [htrace]
    exact h.held p ((hlive p).mp hp)
  · intro p hloaded hp
    rw [htrace] at hloaded ⊢
    exact h.ended p hloaded fun hlive' => hp ((hlive p).mpr hlive')

theorem count_harmless {lib : PluginFn → Bool} {p : Nat} {events : List PluginEvent}
    (h : Harmless lib p events) (q : Nat) :
    events.count (.call .destroy q) = 0 ∧ events.count (.release q) = 0 := by
  constructor
  · rw [List.count_eq_zero]
    intro hmem
    obtain ⟨fn, heq, hne, -⟩ := h _ hmem
    cases heq
    exact hne rfl
  · rw [List.count_eq_zero]
    intro hmem
    obtain ⟨fn, heq, -⟩ := h _ hmem
    cases heq

theorem Accounts.put {live : List Nat} {w : PluginManager} (h : Accounts live w) {p : Nat}
    (hp : p ∈ live) {t : PluginTurn} (hharmless : Harmless (w.libs p) p t.events)
    (hhandle : t.record.handle = (w.records p).handle) (hfns : t.record.fns = (w.records p).fns) :
    Accounts live (w.put p t) := by
  have hloaded : ∀ q, .loaded q ∈ w.trace ++ t.events → .loaded q ∈ w.trace := by
    intro q hq
    rcases List.mem_append.mp hq with hq | hq
    · exact hq
    · obtain ⟨fn, heq, -⟩ := hharmless _ hq
      cases heq
  have hcount : ∀ q, (w.trace ++ t.events).count (.call .destroy q) =
      w.trace.count (.call .destroy q) ∧
      (w.trace ++ t.events).count (.release q) = w.trace.count (.release q) := by
    intro q
    obtain ⟨hdestroy, hrelease⟩ := count_harmless hharmless q
    rw [List.count_append, List.count_append, hdestroy, hrelease]
    exact ⟨rfl, rfl⟩
  constructor
  · intro q hq
    dsimp only [PluginManager.put]
    by_cases hqp : q = p
    · rw [hqp, Function.update_self, hhandle, hfns]
      exact h.record p hp
    · rw [Function.update_of_ne hqp]
      exact h.record q hq
  · exact h.lt
  · intro e he
    rcases List.mem_append.mp he with he | he
    · exact h.fresh e he
    · obtain ⟨fn, rfl, -⟩ := hharmless e he
      exact h.lt p hp
  · intro fn q hq
    rcases List.mem_append.mp hq with hq | hq
    · exact h.exported fn q hq
    · obtain ⟨fn', heq, -, hlib⟩ := hharmless _ hq
      cases heq
      exact hlib
  · intro q hq
    obtain ⟨hdestroy, hrelease⟩ := hcount q
    dsimp only [PluginManager.put]
    rw [hdestroy, hrelease]
    exact h.held q hq
  · intro q hq hlive
    obtain ⟨hdestroy, hrelease⟩ := hcount q
    dsimp only [PluginManager.put] at hq ⊢
    rw [hdestroy, hrelease]
    exact h.ended q (hloaded q hq) hlive

structure Ends (lib : PluginFn → Bool) (p : Nat) (events : List PluginEvent) : Prop where
  split : ∃ calls, events = calls ++ [.call .destroy p, .release p] ∧ Harmless lib p calls

theorem Accounts.finish {live live' : List Nat} {w : PluginManager} (h : Accounts live w) {p : Nat}
    (hp : p ∈ live) (hlive : ∀ q, q ∈ live' ↔ q ∈ live ∧ q ≠ p) {t : PluginTurn}
    (hends : Ends (w.libs p) p t.events) : Accounts live' (w.put p t) := by
  obtain ⟨calls, hevents, hharmless⟩ := hends
  have hcount : ∀ q, (w.trace ++ t.events).count (.call .destroy q) =
      w.trace.count (.call .destroy q) + (if q = p then 1 else 0) ∧
      (w.trace ++ t.events).count (.release q) =
        w.trace.count (.release q) + (if q = p then 1 else 0) := by
    intro q
    obtain ⟨hdestroy, hrelease⟩ := count_harmless hharmless q
    rw [hevents, List.count_append, List.count_append, List.count_append, List.count_append,
      hdestroy, hrelease]
    by_cases hqp : q = p
    · simp [hqp]
    · simp [hqp, Ne.symm hqp]
  have hmem : ∀ e ∈ t.events, (∃ fn, e = .call fn p ∧ w.libs p fn = true) ∨ e = .release p := by
    intro e he
    rw [hevents] at he
    rcases List.mem_append.mp he with he | he
    · obtain ⟨fn, heq, -, hlib⟩ := hharmless e he
      exact Or.inl ⟨fn, heq, hlib⟩
    · rcases List.mem_pair.mp he with he | he
      · exact Or.inl ⟨.destroy, he, (h.record p hp).2.2⟩
      · exact Or.inr he
  constructor
  · intro q hq
    obtain ⟨hq, hne⟩ := (hlive q).mp hq
    dsimp only [PluginManager.put]
    rw [Function.update_of_ne hne]
    exact h.record q hq
  · exact fun q hq => h.lt q ((hlive q).mp hq).1
  · intro e he
    rcases List.mem_append.mp he with he | he
    · exact h.fresh e he
    · rcases hmem e he with ⟨fn, rfl, -⟩ | rfl
      · exact h.lt p hp
      · exact h.lt p hp
  · intro fn q hq
    rcases List.mem_append.mp hq with hq | hq
    · exact h.exported fn q hq
    · rcases hmem _ hq with ⟨fn', heq, hlib⟩ | heq
      · cases heq
        exact hlib
      · cases heq
  · intro q hq
    obtain ⟨hq, hne⟩ := (hlive q).mp hq
    obtain ⟨hdestroy, hrelease⟩ := hcount q
    rw [if_neg hne] at hdestroy hrelease
    dsimp only [PluginManager.put]
    rw [hdestroy, hrelease]
    exact h.held q hq
  · intro q hq hlive'
    obtain ⟨hdestroy, hrelease⟩ := hcount q
    dsimp only [PluginManager.put] at hq ⊢
    rw [hdestroy, hrelease]
    by_cases hqp : q = p
    · rw [if_pos hqp, hqp, (h.held p hp).1, (h.held p hp).2]
      exact ⟨rfl, rfl⟩
    · rw [if_neg hqp]
      have hold : .loaded q ∈ w.trace := by
        rcases List.mem_append.mp hq with hq | hq
        · exact hq
        · rcases hmem _ hq with ⟨fn, heq, -⟩ | heq <;> cases heq
      exact h.ended q hold fun hq => hlive' ((hlive q).mpr ⟨hq, hqp⟩)

section Turns

variable {acts : PluginActs} {lib : PluginFn → Bool} {p : Nat} {r : Plugin}

theorem harmless_nil : Harmless lib p [] := fun _ he => absurd he List.not_mem_nil

theorem harmless_call {fn : PluginFn} (hne : fn ≠ .destroy) (hfn : lib fn = true) :
    Harmless lib p [.call fn p] := by
  intro e he
  exact ⟨fn, List.mem_singleton.mp he, hne, hfn⟩

structure Quiet (lib : PluginFn → Bool) (p : Nat) (r : Plugin) (t : PluginTurn) : Prop where
  harmless : Harmless lib p t.events
  handle : t.record.handle = r.handle
  fns : t.record.fns = r.fns

theorem quiet_startLoaded (hacts : KeepsPointers acts) (hfns : r.fns = lib) :
    Quiet lib p r (startLoaded acts p r) := by
  obtain ⟨hhandle, hsame⟩ := hacts .start p r
  unfold startLoaded
  split
  · rename_i hstart
    have hcall : Harmless lib p [.call .start p] := harmless_call (by decide) (hfns ▸ hstart)
    dsimp only
    split
    · exact ⟨hcall, hhandle, hsame⟩
    · exact ⟨hcall, hhandle, hsame⟩
  · exact ⟨harmless_nil, rfl, rfl⟩

theorem quiet_startOne (hacts : KeepsPointers acts) (hfns : r.fns = lib) :
    Quiet lib p r (startOne acts p r) := by
  obtain ⟨hhandle, hsame⟩ := hacts .start p r
  unfold startOne
  split
  · rename_i hstart
    have hcall : Harmless lib p [.call .start p] := harmless_call (by decide) (hfns ▸ hstart.2)
    dsimp only
    split
    · exact ⟨hcall, hhandle, hsame⟩
    · exact ⟨hcall, hhandle, hsame⟩
  · exact ⟨harmless_nil, rfl, rfl⟩

theorem quiet_stopOne (hacts : KeepsPointers acts) (hfns : r.fns = lib) :
    Quiet lib p r (stopOne acts p r) := by
  obtain ⟨hhandle, hsame⟩ := hacts .stop p r
  unfold stopOne
  split
  · rename_i hstop
    have hcall : Harmless lib p [.call .stop p] := harmless_call (by decide) (hfns ▸ hstop.2)
    dsimp only
    split
    · exact ⟨hcall, hhandle, hsame⟩
    · exact ⟨hcall, hhandle, hsame⟩
  · exact ⟨harmless_nil, rfl, rfl⟩

theorem ends_of_calls (hacts : KeepsPointers acts) {s : PluginTurn}
    (hcalls : Harmless lib p s.events) (hhandle : s.record.handle = some p) :
    Ends lib p ((s.events ++ [.call .destroy p]) ++ dlUnload (acts .destroy p s.record).2) := by
  have hkeeps := (hacts .destroy p s.record).1
  refine ⟨s.events, ?_, hcalls⟩
  rw [dlUnload, hkeeps, hhandle, List.append_assoc]
  rfl

theorem ends_shutDown (hacts : KeepsPointers acts) (hhandle : r.handle = some p)
    (hfns : r.fns = lib) (hdestroy : lib .destroy = true) :
    Ends lib p (shutDown acts p r).events := by
  obtain ⟨hstopHandle, hstopFns⟩ := hacts .stop p r
  unfold shutDown
  dsimp only
  by_cases hstop : r.state = .active ∧ r.fns .stop = true
  · rw [if_pos hstop]
    dsimp only
    rw [if_pos (by rw [hstopFns, hfns, hdestroy])]
    have hcall : Harmless lib p [.call .stop p] := harmless_call (by decide) (hfns ▸ hstop.2)
    exact ends_of_calls hacts (s := ⟨[.call .stop p], (acts .stop p r).2, false⟩) hcall
      (hstopHandle.trans hhandle)
  · rw [if_neg hstop]
    dsimp only
    rw [if_pos (by rw [hfns, hdestroy])]
    exact ends_of_calls hacts (s := ⟨[], r, false⟩) harmless_nil hhandle

theorem ends_destroyPlugin (hacts : KeepsPointers acts) (hhandle : r.handle = some p)
    (hfns : r.fns = lib) (hend : CanEnd acts p r) : Ends lib p (destroyPlugin acts p r).events := by
  obtain ⟨hstopHandle, hstopFns⟩ := hacts .stop p r
  unfold destroyPlugin
  dsimp only
  by_cases hactive : r.state = .active
  · obtain ⟨hstop, hstopped⟩ := hend.1 hactive
    rw [if_pos hactive]
    dsimp only
    rw [if_pos hstopped]
    have hcall : Harmless lib p [.call .stop p] := harmless_call (by decide) (hfns ▸ hstop)
    exact ends_of_calls hacts (s := ⟨[.call .stop p], (acts .stop p r).2, false⟩) hcall
      (hstopHandle.trans hhandle)
  · rw [if_neg hactive]
    dsimp only
    rw [if_pos hend.2]
    exact ends_of_calls hacts (s := ⟨[], r, false⟩) harmless_nil hhandle

end Turns

theorem forEach_frame (turn : Nat → Plugin → PluginTurn) (order : List Nat) (w : PluginManager) :
    (forEach turn order w).2.plugins = w.plugins ∧
      (forEach turn order w).2.pluginsByType = w.pluginsByType ∧
      (forEach turn order w).2.destroyed = w.destroyed := by
  induction order generalizing w with
  | nil => exact ⟨rfl, rfl, rfl⟩
  | cons p order ih => exact ih (w.put p (turn p (w.records p)))

theorem Accounts.forEach {live : List Nat} {turn : Nat → Plugin → PluginTurn}
    (hturn : ∀ lib p r, r.fns = lib → Quiet lib p r (turn p r)) {order : List Nat}
    (horder : ∀ p ∈ order, p ∈ live) {w : PluginManager} (h : Accounts live w) :
    Accounts live (forEach turn order w).2 := by
  induction order generalizing w with
  | nil => exact h
  | cons p order ih =>
      obtain ⟨hp, hrest⟩ := List.forall_mem_cons.mp horder
      have hquiet := hturn (w.libs p) p (w.records p) (h.record p hp).2.1
      exact ih hrest (h.put hp hquiet.harmless hquiet.handle hquiet.fns)

theorem Accounts.destroyAll {acts : PluginActs} (hacts : KeepsPointers acts) {order : List Nat}
    (hnodup : order.Nodup) {w : PluginManager} (hend : ∀ p ∈ order, CanEnd acts p (w.records p))
    (h : Accounts order w) :
    Accounts [] (PluginManager.forEach (destroyPlugin acts) order w).2 := by
  induction order generalizing w with
  | nil => exact h
  | cons p order ih =>
      obtain ⟨hp, hrest⟩ := List.nodup_cons.mp hnodup
      obtain ⟨hcan, hcans⟩ := List.forall_mem_cons.mp hend
      obtain ⟨hhandle, hfns, -⟩ := h.record p List.mem_cons_self
      have hlive : ∀ q, q ∈ order ↔ q ∈ p :: order ∧ q ≠ p := by
        intro q
        rw [List.mem_cons]
        constructor
        · intro hq
          exact ⟨Or.inr hq, fun heq => hp (heq ▸ hq)⟩
        · rintro ⟨rfl | hq, hne⟩
          · exact absurd rfl hne
          · exact hq
      refine ih hrest ?_ (h.finish List.mem_cons_self hlive (ends_destroyPlugin hacts hhandle hfns hcan))
      intro q hq
      dsimp only [PluginManager.put]
      rw [Function.update_of_ne fun heq : q = p => hp (heq ▸ hq)]
      exact hcans q hq

theorem Accounts.count_fresh {live : List Nat} {w : PluginManager} (h : Accounts live w)
    {e : PluginEvent} (he : w.next ≤ about e) : w.trace.count e = 0 := by
  rw [List.count_eq_zero]
  intro hmem
  have hlt := h.fresh e hmem
  omega

theorem Accounts.opened {live : List Nat} {w : PluginManager} (h : Accounts live w)
    (ex : PluginFn → Bool) : Accounts live (w.opened ex) := by
  have hne : ∀ q ∈ live, q ≠ w.next := fun q hq => Nat.ne_of_lt (h.lt q hq)
  constructor
  · intro q hq
    dsimp only [PluginManager.opened]
    rw [Function.update_of_ne (hne q hq), Function.update_of_ne (hne q hq)]
    exact h.record q hq
  · exact fun q hq => Nat.lt_succ_of_lt (h.lt q hq)
  · exact fun e he => Nat.lt_succ_of_lt (h.fresh e he)
  · intro fn q hq
    have hlt : q < w.next := h.fresh _ hq
    dsimp only [PluginManager.opened]
    rw [Function.update_of_ne (Nat.ne_of_lt hlt)]
    exact h.exported fn q hq
  · exact h.held
  · exact h.ended

theorem Accounts.enter {live : List Nat} {w : PluginManager} (h : Accounts live w)
    {ex : PluginFn → Bool} (hdestroy : ex .destroy = true) :
    Accounts (w.next :: live) (w.opened ex) := by
  have hopened := h.opened ex
  constructor
  · intro q hq
    rcases List.mem_cons.mp hq with rfl | hq
    · dsimp only [PluginManager.opened]
      rw [Function.update_self, Function.update_self]
      exact ⟨rfl, rfl, hdestroy⟩
    · exact hopened.record q hq
  · intro q hq
    rcases List.mem_cons.mp hq with rfl | hq
    · exact Nat.lt_succ_self _
    · exact hopened.lt q hq
  · exact hopened.fresh
  · exact hopened.exported
  · intro q hq
    rcases List.mem_cons.mp hq with rfl | hq
    · exact ⟨h.count_fresh (Nat.le_refl _), h.count_fresh (Nat.le_refl _)⟩
    · exact hopened.held q hq
  · exact fun q hq hlive => hopened.ended q hq fun hmem => hlive (List.mem_cons_of_mem _ hmem)

theorem Accounts.close {live : List Nat} {w : PluginManager} (h : Accounts live w) {p : Nat}
    (hp : p ∉ live) (hlt : p < w.next) (hloaded : .loaded p ∉ w.trace) :
    Accounts live (w.close p) := by
  have hcount : ∀ q, q ≠ p → (w.trace ++ [PluginEvent.release p]).count (.call .destroy q) =
      w.trace.count (.call .destroy q) ∧
      (w.trace ++ [PluginEvent.release p]).count (.release q) = w.trace.count (.release q) := by
    intro q hq
    rw [List.count_append, List.count_append]
    simp [Ne.symm hq]
  constructor
  · exact h.record
  · exact h.lt
  · intro e he
    rcases List.mem_append.mp he with he | he
    · exact h.fresh e he
    · rw [List.mem_singleton.mp he]
      exact hlt
  · intro fn q hq
    rcases List.mem_append.mp hq with hq | hq
    · exact h.exported fn q hq
    · cases List.mem_singleton.mp hq
  · intro q hq
    obtain ⟨hdestroy, hrelease⟩ := hcount q fun heq => hp (heq ▸ hq)
    dsimp only [PluginManager.close]
    rw [hdestroy, hrelease]
    exact h.held q hq
  · intro q hq hlive
    dsimp only [PluginManager.close] at hq ⊢
    rcases List.mem_append.mp hq with hq | hq
    · obtain ⟨hdestroy, hrelease⟩ := hcount q fun heq => hloaded (heq ▸ hq)
      rw [hdestroy, hrelease]
      exact h.ended q hq hlive
    · cases List.mem_singleton.mp hq

theorem Accounts.drop {live : List Nat} {w : PluginManager} {p : Nat} (h : Accounts (p :: live) w)
    (hloaded : .loaded p ∉ w.trace) : Accounts live w := by
  constructor
  · exact fun q hq => h.record q (List.mem_cons_of_mem _ hq)
  · exact fun q hq => h.lt q (List.mem_cons_of_mem _ hq)
  · exact h.fresh
  · exact h.exported
  · exact fun q hq => h.held q (List.mem_cons_of_mem _ hq)
  · intro q hq hlive
    refine h.ended q hq fun hmem => ?_
    rcases List.mem_cons.mp hmem with rfl | hmem
    · exact hloaded hq
    · exact hlive hmem

theorem Accounts.loaded {live : List Nat} {w : PluginManager} {p : Nat} (h : Accounts live w)
    (hp : p ∈ live) : Accounts live { w with trace := w.trace ++ [.loaded p] } := by
  have hcount : ∀ q, (w.trace ++ [PluginEvent.loaded p]).count (.call .destroy q) =
      w.trace.count (.call .destroy q) ∧
      (w.trace ++ [PluginEvent.loaded p]).count (.release q) = w.trace.count (.release q) := by
    intro q
    rw [List.count_append, List.count_append]
    simp
  constructor
  · exact h.record
  · exact h.lt
  · intro e he
    rcases List.mem_append.mp he with he | he
    · exact h.fresh e he
    · rw [List.mem_singleton.mp he]
      exact h.lt p hp
  · intro fn q hq
    rcases List.mem_append.mp hq with hq | hq
    · exact h.exported fn q hq
    · cases List.mem_singleton.mp hq
  · intro q hq
    dsimp only
    rw [(hcount q).1, (hcount q).2]
    exact h.held q hq
  · intro q hq hlive
    dsimp only at hq ⊢
    rw [(hcount q).1, (hcount q).2]
    rcases List.mem_append.mp hq with hq | hq
    · exact h.ended q hq hlive
    · cases List.mem_singleton.mp hq
      exact absurd hp hlive

structure PluginsInv (w : PluginManager) : Prop where
  indexed : Indexed w
  accounts : Accounts w.byName w
  alive : w.destroyed = false

theorem PluginsInv.initial : PluginsInv {} := by
  refine ⟨⟨List.Perm.refl _, List.nodup_nil, List.nodup_nil, List.nodup_nil⟩, ?_, rfl⟩
  constructor
  · exact fun p hp => absurd hp List.not_mem_nil
  · exact fun p hp => absurd hp List.not_mem_nil
  · exact fun e he => absurd he List.not_mem_nil
  · exact fun fn p hp => absurd hp List.not_mem_nil
  · exact fun p hp => absurd hp List.not_mem_nil
  · exact fun p hp => absurd hp List.not_mem_nil

theorem PluginsInv.same {w w' : PluginManager} (h : PluginsInv w) (haccounts : Accounts w.byName w')
    (hplugins : w'.plugins = w.plugins) (htypes : w'.pluginsByType = w.pluginsByType)
    (halive : w'.destroyed = w.destroyed) : PluginsInv w' := by
  have hname : w'.byName = w.byName := by rw [byName, byName, hplugins]
  have htype : w'.byType = w.byType := by rw [byType, byType, htypes]
  refine ⟨⟨?_, ?_, ?_, ?_⟩, hname ▸ haccounts, halive.trans h.alive⟩
  · rw [hname, htype]
    exact h.indexed.same
  · rw [hname]
    exact h.indexed.once
  · rw [hplugins]
    exact h.indexed.names
  · rw [htypes]
    exact h.indexed.types

theorem PluginsInv.enlist {w w' : PluginManager} (h : PluginsInv w) {p : Nat}
    (haccounts : Accounts (p :: w.byName) w') (hp : p ∉ w.byName)
    (hkey : (w'.records p).key ∉ w.plugins.map Prod.fst) (hplugins : w'.plugins = w.plugins)
    (htypes : w'.pluginsByType = w.pluginsByType) (halive : w'.destroyed = w.destroyed) :
    PluginsInv (w'.enlist p) := by
  have hinsert : Indexed (w'.enlist p) ∧ (w'.enlist p).byName = w.byName ++ [p] :=
    h.indexed.insert hkey hp (by rw [PluginManager.enlist, hplugins])
      (by rw [PluginManager.enlist, htypes])
  obtain ⟨hindexed, hnames⟩ := hinsert
  refine ⟨hindexed, ?_, halive.trans h.alive⟩
  refine (haccounts.loaded List.mem_cons_self).congr (fun q => ?_) rfl rfl rfl rfl
  rw [hnames, List.mem_append, List.mem_singleton, List.mem_cons, or_comm]

theorem PluginsInv.load {w : PluginManager} (h : PluginsInv w) {acts : PluginActs}
    (hacts : KeepsPointers acts) {library : Option (PluginFn → Bool)}
    (hfresh : FreshName acts library w) : PluginsInv (w.load acts library).2 := by
  cases library with
  | none => exact h
  | some ex =>
      have hnew : w.next ∉ w.byName := fun hmem => absurd (h.accounts.lt _ hmem) (Nat.lt_irrefl _)
      have hunloaded : PluginEvent.loaded w.next ∉ w.trace :=
        fun hmem => absurd (h.accounts.fresh _ hmem) (Nat.lt_irrefl _)
      unfold PluginManager.load
      dsimp only
      split
      · have hclosed := (h.accounts.opened ex).close hnew (Nat.lt_succ_self _) hunloaded
        exact h.same hclosed rfl rfl rfl
      rename_i hexports
      have hinit : ex .init = true := by
        by_contra hno
        exact hexports (Or.inl (Bool.not_eq_true _ ▸ hno))
      have hdestroy : ex .destroy = true := by
        by_contra hno
        exact hexports (Or.inr (Bool.not_eq_true _ ▸ hno))
      have hentered := h.accounts.enter hdestroy
      have hrecord : (w.opened ex).records w.next = { handle := some w.next, fns := ex } :=
        Function.update_self ..
      have hlib : (w.opened ex).libs w.next = ex := Function.update_self ..
      obtain ⟨hhandle, hfns⟩ := hacts .init w.next { handle := some w.next, fns := ex }
      rw [hrecord]
      have hput := hentered.put List.mem_cons_self
        (t := ⟨[.call .init w.next],
          { (acts .init w.next { handle := some w.next, fns := ex }).2 with state := .loaded },
          false⟩)
        (harmless_call (by decide) (by rw [hlib]; exact hinit)) (by rw [hrecord]; exact hhandle)
        (by rw [hrecord]; exact hfns)
      split
      · have hcalled : PluginEvent.loaded w.next ∉ w.trace ++ [.call .init w.next] := by
          simpa using hunloaded
        have hclosed := (hput.drop hcalled).close hnew (Nat.lt_succ_self _) hcalled
        exact h.same hclosed rfl rfl rfl
      · generalize ht : PluginTurn.mk [.call .init w.next]
          { (acts .init w.next { handle := some w.next, fns := ex }).2 with state := .loaded }
          false = t at hput ⊢
        have hinited : ((w.opened ex).put w.next t).records w.next = t.record :=
          Function.update_self ..
        have hstarted : (startLoaded acts w.next t.record).record = loadedRecord acts ex w.next := by
          rw [← ht]
          rfl
        have hquiet := quiet_startLoaded (p := w.next) hacts
          ((congrArg Plugin.fns hinited).symm.trans (hput.record w.next List.mem_cons_self).2.1)
        rw [hinited]
        have hstart := hput.put List.mem_cons_self hquiet.harmless
          (by rw [hinited]; exact hquiet.handle) (by rw [hinited]; exact hquiet.fns)
        have hlast : (((w.opened ex).put w.next t).put w.next
            (startLoaded acts w.next t.record)).records w.next = loadedRecord acts ex w.next :=
          (Function.update_self ..).trans hstarted
        exact h.enlist hstart hnew (by rw [hlast]; exact hfresh ex rfl) rfl rfl rfl

theorem PluginsInv.unload {w : PluginManager} (h : PluginsInv w) {acts : PluginActs}
    (hacts : KeepsPointers acts) {name : Bytes} (htype : KeepsType acts name w) :
    PluginsInv (w.unload acts name).2 := by
  unfold PluginManager.unload
  cases hname : w.plugins.lookup name with
  | none => exact h
  | some p =>
      obtain ⟨l, hl, hp⟩ := htype p hname
      have hrecord : (w.put p (shutDown acts p (w.records p))).records p =
          (shutDown acts p (w.records p)).record := Function.update_self ..
      have hremove : Indexed ((w.put p (shutDown acts p (w.records p))).delist name p) ∧
          p ∈ w.byName ∧
          ∀ q, q ∈ ((w.put p (shutDown acts p (w.records p))).delist name p).byName ↔
            q ∈ w.byName ∧ q ≠ p :=
        h.indexed.remove hname hl hp rfl
          (congrArg (fun r : Plugin => modifyAt (·.erase p) r.type w.pluginsByType) hrecord)
      obtain ⟨hindexed, hmem, hlive⟩ := hremove
      obtain ⟨hhandle, hfns, hdestroy⟩ := h.accounts.record p hmem
      have haccounts := h.accounts.finish hmem hlive (ends_shutDown hacts hhandle hfns hdestroy)
      exact ⟨hindexed, haccounts.congr (fun _ => Iff.rfl) rfl rfl rfl rfl, h.alive⟩

theorem PluginsInv.getPath {w : PluginManager} (h : PluginsInv w) {acts : PluginActs}
    (hacts : KeepsPointers acts) {p : Nat} (hp : p ∈ w.byName) :
    PluginsInv (w.getPath acts p).2 := by
  unfold PluginManager.getPath
  split
  · rename_i hinfo
    obtain ⟨hhandle, hsame⟩ := hacts .getInfo p (w.records p)
    obtain ⟨-, hfns, -⟩ := h.accounts.record p hp
    have hcall : Harmless (w.libs p) p [.call .getInfo p] :=
      harmless_call (by decide) (hfns ▸ hinfo)
    have hput := h.accounts.put hp
      (t := ⟨[.call .getInfo p], (acts .getInfo p (w.records p)).2, false⟩) hcall hhandle hsame
    exact h.same hput rfl rfl rfl
  · exact h

theorem mem_byName_of_lookup {w : PluginManager} {name : Bytes} {p : Nat}
    (h : w.plugins.lookup name = some p) : p ∈ w.byName := by
  obtain ⟨pre, post, hsplit, -⟩ := exists_split_lookup h
  rw [byName, hsplit]
  simp

theorem PluginsInv.reload {w : PluginManager} (h : PluginsInv w) {acts : PluginActs}
    (hacts : KeepsPointers acts) {name : Bytes} {library : Option (PluginFn → Bool)}
    (hclean : ∀ p, w.plugins.lookup name = some p →
      KeepsType acts name (w.getPath acts p).2 ∧
        FreshName acts library ((w.getPath acts p).2.unload acts name).2) :
    PluginsInv (w.reload acts name library).2 := by
  unfold PluginManager.reload
  cases hname : w.plugins.lookup name with
  | none => exact h
  | some p =>
      obtain ⟨htype, hfresh⟩ := hclean p hname
      have hpath := h.getPath hacts (mem_byName_of_lookup hname)
      have hunloaded := hpath.unload hacts htype
      dsimp only
      split
      · exact hpath
      split
      · exact hunloaded
      · exact hunloaded.load hacts hfresh

theorem PluginsInv.loop {w : PluginManager} (h : PluginsInv w)
    {turn : Nat → Plugin → PluginTurn}
    (hturn : ∀ lib p r, r.fns = lib → Quiet lib p r (turn p r)) {order : List Nat}
    (horder : order.Perm w.byName) : PluginsInv (forEach turn order w).2 := by
  obtain ⟨hplugins, htypes, halive⟩ := forEach_frame turn order w
  have haccounts := h.accounts.forEach hturn fun p hp => horder.mem_iff.mp hp
  exact h.same haccounts hplugins htypes halive

theorem PluginsInv.sound {w : PluginManager} (h : PluginsInv w) : PluginsSound w := by
  refine ⟨h.indexed.same, h.indexed.once, h.indexed.names, h.indexed.types, h.accounts.exported, ?_⟩
  intro hdestroyed
  rw [h.alive] at hdestroyed
  cases hdestroyed

theorem sound_destroy {w : PluginManager} (h : PluginsInv w) {acts : PluginActs}
    (hacts : KeepsPointers acts) (hend : ∀ p ∈ w.byName, CanEnd acts p (w.records p))
    {order : List Nat} (horder : order.Perm w.byName) : PluginsSound (w.destroy acts order) := by
  have hlive : Accounts order w :=
    h.accounts.congr (fun _ => horder.mem_iff) rfl rfl rfl rfl
  have haccounts := hlive.destroyAll hacts (horder.nodup_iff.mpr h.indexed.once)
    fun p hp => hend p (horder.mem_iff.mp hp)
  refine ⟨List.Perm.refl _, List.nodup_nil, List.nodup_nil, List.nodup_nil, haccounts.exported, ?_⟩
  exact fun _ p hp => haccounts.ended p hp List.not_mem_nil

def InvOrGone (w : PluginManager) : Prop :=
  PluginsInv w ∨ w.destroyed = true ∧ PluginsSound w

theorem InvOrGone.step {w w' : PluginManager} {e : PluginStep} (h : InvOrGone w)
    (hclean : Clean w e) (hstep : pluginStep w e = some w') : InvOrGone w' := by
  unfold pluginStep at hstep
  rcases h with h | ⟨hgone, -⟩
  case inr =>
    rw [if_pos hgone] at hstep
    cases hstep
  obtain ⟨hacts, hclean⟩ := hclean
  rw [if_neg (by rw [h.alive]; exact Bool.false_ne_true)] at hstep
  cases hcall : e.call with
  | load library =>
      rw [hcall] at hstep hclean
      rw [← Option.some.inj hstep]
      exact Or.inl (h.load hacts hclean)
  | unload name =>
      rw [hcall] at hstep hclean
      rw [← Option.some.inj hstep]
      exact Or.inl (h.unload hacts hclean)
  | reload name library =>
      rw [hcall] at hstep hclean
      rw [← Option.some.inj hstep]
      exact Or.inl (h.reload hacts hclean)
  | startAll order =>
      rw [hcall] at hstep
      dsimp only at hstep
      split at hstep
      · rename_i horder
        rw [← Option.some.inj hstep]
        exact Or.inl (h.loop (fun _ _ _ => quiet_startOne hacts) horder)
      · cases hstep
  | stopAll order =>
      rw [hcall] at hstep
      dsimp only at hstep
      split at hstep
      · rename_i horder
        rw [← Option.some.inj hstep]
        exact Or.inl (h.loop (fun _ _ _ => quiet_stopOne hacts) horder)
      · cases hstep
  | destroy order =>
      rw [hcall] at hstep hclean
      dsimp only at hstep
      split at hstep
      · rename_i horder
        rw [← Option.some.inj hstep]
        exact Or.inr ⟨rfl, sound_destroy h hacts hclean horder⟩
      · cases hstep

/-- Functions that succeed, and an `init` that fills in a name and a type. -/
def namedActs (name : Bytes) (type : Nat) : PluginActs := fun fn _ r =>
  (0, if fn = .init then { r with name := some name, type := type } else r)

theorem keepsPointers_namedActs (name : Bytes) (type : Nat) :
    KeepsPointers (namedActs name type) := by
  intro fn p r
  unfold namedActs
  split <;> exact ⟨rfl, rfl⟩

def bareLibrary : PluginFn → Bool := fun fn => fn = .init ∨ fn = .destroy

def loadStep (name : Bytes) (type : Nat) : PluginStep :=
  ⟨namedActs name type, .load (some bareLibrary)⟩

def afterSteps (steps : List PluginStep) : PluginManager :=
  (pluginMachine.run pluginMachine.init steps).getD {}

end BlessStar.Runtime.Proofs.PluginIndexes
