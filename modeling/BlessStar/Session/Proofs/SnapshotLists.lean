import BlessStar.Session.IrSnapshot
import Mathlib.Data.List.Nodup
import Mathlib.Data.List.Perm.Basic

/-!
# Who destroys the instruction lists

A call changes entries, adds one and erases those it dooms, whose lists it
destroys.  As long as no handle is drawn twice and no pin count wraps, each
list is in one place: with its entry, or destroyed.
-/

namespace BlessStar.Session.Proofs.SnapshotLists

open Lib.ByteString Lib.Transition Session

variable {L : Type} {l : List (IrSnapshotEntry L)} {e e' : IrSnapshotEntry L} {h : UInt64}

/-! ## Entries with different handles -/

section Entries

variable (hn : (l.map (·.handle)).Nodup)
include hn

theorem modifyEntry_eq_map (f : IrSnapshotEntry L → IrSnapshotEntry L) :
    modifyEntry h f l = l.map fun e => if e.handle = h then f e else e := by
  induction l with
  | nil => rfl
  | cons first rest ih =>
      obtain ⟨hfirst, hrest⟩ := List.nodup_cons.mp hn
      rw [modifyEntry, List.map_cons]
      by_cases heq : first.handle = h
      · have hothers : rest.map (fun e => if e.handle = h then f e else e) = rest.map id :=
          List.map_congr_left fun x hx =>
            if_neg fun hxh => hfirst (List.mem_map.mpr ⟨x, hx, hxh.trans heq.symm⟩)
        rw [if_pos heq, if_pos heq, hothers, List.map_id]
      · rw [if_neg heq, if_neg heq, ih hrest]

theorem eraseP_eq_filter :
    l.eraseP (fun e => e.handle = h) = l.filter fun e => e.handle ≠ h := by
  induction l with
  | nil => rfl
  | cons first rest ih =>
      obtain ⟨hfirst, hrest⟩ := List.nodup_cons.mp hn
      by_cases heq : first.handle = h
      · have hothers : rest.filter (fun e => e.handle ≠ h) = rest :=
          List.filter_eq_self.mpr fun x hx =>
            decide_eq_true fun hxh => hfirst (List.mem_map.mpr ⟨x, hx, hxh.trans heq.symm⟩)
        rw [List.eraseP_cons_of_pos (by simp [heq]), List.filter_cons_of_neg (by simp [heq]),
          hothers]
      · rw [List.eraseP_cons_of_neg (by simp [heq]), List.filter_cons_of_pos (by simp [heq]),
          ih hrest]

theorem filter_handle (he : e ∈ l) : l.filter (fun x => x.handle = e.handle) = [e] := by
  induction l with
  | nil => exact absurd he List.not_mem_nil
  | cons first rest ih =>
      obtain ⟨hfirst, hrest⟩ := List.nodup_cons.mp hn
      rcases List.mem_cons.mp he with rfl | hin
      · have hothers : rest.filter (fun x => x.handle = e.handle) = [] :=
          List.filter_eq_nil_iff.mpr fun x hx hxh =>
            hfirst (List.mem_map.mpr ⟨x, hx, of_decide_eq_true hxh⟩)
        rw [List.filter_cons_of_pos (by simp), hothers]
      · have hne : first.handle ≠ e.handle := fun heq =>
          hfirst (List.mem_map.mpr ⟨e, hin, heq.symm⟩)
        rw [List.filter_cons_of_neg (by simp [hne]), ih hrest hin]

end Entries

theorem find_handle {s : IrSnapshotStore L} (hn : (s.entries.map (·.handle)).Nodup) :
    s.findEntry h = some e ↔ h ≠ 0 ∧ e ∈ s.entries ∧ e.handle = h := by
  unfold IrSnapshotStore.findEntry
  by_cases h0 : h = 0
  · simp [h0]
  · rw [if_neg h0]
    constructor
    · intro hfind
      exact ⟨h0, List.mem_of_find?_eq_some hfind, by simpa using List.find?_some hfind⟩
    · rintro ⟨-, he, rfl⟩
      obtain ⟨x, hx⟩ := Option.isSome_iff_exists.mp
        (List.find?_isSome.mpr ⟨e, he, decide_eq_true rfl⟩ :
          (s.entries.find? fun x => x.handle = e.handle).isSome)
      have heq := List.inj_on_of_nodup_map hn (List.mem_of_find?_eq_some hx) he
        (by simpa using List.find?_some hx)
      rw [hx, heq]

theorem find_handle_none {s : IrSnapshotStore L} (hfind : s.findEntry h = none) :
    h = 0 ∨ ∀ e ∈ s.entries, e.handle ≠ h := by
  unfold IrSnapshotStore.findEntry at hfind
  by_cases h0 : h = 0
  · exact Or.inl h0
  · rw [if_neg h0] at hfind
    exact Or.inr fun e he => by simpa using List.find?_eq_none.mp hfind e he

/-! ## What a call does -/

def publication (e : IrSnapshotEntry L) : Publication L := ⟨e.path, e.handle, e.instructions⟩

def touched : SnapshotCall L → IrSnapshotEntry L → IrSnapshotEntry L
  | .publish path _ _, e => if e.path = path then { e with isLatest := false } else e
  | .pin h, e => if h ≠ 0 ∧ e.handle = h then { e with pinCount := e.pinCount + 1 } else e
  | .unpin h, e =>
      if h ≠ 0 ∧ e.handle = h ∧ e.pinCount ≠ 0 then { e with pinCount := e.pinCount - 1 } else e
  | .remove _, e => e
  | .clearAll, e => e

def added (s : SnapshotHistory L) : SnapshotCall L → List (IrSnapshotEntry L)
  | .publish path revision instructions =>
      [{ handle := s.store.nextHandle, path := path, revision := revision,
         instructions := instructions }]
  | _ => []

def doomed : SnapshotCall L → IrSnapshotEntry L → Bool
  | .publish path _ _, e => e.path = path && !e.isLatest && e.pinCount = 0
  | .pin _, _ => false
  | .unpin h, e => h ≠ 0 && e.handle = h && !e.isLatest && e.pinCount = 0
  | .remove h, e => h ≠ 0 && e.handle = h && e.pinCount = 0
  | .clearAll, e => e.pinCount = 0

def during (s : SnapshotHistory L) (c : SnapshotCall L) : List (IrSnapshotEntry L) :=
  s.store.entries.map (touched c) ++ added s c

theorem publication_touched (c : SnapshotCall L) (e : IrSnapshotEntry L) :
    publication (touched c e) = publication e := by
  cases c
  all_goals
    simp only [touched]
    try split
    all_goals rfl

theorem handle_touched (c : SnapshotCall L) (e : IrSnapshotEntry L) :
    (touched c e).handle = e.handle := congrArg Publication.handle (publication_touched c e)

theorem instructions_touched (c : SnapshotCall L) (e : IrSnapshotEntry L) :
    (touched c e).instructions = e.instructions :=
  congrArg Publication.instructions (publication_touched c e)

def Held (s : SnapshotHistory L) : Prop :=
  ∀ e ∈ s.store.entries, e.isLatest = true ∨ e.pinCount ≠ 0

structure Effect (c : SnapshotCall L) (s s' : SnapshotHistory L) : Prop where
  entries : s'.store.entries = (during s c).filter fun e => !doomed c e
  destroyed : s'.store.destroyed =
    s.store.destroyed ++ ((during s c).filter (doomed c)).map (·.instructions)
  published : s'.published = s.published ++ (added s c).map publication

section Effects

variable {s s' : SnapshotHistory L} {c : SnapshotCall L}

theorem Effect.of_kept (hentries : s'.store.entries = during s c)
    (hdestroyed : s'.store.destroyed = s.store.destroyed)
    (hpublished : s'.published = s.published ++ (added s c).map publication)
    (hkept : ∀ e ∈ during s c, doomed c e = false) : Effect c s s' where
  entries := by
    rw [hentries, List.filter_eq_self.mpr]
    intro e he
    rw [hkept e he, Bool.not_false]
  destroyed := by
    have hnone : (during s c).filter (doomed c) = [] :=
      List.filter_eq_nil_iff.mpr fun e he => by simp [hkept e he]
    rw [hdestroyed, hnone, List.map_nil, List.append_nil]
  published := hpublished

theorem Effect.of_untouched (hadded : added s c = [])
    (h : ∀ e ∈ s.store.entries, touched c e = e ∧ doomed c e = false) : Effect c s s := by
  have hduring : during s c = s.store.entries := by
    rw [during, hadded, List.append_nil, List.map_congr_left fun e he => (h e he).1, List.map_id']
  apply Effect.of_kept hduring.symm rfl
  · rw [hadded, List.map_nil, List.append_nil]
  · rw [hduring]
    exact fun e he => (h e he).2

theorem effect_publish {path : Bytes} {revision : UInt64} {instructions : L} :
    Effect (.publish path revision instructions) s
      ⟨(s.store.publish path revision instructions).1,
        s.published ++ [⟨path, s.store.nextHandle, instructions⟩]⟩ :=
  ⟨rfl, rfl, rfl⟩

variable (hn : (s.store.entries.map (·.handle)).Nodup)
include hn

theorem Effect.of_erased {found : IrSnapshotEntry L} (hfound : found ∈ s.store.entries)
    (hadded : added s c = [])
    (hdoomed : ∀ e ∈ s.store.entries,
      doomed c (touched c e) = decide (e.handle = found.handle))
    (hentries : s'.store.entries = (during s c).filter fun e => e.handle ≠ found.handle)
    (hdestroyed : s'.store.destroyed = s.store.destroyed ++ [found.instructions])
    (hpublished : s'.published = s.published) : Effect c s s' := by
  have hduring : during s c = s.store.entries.map (touched c) := by
    rw [during, hadded, List.append_nil]
  have hpred : ∀ e ∈ during s c, doomed c e = decide (e.handle = found.handle) := by
    intro e he
    rw [hduring] at he
    obtain ⟨old, hold, rfl⟩ := List.mem_map.mp he
    rw [handle_touched]
    exact hdoomed old hold
  constructor
  · rw [hentries]
    apply List.filter_congr
    intro e he
    rw [hpred e he, decide_not]
  · have hone : (during s c).filter (fun e => e.handle = found.handle) = [touched c found] := by
      rw [hduring, List.filter_map]
      have hcomp : ((fun e : IrSnapshotEntry L => decide (e.handle = found.handle)) ∘ touched c) =
          fun e => decide (e.handle = found.handle) := by
        funext e
        rw [Function.comp_apply, handle_touched]
      rw [hcomp, filter_handle hn hfound, List.map_singleton]
    rw [hdestroyed, List.filter_congr hpred, hone, List.map_singleton, instructions_touched]
  · rw [hpublished, hadded, List.map_nil, List.append_nil]

theorem effect_pin : Effect (.pin h) s { s with store := s.store.pin h } := by
  unfold IrSnapshotStore.pin
  cases hfind : s.store.findEntry h with
  | none =>
      apply Effect.of_untouched rfl
      intro e he
      refine ⟨if_neg ?_, rfl⟩
      rintro ⟨h0, heq⟩
      rcases find_handle_none hfind with hzero | hnone
      · exact h0 hzero
      · exact hnone e he heq
  | some found =>
      obtain ⟨h0, -, -⟩ := (find_handle hn).mp hfind
      apply Effect.of_kept
      · simp [during, added, touched, modifyEntry_eq_map hn, h0]
      · rfl
      · simp [added]
      · exact fun _ _ => rfl

theorem effect_unpin (hheld : Held s) : Effect (.unpin h) s { s with store := s.store.unpin h } := by
  unfold IrSnapshotStore.unpin
  cases hfind : s.store.findEntry h with
  | none =>
      apply Effect.of_untouched rfl
      intro e he
      rcases find_handle_none hfind with hzero | hnone
      · simp [touched, doomed, hzero]
      · simp [touched, doomed, hnone e he]
  | some found =>
      obtain ⟨h0, hfound, rfl⟩ := (find_handle hn).mp hfind
      have hsame : ∀ e ∈ s.store.entries, e.handle = found.handle → e = found := fun e he =>
        List.inj_on_of_nodup_map hn he hfound
      by_cases hpin : found.pinCount = 0
      · dsimp only
        rw [if_pos hpin]
        apply Effect.of_untouched rfl
        intro e he
        by_cases heq : e.handle = found.handle
        · obtain rfl := hsame e he heq
          have hlatest := (hheld e he).resolve_right (not_not_intro hpin)
          simp [touched, doomed, hpin, hlatest]
        · simp [touched, doomed, heq]
      · dsimp only
        rw [if_neg hpin]
        have hduring : modifyEntry found.handle (fun e => { e with pinCount := e.pinCount - 1 })
            s.store.entries = during s (.unpin found.handle) := by
          have hadded : added s (.unpin found.handle) = [] := rfl
          rw [modifyEntry_eq_map hn, during, hadded, List.append_nil]
          apply List.map_congr_left
          intro e he
          by_cases heq : e.handle = found.handle
          · obtain rfl := hsame e he heq
            simp [touched, h0, hpin]
          · simp [touched, heq]
        rw [hduring]
        have hdoomed : ∀ e ∈ s.store.entries,
            doomed (.unpin found.handle) (touched (.unpin found.handle) e) =
              (decide (e.handle = found.handle) &&
                (!found.isLatest && decide (found.pinCount - 1 = 0))) := by
          intro e he
          by_cases heq : e.handle = found.handle
          · obtain rfl := hsame e he heq
            simp [touched, doomed, h0, hpin]
          · simp [touched, doomed, heq]
        split
        · rename_i herase
          apply Effect.of_erased hn hfound
          · rfl
          · intro e he
            rw [hdoomed e he, herase, Bool.and_true]
          · rfl
          · rfl
          · rfl
        · rename_i hkeep
          apply Effect.of_kept
          · rfl
          · rfl
          · simp [added]
          · intro e he
            obtain ⟨old, hold, rfl⟩ :
                ∃ old ∈ s.store.entries, touched (.unpin found.handle) old = e := by
              simpa [during, added] using he
            rw [hdoomed old hold, Bool.eq_false_of_not_eq_true hkeep, Bool.and_false]

theorem effect_remove : Effect (.remove h) s { s with store := (s.store.remove h).1 } := by
  unfold IrSnapshotStore.remove
  cases hfind : s.store.findEntry h with
  | none =>
      apply Effect.of_untouched rfl
      intro e he
      rcases find_handle_none hfind with hzero | hnone
      · simp [touched, doomed, hzero]
      · simp [touched, doomed, hnone e he]
  | some found =>
      obtain ⟨h0, hfound, rfl⟩ := (find_handle hn).mp hfind
      have hsame : ∀ e ∈ s.store.entries, e.handle = found.handle → e = found := fun e he =>
        List.inj_on_of_nodup_map hn he hfound
      dsimp only
      split
      · rename_i hpin
        apply Effect.of_untouched rfl
        intro e he
        refine ⟨rfl, ?_⟩
        by_cases heq : e.handle = found.handle
        · obtain rfl := hsame e he heq
          simp [doomed, (UInt32.pos_iff_ne_zero.mp hpin)]
        · simp [doomed, heq]
      · rename_i hpin
        have hzero : found.pinCount = 0 := by
          by_contra hne
          exact hpin (UInt32.pos_iff_ne_zero.mpr hne)
        apply Effect.of_erased hn hfound
        · rfl
        · intro e he
          by_cases heq : e.handle = found.handle
          · obtain rfl := hsame e he heq
            simp [touched, doomed, h0, hzero]
          · simp [touched, doomed, heq]
        · dsimp only
          have hid : touched (.remove found.handle) = fun e : IrSnapshotEntry L => e := rfl
          rw [eraseP_eq_filter hn]
          simp [during, added, hid]
        · rfl
        · rfl

omit hn in
theorem effect_clearAll : Effect .clearAll s { s with store := s.store.clearAll } := by
  have hduring : during s .clearAll = s.store.entries := by
    have hid : touched .clearAll = fun e : IrSnapshotEntry L => e := rfl
    simp [during, added, hid]
  constructor
  · rw [hduring]
    rfl
  · rw [hduring]
    rfl
  · simp [added]

omit hn in
theorem step_publish [DecidableEq L] {path : Bytes} {revision : UInt64} {instructions : L} :
    s.step (.publish path revision instructions) = some s' ↔
      instructions ∉ s.published.map (·.instructions) ∧
        ⟨(s.store.publish path revision instructions).1,
          s.published ++ [⟨path, s.store.nextHandle, instructions⟩]⟩ = s' := by
  simp only [SnapshotHistory.step, Option.ite_none_left_eq_some, Option.some.injEq]
  exact Iff.rfl

theorem Effect.of_step [DecidableEq L] (hheld : Held s) (hstep : s.step c = some s') :
    Effect c s s' := by
  cases c with
  | publish path revision instructions =>
      rw [← (step_publish.mp hstep).2]
      exact effect_publish
  | pin h =>
      cases hstep
      exact effect_pin hn
  | unpin h =>
      cases hstep
      exact effect_unpin hn hheld
  | remove h =>
      cases hstep
      exact effect_remove hn
  | clearAll =>
      cases hstep
      exact effect_clearAll

end Effects

/-! ## The invariant of the store -/

/-- The publication draws a handle of its own, and the pin can be counted. -/
def Counted (s : SnapshotHistory L) : SnapshotCall L → Prop
  | .publish _ _ _ => s.store.nextHandle ∉ s.published.map (·.handle)
  | .pin h => ∀ e, s.store.findEntry h = some e → e.pinCount ≠ 4294967295
  | _ => True

structure Kept (s : SnapshotHistory L) : Prop where
  handles : (s.published.map (·.handle)).Nodup
  lists : (s.published.map (·.instructions)).Nodup
  live : (s.store.entries.map publication).Sublist s.published
  balance : s.store.destroy.Perm (s.published.map (·.instructions))
  latest : ∀ e ∈ s.store.entries, e.isLatest = true →
    s.lastPublished e.path = some (publication e)
  held : Held s

namespace Kept

variable {s s' : SnapshotHistory L} {c : SnapshotCall L}

theorem nodup_handles (hk : Kept s) : (s.store.entries.map (·.handle)).Nodup := by
  have hsub := (hk.live.map (·.handle)).nodup hk.handles
  rwa [List.map_map] at hsub

theorem init : Kept ({} : SnapshotHistory L) where
  handles := List.nodup_nil
  lists := List.nodup_nil
  live := List.Sublist.refl _
  balance := List.Perm.refl _
  latest := fun _ he => absurd he List.not_mem_nil
  held := fun _ he => absurd he List.not_mem_nil

variable (heff : Effect c s s')
include heff

theorem live_effect (hk : Kept s) : (s'.store.entries.map publication).Sublist s'.published := by
  have hduring : (during s c).map publication =
      s.store.entries.map publication ++ (added s c).map publication := by
    rw [during, List.map_append, List.map_map]
    congr 1
    exact List.map_congr_left fun e _ => publication_touched c e
  have hfilter : (((during s c).filter fun e => !doomed c e).map publication).Sublist
      ((during s c).map publication) := List.filter_sublist.map publication
  rw [heff.entries, heff.published]
  apply hfilter.trans
  rw [hduring]
  exact hk.live.append (List.Sublist.refl _)

theorem balance_effect (hk : Kept s) :
    s'.store.destroy.Perm (s'.published.map (·.instructions)) := by
  have hduring : (during s c).map (·.instructions) =
      s.store.entries.map (·.instructions) ++ (added s c).map (·.instructions) := by
    rw [during, List.map_append, List.map_map]
    congr 1
    exact List.map_congr_left fun e _ => instructions_touched c e
  have hsplit : (((during s c).filter (doomed c)) ++
      (during s c).filter fun e => !doomed c e).Perm (during s c) := List.filter_append_perm _ _
  calc
    s'.store.destroy = s.store.destroyed ++ ((during s c).filter (doomed c) ++
        (during s c).filter fun e => !doomed c e).map (·.instructions) := by
      rw [IrSnapshotStore.destroy, heff.entries, heff.destroyed, List.map_append,
        List.append_assoc]
    List.Perm _ (s.store.destroyed ++ (during s c).map (·.instructions)) :=
      (hsplit.map _).append_left _
    _ = s.store.destroy ++ (added s c).map (·.instructions) := by
      rw [hduring, IrSnapshotStore.destroy, List.append_assoc]
    List.Perm _ (s.published.map (·.instructions) ++ (added s c).map (·.instructions)) :=
      hk.balance.append_right _
    _ = s'.published.map (·.instructions) := by
      rw [heff.published, List.map_append, List.map_map]
      rfl

theorem mem_effect {e : IrSnapshotEntry L} (he : e ∈ s'.store.entries) :
    doomed c e = false ∧ ((∃ old ∈ s.store.entries, touched c old = e) ∨ e ∈ added s c) := by
  rw [heff.entries, List.mem_filter, Bool.not_eq_true'] at he
  refine ⟨he.2, ?_⟩
  simpa only [during, List.mem_append, List.mem_map] using he.1

theorem held_effect (hk : Kept s) (hc : Counted s c) : Held s' := by
  intro e he
  obtain ⟨hkeep, ⟨old, hold, rfl⟩ | hadded⟩ := mem_effect heff he
  · have hheld := hk.held old hold
    cases c with
    | publish path revision instructions =>
        by_cases hpath : old.path = path
        · have htouched : touched (.publish path revision instructions) old =
              { old with isLatest := false } := if_pos hpath
          rw [htouched] at hkeep ⊢
          exact Or.inr (by simpa [doomed, hpath] using hkeep)
        · have htouched : touched (.publish path revision instructions) old = old := if_neg hpath
          rwa [htouched]
    | pin h =>
        by_cases hpinned : h ≠ 0 ∧ old.handle = h
        · have htouched : touched (.pin h) old = { old with pinCount := old.pinCount + 1 } :=
            if_pos hpinned
          have hroom := hc old ((find_handle hk.nodup_handles).mpr ⟨hpinned.1, hold, hpinned.2⟩)
          rw [htouched]
          exact Or.inr (by grind)
        · have htouched : touched (.pin h) old = old := if_neg hpinned
          rwa [htouched]
    | unpin h =>
        by_cases hpinned : h ≠ 0 ∧ old.handle = h ∧ old.pinCount ≠ 0
        · have htouched : touched (.unpin h) old = { old with pinCount := old.pinCount - 1 } :=
            if_pos hpinned
          rw [htouched] at hkeep ⊢
          by_cases hlatest : old.isLatest = true
          · exact Or.inl hlatest
          · exact Or.inr (by simpa [doomed, hpinned.1, hpinned.2.1, hlatest] using hkeep)
        · have htouched : touched (.unpin h) old = old := if_neg hpinned
          rwa [htouched]
    | remove h => exact hheld
    | clearAll => exact hheld
  · cases c with
    | publish path revision instructions =>
        rw [List.mem_singleton.mp hadded]
        exact Or.inl rfl
    | _ => exact absurd hadded List.not_mem_nil

omit heff in
theorem latest_touched {old : IrSnapshotEntry L} (hlatest : (touched c old).isLatest = true) :
    old.isLatest = true ∧ ∀ p ∈ (added s c).map publication, p.path ≠ old.path := by
  cases c with
  | publish path revision instructions =>
      dsimp only [touched] at hlatest
      split at hlatest
      · cases hlatest
      · rename_i hpath
        refine ⟨hlatest, fun p hp => ?_⟩
        rw [List.mem_singleton.mp hp]
        exact fun heq => hpath heq.symm
  | pin h | unpin h =>
      dsimp only [touched] at hlatest
      split at hlatest
      all_goals exact ⟨hlatest, fun p hp => absurd hp List.not_mem_nil⟩
  | remove | clearAll => exact ⟨hlatest, fun p hp => absurd hp List.not_mem_nil⟩

theorem latest_effect (hk : Kept s) : ∀ e ∈ s'.store.entries, e.isLatest = true →
    s'.lastPublished e.path = some (publication e) := by
  intro e he hlatest
  have hpublished : s'.lastPublished e.path =
      ((s.published ++ (added s c).map publication).filter fun p => p.path = e.path).getLast? := by
    rw [SnapshotHistory.lastPublished, heff.published]
  rw [hpublished, List.filter_append]
  obtain ⟨-, ⟨old, hold, rfl⟩ | hadded⟩ := mem_effect heff he
  · obtain ⟨hwas, hother⟩ := latest_touched (s := s) hlatest
    have hpath : (touched c old).path = old.path :=
      congrArg Publication.path (publication_touched c old)
    have hnone : ((added s c).map publication).filter
        (fun p => p.path = (touched c old).path) = [] := by
      apply List.filter_eq_nil_iff.mpr
      intro p hp
      rw [hpath]
      simpa using hother p hp
    rw [hnone, List.append_nil, hpath, publication_touched]
    exact hk.latest old hold hwas
  · obtain ⟨x, hx⟩ : ∃ x, added s c = [x] := by
      cases c with
      | publish path revision instructions => exact ⟨_, rfl⟩
      | _ => exact absurd hadded List.not_mem_nil
    rw [hx] at hadded ⊢
    rw [← List.mem_singleton.mp hadded]
    have hself : ([e].map publication).filter (fun p => p.path = e.path) = [publication e] := by
      simp [publication]
    rw [hself, List.getLast?_concat]

theorem pinned_effect (hk : Kept s) (hc : Counted s c) {e : IrSnapshotEntry L}
    (he : e ∈ s.store.entries) (hpin : e.pinCount ≠ 0) (hunpin : c ≠ .unpin e.handle) :
    ∃ e' ∈ s'.store.entries, publication e' = publication e ∧ e'.pinCount ≠ 0 := by
  have hpin' : (touched c e).pinCount ≠ 0 := by
    cases c with
    | publish path revision instructions =>
        dsimp only [touched]
        split
        all_goals exact hpin
    | pin h =>
        by_cases hpinned : h ≠ 0 ∧ e.handle = h
        · have htouched : touched (.pin h) e = { e with pinCount := e.pinCount + 1 } :=
            if_pos hpinned
          have hroom := hc e ((find_handle hk.nodup_handles).mpr ⟨hpinned.1, he, hpinned.2⟩)
          rw [htouched]
          grind
        · have htouched : touched (.pin h) e = e := if_neg hpinned
          rwa [htouched]
    | unpin h =>
        have htouched : touched (.unpin h) e = e := by
          apply if_neg
          rintro ⟨-, rfl, -⟩
          exact hunpin rfl
        rwa [htouched]
    | remove | clearAll => exact hpin
  refine ⟨touched c e, ?_, publication_touched c e, hpin'⟩
  rw [heff.entries, List.mem_filter]
  refine ⟨List.mem_append_left _ (List.mem_map_of_mem he), ?_⟩
  cases c
  all_goals simp [doomed, hpin']

omit heff in
/-- **One call keeps the invariant.** -/
theorem step [DecidableEq L] (hk : Kept s) (hc : Counted s c) (hstep : s.step c = some s') :
    Kept s' := by
  have heff := Effect.of_step hk.nodup_handles hk.held hstep
  refine ⟨?_, ?_, hk.live_effect heff, hk.balance_effect heff, hk.latest_effect heff,
    hk.held_effect heff hc⟩
  · rw [heff.published, List.map_append]
    cases c with
    | publish path revision instructions =>
        have hconcat := hk.handles.concat hc
        rwa [List.concat_eq_append] at hconcat
    | _ => simpa [added] using hk.handles
  · rw [heff.published, List.map_append]
    cases c with
    | publish path revision instructions =>
        have hconcat := hk.lists.concat (step_publish.mp hstep).1
        rwa [List.concat_eq_append] at hconcat
    | _ => simpa [added] using hk.lists

omit heff in
/-- **Calls keep the invariant**, what is destroyed, and what is pinned and not unpinned. -/
theorem run [DecidableEq L] {calls : List (SnapshotCall L)} (hk : Kept s)
    (hmeets : snapshotMachine.RunMeets Counted s calls)
    (hrun : snapshotMachine.run s calls = some s') :
    Kept s' ∧ s.store.destroyed <+: s'.store.destroyed ∧
      ∀ e ∈ s.store.entries, e.pinCount ≠ 0 → (∀ c ∈ calls, c ≠ .unpin e.handle) →
        ∃ e' ∈ s'.store.entries, publication e' = publication e ∧ e'.pinCount ≠ 0 := by
  induction calls generalizing s with
  | nil =>
      cases hrun
      exact ⟨hk, List.prefix_refl _, fun e he hpin _ => ⟨e, he, rfl, hpin⟩⟩
  | cons c calls ih =>
      obtain ⟨t, ht, hrest⟩ := Option.bind_eq_some_iff.mp hrun
      obtain ⟨hc, hcs⟩ := hmeets
      rw [ht] at hcs
      have heff := Effect.of_step hk.nodup_handles hk.held ht
      obtain ⟨hk', hgrows, hpinned⟩ := ih (hk.step hc ht) hcs hrest
      refine ⟨hk', ?_, ?_⟩
      · rw [heff.destroyed] at hgrows
        exact (List.prefix_append _ _).trans hgrows
      · intro e he hpin hnot
        obtain ⟨e1, he1, hsame1, hpin1⟩ :=
          hk.pinned_effect heff hc he hpin (hnot c List.mem_cons_self)
        have hhandle : e1.handle = e.handle := congrArg Publication.handle hsame1
        obtain ⟨e2, he2, hsame2, hpin2⟩ := hpinned e1 he1 hpin1 fun c' hc' => by
          rw [hhandle]
          exact hnot c' (List.mem_cons_of_mem c hc')
        exact ⟨e2, he2, hsame2.trans hsame1, hpin2⟩

end Kept

/-! ## The store -/

variable [DecidableEq L]

/-- What the store promises in a state, and of the calls that follow it. -/
structure SnapshotsSound (s : SnapshotHistory L) : Prop where
  handles : (s.published.map (·.handle)).Nodup ∧ (s.store.entries.map (·.handle)).Nodup
  oneLatest : ∀ e ∈ s.store.entries, ∀ e' ∈ s.store.entries, e.isLatest = true →
    e'.isLatest = true → e.path = e'.path → e = e'
  latest : ∀ e ∈ s.store.entries, e.isLatest = true →
    s.lastPublished e.path = some (publication e)
  held : Held s
  pinned : ∀ e ∈ s.store.entries, e.pinCount ≠ 0 → ∀ calls s',
    snapshotMachine.RunMeets Counted s calls → snapshotMachine.run s calls = some s' →
      (∀ c ∈ calls, c ≠ .unpin e.handle) →
        ∃ e' ∈ s'.store.entries, publication e' = publication e ∧ e'.pinCount ≠ 0
  destroyedOnce : (s.published.map (·.instructions)).Nodup ∧
    s.store.destroy.Perm (s.published.map (·.instructions))
  gone : ∀ x ∈ s.store.destroyed, ∀ calls s', snapshotMachine.RunMeets Counted s calls →
    snapshotMachine.run s calls = some s' → ∀ h, s'.store.instructions h ≠ some x

omit [DecidableEq L] in
theorem Kept.not_returned {s : SnapshotHistory L} (hk : Kept s) {x : L}
    (hx : x ∈ s.store.destroyed) (h : UInt64) : s.store.instructions h ≠ some x := by
  intro hreturned
  obtain ⟨e, hfind, rfl⟩ := Option.map_eq_some_iff.mp hreturned
  obtain ⟨-, he, -⟩ := (find_handle hk.nodup_handles).mp hfind
  have hnodup : s.store.destroy.Nodup := hk.balance.nodup_iff.mpr hk.lists
  exact List.disjoint_of_nodup_append hnodup hx (List.mem_map_of_mem he)

theorem Kept.sound {s : SnapshotHistory L} (hk : Kept s) : SnapshotsSound s where
  handles := ⟨hk.handles, hk.nodup_handles⟩
  oneLatest e he e' he' hlatest hlatest' hpath := by
    have hlast := hk.latest e he hlatest
    rw [hpath, hk.latest e' he' hlatest'] at hlast
    exact List.inj_on_of_nodup_map hk.nodup_handles he he'
      (congrArg Publication.handle (Option.some.inj hlast)).symm
  latest := hk.latest
  held := hk.held
  pinned e he hpin _ _ hmeets hrun := (hk.run hmeets hrun).2.2 e he hpin
  destroyedOnce := ⟨hk.lists, hk.balance⟩
  gone x hx _ _ hmeets hrun := by
    obtain ⟨hk', hgrows, -⟩ := hk.run hmeets hrun
    exact hk'.not_returned (hgrows.subset hx)

/-- Two lists were published for `/a`, and the first is pinned. -/
def overPinned (n : Nat) : SnapshotHistory Nat :=
  { store :=
      { nextHandle := 3
        entries :=
          [⟨1, ascii "/a", 1, 10, UInt32.ofNat (n + 1), false⟩, ⟨2, ascii "/a", 2, 20, 0, true⟩] }
    published := [⟨ascii "/a", 1, 10⟩, ⟨ascii "/a", 2, 20⟩] }

theorem reachable_overPinned (n : Nat) : snapshotMachine.Reachable (overPinned n) := by
  induction n with
  | zero =>
      exact Machine.reachable_of_run
        [.publish (ascii "/a") 1 10, .pin 1, .publish (ascii "/a") 2 20] rfl
  | succ n ih =>
      have hstep : snapshotMachine.step (overPinned n) (.pin 1) = some (overPinned (n + 1)) := by
        have hnext : UInt32.ofNat (n + 1) + 1 = UInt32.ofNat (n + 1 + 1) :=
          (UInt32.ofNat_add (n + 1) 1).symm
        unfold overPinned
        rw [← hnext]
        rfl
      exact ih.step trivial hstep

end BlessStar.Session.Proofs.SnapshotLists
