import BlessStar.Lib.Places
import BlessStar.State.WatchManager
import Mathlib.Data.List.Nodup
import Mathlib.Data.List.Perm.Subperm

/-!
# Watches and the notifications that call them

A once watch is in the copy of one notification at most, and is retired by it; a
watch of another mode stays in its list until it is removed.  This holds of runs
whose notifications find no once watch that another one still holds, and retire
the watches that they called.
-/

namespace BlessStar.State.Proofs.WatchModes

open Lib.ByteString Lib.Places Lib.Transition State

/-! ## Erasing by callback -/

section Erasing

variable {l s : List WatcherEntry} {e : WatcherEntry}

def sameCallback (c : Nat) (e : WatcherEntry) : Bool := e.callback = c

theorem eraseCallback_sublist (l : List WatcherEntry) (c : Nat) : (eraseCallback l c).Sublist l :=
  List.eraseP_sublist

theorem foldl_eraseCallback_sublist (cs : List Nat) (l : List WatcherEntry) :
    (cs.foldl eraseCallback l).Sublist l := by
  induction cs generalizing l with
  | nil => exact List.Sublist.refl l
  | cons c cs ih => exact (ih _).trans (eraseCallback_sublist l c)

theorem filter_eraseCallback (l : List WatcherEntry) (c c' : Nat) :
    (eraseCallback l c').filter (sameCallback c) =
      if c' = c then (l.filter (sameCallback c)).tail else l.filter (sameCallback c) := by
  unfold eraseCallback
  induction l with
  | nil => simp
  | cons e l ih =>
      by_cases he : e.callback = c'
      · rw [List.eraseP_cons_of_pos (by simpa using he)]
        by_cases hc : c' = c
        · rw [if_pos hc, List.filter_cons_of_pos (by simp [sameCallback, he, hc]), List.tail_cons]
        · rw [if_neg hc, List.filter_cons_of_neg (by simp [sameCallback, he, hc])]
      · rw [List.eraseP_cons_of_neg (by simpa using he)]
        by_cases hc : e.callback = c
        · have hne : c' ≠ c := fun h => he (hc.trans h.symm)
          rw [if_neg hne] at ih ⊢
          rw [List.filter_cons_of_pos (by simpa [sameCallback] using hc), ih,
            List.filter_cons_of_pos (by simpa [sameCallback] using hc)]
        · rw [List.filter_cons_of_neg (by simpa [sameCallback] using hc), ih,
            List.filter_cons_of_neg (by simpa [sameCallback] using hc)]

theorem filter_foldl_eraseCallback (cs : List Nat) (l : List WatcherEntry) (c : Nat) :
    (cs.foldl eraseCallback l).filter (sameCallback c) =
      (l.filter (sameCallback c)).drop (cs.count c) := by
  induction cs generalizing l with
  | nil => rfl
  | cons c' cs ih =>
      rw [List.foldl_cons, ih, filter_eraseCallback]
      by_cases hc : c' = c
      · rw [if_pos hc, ← hc, List.count_cons_self, ← List.drop_one, List.drop_drop, Nat.add_comm]
      · rw [if_neg hc, List.count_cons_of_ne hc]

/-- The entries of each callback that a retirement erases are once watches of `s`. -/
def RetiresOnly (l s : List WatcherEntry) : Prop :=
  ∀ c, ∀ e ∈ (l.filter (sameCallback c)).take
    (((s.filter fun e => e.isOnce).map (·.callback)).count c), e.isOnce = true ∧ e ∈ s

variable (hr : RetiresOnly l s)
include hr

theorem mem_retired (he : e ∈ l) (hkeep : ¬(e.isOnce = true ∧ e ∈ s)) :
    e ∈ ((s.filter fun e => e.isOnce).map (·.callback)).foldl eraseCallback l := by
  have hsame : sameCallback e.callback e = true := decide_eq_true rfl
  have hsplit := List.mem_filter.mpr ⟨he, hsame⟩
  rw [← List.take_append_drop (((s.filter fun e => e.isOnce).map (·.callback)).count e.callback)
    (l.filter (sameCallback e.callback))] at hsplit
  rcases List.mem_append.mp hsplit with herased | hkept
  · exact absurd (hr _ e herased) hkeep
  · rw [← filter_foldl_eraseCallback] at hkept
    exact (List.mem_filter.mp hkept).1

theorem not_mem_retired (hl : l.Nodup) (he : e ∈ s) (honce : e.isOnce = true) :
    e ∉ ((s.filter fun e => e.isOnce).map (·.callback)).foldl eraseCallback l := by
  intro hkept
  have hsame : sameCallback e.callback e = true := decide_eq_true rfl
  let called := (s.filter fun e => e.isOnce).filter (sameCallback e.callback)
  have hcount : ((s.filter fun e => e.isOnce).map (·.callback)).count e.callback =
      called.length := by
    rw [List.count_eq_countP, List.countP_map, List.countP_eq_length_filter]
    congr 1
  have hdrop := List.mem_filter.mpr ⟨hkept, hsame⟩
  rw [filter_foldl_eraseCallback, hcount] at hdrop
  have hnodup : (l.filter (sameCallback e.callback)).Nodup := hl.filter _
  -- the entries erased are as many as those called, so they are the same
  have hsub : (l.filter (sameCallback e.callback)).take called.length ⊆ called := by
    intro x hx
    have hxl := List.mem_filter.mp (List.mem_of_mem_take hx)
    rw [← hcount] at hx
    obtain ⟨hxonce, hxs⟩ := hr _ x hx
    exact List.mem_filter.mpr ⟨List.mem_filter.mpr ⟨hxs, hxonce⟩, hxl.2⟩
  have hlength : called.length ≤ ((l.filter (sameCallback e.callback)).take called.length).length := by
    have hpos := List.length_pos_of_mem hdrop
    rw [List.length_drop] at hpos
    rw [List.length_take]
    omega
  have hperm := ((hnodup.sublist (List.take_sublist _ _)).subperm hsub).perm_of_length_le hlength
  have hmem : e ∈ called := List.mem_filter.mpr ⟨List.mem_filter.mpr ⟨he, honce⟩, hsame⟩
  exact List.disjoint_take_drop hnodup (Nat.le_refl _) (hperm.mem_iff.mpr hmem) hdrop

omit hr in
theorem mem_eraseP {q : WatcherEntry → Bool} (he : e ∈ l)
    (hfirst : ∀ x, l.find? q = some x → e ≠ x) : e ∈ l.eraseP q := by
  induction l with
  | nil => exact he
  | cons x l ih =>
      by_cases hx : q x = true
      · rw [List.eraseP_cons_of_pos hx]
        exact (List.mem_cons.mp he).resolve_left (hfirst x (List.find?_cons_of_pos hx))
      · rw [List.eraseP_cons_of_neg hx]
        rw [List.find?_cons_of_neg hx] at hfirst
        rcases List.mem_cons.mp he with rfl | hin
        · exact List.mem_cons_self
        · exact List.mem_cons_of_mem x (ih hin hfirst)

end Erasing

/-! ## What a step does -/

section Steps

variable {wm wm' : WatchManager} {n : Nat}

theorem getD_update (w : Bytes → Option (List WatcherEntry)) (p q : Bytes)
    (l : List WatcherEntry) :
    (Function.update w p (some l) q).getD [] = if q = p then l else (w q).getD [] := by
  by_cases hq : q = p
  · rw [if_pos hq, hq, Function.update_self, Option.getD_some]
  · rw [if_neg hq, Function.update_of_ne hq]

theorem call_cases (h : wm.call n = some wm') :
    ∃ f e rest, wm.notifies[n]? = some f ∧ f.rest = e :: rest ∧
      wm' = { wm with notifies := wm.notifies.set n { f with calls := f.calls ++ [e], rest } } := by
  unfold WatchManager.call at h
  split at h
  · rename_i f hf
    split at h
    · cases h
    · rename_i e rest hrest
      exact ⟨f, e, rest, hf, hrest, (Option.some.inj h).symm⟩
  · cases h

theorem retire_cases (h : wm.retire n = some wm') :
    ∃ f, wm.notifies[n]? = some f ∧ f.rest = [] ∧
      wm'.notifies = wm.notifies.set n { f with returned := true } ∧ wm'.added = wm.added ∧
      wm'.removed = wm.removed ∧
      ∀ p, wm'.entriesOf p =
        if p = f.path then f.onceCallbacks.foldl eraseCallback (wm.entriesOf p)
        else wm.entriesOf p := by
  unfold WatchManager.retire at h
  split at h
  · rename_i f hf
    split at h
    · cases h
    · rename_i hbusy
      simp only [ne_eq, Bool.or_eq_true, decide_eq_true_eq, not_or, not_not] at hbusy
      refine ⟨f, hf, hbusy.1, ?_⟩
      dsimp only at h
      split at h
      · rename_i hnone
        cases h
        refine ⟨rfl, rfl, rfl, fun p => ?_⟩
        rw [List.isEmpty_iff.mp hnone, List.foldl_nil, ite_self]
        rfl
      cases hentries : wm.watchers f.path with
      | none =>
          rw [hentries] at h
          cases h
          refine ⟨rfl, rfl, rfl, fun p => ?_⟩
          split
          · rename_i hp
            have hempty : wm.entriesOf p = [] := by
              rw [WatchManager.entriesOf, hp, hentries]
              rfl
            have hfold := (foldl_eraseCallback_sublist f.onceCallbacks (wm.entriesOf p)).length_le
            rw [hempty] at hfold ⊢
            rw [List.length_eq_zero_iff.mp (Nat.le_zero.mp hfold)]
            exact hempty
          · rfl
      | some entries =>
          rw [hentries] at h
          cases h
          refine ⟨rfl, rfl, rfl, fun p => ?_⟩
          rw [WatchManager.entriesOf, getD_update]
          split
          · rename_i hp
            rw [WatchManager.entriesOf, hp, hentries]
            rfl
          · rfl
  · cases h

end Steps

/-! ## The invariant of the manager -/

section Invariant

variable {wm wm' : WatchManager}

/-- A notification finds no once watch that another one under way still holds,
and what it retires are once watches that it called. -/
def Ready (wm : WatchManager) : WatchStep → Prop
  | .notify path _ _ => ∀ e ∈ wm.entriesOf path, e.isOnce = true →
      ∀ f ∈ wm.notifies, f.returned = false → e ∉ f.tempEntries
  | .retire n => ∀ f, wm.notifies[n]? = some f → RetiresOnly (wm.entriesOf f.path) f.calls
  | _ => True

structure Copied (added : List (Bytes × WatcherEntry)) (f : NotifyCall) : Prop where
  added : ∀ e ∈ f.tempEntries, (f.path, e) ∈ added
  nodup : f.tempEntries.Nodup
  due : ∀ e ∈ f.due, e ∈ f.tempEntries
  rest : f.returned = true → f.rest = []

structure Kept (wm : WatchManager) : Prop where
  numbered : ∀ (i : Nat) a, wm.added[i]? = some a → a.2.registration = i
  modes : ∀ a ∈ wm.added, a.2.isOnce = decide (a.2.mode = .once)
  live : ∀ p, ∀ e ∈ wm.entriesOf p, (p, e) ∈ wm.added
  nodup : ∀ p, (wm.entriesOf p).Nodup
  standing : ∀ a ∈ wm.added, a.2.isOnce = false → a.2.registration ∉ wm.removed →
    a.2 ∈ wm.entriesOf a.1
  copied : ∀ f ∈ wm.notifies, Copied wm.added f
  once : ∀ e, e.isOnce = true → (wm.notifies.flatMap (·.tempEntries)).count e ≤ 1
  retired : ∀ f ∈ wm.notifies, f.returned = true → ∀ e ∈ f.tempEntries, e.isOnce = true →
    e ∉ wm.entriesOf f.path

namespace Kept

theorem init : Kept {} where
  numbered _ _ h := by simp at h
  modes _ h := absurd h List.not_mem_nil
  live _ _ h := absurd h List.not_mem_nil
  nodup _ := List.nodup_nil
  standing _ h := absurd h List.not_mem_nil
  copied _ h := absurd h List.not_mem_nil
  once _ _ := Nat.zero_le 1
  retired _ h := absurd h List.not_mem_nil

theorem registration_lt (hk : Kept wm) {a : Bytes × WatcherEntry} (ha : a ∈ wm.added) :
    a.2.registration < wm.added.length := by
  obtain ⟨i, hi⟩ := List.mem_iff_getElem?.mp ha
  rw [hk.numbered i a hi]
  exact (List.getElem?_eq_some_iff.mp hi).1

theorem path_unique (hk : Kept wm) {p q : Bytes} {e : WatcherEntry} (hp : (p, e) ∈ wm.added)
    (hq : (q, e) ∈ wm.added) : p = q := by
  obtain ⟨i, hi⟩ := List.mem_iff_getElem?.mp hp
  obtain ⟨j, hj⟩ := List.mem_iff_getElem?.mp hq
  have hij : i = j := (hk.numbered i (p, e) hi).symm.trans (hk.numbered j (q, e) hj)
  rw [hij, hj] at hi
  exact (congrArg Prod.fst (Option.some.inj hi)).symm

theorem addWatch (hk : Kept wm) (path : Bytes) (callback : Nat) (mode : WatchMode)
    (userData : Nat) : Kept (wm.addWatch path callback mode userData) := by
  let entry : WatcherEntry := ⟨callback, mode, userData, mode = .once, wm.added.length⟩
  have hentries : ∀ p, (wm.addWatch path callback mode userData).entriesOf p =
      if p = path then wm.entriesOf path ++ [entry] else wm.entriesOf p := fun p =>
    getD_update wm.watchers path p _
  have hfresh : ∀ p, (p, entry) ∉ wm.added := fun p h =>
    Nat.lt_irrefl _ (hk.registration_lt h)
  have hadded : (wm.addWatch path callback mode userData).added = wm.added ++ [(path, entry)] := rfl
  have hmem : ∀ p e, e ∈ (wm.addWatch path callback mode userData).entriesOf p →
      e ∈ wm.entriesOf p ∨ (p, e) = (path, entry) := by
    intro p e he
    rw [hentries] at he
    split at he
    · rename_i hp
      rw [hp]
      exact (List.mem_append.mp he).imp_right fun h => by rw [List.mem_singleton.mp h]
    · exact Or.inl he
  have hsub : ∀ p, (wm.entriesOf p).Sublist
      ((wm.addWatch path callback mode userData).entriesOf p) := by
    intro p
    rw [hentries]
    split
    · rename_i hp
      rw [hp]
      exact List.sublist_append_left _ _
    · exact List.Sublist.refl _
  constructor
  · intro i a ha
    rw [hadded, List.getElem?_append] at ha
    split at ha
    · exact hk.numbered i a ha
    · obtain ⟨hi, rfl⟩ := List.getElem?_eq_some_iff.mp ha
      simp only [List.length_singleton] at hi
      simp only [List.getElem_singleton, entry]
      omega
  · intro a ha
    rcases List.mem_append.mp (hadded ▸ ha) with hold | hnew
    · exact hk.modes a hold
    · rw [List.mem_singleton.mp hnew]
  · intro p e he
    rw [hadded]
    rcases hmem p e he with hold | hnew
    · exact List.mem_append_left _ (hk.live p e hold)
    · exact List.mem_append_right _ (List.mem_singleton.mpr hnew)
  · intro p
    rw [hentries]
    split
    · rw [← List.concat_eq_append]
      exact (hk.nodup path).concat fun h => hfresh path (hk.live path entry h)
    · exact hk.nodup p
  · intro a ha honce hkeep
    rcases List.mem_append.mp (hadded ▸ ha) with hold | hnew
    · exact (hsub a.1).subset (hk.standing a hold honce hkeep)
    · rw [List.mem_singleton.mp hnew, hentries, if_pos rfl]
      exact List.mem_append_right _ List.mem_cons_self
  · intro f hf
    have hc := hk.copied f hf
    exact ⟨fun e he => List.mem_append_left _ (hc.added e he), hc.nodup, hc.due, hc.rest⟩
  · exact hk.once
  · intro f hf hreturned e he honce hin
    rcases hmem f.path e hin with hold | hnew
    · exact hk.retired f hf hreturned e he honce hold
    · exact hfresh path (hnew ▸ (hk.copied f hf).added e he)

theorem shrink (hk : Kept wm) (hadded : wm'.added = wm.added)
    (hnotifies : wm'.notifies = wm.notifies)
    (hsub : ∀ p, (wm'.entriesOf p).Sublist (wm.entriesOf p))
    (hstanding : ∀ a ∈ wm.added, a.2.isOnce = false → a.2.registration ∉ wm'.removed →
      a.2 ∈ wm'.entriesOf a.1) : Kept wm' where
  numbered := hadded ▸ hk.numbered
  modes := hadded ▸ hk.modes
  live p e he := hadded ▸ hk.live p e ((hsub p).subset he)
  nodup p := (hsub p).nodup (hk.nodup p)
  standing := hadded ▸ hstanding
  copied := hadded ▸ hnotifies ▸ hk.copied
  once := hnotifies ▸ hk.once
  retired f hf hreturned e he honce hin :=
    hk.retired f (hnotifies ▸ hf) hreturned e he honce ((hsub f.path).subset hin)

theorem setNotify (hk : Kept wm) {n : Nat} {f f' : NotifyCall} (hf : wm.notifies[n]? = some f)
    (hnotifies : wm'.notifies = wm.notifies.set n f') (hadded : wm'.added = wm.added)
    (hremoved : wm'.removed = wm.removed) (hentries : ∀ p, wm'.entriesOf p = wm.entriesOf p)
    (hpath : f'.path = f.path) (hcopy : f'.tempEntries = f.tempEntries) (hdue : f'.due = f.due)
    (hrest : f'.returned = true → f'.rest = [])
    (hretired : f'.returned = true → ∀ e ∈ f.tempEntries, e.isOnce = true →
      e ∉ wm.entriesOf f.path) : Kept wm' := by
  have hcopied := hk.copied f (List.mem_of_getElem? hf)
  have hmem : ∀ g ∈ wm'.notifies, g ∈ wm.notifies ∨ g = f' := fun g hg =>
    List.mem_or_eq_of_mem_set (hnotifies ▸ hg)
  constructor
  · exact hadded ▸ hk.numbered
  · exact hadded ▸ hk.modes
  · intro p e he
    rw [hadded]
    exact hk.live p e (hentries p ▸ he)
  · intro p
    exact (hentries p).symm ▸ hk.nodup p
  · intro a ha honce hkeep
    rw [hadded] at ha
    rw [hremoved] at hkeep
    rw [hentries]
    exact hk.standing a ha honce hkeep
  · intro g hg
    rw [hadded]
    rcases hmem g hg with hold | rfl
    · exact hk.copied g hold
    · refine ⟨?_, hcopy ▸ hcopied.nodup, ?_, hrest⟩
      · rw [hcopy, hpath]
        exact hcopied.added
      · rw [hcopy, hdue]
        exact hcopied.due
  · intro e honce
    have hcount := count_flatMap_set hf (·.tempEntries) f' e
    have hold := hk.once e honce
    rw [hcopy] at hcount
    rw [hnotifies]
    omega
  · intro g hg hreturned e he honce
    rw [hentries]
    rcases hmem g hg with hold | rfl
    · exact hk.retired g hold hreturned e he honce
    · rw [hpath]
      exact hretired hreturned e (hcopy ▸ he) honce

theorem removeWatch (hk : Kept wm) (path : Bytes) (callback : Nat) :
    Kept (wm.removeWatch path callback).1 := by
  unfold WatchManager.removeWatch
  cases hw : wm.watchers path with
  | none => exact hk
  | some entries =>
      have hold : wm.entriesOf path = entries := by
        rw [WatchManager.entriesOf, hw, Option.getD_some]
      dsimp only
      apply hk.shrink
      · rfl
      · rfl
      · intro p
        rw [WatchManager.entriesOf, getD_update]
        split
        · rename_i hp
          rw [hp, hold]
          exact eraseCallback_sublist _ _
        · exact List.Sublist.refl _
      · intro a ha honce hkeep
        simp only [List.mem_append, not_or] at hkeep
        have hin := hk.standing a ha honce hkeep.1
        rw [WatchManager.entriesOf, getD_update]
        split
        · rename_i hp
          rw [hp, hold] at hin
          apply mem_eraseP hin
          rintro x hx rfl
          apply hkeep.2
          rw [hx]
          exact List.mem_cons_self
        · exact hin

theorem notify (hk : Kept wm) {path : Bytes} {type : ConfigEventType} {data : Nat}
    (hready : Ready wm (.notify path type data)) : Kept (wm.notify path type data) := by
  obtain ⟨f, hf, hpath, hcopy, hdue, hrest⟩ : ∃ f : NotifyCall,
      (wm.notify path type data).notifies = wm.notifies ++ [f] ∧ f.path = path ∧
        f.tempEntries = wm.entriesOf path ∧ f.due = wm.standing path ∧
        (f.returned = true → f.tempEntries = []) := by
    refine ⟨_, rfl, ?_⟩
    rw [WatchManager.entriesOf]
    cases wm.watchers path with
    | none => exact ⟨rfl, rfl, rfl, fun _ => rfl⟩
    | some entries => exact ⟨rfl, rfl, rfl, fun h => absurd h Bool.false_ne_true⟩
  have hmem : ∀ g ∈ (wm.notify path type data).notifies, g ∈ wm.notifies ∨ g = f := by
    intro g hg
    rw [hf] at hg
    exact (List.mem_append.mp hg).imp_right List.mem_singleton.mp
  constructor
  · exact hk.numbered
  · exact hk.modes
  · exact hk.live
  · exact hk.nodup
  · exact hk.standing
  · intro g hg
    rcases hmem g hg with hold | rfl
    · exact hk.copied g hold
    · refine ⟨?_, hcopy ▸ hk.nodup path, ?_, fun h => ?_⟩
      · rw [hcopy, hpath]
        exact hk.live path
      · intro e he
        rw [hdue, WatchManager.standing, List.mem_map] at he
        obtain ⟨a, ha, rfl⟩ := he
        simp only [List.mem_filter, Bool.and_eq_true, decide_eq_true_eq] at ha
        obtain ⟨hadded, ⟨rfl, hmode⟩, hkeep⟩ := ha
        rw [hcopy]
        apply hk.standing a hadded _ hkeep
        rw [hk.modes a hadded]
        exact decide_eq_false hmode
      · exact (List.append_eq_nil_iff.mp (hrest h)).2
  · intro e honce
    rw [hf, List.flatMap_append, List.count_append, List.flatMap_singleton, hcopy]
    have hold := hk.once e honce
    have hnew := List.nodup_iff_count_le_one.mp (hk.nodup path) e
    by_cases he : e ∈ wm.entriesOf path
    · have hnone : (wm.notifies.flatMap (·.tempEntries)).count e = 0 := by
        rw [List.count_eq_zero]
        intro hin
        obtain ⟨g, hg, heg⟩ := List.mem_flatMap.mp hin
        cases hreturned : g.returned with
        | false => exact hready e he honce g hg hreturned heg
        | true =>
            have hsame := hk.path_unique ((hk.copied g hg).added e heg) (hk.live path e he)
            exact hk.retired g hg hreturned e heg honce (hsame ▸ he)
      omega
    · rw [List.count_eq_zero.mpr he]
      omega
  · intro g hg hreturned e he
    rcases hmem g hg with hold | rfl
    · exact hk.retired g hold hreturned e he
    · rw [hrest hreturned] at he
      exact absurd he List.not_mem_nil

theorem call (hk : Kept wm) {n : Nat} (h : wm.call n = some wm') : Kept wm' := by
  obtain ⟨f, e, rest, hf, hrest, rfl⟩ := call_cases h
  have hbusy : f.returned = true → f.rest = [] := (hk.copied f (List.mem_of_getElem? hf)).rest
  have hopen : ¬f.returned = true := fun h => List.cons_ne_nil e rest (hrest ▸ hbusy h)
  apply hk.setNotify hf
  · rfl
  · rfl
  · rfl
  · exact fun _ => rfl
  · rfl
  · rw [NotifyCall.tempEntries, NotifyCall.tempEntries, hrest, List.append_assoc,
      List.singleton_append]
  · rfl
  · exact fun h => absurd h hopen
  · exact fun h => absurd h hopen

theorem retire (hk : Kept wm) {n : Nat} (hready : Ready wm (.retire n))
    (h : wm.retire n = some wm') : Kept wm' := by
  obtain ⟨f, hf, hrest, hnotifies, hadded, hremoved, hentries⟩ := retire_cases h
  have hcopied := hk.copied f (List.mem_of_getElem? hf)
  have hcalls : f.tempEntries = f.calls := by
    rw [NotifyCall.tempEntries, hrest, List.append_nil]
  have honly := hready f hf
  -- the lists shrink first, and then the notification returns
  let shrunk : WatchManager := { wm' with notifies := wm.notifies }
  have hsub : ∀ p, (shrunk.entriesOf p).Sublist (wm.entriesOf p) := by
    intro p
    change (wm'.entriesOf p).Sublist _
    rw [hentries]
    split
    · exact foldl_eraseCallback_sublist _ _
    · exact List.Sublist.refl _
  have hshrunk : Kept shrunk := by
    apply hk.shrink
    · exact hadded
    · rfl
    · exact hsub
    · intro a ha honce hkeep
      have hin := hk.standing a ha honce (hremoved ▸ hkeep)
      change a.2 ∈ wm'.entriesOf a.1
      rw [hentries]
      split
      · rename_i hp
        rw [← hp] at honly
        exact mem_retired honly hin fun h => absurd (honce.symm.trans h.1) Bool.false_ne_true
      · exact hin
  apply hshrunk.setNotify hf
  · exact hnotifies
  · rfl
  · rfl
  · exact fun _ => rfl
  · rfl
  · rfl
  · rfl
  · exact fun _ => hrest
  · intro _ e he honce
    change e ∉ wm'.entriesOf f.path
    rw [hentries, if_pos rfl]
    exact not_mem_retired honly (hk.nodup f.path) (hcalls ▸ he) honce

/-- **One step keeps the invariant.** -/
theorem step (hk : Kept wm) {e : WatchStep} (hready : Ready wm e)
    (h : watchMachine.step wm e = some wm') : Kept wm' := by
  cases e with
  | addWatch path callback mode userData =>
      cases h
      exact hk.addWatch path callback mode userData
  | removeWatch path callback =>
      cases h
      exact hk.removeWatch path callback
  | notify path type data =>
      cases h
      exact hk.notify hready
  | call n => exact hk.call h
  | retire n => exact hk.retire hready h

end Kept

end Invariant

/-! ## The modes -/

/-- A once watch is called at most once, and a notification that has returned
called the other watches of its path that stood when it began. -/
structure ModesHonoured (wm : WatchManager) : Prop where
  once : ∀ a ∈ wm.added, a.2.mode = .once → (wm.notifies.flatMap (·.calls)).count a.2 ≤ 1
  persistent : ∀ f ∈ wm.notifies, f.returned = true → ∀ e ∈ f.due, e ∈ f.calls

theorem count_calls_le (fs : List NotifyCall) (e : WatcherEntry) :
    (fs.flatMap (·.calls)).count e ≤ (fs.flatMap (·.tempEntries)).count e := by
  induction fs with
  | nil => exact Nat.le_refl 0
  | cons f fs ih =>
      simp only [List.flatMap_cons, NotifyCall.tempEntries, List.count_append] at ih ⊢
      omega

theorem Kept.honoured {wm : WatchManager} (hk : Kept wm) : ModesHonoured wm where
  once a ha hmode := by
    have honce : a.2.isOnce = true := (hk.modes a ha).trans (decide_eq_true hmode)
    exact (count_calls_le wm.notifies a.2).trans (hk.once a.2 honce)
  persistent f hf hreturned e he := by
    have hcopied := hk.copied f hf
    have hcopy := hcopied.due e he
    rwa [NotifyCall.tempEntries, hcopied.rest hreturned, List.append_nil] at hcopy

/-- **The modes are honoured** in every run of such steps. -/
theorem modes_honoured {wm : WatchManager} (h : watchMachine.ReachableMeeting Ready wm) :
    ModesHonoured wm :=
  Kept.honoured (h.invariant Kept.init fun _ _ _ hk hready hstep => hk.step hready hstep)

/-! ## Calls one after the other -/

theorem take_countP_iff {l : List WatcherEntry} {p : WatcherEntry → Bool} :
    (∀ e ∈ l.take (l.countP p), p e = true) ↔
      l.Pairwise fun x e => p e = true → p x = true := by
  induction l with
  | nil => simp
  | cons a l ih =>
      rw [List.pairwise_cons, ← ih]
      by_cases ha : p a = true
      · rw [List.countP_cons_of_pos ha, List.take_succ_cons, List.forall_mem_cons]
        simp [ha]
      · rw [List.countP_cons_of_neg ha]
        constructor
        · intro h
          have hzero : l.countP p = 0 := by
            by_contra hne
            obtain ⟨n, hn⟩ := Nat.exists_eq_succ_of_ne_zero hne
            rw [hn, List.take_succ_cons] at h
            exact ha (h a List.mem_cons_self)
          refine ⟨fun e he hpe => absurd hpe (List.countP_eq_zero.mp hzero e he), ?_⟩
          rw [hzero]
          exact fun e he => absurd he List.not_mem_nil
        · rintro ⟨hall, -⟩
          have hzero : l.countP p = 0 :=
            List.countP_eq_zero.mpr fun e he hpe => ha (hall e he hpe)
          rw [hzero]
          exact fun e he => absurd he List.not_mem_nil

/-- **A notification that nothing interrupts** retires what it called exactly when no
once watch of its path stands behind a watch of the same callback that is not. -/
theorem retiresOnly_self_iff {l : List WatcherEntry} :
    RetiresOnly l l ↔
      l.Pairwise fun x e => x.callback = e.callback → e.isOnce = true → x.isOnce = true := by
  have hcount : ∀ c, ((l.filter fun e => e.isOnce).map (·.callback)).count c =
      (l.filter (sameCallback c)).countP fun e => e.isOnce := by
    intro c
    rw [List.count_eq_countP, List.countP_map, List.countP_filter, List.countP_filter]
    apply List.countP_congr
    intro e _
    simp [sameCallback, and_comm]
  have honce : ∀ c, (∀ e ∈ (l.filter (sameCallback c)).take
      (((l.filter fun e => e.isOnce).map (·.callback)).count c), e.isOnce = true ∧ e ∈ l) ↔
      l.Pairwise fun x e => sameCallback c x = true → sameCallback c e = true →
        e.isOnce = true → x.isOnce = true := by
    intro c
    rw [hcount, ← List.pairwise_filter, ← take_countP_iff]
    refine forall₂_congr fun e he => and_iff_left ?_
    exact (List.mem_filter.mp (List.mem_of_mem_take he)).1
  unfold RetiresOnly
  simp only [honce, List.pairwise_iff_forall_sublist]
  constructor
  · intro h x e hsub hsame
    exact h e.callback hsub (decide_eq_true hsame) (decide_eq_true rfl)
  · intro h c x e hsub hx he
    exact h hsub ((of_decide_eq_true hx).trans (of_decide_eq_true he).symm)

/-- One watch that is called and retired, and one that stays. -/
def onceThenPersistent : List WatchStep :=
  [.addWatch (ascii "/a") 1 .once 0, .addWatch (ascii "/a") 1 .persistent 0,
   .notify (ascii "/a") .enterActive 0, .call 0, .call 0, .retire 0,
   .notify (ascii "/a") .enterActive 0, .call 1, .retire 1]

theorem onceThenPersistent_honoured :
    ∃ wm, watchMachine.run {} onceThenPersistent = some wm ∧ ModesHonoured wm := by
  have hretires : RetiresOnly [⟨1, .once, 0, true, 0⟩, ⟨1, .persistent, 0, false, 1⟩]
      [⟨1, .once, 0, true, 0⟩, ⟨1, .persistent, 0, false, 1⟩] :=
    retiresOnly_self_iff.mpr (by decide)
  have hnone : RetiresOnly [⟨1, .persistent, 0, false, 1⟩] [⟨1, .persistent, 0, false, 1⟩] :=
    retiresOnly_self_iff.mpr (by decide)
  have hmeets : watchMachine.RunMeets Ready {} onceThenPersistent := by
    refine ⟨trivial, trivial, fun _ _ _ f hf => absurd hf List.not_mem_nil, trivial, trivial, ?_,
      ?_, trivial, ?_, trivial⟩
    · intro f hf
      cases hf
      exact hretires
    · intro e he honce
      rw [List.mem_singleton.mp he] at honce
      cases honce
    · intro f hf
      cases hf
      exact hnone
  have hrun : watchMachine.run {} onceThenPersistent = some _ := rfl
  exact ⟨_, hrun, modes_honoured ((Machine.ReachableMeeting.init _ _).run hmeets hrun)⟩

def persistentThenOnce : List WatchStep :=
  [.addWatch (ascii "/a") 1 .persistent 0, .addWatch (ascii "/a") 1 .once 0,
   .notify (ascii "/a") .enterActive 0, .call 0, .call 0, .retire 0,
   .notify (ascii "/a") .enterActive 0, .call 1, .retire 1]

/-- The retirement of the once watch erases the other one, and the once watch is
called again. -/
theorem persistentThenOnce_not_honoured :
    ∃ wm, watchMachine.run {} persistentThenOnce = some wm ∧ ¬ModesHonoured wm := by
  refine ⟨_, rfl, fun h => ?_⟩
  have hcount := h.once (ascii "/a", ⟨1, .once, 0, true, 1⟩) (by decide) rfl
  exact absurd hcount (by decide)

end BlessStar.State.Proofs.WatchModes
