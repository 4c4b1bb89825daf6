import BlessStar.Session.WriteWindow
import Mathlib.Algebra.BigOperators.Fin

/-!
# The depth and the flag of a write session

The depth is only changed by atomic additions, so it counts what is held under
every interleaving.  The flag is stored apart from it, and stays with it along
accesses that act on what still stands.
-/

namespace BlessStar.Session.Proofs.WriteWindows

open Lib.Transition Session

variable {ι : Type} [DecidableEq ι] [Fintype ι] {s s' : WriteSession ι} {t : ι}

theorem wrapInt_of_bound {n : Int} (h0 : 0 ≤ n) (h : n ≤ intMax) : wrapInt n = n := by
  unfold intMax at h
  apply Int.bmod_eq_of_le <;> omega

theorem held_put (s : WriteSession ι) (t : ι) (r : SessionAtomics × WriterThread) :
    (s.put t r).held + (s.threads t).held = s.held + r.2.held := by
  have hrest : ∑ u ∈ Finset.univ.erase t, ((s.put t r).threads u).held =
      ∑ u ∈ Finset.univ.erase t, (s.threads u).held := by
    apply Finset.sum_congr rfl
    intro u hu
    rw [s.put_threads_ne (Finset.ne_of_mem_erase hu)]
  have hself : ((s.put t r).threads t).held = r.2.held := by
    rw [s.put_threads_self]
  have hbefore := Finset.add_sum_erase Finset.univ (fun u => (s.threads u).held) (Finset.mem_univ t)
  have hafter := Finset.add_sum_erase Finset.univ (fun u => ((s.put t r).threads u).held)
    (Finset.mem_univ t)
  simp only [WriteSession.held]
  omega

theorem held_le (s : WriteSession ι) (t : ι) : (s.threads t).held ≤ s.held := by
  have hsum := Finset.add_sum_erase Finset.univ (fun u => (s.threads u).held) (Finset.mem_univ t)
  simp only [WriteSession.held]
  omega

/-! ## The invariant -/

def Owns (th : WriterThread) : Prop :=
  match th.place with
  | .endLoad => 0 < th.windows
  | .endCompare => 0 < th.windows
  | .endUnblock => 0 < th.windows
  | .endLower _ => 0 < th.windows
  | .unlockLoad => 0 < th.locks
  | .unlockLower => 0 < th.locks
  | _ => True

/-- What accesses that are not disturbed keep, whoever is in the middle of a call. -/
structure Kept (s : WriteSession ι) : Prop where
  depth : s.atomics.writeDepth = s.held
  bound : s.atomics.writeDepth ≤ intMax
  owns : ∀ t, Owns (s.threads t)
  raised : 0 < s.atomics.writeDepth → s.atomics.blockNewReads = true ∨
    s.atomics.writeDepth = 1 ∧ ∃ t, (s.threads t).place = .endLower true
  lowered : s.atomics.writeDepth = 0 → s.atomics.blockNewReads = false ∨
    ∃ t, (s.threads t).place.Pending = true

theorem kept_init (closing : Bool) : Kept (writeSession ι closing).init where
  depth := by simp [writeSession, WriteSession.held, WriterThread.held]
  bound := by simp [writeSession, intMax]
  owns _ := trivial
  raised h := by simp [writeSession] at h
  lowered _ := Or.inl rfl

omit [DecidableEq ι] in
theorem Kept.depth_nonneg (h : Kept s) : 0 ≤ s.atomics.writeDepth := by
  rw [h.depth]
  exact Int.natCast_nonneg _

theorem Kept.depth_pos (h : Kept s) (hheld : 0 < (s.threads t).held) :
    0 < s.atomics.writeDepth := by
  have hle := held_le s t
  rw [h.depth]
  omega

omit [DecidableEq ι] in
theorem Kept.balanced (h : Kept s) (hidle : s.Quiescent) : s.Balanced := by
  refine ⟨h.depth, ?_, ?_⟩
  · intro hflag
    have hpos : s.atomics.writeDepth ≠ 0 := by
      intro hzero
      rcases h.lowered hzero with hflag' | ⟨u, hu⟩
      · rw [hflag'] at hflag
        cases hflag
      · rw [hidle u] at hu
        cases hu
    have hnonneg := h.depth_nonneg
    omega
  · intro hpos
    rcases h.raised hpos with hflag | ⟨-, u, hu⟩
    · exact hflag
    · rw [hidle u] at hu
      cases hu

/-! ## One access -/

omit [Fintype ι] in
theorem exists_place_put {p : WriterAt → Prop} {r : SessionAtomics × WriterThread}
    (h : ∃ u, p (s.threads u).place) (hkeep : p (s.threads t).place → p r.2.place) :
    ∃ u, p ((s.put t r).threads u).place := by
  obtain ⟨u, hu⟩ := h
  by_cases hut : u = t
  · subst hut
    exact ⟨u, by rw [s.put_threads_self]; exact hkeep hu⟩
  · exact ⟨u, by rw [s.put_threads_ne hut]; exact hu⟩

omit [Fintype ι] in
theorem exists_place_self {p : WriterAt → Prop} {r : SessionAtomics × WriterThread}
    (h : p r.2.place) : ∃ u, p ((s.put t r).threads u).place :=
  ⟨t, by rw [s.put_threads_self]; exact h⟩

theorem Kept.put (h : Kept s) {r : SessionAtomics × WriterThread}
    (hdepth : r.1.writeDepth + (s.threads t).held = s.atomics.writeDepth + r.2.held)
    (hbound : r.1.writeDepth ≤ intMax) (howns : Owns r.2)
    (hraised : 0 < r.1.writeDepth → r.1.blockNewReads = true ∨
      r.1.writeDepth = 1 ∧ ∃ u, ((s.put t r).threads u).place = .endLower true)
    (hlowered : r.1.writeDepth = 0 → r.1.blockNewReads = false ∨
      ∃ u, ((s.put t r).threads u).place.Pending = true) : Kept (s.put t r) where
  depth := by
    have hheld := held_put s t r
    have hbefore := h.depth
    change r.1.writeDepth = _
    omega
  bound := hbound
  owns u := by
    by_cases hut : u = t
    · subst hut
      rw [s.put_threads_self]
      exact howns
    · rw [s.put_threads_ne hut]
      exact h.owns u
  raised := hraised
  lowered := hlowered

theorem Kept.load (h : Kept s) {r : SessionAtomics × WriterThread}
    (hdepth : r.1.writeDepth = s.atomics.writeDepth)
    (hflag : r.1.blockNewReads = s.atomics.blockNewReads)
    (hheld : r.2.held = (s.threads t).held) (howns : Owns r.2)
    (hlower : (s.threads t).place ≠ .endLower true)
    (hpending : (s.threads t).place.Pending = true → r.2.place.Pending = true) :
    Kept (s.put t r) := by
  apply h.put _ _ howns
  · rw [hdepth, hflag]
    intro hpos
    apply (h.raised hpos).imp_right
    rintro ⟨hone, hclosing⟩
    refine ⟨hone, exists_place_put (p := fun p => p = .endLower true) hclosing ?_⟩
    intro hself
    exact absurd hself hlower
  · rw [hdepth, hflag]
    intro hzero
    apply (h.lowered hzero).imp_right
    intro hwaits
    exact exists_place_put (p := fun p => p.Pending = true) hwaits hpending
  · rw [hdepth, hheld]
  · rw [hdepth]
    exact h.bound

theorem Kept.block (h : Kept s) {th : WriterThread} (hheld : th.held = (s.threads t).held)
    (howns : Owns th) (hpending : th.place.Pending = true) :
    Kept (s.put t (s.atomics.storeBlock true, th)) := by
  apply h.put _ h.bound howns
  · intro _
    exact Or.inl rfl
  · intro _
    exact Or.inr (exists_place_self (p := fun p => p.Pending = true) hpending)
  · simp [hheld]

theorem Kept.unblock (h : Kept s) {th : WriterThread} (hheld : th.held = (s.threads t).held)
    (howns : Owns th)
    (hraised : 0 < s.atomics.writeDepth → s.atomics.writeDepth = 1 ∧
      ∃ u, ((s.put t (s.atomics.storeBlock false, th)).threads u).place = .endLower true) :
    Kept (s.put t (s.atomics.storeBlock false, th)) := by
  apply h.put _ h.bound howns
  · intro hpos
    exact Or.inr (hraised hpos)
  · intro _
    exact Or.inl rfl
  · simp [hheld]

theorem Kept.raise (h : Kept s) {a : SessionAtomics} {th : WriterThread}
    (hdepth : a.writeDepth = s.atomics.writeDepth + 1) (hflag : a.blockNewReads = true)
    (hsmall : s.atomics.writeDepth < intMax) (hheld : th.held = (s.threads t).held + 1)
    (howns : Owns th) : Kept (s.put t (a, th)) := by
  have hnonneg := h.depth_nonneg
  apply h.put _ _ howns
  · intro _
    exact Or.inl hflag
  · intro hzero
    rw [hdepth] at hzero
    omega
  · simp only [hdepth, hheld]
    push_cast
    omega
  · rw [hdepth]
    omega

omit [DecidableEq ι] in
theorem addDepth_one (h : Kept s) (hsmall : s.atomics.writeDepth < intMax) :
    (s.atomics.addDepth 1).writeDepth = s.atomics.writeDepth + 1 := by
  have hnonneg := h.depth_nonneg
  apply wrapInt_of_bound <;> omega

omit [DecidableEq ι] in
theorem addDepth_neg_one (h : Kept s) (hpos : 0 < s.atomics.writeDepth) :
    (s.atomics.addDepth (-1)).writeDepth = s.atomics.writeDepth - 1 := by
  have hbound := h.bound
  apply wrapInt_of_bound <;> omega

theorem Kept.lower (h : Kept s) {th : WriterThread} (hpos : 0 < (s.threads t).held)
    (hheld : th.held = (s.threads t).held - 1) (howns : Owns th)
    (hlast : s.atomics.writeDepth = 1 → s.atomics.blockNewReads = false ∨
      ∃ u, ((s.put t (s.atomics.addDepth (-1), th)).threads u).place.Pending = true) :
    Kept (s.put t (s.atomics.addDepth (-1), th)) := by
  have hdepth := addDepth_neg_one h (h.depth_pos hpos)
  have hbound := h.bound
  apply h.put _ _ howns
  · simp only [hdepth]
    intro hmore
    -- with two or more held nobody is closing the last window
    rcases h.raised (by omega) with hflag | ⟨hone, -⟩
    · exact Or.inl hflag
    · omega
  · simp only [hdepth]
    intro hzero
    exact hlast (by omega)
  · simp only [hdepth, hheld]
    omega
  · simp only [hdepth]
    omega

theorem kept_access (h : Kept s) (hmeets : s.Undisturbed (.access t)) :
    Kept (s.put t ((s.threads t).access s.atomics)) := by
  have howns := h.owns t
  have hclosing : 0 < s.atomics.writeDepth → s.atomics.blockNewReads = false →
      s.atomics.writeDepth = 1 ∧ ∃ u, (s.threads u).place = .endLower true :=
    fun hpos hflag => (h.raised hpos).resolve_left (by simp [hflag])
  unfold WriteSession.Undisturbed at hmeets
  unfold Owns at howns
  unfold WriterThread.access
  cases hplace : (s.threads t).place with
  | idle => exact h.load rfl rfl rfl (by simp [Owns, hplace]) (by simp [hplace]) id
  | beginLoad =>
      apply h.load rfl rfl rfl _ (by simp [hplace]) (by simp [hplace, WriterAt.Pending])
      by_cases hpos : 0 < s.atomics.writeDepth <;> simp [Owns, WriterThread.goTo, hpos]
  | beginBlock => exact h.block (WriterThread.goTo_held _ .beginEpoch) trivial rfl
  | beginEpoch => exact h.load rfl rfl rfl trivial (by simp [hplace]) fun _ => rfl
  | beginRaise nested =>
      simp only [hplace] at hmeets
      apply h.raise (addDepth_one h hmeets.2) hmeets.1 hmeets.2
      · simp only [WriterThread.held]
        omega
      · trivial
  | endLoad =>
      simp only [hplace] at howns
      have hpos : 0 < s.atomics.writeDepth := h.depth_pos (Nat.add_pos_left howns _)
      simp only [hpos.ne', if_false]
      exact h.load rfl rfl rfl howns (by simp [hplace]) (by simp [hplace, WriterAt.Pending])
  | endCompare =>
      simp only [hplace] at howns
      apply h.load rfl rfl rfl _ (by simp [hplace]) (by simp [hplace, WriterAt.Pending])
      by_cases hone : s.atomics.writeDepth = 1 <;> simpa [Owns, WriterThread.goTo, hone] using howns
  | endUnblock =>
      simp only [hplace] at howns hmeets
      apply h.unblock (WriterThread.goTo_held _ (.endLower true)) howns
      intro _
      exact ⟨hmeets, exists_place_self (p := fun p => p = .endLower true) rfl⟩
  | endLower closingOuterWindow =>
      simp only [hplace] at howns hmeets
      have hpos : 0 < (s.threads t).held := Nat.add_pos_left howns _
      apply h.lower hpos
      · simp only [WriterThread.held]
        omega
      · trivial
      · intro hone
        apply (hmeets hone).imp_right
        intro hwaits
        apply exists_place_put (p := fun p => p.Pending = true) hwaits
        simp [hplace, WriterAt.Pending]
  | lockClosing =>
      by_cases hclose : s.atomics.closing = true
      · simp only [hclose, if_true]
        exact h.load rfl rfl rfl trivial (by simp [hplace]) (by simp [hplace, WriterAt.Pending])
      · simp only [hclose]
        exact h.load rfl rfl rfl trivial (by simp [hplace]) (by simp [hplace, WriterAt.Pending])
  | lockLoad =>
      apply h.load rfl rfl rfl _ (by simp [hplace]) (by simp [hplace, WriterAt.Pending])
      by_cases hpos : 0 < s.atomics.writeDepth <;> simp [Owns, WriterThread.goTo, hpos]
  | lockRaise =>
      simp only [hplace] at hmeets
      apply h.raise (addDepth_one h hmeets.2) hmeets.1 hmeets.2
      · simp only [WriterThread.held]
        omega
      · trivial
  | lockBlock => exact h.block (WriterThread.goTo_held _ .lockExchange) trivial rfl
  | lockExchange =>
      simp only [hplace] at hmeets
      by_cases hzero : s.atomics.writeDepth = 0
      · simp only [hzero, if_true]
        apply h.raise
        · simp [hzero]
        · exact hmeets hzero
        · simp [hzero, intMax]
        · simp only [WriterThread.held]
          omega
        · trivial
      · simp only [hzero, if_false]
        exact h.load rfl rfl rfl trivial (by simp [hplace]) fun _ => rfl
  | lockUnblock =>
      simp only [hplace] at hmeets
      apply h.unblock
      · rfl
      · trivial
      · intro hpos
        have hclose := hclosing hpos (hmeets.resolve_left (ne_of_gt hpos))
        refine ⟨hclose.1, exists_place_put (p := fun p => p = .endLower true) hclose.2 ?_⟩
        simp [hplace]
  | unlockLoad =>
      simp only [hplace] at howns
      have hpos : 0 < s.atomics.writeDepth := h.depth_pos (Nat.add_pos_right _ howns)
      simp only [hpos.ne', if_false]
      exact h.load rfl rfl rfl howns (by simp [hplace]) (by simp [hplace, WriterAt.Pending])
  | unlockLower =>
      simp only [hplace] at howns
      have hpos : 0 < (s.threads t).held := Nat.add_pos_right _ howns
      apply h.lower hpos
      · simp only [WriterThread.held]
        omega
      · by_cases hone : s.atomics.writeDepth = 1 <;> simp [Owns, hone]
      · intro hone
        exact Or.inr (exists_place_self (p := fun p => p.Pending = true) (by simp [hone]; rfl))
  | unlockUnblock =>
      simp only [hplace] at hmeets
      apply h.unblock (WriterThread.goTo_held _ .idle) trivial
      intro hpos
      have hclose := hclosing hpos (hmeets.resolve_left (ne_of_gt hpos))
      refine ⟨hclose.1, exists_place_put (p := fun p => p = .endLower true) hclose.2 ?_⟩
      simp [hplace]

theorem kept_call (h : Kept s) {c : WriterCall} {th : WriterThread}
    (hidle : (s.threads t).place = .idle) (hstart : (s.threads t).start c = some th) :
    Kept (s.put t (s.atomics, th)) := by
  have hth : th.held = (s.threads t).held ∧ Owns th := by
    cases c with
    | beginWriteWindow =>
        cases hstart
        exact ⟨rfl, trivial⟩
    | endWriteWindow =>
        simp only [WriterThread.start] at hstart
        split at hstart
        · cases hstart
        · rename_i hwindows
          cases hstart
          exact ⟨rfl, Nat.pos_of_ne_zero hwindows⟩
    | tryWriteLock =>
        cases hstart
        exact ⟨rfl, trivial⟩
    | writeUnlock =>
        simp only [WriterThread.start] at hstart
        split at hstart
        · cases hstart
        · rename_i hlocks
          cases hstart
          exact ⟨rfl, Nat.pos_of_ne_zero hlocks⟩
  exact h.load rfl rfl hth.1 hth.2 (by simp [hidle]) (by simp [hidle, WriterAt.Pending])

theorem kept_step {e : WriterEvent ι} (h : Kept s) (hmeets : s.Undisturbed e)
    (hstep : s.step e = some s') : Kept s' := by
  cases e with
  | call t c =>
      simp only [WriteSession.step] at hstep
      split at hstep
      · rename_i hidle
        obtain ⟨th, hstart, rfl⟩ := Option.map_eq_some_iff.mp hstep
        exact kept_call h hidle hstart
      · cases hstep
  | access t =>
      simp only [WriteSession.step] at hstep
      split at hstep
      · cases hstep
      · cases hstep
        exact kept_access h hmeets

/-! ## Runs -/

theorem kept_of_reachable {closing : Bool}
    (h : (writeSession ι closing).ReachableMeeting WriteSession.Undisturbed s) : Kept s :=
  h.invariant (kept_init closing) fun _ _ _ hkept hmeets hstep => kept_step hkept hmeets hstep

/-- **Accesses that act on what still stands keep the session balanced.** -/
theorem balanced_of_undisturbed (closing : Bool)
    (h : (writeSession ι closing).ReachableMeeting WriteSession.Undisturbed s)
    (hidle : s.Quiescent) : s.Balanced :=
  (kept_of_reachable h).balanced hidle

/-! ## Accesses that act on what no longer stands -/

omit [Fintype ι] in
theorem leads_access (closing : Bool) {r : SessionAtomics × WriterThread}
    (hbusy : (s.threads t).place ≠ .idle) (hr : (s.threads t).access s.atomics = r) :
    (writeSession ι closing).Leads s (s.put t r) := by
  apply Machine.Leads.head (.access t) _ (.refl _)
  simp [writeSession, WriteSession.step, hbusy, hr]

omit [Fintype ι] in
theorem quiescent_put {r : SessionAtomics × WriterThread}
    (hothers : ∀ u, u ≠ t → (s.threads u).place = .idle) (hr : r.2.place = .idle) :
    (s.put t r).Quiescent := by
  intro u
  by_cases hut : u = t
  · rw [hut, s.put_threads_self]
    exact hr
  · rw [s.put_threads_ne hut]
    exact hothers u hut

omit [DecidableEq ι] in
theorem not_balanced_of_flag
    (h : ¬(s.atomics.blockNewReads = true ↔ 0 < s.atomics.writeDepth)) : ¬s.Balanced :=
  fun hbalanced => h hbalanced.2

theorem not_balanced_raise (h : Kept s) {th : WriterThread}
    (hdist : ¬(s.atomics.blockNewReads = true ∧ s.atomics.writeDepth < intMax)) :
    ¬(s.put t (s.atomics.addDepth 1, th)).Balanced := by
  have hnonneg := h.depth_nonneg
  by_cases hsmall : s.atomics.writeDepth < intMax
  · have hflag : s.atomics.blockNewReads ≠ true := fun hflag => hdist ⟨hflag, hsmall⟩
    have hdepth := addDepth_one h hsmall
    apply not_balanced_of_flag
    simp only [WriteSession.put_atomics, SessionAtomics.addDepth_blockNewReads, hdepth]
    intro hiff
    exact hflag (hiff.mpr (by omega))
  · intro hbalanced
    have hmax : s.atomics.writeDepth = intMax := le_antisymm h.bound (not_lt.mp hsmall)
    have hwrapped : (s.atomics.addDepth 1).writeDepth = -2 ^ 31 := by
      have hwrap : wrapInt (intMax + 1) = -2 ^ 31 := by decide
      rw [← hwrap, ← hmax]
      rfl
    have hdepth := hbalanced.1
    rw [WriteSession.put_atomics, hwrapped] at hdepth
    omega

/-- **No other access is safe.**  When nobody else is in the middle of a call,
an access that acts on what no longer stands leads out of balance. -/
theorem unbalanced_of_disturbed (closing : Bool)
    (h : (writeSession ι closing).ReachableMeeting WriteSession.Undisturbed s)
    (hothers : ∀ u, u ≠ t → (s.threads u).place = .idle)
    (hdist : ¬s.Undisturbed (.access t)) :
    ∃ s', (writeSession ι closing).Leads s s' ∧ s'.Quiescent ∧ ¬s'.Balanced := by
  have h := kept_of_reachable h
  have howns := h.owns t
  have hnonneg := h.depth_nonneg
  unfold WriteSession.Undisturbed at hdist
  unfold Owns at howns
  cases hplace : (s.threads t).place with
  | beginRaise nested =>
      simp only [hplace] at hdist
      refine ⟨_, leads_access closing (by simp [hplace]) rfl, quiescent_put hothers ?_, ?_⟩
      · simp [WriterThread.access, hplace]
      · simp only [WriterThread.access, hplace]
        exact not_balanced_raise h hdist
  | lockRaise =>
      simp only [hplace] at hdist
      refine ⟨_, leads_access closing (by simp [hplace]) rfl, quiescent_put hothers ?_, ?_⟩
      · simp [WriterThread.access, hplace]
      · simp only [WriterThread.access, hplace]
        exact not_balanced_raise h hdist
  | lockExchange =>
      simp only [hplace, Classical.not_imp] at hdist
      refine ⟨_, leads_access closing (by simp [hplace]) rfl, quiescent_put hothers ?_, ?_⟩
      · simp [WriterThread.access, hplace, hdist.1]
      · apply not_balanced_of_flag
        simp [WriterThread.access, hplace, hdist.1, hdist.2]
  | endUnblock =>
      simp only [hplace] at hdist howns
      have hpos := h.depth_pos (Nat.add_pos_left howns _)
      have hunblock := leads_access closing (s := s) (t := t) (by simp [hplace]) rfl
      generalize hnext : s.put t ((s.threads t).access s.atomics) = next at hunblock
      have hatomics : next.atomics = s.atomics.storeBlock false := by
        rw [← hnext]
        simp [WriterThread.access, hplace]
      have hthread : (next.threads t).place = .endLower true := by
        rw [← hnext]
        simp [WriterThread.access, hplace, WriterThread.goTo]
      have hlower := leads_access closing (s := next) (t := t) (by simp [hthread]) rfl
      refine ⟨_, hunblock.trans hlower, quiescent_put ?_ ?_, ?_⟩
      · intro u hu
        rw [← hnext, s.put_threads_ne hu]
        exact hothers u hu
      · simp [WriterThread.access, hthread]
      · have hdepth := addDepth_neg_one h hpos
        apply not_balanced_of_flag
        have hafter : (next.atomics.addDepth (-1)).writeDepth = s.atomics.writeDepth - 1 := by
          rw [← hdepth, hatomics]
          rfl
        simp only [WriterThread.access, hthread, WriteSession.put_atomics, hafter]
        rw [hatomics]
        simp
        omega
  | endLower closingOuterWindow =>
      simp only [hplace, Classical.not_imp, not_or] at hdist
      have hdepth := addDepth_neg_one h (by omega)
      refine ⟨_, leads_access closing (by simp [hplace]) rfl, quiescent_put hothers ?_, ?_⟩
      · simp [WriterThread.access, hplace]
      · apply not_balanced_of_flag
        simp [WriterThread.access, hplace, hdepth, hdist.1, hdist.2.1]
  | lockUnblock =>
      simp only [hplace, not_or] at hdist
      refine ⟨_, leads_access closing (by simp [hplace]) rfl, quiescent_put hothers ?_, ?_⟩
      · simp [WriterThread.access, hplace]
      · apply not_balanced_of_flag
        simp only [WriterThread.access, hplace, WriteSession.put_atomics]
        simp
        omega
  | unlockUnblock =>
      simp only [hplace, not_or] at hdist
      refine ⟨_, leads_access closing (by simp [hplace]) rfl, quiescent_put hothers ?_, ?_⟩
      · simp [WriterThread.access, hplace, WriterThread.goTo]
      · apply not_balanced_of_flag
        simp only [WriterThread.access, hplace, WriteSession.put_atomics]
        simp
        omega
  | _ => simp [hplace] at hdist

def staleBegin : List (WriterEvent (Fin 2)) :=
  [.call 1 .beginWriteWindow, .access 1, .access 1, .access 1, .access 1,
    .call 0 .beginWriteWindow, .access 0, .call 1 .endWriteWindow, .access 1, .access 1,
    .access 1, .access 1]

theorem unbalanced_after_staleBegin :
    ∃ s, (writeSession (Fin 2) false).run (writeSession (Fin 2) false).init staleBegin = some s ∧
      ∃ s', (writeSession (Fin 2) false).Leads s s' ∧ s'.Quiescent ∧ ¬s'.Balanced := by
  have hmeets : (writeSession (Fin 2) false).RunMeets WriteSession.Undisturbed
      (writeSession (Fin 2) false).init staleBegin :=
    ⟨trivial, trivial, trivial, trivial, ⟨rfl, by decide⟩, trivial, trivial, trivial, trivial,
      trivial, rfl, fun _ => Or.inl rfl, trivial⟩
  have hrun : ∃ s, (writeSession (Fin 2) false).run (writeSession (Fin 2) false).init staleBegin =
      some s ∧ (∀ u, u ≠ 0 → (s.threads u).place = .idle) ∧ ¬s.Undisturbed (.access 0) :=
    ⟨_, rfl, Fin.forall_fin_two.mpr ⟨fun h => absurd rfl h, fun _ => rfl⟩,
      fun h => absurd h.1 (by decide)⟩
  obtain ⟨s, hs, hothers, hdist⟩ := hrun
  exact ⟨s, hs, unbalanced_of_disturbed false
    (Machine.ReachableMeeting.run (.init _ _) hmeets hs) hothers hdist⟩

/-- One writer opens a window, another one opens a nested window and takes a
lock in it, and the first closes its window. -/
def nestedWriters : List (WriterEvent (Fin 2)) :=
  [.call 0 .beginWriteWindow, .access 0, .call 1 .beginWriteWindow, .access 0, .access 0,
    .access 0, .access 1, .access 1, .call 1 .tryWriteLock, .access 1, .access 1, .access 1,
    .call 0 .endWriteWindow, .access 0, .access 0, .access 0]

theorem balanced_after_nestedWriters :
    ∃ s, (writeSession (Fin 2) false).run (writeSession (Fin 2) false).init nestedWriters = some s ∧
      s.Balanced ∧ s.atomics.writeDepth = 2 := by
  have hmeets : (writeSession (Fin 2) false).RunMeets WriteSession.Undisturbed
      (writeSession (Fin 2) false).init nestedWriters :=
    ⟨trivial, trivial, trivial, trivial, trivial, ⟨rfl, by decide⟩, trivial, ⟨rfl, by decide⟩,
      trivial, trivial, trivial, ⟨rfl, by decide⟩, trivial, trivial, trivial,
      fun h => absurd h (by decide), trivial⟩
  refine ⟨_, rfl, ?_, rfl⟩
  apply balanced_of_undisturbed false
  · exact Machine.ReachableMeeting.run (.init _ _) hmeets rfl
  · exact Fin.forall_fin_two.mpr ⟨rfl, rfl⟩

def twoEnds : List (WriterEvent (Fin 2)) :=
  [.call 0 .beginWriteWindow, .access 0, .access 0, .access 0, .access 0,
    .call 1 .beginWriteWindow, .access 1, .access 1,
    .call 0 .endWriteWindow, .access 0, .access 0, .call 1 .endWriteWindow, .access 1, .access 1,
    .access 0, .access 1]

theorem two_ends_keep_readers_out :
    ¬∀ s, (writeSession (Fin 2) false).Reachable s → s.Quiescent → s.Balanced := by
  intro h
  have hrun : ∃ s, (writeSession (Fin 2) false).run (writeSession (Fin 2) false).init twoEnds =
      some s ∧ s.Quiescent ∧ s.atomics.writeDepth = 0 ∧ s.atomics.blockNewReads = true := by
    exact ⟨_, rfl, Fin.forall_fin_two.mpr ⟨rfl, rfl⟩, rfl, rfl⟩
  obtain ⟨s, hs, hidle, hdepth, hflag⟩ := hrun
  have hpos := (h s (Machine.reachable_of_run _ hs) hidle).2.mp hflag
  omega

end BlessStar.Session.Proofs.WriteWindows
