import Mathlib.Logic.Relation

/-!
# State machines and their runs

A machine takes labelled steps; a step that is not enabled has no result.  A
run may be restricted to steps that meet a condition on the state before them,
and an invariant of such steps holds in every state the run reaches.  What a
run shows to the outside is a history of marks, specified by what each mark
requires of the marks before it, or a walk whose marks lead from one place to
the next.
-/

namespace BlessStar.Lib.Transition

universe u v

structure Machine (σ : Type u) (ε : Type v) where
  init : σ
  step : σ → ε → Option σ

namespace Machine

variable {σ : Type u} {ε : Type v} (m : Machine σ ε)

/-- One step whose label meets `meets` in the state it is taken from. -/
def StepMeeting (meets : σ → ε → Prop) (s s' : σ) : Prop :=
  ∃ e, meets s e ∧ m.step s e = some s'

/-- `s` is reached from the initial state by steps that all meet `meets`. -/
def ReachableMeeting (meets : σ → ε → Prop) (s : σ) : Prop :=
  Relation.ReflTransGen (m.StepMeeting meets) m.init s

/-- `s` is reached from the initial state. -/
def Reachable (s : σ) : Prop := m.ReachableMeeting (fun _ _ => True) s

theorem ReachableMeeting.init (meets : σ → ε → Prop) : m.ReachableMeeting meets m.init :=
  Relation.ReflTransGen.refl

variable {m}

theorem ReachableMeeting.step {meets : σ → ε → Prop} {s s' : σ} {e : ε}
    (h : m.ReachableMeeting meets s) (he : meets s e) (hs : m.step s e = some s') :
    m.ReachableMeeting meets s' :=
  Relation.ReflTransGen.tail h ⟨e, he, hs⟩

/-- **The invariant rule.**  A property of the initial state that every step
meeting `meets` preserves holds in every state such steps reach. -/
theorem ReachableMeeting.invariant {meets : σ → ε → Prop} {I : σ → Prop} (hinit : I m.init)
    (hstep : ∀ s e s', I s → meets s e → m.step s e = some s' → I s') {s : σ}
    (h : m.ReachableMeeting meets s) : I s := by
  induction h with
  | refl => exact hinit
  | tail _ hlast ih =>
      obtain ⟨e, he, hs⟩ := hlast
      exact hstep _ e _ ih he hs

theorem ReachableMeeting.reachable {meets : σ → ε → Prop} {s : σ}
    (h : m.ReachableMeeting meets s) : m.Reachable s := by
  induction h with
  | refl => exact Relation.ReflTransGen.refl
  | tail _ hlast ih =>
      obtain ⟨e, -, hs⟩ := hlast
      exact ReachableMeeting.step ih trivial hs

/-- The state after these labels, if all of them are enabled. -/
def run (m : Machine σ ε) : σ → List ε → Option σ
  | s, [] => some s
  | s, e :: es => (m.step s e).bind fun s' => m.run s' es

/-- Every label of a run meets `meets` in the state it is taken from. -/
def RunMeets (m : Machine σ ε) (meets : σ → ε → Prop) : σ → List ε → Prop
  | _, [] => True
  | s, e :: es => meets s e ∧ match m.step s e with
      | some s' => m.RunMeets meets s' es
      | none => True

theorem RunMeets.of_forall {meets : σ → ε → Prop} {s : σ} {es : List ε}
    (h : ∀ e ∈ es, ∀ t, meets t e) : m.RunMeets meets s es := by
  induction es generalizing s with
  | nil => trivial
  | cons e es ih =>
      refine ⟨h e List.mem_cons_self s, ?_⟩
      split
      · exact ih fun e' he' => h e' (List.mem_cons_of_mem e he')
      · trivial

theorem ReachableMeeting.run {meets : σ → ε → Prop} {s s' : σ} {es : List ε}
    (h : m.ReachableMeeting meets s) (hes : m.RunMeets meets s es)
    (hrun : m.run s es = some s') : m.ReachableMeeting meets s' := by
  induction es generalizing s with
  | nil =>
      cases hrun
      exact h
  | cons e es ih =>
      obtain ⟨t, ht, hrest⟩ := Option.bind_eq_some_iff.mp hrun
      obtain ⟨he, hes⟩ := hes
      rw [ht] at hes
      exact ih (h.step he ht) hes hrest

theorem reachable_of_run {s : σ} (es : List ε) (hrun : m.run m.init es = some s) :
    m.Reachable s :=
  ReachableMeeting.run (.init m _) (RunMeets.of_forall fun _ _ _ => trivial) hrun

/-- Any steps from `s` to `s'`. -/
def Leads (m : Machine σ ε) (s s' : σ) : Prop :=
  Relation.ReflTransGen (m.StepMeeting fun _ _ => True) s s'

theorem Leads.refl (s : σ) : m.Leads s s := Relation.ReflTransGen.refl

theorem Leads.head {s s' s'' : σ} (e : ε) (hs : m.step s e = some s') (h : m.Leads s' s'') :
    m.Leads s s'' :=
  Relation.ReflTransGen.head ⟨e, trivial, hs⟩ h

theorem Leads.trans {s s' s'' : σ} (h : m.Leads s s') (h' : m.Leads s' s'') : m.Leads s s'' :=
  Relation.ReflTransGen.trans h h'

end Machine

section Histories

variable {μ : Type u} {G : List μ → μ → Prop}

def Guarded (G : List μ → μ → Prop) (log : List μ) : Prop :=
  ∀ past mark future, log = past ++ mark :: future → G past mark

theorem Guarded.nil : Guarded G [] := by
  intro past mark future h
  simp at h

theorem guarded_append_singleton {log : List μ} {mark : μ} :
    Guarded G (log ++ [mark]) ↔ Guarded G log ∧ G log mark := by
  constructor
  · intro h
    refine ⟨fun past x future hlog => h past x (future ++ [mark]) ?_, h log mark [] rfl⟩
    rw [hlog, List.append_assoc, List.cons_append]
  · rintro ⟨h, hmark⟩ past x future hlog
    rcases List.eq_nil_or_concat future with rfl | ⟨init, last, rfl⟩
    · obtain ⟨rfl, hx⟩ := List.append_inj' hlog rfl
      rwa [← (List.singleton_inj.mp hx)]
    · rw [List.concat_eq_append, ← List.cons_append, ← List.append_assoc] at hlog
      exact h past x init (List.append_inj' hlog rfl).1

theorem pair_sublist_concat {log : List μ} {a b mark : μ} :
    [a, b].Sublist (log ++ [mark]) ↔ [a, b].Sublist log ∨ (b = mark ∧ a ∈ log) := by
  constructor
  · intro h
    obtain ⟨front, back, heq, hfront, hback⟩ := List.sublist_append_iff.mp h
    rcases List.sublist_cons_iff.mp hback with hnil | ⟨rest, rfl, hnil⟩
    · obtain rfl := List.sublist_nil.mp hnil
      rw [List.append_nil] at heq
      exact Or.inl (heq ▸ hfront)
    · obtain rfl := List.sublist_nil.mp hnil
      obtain ⟨rfl, hb⟩ := List.append_inj' (show [a] ++ [b] = front ++ [mark] from heq) rfl
      exact Or.inr ⟨List.singleton_inj.mp hb, List.singleton_sublist.mp hfront⟩
  · rintro (h | ⟨rfl, ha⟩)
    · exact h.trans (List.sublist_append_left _ _)
    · exact (List.singleton_sublist.mpr ha).append (List.Sublist.refl [b])

end Histories

section Walks

variable {μ : Type u} {α : Type v} {source target : μ → α} {start : α}

def IsWalk (source target : μ → α) : α → List μ → Prop
  | _, [] => True
  | start, mark :: rest => source mark = start ∧ IsWalk source target (target mark) rest

def walkEnd (target : μ → α) : α → List μ → α
  | start, [] => start
  | _, mark :: rest => walkEnd target (target mark) rest

theorem walkEnd_append_singleton (log : List μ) (mark : μ) :
    walkEnd target start (log ++ [mark]) = target mark := by
  induction log generalizing start with
  | nil => rfl
  | cons first rest ih => exact ih

theorem isWalk_append_singleton {log : List μ} {mark : μ} :
    IsWalk source target start (log ++ [mark]) ↔
      IsWalk source target start log ∧ source mark = walkEnd target start log := by
  induction log generalizing start with
  | nil => simp [IsWalk, walkEnd]
  | cons first rest ih =>
      rw [List.cons_append, IsWalk, IsWalk, walkEnd, ih, and_assoc]

end Walks

end BlessStar.Lib.Transition
