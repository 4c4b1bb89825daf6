import BlessStar.Lib.ByteString
import BlessStar.Lib.Transition

/-!
# The custom gates of a session

`ConfigReloadSession::AddCustomGate` and `ResetGates` of
`config_reload_session.cpp` on the vector of the entries and the memory it
stands in.  An entry points to itself; a vector that grows moves its entries to
a new block, as large and wherever the library and the allocator decide, and
frees the old one.  Addresses count entries.
-/

namespace BlessStar.Sdk

open Lib.ByteString Lib.Transition

/-- `CustomGateEntry`; the function is known by its address. -/
structure CustomGateEntry where
  gateId : Bytes
  astJson : Bytes
  fn : Option Nat
  userCtx : Option Nat := none
  deriving DecidableEq

/-- `custom_gates_`: the block it stands in, and its entries. -/
structure CustomGates where
  block : Nat := 0
  capacity : Nat := 0
  entries : List CustomGateEntry := []
  fits : entries.length ≤ capacity

/-- A call; `block` and `capacity` are those of the next block, if the vector has to grow. -/
inductive GateCall
  | addCustomGate (entry : CustomGateEntry) (block capacity : Nat)
  | resetGates

namespace CustomGates

def entryAt (gates : CustomGates) (ptr : Nat) : Option CustomGateEntry :=
  if gates.block ≤ ptr then gates.entries[ptr - gates.block]? else none

/-- The end of `AddCustomGate`, with room for the entry. -/
def push (gates : CustomGates) (entry : CustomGateEntry)
    (room : gates.entries.length < gates.capacity) : CustomGates where
  block := gates.block
  capacity := gates.capacity
  entries := gates.entries ++
    [{ entry with userCtx := some (gates.block + gates.entries.length) }]
  fits := by rwa [List.length_append]

def moveTo (gates : CustomGates) (block capacity : Nat)
    (larger : gates.entries.length < capacity) : CustomGates where
  block := block
  capacity := capacity
  entries := gates.entries
  fits := Nat.le_of_lt larger

def Apart (gates : CustomGates) (block capacity : Nat) : Prop :=
  block + capacity ≤ gates.block ∨ gates.block + gates.capacity ≤ block

instance (gates : CustomGates) (block capacity : Nat) : Decidable (gates.Apart block capacity) :=
  inferInstanceAs (Decidable (_ ∨ _))

def step (gates : CustomGates) : GateCall → Option CustomGates
  | .addCustomGate entry block capacity =>
      if entry.fn = none then some gates
      else if room : gates.entries.length < gates.capacity then some (gates.push entry room)
      else if larger : gates.entries.length < capacity then
        if gates.Apart block capacity then
          some ((gates.moveTo block capacity larger).push entry larger)
        else none
      else none
  | .resetGates => some { gates with entries := [], fits := Nat.zero_le _ }

/-- `bs_custom_gate_eval` reads the syntax tree through its context. -/
def evaluatedAst (gates : CustomGates) (userCtx : Option Nat) : Option Bytes :=
  (userCtx.bind gates.entryAt).map CustomGateEntry.astJson

def EvaluatesOwn (gates : CustomGates) : Prop :=
  ∀ (i : Nat) (entry : CustomGateEntry), gates.entries[i]? = some entry →
    entry.userCtx = some (gates.block + i) ∧
      gates.evaluatedAst entry.userCtx = some entry.astJson

def MovesNone (gates : CustomGates) : GateCall → Prop
  | .addCustomGate entry _ _ =>
      entry.fn = none ∨ gates.entries.length < gates.capacity ∨ gates.entries = []
  | .resetGates => True

/-! ## Entries that point to themselves -/

theorem evaluatesOwn_iff (gates : CustomGates) :
    gates.EvaluatesOwn ↔ ∀ (i : Nat) (entry : CustomGateEntry), gates.entries[i]? = some entry →
      entry.userCtx = some (gates.block + i) := by
  constructor
  · intro h i entry hentry
    exact (h i entry hentry).1
  · intro h i entry hentry
    refine ⟨h i entry hentry, ?_⟩
    rw [h i entry hentry, evaluatedAst, Option.bind_some, entryAt, if_pos (Nat.le_add_right _ _),
      Nat.add_sub_cancel_left, hentry]
    rfl

theorem evaluatesOwn_push (gates : CustomGates) (entry : CustomGateEntry)
    (room : gates.entries.length < gates.capacity) :
    (gates.push entry room).EvaluatesOwn ↔ gates.EvaluatesOwn := by
  simp only [evaluatesOwn_iff, push]
  constructor
  · intro h i e he
    obtain ⟨hlt, -⟩ := List.getElem?_eq_some_iff.mp he
    exact h i e (by rw [List.getElem?_append_left hlt, he])
  · intro h i e he
    rcases Nat.lt_or_ge i gates.entries.length with hlt | hge
    · rw [List.getElem?_append_left hlt] at he
      exact h i e he
    · rw [List.getElem?_append_right hge] at he
      have hlast := List.mem_of_getElem? he
      rw [List.mem_singleton] at hlast
      have hi : i - gates.entries.length < 1 := (List.getElem?_eq_some_iff.mp he).1
      rw [hlast]
      simp only [Option.some.injEq]
      omega

theorem not_evaluatesOwn_moveTo {gates : CustomGates} (h : gates.EvaluatesOwn) {block : Nat}
    (hblock : block ≠ gates.block) {capacity : Nat} (larger : gates.entries.length < capacity)
    (hsome : gates.entries ≠ []) : ¬(gates.moveTo block capacity larger).EvaluatesOwn := by
  rw [evaluatesOwn_iff] at h ⊢
  intro hmoved
  obtain ⟨entry, rest, hentries⟩ := List.exists_cons_of_ne_nil hsome
  have hfirst : gates.entries[0]? = some entry := by rw [hentries]; rfl
  have hold := h 0 entry hfirst
  have hnew := hmoved 0 entry hfirst
  rw [hold, Option.some.injEq] at hnew
  exact hblock hnew.symm

/-- **One call** keeps the entries pointing to themselves exactly when it moves none. -/
theorem evaluatesOwn_step {gates gates' : CustomGates} (h : gates.EvaluatesOwn) {call : GateCall}
    (hstep : gates.step call = some gates') : gates'.EvaluatesOwn ↔ gates.MovesNone call := by
  cases call with
  | resetGates =>
      cases hstep
      exact iff_of_true (fun i e he => absurd he (by simp)) trivial
  | addCustomGate entry block capacity =>
      rw [step] at hstep
      by_cases hfn : entry.fn = none
      · rw [if_pos hfn, Option.some.injEq] at hstep
        rw [← hstep]
        exact iff_of_true h (Or.inl hfn)
      rw [if_neg hfn] at hstep
      by_cases hroom : gates.entries.length < gates.capacity
      · rw [dif_pos hroom, Option.some.injEq] at hstep
        rw [← hstep, evaluatesOwn_push]
        exact iff_of_true h (Or.inr (Or.inl hroom))
      rw [dif_neg hroom] at hstep
      by_cases hlarger : gates.entries.length < capacity
      · rw [dif_pos hlarger, Option.ite_none_right_eq_some, Option.some.injEq] at hstep
        obtain ⟨happart, rfl⟩ := hstep
        refine (evaluatesOwn_push (gates.moveTo block capacity hlarger) entry hlarger).trans ?_
        by_cases hnil : gates.entries = []
        · refine iff_of_true ?_ (Or.inr (Or.inr hnil))
          intro i e he
          simp [moveTo, hnil] at he
        · have hpos := List.length_pos_iff.mpr hnil
          have hfits := gates.fits
          have hblock : block ≠ gates.block := by
            rcases happart with hbelow | habove <;> omega
          refine iff_of_false (not_evaluatesOwn_moveTo h hblock hlarger hnil) ?_
          rintro (hnone | hlt | hempty)
          · exact hfn hnone
          · exact hroom hlt
          · exact hnil hempty
      · rw [dif_neg hlarger] at hstep
        cases hstep

end CustomGates

def customGateMachine : Machine CustomGates GateCall where
  init := { fits := Nat.le_refl 0 }
  step := CustomGates.step

/-- **Every custom gate is evaluated on its own rule** while no call moves an entry. -/
theorem evaluatesOwn_of_reachable {gates : CustomGates}
    (h : customGateMachine.ReachableMeeting CustomGates.MovesNone gates) : gates.EvaluatesOwn := by
  refine h.invariant ?_ fun s call s' hs hmoves hstep => ?_
  · intro i e he
    simp [customGateMachine] at he
  · exact (CustomGates.evaluatesOwn_step hs hstep).mpr hmoves

/-- A gate with an id, evaluated by `bs_custom_gate_eval`. -/
def sampleGate (id ast : String) : CustomGateEntry where
  gateId := ascii id
  astJson := ascii ast
  fn := some 1

/-- A reserved block holds two gates, which a reset removes. -/
theorem evaluatesOwn_two : ∃ gates,
    customGateMachine.run customGateMachine.init [.addCustomGate (sampleGate "a" "1") 100 2,
      .addCustomGate (sampleGate "b" "2") 200 4] = some gates ∧
      gates.entries.length = 2 ∧ gates.EvaluatesOwn := by
  have hrun : customGateMachine.run customGateMachine.init [.addCustomGate (sampleGate "a" "1") 100 2,
      .addCustomGate (sampleGate "b" "2") 200 4] = some _ := rfl
  refine ⟨_, hrun, rfl, evaluatesOwn_of_reachable ?_⟩
  have hmeets : customGateMachine.RunMeets CustomGates.MovesNone customGateMachine.init
      [.addCustomGate (sampleGate "a" "1") 100 2, .addCustomGate (sampleGate "b" "2") 200 4] := by
    refine ⟨Or.inr (Or.inr rfl), Or.inr (Or.inl ?_), trivial⟩
    exact Nat.lt_succ_self 1
  exact (Machine.ReachableMeeting.init _ _).run hmeets hrun

/-- A vector that doubles: the first gate is left with the address of a freed block. -/
theorem first_gate_dangles : ∃ gates entry,
    customGateMachine.run customGateMachine.init [.addCustomGate (sampleGate "a" "1") 100 1,
      .addCustomGate (sampleGate "b" "2") 200 2] = some gates ∧
      gates.entries[0]? = some entry ∧ gates.evaluatedAst entry.userCtx = none ∧
      ¬gates.EvaluatesOwn := by
  refine ⟨_, _, rfl, rfl, by decide, fun h => ?_⟩
  have hfirst := (h 0 _ rfl).1
  exact absurd hfirst (by decide)

end BlessStar.Sdk
