import BlessStar.Assistant.ExecutionTrace

/-!
# When the evidence of a round is balanced

The ids of nodes come from the number of nodes, the receipts are kept by id.
On the fallback path the balancing looks for the id of the call itself.
-/

namespace BlessStar.Assistant.Proofs.EvidenceBalance

open Lib.ByteString Lib.Utf8Text Assistant

/-- The id of a node behind `n` others. -/
def nodeId (n : Nat) (toolName : Utf16) : Utf16 :=
  utf16Of "call_" ++ toolNameToShort toolName ++ [95] ++ widen (padStart2 (n + 1))

theorem nodeId_ne_nil (n : Nat) (toolName : Utf16) : nodeId n toolName ≠ [] := by
  unfold nodeId
  simp

theorem value_padStart2 (n : Nat) :
    (digitsPrefix 10 (padStart2 n)).foldl (fun acc d => acc * 10 + d) 0 = n := by
  have hzeros : ∀ k, (digitsPrefix 10 (List.replicate k 48 ++ decimal n)).foldl
      (fun acc d => acc * 10 + d) 0 = n := by
    intro k
    induction k with
    | zero => exact value_numeral (by decide) (by decide) n
    | succ k ih =>
        have hzero : digitValue 10 48 = some 0 := by decide
        rw [List.replicate_succ, List.cons_append, digitsPrefix, hzero]
        exact ih
  exact hzeros _

theorem padStart2_inj {m n : Nat} (h : padStart2 m = padStart2 n) : m = n := by
  rw [← value_padStart2 m, h, value_padStart2]

theorem not_mem_padStart2 (n : Nat) : (95 : UInt8) ∉ padStart2 n := by
  intro h
  rcases List.mem_append.mp h with h | h
  · exact absurd (List.eq_of_mem_replicate h) (by decide)
  · have hdigit := (isDigit_of_mem_numeral (by decide) h).decimal_range
    exact absurd hdigit.2 (by decide)

theorem widen_inj {s t : Bytes} (h : widen s = widen t) : s = t := by
  apply List.map_injective_iff.mpr _ h
  intro a b hab
  have := congrArg UInt16.toUInt8 hab
  simpa using this

theorem not_mem_widen {s : Bytes} (h : (95 : UInt8) ∉ s) : (95 : UInt16) ∉ widen s := by
  intro hmem
  obtain ⟨b, hb, heq⟩ := List.mem_map.mp hmem
  have hb95 : b = 95 := by
    have := congrArg UInt16.toUInt8 heq
    simpa using this
  exact h (hb95 ▸ hb)

/-- **An id tells the number of nodes before it.** -/
theorem nodeId_inj {m n : Nat} {name name' : Utf16} (h : nodeId m name = nodeId n name') :
    m = n := by
  have htail : ∀ k name, (nodeId k name).reverse.takeWhile (· ≠ 95) =
      (widen (padStart2 (k + 1))).reverse := by
    intro k name
    have hkeep : ∀ c ∈ (widen (padStart2 (k + 1))).reverse, decide (c ≠ 95) = true := by
      intro c hc
      refine decide_eq_true fun h95 => not_mem_widen (not_mem_padStart2 (k + 1)) ?_
      exact h95 ▸ List.mem_reverse.mp hc
    rw [nodeId, List.reverse_append, List.takeWhile_append_of_pos hkeep, List.reverse_append]
    simp
  have hpad := htail m name
  rw [h, htail n name'] at hpad
  have heq := padStart2_inj (widen_inj (List.reverse_injective hpad))
  omega

@[simp] theorem executeCall_length (s : TraceState) (call : ExecutedCall) :
    (executeCall s call).1.executionTrace.nodes.length = s.executionTrace.nodes.length + 1 := by
  simp [executeCall, ExecutionTraceManager.addNode, ExecutionTraceManager.newRound]

theorem executeCall_find (s : TraceState) (call : ExecutedCall) (id : Utf16) :
    (executeCall s call).1.toolCallRegistry.findByCallId id =
      if id = nodeId s.executionTrace.nodes.length call.toolName then
        some ⟨id, call.toolName, sha256 call.outputSummary,
          if call.success then .success else .failed⟩
      else s.toolCallRegistry.findByCallId id := by
  have hid : (executeCall s call).1.toolCallRegistry.findByCallId id =
      ((nodeId s.executionTrace.nodes.length call.toolName, _) ::
        s.toolCallRegistry.records).lookup id := rfl
  rw [hid, List.lookup_cons]
  by_cases h : id = nodeId s.executionTrace.nodes.length call.toolName
  · have hbeq : (id == nodeId s.executionTrace.nodes.length call.toolName) = true := by simpa using h
    rw [hbeq, if_pos h]
    simp [ExecutionTraceManager.addNode, ExecutionTraceManager.newRound,
      ExecutionTraceManager.nextId, nodeId, h]
  · have hbeq : (id == nodeId s.executionTrace.nodes.length call.toolName) = false := by
      simpa using h
    rw [hbeq, if_neg h]
    rfl

/-- The card of a call behind `n` nodes. -/
def cardOf (n : Nat) (call : ExecutedCall) : ToolCard :=
  ⟨nodeId n call.toolName, call.toolName, call.success⟩

/-- The cards of calls behind `n` nodes. -/
def cardsFrom : Nat → List ExecutedCall → List ToolCard
  | _, [] => []
  | n, call :: calls => cardOf n call :: cardsFrom (n + 1) calls

theorem cardsFrom_getElem? (calls : List ExecutedCall) :
    ∀ n i : Nat, (cardsFrom n calls)[i]? = (calls[i]?).map (cardOf (n + i)) := by
  induction calls with
  | nil => simp [cardsFrom]
  | cons call calls ih =>
      intro n i
      cases i with
      | zero => rfl
      | succ i =>
          have hshift : n + 1 + i = n + (i + 1) := by omega
          rw [cardsFrom, List.getElem?_cons_succ, List.getElem?_cons_succ, ih, hshift]

theorem nodup_cardsFrom (calls : List ExecutedCall) :
    ∀ n, ((cardsFrom n calls).map ToolCard.callId).Nodup := by
  induction calls with
  | nil => exact fun n => List.nodup_nil
  | cons call calls ih =>
      intro n
      rw [cardsFrom, List.map_cons, List.nodup_cons]
      refine ⟨fun hmem => ?_, ih (n + 1)⟩
      obtain ⟨i, hi⟩ := List.mem_iff_getElem?.mp hmem
      rw [List.getElem?_map, cardsFrom_getElem?, Option.map_map, Option.map_eq_some_iff] at hi
      obtain ⟨call', -, hid⟩ := hi
      have hsame : n + 1 + i = n := nodeId_inj hid
      omega

theorem executeCalls_cards (calls : List ExecutedCall) :
    ∀ s, (executeCalls calls s).2 = cardsFrom s.executionTrace.nodes.length calls := by
  induction calls with
  | nil => exact fun s => rfl
  | cons call calls ih =>
      intro s
      have hcard : (executeCall s call).2 = cardOf s.executionTrace.nodes.length call := by
        simp [executeCall, ExecutionTraceManager.addNode, ExecutionTraceManager.newRound,
          ExecutionTraceManager.nextId, cardOf, nodeId]
      rw [executeCalls]
      dsimp only
      rw [ih, hcard, executeCall_length]
      rfl

theorem find_executeCalls_other {id : Utf16} (calls : List ExecutedCall) :
    ∀ s : TraceState, (∀ i call, calls[i]? = some call →
      nodeId (s.executionTrace.nodes.length + i) call.toolName ≠ id) →
      (executeCalls calls s).1.toolCallRegistry.findByCallId id =
        s.toolCallRegistry.findByCallId id := by
  induction calls with
  | nil => exact fun s _ => rfl
  | cons call calls ih =>
      intro s h
      rw [executeCalls]
      dsimp only
      rw [ih, executeCall_find, if_neg]
      · exact fun hid => h 0 call rfl hid.symm
      · intro i call' hcall
        have hshift : s.executionTrace.nodes.length + 1 + i =
            s.executionTrace.nodes.length + (i + 1) := by omega
        rw [executeCall_length, hshift]
        exact h (i + 1) call' hcall

/-- **The receipt of a call of the round** is its own. -/
theorem find_executeCalls_own (calls : List ExecutedCall) :
    ∀ (s : TraceState) {i : Nat} {call : ExecutedCall}, calls[i]? = some call →
      (executeCalls calls s).1.toolCallRegistry.findByCallId
          (nodeId (s.executionTrace.nodes.length + i) call.toolName) =
        some ⟨nodeId (s.executionTrace.nodes.length + i) call.toolName, call.toolName,
          sha256 call.outputSummary, if call.success then .success else .failed⟩ := by
  induction calls with
  | nil => exact fun s i call h => by simp at h
  | cons first calls ih =>
      intro s i call h
      rw [executeCalls]
      dsimp only
      cases i with
      | zero =>
          obtain rfl : first = call := Option.some.inj h
          rw [Nat.add_zero, find_executeCalls_other, executeCall_find, if_pos rfl]
          · -- a later node has a higher number
            intro j call' _ hid
            have hsame := nodeId_inj hid
            rw [executeCall_length] at hsame
            omega
      | succ i =>
          have hshift : s.executionTrace.nodes.length + (i + 1) =
              (executeCall s first).1.executionTrace.nodes.length + i := by
            rw [executeCall_length]
            omega
          rw [hshift]
          exact ih (executeCall s first).1 h

theorem succeeded_own {calls : List ExecutedCall} (s : TraceState) {i : Nat} {call : ExecutedCall}
    (h : calls[i]? = some call) :
    (executeCalls calls s).1.toolCallRegistry.succeeded
      (nodeId (s.executionTrace.nodes.length + i) call.toolName) = call.success := by
  rw [ToolCallRegistry.succeeded, find_executeCalls_own calls s h]
  cases call.success <;> rfl

def SucceededAs (s : TraceState) (calls : List ExecutedCall) (id : Utf16) : Prop :=
  (∃ i call, calls[i]? = some call ∧
      nodeId (s.executionTrace.nodes.length + i) call.toolName = id ∧ call.success = true) ∨
    ((∀ i call, calls[i]? = some call →
        nodeId (s.executionTrace.nodes.length + i) call.toolName ≠ id) ∧
      s.toolCallRegistry.succeeded id = true)

theorem succeeded_executeCalls_iff (s : TraceState) (calls : List ExecutedCall) (id : Utf16) :
    (executeCalls calls s).1.toolCallRegistry.succeeded id = true ↔ SucceededAs s calls id := by
  unfold SucceededAs
  by_cases hown : ∃ i call, calls[i]? = some call ∧
      nodeId (s.executionTrace.nodes.length + i) call.toolName = id
  · obtain ⟨i, call, hcall, rfl⟩ := hown
    rw [succeeded_own s hcall]
    constructor
    · exact fun hsuccess => Or.inl ⟨i, call, hcall, rfl, hsuccess⟩
    · rintro (⟨j, call', hcall', hid, hsuccess⟩ | ⟨hnone, -⟩)
      · have hij : i = j := by
          have := nodeId_inj hid
          omega
        subst hij
        obtain rfl := Option.some.inj (hcall.symm.trans hcall')
        exact hsuccess
      · exact absurd rfl (hnone i call hcall)
  · have hnone : ∀ i call, calls[i]? = some call →
        nodeId (s.executionTrace.nodes.length + i) call.toolName ≠ id :=
      fun i call hcall hid => hown ⟨i, call, hcall, hid⟩
    have hsame : (executeCalls calls s).1.toolCallRegistry.succeeded id =
        s.toolCallRegistry.succeeded id := by
      rw [ToolCallRegistry.succeeded, find_executeCalls_other calls s hnone]
      rfl
    rw [hsame]
    constructor
    · exact fun h => Or.inr ⟨hnone, h⟩
    · rintro (⟨i, call, hcall, hid, -⟩ | ⟨-, h⟩)
      · exact absurd hid (hnone i call hcall)
      · exact h

def callsFor (round : Round) (i : Nat) : List ExecutedCall :=
  if round.isUA then
    (round.planStepToolRanges[i]?.getD []).filterMap fun idx => round.toolCallsToExecute[idx]?
  else (round.toolCallsToExecute[i]?).toList

def Unlinked (step : PlanStep) : Prop := step.callId = none ∧ step.allCallIds = none

theorem verifyStep_done (r : ToolCallRegistry) (step : PlanStep) :
    (r.verifyStep step).done = step.done ∧ (r.verifyStep step).isChat = step.isChat := by
  unfold ToolCallRegistry.verifyStep PlanStep.isChat
  split
  · exact ⟨rfl, rfl⟩
  · split <;> exact ⟨rfl, rfl⟩

theorem verifyStep_matched_iff {r : ToolCallRegistry} {step : PlanStep} (hdone : step.done = true)
    (hchat : step.isChat = false) :
    (r.verifyStep step).evidenceStatus = some .matched ↔ r.evidenceOf step = true := by
  unfold ToolCallRegistry.verifyStep
  rw [if_neg (by simp [hdone]), hchat]
  by_cases hevidence : r.evidenceOf step = true
  · simp [hevidence]
  · simp [hevidence]

theorem evidenceOf_unlinked (r : ToolCallRegistry) {step : PlanStep} (h : Unlinked step) :
    r.evidenceOf step = false := by
  unfold ToolCallRegistry.evidenceOf
  rw [h.1, h.2]

theorem evidenceOf_ids (r : ToolCallRegistry) {step : PlanStep} {ids : List Utf16}
    (h : step.allCallIds = some ids) (hids : ids ≠ []) :
    r.evidenceOf step = ids.all r.succeeded := by
  unfold ToolCallRegistry.evidenceOf
  rw [h]
  cases ids with
  | nil => exact absurd rfl hids
  | cons id ids => rfl

theorem mem_rangeIds {n : Nat} {calls : List ExecutedCall} {range : List Nat} {id : Utf16} :
    id ∈ (range.filterMap fun idx => ((cardsFrom n calls)[idx]?).map ToolCard.callId).filter
        (· ≠ []) ↔
      ∃ idx ∈ range, ∃ call, calls[idx]? = some call ∧ nodeId (n + idx) call.toolName = id := by
  rw [List.mem_filter, List.mem_filterMap]
  constructor
  · rintro ⟨⟨idx, hidx, hcard⟩, -⟩
    rw [cardsFrom_getElem?, Option.map_map, Option.map_eq_some_iff] at hcard
    obtain ⟨call, hcall, hid⟩ := hcard
    exact ⟨idx, hidx, call, hcall, hid⟩
  · rintro ⟨idx, hidx, call, hcall, rfl⟩
    refine ⟨⟨idx, hidx, ?_⟩, by simpa using nodeId_ne_nil _ _⟩
    rw [cardsFrom_getElem?, hcall]
    rfl

theorem linkToRange_of_ne_nil (toolCards : List ToolCard) {range : List Nat} (h : range ≠ [])
    (step : PlanStep) :
    linkToRange toolCards (some range) step =
      { step with
        done := true
        callId := (toolCards[range.getLast h]?).map ToolCard.callId
        allCallIds := some ((range.filterMap fun i => (toolCards[i]?).map ToolCard.callId).filter
          (· ≠ [])) } := by
  cases range with
  | nil => exact absurd rfl h
  | cons first others => rfl

theorem evidenceOf_range {s : TraceState} {calls : List ExecutedCall} {step : PlanStep}
    (hstep : Unlinked step) (range : Option (List Nat)) :
    (executeCalls calls s).1.toolCallRegistry.evidenceOf
        (linkToRange (executeCalls calls s).2 range step) = true ↔
      (range.getD []).filterMap (fun idx => calls[idx]?) ≠ [] ∧
        ∀ call ∈ (range.getD []).filterMap (fun idx => calls[idx]?), call.success = true := by
  by_cases hempty : range.getD [] = []
  · have hsame : linkToRange (executeCalls calls s).2 range step = step := by
      cases range with
      | none => rfl
      | some range =>
          obtain rfl : range = [] := hempty
          rfl
    rw [hsame, evidenceOf_unlinked _ hstep, hempty]
    simp
  obtain ⟨range, rfl⟩ : ∃ r, range = some r := by
    cases range with
    | none => exact absurd rfl hempty
    | some r => exact ⟨r, rfl⟩
  rw [Option.getD_some] at hempty ⊢
  rw [linkToRange_of_ne_nil _ hempty, executeCalls_cards]
  by_cases hnone : range.filterMap (fun idx => calls[idx]?) = []
  · -- no index is that of a call, so nothing is linked
    have habsent : ∀ idx ∈ range, calls[idx]? = none := List.filterMap_eq_nil_iff.mp hnone
    refine iff_of_false ?_ fun h => h.1 hnone
    have hids : (range.filterMap fun i =>
        ((cardsFrom s.executionTrace.nodes.length calls)[i]?).map ToolCard.callId).filter
          (· ≠ []) = [] := by
      rw [List.eq_nil_iff_forall_not_mem]
      intro id hid
      obtain ⟨idx, hidx, call, hcall, -⟩ := mem_rangeIds.mp hid
      rw [habsent idx hidx] at hcall
      cases hcall
    have hlast : (cardsFrom s.executionTrace.nodes.length calls)[range.getLast hempty]? = none := by
      rw [cardsFrom_getElem?, habsent _ (List.getLast_mem hempty)]
      rfl
    rw [hids, hlast]
    exact Bool.false_ne_true
  · obtain ⟨call, hmem⟩ := List.exists_mem_of_ne_nil _ hnone
    obtain ⟨idx, hidx, hcall⟩ := List.mem_filterMap.mp hmem
    have hid : nodeId (s.executionTrace.nodes.length + idx) call.toolName ∈
        (range.filterMap fun i =>
          ((cardsFrom s.executionTrace.nodes.length calls)[i]?).map ToolCard.callId).filter
            (· ≠ []) := mem_rangeIds.mpr ⟨idx, hidx, call, hcall, rfl⟩
    rw [evidenceOf_ids _ rfl (List.ne_nil_of_mem hid), List.all_eq_true]
    constructor
    · intro h
      refine ⟨hnone, fun call' hcall' => ?_⟩
      obtain ⟨idx', hidx', hcall'⟩ := List.mem_filterMap.mp hcall'
      rw [← succeeded_own s hcall']
      exact h _ (mem_rangeIds.mpr ⟨idx', hidx', call', hcall', rfl⟩)
    · rintro ⟨-, h⟩ id hid'
      obtain ⟨idx', hidx', call', hcall', rfl⟩ := mem_rangeIds.mp hid'
      rw [succeeded_own s hcall']
      exact h call' (List.mem_filterMap.mpr ⟨idx', hidx', hcall'⟩)

theorem evidenceOf_call {r : ToolCallRegistry} {step : PlanStep} (hstep : Unlinked step)
    (call : ExecutedCall) :
    r.evidenceOf (linkToCall (some call) step) = true ↔ call.id ≠ [] ∧ r.succeeded call.id = true := by
  unfold ToolCallRegistry.evidenceOf linkToCall
  dsimp only
  rw [hstep.2]
  simp

/-- A done step that is no chat is matched if and only if calls were executed
for it and all of them succeeded. -/
def RoundBalanced (s : TraceState) (round : Round) : Prop :=
  ∀ i step, (executeStage s round).2.2.planSteps[i]? = some step → step.done = true →
    step.isChat = false →
    (step.evidenceStatus = some .matched ↔
      callsFor round i ≠ [] ∧ ∀ call ∈ callsFor round i, call.success = true)

/-- On the fallback path the id of a call leads to the receipt of that call, or
to one that says the same. -/
def IdsAgree (s : TraceState) (round : Round) : Prop :=
  round.isUA = true ∨ ∀ (i : Nat) (step : PlanStep) (call : ExecutedCall),
    round.planSteps[i]? = some step →
    round.toolCallsToExecute[i]? = some call → step.isChat = false →
    (call.id ≠ [] ∧ SucceededAs s round.toolCallsToExecute call.id ↔ call.success = true)

theorem planSteps_getElem? (s : TraceState) (round : Round) (i : Nat) :
    (executeStage s round).2.2.planSteps[i]? = (round.planSteps[i]?).map fun step =>
      (executeCalls round.toolCallsToExecute s).1.toolCallRegistry.verifyStep
        (if round.isUA then
          linkToRange (executeCalls round.toolCallsToExecute s).2 round.planStepToolRanges[i]? step
        else linkToCall round.toolCallsToExecute[i]? step) := by
  have hverified : (executeStage s round).2.2.planSteps =
      (linkSteps round (executeCalls round.toolCallsToExecute s).2).map
        (executeCalls round.toolCallsToExecute s).1.toolCallRegistry.verifyStep := rfl
  rw [hverified, linkSteps, List.getElem?_map, List.getElem?_mapIdx, Option.map_map]
  rfl

theorem linkToCall_isChat (call : Option ExecutedCall) (step : PlanStep) :
    (linkToCall call step).isChat = step.isChat := by
  cases call <;> rfl

/-- **A round is balanced** exactly when the ids of its calls agree. -/
theorem roundBalanced_iff {s : TraceState} {round : Round}
    (hplan : ∀ step ∈ round.planSteps, Unlinked step) :
    RoundBalanced s round ↔ IdsAgree s round := by
  unfold RoundBalanced IdsAgree callsFor
  cases hUA : round.isUA with
  | true =>
      refine iff_of_true (fun i step hstep hdone hchat => ?_) (Or.inl rfl)
      rw [planSteps_getElem?, hUA, Option.map_eq_some_iff] at hstep
      obtain ⟨old, hold, rfl⟩ := hstep
      rw [if_pos rfl] at hdone hchat ⊢
      rw [(verifyStep_done _ _).1] at hdone
      rw [(verifyStep_done _ _).2] at hchat
      rw [verifyStep_matched_iff hdone hchat,
        evidenceOf_range (hplan old (List.mem_of_getElem? hold)), if_pos rfl]
  | false =>
      simp only [Bool.false_eq_true, if_false, false_or]
      constructor
      · intro h i old call hold hcall hchat
        have hstep : (executeStage s round).2.2.planSteps[i]? = some
            ((executeCalls round.toolCallsToExecute s).1.toolCallRegistry.verifyStep
              (linkToCall (some call) old)) := by
          rw [planSteps_getElem?, hold, hUA, hcall]
          rfl
        have hlinked : (linkToCall (some call) old).done = true := rfl
        have hlinkedChat : (linkToCall (some call) old).isChat = false := hchat
        have hmatched := h i _ hstep ((verifyStep_done _ _).1.trans hlinked)
          ((verifyStep_done _ _).2.trans hlinkedChat)
        rw [verifyStep_matched_iff hlinked hlinkedChat,
          evidenceOf_call (hplan old (List.mem_of_getElem? hold)), succeeded_executeCalls_iff,
          hcall] at hmatched
        simpa using hmatched
      · intro h i step hstep hdone hchat
        rw [planSteps_getElem?, hUA, Option.map_eq_some_iff] at hstep
        obtain ⟨old, hold, rfl⟩ := hstep
        rw [if_neg Bool.false_ne_true] at hdone hchat ⊢
        rw [(verifyStep_done _ _).1] at hdone
        rw [(verifyStep_done _ _).2] at hchat
        have hunlinked := hplan old (List.mem_of_getElem? hold)
        rw [verifyStep_matched_iff hdone hchat]
        cases hcall : round.toolCallsToExecute[i]? with
        | none =>
            rw [linkToCall, evidenceOf_unlinked _ hunlinked]
            simp
        | some call =>
            rw [hcall, linkToCall_isChat] at hchat
            rw [evidenceOf_call hunlinked, succeeded_executeCalls_iff, h i old call hold hcall hchat]
            simp

/-- The property holds of every round, in the state before it. -/
def EveryRound (P : TraceState → Round → Prop) : List TraceEvent → TraceState → Prop
  | [], _ => True
  | .round r :: events, s => P s r ∧ EveryRound P events ((TraceEvent.round r).run s)
  | .reset maxKeep :: events, s => EveryRound P events ((TraceEvent.reset maxKeep).run s)

/-- The ids that the number of nodes gives next are not in the registry. -/
def NewIds (s : TraceState) (round : Round) : Prop :=
  ∀ (i : Nat) (call : ExecutedCall), round.toolCallsToExecute[i]? = some call →
    s.toolCallRegistry.findByCallId
      (nodeId (s.executionTrace.nodes.length + i) call.toolName) = none

def Registered (s : TraceState) (ids : List Utf16) : Prop :=
  ∀ id, (s.toolCallRegistry.findByCallId id).isSome ↔ id ∈ ids

theorem mem_callIds_round {s : TraceState} {r : Round} {id : Utf16} :
    id ∈ (TraceEvent.round r).callIds s ↔ ∃ (i : Nat) (call : ExecutedCall),
      r.toolCallsToExecute[i]? = some call ∧
        nodeId (s.executionTrace.nodes.length + i) call.toolName = id := by
  have hcards : (TraceEvent.round r).callIds s =
      (cardsFrom s.executionTrace.nodes.length r.toolCallsToExecute).map ToolCard.callId := by
    rw [TraceEvent.callIds, executeStage, executeCalls_cards]
  rw [hcards, List.mem_iff_getElem?]
  constructor
  · rintro ⟨i, hi⟩
    rw [List.getElem?_map, cardsFrom_getElem?, Option.map_map, Option.map_eq_some_iff] at hi
    obtain ⟨call, hcall, hid⟩ := hi
    exact ⟨i, call, hcall, hid⟩
  · rintro ⟨i, call, hcall, hid⟩
    refine ⟨i, ?_⟩
    rw [List.getElem?_map, cardsFrom_getElem?, hcall, ← hid]
    rfl

theorem nodup_callIds_round (s : TraceState) (r : Round) :
    ((TraceEvent.round r).callIds s).Nodup := by
  have hcards : (TraceEvent.round r).callIds s =
      (cardsFrom s.executionTrace.nodes.length r.toolCallsToExecute).map ToolCard.callId := by
    rw [TraceEvent.callIds, executeStage, executeCalls_cards]
  rw [hcards]
  exact nodup_cardsFrom _ _

theorem Registered.run {s : TraceState} {ids : List Utf16} (h : Registered s ids)
    (event : TraceEvent) : Registered (event.run s) (ids ++ event.callIds s) := by
  cases event with
  | reset maxKeep =>
      rw [TraceEvent.callIds, List.append_nil]
      exact h
  | round r =>
      intro id
      rw [List.mem_append, mem_callIds_round]
      by_cases hown : ∃ (i : Nat) (call : ExecutedCall), r.toolCallsToExecute[i]? = some call ∧
          nodeId (s.executionTrace.nodes.length + i) call.toolName = id
      · refine iff_of_true ?_ (Or.inr hown)
        obtain ⟨i, call, hcall, rfl⟩ := hown
        have hfind := find_executeCalls_own r.toolCallsToExecute s hcall
        exact Option.isSome_iff_exists.mpr ⟨_, hfind⟩
      · rw [or_iff_left hown, ← h id]
        have hfind := find_executeCalls_other r.toolCallsToExecute s
          fun i call hcall hid => hown ⟨i, call, hcall, hid⟩
        exact iff_of_eq (congrArg (fun o => Option.isSome o = true) hfind)

/-- **Ids are distinct** exactly when every round takes new ones. -/
theorem nodup_callIds_iff (events : List TraceEvent) :
    ∀ {s : TraceState} {ids : List Utf16}, Registered s ids → ids.Nodup →
      ((ids ++ TraceState.callIds events s).Nodup ↔ EveryRound NewIds events s) := by
  induction events with
  | nil =>
      intro s ids _ hids
      rw [TraceState.callIds, List.append_nil]
      exact iff_of_true hids trivial
  | cons event events ih =>
      intro s ids hregistered hids
      rw [TraceState.callIds, ← List.append_assoc]
      cases event with
      | reset maxKeep =>
          have hsame := ih (hregistered.run (.reset maxKeep)) (by
            rw [TraceEvent.callIds, List.append_nil]
            exact hids)
          exact hsame
      | round r =>
          have hnew : (ids ++ (TraceEvent.round r).callIds s).Nodup ↔ NewIds s r := by
            rw [List.nodup_append']
            constructor
            · rintro ⟨-, -, hdisjoint⟩ i call hcall
              rw [← Option.not_isSome_iff_eq_none, hregistered]
              exact fun hold => hdisjoint hold (mem_callIds_round.mpr ⟨i, call, hcall, rfl⟩)
            · intro hnone
              refine ⟨hids, nodup_callIds_round s r, fun id hold hmem => ?_⟩
              obtain ⟨i, call, hcall, rfl⟩ := mem_callIds_round.mp hmem
              have hsome := (hregistered _).mpr hold
              rw [hnone i call hcall] at hsome
              cases hsome
          rw [EveryRound, ← hnew]
          constructor
          · intro h
            have hfirst := (List.nodup_append'.mp h).1
            exact ⟨hfirst, (ih (hregistered.run (.round r)) hfirst).mp h⟩
          · rintro ⟨hfirst, h⟩
            exact (ih (hregistered.run (.round r)) hfirst).mpr h

theorem everyRound_and {P Q : TraceState → Round → Prop} (events : List TraceEvent) :
    ∀ s, EveryRound (fun s r => P s r ∧ Q s r) events s ↔
      EveryRound P events s ∧ EveryRound Q events s := by
  induction events with
  | nil => exact fun s => (and_self_iff).symm
  | cons event events ih =>
      intro s
      cases event with
      | reset maxKeep => exact ih _
      | round r =>
          rw [EveryRound, EveryRound, EveryRound, ih]
          exact and_and_and_comm

theorem everyRound_congr {P Q : TraceState → Round → Prop} {events : List TraceEvent}
    (h : ∀ r, .round r ∈ events → ∀ s, P s r ↔ Q s r) :
    ∀ s, EveryRound P events s ↔ EveryRound Q events s := by
  induction events with
  | nil => exact fun s => Iff.rfl
  | cons event events ih =>
      have hrest := ih fun r hr => h r (List.mem_cons_of_mem event hr)
      intro s
      cases event with
      | reset maxKeep => exact hrest _
      | round r => exact and_congr (h r List.mem_cons_self s) (hrest _)

/-- **Evidence balancing** is sound and complete exactly when every round takes
new ids and, on the fallback path, the ids of its calls agree. -/
theorem evidence_balanced_iff (events : List TraceEvent)
    (hplan : ∀ r, .round r ∈ events → ∀ step ∈ r.planSteps, Unlinked step) :
    (TraceState.callIds events {}).Nodup ∧ EveryRound RoundBalanced events {} ↔
      EveryRound (fun s r => NewIds s r ∧ IdsAgree s r) events {} := by
  have hregistered : Registered {} [] := by
    intro id
    simp [ToolCallRegistry.findByCallId]
  have hids := nodup_callIds_iff events hregistered List.nodup_nil
  rw [List.nil_append] at hids
  rw [everyRound_and, hids, everyRound_congr fun r hr s => roundBalanced_iff (hplan r hr)]

def readCall : ExecutedCall :=
  ⟨utf16Of "call_1", utf16Of "read_config_value", true, utf16Of "ok"⟩

def readPlan : List PlanStep := [{ text := utf16Of "read", done := false }]

theorem evidence_balanced_one_round :
    (TraceState.callIds [.round ⟨[readCall], readPlan, [[0]], true, []⟩, .reset 1] {}).Nodup ∧
      EveryRound RoundBalanced [.round ⟨[readCall], readPlan, [[0]], true, []⟩, .reset 1] {} := by
  apply (evidence_balanced_iff [.round ⟨[readCall], readPlan, [[0]], true, []⟩, .reset 1] ?_).mpr
  · exact ⟨⟨fun _ _ _ => rfl, Or.inl rfl⟩, trivial⟩
  · intro r hr step hstep
    simp only [List.mem_cons, reduceCtorEq, List.not_mem_nil, or_false, TraceEvent.round.injEq] at hr
    rw [hr] at hstep
    rw [List.mem_singleton.mp hstep]
    exact ⟨rfl, rfl⟩

/-- The receipt of the call is under the id of its node, and the fallback path
looks under the id of the call. -/
theorem fallback_success_unmatched :
    ¬ ∀ events : List TraceEvent,
      (∀ r, .round r ∈ events → ∀ step ∈ r.planSteps, Unlinked step) →
        (TraceState.callIds events {}).Nodup ∧ EveryRound RoundBalanced events {} := by
  intro h
  have hplan : ∀ r, TraceEvent.round r ∈ [TraceEvent.round ⟨[readCall], readPlan, [], false, []⟩] →
      ∀ step ∈ r.planSteps, Unlinked step := by
    intro r hr step hstep
    rw [TraceEvent.round.inj (List.mem_singleton.mp hr)] at hstep
    rw [List.mem_singleton.mp hstep]
    exact ⟨rfl, rfl⟩
  have hbalanced := (h _ hplan).2.1
  have hdone : ((executeStage {} ⟨[readCall], readPlan, [], false, []⟩).2.2.planSteps[0]?).map
      (fun step => (step.done, step.isChat, step.evidenceStatus)) =
        some (true, false, some .unmatched) := by decide
  obtain ⟨step, hstep, hfields⟩ := Option.map_eq_some_iff.mp hdone
  simp only [Prod.mk.injEq] at hfields
  have hmatched := (hbalanced 0 step hstep hfields.1 hfields.2.1).mpr (by decide)
  rw [hfields.2.2] at hmatched
  cases hmatched

/-- After a reset that keeps ten of eleven nodes an id is given again. -/
example : ¬(TraceState.callIds
    [.round ⟨List.replicate 11 readCall, [], [], true, []⟩, .reset 1,
      .round ⟨[readCall], [], [], true, []⟩] {}).Nodup := by
  decide

end BlessStar.Assistant.Proofs.EvidenceBalance
