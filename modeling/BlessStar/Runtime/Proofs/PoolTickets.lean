import BlessStar.Lib.Places
import BlessStar.Runtime.KernelPool

/-!
# The tickets of the kernel pool

The calls that wait for a slot get one in the order of their tickets.  A call
that comes while others wait does not look at the tickets: it takes a slot that
has become idle before the first waiter has woken up.
-/

namespace BlessStar.Runtime.Proofs.PoolTickets

open Lib.Transition Lib.Places BsKernelPool

def queuedCalls (log : List PoolMark) : List Nat :=
  log.filterMap fun
    | .queued call => some call
    | _ => none

def obtainedCalls (log : List PoolMark) : List Nat :=
  log.filterMap fun
    | .obtained call => some call
    | _ => none

theorem mem_queuedCalls {log : List PoolMark} {call : Nat} :
    call ∈ queuedCalls log ↔ .queued call ∈ log := by
  simp only [queuedCalls, List.mem_filterMap]
  constructor
  · rintro ⟨mark, hmem, hmark⟩
    cases mark <;> simp at hmark
    exact hmark ▸ hmem
  · exact fun hmem => ⟨_, hmem, rfl⟩

theorem mem_obtainedCalls {log : List PoolMark} {call : Nat} :
    call ∈ obtainedCalls log ↔ .obtained call ∈ log := by
  simp only [obtainedCalls, List.mem_filterMap]
  constructor
  · rintro ⟨mark, hmem, hmark⟩
    cases mark <;> simp at hmark
    exact hmark ▸ hmem
  · exact fun hmem => ⟨_, hmem, rfl⟩

variable {log : List PoolMark} {call n : Nat}

@[simp] theorem queuedCalls_arrived : queuedCalls (log ++ [.arrived call]) = queuedCalls log := by
  simp [queuedCalls]

@[simp] theorem queuedCalls_queued :
    queuedCalls (log ++ [.queued call]) = queuedCalls log ++ [call] := by
  simp [queuedCalls]

@[simp] theorem queuedCalls_obtained : queuedCalls (log ++ [.obtained call]) = queuedCalls log := by
  simp [queuedCalls]

@[simp] theorem obtainedCalls_arrived :
    obtainedCalls (log ++ [.arrived call]) = obtainedCalls log := by
  simp [obtainedCalls]

@[simp] theorem obtainedCalls_queued :
    obtainedCalls (log ++ [.queued call]) = obtainedCalls log := by
  simp [obtainedCalls]

@[simp] theorem obtainedCalls_obtained :
    obtainedCalls (log ++ [.obtained call]) = obtainedCalls log ++ [call] := by
  simp [obtainedCalls]

/-! ## The order of the tickets -/

/-- The first `n` of the calls with a ticket have got their slots, in this
order, and the others have not. -/
def Served (log : List PoolMark) (n : Nat) : Prop :=
  (obtainedCalls log).filter (· ∈ queuedCalls log) = (queuedCalls log).take n

theorem Served.arrived (h : Served log n) : Served (log ++ [.arrived call]) n := by
  simpa [Served] using h

theorem Served.queued (h : Served log n) (hn : n ≤ (queuedCalls log).length)
    (hnew : call ∉ obtainedCalls log) : Served (log ++ [.queued call]) n := by
  have hfilter : (obtainedCalls log).filter (· ∈ queuedCalls log ++ [call]) =
      (obtainedCalls log).filter (· ∈ queuedCalls log) := by
    apply List.filter_congr
    intro x hx
    have hne : x ≠ call := fun heq => hnew (heq ▸ hx)
    simp [hne]
  rw [Served, queuedCalls_queued, obtainedCalls_queued, hfilter, List.take_append_of_le_length hn]
  exact h

theorem Served.newcomer (h : Served log n) (hnew : call ∉ queuedCalls log) :
    Served (log ++ [.obtained call]) n := by
  simpa [Served, hnew] using h

theorem Served.next (h : Served log n) (hcall : (queuedCalls log)[n]? = some call) :
    Served (log ++ [.obtained call]) (n + 1) := by
  have hmem : call ∈ queuedCalls log := List.mem_of_getElem? hcall
  rw [Served, queuedCalls_obtained, obtainedCalls_obtained, List.filter_append, h,
    List.take_add_one, hcall]
  simp [hmem]

theorem Served.mem_obtained (h : Served log n) (hmem : call ∈ (queuedCalls log).take n) :
    .obtained call ∈ log := by
  rw [← h] at hmem
  exact mem_obtainedCalls.mp (List.mem_filter.mp hmem).1

def Ahead (log : List PoolMark) : Prop :=
  ∀ i j t, [.queued j, .arrived i].Sublist log → (queuedCalls log)[t]? = some i →
    j ∈ (queuedCalls log).take t

theorem Ahead.arrived (h : Ahead log) (hnew : call ∉ queuedCalls log) :
    Ahead (log ++ [.arrived call]) := by
  intro i j t hpair ht
  rw [queuedCalls_arrived] at ht ⊢
  rcases pair_sublist_concat.mp hpair with hpair | ⟨heq, -⟩
  · exact h i j t hpair ht
  · cases heq
    exact absurd (List.mem_of_getElem? ht) hnew

theorem Ahead.obtained (h : Ahead log) : Ahead (log ++ [.obtained call]) := by
  intro i j t hpair ht
  rw [queuedCalls_obtained] at ht ⊢
  rcases pair_sublist_concat.mp hpair with hpair | ⟨heq, -⟩
  · exact h i j t hpair ht
  · cases heq

theorem Ahead.queued (h : Ahead log) : Ahead (log ++ [.queued call]) := by
  intro i j t hpair ht
  rw [queuedCalls_queued] at ht ⊢
  rcases pair_sublist_concat.mp hpair with hpair | ⟨heq, -⟩
  · by_cases hlt : t < (queuedCalls log).length
    · rw [List.getElem?_append_left hlt] at ht
      rw [List.take_append_of_le_length (Nat.le_of_lt hlt)]
      exact h i j t hpair ht
    · have hj : j ∈ queuedCalls log := mem_queuedCalls.mpr (hpair.subset (by simp))
      rw [List.take_append, List.take_of_length_le (Nat.le_of_not_lt hlt)]
      exact List.mem_append_left _ hj
  · cases heq

def InTurn (past : List PoolMark) (mark : PoolMark) : Prop :=
  ∀ i, mark = .obtained i → ∀ j, [.queued j, .arrived i].Sublist past → .obtained j ∈ past

theorem inTurn_waiter (hserved : Served log n) (hahead : Ahead log)
    (hcall : (queuedCalls log)[n]? = some call) : InTurn log (.obtained call) := by
  rintro i heq j hpair
  cases heq
  exact hserved.mem_obtained (hahead _ _ _ hpair hcall)

theorem inTurn_newcomer (hserved : Served log n) (hn : (queuedCalls log).length = n) :
    InTurn log (.obtained call) := by
  rintro i - j hpair
  apply hserved.mem_obtained
  rw [List.take_of_length_le (Nat.le_of_eq hn)]
  exact mem_queuedCalls.mpr (hpair.subset (by simp))

/-! ## The tickets of a state -/

def ticketOf : CallAt → List Nat
  | .waiting ticket => [ticket]
  | _ => []

def waitingTickets (s : BsKernelPool) : List Nat := s.calls.flatMap ticketOf

def PastEntry : CallAt → Prop
  | .waiting _ | .executing _ | .removing _ _ | .returned _ => True
  | _ => False

structure TicketSound (s : BsKernelPool) : Prop where
  draining : s.draining = false
  tickets : (queuedCalls s.log).length = s.nextTicket
  sum : s.nextTicket = s.servingTicket + s.waiters
  waiting : (waitingTickets s).length = s.waiters
  owner : ∀ call ticket : Nat, s.calls[call]? = some (.waiting ticket) →
    (queuedCalls s.log)[ticket]? = some call
  arrived : ∀ call : Nat, (.arrived call ∈ s.log ∨ .queued call ∈ s.log ∨ .obtained call ∈ s.log) →
    ∃ place, s.calls[call]? = some place ∧ PastEntry place
  served : Served s.log s.servingTicket
  ahead : Ahead s.log

structure Silent (s s' : BsKernelPool) : Prop where
  draining : s'.draining = s.draining
  next : s'.nextTicket = s.nextTicket
  serving : s'.servingTicket = s.servingTicket
  waiters : s'.waiters = s.waiters
  log : s'.log = s.log

variable {c : BsKernelPoolConfig} {s s' : BsKernelPool} {old new : CallAt}

theorem ticketSound_init (config : BsKernelPoolConfig) : TicketSound (kernelPool config).init where
  draining := rfl
  tickets := rfl
  sum := rfl
  waiting := rfl
  owner := by simp [kernelPool]
  arrived := by simp [kernelPool]
  served := rfl
  ahead := by
    intro i j t hpair
    simp [kernelPool] at hpair

theorem TicketSound.begin (h : TicketSound s) (hsilent : Silent s s')
    (hcalls : s'.calls = s.calls ++ [new]) (hnew : ticketOf new = []) : TicketSound s' := by
  refine ⟨hsilent.draining.trans h.draining, ?_, ?_, ?_, fun i t hi => ?_, fun i hi => ?_, ?_, ?_⟩
  · rw [hsilent.log, hsilent.next]
    exact h.tickets
  · rw [hsilent.next, hsilent.serving, hsilent.waiters]
    exact h.sum
  · rw [waitingTickets, hcalls, List.flatMap_append, List.flatMap_singleton, hnew,
      List.append_nil, hsilent.waiters]
    exact h.waiting
  · rw [hsilent.log]
    rw [hcalls, List.getElem?_append] at hi
    split at hi
    · exact h.owner i t hi
    · have hwait : new = .waiting t := List.mem_singleton.mp (List.mem_of_getElem? hi) ▸ rfl
      rw [hwait] at hnew
      cases hnew
  · rw [hsilent.log] at hi
    obtain ⟨place, hplace, hpast⟩ := h.arrived i hi
    refine ⟨place, ?_, hpast⟩
    rw [hcalls, List.getElem?_append_left (List.getElem?_eq_some_iff.mp hplace).1]
    exact hplace
  · rw [hsilent.log, hsilent.serving]
    exact h.served
  · rw [hsilent.log]
    exact h.ahead

theorem past_entry_set (h : ∃ place, s.calls[n]? = some place ∧ PastEntry place)
    (hcall : s.calls[call]? = some old) (hpast : PastEntry old → PastEntry new) :
    ∃ place, (s.calls.set call new)[n]? = some place ∧ PastEntry place := by
  obtain ⟨place, hplace, hentry⟩ := h
  by_cases hn : n = call
  · subst hn
    obtain rfl := Option.some.inj (hcall.symm.trans hplace)
    exact ⟨new, get_set_self hcall new, hpast hentry⟩
  · exact ⟨place, (get_set_ne hn new).trans hplace, hentry⟩

theorem waiting_of_set {ticket : Nat} (hcall : s.calls[call]? = some old)
    (hnew : ticketOf new = []) (h : (s.calls.set call new)[n]? = some (.waiting ticket)) :
    n ≠ call ∧ s.calls[n]? = some (.waiting ticket) := by
  have hne : n ≠ call := by
    rintro rfl
    rw [get_set_self hcall] at h
    rw [Option.some.inj h] at hnew
    cases hnew
  exact ⟨hne, (get_set_ne hne new).symm.trans h⟩

theorem TicketSound.move (h : TicketSound s) (hsilent : Silent s s')
    (hcall : s.calls[call]? = some old) (hcalls : s'.calls = s.calls.set call new)
    (hold : ticketOf old = []) (hnew : ticketOf new = [])
    (hpast : PastEntry old → PastEntry new) : TicketSound s' := by
  refine ⟨hsilent.draining.trans h.draining, ?_, ?_, ?_, fun i t hi => ?_, fun i hi => ?_, ?_, ?_⟩
  · rw [hsilent.log, hsilent.next]
    exact h.tickets
  · rw [hsilent.next, hsilent.serving, hsilent.waiters]
    exact h.sum
  · have hlen := length_flatMap_set hcall ticketOf new
    rw [hold, hnew, Nat.add_right_cancel_iff] at hlen
    rw [waitingTickets, hcalls, hlen, hsilent.waiters]
    exact h.waiting
  · rw [hcalls] at hi
    rw [hsilent.log]
    exact h.owner i t (waiting_of_set hcall hnew hi).2
  · rw [hsilent.log] at hi
    rw [hcalls]
    exact past_entry_set (h.arrived i hi) hcall hpast
  · rw [hsilent.log, hsilent.serving]
    exact h.served
  · rw [hsilent.log]
    exact h.ahead

/-! ## Arrivals -/

theorem TicketSound.not_mem (h : TicketSound s) (hcall : s.calls[call]? = some .submit) :
    call ∉ queuedCalls s.log ∧ call ∉ obtainedCalls s.log := by
  have hnone : ¬ ∃ place, s.calls[call]? = some place ∧ PastEntry place := by
    rintro ⟨place, hplace, hpast⟩
    obtain rfl := Option.some.inj (hcall.symm.trans hplace)
    exact hpast
  exact ⟨fun hmem => hnone (h.arrived call (Or.inr (Or.inl (mem_queuedCalls.mp hmem)))),
    fun hmem => hnone (h.arrived call (Or.inr (Or.inr (mem_obtainedCalls.mp hmem))))⟩

theorem TicketSound.arrive (h : TicketSound s) (hcall : s.calls[call]? = some .submit)
    (hsilent : Silent (s.mark (.arrived call)) s') (hcalls : s'.calls = s.calls.set call new)
    (hnew : ticketOf new = []) (hpast : PastEntry new) : TicketSound s' := by
  have hlog : s'.log = s.log ++ [.arrived call] := hsilent.log
  refine ⟨hsilent.draining.trans h.draining, ?_, ?_, ?_, fun i t hi => ?_, fun i hi => ?_, ?_, ?_⟩
  · rw [hlog, queuedCalls_arrived, hsilent.next]
    exact h.tickets
  · rw [hsilent.next, hsilent.serving, hsilent.waiters]
    exact h.sum
  · have hlen := length_flatMap_set hcall ticketOf new
    rw [hnew, show ticketOf .submit = [] from rfl, Nat.add_right_cancel_iff] at hlen
    rw [waitingTickets, hcalls, hlen, hsilent.waiters]
    exact h.waiting
  · rw [hcalls] at hi
    rw [hlog, queuedCalls_arrived]
    exact h.owner i t (waiting_of_set hcall hnew hi).2
  · rw [hcalls]
    by_cases hne : i = call
    · subst hne
      exact ⟨new, get_set_self hcall new, hpast⟩
    · have hi' : .arrived i ∈ s.log ∨ .queued i ∈ s.log ∨ .obtained i ∈ s.log := by
        simpa [hlog, hne] using hi
      exact past_entry_set (h.arrived i hi') hcall fun _ => hpast
  · rw [hlog, hsilent.serving]
    exact h.served.arrived
  · rw [hlog]
    exact h.ahead.arrived (h.not_mem hcall).1

theorem TicketSound.obtain (h : TicketSound s) (hsilent : Silent (s.mark (.obtained call)) s')
    (hcalls : s'.calls = s.calls) (harrived : .arrived call ∈ s.log)
    (hnew : call ∉ queuedCalls s.log) : TicketSound s' := by
  have hlog : s'.log = s.log ++ [.obtained call] := hsilent.log
  refine ⟨hsilent.draining.trans h.draining, ?_, ?_, ?_, fun i t hi => ?_, fun i hi => ?_, ?_, ?_⟩
  · rw [hlog, queuedCalls_obtained, hsilent.next]
    exact h.tickets
  · rw [hsilent.next, hsilent.serving, hsilent.waiters]
    exact h.sum
  · rw [waitingTickets, hcalls, hsilent.waiters]
    exact h.waiting
  · rw [hcalls] at hi
    rw [hlog, queuedCalls_obtained]
    exact h.owner i t hi
  · rw [hcalls]
    by_cases hne : i = call
    · subst hne
      exact h.arrived i (Or.inl harrived)
    · have hi' : .arrived i ∈ s.log ∨ .queued i ∈ s.log ∨ .obtained i ∈ s.log := by
        simpa [hlog, hne] using hi
      exact h.arrived i hi'
  · rw [hlog, hsilent.serving]
    exact h.served.newcomer hnew
  · rw [hlog]
    exact h.ahead.obtained

theorem TicketSound.queue (h : TicketSound s) (hcall : s.calls[call]? = some .submit)
    (hdraining : s'.draining = s.draining) (hnext : s'.nextTicket = s.nextTicket + 1)
    (hserving : s'.servingTicket = s.servingTicket) (hwaiters : s'.waiters = s.waiters + 1)
    (hlog : s'.log = s.log ++ [.arrived call] ++ [.queued call])
    (hcalls : s'.calls = s.calls.set call (.waiting s.nextTicket)) : TicketSound s' := by
  obtain ⟨hqueued, hobtained⟩ := h.not_mem hcall
  have hle : s.servingTicket ≤ (queuedCalls s.log).length := by
    rw [h.tickets, h.sum]
    exact Nat.le_add_right _ _
  refine ⟨hdraining.trans h.draining, ?_, ?_, ?_, fun i t hi => ?_, fun i hi => ?_, ?_, ?_⟩
  · rw [hlog, queuedCalls_queued, queuedCalls_arrived, List.length_append, h.tickets, hnext]
    rfl
  · have hsum := h.sum
    omega
  · have hlen := length_flatMap_set hcall ticketOf (.waiting s.nextTicket)
    have hwaiting := h.waiting
    rw [waitingTickets] at hwaiting ⊢
    simp only [ticketOf, List.length_nil, List.length_singleton] at hlen
    rw [hcalls]
    omega
  · rw [hlog, queuedCalls_queued, queuedCalls_arrived]
    rw [hcalls] at hi
    by_cases hne : i = call
    · subst hne
      rw [get_set_self hcall] at hi
      cases hi
      rw [← h.tickets]
      exact List.getElem?_concat_length
    · rw [get_set_ne hne] at hi
      have howner := h.owner i t hi
      rw [List.getElem?_append_left (List.getElem?_eq_some_iff.mp howner).1]
      exact howner
  · rw [hcalls]
    by_cases hne : i = call
    · subst hne
      exact ⟨_, get_set_self hcall _, trivial⟩
    · have hi' : .arrived i ∈ s.log ∨ .queued i ∈ s.log ∨ .obtained i ∈ s.log := by
        simpa [hlog, hne] using hi
      exact past_entry_set (h.arrived i hi') hcall fun _ => trivial
  · rw [hlog, hserving]
    exact h.served.arrived.queued (by rwa [queuedCalls_arrived]) (by rwa [obtainedCalls_arrived])
  · rw [hlog]
    exact (h.ahead.arrived hqueued).queued

theorem TicketSound.serve (h : TicketSound s)
    (hcall : s.calls[call]? = some (.waiting s.servingTicket))
    (hdraining : s'.draining = s.draining) (hnext : s'.nextTicket = s.nextTicket)
    (hserving : s'.servingTicket = s.servingTicket + 1) (hwaiters : s'.waiters = s.waiters - 1)
    (hlog : s'.log = s.log ++ [.obtained call]) (hcalls : s'.calls = s.calls.set call new)
    (hnew : ticketOf new = []) (hpast : PastEntry new) : TicketSound s' := by
  have howner := h.owner call _ hcall
  have hlen := length_flatMap_set hcall ticketOf new
  have hwaiting := h.waiting
  rw [waitingTickets] at hwaiting
  rw [hnew, List.length_nil, ticketOf, List.length_singleton] at hlen
  refine ⟨hdraining.trans h.draining, ?_, ?_, ?_, fun i t hi => ?_, fun i hi => ?_, ?_, ?_⟩
  · rw [hlog, queuedCalls_obtained, hnext]
    exact h.tickets
  · have hsum := h.sum
    omega
  · rw [waitingTickets, hcalls]
    omega
  · rw [hcalls] at hi
    rw [hlog, queuedCalls_obtained]
    exact h.owner i t (waiting_of_set hcall hnew hi).2
  · rw [hcalls]
    by_cases hne : i = call
    · subst hne
      exact ⟨new, get_set_self hcall new, hpast⟩
    · have hi' : .arrived i ∈ s.log ∨ .queued i ∈ s.log ∨ .obtained i ∈ s.log := by
        simpa [hlog, hne] using hi
      exact past_entry_set (h.arrived i hi') hcall fun _ => hpast
  · rw [hlog, hserving]
    exact h.served.next howner
  · rw [hlog]
    exact h.ahead.obtained

/-! ## What the sections do -/

theorem addSlot_silent (kind : BsKernelPoolSlotKind) (alloc : SlotAlloc) :
    Silent s (s.addSlot c kind n alloc).2 ∧ (s.addSlot c kind n alloc).2.calls = s.calls := by
  unfold addSlot
  split
  · exact ⟨⟨rfl, rfl, rfl, rfl, rfl⟩, rfl⟩
  · split <;> exact ⟨⟨rfl, rfl, rfl, rfl, rfl⟩, rfl⟩
  · exact ⟨⟨rfl, rfl, rfl, rfl, rfl⟩, rfl⟩

theorem Silent.trans {s'' : BsKernelPool} (h : Silent s s') (h' : Silent s' s'') : Silent s s'' :=
  ⟨h'.draining.trans h.draining, h'.next.trans h.next, h'.serving.trans h.serving,
    h'.waiters.trans h.waiters, h'.log.trans h.log⟩

theorem warmupLoop_silent (alloc : Nat → SlotAlloc) :
    Silent s (warmupLoop c alloc n s).2.2 ∧ (warmupLoop c alloc n s).2.2.calls = s.calls := by
  induction n generalizing s with
  | zero => exact ⟨⟨rfl, rfl, rfl, rfl, rfl⟩, rfl⟩
  | succ n ih =>
      have hadd := addSlot_silent (s := s) (c := c) (n := 0) .steady (alloc s.slotCount)
      rw [warmupLoop]
      split
      · exact ⟨⟨rfl, rfl, rfl, rfl, rfl⟩, rfl⟩
      · split
        · next s₁ heq =>
            rw [heq] at hadd
            exact ⟨hadd.1.trans ih.1, ih.2.trans hadd.2⟩
        · next s₁ heq =>
            rw [heq] at hadd
            exact hadd

theorem warmup_spec (call : Nat) (submit : Bool) (alloc : Nat → SlotAlloc) :
    Silent s (s.warmup c call submit alloc) ∧
      ∃ new, (s.warmup c call submit alloc).calls = s.calls.set call new ∧ ticketOf new = [] := by
  have hloop := warmupLoop_silent (s := s) (c := c) (n := c.steadyCount - s.slotCount) alloc
  have hmove : ∀ {t : BsKernelPool} (place : CallAt), Silent s t ∧ t.calls = s.calls →
      ticketOf place = [] → Silent s (t.goTo call place) ∧
        ∃ new, (t.goTo call place).calls = s.calls.set call new ∧ ticketOf new = [] := by
    intro t place ht hplace
    exact ⟨⟨ht.1.draining, ht.1.next, ht.1.serving, ht.1.waiters, ht.1.log⟩, place,
      congrArg (List.set · call place) ht.2, hplace⟩
  unfold BsKernelPool.warmup
  split
  · exact hmove _ ⟨⟨rfl, rfl, rfl, rfl, rfl⟩, rfl⟩ rfl
  · split
    · next heq =>
        rw [heq] at hloop
        apply hmove _ hloop
        cases submit <;> rfl
    · next heq =>
        rw [heq] at hloop
        exact hmove _ hloop rfl
    · next heq =>
        rw [heq] at hloop
        exact hmove _ hloop rfl

theorem take_spec {index : Nat} {hasTicket : Bool}
    (hstep : s.take call index hasTicket = some s') :
    ∃ id, s'.calls = s.calls.set call (.executing id) ∧ s'.log = s.log ++ [.obtained call] ∧
      s'.draining = s.draining ∧ s'.nextTicket = s.nextTicket ∧
      s'.waiters = (if hasTicket then s.waiters - 1 else s.waiters) ∧
      s'.servingTicket = if hasTicket then s.servingTicket + 1 else s.servingTicket := by
  obtain ⟨id, -, rfl⟩ := Option.map_eq_some_iff.mp hstep
  exact ⟨id, rfl, rfl, rfl, rfl, rfl, rfl⟩

theorem TicketSound.newcomer (h : TicketSound s) (hcall : s.calls[call]? = some .submit)
    {t : BsKernelPool} (ht : Silent (s.mark (.arrived call)) t) (hcalls : t.calls = s.calls)
    {index : Nat} (hstep : t.take call index false = some s') : TicketSound s' := by
  obtain ⟨id, hplace, hlog, hdraining, hnext, hwaiters, hserving⟩ := take_spec hstep
  have hgo : (t.goTo call (.executing id)).calls = s.calls.set call (.executing id) := by
    rw [goTo, hcalls]
  have harrive : TicketSound (t.goTo call (.executing id)) :=
    h.arrive hcall ⟨ht.draining, ht.next, ht.serving, ht.waiters, ht.log⟩ hgo rfl trivial
  have hmem : .arrived call ∈ t.log := by
    rw [ht.log]
    exact List.mem_append_right _ (List.mem_singleton_self _)
  have hnew : call ∉ queuedCalls t.log := by
    rw [ht.log]
    show call ∉ queuedCalls (s.log ++ [.arrived call])
    rw [queuedCalls_arrived]
    exact (h.not_mem hcall).1
  exact harrive.obtain ⟨hdraining, hnext, hserving, hwaiters, hlog⟩ hplace hmem hnew

theorem TicketSound.enter (h : TicketSound s) (hcall : s.calls[call]? = some .submit)
    (alloc : SlotAlloc) (hstep : s.enter c call alloc = some s') : TicketSound s' := by
  rw [BsKernelPool.enter, h.draining] at hstep
  simp only [Bool.false_eq_true, if_false] at hstep
  split at hstep
  · exact h.newcomer hcall ⟨rfl, rfl, rfl, rfl, rfl⟩ rfl hstep
  · have hadd := addSlot_silent (s := s.mark (.arrived call)) (c := c)
      (n := s.stats.dynamicSlots) .dynamic alloc
    split at hstep
    · split at hstep
      · next s₁ heq =>
          have heq' : (s.mark (.arrived call)).addSlot c .dynamic s.stats.dynamicSlots alloc =
              (true, s₁) := heq
          rw [heq'] at hadd
          exact h.newcomer hcall hadd.1 hadd.2 hstep
      · next s₁ heq =>
          have heq' : (s.mark (.arrived call)).addSlot c .dynamic s.stats.dynamicSlots alloc =
              (false, s₁) := heq
          rw [heq'] at hadd
          cases hstep
          have hgo : (s₁.goTo call (.returned .noMem)).calls =
              s.calls.set call (.returned .noMem) := congrArg (List.set · call _) hadd.2
          exact h.arrive hcall
            ⟨hadd.1.draining, hadd.1.next, hadd.1.serving, hadd.1.waiters, hadd.1.log⟩ hgo rfl
            trivial
    · cases hstep
      exact h.queue hcall rfl rfl rfl rfl rfl rfl

theorem wake_spec (h : TicketSound s) {ticket : Nat} (hstep : s.wake call ticket = some s') :
    s' = s ∨ ticket = s.servingTicket ∧ ∃ index, s.take call index true = some s' := by
  rw [BsKernelPool.wake, h.draining] at hstep
  simp only [Bool.false_eq_true, if_false] at hstep
  split at hstep
  · next index _ =>
      split at hstep
      · next hturn => exact Or.inr ⟨hturn, index, hstep⟩
      · exact Or.inl (Option.some.inj hstep).symm
  · exact Or.inl (Option.some.inj hstep).symm

theorem TicketSound.wake (h : TicketSound s) {ticket : Nat}
    (hcall : s.calls[call]? = some (.waiting ticket)) (hstep : s.wake call ticket = some s') :
    TicketSound s' := by
  rcases wake_spec h hstep with rfl | ⟨rfl, index, htake⟩
  · exact h
  · obtain ⟨id, hplace, hlog, hdraining, hnext, hwaiters, hserving⟩ := take_spec htake
    exact h.serve hcall hdraining hnext hserving hwaiters hlog hplace rfl trivial

/-! ## Runs -/

/-- A call that comes to the pool while others wait finds no idle slot, and
neither room nor memory for a new one. -/
def KeepsOrder (c : BsKernelPoolConfig) (s : BsKernelPool) : PoolEvent → Prop
  | .enter _ alloc => s.waiters = 0 ∨ s.selectIdleSlot = none ∧
      (c.maxInstances ≤ s.slotCount ∨ alloc = .noSlot ∨
        alloc = .noArray ∧ s.slotCapacity ≤ s.slotCount)
  | _ => True

inductive TicketStep (c : BsKernelPoolConfig) (s s' : BsKernelPool) : PoolEvent → Prop
  | begin {e : PoolEvent} {new : CallAt} : Silent s s' → s'.calls = s.calls ++ [new] →
      ticketOf new = [] → TicketStep c s s' e
  | move {e : PoolEvent} {call : Nat} {old new : CallAt} : Silent s s' →
      s.calls[call]? = some old → s'.calls = s.calls.set call new → ticketOf old = [] →
      ticketOf new = [] → (PastEntry old → PastEntry new) → TicketStep c s s' e
  | enter {call : Nat} {alloc : SlotAlloc} : s.calls[call]? = some .submit →
      s.enter c call alloc = some s' → TicketStep c s s' (.enter call alloc)
  | wake {call ticket : Nat} : s.calls[call]? = some (.waiting ticket) →
      s.wake call ticket = some s' → TicketStep c s s' (.wake call)

theorem step_cases (hdraining : s.draining = false) {e : PoolEvent}
    (hstep : s.step c e = some s') : TicketStep c s s' e := by
  cases e with
  | callSubmit =>
      cases hstep
      exact .begin ⟨rfl, rfl, rfl, rfl, rfl⟩ rfl rfl
  | callWarmup =>
      cases hstep
      exact .begin ⟨rfl, rfl, rfl, rfl, rfl⟩ rfl rfl
  | callReset =>
      cases hstep
      exact .begin ⟨rfl, rfl, rfl, rfl, rfl⟩ rfl rfl
  | warmup call alloc =>
      simp only [BsKernelPool.step] at hstep
      split at hstep
      · next submit hcall =>
          cases hstep
          obtain ⟨hsilent, new, hcalls, hnew⟩ := warmup_spec (s := s) (c := c) call submit alloc
          exact .move hsilent hcall hcalls rfl hnew False.elim
      · cases hstep
  | rollback call =>
      simp only [BsKernelPool.step] at hstep
      split at hstep
      · next hcall =>
          cases hstep
          exact .move ⟨rfl, rfl, rfl, rfl, rfl⟩ hcall rfl rfl rfl False.elim
      · next hcall =>
          cases hstep
          exact .move ⟨rfl, rfl, rfl, rfl, rfl⟩ hcall rfl rfl rfl False.elim
      · cases hstep
  | enter call alloc =>
      simp only [BsKernelPool.step] at hstep
      split at hstep
      · next hcall => exact .enter hcall hstep
      · cases hstep
  | wake call =>
      simp only [BsKernelPool.step] at hstep
      split at hstep
      · next hcall => exact .wake hcall hstep
      · cases hstep
  | finish call report =>
      simp only [BsKernelPool.step] at hstep
      split at hstep
      · next id hcall =>
          cases hstep
          unfold BsKernelPool.finish
          dsimp only
          split
          · exact .move ⟨rfl, rfl, rfl, rfl, rfl⟩ hcall rfl rfl rfl fun _ => trivial
          · exact .move ⟨rfl, rfl, rfl, rfl, rfl⟩ hcall rfl rfl rfl fun _ => trivial
      · cases hstep
  | remove call =>
      simp only [BsKernelPool.step] at hstep
      split at hstep
      · next hcall =>
          cases hstep
          exact .move ⟨rfl, rfl, rfl, rfl, rfl⟩ hcall rfl rfl rfl fun _ => trivial
      · cases hstep
  | reset call =>
      simp only [BsKernelPool.step] at hstep
      split at hstep
      · next hcall =>
          cases hstep
          exact .move ⟨hdraining.symm, rfl, rfl, rfl, rfl⟩ hcall rfl rfl rfl False.elim
      · cases hstep
  | sweep call =>
      simp only [BsKernelPool.step] at hstep
      split at hstep
      · next hcall =>
          split at hstep
          · cases hstep
            exact .move ⟨rfl, rfl, rfl, rfl, rfl⟩ hcall rfl rfl rfl False.elim
          · cases hstep
            exact .move ⟨rfl, rfl, rfl, rfl, rfl⟩ hcall rfl rfl rfl False.elim
      · next hcall =>
          cases hstep
          exact .move ⟨rfl, rfl, rfl, rfl, rfl⟩ hcall rfl rfl rfl False.elim
      · cases hstep

theorem TicketSound.step (h : TicketSound s) {e : PoolEvent} (hstep : s.step c e = some s') :
    TicketSound s' := by
  cases step_cases h.draining hstep with
  | begin hsilent hcalls hnew => exact h.begin hsilent hcalls hnew
  | move hsilent hcall hcalls hold hnew hpast =>
      exact h.move hsilent hcall hcalls hold hnew hpast
  | enter hcall henter => exact h.enter hcall _ henter
  | wake hcall hwake => exact h.wake hcall hwake

theorem selectLoop_mark (m : PoolMark) (ids : List Nat) (i : Nat)
    (selected : Option (Nat × Nat)) :
    (s.mark m).selectLoop ids i selected = s.selectLoop ids i selected := by
  induction ids generalizing i selected with
  | nil => rfl
  | cons id ids ih =>
      have hslot : (s.mark m).slot = s.slot := rfl
      simp only [selectLoop, ih, hslot]

theorem selectIdleSlot_mark (m : PoolMark) : (s.mark m).selectIdleSlot = s.selectIdleSlot :=
  congrArg (Option.map Prod.fst) (selectLoop_mark m s.slots 0 none)

theorem guarded_newcomer (h : TicketSound s) (hidle : s.waiters = 0)
    (hg : Guarded InTurn (s.log ++ [.arrived call])) :
    Guarded InTurn (s.log ++ [.arrived call] ++ [.obtained call]) := by
  refine guarded_append_singleton.mpr ⟨hg, inTurn_newcomer h.served.arrived ?_⟩
  rw [queuedCalls_arrived, h.tickets, h.sum, hidle, Nat.add_zero]

theorem guarded_enter (h : TicketSound s) {alloc : SlotAlloc}
    (hkeeps : KeepsOrder c s (.enter call alloc)) (hg : Guarded InTurn s.log)
    (hstep : s.enter c call alloc = some s') : Guarded InTurn s'.log := by
  have harrived : Guarded InTurn (s.log ++ [.arrived call]) :=
    guarded_append_singleton.mpr ⟨hg, fun i heq => by cases heq⟩
  rw [BsKernelPool.enter, h.draining] at hstep
  simp only [Bool.false_eq_true, if_false] at hstep
  split at hstep
  · next index hselect =>
      obtain ⟨id, -, hlog, -⟩ := take_spec hstep
      rcases hkeeps with hidle | ⟨hnone, -⟩
      · rw [hlog]
        exact guarded_newcomer h hidle harrived
      · rw [selectIdleSlot_mark, hnone] at hselect
        cases hselect
  · have hadd := addSlot_silent (s := s.mark (.arrived call)) (c := c)
      (n := s.stats.dynamicSlots) .dynamic alloc
    split at hstep
    · next hroom =>
        have hroom' : s.slotCount < c.maxInstances := hroom
        split at hstep
        · next s₁ heq =>
            have heq' : (s.mark (.arrived call)).addSlot c .dynamic s.stats.dynamicSlots alloc =
                (true, s₁) := heq
            rw [heq'] at hadd
            obtain ⟨id, -, hlog, -⟩ := take_spec hstep
            rcases hkeeps with hidle | ⟨-, hmax | rfl | ⟨rfl, hcap⟩⟩
            · rw [hlog, hadd.1.log]
              exact guarded_newcomer h hidle harrived
            · omega
            · cases heq'
            · have hfull : ¬ (s.mark (.arrived call)).slotCount + 1 ≤
                  (s.mark (.arrived call)).slotCapacity :=
                Nat.not_le_of_lt (Nat.lt_succ_of_le hcap)
              rw [addSlot, if_neg hfull] at heq'
              cases heq'
        · next s₁ heq =>
            have heq' : (s.mark (.arrived call)).addSlot c .dynamic s.stats.dynamicSlots alloc =
                (false, s₁) := heq
            rw [heq'] at hadd
            cases hstep
            have hlog : (s₁.goTo call (.returned .noMem)).log = s.log ++ [.arrived call] :=
              hadd.1.log
            rw [hlog]
            exact harrived
    · cases hstep
      exact guarded_append_singleton.mpr ⟨harrived, fun i heq => by cases heq⟩

theorem guarded_step (h : TicketSound s) {e : PoolEvent} (hkeeps : KeepsOrder c s e)
    (hg : Guarded InTurn s.log) (hstep : s.step c e = some s') : Guarded InTurn s'.log := by
  cases step_cases h.draining hstep with
  | begin hsilent => exact hsilent.log ▸ hg
  | move hsilent => exact hsilent.log ▸ hg
  | enter _ henter => exact guarded_enter h hkeeps hg henter
  | wake hcall hwake =>
      rcases wake_spec h hwake with rfl | ⟨rfl, index, htake⟩
      · exact hg
      · obtain ⟨id, -, hlog, -⟩ := take_spec htake
        rw [hlog]
        exact guarded_append_singleton.mpr
          ⟨hg, inTurn_waiter h.served h.ahead (h.owner _ _ hcall)⟩

theorem ticketSound_of_reachable (config : BsKernelPoolConfig) {s : BsKernelPool}
    (h : (kernelPool config).Reachable s) : TicketSound s :=
  h.invariant (ticketSound_init config) fun _ _ _ hs _ hstep => hs.step hstep

/-- First come, first served: the calls that got a slot after waiting are the
first with a ticket, in the order of their tickets; a call gets a slot after
those that waited when it came; and the tickets between the two counters are
those of the waiting calls. -/
structure FirstComeFirstServed (s : BsKernelPool) : Prop where
  ticketOrder : Served s.log s.servingTicket
  inTurn : Guarded InTurn s.log
  serving_le : s.servingTicket ≤ s.nextTicket
  waiters : s.nextTicket - s.servingTicket = s.waiters
  waiting : (waitingTickets s).length = s.waiters

/-- **The order of the pool.**  In every run whose newcomers find no slot while
others wait, the calls are served in the order they came. -/
theorem pool_fifo (config : BsKernelPoolConfig) {s : BsKernelPool}
    (h : (kernelPool config).ReachableMeeting (KeepsOrder config.normalized) s) :
    FirstComeFirstServed s := by
  have hsound := ticketSound_of_reachable config h.reachable
  have hboth : TicketSound s ∧ Guarded InTurn s.log := by
    apply h.invariant (I := fun s => TicketSound s ∧ Guarded InTurn s.log)
    · exact ⟨ticketSound_init config, Guarded.nil⟩
    · intro s e s' hs hkeeps hstep
      exact ⟨hs.1.step hstep, guarded_step hs.1 hkeeps hs.2 hstep⟩
  have hsum := hsound.sum
  exact ⟨hsound.served, hboth.2, by omega, by omega, hsound.waiting⟩

def singleSlot : BsKernelPoolConfig := { steadyCount := 1, maxInstances := 1 }

def waitingRun : List PoolEvent :=
  [.callSubmit, .warmup 0 (fun _ => .done), .enter 0 .done,
    .callSubmit, .warmup 1 (fun _ => .done), .enter 1 .done]

theorem pool_fifo_one_waiter :
    ∃ s, (kernelPool singleSlot).run {} waitingRun = some s ∧ FirstComeFirstServed s := by
  obtain ⟨s, hrun⟩ : ∃ s, (kernelPool singleSlot).run {} waitingRun = some s := ⟨_, rfl⟩
  have hmeets : (kernelPool singleSlot).RunMeets (KeepsOrder singleSlot.normalized) {}
      waitingRun :=
    And.intro trivial (And.intro trivial (And.intro (Or.inl rfl)
      (And.intro trivial (And.intro trivial (And.intro (Or.inl rfl) trivial)))))
  exact ⟨s, hrun, pool_fifo singleSlot (Machine.ReachableMeeting.run (.init _ _) hmeets hrun)⟩

/-- The slot becomes idle, and a third call comes before the waiting one has
woken up. -/
theorem newcomer_overtakes :
    ∃ s, (kernelPool singleSlot).Reachable s ∧ ¬ Guarded InTurn s.log := by
  refine ⟨_, Machine.reachable_of_run (waitingRun ++
    [.finish 0 true, .callSubmit, .warmup 2 (fun _ => .done), .enter 2 .done]) rfl, fun hg => ?_⟩
  have hturn : InTurn [.arrived 0, .obtained 0, .arrived 1, .queued 1, .arrived 2] (.obtained 2) :=
    hg _ _ [] rfl
  exact absurd (hturn 2 rfl 1 (by decide)) (by decide)

end BlessStar.Runtime.Proofs.PoolTickets
