import BlessStar.Lib.Places
import BlessStar.State.EventBus

/-!
# The delivery of events

An event is in the queue, in the batch of one drain, or delivered; no listener is
called with it twice, and none that stays subscribed is left out.  The events of
a path arrive in order when a drain takes them only after the drains before it
have delivered theirs.
-/

namespace BlessStar.State.Proofs.EventDelivery

open Lib.ByteString Lib.Transition Lib.Places EventBus

variable {s s' : EventBus}

/-! ## One step of a drain -/

inductive Moves (s : EventBus) : DrainAt → List QueuedEvent → DrainAt → List Delivery → Prop
  | swap : Moves s .swap [] (.next s.pending) []
  | finish : Moves s (.next []) s.pending .returned []
  | skip (q : QueuedEvent) (batch : List QueuedEvent) (h : s.listenersOf q.event = none) :
      Moves s (.next (q :: batch)) s.pending (.next batch) []
  | look (q : QueuedEvent) (batch : List QueuedEvent) (entries : List ListenerEntry)
      (h : s.listenersOf q.event = some entries) :
      Moves s (.next (q :: batch)) s.pending (.deliver q entries batch) []
  | done (q : QueuedEvent) (batch : List QueuedEvent) :
      Moves s (.deliver q [] batch) s.pending (.next batch) []
  | callListener (q : QueuedEvent) (entry : ListenerEntry) (rest : List ListenerEntry)
      (batch : List QueuedEvent) :
      Moves s (.deliver q (entry :: rest) batch) s.pending (.deliver q rest batch) [⟨entry.id, q⟩]

def moved (s : EventBus) (drain : Nat) (pending : List QueuedEvent) (next : DrainAt)
    (called : List Delivery) : EventBus :=
  { s with
    pending := pending
    drains := s.drains.set drain next
    delivered := s.delivered ++ called }

theorem moves_of_advance {drain : Nat} {place : DrainAt} (h : s.advance drain place = some s') :
    ∃ pending next called, Moves s place pending next called ∧
      s' = moved s drain pending next called := by
  have hmoved : ∀ pending next, moved s drain pending next [] =
      { s with pending := pending, drains := s.drains.set drain next } := by
    intro pending next
    rw [moved, List.append_nil]
  cases place with
  | swap =>
      cases h
      exact ⟨_, _, _, .swap, (hmoved _ _).symm⟩
  | next batch =>
      cases batch with
      | nil =>
          cases h
          exact ⟨_, _, _, .finish, (hmoved _ _).symm⟩
      | cons q batch =>
          simp only [EventBus.advance] at h
          split at h
          · next hnone =>
              cases h
              exact ⟨_, _, _, .skip q batch hnone, (hmoved _ _).symm⟩
          · next entries hentries =>
              cases h
              exact ⟨_, _, _, .look q batch entries hentries, (hmoved _ _).symm⟩
  | deliver q rest batch =>
      cases rest with
      | nil =>
          cases h
          exact ⟨_, _, _, .done q batch, (hmoved _ _).symm⟩
      | cons entry rest =>
          cases h
          exact ⟨_, _, _, .callListener q entry rest batch, rfl⟩
  | returned => cases h

/-! ## Undelivered events -/

def batchOf : DrainAt → List QueuedEvent
  | .next batch | .deliver _ _ batch => batch
  | .swap | .returned => []

def owedBy : DrainAt → List Delivery
  | .deliver q rest _ => rest.map fun entry => ⟨entry.id, q⟩
  | _ => []

def waiting (s : EventBus) : List QueuedEvent := s.pending ++ s.drains.flatMap batchOf

def owed (s : EventBus) : List Delivery := s.drains.flatMap owedBy

def calls (s : EventBus) (d : Delivery) : Nat := s.delivered.count d + (owed s).count d

def Known (s : EventBus) (q : QueuedEvent) : Prop :=
  q.id < s.published.length ∧
    (q.event.configPath ≠ none → s.published[q.id]? = some q.event)

structure BusSound (s : EventBus) : Prop where
  known : ∀ q ∈ waiting s, Known s q
  called : ∀ d ∈ s.delivered ++ owed s, Known s d.event
  one : ∀ d, calls s d + (waiting s).count d.event ≤ 1
  entries : ∀ path entries, s.listeners path = some entries →
    (entries.map ListenerEntry.id).Nodup ∧ ∀ entry ∈ entries, entry.id < s.subscribed

section Moved

variable {drain : Nat} {place next : DrainAt} {pending : List QueuedEvent} {called : List Delivery}

theorem waiting_moved (hdrain : s.drains[drain]? = some place) (pending : List QueuedEvent)
    (next : DrainAt) (called : List Delivery) (q : QueuedEvent) :
    (waiting (moved s drain pending next called)).count q +
        (s.pending.count q + (batchOf place).count q) =
      (waiting s).count q + (pending.count q + (batchOf next).count q) := by
  have hcount := count_flatMap_set hdrain batchOf next q
  simp only [waiting, moved, List.count_append]
  omega

theorem calls_moved (hdrain : s.drains[drain]? = some place) (pending : List QueuedEvent)
    (next : DrainAt) (called : List Delivery) (d : Delivery) :
    calls (moved s drain pending next called) d + (owedBy place).count d =
      calls s d + (called.count d + (owedBy next).count d) := by
  have hcount := count_flatMap_set hdrain owedBy next d
  simp only [calls, owed, moved, List.count_append]
  omega

theorem count_owed (q : QueuedEvent) (entries : List ListenerEntry) (d : Delivery) :
    (entries.map fun entry => Delivery.mk entry.id q).count d =
      if d.event = q then (entries.map ListenerEntry.id).count d.subscription else 0 := by
  obtain ⟨subscription, event⟩ := d
  induction entries with
  | nil => simp
  | cons entry entries ih =>
      simp only [List.map_cons, List.count_cons, ih]
      by_cases hevent : event = q
      · simp [hevent]
      · simp [hevent, Ne.symm hevent]

theorem moves_waiting (h : Moves s place pending next called) (q : QueuedEvent) :
    pending.count q + (batchOf next).count q ≤ s.pending.count q + (batchOf place).count q := by
  cases h with
  | swap => simp [batchOf]
  | finish => simp [batchOf]
  | skip q' batch => simp only [batchOf, List.count_cons]; omega
  | look q' batch => simp only [batchOf, List.count_cons]; omega
  | done => exact Nat.le_refl _
  | callListener => exact Nat.le_refl _

theorem moves_one (h : Moves s place pending next called)
    (hentries : ∀ q entries, s.listenersOf q = some entries →
      (entries.map ListenerEntry.id).Nodup) (d : Delivery) :
    called.count d + (owedBy next).count d +
        (pending.count d.event + (batchOf next).count d.event) ≤
      (owedBy place).count d + (s.pending.count d.event + (batchOf place).count d.event) := by
  cases h with
  | swap => simp [batchOf, owedBy]
  | finish => simp [batchOf, owedBy]
  | skip q batch => simp only [batchOf, owedBy, List.count_cons, List.count_nil]; omega
  | look q batch entries hlook =>
      have hone := List.nodup_iff_count_le_one.mp (hentries _ _ hlook) d.subscription
      simp only [batchOf, owedBy, List.count_cons, List.count_nil, count_owed]
      by_cases hevent : d.event = q
      · simp [hevent]; omega
      · simp [hevent, Ne.symm hevent]
  | done => simp [batchOf, owedBy]
  | callListener q entry rest batch =>
      simp only [batchOf, owedBy, List.map_cons, List.count_cons, List.count_nil]
      omega

theorem moves_kept (h : Moves s place pending next called) {d : Delivery}
    {entries : List ListenerEntry} (hlisten : s.listenersOf d.event.event = some entries)
    (hone : (entries.map ListenerEntry.id).count d.subscription = 1) :
    called.count d + (owedBy next).count d +
        (pending.count d.event + (batchOf next).count d.event) =
      (owedBy place).count d + (s.pending.count d.event + (batchOf place).count d.event) := by
  cases h with
  | swap => simp [batchOf, owedBy]
  | finish => simp [batchOf, owedBy]
  | skip q batch hnone =>
      have hevent : q ≠ d.event := by
        rintro rfl
        rw [hnone] at hlisten
        cases hlisten
      simp [batchOf, owedBy, hevent]
  | look q batch entries' hlook =>
      simp only [batchOf, owedBy, List.count_cons, List.count_nil, count_owed]
      by_cases hevent : d.event = q
      · rw [hevent, hlook] at hlisten
        cases hlisten
        simp [hevent, hone]
        omega
      · simp [hevent, Ne.symm hevent]
  | done => simp [batchOf, owedBy]
  | callListener q entry rest batch =>
      simp only [batchOf, owedBy, List.map_cons, List.count_cons, List.count_nil]
      omega

theorem BusSound.listenersOf (h : BusSound s) (event : ConfigEvent) (entries : List ListenerEntry)
    (hlisten : s.listenersOf event = some entries) : (entries.map ListenerEntry.id).Nodup := by
  obtain ⟨path, -, hpath⟩ := Option.bind_eq_some_iff.mp hlisten
  exact (h.entries path entries hpath).1

theorem calls_pos {d : Delivery} : d ∈ s.delivered ++ owed s ↔ 0 < calls s d := by
  rw [← List.count_pos_iff, List.count_append, calls]

theorem BusSound.move (h : BusSound s) (hdrain : s.drains[drain]? = some place)
    (hmove : Moves s place pending next called) : BusSound (moved s drain pending next called) := by
  have htotal : ∀ d, calls (moved s drain pending next called) d +
      (waiting (moved s drain pending next called)).count d.event ≤
        calls s d + (waiting s).count d.event := by
    intro d
    have hwaiting := waiting_moved hdrain pending next called d.event
    have hcalls := calls_moved hdrain pending next called d
    have hone := moves_one hmove h.listenersOf d
    omega
  refine ⟨fun q hq => ?_, fun d hd => ?_, fun d => (htotal d).trans (h.one d), h.entries⟩
  · have hcount := waiting_moved hdrain pending next called q
    have hle := moves_waiting hmove q
    have hpos := List.count_pos_iff.mpr hq
    exact h.known q (List.count_pos_iff.mp (by omega))
  · have hpos := calls_pos.mp hd
    have hle := htotal d
    by_cases hcalled : 0 < calls s d
    · exact h.called d (calls_pos.mpr hcalled)
    · exact h.known d.event (List.count_pos_iff.mp (by omega))

end Moved

/-! ## The other steps -/

theorem busSound_init : BusSound eventBus.init where
  known := by simp [eventBus, waiting]
  called := by simp [eventBus, owed]
  one := by simp [eventBus, calls, waiting, owed]
  entries := by simp [eventBus]

def newEntry (s : EventBus) (listener userData : Nat) : ListenerEntry :=
  ⟨listener, userData, s.subscribed, s.published.length⟩

theorem subscribe_listeners (path other : Bytes) (listener userData : Nat)
    {entries : List ListenerEntry}
    (h : (s.subscribe path listener userData).listeners other = some entries) :
    s.listeners other = some entries ∨
      other = path ∧ entries = (s.listeners path).getD [] ++ [newEntry s listener userData] := by
  simp only [EventBus.subscribe] at h
  by_cases hother : other = path
  · subst hother
    rw [Function.update_self] at h
    exact Or.inr ⟨rfl, (Option.some.inj h).symm⟩
  · rw [Function.update_of_ne hother] at h
    exact Or.inl h

theorem unsubscribe_listeners (path other : Bytes) (listener : Nat) {entries : List ListenerEntry}
    (h : (s.unsubscribe path listener).1.listeners other = some entries) :
    ∃ before, s.listeners other = some before ∧ entries.Sublist before := by
  unfold EventBus.unsubscribe at h
  split at h
  · exact ⟨entries, h, List.Sublist.refl _⟩
  · next before hbefore =>
      simp only at h
      by_cases hother : other = path
      · subst hother
        rw [Function.update_self] at h
        exact ⟨before, hbefore, Option.some.inj h ▸ List.eraseP_sublist⟩
      · rw [Function.update_of_ne hother] at h
        exact ⟨entries, h, List.Sublist.refl _⟩

theorem unsubscribe_frame (path : Bytes) (listener : Nat) :
    ∃ listeners, (s.unsubscribe path listener).1 = { s with listeners := listeners } := by
  unfold EventBus.unsubscribe
  split
  · exact ⟨s.listeners, rfl⟩
  · exact ⟨_, rfl⟩

theorem BusSound.getD (h : BusSound s) (path : Bytes) :
    (((s.listeners path).getD []).map ListenerEntry.id).Nodup ∧
      ∀ entry ∈ (s.listeners path).getD [], entry.id < s.subscribed := by
  cases hpath : s.listeners path with
  | none => simp
  | some entries => exact h.entries path entries hpath

theorem BusSound.subscribe (h : BusSound s) (path : Bytes) (listener userData : Nat) :
    BusSound (s.subscribe path listener userData) := by
  refine { h with entries := fun other entries hentries => ?_ }
  show _ ∧ ∀ entry ∈ entries, entry.id < s.subscribed + 1
  rcases subscribe_listeners path other listener userData hentries with hold | ⟨rfl, rfl⟩
  · obtain ⟨hnodup, hlt⟩ := h.entries other entries hold
    exact ⟨hnodup, fun entry hentry => Nat.lt_succ_of_lt (hlt entry hentry)⟩
  · obtain ⟨hnodup, hlt⟩ := h.getD other
    constructor
    · rw [List.map_append, List.map_singleton, List.nodup_append]
      refine ⟨hnodup, List.nodup_singleton _, fun id hid id' hid' => ?_⟩
      obtain ⟨entry, hentry, rfl⟩ := List.mem_map.mp hid
      rw [List.mem_singleton.mp hid']
      exact Nat.ne_of_lt (hlt entry hentry)
    · simp only [List.forall_mem_append, List.forall_mem_singleton]
      exact ⟨fun entry hentry => Nat.lt_succ_of_lt (hlt entry hentry), Nat.lt_succ_self _⟩

theorem BusSound.unsubscribe (h : BusSound s) (path : Bytes) (listener : Nat) :
    BusSound (s.unsubscribe path listener).1 := by
  have hentries : ∀ other entries,
      (s.unsubscribe path listener).1.listeners other = some entries →
      (entries.map ListenerEntry.id).Nodup ∧ ∀ entry ∈ entries, entry.id < s.subscribed := by
    intro other entries hentries
    obtain ⟨before, hbefore, hsub⟩ := unsubscribe_listeners path other listener hentries
    obtain ⟨hnodup, hlt⟩ := h.entries other before hbefore
    exact ⟨hnodup.sublist (hsub.map _), fun entry hentry => hlt entry (hsub.subset hentry)⟩
  obtain ⟨listeners, hframe⟩ := unsubscribe_frame (s := s) path listener
  rw [hframe] at hentries ⊢
  exact { h with entries := hentries }

theorem publish_cases (event : ConfigEvent) (memory : EventMemory) :
    (s.publish event memory).1 = s ∨
    ∃ path copy, event.configPath = some path ∧
      configEventCreate memory path event.type event.fromState event.toState event.version =
        some copy ∧
      (s.publish event memory).1 =
        { s with
          pending := s.pending ++ [⟨s.published.length, copy⟩]
          published := s.published ++ [event] } := by
  unfold EventBus.publish
  split
  · exact Or.inl rfl
  · next path hpath =>
      split
      · exact Or.inl rfl
      · next copy hcopy => exact Or.inr ⟨path, copy, hpath, hcopy, rfl⟩

theorem copy_eq {event copy : ConfigEvent} {memory : EventMemory} {path : Bytes}
    (hpath : event.configPath = some path)
    (hcopy : configEventCreate memory path event.type event.fromState event.toState
      event.version = some copy) (hnamed : copy.configPath ≠ none) : copy = event := by
  unfold configEventCreate at hcopy
  split at hcopy
  · cases hcopy
    by_cases hname : memory.path = true
    · rw [if_pos hname, ← hpath]
    · rw [if_neg hname] at hnamed
      exact absurd rfl hnamed
  · cases hcopy

theorem Known.publish {q : QueuedEvent} (h : Known s q) (pending : List QueuedEvent)
    (event : ConfigEvent) :
    Known { s with
      pending := pending
      published := s.published ++ [event] } q := by
  refine ⟨?_, fun hnamed => ?_⟩
  · rw [List.length_append]
    exact Nat.lt_add_right _ h.1
  · rw [List.getElem?_append_left h.1]
    exact h.2 hnamed

theorem count_waiting_publish (q new : QueuedEvent) (published : List ConfigEvent) :
    (waiting { s with
      pending := s.pending ++ [new]
      published := published }).count q = (waiting s).count q + [new].count q := by
  simp only [waiting, List.count_append]
  omega

theorem BusSound.fresh (h : BusSound s) (d : Delivery) (hid : d.event.id = s.published.length) :
    calls s d = 0 ∧ (waiting s).count d.event = 0 := by
  constructor
  · by_contra hne
    have hlt := (h.called d (calls_pos.mpr (Nat.pos_of_ne_zero hne))).1
    omega
  · rw [List.count_eq_zero]
    intro hmem
    have hlt := (h.known d.event hmem).1
    omega

theorem BusSound.publish (h : BusSound s) (event : ConfigEvent) (memory : EventMemory) :
    BusSound (s.publish event memory).1 := by
  rcases publish_cases event memory with heq | ⟨path, copy, hpath, hcopy, heq⟩
  · rwa [heq]
  rw [heq]
  refine ⟨fun q hq => ?_, fun d hd => (h.called d hd).publish _ _, fun d => ?_, h.entries⟩
  · have hpos := List.count_pos_iff.mpr hq
    rw [count_waiting_publish] at hpos
    by_cases hnew : q = ⟨s.published.length, copy⟩
    · subst hnew
      refine ⟨by simp, fun hnamed => ?_⟩
      rw [List.getElem?_concat_length, copy_eq hpath hcopy hnamed]
    · rw [List.count_singleton, if_neg (by simpa using Ne.symm hnew)] at hpos
      exact (h.known q (List.count_pos_iff.mp hpos)).publish _ _
  · rw [count_waiting_publish]
    show calls s d + _ ≤ 1
    by_cases hnew : d.event = ⟨s.published.length, copy⟩
    · obtain ⟨hcalls, hwaiting⟩ := h.fresh d (congrArg QueuedEvent.id hnew)
      rw [hcalls, hwaiting, hnew, List.count_singleton_self]
    · rw [List.count_singleton, if_neg (by simpa using Ne.symm hnew)]
      exact h.one d

theorem waiting_drain : waiting { s with drains := s.drains ++ [DrainAt.swap] } = waiting s := by
  simp [waiting, batchOf]

theorem owed_drain : owed { s with drains := s.drains ++ [DrainAt.swap] } = owed s := by
  simp [owed, owedBy]

theorem BusSound.drain (h : BusSound s) : BusSound { s with drains := s.drains ++ [DrainAt.swap] } := by
  refine ⟨?_, ?_, ?_, h.entries⟩
  · rw [waiting_drain]
    exact h.known
  · rw [owed_drain]
    exact h.called
  · unfold calls
    rw [waiting_drain, owed_drain]
    exact h.one

theorem BusSound.step (h : BusSound s) {e : BusStep} (hstep : eventBus.step s e = some s') :
    BusSound s' := by
  cases e with
  | subscribe path listener userData =>
      cases hstep
      exact h.subscribe path listener userData
  | unsubscribe path listener =>
      cases hstep
      exact h.unsubscribe path listener
  | publish event memory =>
      cases hstep
      exact h.publish event memory
  | drain =>
      cases hstep
      exact h.drain
  | advance drain =>
      obtain ⟨place, hdrain, hadvance⟩ := Option.bind_eq_some_iff.mp hstep
      obtain ⟨pending, next, called, hmove, rfl⟩ := moves_of_advance hadvance
      exact h.move hdrain hmove

theorem busSound_of_reachable (h : eventBus.Reachable s) : BusSound s := by
  apply h.invariant (I := BusSound) busSound_init
  intro s e s' hs _ hstep
  exact hs.step hstep

/-! ## Every event -/

/-- Where there is memory for a copy of an event there is some for its path. -/
def NamesCopied (_ : EventBus) : BusStep → Prop
  | .publish _ memory => memory.event = true → memory.path = true
  | _ => True

def AllCalled (s : EventBus) : Prop :=
  ∀ path entries, s.listeners path = some entries → ∀ entry ∈ entries,
    ∀ i event, s.published[i]? = some event → event.configPath = some path → entry.since ≤ i →
    calls s ⟨entry.id, ⟨i, event⟩⟩ + (waiting s).count ⟨i, event⟩ = 1

theorem AllCalled.move (h : AllCalled s) (hbus : BusSound s) {drain : Nat} {place next : DrainAt}
    {pending : List QueuedEvent} {called : List Delivery} (hdrain : s.drains[drain]? = some place)
    (hmove : Moves s place pending next called) :
    AllCalled (moved s drain pending next called) := by
  intro path entries hentries entry hentry i event hevent hpath hsince
  have hlisten : s.listenersOf event = some entries := by
    rw [EventBus.listenersOf, hpath]
    exact hentries
  have hone : (entries.map ListenerEntry.id).count entry.id = 1 :=
    List.count_eq_one_of_mem (hbus.entries path entries hentries).1 (List.mem_map_of_mem hentry)
  have hold := h path entries hentries entry hentry i event hevent hpath hsince
  have hkept := moves_kept hmove (d := ⟨entry.id, ⟨i, event⟩⟩) hlisten hone
  have hwaiting := waiting_moved hdrain pending next called ⟨i, event⟩
  have hcalls := calls_moved hdrain pending next called ⟨entry.id, ⟨i, event⟩⟩
  simp only at hkept
  omega

theorem AllCalled.subscribe (h : AllCalled s) (path : Bytes) (listener userData : Nat) :
    AllCalled (s.subscribe path listener userData) := by
  intro other entries hentries entry hentry i event hevent hpath hsince
  rcases subscribe_listeners path other listener userData hentries with hold | ⟨rfl, rfl⟩
  · exact h other entries hold entry hentry i event hevent hpath hsince
  · rcases List.mem_append.mp hentry with hmem | hmem
    · cases hbefore : s.listeners other with
      | none =>
          rw [hbefore] at hmem
          cases hmem
      | some before =>
          rw [hbefore] at hmem
          exact h other before hbefore entry hmem i event hevent hpath hsince
    · -- no event has been published since the new entry was made
      rw [List.mem_singleton.mp hmem] at hsince
      have hlt := (List.getElem?_eq_some_iff.mp hevent).1
      exact absurd hlt (Nat.not_lt.mpr hsince)

theorem AllCalled.unsubscribe (h : AllCalled s) (path : Bytes) (listener : Nat) :
    AllCalled (s.unsubscribe path listener).1 := by
  have hsub : ∀ other entries, (s.unsubscribe path listener).1.listeners other = some entries →
      ∃ before, s.listeners other = some before ∧ entries.Sublist before :=
    fun other _ => unsubscribe_listeners path other listener
  obtain ⟨listeners, hframe⟩ := unsubscribe_frame (s := s) path listener
  rw [hframe] at hsub ⊢
  intro other entries hentries entry hentry i event hevent hpath hsince
  obtain ⟨before, hbefore, hsublist⟩ := hsub other entries hentries
  exact h other before hbefore entry (hsublist.subset hentry) i event hevent hpath hsince

theorem AllCalled.publish (h : AllCalled s) (hbus : BusSound s) {event : ConfigEvent}
    {memory : EventMemory} (hnamed : memory.event = true → memory.path = true) :
    AllCalled (s.publish event memory).1 := by
  rcases publish_cases event memory with heq | ⟨path, copy, hpath, hcopy, heq⟩
  · rwa [heq]
  rw [heq]
  have hcopied : copy = event := by
    apply copy_eq hpath hcopy
    unfold configEventCreate at hcopy
    split at hcopy
    · next hmemory =>
        cases hcopy
        simp [hnamed hmemory]
    · cases hcopy
  subst hcopied
  intro other entries hentries entry hentry i event hevent hother hsince
  rw [count_waiting_publish]
  show calls s _ + _ = 1
  rcases Nat.lt_or_ge i s.published.length with hlt | hge
  · rw [List.getElem?_append_left hlt] at hevent
    have hne : (⟨s.published.length, copy⟩ : QueuedEvent) ≠ ⟨i, event⟩ := fun heq =>
      Nat.ne_of_gt hlt (congrArg QueuedEvent.id heq)
    rw [List.count_singleton, if_neg (by simpa using hne)]
    exact h other entries hentries entry hentry i event hevent hother hsince
  · have hlen := (List.getElem?_eq_some_iff.mp hevent).1
    rw [List.length_append, List.length_singleton] at hlen
    obtain rfl : i = s.published.length := by omega
    rw [List.getElem?_concat_length] at hevent
    cases hevent
    obtain ⟨hcalls, hwaiting⟩ := hbus.fresh ⟨entry.id, ⟨s.published.length, copy⟩⟩ rfl
    rw [hcalls, hwaiting, List.count_singleton_self]

theorem AllCalled.step (h : AllCalled s) (hbus : BusSound s) {e : BusStep}
    (hnamed : NamesCopied s e) (hstep : eventBus.step s e = some s') : AllCalled s' := by
  cases e with
  | subscribe path listener userData =>
      cases hstep
      exact h.subscribe path listener userData
  | unsubscribe path listener =>
      cases hstep
      exact h.unsubscribe path listener
  | publish event memory =>
      cases hstep
      exact h.publish hbus hnamed
  | drain =>
      cases hstep
      unfold AllCalled calls
      rw [waiting_drain, owed_drain]
      exact h
  | advance drain =>
      obtain ⟨place, hdrain, hadvance⟩ := Option.bind_eq_some_iff.mp hstep
      obtain ⟨pending, next, called, hmove, rfl⟩ := moves_of_advance hadvance
      exact h.move hbus hdrain hmove

theorem allCalled_of_reachable (h : eventBus.ReachableMeeting NamesCopied s) : AllCalled s := by
  have hboth : BusSound s ∧ AllCalled s := by
    apply h.invariant (I := fun s => BusSound s ∧ AllCalled s)
    · refine ⟨busSound_init, ?_⟩
      intro path entries hentries
      cases hentries
    · intro s e s' hs hnamed hstep
      exact ⟨hs.1.step hstep, hs.2.step hs.1 hnamed hstep⟩
  exact hboth.2

/-! ## Order -/

def held : DrainAt → List QueuedEvent
  | .next batch | .deliver _ [] batch => batch
  | .deliver q (_ :: _) batch => q :: batch
  | .swap | .returned => []

def SamePath (q q' : QueuedEvent) : Prop :=
  ∃ path, q.event.configPath = some path ∧ q'.event.configPath = some path

/-- A drain takes an event only when no other drain holds one of its path. -/
def DrainsInTurn (s : EventBus) : BusStep → Prop
  | .advance drain => s.drains[drain]? = some .swap → ∀ q ∈ s.pending, ∀ place ∈ s.drains,
      ∀ q' ∈ held place, ¬SamePath q q'
  | _ => True

def After (d : Delivery) (place : DrainAt) : Prop :=
  (∀ o ∈ owedBy place, SamePath d.event o.event → d.event.id ≤ o.event.id) ∧
    ∀ q ∈ batchOf place, SamePath d.event q → d.event.id < q.id

def arrivals (s : EventBus) (subscription : Nat) (path : Bytes) : List Delivery :=
  s.delivered.filter fun d =>
    d.subscription = subscription ∧ d.event.event.configPath = some path

structure OrderSound (s : EventBus) : Prop where
  queue : s.pending.Pairwise fun q q' => q.id < q'.id
  queueLast : ∀ q ∈ s.pending, (∀ place ∈ s.drains, ∀ q' ∈ held place, q'.id < q.id) ∧
    ∀ d ∈ s.delivered, d.event.id < q.id
  batches : ∀ place ∈ s.drains, (held place).Pairwise fun q q' => q.id < q'.id
  separate : ∀ (i j : Nat) p p', s.drains[i]? = some p → s.drains[j]? = some p' →
    ∀ q ∈ held p, ∀ q' ∈ held p', SamePath q q' → i = j
  past : ∀ d ∈ s.delivered, ∀ place ∈ s.drains, After d place
  sorted : ∀ subscription path,
    (arrivals s subscription path).Pairwise fun d d' => d.event.id < d'.event.id

theorem SamePath.symm {q q' : QueuedEvent} (h : SamePath q q') : SamePath q' q := by
  obtain ⟨path, hq, hq'⟩ := h
  exact ⟨path, hq', hq⟩

theorem batchOf_sublist_held (place : DrainAt) : (batchOf place).Sublist (held place) := by
  cases place with
  | deliver q rest batch =>
      cases rest with
      | nil => exact List.Sublist.refl _
      | cons entry rest => exact List.sublist_cons_self q batch
  | _ => exact List.Sublist.refl _

theorem owedBy_held {place : DrainAt} {o : Delivery} (h : o ∈ owedBy place) :
    o.event ∈ held place := by
  cases place with
  | deliver q rest batch =>
      cases rest with
      | nil => cases h
      | cons entry rest =>
          obtain ⟨entry', -, rfl⟩ := List.mem_map.mp h
          exact List.mem_cons_self
  | _ => cases h

theorem held_of_moves {place next : DrainAt} {pending : List QueuedEvent} {called : List Delivery}
    (h : Moves s place pending next called) (hswap : place ≠ .swap) :
    pending = s.pending ∧ (held next).Sublist (held place) := by
  cases h with
  | swap => exact absurd rfl hswap
  | finish => exact ⟨rfl, List.Sublist.refl _⟩
  | skip q batch => exact ⟨rfl, List.sublist_cons_self q batch⟩
  | look q batch entries =>
      cases entries with
      | nil => exact ⟨rfl, List.sublist_cons_self q batch⟩
      | cons entry rest => exact ⟨rfl, List.Sublist.refl _⟩
  | done => exact ⟨rfl, List.Sublist.refl _⟩
  | callListener q entry rest batch =>
      cases rest with
      | nil => exact ⟨rfl, List.sublist_cons_self q batch⟩
      | cons entry' rest => exact ⟨rfl, List.Sublist.refl _⟩

theorem After.move {place next : DrainAt} {pending : List QueuedEvent} {called : List Delivery}
    {d : Delivery} (h : After d place) (hmove : Moves s place pending next called)
    (hswap : place ≠ .swap) : After d next := by
  cases hmove with
  | swap => exact absurd rfl hswap
  | finish => exact ⟨by simp [owedBy], by simp [batchOf]⟩
  | skip q batch =>
      exact ⟨by simp [owedBy], fun q' hq' => h.2 q' (List.mem_cons_of_mem q hq')⟩
  | look q batch entries =>
      refine ⟨fun o ho hpath => ?_, fun q' hq' => h.2 q' (List.mem_cons_of_mem q hq')⟩
      obtain ⟨entry, -, rfl⟩ := List.mem_map.mp ho
      exact Nat.le_of_lt (h.2 q List.mem_cons_self hpath)
  | done q batch => exact ⟨by simp [owedBy], h.2⟩
  | callListener q entry rest batch =>
      exact ⟨fun o ho => h.1 o (List.mem_cons_of_mem _ ho), h.2⟩

theorem called_of_moves {place next : DrainAt} {pending : List QueuedEvent}
    {called : List Delivery} (h : Moves s place pending next called) :
    called = [] ∨ ∃ d, called = [d] ∧ d ∈ owedBy place ∧
      (∀ o ∈ owedBy next, o.event = d.event) ∧ batchOf next = batchOf place := by
  cases h with
  | callListener q entry rest batch =>
      refine Or.inr ⟨⟨entry.id, q⟩, rfl, List.mem_cons_self, fun o ho => ?_, rfl⟩
      obtain ⟨entry', -, rfl⟩ := List.mem_map.mp ho
      rfl
  | _ => exact Or.inl rfl

theorem owed_before_batch {place : DrainAt}
    (h : (held place).Pairwise fun q q' => q.id < q'.id) {d : Delivery} (hd : d ∈ owedBy place) :
    ∀ q ∈ batchOf place, d.event.id < q.id := by
  cases place with
  | deliver q rest batch =>
      cases rest with
      | nil => cases hd
      | cons entry rest =>
          obtain ⟨entry', -, rfl⟩ := List.mem_map.mp hd
          exact (List.pairwise_cons.mp h).1
  | _ => cases hd

theorem OrderSound.arrivals_lt (h : OrderSound s) (hbus : BusSound s) {place : DrainAt}
    (hplace : place ∈ s.drains) {d : Delivery} (hd : d ∈ owedBy place) {path : Bytes}
    (hpath : d.event.event.configPath = some path) :
    ∀ d' ∈ arrivals s d.subscription path, d'.event.id < d.event.id := by
  intro d' hd'
  obtain ⟨hdelivered, hmatch⟩ := List.mem_filter.mp hd'
  obtain ⟨hsubscription, hpath'⟩ := of_decide_eq_true hmatch
  have howed : d ∈ owed s := List.mem_flatMap.mpr ⟨place, hplace, hd⟩
  have hle := (h.past d' hdelivered place hplace).1 d hd ⟨path, hpath', hpath⟩
  apply Nat.lt_of_le_of_ne hle
  intro hid
  have hevent := (hbus.called d (List.mem_append_right _ howed)).2 (by simp [hpath])
  have hevent' := (hbus.called d' (List.mem_append_left _ hdelivered)).2 (by simp [hpath'])
  rw [hid, hevent] at hevent'
  obtain ⟨subscription, q⟩ := d
  obtain ⟨subscription', q'⟩ := d'
  have hsame : q' = q := by
    obtain ⟨id, event⟩ := q
    obtain ⟨id', event'⟩ := q'
    rw [show id' = id from hid, ← show event = event' from Option.some.inj hevent']
  have hsub : subscription' = subscription := hsubscription
  subst hsame hsub
  have hone := hbus.one ⟨subscription', q'⟩
  have hcalled := List.count_pos_iff.mpr hdelivered
  have hdue := List.count_pos_iff.mpr howed
  unfold calls at hone
  omega

theorem OrderSound.move (h : OrderSound s) (hbus : BusSound s) {drain : Nat}
    {place next : DrainAt} {pending : List QueuedEvent} {called : List Delivery}
    (hdrain : s.drains[drain]? = some place) (hmove : Moves s place pending next called)
    (hswap : place ≠ .swap) : OrderSound (moved s drain pending next called) := by
  have hmem := List.mem_of_getElem? hdrain
  obtain ⟨rfl, hsub⟩ := held_of_moves hmove hswap
  have hcalled := called_of_moves hmove
  -- what a drain holds now it has held before
  have hbefore : ∀ {k : Nat} {p}, (s.drains.set drain next)[k]? = some p →
      ∃ p', s.drains[k]? = some p' ∧ ∀ q ∈ held p, q ∈ held p' := by
    intro k p hp
    by_cases hk : k = drain
    · subst hk
      rw [get_set_self hdrain] at hp
      cases hp
      exact ⟨place, hdrain, fun q hq => hsub.subset hq⟩
    · rw [get_set_ne hk] at hp
      exact ⟨p, hp, fun q hq => hq⟩
  refine ⟨h.queue, fun q hq => ⟨?_, ?_⟩, ?_, fun i j p p' hp hp' q hq q' hq' hpath => ?_, ?_,
    fun subscription path => ?_⟩
  · have hlast := (h.queueLast q hq).1
    exact forall_mem_set hlast fun q' hq' => hlast place hmem q' (hsub.subset hq')
  · show ∀ d ∈ s.delivered ++ called, _
    rw [List.forall_mem_append]
    refine ⟨(h.queueLast q hq).2, ?_⟩
    rcases hcalled with rfl | ⟨d, rfl, hd, -, -⟩
    · simp
    · rw [List.forall_mem_singleton]
      exact (h.queueLast q hq).1 place hmem d.event (owedBy_held hd)
  · exact forall_mem_set h.batches ((h.batches place hmem).sublist hsub)
  · obtain ⟨old, hold, hin⟩ := hbefore hp
    obtain ⟨old', hold', hin'⟩ := hbefore hp'
    exact h.separate i j old old' hold hold' q (hin q hq) q' (hin' q' hq') hpath
  · show ∀ d ∈ s.delivered ++ called, ∀ p ∈ s.drains.set drain next, After d p
    rw [List.forall_mem_append]
    refine ⟨fun d hd => forall_mem_set (h.past d hd) ((h.past d hd place hmem).move hmove hswap),
      ?_⟩
    rcases hcalled with rfl | ⟨d, rfl, hd, hdue, hbatch⟩
    · simp
    rw [List.forall_mem_singleton]
    intro p hp
    obtain ⟨k, hk⟩ := List.mem_iff_getElem?.mp hp
    by_cases hkd : k = drain
    · subst hkd
      rw [get_set_self hdrain] at hk
      cases hk
      refine ⟨fun o ho _ => ?_, fun q hq _ => ?_⟩
      · rw [hdue o ho]
      · rw [hbatch] at hq
        exact owed_before_batch (h.batches place hmem) hd q hq
    · -- the other drains hold nothing of the path
      rw [get_set_ne hkd] at hk
      have hother : ∀ q ∈ held p, ¬SamePath d.event q := fun q hq hpath =>
        hkd (h.separate drain k place p hdrain hk d.event (owedBy_held hd) q hq hpath).symm
      exact ⟨fun o ho hpath => absurd hpath (hother _ (owedBy_held ho)), fun q hq hpath =>
        absurd hpath (hother q ((batchOf_sublist_held p).subset hq))⟩
  · rw [arrivals, moved, List.filter_append]
    rcases hcalled with rfl | ⟨d, rfl, hd, -, -⟩
    · rw [List.filter_nil, List.append_nil]
      exact h.sorted subscription path
    · rw [List.pairwise_append]
      refine ⟨h.sorted subscription path, (List.pairwise_singleton _ d).sublist
        List.filter_sublist, fun d' hd' d'' hd'' => ?_⟩
      obtain ⟨hmem'', hmatch⟩ := List.mem_filter.mp hd''
      obtain rfl := List.mem_singleton.mp hmem''
      obtain ⟨rfl, hpath⟩ := of_decide_eq_true hmatch
      exact h.arrivals_lt hbus hmem hd hpath d' hd'

theorem OrderSound.swap (h : OrderSound s) {drain : Nat} (hdrain : s.drains[drain]? = some .swap)
    (hfree : ∀ q ∈ s.pending, ∀ place ∈ s.drains, ∀ q' ∈ held place, ¬SamePath q q') :
    OrderSound (moved s drain [] (.next s.pending) []) := by
  -- the drain takes the queue, and the others hold nothing of its paths
  have hnow : ∀ {k : Nat} {p}, (s.drains.set drain (.next s.pending))[k]? = some p →
      (k = drain ∧ p = .next s.pending) ∨ s.drains[k]? = some p := by
    intro k p hp
    by_cases hk : k = drain
    · subst hk
      rw [get_set_self hdrain] at hp
      exact Or.inl ⟨rfl, (Option.some.inj hp).symm⟩
    · rw [get_set_ne hk] at hp
      exact Or.inr hp
  refine ⟨List.Pairwise.nil, fun _ hq => absurd hq List.not_mem_nil,
    forall_mem_set h.batches h.queue,
    fun i j p p' hp hp' q hq q' hq' hpath => ?_, ?_, ?_⟩
  · rcases hnow hp with ⟨rfl, rfl⟩ | hold
    · rcases hnow hp' with ⟨rfl, rfl⟩ | hold'
      · rfl
      · exact absurd hpath (hfree q hq p' (List.mem_of_getElem? hold') q' hq')
    · rcases hnow hp' with ⟨rfl, rfl⟩ | hold'
      · exact absurd hpath.symm (hfree q' hq' p (List.mem_of_getElem? hold) q hq)
      · exact h.separate i j p p' hold hold' q hq q' hq' hpath
  · show ∀ d ∈ s.delivered ++ [], _
    rw [List.append_nil]
    exact fun d hd => forall_mem_set (h.past d hd)
      ⟨fun _ ho _ => absurd ho List.not_mem_nil, fun q hq _ => (h.queueLast q hq).2 d hd⟩
  · intro subscription path
    rw [arrivals, moved, List.append_nil]
    exact h.sorted subscription path

theorem orderSound_init : OrderSound eventBus.init where
  queue := List.Pairwise.nil
  queueLast := fun _ hq => absurd hq List.not_mem_nil
  batches := fun _ hp => absurd hp List.not_mem_nil
  separate := by simp [eventBus]
  past := fun _ hd => absurd hd List.not_mem_nil
  sorted := fun _ _ => List.Pairwise.nil

theorem BusSound.held_lt (h : BusSound s) {place : DrainAt} (hplace : place ∈ s.drains)
    {q : QueuedEvent} (hq : q ∈ held place) : q.id < s.published.length := by
  have hbatch : q ∈ batchOf place → q.id < s.published.length := fun hq =>
    (h.known q (List.mem_append_right _ (List.mem_flatMap.mpr ⟨place, hplace, hq⟩))).1
  cases place with
  | deliver q' rest batch =>
      cases rest with
      | nil => exact hbatch hq
      | cons entry rest =>
          rcases List.mem_cons.mp hq with rfl | hmem
          · have howed : ⟨entry.id, q⟩ ∈ owed s :=
              List.mem_flatMap.mpr ⟨_, hplace, List.mem_cons_self⟩
            exact (h.called _ (List.mem_append_right _ howed)).1
          · exact hbatch hmem
  | _ => exact hbatch hq

theorem OrderSound.publish (h : OrderSound s) (hbus : BusSound s) (event : ConfigEvent)
    (memory : EventMemory) : OrderSound (s.publish event memory).1 := by
  rcases publish_cases event memory with heq | ⟨path, copy, -, -, heq⟩
  · rwa [heq]
  rw [heq]
  refine { h with queue := ?_, queueLast := ?_ }
  · rw [List.pairwise_append]
    refine ⟨h.queue, List.pairwise_singleton _ _, fun q hq q' hq' => ?_⟩
    rw [List.mem_singleton.mp hq']
    exact (hbus.known q (List.mem_append_left _ hq)).1
  · rw [List.forall_mem_append]
    refine ⟨h.queueLast, ?_⟩
    rw [List.forall_mem_singleton]
    exact ⟨fun place hplace q hq => hbus.held_lt hplace hq,
      fun d hd => (hbus.called d (List.mem_append_left _ hd)).1⟩

theorem OrderSound.drain (h : OrderSound s) :
    OrderSound { s with drains := s.drains ++ [DrainAt.swap] } := by
  refine ⟨h.queue, fun q hq => ⟨?_, (h.queueLast q hq).2⟩, ?_, ?_, fun d hd => ?_, h.sorted⟩
  · rw [List.forall_mem_append, List.forall_mem_singleton]
    exact ⟨(h.queueLast q hq).1, fun _ hq => absurd hq List.not_mem_nil⟩
  · rw [List.forall_mem_append, List.forall_mem_singleton]
    exact ⟨h.batches, List.Pairwise.nil⟩
  · intro i j p p' hp hp' q hq q' hq' hpath
    rcases get_concat hp with hold | ⟨-, rfl⟩
    · rcases get_concat hp' with hold' | ⟨-, rfl⟩
      · exact h.separate i j p p' hold hold' q hq q' hq' hpath
      · cases hq'
    · cases hq
  · rw [List.forall_mem_append, List.forall_mem_singleton]
    exact ⟨h.past d hd, fun _ ho _ => absurd ho List.not_mem_nil,
      fun _ hq _ => absurd hq List.not_mem_nil⟩

theorem OrderSound.step (h : OrderSound s) (hbus : BusSound s) {e : BusStep}
    (hturn : DrainsInTurn s e) (hstep : eventBus.step s e = some s') : OrderSound s' := by
  cases e with
  | subscribe path listener userData =>
      cases hstep
      exact ⟨h.queue, h.queueLast, h.batches, h.separate, h.past, h.sorted⟩
  | unsubscribe path listener =>
      cases hstep
      obtain ⟨listeners, hframe⟩ := unsubscribe_frame (s := s) path listener
      rw [hframe]
      exact ⟨h.queue, h.queueLast, h.batches, h.separate, h.past, h.sorted⟩
  | publish event memory =>
      cases hstep
      exact h.publish hbus event memory
  | drain =>
      cases hstep
      exact h.drain
  | advance drain =>
      obtain ⟨place, hdrain, hadvance⟩ := Option.bind_eq_some_iff.mp hstep
      obtain ⟨pending, next, called, hmove, rfl⟩ := moves_of_advance hadvance
      by_cases hswap : place = .swap
      · subst hswap
        cases hmove with
        | swap => exact h.swap hdrain (hturn hdrain)
      · exact h.move hbus hdrain hmove hswap

theorem orderSound_of_reachable (h : eventBus.ReachableMeeting DrainsInTurn s) : OrderSound s := by
  have hboth : BusSound s ∧ OrderSound s := by
    apply h.invariant (I := fun s => BusSound s ∧ OrderSound s) ⟨busSound_init, orderSound_init⟩
    intro s e s' hs hturn hstep
    exact ⟨hs.1.step hstep, hs.2.step hs.1 hturn hstep⟩
  exact hboth.2

/-! ## Drains finish -/

structure GetsTo (s : EventBus) (drain : Nat) (place : DrainAt) (s' : EventBus) : Prop where
  leads : eventBus.Leads s s'
  pending : s'.pending = s.pending
  drains : s'.drains = s.drains.set drain place
  listeners : s'.listeners = s.listeners
  published : s'.published = s.published

section GetsTo

variable {drain : Nat} {place next : DrainAt}

theorem GetsTo.trans {s'' : EventBus} (h : GetsTo s drain place s') (h' : GetsTo s' drain next s'') :
    GetsTo s drain next s'' where
  leads := h.leads.trans h'.leads
  pending := h'.pending.trans h.pending
  drains := by rw [h'.drains, h.drains, List.set_set]
  listeners := h'.listeners.trans h.listeners
  published := h'.published.trans h.published

theorem GetsTo.get (h : GetsTo s drain place s') (hdrain : s.drains[drain]? = some next) :
    s'.drains[drain]? = some place := by
  rw [h.drains]
  exact get_set_self hdrain place

theorem getsTo_of_advance (hdrain : s.drains[drain]? = some place)
    (hadvance : s.advance drain place = some s') (hpending : s'.pending = s.pending)
    (hdrains : s'.drains = s.drains.set drain next) (hlisteners : s'.listeners = s.listeners)
    (hpublished : s'.published = s.published) : GetsTo s drain next s' := by
  have hstep : eventBus.step s (.advance drain) = some s' :=
    Option.bind_eq_some_iff.mpr ⟨place, hdrain, hadvance⟩
  exact ⟨.head _ hstep (.refl _), hpending, hdrains, hlisteners, hpublished⟩

theorem listeners_called (q : QueuedEvent) (rest : List ListenerEntry) (batch : List QueuedEvent)
    (hdrain : s.drains[drain]? = some (.deliver q rest batch)) :
    ∃ s', GetsTo s drain (.next batch) s' := by
  induction rest generalizing s with
  | nil => exact ⟨_, getsTo_of_advance hdrain rfl rfl rfl rfl rfl⟩
  | cons entry rest ih =>
      have hcall : GetsTo s drain (.deliver q rest batch) _ :=
        getsTo_of_advance hdrain rfl rfl rfl rfl rfl
      obtain ⟨s', hs'⟩ := ih (hcall.get hdrain)
      exact ⟨s', hcall.trans hs'⟩

theorem batch_delivered (batch : List QueuedEvent)
    (hdrain : s.drains[drain]? = some (.next batch)) : ∃ s', GetsTo s drain .returned s' := by
  induction batch generalizing s with
  | nil => exact ⟨_, getsTo_of_advance hdrain rfl rfl rfl rfl rfl⟩
  | cons q batch ih =>
      have hnext : ∃ s', GetsTo s drain (.next batch) s' := by
        cases hlisten : s.listenersOf q.event with
        | none =>
            have hskip : s.advance drain (.next (q :: batch)) =
                some (s.goTo drain (.next batch)) := by
              simp only [EventBus.advance, hlisten]
            exact ⟨_, getsTo_of_advance hdrain hskip rfl rfl rfl rfl⟩
        | some entries =>
            have hlook : s.advance drain (.next (q :: batch)) =
                some (s.goTo drain (.deliver q entries batch)) := by
              simp only [EventBus.advance, hlisten]
            have hdeliver : GetsTo s drain (.deliver q entries batch) _ :=
              getsTo_of_advance hdrain hlook rfl rfl rfl rfl
            obtain ⟨s', hs'⟩ := listeners_called q entries batch (hdeliver.get hdrain)
            exact ⟨s', hdeliver.trans hs'⟩
      obtain ⟨s', hs'⟩ := hnext
      obtain ⟨s'', hs''⟩ := ih (hs'.get hdrain)
      exact ⟨s'', hs'.trans hs''⟩

theorem drain_returns (hdrain : s.drains[drain]? = some place) (hpending : s.pending = []) :
    ∃ s', GetsTo s drain .returned s' := by
  cases place with
  | swap =>
      have hswap : GetsTo s drain (.next []) { s with
          pending := []
          drains := s.drains.set drain (.next s.pending) } :=
        getsTo_of_advance hdrain rfl hpending.symm (by rw [hpending]) rfl rfl
      obtain ⟨s', hs'⟩ := batch_delivered [] (hswap.get hdrain)
      exact ⟨s', hswap.trans hs'⟩
  | next batch => exact batch_delivered batch hdrain
  | deliver q rest batch =>
      obtain ⟨s', hs'⟩ := listeners_called q rest batch hdrain
      obtain ⟨s'', hs''⟩ := batch_delivered batch (hs'.get hdrain)
      exact ⟨s'', hs'.trans hs''⟩
  | returned =>
      refine ⟨s, .refl s, rfl, ?_, rfl, rfl⟩
      obtain ⟨hlt, hget⟩ := List.getElem?_eq_some_iff.mp hdrain
      rw [← hget, List.set_getElem_self]

end GetsTo

def Idle (s : EventBus) : Prop := s.pending = [] ∧ ∀ place ∈ s.drains, place = .returned

theorem idle_ahead (s : EventBus) : ∃ s', eventBus.Leads s s' ∧ Idle s' ∧
    s'.listeners = s.listeners ∧ s'.published = s.published := by
  have hall : ∀ (s : EventBus), s.pending = [] → ∀ (k : Nat), ∃ s', eventBus.Leads s s' ∧
      s'.pending = [] ∧ s'.drains.length = s.drains.length ∧
      (∀ (j : Nat), j < k → ∀ place, s'.drains[j]? = some place → place = DrainAt.returned) ∧
      s'.listeners = s.listeners ∧ s'.published = s.published := by
    intro s hpending k
    induction k with
    | zero => exact ⟨s, .refl s, hpending, rfl, fun j hj => absurd hj (Nat.not_lt_zero j), rfl, rfl⟩
    | succ k ih =>
        obtain ⟨t, hleads, hempty, hlength, hreturned, hlisteners, hpublished⟩ := ih
        cases hplace : t.drains[k]? with
        | none =>
            refine ⟨t, hleads, hempty, hlength, fun j hj place hj' => ?_, hlisteners, hpublished⟩
            rcases Nat.lt_succ_iff_lt_or_eq.mp hj with hlt | rfl
            · exact hreturned j hlt place hj'
            · rw [hplace] at hj'
              cases hj'
        | some place =>
            obtain ⟨t', ht'⟩ := drain_returns hplace hempty
            refine ⟨t', hleads.trans ht'.leads, ht'.pending.trans hempty, ?_, fun j hj p hp => ?_,
              ht'.listeners.trans hlisteners, ht'.published.trans hpublished⟩
            · rw [ht'.drains, List.length_set, hlength]
            · by_cases hjk : j = k
              · subst hjk
                exact Option.some.inj (hp.symm.trans (ht'.get hplace))
              · rw [ht'.drains, get_set_ne hjk] at hp
                exact hreturned j (by omega) p hp
  -- one more drain takes the queue
  have hdrain : eventBus.step s .drain = some { s with drains := s.drains ++ [DrainAt.swap] } := rfl
  have hget : (s.drains ++ [DrainAt.swap])[s.drains.length]? = some .swap :=
    List.getElem?_concat_length
  let t : EventBus := { s with
    pending := []
    drains := (s.drains ++ [DrainAt.swap]).set s.drains.length (.next s.pending) }
  have hswap : eventBus.step { s with drains := s.drains ++ [DrainAt.swap] }
      (.advance s.drains.length) = some t :=
    Option.bind_eq_some_iff.mpr ⟨.swap, hget, rfl⟩
  obtain ⟨s', hleads, hempty, hlength, hreturned, hlisteners, hpublished⟩ :=
    hall t rfl t.drains.length
  refine ⟨s', .head _ hdrain (.head _ hswap hleads), ⟨hempty, fun place hplace => ?_⟩, hlisteners,
    hpublished⟩
  obtain ⟨j, hj⟩ := List.mem_iff_getElem?.mp hplace
  have hlt := (List.getElem?_eq_some_iff.mp hj).1
  exact hreturned j (by rwa [← hlength]) place hj

/-! ## Delivery -/

theorem calls_of_idle (h : Idle s) (d : Delivery) :
    calls s d = s.delivered.count d ∧ (waiting s).count d.event = 0 := by
  have hnothing : ∀ {α : Type} (f : DrainAt → List α), f .returned = [] →
      s.drains.flatMap f = [] := by
    intro α f hf
    apply List.flatMap_eq_nil_iff.mpr
    intro place hplace
    rw [h.2 place hplace, hf]
  constructor
  · rw [calls, owed, hnothing owedBy rfl, List.count_nil, Nat.add_zero]
  · rw [waiting, h.1, hnothing batchOf rfl, List.append_nil, List.count_nil]

/-- Every entry has been called exactly once with each event published on its
path since it was made. -/
def EachOnce (s : EventBus) : Prop :=
  ∀ path entries, s.listeners path = some entries → ∀ entry ∈ entries,
    ∀ i event, s.published[i]? = some event → event.configPath = some path → entry.since ≤ i →
    s.delivered.count ⟨entry.id, ⟨i, event⟩⟩ = 1

/-- The events of each path arrive at each listener in the order of publication. -/
def InOrder (s : EventBus) : Prop :=
  ∀ subscription path,
    (arrivals s subscription path).Pairwise fun d d' => d.event.id < d'.event.id

/-- **Delivery.**  In every run no listener is called twice with an event, and the
drains can come to an end.  When they have, every listener that has stayed
subscribed has been called with every event of its path, in every run that copies
the paths of the events.  The events arrive in order in every run whose drains
take the events of a path in turn. -/
theorem event_delivery :
    (eventBus.Reachable s → (∀ d, s.delivered.count d ≤ 1) ∧
      ∃ s', eventBus.Leads s s' ∧ Idle s' ∧ s'.listeners = s.listeners ∧
        s'.published = s.published) ∧
    (eventBus.ReachableMeeting NamesCopied s → Idle s → EachOnce s) ∧
    (eventBus.ReachableMeeting DrainsInTurn s → InOrder s) := by
  refine ⟨fun h => ⟨fun d => ?_, idle_ahead s⟩, fun h hidle => ?_, fun h => ?_⟩
  · have hone := (busSound_of_reachable h).one d
    unfold calls at hone
    omega
  · intro path entries hentries entry hentry i event hevent hpath hsince
    obtain ⟨hcalls, hwaiting⟩ := calls_of_idle hidle ⟨entry.id, ⟨i, event⟩⟩
    have hone := allCalled_of_reachable h path entries hentries entry hentry i event hevent
      hpath hsince
    rwa [hcalls, hwaiting] at hone
  · exact (orderSound_of_reachable h).sorted

/-- An event of the path `app` with this version. -/
def appEvent (version : UInt64) : ConfigEvent :=
  ⟨some (ascii "app"), .enterActive, .updating, .active, version⟩

def plainRun : List BusStep :=
  [.subscribe (ascii "app") 7 0, .publish (appEvent 1) {}, .publish (appEvent 2) {}, .drain] ++
    List.replicate 8 (.advance 0)

theorem event_delivery_plain :
    ∃ s, eventBus.run {} plainRun = some s ∧ s.delivered.length = 2 ∧ EachOnce s ∧ InOrder s := by
  obtain ⟨s, hrun⟩ : ∃ s, eventBus.run {} plainRun = some s := ⟨_, rfl⟩
  have hnames : eventBus.RunMeets NamesCopied {} plainRun :=
    Machine.RunMeets.of_forall (by simp [plainRun, NamesCopied])
  have hfree : ∀ q ∈ [QueuedEvent.mk 0 (appEvent 1), ⟨1, appEvent 2⟩], ∀ place ∈ [DrainAt.swap],
      ∀ q' ∈ held place, ¬SamePath q q' := by
    intro q _ place hplace q' hq'
    rw [List.mem_singleton.mp hplace] at hq'
    cases hq'
  have hturns : eventBus.RunMeets DrainsInTurn {} plainRun :=
    And.intro trivial (And.intro trivial (And.intro trivial (And.intro trivial
      (And.intro (fun _ => hfree) (And.intro (by intro h; cases h) (And.intro (by intro h; cases h)
        (And.intro (by intro h; cases h) (And.intro (by intro h; cases h)
          (And.intro (by intro h; cases h) (And.intro (by intro h; cases h)
            (And.intro (by intro h; cases h) trivial)))))))))))
  obtain ⟨-, honce, horder⟩ := event_delivery (s := s)
  have hidle : Idle s := by
    cases hrun
    refine ⟨rfl, fun place hplace => ?_⟩
    exact List.mem_singleton.mp hplace
  refine ⟨s, hrun, ?_, honce (Machine.ReachableMeeting.run (.init _ _) hnames hrun) hidle,
    horder (Machine.ReachableMeeting.run (.init _ _) hturns hrun)⟩
  cases hrun
  rfl

def nestedDrainRun : List BusStep :=
  [.subscribe (ascii "app") 7 0, .publish (appEvent 1) {}, .publish (appEvent 2) {}, .drain,
    .advance 0, .advance 0, .advance 0, .publish (appEvent 3) {}, .drain] ++
    List.replicate 5 (.advance 1) ++ List.replicate 5 (.advance 0)

def namelessRun : List BusStep :=
  [.subscribe (ascii "app") 7 0, .publish (appEvent 1) { path := false }, .drain] ++
    List.replicate 3 (.advance 0)

/-- The third event arrives before the second, and an event without its path does
not arrive. -/
theorem later_event_first :
    (∃ s, eventBus.Reachable s ∧ Idle s ∧ s.delivered.map (fun d => d.event.id) = [0, 2, 1] ∧
      ¬InOrder s) ∧
    ∃ s, eventBus.Reachable s ∧ Idle s ∧ s.published = [appEvent 1] ∧ ¬EachOnce s := by
  refine ⟨⟨_, Machine.reachable_of_run nestedDrainRun rfl, ?_, rfl, fun h => ?_⟩,
    ⟨_, Machine.reachable_of_run namelessRun rfl, ?_, rfl, fun h => ?_⟩⟩
  · exact ⟨rfl, by decide⟩
  · exact absurd (h 0 (ascii "app")) (by decide)
  · exact ⟨rfl, by decide⟩
  · have hcount := h (ascii "app") [⟨7, 0, 0, 0⟩] rfl ⟨7, 0, 0, 0⟩ List.mem_cons_self 0
      (appEvent 1) rfl rfl (Nat.le_refl 0)
    exact absurd hcount (by decide)

end BlessStar.State.Proofs.EventDelivery
