import Mathlib.Data.List.Nodup
import BlessStar.Lib.Places
import BlessStar.Runtime.KernelPool

/-!
# The slots of the kernel pool

The counters agree with the slot array, each job has its own slot, and each
slot that was created is in the array, destroyed once, or still to be destroyed
by one call.  A reset while jobs run breaks this: it drops the busy slots
without counting them down with their jobs, and nobody destroys them.
-/

namespace BlessStar.Runtime.Proofs.PoolSlots

open Lib.Transition Lib.Places BsKernelPool

def servedBy : CallAt → List Nat
  | .executing id => [id]
  | _ => []

def heldBy : CallAt → List Nat
  | .rollback ids _ => ids
  | .removing id _ => [id]
  | .sweep ids => ids
  | _ => []

def inFlight (s : BsKernelPool) : List Nat := s.calls.flatMap servedBy

def held (s : BsKernelPool) : List Nat := s.calls.flatMap heldBy

def isBusy (s : BsKernelPool) (id : Nat) : Bool := (s.slot id).busy

def isDynamic (s : BsKernelPool) (id : Nat) : Bool := (s.slot id).kind = .dynamic

structure PoolSound (c : BsKernelPoolConfig) (s : BsKernelPool) : Prop where
  draining : s.draining = false
  total : s.stats.totalSlots = s.slotCount
  room : s.slotCount ≤ c.maxInstances
  busy : s.stats.busySlots = s.slots.countP (isBusy s)
  dynamic : s.stats.dynamicSlots = s.slots.countP (isDynamic s)
  jobs : s.stats.submittedJobs =
    s.stats.completedJobs + s.stats.failedJobs + (inFlight s).length
  serving : ∀ id, (inFlight s).count id = if isBusy s id then 1 else 0
  owned : ∀ id, s.slots.count id + s.destroyed.count id + (held s).count id =
    if id < s.created then 1 else 0
  fresh : ∀ id, s.created ≤ id → isBusy s id = false

variable {c : BsKernelPoolConfig} {s s' : BsKernelPool} {call : Nat} {old new : CallAt}

theorem poolSound_init (config : BsKernelPoolConfig) :
    PoolSound config.normalized (kernelPool config).init where
  draining := rfl
  total := rfl
  room := Nat.zero_le _
  busy := rfl
  dynamic := rfl
  jobs := rfl
  serving _ := by simp [kernelPool, inFlight, isBusy]
  owned _ := by simp [kernelPool, held]
  fresh _ _ := rfl

theorem PoolSound.mark (h : PoolSound c s) (m : PoolMark) : PoolSound c (s.mark m) :=
  ⟨h.draining, h.total, h.room, h.busy, h.dynamic, h.jobs, h.serving, h.owned, h.fresh⟩

theorem PoolSound.begin (h : PoolSound c s) (hserved : servedBy new = []) (hheld : heldBy new = []) :
    PoolSound c (s.begin new) := by
  have hflight : inFlight (s.begin new) = inFlight s := by
    simp [inFlight, BsKernelPool.begin, hserved]
  have hkeep : held (s.begin new) = held s := by
    simp [held, BsKernelPool.begin, hheld]
  exact ⟨h.draining, h.total, h.room, h.busy, h.dynamic, by rw [hflight]; exact h.jobs,
    by rw [hflight]; exact h.serving, by rw [hkeep]; exact h.owned, h.fresh⟩

theorem PoolSound.goTo (h : PoolSound c s) (hcall : s.calls[call]? = some old)
    (hserved : servedBy new = servedBy old) (hheld : heldBy new = heldBy old) :
    PoolSound c (s.goTo call new) := by
  have hlen := length_flatMap_set hcall servedBy new
  rw [hserved, Nat.add_right_cancel_iff] at hlen
  refine ⟨h.draining, h.total, h.room, h.busy, h.dynamic, ?_, fun id => ?_, fun id => ?_, h.fresh⟩
  · show _ = _ + ((s.calls.set call new).flatMap servedBy).length
    rw [hlen]
    exact h.jobs
  · have hcount := count_flatMap_set hcall servedBy new id
    rw [hserved, Nat.add_right_cancel_iff] at hcount
    exact hcount.trans (h.serving id)
  · have hcount := count_flatMap_set hcall heldBy new id
    rw [hheld, Nat.add_right_cancel_iff] at hcount
    show _ + ((s.calls.set call new).flatMap heldBy).count id = _
    rw [hcount]
    exact h.owned id

theorem PoolSound.destroy (h : PoolSound c s) {id : Nat} (hcall : s.calls[call]? = some old)
    (hserved : servedBy new = servedBy old) (hheld : heldBy old = id :: heldBy new) :
    PoolSound c ((s.destroySlot id).goTo call new) := by
  have hlen := length_flatMap_set hcall servedBy new
  rw [hserved, Nat.add_right_cancel_iff] at hlen
  refine ⟨h.draining, h.total, h.room, h.busy, h.dynamic, ?_, fun x => ?_, fun x => ?_, h.fresh⟩
  · show _ = _ + ((s.calls.set call new).flatMap servedBy).length
    rw [hlen]
    exact h.jobs
  · have hcount := count_flatMap_set hcall servedBy new x
    rw [hserved, Nat.add_right_cancel_iff] at hcount
    exact hcount.trans (h.serving x)
  · have hcount := count_flatMap_set hcall heldBy new x
    rw [hheld, List.count_cons] at hcount
    have howned := h.owned x
    show s.slots.count x + (s.destroyed ++ [id]).count x +
      ((s.calls.set call new).flatMap heldBy).count x = if x < s.created then 1 else 0
    rw [List.count_append, List.count_singleton]
    rw [held] at howned
    omega

theorem count_singleton_created (h : PoolSound c s) : s.slots.count s.created = 0 := by
  have howned := h.owned s.created
  rw [if_neg (Nat.lt_irrefl _)] at howned
  omega

theorem isBusy_createSlot (kind : BsKernelPoolSlotKind) (n : Nat) (h : PoolSound c s) :
    isBusy (s.createSlot c kind n) = isBusy s := by
  funext id
  by_cases hid : id = s.created
  · subst hid
    rw [h.fresh s.created (Nat.le_refl _)]
    simp [isBusy, createSlot]
  · simp [isBusy, createSlot, hid]

theorem countP_isDynamic_createSlot (kind : BsKernelPoolSlotKind) (n : Nat) (h : PoolSound c s) :
    s.slots.countP (isDynamic (s.createSlot c kind n)) = s.slots.countP (isDynamic s) := by
  apply List.countP_congr
  intro id hid
  have hne : id ≠ s.created := by
    rintro rfl
    exact absurd (List.count_pos_iff.mpr hid) (by rw [count_singleton_created h]; omega)
  simp [isDynamic, createSlot, hne]

theorem ownership_created (id : Nat) :
    (if id < s.created + 1 then 1 else 0) =
      (if id < s.created then 1 else 0) + (if s.created == id then 1 else 0) := by
  by_cases heq : s.created = id
  · subst heq
    simp
  · have hbeq : (s.created == id) = false := by simpa using heq
    simp only [hbeq, Bool.false_eq_true, if_false]
    split_ifs <;> omega

theorem PoolSound.append (h : PoolSound c s) (kind : BsKernelPoolSlotKind) (n : Nat)
    (hroom : s.slotCount < c.maxInstances) :
    PoolSound c (s.createSlot c kind n).appendSlot := by
  have hbusy := isBusy_createSlot kind n h
  have hdyn := countP_isDynamic_createSlot kind n h
  have hkind : ((s.createSlot c kind n).slot s.created).kind = kind := by simp [createSlot]
  have hlast : (s.createSlot c kind n).created - 1 = s.created := rfl
  have hslots : (s.createSlot c kind n).appendSlot.slots = s.slots ++ [s.created] := rfl
  refine ⟨h.draining, ?_, ?_, ?_, ?_, h.jobs, fun id => ?_, fun id => ?_, fun id hid => ?_⟩
  · rw [slotCount, hslots, List.length_append]
    rfl
  · rw [slotCount, hslots, List.length_append]
    exact hroom
  · show s.stats.busySlots = (s.slots ++ [s.created]).countP (isBusy (s.createSlot c kind n))
    rw [hbusy, List.countP_append, List.countP_singleton, h.fresh s.created (Nat.le_refl _), ← h.busy]
    rfl
  · show (if ((s.createSlot c kind n).slot s.created).kind = .dynamic then s.stats.dynamicSlots + 1
        else s.stats.dynamicSlots) =
      (s.slots ++ [s.created]).countP (isDynamic (s.createSlot c kind n))
    rw [List.countP_append, hdyn, ← h.dynamic, List.countP_singleton, isDynamic, hkind]
    cases kind <;> rfl
  · show (inFlight s).count id = if isBusy (s.createSlot c kind n) id then 1 else 0
    rw [hbusy]
    exact h.serving id
  · show (s.slots ++ [s.created]).count id + s.destroyed.count id + (held s).count id =
      if id < s.created + 1 then 1 else 0
    rw [List.count_append, List.count_singleton, ownership_created, ← h.owned id]
    omega
  · show isBusy (s.createSlot c kind n) id = false
    rw [hbusy]
    exact h.fresh id (Nat.le_of_succ_le hid)

theorem PoolSound.discard (h : PoolSound c s) (kind : BsKernelPoolSlotKind) (n : Nat) :
    PoolSound c ((s.createSlot c kind n).destroySlot s.created) := by
  have hbusy := isBusy_createSlot kind n h
  refine ⟨h.draining, h.total, h.room, ?_, ?_, h.jobs, fun id => ?_, fun id => ?_, fun id hid => ?_⟩
  · show _ = s.slots.countP (isBusy (s.createSlot c kind n))
    rw [hbusy]
    exact h.busy
  · exact h.dynamic.trans (countP_isDynamic_createSlot kind n h).symm
  · show (inFlight s).count id = if isBusy (s.createSlot c kind n) id then 1 else 0
    rw [hbusy]
    exact h.serving id
  · show s.slots.count id + (s.destroyed ++ [s.created]).count id + (held s).count id =
      if id < s.created + 1 then 1 else 0
    rw [List.count_append, List.count_singleton, ownership_created, ← h.owned id]
    omega
  · show isBusy (s.createSlot c kind n) id = false
    rw [hbusy]
    exact h.fresh id (Nat.le_of_succ_le hid)

structure Added (s s' : BsKernelPool) (added : Bool) : Prop where
  calls : s'.calls = s.calls
  count : s'.slotCount = if added then s.slotCount + 1 else s.slotCount

theorem addSlot_spec (h : PoolSound c s) (hroom : s.slotCount < c.maxInstances)
    (kind : BsKernelPoolSlotKind) (n : Nat) (alloc : SlotAlloc) :
    PoolSound c (s.addSlot c kind n alloc).2 ∧
      Added s (s.addSlot c kind n alloc).2 (s.addSlot c kind n alloc).1 := by
  have happend : Added s (s.createSlot c kind n).appendSlot true :=
    ⟨rfl, List.length_append⟩
  unfold addSlot
  split
  · exact ⟨h, rfl, rfl⟩
  · split
    · exact ⟨h.append kind n hroom, happend⟩
    · exact ⟨h.discard kind n, rfl, rfl⟩
  · exact ⟨h.append kind n hroom, happend⟩

theorem addSlot_last (h : PoolSound c s) {kind : BsKernelPoolSlotKind} {n : Nat}
    {alloc : SlotAlloc} (hadd : s.addSlot c kind n alloc = (true, s')) :
    ∃ id, s'.slots[s'.slotCount - 1]? = some id ∧ isBusy s' id = false := by
  have hlast : ∃ id, (s.createSlot c kind n).appendSlot.slots[
      (s.createSlot c kind n).appendSlot.slotCount - 1]? = some id ∧
      isBusy (s.createSlot c kind n).appendSlot id = false := by
    refine ⟨s.created, ?_, ?_⟩
    · have hslots : (s.createSlot c kind n).appendSlot.slots = s.slots ++ [s.created] := rfl
      rw [slotCount, hslots, List.length_append, List.length_singleton, Nat.add_sub_cancel,
        List.getElem?_concat_length]
    · show isBusy (s.createSlot c kind n) s.created = false
      rw [isBusy_createSlot kind n h]
      exact h.fresh _ (Nat.le_refl _)
  unfold addSlot at hadd
  split at hadd
  · cases hadd
  · split at hadd
    · cases hadd
      exact hlast
    · cases hadd
  · cases hadd
    exact hlast

def AllIdleSteady (s : BsKernelPool) : Prop :=
  ∀ id ∈ s.slots, isBusy s id = false ∧ isDynamic s id = false

theorem AllIdleSteady.addSlot (h : PoolSound c s) (hall : AllIdleSteady s) (n : Nat)
    (alloc : SlotAlloc) : AllIdleSteady (s.addSlot c .steady n alloc).2 := by
  have hcreated : ∀ id, isBusy (s.createSlot c .steady n) id = isBusy s id := fun id => by
    rw [isBusy_createSlot .steady n h]
  have hkept : ∀ id ∈ s.slots, isDynamic (s.createSlot c .steady n) id = isDynamic s id := by
    intro id hid
    have hne : id ≠ s.created := by
      rintro rfl
      exact absurd (List.count_pos_iff.mpr hid) (by rw [count_singleton_created h]; omega)
    simp [isDynamic, createSlot, hne]
  have hold : ∀ id ∈ s.slots, isBusy (s.createSlot c .steady n) id = false ∧
      isDynamic (s.createSlot c .steady n) id = false := by
    intro id hid
    rw [hcreated, hkept id hid]
    exact hall id hid
  have happend : AllIdleSteady (s.createSlot c .steady n).appendSlot := by
    intro id hid
    rcases List.mem_append.mp hid with hid | hid
    · exact hold id hid
    · rw [List.mem_singleton] at hid
      have hid' : id = s.created := hid
      subst hid'
      refine ⟨(hcreated s.created).trans (h.fresh _ (Nat.le_refl _)), ?_⟩
      show isDynamic (s.createSlot c .steady n) s.created = false
      simp [isDynamic, createSlot]
  unfold BsKernelPool.addSlot
  split
  · exact hall
  · split
    · exact happend
    · exact hold
  · exact happend

inductive Warmed (c : BsKernelPoolConfig) :
    Option (List Nat) × PoolCode × BsKernelPool → Prop
  | kept {rc : PoolCode} {s : BsKernelPool} : PoolSound c s → Warmed c (none, rc, s)
  | rolledBack {s : BsKernelPool} : PoolSound c s → AllIdleSteady s →
      Warmed c (some s.slots, .noMem, { s with
        slots := [], slotCapacity := 0, stats := { s.stats with totalSlots := 0 } })

theorem warmupLoop_spec (alloc : Nat → SlotAlloc) (n : Nat) (h : PoolSound c s)
    (hn : s.slotCount + n ≤ c.maxInstances)
    (hall : (∃ k, s.slotCount ≤ k ∧ k < s.slotCount + n ∧ alloc k = .noSlot) → AllIdleSteady s) :
    Warmed c (warmupLoop c alloc n s) ∧ (warmupLoop c alloc n s).2.2.calls = s.calls := by
  induction n generalizing s with
  | zero => exact ⟨.kept h, rfl⟩
  | succ n ih =>
      have hadd := addSlot_spec h (by omega) .steady 0 (alloc s.slotCount)
      rw [warmupLoop]
      split
      · next hno =>
          exact ⟨.rolledBack h (hall ⟨s.slotCount, Nat.le_refl _, by omega, hno⟩), rfl⟩
      · split
        · next s' heq =>
            rw [heq] at hadd
            dsimp only at hadd
            have hcount : s'.slotCount = s.slotCount + 1 := hadd.2.count
            have hnext := ih hadd.1 (by omega) fun ⟨k, hk, hlt, hno⟩ => by
              have hidle := AllIdleSteady.addSlot h (hall ⟨k, by omega, by omega, hno⟩) 0
                (alloc s.slotCount)
              rwa [heq] at hidle
            exact ⟨hnext.1, hnext.2.trans hadd.2.calls⟩
        · next s' heq =>
            rw [heq] at hadd
            exact ⟨.kept hadd.1, hadd.2.calls⟩

theorem PoolSound.rollback (h : PoolSound c s) (hall : AllIdleSteady s) (rc : PoolCode)
    {submit : Bool} (hcall : s.calls[call]? = some (.warmup submit)) :
    PoolSound c ({ s with
      slots := [], slotCapacity := 0, stats := { s.stats with totalSlots := 0 } }.goTo call
        (.rollback s.slots rc)) := by
  have hbusy : s.slots.countP (isBusy s) = 0 :=
    List.countP_eq_zero.mpr fun id hid => by simp [(hall id hid).1]
  have hdyn : s.slots.countP (isDynamic s) = 0 :=
    List.countP_eq_zero.mpr fun id hid => by simp [(hall id hid).2]
  refine ⟨h.draining, rfl, Nat.zero_le _, h.busy.trans hbusy, h.dynamic.trans hdyn, ?_,
    fun id => ?_, fun id => ?_, h.fresh⟩
  · have hlen := length_flatMap_set hcall servedBy (.rollback s.slots rc)
    show _ = _ + ((s.calls.set call (.rollback s.slots rc)).flatMap servedBy).length
    rw [Nat.add_right_cancel hlen]
    exact h.jobs
  · have hcount := count_flatMap_set hcall servedBy (.rollback s.slots rc) id
    exact (Nat.add_right_cancel hcount).trans (h.serving id)
  · have hcount := count_flatMap_set hcall heldBy (.rollback s.slots rc) id
    have howned := h.owned id
    show [].count id + s.destroyed.count id +
      ((s.calls.set call (.rollback s.slots rc)).flatMap heldBy).count id =
        if id < s.created then 1 else 0
    simp only [heldBy, List.count_nil] at hcount ⊢
    rw [held] at howned
    omega

theorem PoolSound.warmup (h : PoolSound c s) (hsteady : c.steadyCount ≤ c.maxInstances)
    {submit : Bool} (hcall : s.calls[call]? = some (.warmup submit)) (alloc : Nat → SlotAlloc)
    (hall : (∃ k, s.slotCount ≤ k ∧ k < c.steadyCount ∧ alloc k = .noSlot) → AllIdleSteady s) :
    PoolSound c (s.warmup c call submit alloc) := by
  have hroom := h.room
  obtain ⟨hwarm, hcalls⟩ := warmupLoop_spec alloc (c.steadyCount - s.slotCount) h (by omega)
    fun ⟨k, hk, hlt, hno⟩ => hall ⟨k, hk, by omega, hno⟩
  rw [BsKernelPool.warmup, h.draining]
  simp only [Bool.false_eq_true, if_false]
  cases hr : warmupLoop c alloc (c.steadyCount - s.slotCount) s with
  | mk slots r =>
      obtain ⟨rc, s'⟩ := r
      rw [hr] at hwarm hcalls
      have hcall' : s'.calls[call]? = some (.warmup submit) := by
        rw [← hcall, ← hcalls]
      cases hwarm with
      | kept hs' =>
          cases rc <;> cases submit <;> exact hs'.goTo hcall' rfl rfl
      | rolledBack hs' hidle =>
          cases submit <;> exact hs'.rollback hidle _ hcall'

theorem selectLoop_spec (ids : List Nat) (i : Nat) (selected : Option (Nat × Nat))
    (hsel : ∀ j p, selected = some (j, p) →
      ∃ id, (s.slots)[j]? = some id ∧ isBusy s id = false)
    (hids : ∀ k, (ids)[k]? = s.slots[i + k]?) {index priority : Nat}
    (h : s.selectLoop ids i selected = some (index, priority)) :
    ∃ id, s.slots[index]? = some id ∧ isBusy s id = false := by
  induction ids generalizing i selected with
  | nil => exact hsel index priority h
  | cons id ids ih =>
      have hhere : s.slots[i]? = some id := by
        have h0 := hids 0
        rw [Nat.add_zero] at h0
        rw [← h0]
        rfl
      have hrest : ∀ k, ids[k]? = s.slots[i + 1 + k]? := by
        intro k
        have hk := hids (k + 1)
        rw [List.getElem?_cons_succ] at hk
        rw [hk, Nat.add_assoc, Nat.add_comm 1 k]
      simp only [selectLoop] at h
      by_cases hbusy : (s.slot id).busy = true
      · rw [if_pos hbusy] at h
        exact ih _ _ hsel hrest h
      · have hidle : isBusy s id = false := by simpa [isBusy] using hbusy
        have hnew : ∀ q j p, (some (i, q) : Option (Nat × Nat)) = some (j, p) →
            ∃ id, s.slots[j]? = some id ∧ isBusy s id = false := by
          intro q j p heq
          cases heq
          exact ⟨id, hhere, hidle⟩
        rw [if_neg hbusy] at h
        cases selected with
        | none => exact ih _ _ (hnew _) hrest h
        | some jp =>
            obtain ⟨j, p⟩ := jp
            dsimp only at h
            split_ifs at h
            · exact ih _ _ (hnew _) hrest h
            · exact ih _ _ hsel hrest h

theorem selectIdleSlot_spec {index : Nat} (h : s.selectIdleSlot = some index) :
    ∃ id, s.slots[index]? = some id ∧ isBusy s id = false := by
  obtain ⟨⟨i, p⟩, hloop, rfl⟩ := Option.map_eq_some_iff.mp h
  refine selectLoop_spec s.slots 0 none (fun _ _ h => by cases h) (fun k => ?_) hloop
  rw [Nat.zero_add]

theorem PoolSound.take (h : PoolSound c s) {index : Nat} {hasTicket : Bool}
    (hcall : s.calls[call]? = some old) (hserved : servedBy old = []) (hheld : heldBy old = [])
    {id : Nat} (hid : s.slots[index]? = some id) (hidle : isBusy s id = false)
    (htake : s.take call index hasTicket = some s') : PoolSound c s' := by
  rw [BsKernelPool.take, hid, Option.map_some, Option.some.injEq] at htake
  subst htake
  have hmem : id ∈ s.slots := List.mem_of_getElem? hid
  have hone : s.slots.count id = 1 := by
    have howned := h.owned id
    have hpos := List.count_pos_iff.mpr hmem
    split_ifs at howned <;> omega
  have hlen := length_flatMap_set hcall servedBy (.executing id)
  rw [hserved] at hlen
  refine ⟨h.draining, h.total, h.room, ?_, ?_, ?_, fun x => ?_, fun x => ?_, fun x hx => ?_⟩
  · have hupd := countP_update BsKernelPoolSlot.busy s.slot id
      ((s.slot id).setBusy true) s.slots
    have hb : (s.slot id).busy = false := hidle
    rw [hone, hb, BsKernelPoolSlot.setBusy_busy] at hupd
    show s.stats.busySlots + 1 = s.slots.countP fun x =>
      (Function.update s.slot id ((s.slot id).setBusy true) x).busy
    have hold : s.stats.busySlots = s.slots.countP fun x => (s.slot x).busy := h.busy
    simp only [if_true, Bool.false_eq_true, if_false] at hupd
    omega
  · have hupd := countP_update (fun v : BsKernelPoolSlot => decide (v.kind = .dynamic)) s.slot id
      ((s.slot id).setBusy true) s.slots
    have hold : s.stats.dynamicSlots =
        s.slots.countP fun x => decide ((s.slot x).kind = .dynamic) := h.dynamic
    show s.stats.dynamicSlots = s.slots.countP fun x =>
      decide ((Function.update s.slot id ((s.slot id).setBusy true) x).kind = .dynamic)
    rw [BsKernelPoolSlot.setBusy_kind] at hupd
    omega
  · show s.stats.submittedJobs + 1 = s.stats.completedJobs + s.stats.failedJobs +
      ((s.calls.set call (.executing id)).flatMap servedBy).length
    have hjobs := h.jobs
    rw [inFlight] at hjobs
    simp only [servedBy, List.length_nil, List.length_singleton] at hlen
    omega
  · have hcount := count_flatMap_set hcall servedBy (.executing id) x
    have hserving := h.serving x
    rw [hserved] at hcount
    simp only [servedBy, List.count_nil, List.count_singleton] at hcount
    show ((s.calls.set call (.executing id)).flatMap servedBy).count x =
      if (Function.update s.slot id ((s.slot id).setBusy true) x).busy then 1 else 0
    rw [inFlight] at hserving
    by_cases hx : x = id
    · subst hx
      rw [hidle] at hserving
      simp only [BEq.rfl, if_true, Bool.false_eq_true, if_false, Function.update_self,
        BsKernelPoolSlot.setBusy_busy] at hcount hserving ⊢
      omega
    · have hbeq : (id == x) = false := by simpa using Ne.symm hx
      simp only [hbeq, Bool.false_eq_true, if_false] at hcount
      rw [Function.update_of_ne hx]
      exact hcount.trans hserving
  · have hcount := count_flatMap_set hcall heldBy (.executing id) x
    rw [hheld] at hcount
    simp only [heldBy, List.count_nil, Nat.add_zero] at hcount
    show _ + ((s.calls.set call (.executing id)).flatMap heldBy).count x = _
    rw [hcount]
    exact h.owned x
  · have hne : x ≠ id := by
      rintro rfl
      have howned := h.owned x
      rw [if_neg (Nat.not_lt.mpr hx)] at howned
      omega
    show (Function.update s.slot id ((s.slot id).setBusy true) x).busy = false
    rw [Function.update_of_ne hne]
    exact h.fresh x hx

def EndsOnTime (s : BsKernelPool) (id : Nat) : Prop :=
  id ∈ s.slots ∨ ∀ x ∈ s.slots, isBusy s x = false

theorem PoolSound.release (h : PoolSound c s) {id : Nat}
    (hcall : s.calls[call]? = some (.executing id)) (hend : EndsOnTime s id) (report : Bool) :
    PoolSound c ((s.release id report).goTo call
      (.returned (if report then .ok else .execFailed))) := by
  have hbusy : (s.slot id).busy = true := by
    have hserving := h.serving id
    have hpos := List.count_pos_iff.mpr (mem_flatMap_of_get (f := servedBy) hcall
      List.mem_cons_self)
    rw [inFlight] at hserving
    split_ifs at hserving with hb
    · exact hb
    · omega
  have hlen := length_flatMap_set hcall servedBy
    (.returned (if report then .ok else .execFailed))
  refine ⟨h.draining, h.total, h.room, ?_, ?_, ?_, fun x => ?_, fun x => ?_, fun x hx => ?_⟩
  · have hupd := countP_update BsKernelPoolSlot.busy s.slot id ((s.slot id).setBusy false) s.slots
    have hold : s.stats.busySlots = s.slots.countP fun x => (s.slot x).busy := h.busy
    show s.stats.busySlots - 1 = s.slots.countP fun x =>
      (Function.update s.slot id ((s.slot id).setBusy false) x).busy
    rw [hbusy, BsKernelPoolSlot.setBusy_busy] at hupd
    simp only [if_true, Bool.false_eq_true, if_false, Nat.mul_one, Nat.mul_zero] at hupd
    have howned := h.owned id
    rcases hend with hmem | hidle
    · have hpos := List.count_pos_iff.mpr hmem
      split_ifs at howned <;> omega
    · have hzero : s.slots.countP (fun x => (s.slot x).busy) = 0 :=
        List.countP_eq_zero.mpr fun x hx => by simpa [isBusy] using hidle x hx
      omega
  · have hupd := countP_update (fun v : BsKernelPoolSlot => decide (v.kind = .dynamic)) s.slot id
      ((s.slot id).setBusy false) s.slots
    have hold : s.stats.dynamicSlots =
        s.slots.countP fun x => decide ((s.slot x).kind = .dynamic) := h.dynamic
    show s.stats.dynamicSlots = s.slots.countP fun x =>
      decide ((Function.update s.slot id ((s.slot id).setBusy false) x).kind = .dynamic)
    rw [BsKernelPoolSlot.setBusy_kind] at hupd
    omega
  · have hjobs := h.jobs
    show s.stats.submittedJobs =
      (if report then s.stats.completedJobs + 1 else s.stats.completedJobs) +
        (if report then s.stats.failedJobs else s.stats.failedJobs + 1) +
        ((s.calls.set call (.returned (if report then .ok else .execFailed))).flatMap
          servedBy).length
    rw [inFlight] at hjobs
    simp only [servedBy, List.length_nil, List.length_singleton] at hlen
    cases report
    · simp only [Bool.false_eq_true, if_false] at hlen ⊢
      omega
    · simp only [if_true] at hlen ⊢
      omega
  · have hcount := count_flatMap_set hcall servedBy
      (.returned (if report then .ok else .execFailed)) x
    have hserving := h.serving x
    simp only [servedBy, List.count_nil, List.count_singleton] at hcount
    show ((s.calls.set call (.returned (if report then .ok else .execFailed))).flatMap
        servedBy).count x =
      if (Function.update s.slot id ((s.slot id).setBusy false) x).busy then 1 else 0
    rw [inFlight] at hserving
    by_cases hx : x = id
    · subst hx
      rw [isBusy, hbusy] at hserving
      simp only [BEq.rfl, if_true, Bool.false_eq_true, if_false, Function.update_self,
        BsKernelPoolSlot.setBusy_busy] at hcount hserving ⊢
      omega
    · have hbeq : (id == x) = false := by simpa using Ne.symm hx
      simp only [hbeq, Bool.false_eq_true, if_false] at hcount
      rw [Function.update_of_ne hx]
      exact hcount.trans hserving
  · have hcount := count_flatMap_set hcall heldBy
      (.returned (if report then .ok else .execFailed)) x
    simp only [heldBy, List.count_nil, Nat.add_zero] at hcount
    show _ + ((s.calls.set call _).flatMap heldBy).count x = _
    rw [hcount]
    exact h.owned x
  · show (Function.update s.slot id ((s.slot id).setBusy false) x).busy = false
    by_cases hne : x = id
    · rw [hne, Function.update_self, BsKernelPoolSlot.setBusy_busy]
    · rw [Function.update_of_ne hne]
      exact h.fresh x hx

theorem PoolSound.removeSlot (h : PoolSound c s) {id : Nat} {rc : PoolCode}
    (hcall : s.calls[call]? = some (.returned rc)) (hmem : id ∈ s.slots)
    (hidle : isBusy s id = false) (hdyn : (s.slot id).kind = .dynamic) :
    PoolSound c ((s.removeSlot id).goTo call (.removing id rc)) := by
  have hroom := h.room
  have hlength := List.length_erase_of_mem hmem
  rw [slotCount] at hroom
  refine ⟨h.draining, ?_, ?_, ?_, ?_, ?_, fun x => ?_, fun x => ?_, h.fresh⟩
  · show s.slotCount - 1 = (s.slots.erase id).length
    rw [hlength]
    rfl
  · show (s.slots.erase id).length ≤ c.maxInstances
    omega
  · show s.stats.busySlots = (s.slots.erase id).countP (isBusy s)
    rw [List.countP_erase, hidle, h.busy]
    simp
  · show (if (s.slot id).kind = .dynamic then s.stats.dynamicSlots - 1
      else s.stats.dynamicSlots) = (s.slots.erase id).countP (isDynamic s)
    rw [if_pos hdyn, List.countP_erase, h.dynamic]
    simp [hmem, isDynamic, hdyn]
  · have hlen := length_flatMap_set hcall servedBy (.removing id rc)
    show _ = _ + ((s.calls.set call (.removing id rc)).flatMap servedBy).length
    rw [Nat.add_right_cancel hlen]
    exact h.jobs
  · have hcount := count_flatMap_set hcall servedBy (.removing id rc) x
    exact (Nat.add_right_cancel hcount).trans (h.serving x)
  · have hcount := count_flatMap_set hcall heldBy (.removing id rc) x
    have howned := h.owned x
    show (s.slots.erase id).count x + s.destroyed.count x +
      ((s.calls.set call (.removing id rc)).flatMap heldBy).count x = if x < s.created then 1 else 0
    simp only [heldBy, List.count_nil, List.count_singleton] at hcount
    rw [held] at howned
    rw [List.count_erase]
    by_cases hx : id = x
    · subst hx
      have hpos := List.count_pos_iff.mpr hmem
      simp only [BEq.rfl, if_true] at hcount ⊢
      omega
    · have hbeq : (id == x) = false := by simpa using hx
      simp only [hbeq, Bool.false_eq_true, if_false] at hcount ⊢
      omega

theorem removeSlot_goTo (s : BsKernelPool) (call id : Nat) (place place' : CallAt) :
    ((s.goTo call place).removeSlot id).goTo call place' = (s.removeSlot id).goTo call place' := by
  have hset : (s.calls.set call place).set call place' = s.calls.set call place' :=
    List.set_set ..
  unfold BsKernelPool.removeSlot BsKernelPool.goTo
  exact congrArg (fun calls => { s.removeSlot id with calls := calls }) hset

theorem PoolSound.finish (h : PoolSound c s) {id : Nat}
    (hcall : s.calls[call]? = some (.executing id)) (hend : EndsOnTime s id) (report : Bool) :
    PoolSound c (s.finish c call id report) := by
  have hrel := h.release hcall hend report
  rw [BsKernelPool.finish]
  by_cases hcond : (s.slot id).kind = .dynamic ∧ s.waiters = 0 ∧ c.steadyCount < s.slotCount ∧
      id ∈ s.slots
  · rw [if_pos hcond]
    have hcall' : ((s.release id report).goTo call
        (.returned (if report then .ok else .execFailed))).calls[call]? =
          some (.returned (if report then .ok else .execFailed)) := get_set_self hcall _
    have hremove := hrel.removeSlot hcall' hcond.2.2.2
      (by simp [isBusy, BsKernelPool.goTo, BsKernelPool.release])
      (by simpa [BsKernelPool.goTo, BsKernelPool.release] using hcond.1)
    rwa [removeSlot_goTo] at hremove
  · rw [if_neg hcond]
    exact hrel

theorem PoolSound.reset (h : PoolSound c s) (hcall : s.calls[call]? = some .reset) :
    PoolSound c (s.reset call) := by
  refine ⟨rfl, rfl, Nat.zero_le _, rfl, rfl, ?_, fun id => ?_, fun id => ?_, h.fresh⟩
  · have hlen := length_flatMap_set hcall servedBy (.sweep s.slots)
    show _ = _ + ((s.calls.set call (.sweep s.slots)).flatMap servedBy).length
    rw [Nat.add_right_cancel hlen]
    exact h.jobs
  · have hcount := count_flatMap_set hcall servedBy (.sweep s.slots) id
    exact (Nat.add_right_cancel hcount).trans (h.serving id)
  · have hcount := count_flatMap_set hcall heldBy (.sweep s.slots) id
    have howned := h.owned id
    show [].count id + s.destroyed.count id +
      ((s.calls.set call (.sweep s.slots)).flatMap heldBy).count id =
        if id < s.created then 1 else 0
    simp only [heldBy, List.count_nil] at hcount ⊢
    rw [held] at howned
    omega

/-- The steps that keep the accounting: a job on a slot that a reset has
dropped ends only while no slot of the array is busy, the sweep after a reset
comes to a slot only when its job is over, and a warmup that rolls back takes
out only idle steady slots. -/
def KeepsAccounts (c : BsKernelPoolConfig) (s : BsKernelPool) : PoolEvent → Prop
  | .finish call _ => ∀ id, s.calls[call]? = some (.executing id) → EndsOnTime s id
  | .sweep call => ∀ id ids, s.calls[call]? = some (.sweep (id :: ids)) → isBusy s id = false
  | .warmup _ alloc =>
      (∃ k, s.slotCount ≤ k ∧ k < c.steadyCount ∧ alloc k = .noSlot) → AllIdleSteady s
  | _ => True

theorem PoolSound.enter (h : PoolSound c s) (hcall : s.calls[call]? = some .submit)
    (alloc : SlotAlloc) (hstep : s.enter c call alloc = some s') : PoolSound c s' := by
  have hm := h.mark (.arrived call)
  rw [BsKernelPool.enter, h.draining] at hstep
  simp only [Bool.false_eq_true, if_false] at hstep
  split at hstep
  · next index hselect =>
      obtain ⟨id, hid, hidle⟩ := selectIdleSlot_spec hselect
      exact hm.take hcall rfl rfl hid hidle hstep
  · split at hstep
    · next hroom =>
        have hadd := addSlot_spec hm hroom .dynamic s.stats.dynamicSlots alloc
        split at hstep
        · next s₁ heq =>
            have heq' : (s.mark (.arrived call)).addSlot c .dynamic s.stats.dynamicSlots alloc =
                (true, s₁) := heq
            rw [heq'] at hadd
            obtain ⟨id, hid, hidle⟩ := addSlot_last hm heq'
            exact hadd.1.take (by rw [hadd.2.calls]; exact hcall) rfl rfl hid hidle hstep
        · next s₁ heq =>
            have heq' : (s.mark (.arrived call)).addSlot c .dynamic s.stats.dynamicSlots alloc =
                (false, s₁) := heq
            rw [heq'] at hadd
            cases hstep
            have hcall' : s₁.calls[call]? = some .submit := by
              rw [hadd.2.calls]
              exact hcall
            exact hadd.1.goTo hcall' rfl rfl
    · cases hstep
      have hwait : PoolSound c ((s.mark (.arrived call)).goTo call (.waiting s.nextTicket)) :=
        hm.goTo hcall rfl rfl
      exact ⟨hwait.draining, hwait.total, hwait.room, hwait.busy, hwait.dynamic, hwait.jobs,
        hwait.serving, hwait.owned, hwait.fresh⟩

theorem PoolSound.wake (h : PoolSound c s) {ticket : Nat}
    (hcall : s.calls[call]? = some (.waiting ticket)) (hstep : s.wake call ticket = some s') :
    PoolSound c s' := by
  rw [BsKernelPool.wake, h.draining] at hstep
  simp only [Bool.false_eq_true, if_false] at hstep
  split at hstep
  · next index hselect =>
      obtain ⟨id, hid, hidle⟩ := selectIdleSlot_spec hselect
      split at hstep
      · exact h.take hcall rfl rfl hid hidle hstep
      · cases hstep
        exact h
  · cases hstep
    exact h

/-- **One step.** -/
theorem PoolSound.step (h : PoolSound c s) (hsteady : c.steadyCount ≤ c.maxInstances)
    {e : PoolEvent} (hkeeps : KeepsAccounts c s e) (hstep : s.step c e = some s') :
    PoolSound c s' := by
  cases e with
  | callSubmit =>
      cases hstep
      exact h.begin rfl rfl
  | callWarmup =>
      cases hstep
      exact h.begin rfl rfl
  | callReset =>
      cases hstep
      exact h.begin rfl rfl
  | warmup call alloc =>
      simp only [BsKernelPool.step] at hstep
      split at hstep
      · next submit hcall =>
          cases hstep
          exact h.warmup hsteady hcall alloc hkeeps
      · cases hstep
  | rollback call =>
      simp only [BsKernelPool.step] at hstep
      split at hstep
      · next hcall =>
          cases hstep
          exact h.destroy hcall rfl rfl
      · next hcall =>
          cases hstep
          exact h.goTo hcall rfl rfl
      · cases hstep
  | enter call alloc =>
      simp only [BsKernelPool.step] at hstep
      split at hstep
      · next hcall => exact h.enter hcall alloc hstep
      · cases hstep
  | wake call =>
      simp only [BsKernelPool.step] at hstep
      split at hstep
      · next hcall => exact h.wake hcall hstep
      · cases hstep
  | finish call report =>
      simp only [BsKernelPool.step] at hstep
      split at hstep
      · next id hcall =>
          cases hstep
          exact h.finish hcall (hkeeps id hcall) report
      · cases hstep
  | remove call =>
      simp only [BsKernelPool.step] at hstep
      split at hstep
      · next hcall =>
          cases hstep
          exact h.destroy hcall rfl rfl
      · cases hstep
  | reset call =>
      simp only [BsKernelPool.step] at hstep
      split at hstep
      · next hcall =>
          cases hstep
          exact h.reset hcall
      · cases hstep
  | sweep call =>
      simp only [BsKernelPool.step] at hstep
      split at hstep
      · next id ids hcall =>
          have hidle : (s.slot id).busy = false := hkeeps id ids hcall
          simp only [hidle, Bool.false_eq_true, if_false] at hstep
          cases hstep
          exact h.destroy hcall rfl rfl
      · next hcall =>
          cases hstep
          exact h.goTo hcall rfl rfl
      · cases hstep

/-- What the counters and the slots of a pool say at any time. -/
structure Accounted (c : BsKernelPoolConfig) (s : BsKernelPool) : Prop where
  busy : s.stats.busySlots = s.slots.countP (isBusy s)
  total : s.stats.totalSlots = s.slotCount
  room : s.slotCount ≤ c.maxInstances
  dynamic : s.stats.dynamicSlots = s.slots.countP (isDynamic s)
  jobs : s.stats.submittedJobs =
    s.stats.completedJobs + s.stats.failedJobs + (inFlight s).length
  oneJob : (inFlight s).Nodup
  ledger : (∀ place ∈ s.calls, ∃ rc, place = .returned rc) → ∀ id < s.created,
    (id ∈ s.slots ∧ id ∉ s.destroyed) ∨ (id ∉ s.slots ∧ s.destroyed.count id = 1)

theorem PoolSound.accounted (h : PoolSound c s) : Accounted c s := by
  refine ⟨h.busy, h.total, h.room, h.dynamic, h.jobs, ?_, fun hidle id hid => ?_⟩
  · rw [List.nodup_iff_count_le_one]
    intro id
    rw [h.serving id]
    split_ifs <;> omega
  · have hheld : held s = [] := by
      rw [held, List.flatMap_eq_nil_iff]
      intro place hplace
      obtain ⟨rc, rfl⟩ := hidle place hplace
      rfl
    have howned := h.owned id
    rw [hheld, if_pos hid, List.count_nil] at howned
    by_cases hmem : id ∈ s.slots
    · have hpos := List.count_pos_iff.mpr hmem
      exact Or.inl ⟨hmem, List.count_eq_zero.mp (by omega)⟩
    · have hzero := List.count_eq_zero.mpr hmem
      exact Or.inr ⟨hmem, by omega⟩

/-- **The accounting of the pool.**  In every run whose steps keep the accounts
the counters and the slots agree in every state. -/
theorem pool_accounting (config : BsKernelPoolConfig) {s : BsKernelPool}
    (h : (kernelPool config).ReachableMeeting (KeepsAccounts config.normalized) s) :
    Accounted config.normalized s := by
  have hsound : PoolSound config.normalized s :=
    h.invariant (poolSound_init config) fun _ _ _ hs hkeeps hstep =>
      hs.step config.steady_le_max hkeeps hstep
  exact hsound.accounted

def oneSlot : BsKernelPoolConfig := { steadyCount := 1 }

/-- A submit is running its job. -/
theorem pool_accounting_one_job :
    ∃ s, (kernelPool oneSlot).run {} [.callSubmit, .warmup 0 (fun _ => .done), .enter 0 .done] =
        some s ∧ Accounted oneSlot.normalized s := by
  obtain ⟨s, hrun⟩ : ∃ s, (kernelPool oneSlot).run {}
      [.callSubmit, .warmup 0 (fun _ => .done), .enter 0 .done] = some s := ⟨_, rfl⟩
  have hmeets : (kernelPool oneSlot).RunMeets (KeepsAccounts oneSlot.normalized) {}
      [.callSubmit, .warmup 0 (fun _ => .done), .enter 0 .done] :=
    Machine.RunMeets.of_forall (by simp [KeepsAccounts])
  exact ⟨s, hrun, pool_accounting oneSlot (Machine.ReachableMeeting.run (.init _ _) hmeets hrun)⟩

def resetRun : List PoolEvent :=
  [.callSubmit, .warmup 0 (fun _ => .done), .enter 0 .done,
    .callReset, .reset 1, .sweep 1, .sweep 1, .warmup 1 (fun _ => .done),
    .callSubmit, .warmup 2 (fun _ => .done), .enter 2 .done, .finish 0 true]

/-- The end of the old job is counted against the new one, and when the new one
has ended too the slot of the old one is neither in the array nor destroyed. -/
theorem reset_breaks_accounting :
    (∃ s, (kernelPool oneSlot).Reachable s ∧
        s.stats.busySlots = 0 ∧ s.slots.countP (isBusy s) = 1) ∧
      ∃ s, (kernelPool oneSlot).Reachable s ∧ (∀ place ∈ s.calls, place = .returned .ok) ∧
        0 < s.created ∧ 0 ∉ s.slots ∧ 0 ∉ s.destroyed := by
  refine ⟨⟨_, Machine.reachable_of_run resetRun rfl, rfl, rfl⟩,
    _, Machine.reachable_of_run (resetRun ++ [.finish 2 true]) rfl, ?_, ?_, ?_, ?_⟩
  · show ∀ place ∈ [CallAt.returned .ok, .returned .ok, .returned .ok], place = .returned .ok
    simp
  · decide
  · decide
  · decide

end BlessStar.Runtime.Proofs.PoolSlots
