import BlessStar.State.Proofs.ConfigEvents

/-!
# What readers of a configuration get

A snapshot that passes the check of its reader is the one the path has at that
moment.  During a hot update the path always has the old data or the new; a
reload publishes an empty snapshot on the way, and a reader that takes it finds
nothing.
-/

namespace BlessStar.State.Proofs.Snapshots

open Lib.ByteString Lib.Transition Lib.Places

variable {entry : ActiveEntry} {update : ConfigUpdate} {s s' : SnapshotState}

/-! ## Snapshots are whole -/

theorem and_one_eq_zero {seq : UInt64} : seq &&& 1 = 0 ↔ seq.toNat % 2 = 0 := by
  rw [← UInt64.toNat_inj, UInt64.toNat_and]
  show seq.toNat &&& 1 = 0 ↔ _
  rw [Nat.and_one_is_mod]

/-! ## The update -/

def firstEmission (update : ConfigUpdate) : Emission :=
  ⟨.active, .updating, if update.hot then update.data else []⟩

def secondEmission (update : ConfigUpdate) : Emission := ⟨.updating, .active, update.data⟩

theorem emissions_op (update : ConfigUpdate) :
    update.op.emissions true .active = .ok [firstEmission update, secondEmission update] := by
  unfold ConfigUpdate.op firstEmission
  cases update.hot <;> rfl

inductive Progress (entry : ActiveEntry) (update : ConfigUpdate) :
    UpdateAt → Nat → Bytes → Bytes → Prop
  | lookup : Progress entry update (.lookup update.op) 0
      entry.impl.pub.dataSnapshot entry.impl.pub.dataSnapshot
  | commit : Progress entry update (.commit (firstEmission update) [secondEmission update]) 0
      entry.impl.pub.dataSnapshot entry.impl.pub.dataSnapshot
  | advance : Progress entry update (.advance (firstEmission update) [secondEmission update]) 0
      entry.impl.pub.dataSnapshot (firstEmission update).data
  | store : Progress entry update (.store (firstEmission update) [secondEmission update]) 1
      entry.impl.pub.dataSnapshot (firstEmission update).data
  | release : Progress entry update (.release (firstEmission update) [secondEmission update]) 1
      (firstEmission update).data (firstEmission update).data
  | publish : Progress entry update (.publish (firstEmission update) [secondEmission update]) 2
      (firstEmission update).data (firstEmission update).data
  | unpublished : Progress entry update (.unpublished (firstEmission update)) 2
      (firstEmission update).data (firstEmission update).data
  | notify : Progress entry update (.notify [secondEmission update]) 2
      (firstEmission update).data (firstEmission update).data
  | commitData : Progress entry update (.commit (secondEmission update) []) 2
      (firstEmission update).data (firstEmission update).data
  | advanceData : Progress entry update (.advance (secondEmission update) []) 2
      (firstEmission update).data update.data
  | storeData : Progress entry update (.store (secondEmission update) []) 3
      (firstEmission update).data update.data
  | releaseData : Progress entry update (.release (secondEmission update) []) 3
      update.data update.data
  | publishData : Progress entry update (.publish (secondEmission update) []) 4
      update.data update.data
  | unpublishedData : Progress entry update (.unpublished (secondEmission update)) 4
      update.data update.data
  | notifyData : Progress entry update (.notify []) 4 update.data update.data
  | returned : Progress entry update (.returned 0) 4 update.data update.data

def midway : UpdateAt → Bool
  | .release e _ | .publish e _ | .unpublished e => e.toState = .updating
  | .notify rest => rest ≠ []
  | .commit e _ | .advance e _ | .store e _ => e.toState = .active
  | .lookup _ | .returned _ => false

def OldOrNew (entry : ActiveEntry) (update : ConfigUpdate) (bytes : Bytes) : Prop :=
  bytes = entry.impl.pub.dataSnapshot ∨ bytes = update.data

theorem Progress.oldOrNew {place : UpdateAt} {advances : Nat} {stored written : Bytes}
    (h : Progress entry update place advances stored written)
    (hmidway : update.hot = true ∨ midway place = false) : OldOrNew entry update stored := by
  rcases hmidway with hhot | hmidway
  · have hfirst : (firstEmission update).data = update.data := if_pos hhot
    unfold OldOrNew
    rw [← hfirst]
    cases h <;> simp [hfirst]
  · cases h with
    | lookup | commit | advance | store => exact Or.inl rfl
    | releaseData | publishData | unpublishedData | notifyData | returned => exact Or.inr rfl
    | _ => cases hmidway

/-! ## Readers -/

def Past (entry : ActiveEntry) (advances : Nat) (seq : UInt64) : Prop :=
  ∃ before ≤ advances, before % 2 = 0 ∧ seq = entry.impl.rcu.seq + UInt64.ofNat before

def ReaderSound (entry : ActiveEntry) (update : ConfigUpdate) (advances : Nat)
    (lock : PathSeqlock) : ReaderAt → Prop
  | .find | .readSeq => True
  | .readPtr seq => Past entry advances seq
  | .check seq snapshot => Past entry advances seq ∧ (lock.seq = seq → snapshot = lock.ptr)
  | .copy snapshot => ∃ payload, snapshot = some payload ∧ OldOrNew entry update payload.bytes
  | .returned result => ∃ data, result = .ok data ∧ OldOrNew entry update data

/-- A reader's check succeeds only when a reload is not between its two
snapshots, and there is memory for every copy of the data. -/
def KeepsData (update : ConfigUpdate) (s : SnapshotState) : SnapshotStep → Prop
  | .call => True
  | .read reader copied => copied = true ∧ (update.hot = true ∨
      ∀ seq snapshot, s.readers[reader]? = some (.check seq snapshot) →
        s.impl.rcu.seq = seq → midway s.update = false)
  | .update copied _ => copied = true

structure SnapshotSound (entry : ActiveEntry) (update : ConfigUpdate) (s : SnapshotState)
    (advances : Nat) (payload : SnapshotPayload) : Prop where
  progress : Progress entry update s.update advances payload.bytes s.impl.pub.dataSnapshot
  found : ∀ op, s.update = .lookup op → s.impl.pub.state = .active
  seq : s.impl.rcu.seq = entry.impl.rcu.seq + UInt64.ofNat advances
  ptr : s.impl.rcu.ptr = some payload
  readers : ∀ place ∈ s.readers, ReaderSound entry update advances s.impl.rcu place

theorem seq_inj {seq : UInt64} {i j : Nat} (hi : i ≤ 4) (hj : j ≤ 4)
    (h : seq + UInt64.ofNat i = seq + UInt64.ofNat j) : i = j := by
  have hnat := congrArg UInt64.toNat h
  rw [UInt64.toNat_add, UInt64.toNat_add, UInt64.toNat_ofNat', UInt64.toNat_ofNat'] at hnat
  omega

theorem seq_even (entry : ActiveEntry) {advances : Nat}
    (h : (entry.impl.rcu.seq + UInt64.ofNat advances) &&& 1 = 0) : advances % 2 = 0 := by
  have hentry := and_one_eq_zero.mp entry.even
  rw [and_one_eq_zero, UInt64.toNat_add, UInt64.toNat_ofNat'] at h
  omega

theorem Progress.le_four {place : UpdateAt} {advances : Nat} {stored written : Bytes}
    (h : Progress entry update place advances stored written) : advances ≤ 4 := by
  cases h <;> omega

theorem Past.succ {advances : Nat} {seq : UInt64} (h : Past entry advances seq) :
    Past entry (advances + 1) seq := by
  obtain ⟨before, hle, heven, hseq⟩ := h
  exact ⟨before, Nat.le_succ_of_le hle, heven, hseq⟩

theorem ReaderSound.advance {advances : Nat} {lock : PathSeqlock} {place : ReaderAt}
    (h : ReaderSound entry update advances lock place) (hle : advances < 4)
    (hseq : lock.seq = entry.impl.rcu.seq + UInt64.ofNat advances) :
    ReaderSound entry update (advances + 1) lock.advance place := by
  cases place with
  | readPtr seq => exact Past.succ h
  | check seq snapshot =>
      refine ⟨h.1.succ, fun hsame => ?_⟩
      obtain ⟨before, hbefore, -, rfl⟩ := h.1
      have hnext : lock.advance.seq = entry.impl.rcu.seq + UInt64.ofNat (advances + 1) := by
        show lock.seq + 1 = _
        rw [hseq, UInt64.ofNat_add, UInt64.add_assoc]
        rfl
      have heq := seq_inj (by omega) (by omega) (hnext.symm.trans hsame)
      omega
  | _ => exact h

theorem ReaderSound.store {advances : Nat} {lock : PathSeqlock} {place : ReaderAt}
    (h : ReaderSound entry update advances lock place) (hle : advances ≤ 4)
    (hodd : advances % 2 = 1) (hseq : lock.seq = entry.impl.rcu.seq + UInt64.ofNat advances)
    (payload : SnapshotPayload) :
    ReaderSound entry update advances (lock.store payload) place := by
  cases place with
  | check seq snapshot =>
      refine ⟨h.1, fun hsame => ?_⟩
      obtain ⟨before, hbefore, heven, rfl⟩ := h.1
      have heq := seq_inj (by omega) hle (hsame.symm.trans hseq)
      omega
  | _ => exact h

section Update

variable {advances : Nat} {payload : SnapshotPayload} {place : UpdateAt}

theorem SnapshotSound.goOn (h : SnapshotSound entry update s advances payload) (pub : StateEntry)
    (hprogress : Progress entry update place advances payload.bytes pub.dataSnapshot)
    (hplace : ∀ op, place ≠ .lookup op) :
    SnapshotSound entry update
      { s with
        impl := { s.impl with pub := pub }
        update := place } advances payload where
  progress := hprogress
  found := fun op heq => absurd heq (hplace op)
  seq := h.seq
  ptr := h.ptr
  readers := h.readers

theorem SnapshotSound.advance (h : SnapshotSound entry update s advances payload)
    (hlt : advances < 4)
    (hprogress : Progress entry update place (advances + 1) payload.bytes s.impl.pub.dataSnapshot)
    (hplace : ∀ op, place ≠ .lookup op) :
    SnapshotSound entry update
      { s with
        impl := { s.impl with rcu := s.impl.rcu.advance }
        update := place } (advances + 1) payload where
  progress := hprogress
  found := fun op heq => absurd heq (hplace op)
  seq := by
    show s.impl.rcu.seq + 1 = _
    rw [h.seq, UInt64.ofNat_add, UInt64.add_assoc]
    rfl
  ptr := h.ptr
  readers := fun reader hreader => (h.readers reader hreader).advance hlt h.seq

theorem SnapshotSound.store (h : SnapshotSound entry update s advances payload)
    (hodd : advances % 2 = 1)
    (hprogress : Progress entry update place advances s.impl.pub.dataSnapshot
      s.impl.pub.dataSnapshot)
    (hplace : ∀ op, place ≠ .lookup op) :
    SnapshotSound entry update
      { s with
        impl := { s.impl with rcu := s.impl.rcu.store (makePayload s.impl.pub) }
        update := place } advances (makePayload s.impl.pub) where
  progress := hprogress
  found := fun op heq => absurd heq (hplace op)
  seq := h.seq
  ptr := rfl
  readers := fun reader hreader =>
    (h.readers reader hreader).store h.progress.le_four hodd h.seq _

theorem SnapshotSound.update_step (h : SnapshotSound entry update s advances payload)
    {memory : EventMemory} (hstep : s.step (.update true memory) = some s') :
    ∃ advances payload, SnapshotSound entry update s' advances payload := by
  have hprogress := h.progress
  obtain ⟨impl, place, readers⟩ := s
  generalize hstored : payload.bytes = stored at hprogress
  generalize hwritten : impl.pub.dataSnapshot = written at hprogress
  cases hprogress with
  | lookup =>
      have hactive : impl.pub.state = .active := h.found _ rfl
      simp only [SnapshotState.step, hactive, emissions_op] at hstep
      cases hstep
      refine ⟨0, payload, h.goOn impl.pub ?_ nofun⟩
      rw [hstored, hwritten]
      exact .commit
  | commit =>
      cases hstep
      refine ⟨0, payload, h.goOn (impl.pub.write _ _ _) ?_ nofun⟩
      rw [hstored]
      exact .advance
  | advance =>
      cases hstep
      refine ⟨1, payload, h.advance (by omega) ?_ nofun⟩
      rw [hstored, hwritten]
      exact .store
  | store =>
      cases hstep
      refine ⟨1, makePayload impl.pub, h.store rfl ?_ nofun⟩
      rw [hwritten]
      exact .release
  | release =>
      cases hstep
      refine ⟨2, payload, h.advance (by omega) ?_ nofun⟩
      rw [hstored, hwritten]
      exact .publish
  | publish =>
      cases hevent : memory.event with
      | true =>
          simp only [SnapshotState.step, hevent, if_true] at hstep
          cases hstep
          refine ⟨2, payload, h.goOn impl.pub ?_ nofun⟩
          rw [hstored, hwritten]
          exact .notify
      | false =>
          simp only [SnapshotState.step, hevent, Bool.false_eq_true, if_false] at hstep
          cases hstep
          refine ⟨2, payload, h.goOn impl.pub ?_ nofun⟩
          rw [hstored, hwritten]
          exact .unpublished
  | notify =>
      cases hstep
      refine ⟨2, payload, h.goOn impl.pub ?_ nofun⟩
      rw [hstored, hwritten]
      exact .commitData
  | commitData =>
      cases hstep
      refine ⟨2, payload, h.goOn (impl.pub.write _ _ _) ?_ nofun⟩
      rw [hstored]
      exact .advanceData
  | advanceData =>
      cases hstep
      refine ⟨3, payload, h.advance (by omega) ?_ nofun⟩
      rw [hstored, hwritten]
      exact .storeData
  | storeData =>
      cases hstep
      refine ⟨3, makePayload impl.pub, h.store rfl ?_ nofun⟩
      rw [hwritten]
      exact .releaseData
  | releaseData =>
      cases hstep
      refine ⟨4, payload, h.advance (by omega) ?_ nofun⟩
      rw [hstored, hwritten]
      exact .publishData
  | publishData =>
      cases hevent : memory.event with
      | true =>
          simp only [SnapshotState.step, hevent, if_true] at hstep
          cases hstep
          refine ⟨4, payload, h.goOn impl.pub ?_ nofun⟩
          rw [hstored, hwritten]
          exact .notifyData
      | false =>
          simp only [SnapshotState.step, hevent, Bool.false_eq_true, if_false] at hstep
          cases hstep
          refine ⟨4, payload, h.goOn impl.pub ?_ nofun⟩
          rw [hstored, hwritten]
          exact .unpublishedData
  | notifyData =>
      cases hstep
      refine ⟨4, payload, h.goOn impl.pub ?_ nofun⟩
      rw [hstored, hwritten]
      exact .returned
  | unpublished | unpublishedData | returned => cases hstep

theorem SnapshotSound.read_step (h : SnapshotSound entry update s advances payload) {reader : Nat}
    {copied : Bool} (hkeeps : KeepsData update s (.read reader copied))
    (hstep : s.step (.read reader copied) = some s') :
    SnapshotSound entry update s' advances payload := by
  obtain ⟨place, hreader, hread⟩ := Option.bind_eq_some_iff.mp hstep
  have hsound := h.readers place (List.mem_of_getElem? hreader)
  have hgoTo : ∀ next, ReaderSound entry update advances s.impl.rcu next →
      SnapshotSound entry update (s.goTo reader next) advances payload :=
    fun next hnext => { h with readers := forall_mem_set h.readers hnext }
  cases place with
  | find =>
      simp only [SnapshotState.read] at hread
      split at hread
      · cases hread
      · cases hread
        exact hgoTo .readSeq trivial
  | readSeq =>
      cases hread
      split
      · exact h
      · next heven =>
          rw [not_not, h.seq] at heven
          exact hgoTo (.readPtr _) ⟨advances, Nat.le_refl _, seq_even entry heven, h.seq⟩
  | readPtr seq =>
      cases hread
      exact hgoTo (.check seq _) ⟨hsound, fun _ => rfl⟩
  | check seq snapshot =>
      cases hread
      split
      · next hsame =>
          have hplace := hkeeps.2.imp_right fun hcheck => hcheck seq snapshot hreader hsame
          exact hgoTo (.copy snapshot)
            ⟨payload, (hsound.2 hsame).trans h.ptr, h.progress.oldOrNew hplace⟩
      · exact hgoTo .readSeq trivial
  | copy snapshot =>
      cases hread
      obtain ⟨taken, rfl, hbytes⟩ := hsound
      have hdata : taken.bytes ≠ [] := by
        rcases hbytes with heq | heq
        · rw [heq]
          exact entry.nonempty
        · rw [heq]
          exact update.nonempty
      apply hgoTo (.returned _)
      rw [copySnapshot, if_neg hdata, if_pos hkeeps.1]
      exact ⟨taken.bytes, rfl, hbytes⟩
  | returned result => cases hread

theorem SnapshotSound.step (h : SnapshotSound entry update s advances payload) {e : SnapshotStep}
    (hkeeps : KeepsData update s e) (hstep : s.step e = some s') :
    ∃ advances payload, SnapshotSound entry update s' advances payload := by
  cases e with
  | call =>
      cases hstep
      refine ⟨advances, payload, { h with readers := ?_ }⟩
      simp only [List.forall_mem_append, List.forall_mem_singleton]
      exact ⟨h.readers, trivial⟩
  | read reader copied => exact ⟨advances, payload, h.read_step hkeeps hstep⟩
  | update copied memory =>
      obtain rfl : copied = true := hkeeps
      exact h.update_step hstep

end Update

theorem snapshotSound_init :
    SnapshotSound entry update (snapshotReaders entry update).init 0
      (makePayload entry.impl.pub) where
  progress := .lookup
  found := fun _ _ => entry.active
  seq := by
    show entry.impl.rcu.seq = entry.impl.rcu.seq + 0
    rw [UInt64.add_zero]
  ptr := entry.snapshot
  readers := by simp [snapshotReaders]

/-- **Readers and an update.**  In every run whose steps keep the data every
call that has returned got all of the old data or all of the new. -/
theorem readers_keep_config
    (h : (snapshotReaders entry update).ReachableMeeting (KeepsData update) s) :
    ∀ result, ReaderAt.returned result ∈ s.readers →
      result = .ok entry.impl.pub.dataSnapshot ∨ result = .ok update.data := by
  have hsound : ∃ advances payload, SnapshotSound entry update s advances payload := by
    apply h.invariant (I := fun s => ∃ advances payload,
      SnapshotSound entry update s advances payload)
      ⟨0, _, snapshotSound_init⟩
    rintro s e s' ⟨advances, payload, hs⟩ hkeeps hstep
    exact hs.step hkeeps hstep
  obtain ⟨advances, payload, hs⟩ := hsound
  intro result hresult
  obtain ⟨data, rfl, hdata⟩ := hs.readers _ hresult
  exact hdata.imp (congrArg SnapshotResult.ok) (congrArg SnapshotResult.ok)

/-- An active path with the data `old`. -/
def activeOld : ActiveEntry where
  impl := (StateEntryImpl.setState {} .loading [] true).setState .active (ascii "old") true
  active := rfl
  nonempty := List.cons_ne_nil _ _
  snapshot := rfl
  even := rfl

/-- An update to the data `new`. -/
def updateNew (hot : Bool) : ConfigUpdate := ⟨hot, ascii "new", List.cons_ne_nil _ _⟩

def hotRun : List SnapshotStep :=
  List.replicate 5 (.update true {}) ++ [.call] ++ List.replicate 5 (.read 0 true)

theorem readers_keep_config_hot :
    ∃ s, (snapshotReaders activeOld (updateNew true)).Reachable s ∧
      ReaderAt.returned (.ok (ascii "new")) ∈ s.readers ∧
      ∀ result, ReaderAt.returned result ∈ s.readers →
        result = .ok (ascii "old") ∨ result = .ok (ascii "new") := by
  obtain ⟨s, hrun⟩ : ∃ s, (snapshotReaders activeOld (updateNew true)).run
    (snapshotReaders activeOld (updateNew true)).init hotRun = some s := ⟨_, rfl⟩
  have hmeets : (snapshotReaders activeOld (updateNew true)).RunMeets
      (KeepsData (updateNew true)) (snapshotReaders activeOld (updateNew true)).init hotRun :=
    Machine.RunMeets.of_forall (by simp [hotRun, KeepsData, updateNew])
  have hreach := Machine.ReachableMeeting.run (.init _ _) hmeets hrun
  refine ⟨s, hreach.reachable, ?_, readers_keep_config hreach⟩
  cases hrun
  exact List.mem_cons_self

def reloadRun : List SnapshotStep :=
  [.call] ++ List.replicate 5 (.update true {}) ++ List.replicate 5 (.read 0 true)

/-- The reader finds nothing. -/
theorem reader_finds_nothing :
    ∃ s, (snapshotReaders activeOld (updateNew false)).Reachable s ∧
      ReaderAt.returned .notFound ∈ s.readers :=
  ⟨_, Machine.reachable_of_run reloadRun rfl, List.mem_cons_self⟩

end BlessStar.State.Proofs.Snapshots
