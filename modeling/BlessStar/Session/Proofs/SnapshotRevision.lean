import BlessStar.Session.SnapshotRead

/-!
# The bytes and the revision of a snapshot read

A reader pins its bytes before it samples the revision.  A whole commit between
the two leaves the revisions equal and the bytes old.  As long as the pinned
bytes are the published ones when the revisions are seen to agree, a read
returns what was committed with the revision it reports.
-/

namespace BlessStar.Session.Proofs.SnapshotRevision

open Lib.ByteString Lib.Transition State Session

/-- Every read that returned, and every open handle, has the bytes committed
with its revision. -/
def SnapshotsMatch (s : AttachSession) : Prop :=
  (∀ bytes rev, SnapshotReadAt.returned (.ok (bytes, rev)) ∈ s.readers →
    s.committed rev = some bytes) ∧
  ∀ h, some h ∈ s.handles → s.committed h.revision = some h.payload.bytes

/-- When a reader samples a session revision that is the manifest's, the bytes
it pinned are still the published ones; the revision does not wrap, and there is
memory for the bytes that are published. -/
def PinnedStillPublished (path : Bytes) (s : AttachSession) : SessionEvent → Prop
  | .advanceRead reader _ => ∀ call payload,
      s.readers[reader]? = some (.sample call payload) → s.pathRevision = s.manifestRevision →
        ∃ published, pinSnapshot s.stateBus path = some published ∧
          published.bytes = payload.bytes
  | .storeCommit _ baseRevision => baseRevision < baseRevision + 1
  | .advanceCommit copied _ => copied = true
  | _ => True

theorem pinSnapshot_setState (bus : StateBus) (path : Bytes) (state : ConfigState) (data : Bytes) :
    ∃ payload, pinSnapshot (bus.setState path state data true) path = some payload ∧
      payload.bytes = data := by
  refine ⟨_, by rw [pinSnapshot, StateBus.setState, Function.update_self]; rfl, ?_⟩
  rfl

theorem syncEmissions_two {bus : StateBus} {path data : Bytes} {emissions : List Emission}
    (h : syncEmissions bus path data = .ok emissions) :
    ∃ first last, emissions = [first, last] ∧ last.data = data := by
  unfold syncEmissions at h
  simp only at h
  split at h
  · unfold loadConfig at h
    split at h
    · cases h
    · cases h
      exact ⟨_, _, rfl, rfl⟩
  · split at h
    · unfold State.hotUpdate at h
      split at h
      · cases h
      · cases h
        exact ⟨_, _, rfl, rfl⟩
    · unfold reloadConfig at h
      split at h
      · cases h
      · cases h
        exact ⟨_, _, rfl, rfl⟩

theorem syncEmissions_last {bus : StateBus} {path data : Bytes} {emissions : List Emission}
    (h : syncEmissions bus path data = .ok emissions) :
    emissions ≠ [] ∧ ∀ e ∈ emissions.getLast?, e.data = data := by
  obtain ⟨first, last, rfl, hdata⟩ := syncEmissions_two h
  refine ⟨List.cons_ne_nil _ _, ?_⟩
  intro e he
  obtain rfl : last = e := by simpa using he
  exact hdata

def PublishedIsCommitted (path : Bytes) (s : AttachSession) : Prop :=
  ∃ payload, pinSnapshot s.stateBus path = some payload ∧
    s.committed s.manifestRevision = some payload.bytes

def CommitSound (path : Bytes) (s : AttachSession) : CommitAt → Prop
  | .idle => s.pathRevision = s.manifestRevision → ∀ payload,
      pinSnapshot s.stateBus path = some payload →
        s.committed s.manifestRevision = some payload.bytes
  | .stored data | .locked data _ =>
      s.pathRevision ≠ s.manifestRevision ∧ s.committed s.manifestRevision = some data
  | .emitting data rest _ =>
      s.pathRevision ≠ s.manifestRevision ∧ s.committed s.manifestRevision = some data ∧
        (rest = [] → PublishedIsCommitted path s) ∧ ∀ e ∈ rest.getLast?, e.data = data
  | .emitted ok _ =>
      s.pathRevision ≠ s.manifestRevision ∧ (ok = true → PublishedIsCommitted path s)
  | .synced => s.pathRevision ≠ s.manifestRevision ∧ PublishedIsCommitted path s

def ReadSound (s : AttachSession) : SnapshotReadAt → Prop
  | .check _ payload sessionRev =>
      sessionRev ≤ s.manifestRevision ∧
        (sessionRev = s.manifestRevision → s.committed sessionRev = some payload.bytes)
  | .returned (.ok (bytes, rev)) => rev ≤ s.manifestRevision ∧ s.committed rev = some bytes
  | _ => True

structure Matching (path : Bytes) (s : AttachSession) : Prop where
  behind : s.pathRevision ≤ s.manifestRevision
  commit : CommitSound path s s.commit
  readers : ∀ place ∈ s.readers, ReadSound s place
  handles : ∀ h, some h ∈ s.handles →
    h.revision ≤ s.manifestRevision ∧ s.committed h.revision = some h.payload.bytes

variable {path : Bytes}

theorem Matching.init (manifestRevision : UInt64) :
    Matching path (attachSession path manifestRevision).init where
  behind := UInt64.zero_le
  commit hrev payload hpayload := by cases hpayload
  readers place hplace := by cases hplace
  handles h hh := by
    have hnone := List.eq_of_mem_replicate hh
    cases hnone

theorem Matching.snapshotsMatch {s : AttachSession} (h : Matching path s) : SnapshotsMatch s := by
  constructor
  · intro bytes rev hmem
    exact (h.readers _ hmem).2
  · intro handle hmem
    exact (h.handles handle hmem).2

theorem Matching.storeCommit {s s' : AttachSession} (h : Matching path s) {data : Bytes}
    {baseRevision : UInt64} (hwrap : baseRevision < baseRevision + 1)
    (hs : s.step path (.storeCommit data baseRevision) = some s') : Matching path s' := by
  simp only [AttachSession.step] at hs
  split at hs
  · cases hs
  split at hs
  · cases hs
    exact h
  rename_i hbase
  replace hbase : s.manifestRevision = baseRevision := by simpa using hbase
  cases hs
  subst hbase
  have hlt : ∀ {rev : UInt64}, rev ≤ s.manifestRevision → rev < s.manifestRevision + 1 :=
    fun hrev => UInt64.lt_of_le_of_lt hrev hwrap
  have hkeep : ∀ {rev : UInt64}, rev ≤ s.manifestRevision →
      Function.update s.committed (s.manifestRevision + 1) (some data) rev = s.committed rev :=
    fun hrev => Function.update_of_ne (UInt64.ne_of_lt (hlt hrev)) _ _
  constructor
  · exact UInt64.le_of_lt (hlt h.behind)
  · exact ⟨UInt64.ne_of_lt (hlt h.behind), Function.update_self _ _ _⟩
  · intro place hplace
    have hsound := h.readers place hplace
    unfold ReadSound at hsound ⊢
    split
    · obtain ⟨hle, -⟩ := hsound
      refine ⟨UInt64.le_of_lt (hlt hle), ?_⟩
      intro heq
      exact absurd heq (UInt64.ne_of_lt (hlt hle))
    · obtain ⟨hle, hbytes⟩ := hsound
      exact ⟨UInt64.le_of_lt (hlt hle), (hkeep hle).trans hbytes⟩
    · trivial
  · intro handle hmem
    obtain ⟨hle, hbytes⟩ := h.handles handle hmem
    exact ⟨UInt64.le_of_lt (hlt hle), (hkeep hle).trans hbytes⟩

theorem Matching.of_same {s s' : AttachSession} (h : Matching path s)
    (hmanifest : s'.manifestRevision = s.manifestRevision) (hcommitted : s'.committed = s.committed)
    (hreaders : s'.readers = s.readers) (hhandles : s'.handles = s.handles)
    (hbehind : s'.pathRevision ≤ s'.manifestRevision) (hcommit : CommitSound path s' s'.commit) :
    Matching path s' where
  behind := hbehind
  commit := hcommit
  readers place hplace := by
    have hsound := h.readers place (hreaders ▸ hplace)
    unfold ReadSound at hsound ⊢
    rw [hmanifest, hcommitted]
    exact hsound
  handles handle hmem := by
    rw [hmanifest, hcommitted]
    exact h.handles handle (hhandles ▸ hmem)

theorem Matching.advanceCommit {s s' : AttachSession} (h : Matching path s) {memory : EventMemory}
    (hs : s.step path (.advanceCommit true memory) = some s') : Matching path s' := by
  simp only [AttachSession.step] at hs
  have hsound := h.commit
  generalize hplace : s.commit = place at hs hsound
  cases place with
  | idle => cases hs
  | stored data =>
      obtain ⟨hne, hdata⟩ := hsound
      simp only [AttachSession.advanceCommit] at hs
      split at hs
      · cases hs
        exact h.of_same rfl rfl rfl rfl h.behind fun heq => absurd heq hne
      · split at hs
        · cases hs
          exact h.of_same rfl rfl rfl rfl h.behind ⟨hne, hdata⟩
        · cases hs
          exact h.of_same rfl rfl rfl rfl h.behind ⟨hne, hdata⟩
  | locked data owned =>
      obtain ⟨hne, hdata⟩ := hsound
      simp only [AttachSession.advanceCommit] at hs
      split at hs
      · cases hs
        exact h.of_same rfl rfl rfl rfl h.behind ⟨hne, fun hok => Bool.noConfusion hok⟩
      · rename_i emissions hemissions
        obtain ⟨hnonempty, hlast⟩ := syncEmissions_last hemissions
        cases hs
        exact h.of_same rfl rfl rfl rfl h.behind
          ⟨hne, hdata, fun hnil => absurd hnil hnonempty, hlast⟩
  | emitting data rest owned =>
      obtain ⟨hne, hdata, hpublished, hlast⟩ := hsound
      cases rest with
      | nil =>
          cases hs
          exact h.of_same rfl rfl rfl rfl h.behind ⟨hne, fun _ => hpublished rfl⟩
      | cons e rest =>
          simp only [AttachSession.advanceCommit] at hs
          cases hs
          refine h.of_same rfl rfl rfl rfl h.behind ?_
          simp only
          split
          · refine ⟨hne, hdata, ?_, ?_⟩
            · rintro rfl
              obtain ⟨payload, hpin, hbytes⟩ :=
                pinSnapshot_setState s.stateBus path e.toState e.data
              have hedata : e.data = data := hlast e rfl
              exact ⟨payload, hpin, by rw [hdata, hbytes, hedata]⟩
            · intro e' he'
              apply hlast e'
              cases rest with
              | nil => cases he'
              | cons e'' rest => exact he'
          · exact ⟨hne, fun hok => Bool.noConfusion hok⟩
  | emitted ok owned =>
      obtain ⟨hne, hpublished⟩ := hsound
      simp only [AttachSession.advanceCommit] at hs
      cases hs
      refine h.of_same rfl rfl rfl rfl h.behind ?_
      cases ok with
      | false => exact fun heq => absurd heq hne
      | true => exact ⟨hne, hpublished rfl⟩
  | synced =>
      obtain ⟨-, payload, hpin, hbytes⟩ := hsound
      simp only [AttachSession.advanceCommit] at hs
      cases hs
      refine h.of_same rfl rfl rfl rfl (UInt64.le_refl _) ?_
      intro _ payload' hpin'
      obtain rfl : payload = payload' := Option.some.inj (hpin.symm.trans hpin')
      exact hbytes

theorem Matching.goTo {s : AttachSession} (h : Matching path s) (place : SnapshotReadAt)
    (hplace : ReadSound s place) (reader : Nat) {handles : List (Option SnapshotReadHandle)}
    (hhandles : ∀ handle, some handle ∈ handles →
      handle.revision ≤ s.manifestRevision ∧
        s.committed handle.revision = some handle.payload.bytes) :
    Matching path
      { s with
        handles := handles
        readers := s.readers.set reader place } where
  behind := h.behind
  commit := h.commit
  readers place' hmem := by
    rcases List.mem_or_eq_of_mem_set hmem with hold | rfl
    · exact h.readers place' hold
    · exact hplace
  handles := hhandles

theorem Matching.published_of_level {s : AttachSession} (h : Matching path s)
    (hlevel : s.pathRevision = s.manifestRevision) {payload : SnapshotPayload}
    (hpin : pinSnapshot s.stateBus path = some payload) :
    s.committed s.manifestRevision = some payload.bytes := by
  have hsound := h.commit
  generalize s.commit = place at hsound
  cases place with
  | idle => exact hsound hlevel payload hpin
  | stored data => exact absurd hlevel hsound.1
  | locked data owned => exact absurd hlevel hsound.1
  | emitting data rest owned => exact absurd hlevel hsound.1
  | emitted ok owned => exact absurd hlevel hsound.1
  | synced => exact absurd hlevel hsound.1

theorem Matching.advanceRead {s s' : AttachSession} (h : Matching path s) {reader : Nat}
    {reloaded : Bool} (hpublished : PinnedStillPublished path s (.advanceRead reader reloaded))
    (hs : s.step path (.advanceRead reader reloaded) = some s') : Matching path s' := by
  simp only [AttachSession.step] at hs
  obtain ⟨place, hplace, hs⟩ := Option.bind_eq_some_iff.mp hs
  have hmem : place ∈ s.readers := List.mem_of_getElem? hplace
  have hsound := h.readers place hmem
  cases place with
  | pin call =>
      simp only [AttachSession.advanceRead] at hs
      cases hs
      refine h.goTo _ ?_ reader h.handles
      split <;> trivial
  | sample call payload =>
      simp only [AttachSession.advanceRead] at hs
      cases hs
      refine h.goTo (.check call payload s.pathRevision) ⟨h.behind, ?_⟩ reader h.handles
      intro hlevel
      obtain ⟨published, hpin, hbytes⟩ := hpublished call payload hplace hlevel
      rw [hlevel, h.published_of_level hlevel hpin, hbytes]
  | check call payload sessionRev =>
      obtain ⟨-, hfresh⟩ := hsound
      simp only [AttachSession.advanceRead] at hs
      split at hs
      · cases hs
        exact h.goTo (.returned (.error .reloadFailed)) trivial reader h.handles
      split at hs
      · cases hs
        exact h.goTo (.returned (.error .revisionStale)) trivial reader h.handles
      rename_i hlevel
      replace hlevel : s.manifestRevision = sessionRev := by simpa using hlevel
      subst hlevel
      have hbytes := hfresh rfl
      cases hs
      unfold AttachSession.deliver
      cases call with
      | getSnapshotCopy bufCap =>
          refine h.goTo _ ?_ reader h.handles
          simp only
          split
          · trivial
          split
          · trivial
          · exact ⟨UInt64.le_refl _, hbytes⟩
      | openSnapshotRead =>
          simp only
          split
          · exact h.goTo (.returned (.error .noHandle)) trivial reader h.handles
          · refine h.goTo (.returned (.ok (payload.bytes, s.manifestRevision)))
              ⟨UInt64.le_refl _, hbytes⟩ reader ?_
            intro handle hhandle
            rcases List.mem_or_eq_of_mem_set hhandle with hold | hnew
            · exact h.handles handle hold
            · cases hnew
              exact ⟨UInt64.le_refl _, hbytes⟩
  | returned result => cases hs

/-- **One step keeps the invariant.** -/
theorem Matching.step {s s' : AttachSession} {e : SessionEvent} (h : Matching path s)
    (he : PinnedStillPublished path s e) (hs : s.step path e = some s') : Matching path s' := by
  cases e with
  | storeCommit data baseRevision => exact h.storeCommit he hs
  | advanceCommit copied memory =>
      obtain rfl : copied = true := he
      exact h.advanceCommit hs
  | advanceRead reader reloaded => exact h.advanceRead he hs
  | beginWindow =>
      simp only [AttachSession.step] at hs
      split at hs
      · cases hs
        exact h.of_same rfl rfl rfl rfl h.behind h.commit
      · cases hs
  | endWindow =>
      simp only [AttachSession.step] at hs
      split at hs
      · cases hs
        exact h.of_same rfl rfl rfl rfl h.behind h.commit
      · cases hs
  | read call =>
      simp only [AttachSession.step] at hs
      cases hs
      refine ⟨h.behind, h.commit, ?_, h.handles⟩
      intro place hplace
      rcases List.mem_append.mp hplace with hold | hnew
      · exact h.readers place hold
      · obtain rfl := List.mem_singleton.mp hnew
        split <;> trivial
  | closeRead handle =>
      simp only [AttachSession.step] at hs
      cases hs
      refine ⟨h.behind, h.commit, h.readers, ?_⟩
      intro handle' hmem
      rcases List.mem_or_eq_of_mem_set hmem with hold | hnew
      · exact h.handles handle' hold
      · cases hnew

/-- **Snapshot bytes match their revision** in every run in which no reader
samples a level revision over bytes that are no longer published. -/
theorem snapshot_bytes_match {manifestRevision : UInt64} {s : AttachSession}
    (h : (attachSession path manifestRevision).ReachableMeeting (PinnedStillPublished path) s) :
    SnapshotsMatch s := by
  have hmatching : Matching path s := by
    apply h.invariant (I := Matching path) (Matching.init manifestRevision)
    intro s e s' hs he hstep
    exact hs.step he hstep
  exact hmatching.snapshotsMatch

def commitSteps (data : Bytes) (baseRevision : UInt64) : List SessionEvent :=
  .storeCommit data baseRevision :: List.replicate 7 (.advanceCommit true {})

/-- The session after a first commit of `[1]`. -/
def committedOnce : AttachSession where
  pathRevision := 1
  manifestRevision := 1
  stateBus := (StateBus.setState (fun _ => none) [] .loading [] true).setState [] .active [1] true
  committed := Function.update (fun _ => none) 1 (some [1])

theorem reachable_committedOnce :
    (attachSession [] 0).ReachableMeeting (PinnedStillPublished []) committedOnce := by
  have hmeets : (attachSession [] 0).RunMeets (PinnedStillPublished [])
      (attachSession [] 0).init (commitSteps [1] 0) := by
    apply Machine.RunMeets.of_forall
    intro e he t
    rcases List.mem_cons.mp he with rfl | he
    · have hwrap : (0 : UInt64) < 0 + 1 := by decide
      exact hwrap
    · obtain rfl := List.eq_of_mem_replicate he
      rfl
  exact Machine.ReachableMeeting.run (.init _ _) hmeets rfl

def committedWith (place : SnapshotReadAt) : AttachSession :=
  { committedOnce with readers := [place] }

/-- A read after the commit. -/
theorem snapshot_bytes_match_commit :
    SnapshotsMatch (committedWith (.returned (.ok ([1], 1)))) := by
  have hpinned : (attachSession [] 0).ReachableMeeting (PinnedStillPublished [])
      (committedWith (.pin (.getSnapshotCopy 8))) :=
    reachable_committedOnce.step (e := SessionEvent.read (.getSnapshotCopy 8)) trivial rfl
  have hsampling : (attachSession [] 0).ReachableMeeting (PinnedStillPublished [])
      (committedWith (.sample (.getSnapshotCopy 8) ⟨[1], .active, 2⟩)) :=
    hpinned.step (e := SessionEvent.advanceRead 0 true)
      (fun call payload hplace => by cases hplace) rfl
  have hchecking : (attachSession [] 0).ReachableMeeting (PinnedStillPublished [])
      (committedWith (.check (.getSnapshotCopy 8) ⟨[1], .active, 2⟩ 1)) := by
    refine hsampling.step (e := SessionEvent.advanceRead 0 true) ?_ rfl
    intro call payload hplace _
    obtain ⟨rfl, rfl⟩ := SnapshotReadAt.sample.inj (Option.some.inj hplace)
    exact ⟨_, rfl, rfl⟩
  exact snapshot_bytes_match
    (hchecking.step (e := SessionEvent.advanceRead 0 true)
      (fun call payload hplace => by cases hplace) rfl)

def commitWithinRead : List SessionEvent :=
  commitSteps [1] 0 ++ [.read (.getSnapshotCopy 8), .advanceRead 0 true] ++
    .beginWindow :: commitSteps [2] 1 ++
    [.endWindow, .advanceRead 0 true, .advanceRead 0 true]

theorem old_bytes_with_new_revision :
    ∃ s, (attachSession [] 0).Reachable s ∧ s.readers = [.returned (.ok ([1], 2))] ∧
      s.committed 2 = some [2] ∧ ¬SnapshotsMatch s := by
  refine ⟨_, Machine.reachable_of_run commitWithinRead rfl, rfl, rfl, ?_⟩
  intro h
  have hbytes := h.1 [1] 2 List.mem_cons_self
  cases hbytes

end BlessStar.Session.Proofs.SnapshotRevision
