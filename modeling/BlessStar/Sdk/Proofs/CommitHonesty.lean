import BlessStar.Orchestration.Proofs.GateCache
import BlessStar.Sdk.Proofs.SessionFiles

/-!
# Honest commits

When the report of a commit tells the truth about all that was added.  A refused
URI is only reported, and a key that is refused leaves the keys before it changed.
-/

namespace BlessStar.Sdk.Proofs.CommitHonesty

open Lib.ByteString Persistence Orchestration Session
open State Sdk.Proofs.SessionCommit Sdk.Proofs.SessionFiles
open Orchestration.Proofs.GateCache Orchestration.Proofs.ReloadOutcome

variable {ρ σ : Type} {E : SessionEnv ρ σ} {session : ConfigReloadSession σ}
  {g : Gated (CommitState σ)} {c : CommitState σ} {results : GateResults}

/-- After a success all that was added has been gated and is what `GetConfig`
returns; after a failure no key has another configuration than before. -/
structure Honest (E : SessionEnv ρ σ) (session : ConfigReloadSession σ) (results : GateResults)
    (c : CommitState σ) : Prop where
  keys : (commit E session results c).1.status = .success → ∀ e ∈ session.pendingBytes,
    lastPassed (commit E session results c).2.passed (memUri e.1) = some e.2 ∧
      getConfig (commit E session results c).2.s e.1 = .ok e.2
  uris : (commit E session results c).1.status = .success → ∀ uri ∈ session.pendingUris,
    ∃ data, lastPassed (commit E session results c).2.passed uri = some data ∧
      getConfig (commit E session results c).2.s uri = .ok data
  failed : (commit E session results c).1.status = .failed → ∀ e ∈ session.pendingBytes,
    (commit E session results c).2.s.stateBus (memUri e.1) = c.stateBus (memUri e.1)

/-- The gates are on, or no read for a file URI gives empty bytes. -/
def NoEmptyReads (session : ConfigReloadSession σ) : Prop :=
  session.gates.noGate = false ∨
    ∀ readFn ∈ session.userReadFn, ∀ uri s, (readFn uri s).1 ≠ some []

def heldAfter (session : ConfigReloadSession σ) (c : CommitState σ) (uri : Bytes) :
    SnapshotResult :=
  match session.pendingBytes.find? fun e => memUri e.1 = uri with
  | some e => .ok e.2
  | none => getConfigByUri c uri

/-- No key is refused, every URI is among the first eight (or that of a key), and
what `GetConfig` looks up for a key with a `:` in it are its bytes. -/
structure NothingLeftOut (E : SessionEnv ρ σ) (session : ConfigReloadSession σ)
    (c : CommitState σ) : Prop where
  passes : ∀ e ∈ session.pendingBytes, ¬KeyRefused E session.gates c.stateBus e
  taken : ∀ uri ∈ session.pendingUris, uri ∈ session.pendingUris.take 8 ∨
    ∃ e ∈ session.pendingBytes, uri = memUri e.1
  found : ∀ e ∈ session.pendingBytes, (58 : UInt8) ∈ e.1 →
    e.1 ∉ session.pendingUris ∧ heldAfter session c e.1 = .ok e.2

/-- The first key in order is refused, or nothing that was added is left out. -/
def CommitsWhole (E : SessionEnv ρ σ) (session : ConfigReloadSession σ) (c : CommitState σ) :
    Prop :=
  (∃ e ∈ session.pendingBytes.head?, KeyRefused E session.gates c.stateBus e) ∨
    NothingLeftOut E session c

theorem commitFiles_of_ne {uri : Bytes}
    (h : ∀ other ∈ session.pendingUris, ascii "file://" <+: other → uri ≠ other) :
    (commitFiles E session g).2.2.s.stateBus uri = g.s.stateBus uri := by
  have hrun := gatedRun_of_ne (E := E) h g
  unfold commitFiles
  dsimp only
  split
  · rfl
  split
  · exact hrun
  · exact hrun

theorem memUri_not_file (key : Bytes) : ¬ascii "file://" <+: memUri key := by
  intro h
  obtain ⟨rest, hrest⟩ := h
  have hfirst := congrArg List.head? hrest
  exact absurd hfirst (by simp [memUri, ascii])

theorem commitFiles_memUri (key : Bytes) :
    (commitFiles E session g).2.2.s.stateBus (memUri key) = g.s.stateBus (memUri key) := by
  apply commitFiles_of_ne
  rintro other - hfile rfl
  exact memUri_not_file key hfile

theorem commitFiles_status (E : SessionEnv ρ σ) (session : ConfigReloadSession σ)
    (g : Gated (CommitState σ)) :
    (commitFiles E session g).2.1.status =
      if (commitFiles E session g).1 then .success else .failed := by
  unfold commitFiles
  dsimp only
  split
  · rfl
  split
  · exact addUris_status session.pendingUris {} (sessionController session)
  · rfl

theorem commitFiles_ok (hnone : g.passed = []) (h : (commitFiles E session g).1 = true) :
    (∀ uri ∈ session.pendingUris.take 8, ∃ readFn ∈ (filesCtrl E session).readFn,
      Filed E session readFn (commitFiles E session g).2.2 uri) ∧
      ∀ p ∈ (commitFiles E session g).2.2.passed, p.1 ∈ session.pendingUris.take 8 := by
  unfold commitFiles at h ⊢
  dsimp only at h ⊢
  split
  · rename_i hempty
    rw [hempty]
    constructor
    · simp
    · simp [hnone]
  · rename_i huris
    rw [if_neg huris] at h
    split
    · rename_i hok
      obtain ⟨⟨readFn, hread, hfiled⟩, hpassed⟩ := gatedRun_ok hnone hok.1 hok.2
      exact ⟨fun uri huri => ⟨readFn, hread, hfiled uri huri⟩, hpassed⟩
    · rename_i hnot
      rw [if_neg hnot] at h
      cases h

theorem ne_nil_of_isRead {readFn : ReloadPathReadFn (Gated (CommitState σ))} {uri data : Bytes}
    (hreads : NoEmptyReads session) (hmem : readFn ∈ (filesCtrl E session).readFn)
    (hread : IsRead readFn uri data)
    (hgate : sessionGate E.parser session.gates data = reloadGateOk) : data ≠ [] := by
  rintro rfl
  rcases hreads with hgates | hreads
  · rw [sessionGate, if_neg (by simp [hgates]), if_pos rfl] at hgate
    cases hgate
  · obtain ⟨callback, hcallback, rfl⟩ := Option.map_eq_some_iff.mp hmem
    rw [sessionCall, addUris_ctrl] at hcallback
    obtain ⟨user, huser, rfl⟩ := Option.map_eq_some_iff.mp hcallback
    obtain ⟨g, hg⟩ := hread
    unfold sessionReadFn gatedFrame StateFrame.lift at hg
    dsimp only at hg
    split at hg
    · obtain ⟨e, he, hdata⟩ := Option.map_eq_some_iff.mp hg
      exact session.bytesNonempty e (List.mem_of_find?_eq_some he) hdata
    · exact hreads user huser uri _ hg

abbrev afterFiles (E : SessionEnv ρ σ) (session : ConfigReloadSession σ) (results : GateResults)
    (c : CommitState σ) : Gated (CommitState σ) :=
  (commitFiles E session { results := results, s := c }).2.2

abbrev FilesGoWell (E : SessionEnv ρ σ) (session : ConfigReloadSession σ) (results : GateResults)
    (c : CommitState σ) : Prop :=
  (commitFiles E session { results := results, s := c }).1 = true

theorem commit_of_files (hadded : ¬(session.pendingBytes = [] ∧ session.pendingUris = []))
    (h : FilesGoWell E session results c) :
    commit E session results c = commitMems E session.gates session.pendingBytes
      (commitFiles E session { results := results, s := c }).2.1
      (afterFiles E session results c) := by
  unfold commit
  dsimp only
  rw [if_neg hadded, if_neg (by simp [h])]

theorem honest_of_not_files (h : ¬FilesGoWell E session results c) :
    Honest E session results c := by
  have hstatus := commitFiles_status E session { results := results, s := c }
  rw [if_neg h] at hstatus
  have hcommit : (commit E session results c).1.status = .failed ∧
      ∀ e ∈ session.pendingBytes,
        (commit E session results c).2.s.stateBus (memUri e.1) = c.stateBus (memUri e.1) := by
    unfold commit
    dsimp only
    split
    · exact ⟨rfl, fun _ _ => rfl⟩
    · rw [if_pos (by simpa using h)]
      exact ⟨hstatus, fun e _ => commitFiles_memUri e.1⟩
  constructor
  · intro hsuccess
    rw [hcommit.1] at hsuccess
    cases hsuccess
  · intro hsuccess
    rw [hcommit.1] at hsuccess
    cases hsuccess
  · exact fun _ => hcommit.2

theorem keyRefused_afterFiles (results : GateResults) (e : Bytes × Bytes) :
    KeyRefused E session.gates (afterFiles E session results c).s.stateBus e ↔
      KeyRefused E session.gates c.stateBus e :=
  keyRefused_congr (commitFiles_memUri e.1)

theorem keys_distinct (session : ConfigReloadSession σ) :
    session.pendingBytes.Pairwise fun e e' => e.1 ≠ e'.1 :=
  session.sorted.imp fun h => h.2

theorem success_of_files (h : FilesGoWell E session results c) :
    (commitFiles E session { results := results, s := c }).2.1.status = .success := by
  rw [commitFiles_status, if_pos h]

theorem honest_of_refused (hfiles : FilesGoWell E session results c) {e : Bytes × Bytes}
    {rest : List (Bytes × Bytes)} (hkeys : session.pendingBytes = e :: rest)
    (h : KeyRefused E session.gates c.stateBus e) : Honest E session results c := by
  have hcommit := commit_of_files (by simp [hkeys]) hfiles
  rw [hkeys] at hcommit
  obtain ⟨hstatus, hs⟩ := commitMems_refused rest
    (commitFiles E session { results := results, s := c }).2.1
    ((keyRefused_afterFiles results e).mpr h)
  rw [← hcommit] at hstatus hs
  constructor
  · intro hsuccess
    rw [hstatus] at hsuccess
    cases hsuccess
  · intro hsuccess
    rw [hstatus] at hsuccess
    cases hsuccess
  · intro _ e' _
    rw [hs]
    exact commitFiles_memUri e'.1

theorem lookupUri_file {uri : Bytes} (h : ascii "file://" <+: uri) : lookupUri uri = uri :=
  if_pos (h.subset (by decide))

theorem lookupUri_memUri (key : Bytes) : lookupUri (memUri key) = memUri key :=
  if_pos (List.mem_append_left key (by decide))

theorem synced_of_passes (hadded : ¬(session.pendingBytes = [] ∧ session.pendingUris = []))
    (hfiles : FilesGoWell E session results c)
    (h : ∀ e ∈ session.pendingBytes, ¬KeyRefused E session.gates c.stateBus e) :
    (commit E session results c).1.status = .success ∧ ∀ e ∈ session.pendingBytes,
      lastPassed (commit E session results c).2.passed (memUri e.1) = some e.2 ∧
        getConfigByUri (commit E session results c).2.s (memUri e.1) = .ok e.2 := by
  have hpasses : ∀ e ∈ session.pendingBytes,
      ¬KeyRefused E session.gates (afterFiles E session results c).s.stateBus e := by
    intro e he
    rw [keyRefused_afterFiles]
    exact h e he
  rw [commit_of_files hadded hfiles]
  exact ⟨(commitMems_status (keys_distinct session) (success_of_files hfiles)).mpr hpasses,
    commitMems_synced (keys_distinct session) session.bytesNonempty hpasses⟩

theorem frame_of_not_key (hadded : ¬(session.pendingBytes = [] ∧ session.pendingUris = []))
    (hfiles : FilesGoWell E session results c) {uri : Bytes}
    (h : ∀ e ∈ session.pendingBytes, uri ≠ memUri e.1) :
    lastPassed (commit E session results c).2.passed uri =
        lastPassed (afterFiles E session results c).passed uri ∧
      getConfigByUri (commit E session results c).2.s uri =
        getConfigByUri (afterFiles E session results c).s uri := by
  rw [commit_of_files hadded hfiles]
  obtain ⟨news, hnews, hmem⟩ := commitMems_passed E session.gates session.pendingBytes
    (commitFiles E session { results := results, s := c }).2.1 (afterFiles E session results c)
  constructor
  · rw [hnews, lastPassed_append_right]
    intro p hp heq
    obtain ⟨e, he, huri⟩ := hmem p hp
    exact h e he (heq.symm.trans huri)
  · unfold getConfigByUri pinSnapshot
    rw [commitMems_of_ne h]

theorem getConfigByUri_key (hadded : ¬(session.pendingBytes = [] ∧ session.pendingUris = []))
    (hfiles : FilesGoWell E session results c)
    (h : ∀ e ∈ session.pendingBytes, ¬KeyRefused E session.gates c.stateBus e) {key : Bytes}
    (hkey : key ∉ session.pendingUris) :
    getConfigByUri (commit E session results c).2.s key = heldAfter session c key := by
  unfold heldAfter
  split
  · rename_i e hfind
    obtain rfl : memUri e.1 = key := by simpa using List.find?_some hfind
    exact ((synced_of_passes hadded hfiles h).2 e (List.mem_of_find?_eq_some hfind)).2
  · rename_i hfind
    have hnot : ∀ e ∈ session.pendingBytes, key ≠ memUri e.1 := by
      intro e he heq
      have hne := List.find?_eq_none.mp hfind e he
      exact hne (by simp [heq])
    rw [(frame_of_not_key hadded hfiles hnot).2]
    unfold getConfigByUri pinSnapshot
    rw [commitFiles_of_ne]
    rintro other hother - rfl
    exact hkey hother

theorem honest_of_nothingLeftOut
    (hadded : ¬(session.pendingBytes = [] ∧ session.pendingUris = []))
    (hfiles : FilesGoWell E session results c) (hreads : NoEmptyReads session)
    (h : NothingLeftOut E session c) : Honest E session results c := by
  obtain ⟨hstatus, hsynced⟩ := synced_of_passes hadded hfiles h.passes
  constructor
  · intro _ e he
    refine ⟨(hsynced e he).1, ?_⟩
    unfold getConfig lookupUri
    split
    · rename_i hcolon
      obtain ⟨hkey, hheld⟩ := h.found e he hcolon
      rw [getConfigByUri_key hadded hfiles h.passes hkey]
      exact hheld
    · exact (hsynced e he).2
  · intro _ uri huri
    rcases h.taken uri huri with htaken | ⟨e, he, rfl⟩
    · obtain ⟨readFn, hmem, hfile, data, hlast, hread, hgate, hconfig⟩ :=
        (commitFiles_ok rfl hfiles).1 uri htaken
      have hnot : ∀ e ∈ session.pendingBytes, uri ≠ memUri e.1 := by
        rintro e - rfl
        exact memUri_not_file e.1 hfile
      obtain ⟨hpassed, hsame⟩ := frame_of_not_key hadded hfiles hnot
      refine ⟨data, hpassed.trans hlast, ?_⟩
      rw [getConfig, lookupUri_file hfile, hsame]
      exact hconfig (ne_nil_of_isRead hreads hmem hread hgate)
    · refine ⟨e.2, (hsynced e he).1, ?_⟩
      rw [getConfig, lookupUri_memUri]
      exact (hsynced e he).2
  · intro hfailed
    rw [hstatus] at hfailed
    cases hfailed

theorem commitsWhole_of_honest (hfiles : FilesGoWell E session results c)
    (hdisjoint : ∀ e ∈ session.pendingBytes, e.1 ∉ session.pendingUris)
    (h : Honest E session results c) : CommitsWhole E session c := by
  by_cases hadded : session.pendingBytes = [] ∧ session.pendingUris = []
  · refine Or.inr ⟨?_, ?_, ?_⟩
    · simp [hadded.1]
    · simp [hadded.2]
    · simp [hadded.1]
  by_cases hfirst : ∃ e ∈ session.pendingBytes.head?, KeyRefused E session.gates c.stateBus e
  · exact Or.inl hfirst
  have hpasses : ∀ e ∈ session.pendingBytes, ¬KeyRefused E session.gates c.stateBus e := by
    by_contra hrefused
    have hfailed : (commit E session results c).1.status = .failed := by
      cases hstatus : (commit E session results c).1.status with
      | failed => rfl
      | success =>
          rw [commit_of_files hadded hfiles,
            commitMems_status (keys_distinct session) (success_of_files hfiles)] at hstatus
          refine absurd (fun e he => ?_) hrefused
          rw [← keyRefused_afterFiles results]
          exact hstatus e he
    cases hkeys : session.pendingBytes with
    | nil => exact hrefused (by simp [hkeys])
    | cons e rest =>
        have hhead : ¬KeyRefused E session.gates (afterFiles E session results c).s.stateBus e := by
          rw [keyRefused_afterFiles]
          exact fun hbad => hfirst ⟨e, by simp [hkeys], hbad⟩
        have hchanged := commitMems_changes
          (commitFiles E session { results := results, s := c }).2.1 (hkeys ▸ keys_distinct session) hhead
        have hsame := h.failed hfailed e (by simp [hkeys])
        rw [commit_of_files hadded hfiles, hkeys] at hsame
        have hfirstPhase : (afterFiles E session results c).s.stateBus (memUri e.1) =
            c.stateBus (memUri e.1) := commitFiles_memUri e.1
        exact hchanged (hsame.trans hfirstPhase.symm)
  obtain ⟨hstatus, hsynced⟩ := synced_of_passes hadded hfiles hpasses
  refine Or.inr ⟨hpasses, ?_, ?_⟩
  · intro uri huri
    by_cases hkey : ∃ e ∈ session.pendingBytes, uri = memUri e.1
    · exact Or.inr hkey
    · have hnot : ∀ e ∈ session.pendingBytes, uri ≠ memUri e.1 := fun e he heq =>
        hkey ⟨e, he, heq⟩
      obtain ⟨data, hlast, -⟩ := h.uris hstatus uri huri
      rw [(frame_of_not_key hadded hfiles hnot).1] at hlast
      obtain ⟨p, hp, rfl⟩ := mem_of_lastPassed hlast
      exact Or.inl ((commitFiles_ok rfl hfiles).2 p hp)
  · intro e he hcolon
    refine ⟨hdisjoint e he, ?_⟩
    rw [← getConfigByUri_key hadded hfiles hpasses (hdisjoint e he)]
    have hconfig := (h.keys hstatus e he).2
    rw [getConfig, lookupUri, if_pos hcolon] at hconfig
    exact hconfig

/-- **Commits.**  A commit is honest when its first key is refused or nothing that
was added is left out; where its files go well and no key is also a URI, only then. -/
theorem commit_honest (E : SessionEnv ρ σ) (session : ConfigReloadSession σ)
    (results : GateResults) (c : CommitState σ) (hreads : NoEmptyReads session) :
    (CommitsWhole E session c → Honest E session results c) ∧
      (FilesGoWell E session results c →
        (∀ e ∈ session.pendingBytes, e.1 ∉ session.pendingUris) →
        Honest E session results c → CommitsWhole E session c) := by
  refine ⟨fun hwhole => ?_, fun hfiles hdisjoint h => commitsWhole_of_honest hfiles hdisjoint h⟩
  by_cases hfiles : FilesGoWell E session results c
  · by_cases hadded : session.pendingBytes = [] ∧ session.pendingUris = []
    · constructor
      · simp [hadded.1]
      · simp [hadded.2]
      · simp [hadded.1]
    rcases hwhole with ⟨e, he, hrefused⟩ | hwhole
    · obtain ⟨rest, hkeys⟩ := List.head?_eq_some_iff.mp he
      exact honest_of_refused hfiles hkeys hrefused
    · exact honest_of_nothingLeftOut hadded hfiles hreads hwhole
  · exact honest_of_not_files hfiles

/-- A context on which everything goes well; every text parses to one instruction. -/
def fairEnv : SessionEnv Unit Unit where
  parser := oneInstruction
  env := { memoryEnv 0 with openStore := fun _ _ => (some { memoryOnly := true }, ()) }

def oneKey : ConfigReloadSession Unit where
  pendingBytes := [(ascii "a", [1])]
  sorted := by decide
  bytesNonempty := by decide
  urisNonempty := by decide
  urisNoNul := by decide

def twoKeys : ConfigReloadSession Unit where
  gates := { customGates := [fun data => if data = [1] then 0 else 1] }
  pendingBytes := [(ascii "a", [1]), (ascii "b", [2])]
  sorted := by decide
  bytesNonempty := by decide
  urisNonempty := by decide
  urisNoNul := by decide

def nineFiles : ConfigReloadSession Unit where
  pendingUris := (ascii "012345678").map fun digit => ascii "file://" ++ [digit]
  userReadFn := some fun _ _ => (some [1], ())
  sorted := by decide
  bytesNonempty := by decide
  urisNonempty := by decide
  urisNoNul := by decide

theorem oneKey_honest : Honest fairEnv oneKey {} { s := () } := by
  have hreads : NoEmptyReads oneKey := Or.inl rfl
  apply (commit_honest fairEnv oneKey {} { s := () } hreads).1
  refine Or.inr ⟨?_, ?_, ?_⟩
  · intro e he
    obtain rfl := List.mem_singleton.mp he
    rw [KeyRefused, SyncRefused]
    decide
  · simp [oneKey]
  · decide

/-- The commit of `twoKeys` fails with the first key changed; that of `nineFiles`
succeeds, and the ninth file has passed no gate. -/
theorem commit_dishonest :
    ¬Honest fairEnv twoKeys {} { s := () } ∧ ¬Honest fairEnv nineFiles {} { s := () } := by
  constructor
  · intro h
    have hsame := h.failed (by decide) (ascii "a", [1]) (by decide)
    exact absurd hsame (by decide)
  · intro h
    have hninth : ascii "file://8" ∈ nineFiles.pendingUris := by decide
    have hsuccess : (commit fairEnv nineFiles {} { s := () }).1.status = .success := by
      decide +kernel
    obtain ⟨data, hlast, -⟩ := h.uris hsuccess (ascii "file://8") hninth
    have hnone : lastPassed (commit fairEnv nineFiles {} { s := () }).2.passed
        (ascii "file://8") = none := by decide +kernel
    rw [hnone] at hlast
    cases hlast

end BlessStar.Sdk.Proofs.CommitHonesty
