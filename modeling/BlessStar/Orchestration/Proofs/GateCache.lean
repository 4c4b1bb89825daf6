import BlessStar.Orchestration.GatedRun
import BlessStar.Orchestration.Proofs.ReloadOutcome
import BlessStar.Orchestration.Proofs.RunInvariant

/-!
# What the gate cache holds

Nothing but the gating of a path touches the cache, so that after any runs it
holds, of each URI, what the gate let pass last.
-/

namespace BlessStar.Orchestration.Proofs.GateCache

open Lib.ByteString Lib.Transition Persistence
open Session Orchestration Orchestration.Proofs.RunInvariant
open Orchestration.Proofs.ReloadOutcome

variable {ρ σ : Type} {P : ConfigParser ρ} {g : Gated σ}

def Tracks (P : ConfigParser ρ) (g : Gated σ) : Prop :=
  ∀ uri, g.results.getGateResult uri = lastParsed P g.passed uri

theorem toOption_of_gatePathWork {gateFn : Option (ReloadPathGateFn σ)} {poolReady : Bool}
    {uri data : Bytes} {s : σ} {instructions : Option IRInstructionList}
    (h : (gatePathWork P gateFn poolReady uri data s).1 = some instructions) :
    (parseAndVerifyBytes P data).toOption = instructions := by
  unfold gatePathWork at h
  split at h
  · dsimp only at h
    split at h
    · cases h
    · exact Option.some.inj h
  · split at h
    · cases h
    · rename_i list hparse
      have hlist : (parseAndVerifyBytes P data).toOption = some list := by
        rw [hparse]
        rfl
      split at h
      · rw [hlist]
        exact Option.some.inj h
      · dsimp only at h
        split at h
        · cases h
        · rw [hlist]
          exact Option.some.inj h

theorem lastParsed_cons_of_ne {uri other data : Bytes} (passed : List (Bytes × Bytes))
    (h : other ≠ uri) : lastParsed P ((other, data) :: passed) uri = lastParsed P passed uri := by
  rw [lastParsed, List.findSome?_cons, if_neg h]
  rfl

theorem lastParsed_cons_self {uri data : Bytes} (passed : List (Bytes × Bytes)) :
    lastParsed P ((uri, data) :: passed) uri =
      ((parseAndVerifyBytes P data).toOption).or (lastParsed P passed uri) := by
  rw [lastParsed, List.findSome?_cons, if_pos rfl]
  cases (parseAndVerifyBytes P data).toOption <;> rfl

theorem tracks_gatePath (call : BatchCall σ) (uri data : Bytes) (h : Tracks P g) :
    Tracks P (gatePath P call uri data g).2 := by
  have hparsed : ∀ instructions,
      (gatePathWork P call.gateFn (call.env.poolWarmed g.s) uri data g.s).1 = some instructions →
        (parseAndVerifyBytes P data).toOption = instructions :=
    fun _ hgate => toOption_of_gatePathWork hgate
  unfold gatePath
  dsimp only
  split
  · exact h
  · rename_i hgate
    intro other
    by_cases hsame : uri = other
    · subst hsame
      rw [lastParsed_cons_self, hparsed none hgate]
      exact h uri
    · rw [lastParsed_cons_of_ne g.passed hsame]
      exact h other
  · rename_i instructions hgate
    intro other
    by_cases hsame : uri = other
    · subst hsame
      rw [lastParsed_cons_self, hparsed (some instructions) hgate]
      exact Function.update_self uri (some instructions) g.results.gateCache
    · rw [lastParsed_cons_of_ne g.passed hsame, ← h other]
      exact Function.update_of_ne (Ne.symm hsame) (some instructions) g.results.gateCache

theorem env_keeps (call : BatchCall σ) :
    EnvKeeps (fun _ => True) (Tracks P) (call.gatedEnv P) := by
  have h : EnvKeeps (fun _ => True) (Tracks P) (call.env.frame (gatedFrame σ)) :=
    envKeeps_frame (fun _ _ h => h) call.env
  exact
    { h with
      pool := { h.pool with }
      gatePathWork := fun uri data _ h => tracks_gatePath call uri data h }

theorem tracks_gatedRun (call : BatchCall σ) (h : Tracks P g) :
    Tracks P (gatedRun P call g).2.2 := by
  have hrun : Tracks P
      (reloadBatchRun (call.gatedEnv P) (call.ctrl.frame (gatedFrame σ)) g).2.2 := by
    apply keeps_reloadBatchRun (env_keeps call) _ (fun _ _ => trivial) (fun _ _ _ => trivial) h
    intro readFn hread uri s hs
    obtain ⟨callback, -, rfl⟩ := Option.map_eq_some_iff.mp hread
    exact hs
  unfold gatedRun
  dsimp only
  split
  · exact hrun
  · exact hrun

/-- **The gate cache.**  After any runs, whatever became of them, the result of
each URI is the parse of the last of its bytes that a gate has let pass, among
those that parse and verify. -/
theorem getGateResult_eq_lastParsed (P : ConfigParser ρ) (s : σ)
    (h : (batchMachine P s).ReachableMeeting FreshPaths g) (uri : Bytes) :
    g.results.getGateResult uri = lastParsed P g.passed uri := by
  have htracks : Tracks P g := by
    refine h.invariant (fun _ => rfl) ?_
    intro g call g' htracks _ hstep
    cases hstep
    exact tracks_gatedRun call htracks
  exact htracks uri

def oneInstruction : ConfigParser Unit where
  parseBytes data := some ([⟨none, some data, [], 0, 0⟩], ())
  verifyInstructions _ _ := true

theorem not_zero_mem_fileB : (0 : UInt8) ∉ ascii "file://b" := by decide

/-- Two paths, of which only `file://a` can be read, with a fresh store in memory. -/
def unreadable : BatchCall Unit where
  env := memoryEnv 0
  ctrl :=
    { paths := [{ uri := ascii "file://a", noNul := not_zero_mem_fileA },
        { uri := ascii "file://b", noNul := not_zero_mem_fileB }]
      readFn := some fun uri _ => (if uri = ascii "file://a" then some [1] else none, ())
      scheme := .perBatch
      attachStore := some { memoryOnly := true } }

theorem getGateResult_unreadable :
    (gatedRun oneInstruction unreadable { s := () }).2.2.results.getGateResult (ascii "file://a") =
      lastParsed oneInstruction (gatedRun oneInstruction unreadable { s := () }).2.2.passed
        (ascii "file://a") := by
  have hmeets : (batchMachine oneInstruction ()).RunMeets FreshPaths { s := () } [unreadable] :=
    ⟨by simp [FreshPaths, unreadable], trivial⟩
  exact getGateResult_eq_lastParsed oneInstruction ()
    (Machine.ReachableMeeting.run (.init (batchMachine oneInstruction ()) _) hmeets rfl) _

/-- The batch is aborted and nothing of it is committed, and yet its first path has
a gate result. -/
theorem aborted_batch_has_result :
    (gatedRun oneInstruction unreadable { s := () }).2.1.attachStore.map
        (·.manifest.revisionOf (ascii "file://a")) = some 0 ∧
      (∀ w ∈ (gatedRun oneInstruction unreadable { s := () }).2.1.paths, w.state ≠ .committed) ∧
      (gatedRun oneInstruction unreadable { s := () }).2.2.results.getGateResult
        (ascii "file://a") = some [⟨none, some [1], [], 0, 0⟩] := by
  refine ⟨by decide, ?_, by decide⟩
  intro w hw
  have hall : (gatedRun oneInstruction unreadable { s := () }).2.1.paths.all
      (fun w => w.state ≠ .committed) = true := by decide
  simpa using List.all_eq_true.mp hall w hw

end BlessStar.Orchestration.Proofs.GateCache
