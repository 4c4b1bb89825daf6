import BlessStar.Sdk.SessionReader

/-!
# What a session reader returns

The entries that outlive the comparison of the versions say what the gate cache
says, as long as nothing is set behind the back of the version.
-/

namespace BlessStar.Sdk.Proofs.ReaderTransparency

open Lib.ByteString Lib.LruCache Lib.Transition Session
  ConfigSessionReader

variable {r : ConfigSessionReader} {ctx : GateResults} {t : ReaderRun}

theorem watched_of_lt (h : r.lastVersion < ctx.hotUpdateVersion) : r.watched ctx = r.refresh ctx :=
  if_pos h

theorem watched_of_not_lt (h : ¬r.lastVersion < ctx.hotUpdateVersion) : r.watched ctx = r :=
  if_neg h

theorem watched_version (r : ConfigSessionReader) (ctx : GateResults) :
    ¬(r.watched ctx).lastVersion < ctx.hotUpdateVersion := by
  by_cases h : r.lastVersion < ctx.hotUpdateVersion
  · rw [watched_of_lt h]
    exact UInt64.lt_irrefl ctx.hotUpdateVersion
  · rwa [watched_of_not_lt h]

def Agrees (t : ReaderRun) : Prop :=
  ∀ kv ∈ (t.reader.watched t.ctx).list, ∃ asked,
    t.asked kv.1 = some asked ∧ currentInstruction t.ctx asked.1 asked.2 = some kv.2

theorem mem_getInstruction {pathKey instrName : Bytes} {kv : Bytes × IRInstruction}
    (h : kv ∈ (r.getInstruction ctx pathKey instrName).2.list) :
    kv ∈ (r.watched ctx).list ∨ (kv.1 = makeKey pathKey instrName ∧
      (r.watched ctx).list.find (makeKey pathKey instrName) = none ∧
        currentInstruction ctx pathKey instrName = some kv.2) := by
  unfold getInstruction at h
  dsimp only at h
  split at h
  · exact Or.inl (Lru.mem_of_mem_touch h)
  · rename_i hfind
    split at h
    · exact Or.inl h
    · rename_i matched hmatched
      rcases Lru.mem_of_mem_put h with rfl | h
      · exact Or.inr ⟨rfl, hfind, hmatched⟩
      · exact Or.inl h

theorem getInstruction_lastVersion (r : ConfigSessionReader) (ctx : GateResults)
    (pathKey instrName : Bytes) :
    (r.getInstruction ctx pathKey instrName).2.lastVersion = (r.watched ctx).lastVersion := by
  unfold getInstruction
  dsimp only
  split
  · rfl
  · split <;> rfl

theorem ne_none_of_mem {c : Lru Bytes IRInstruction} {kv : Bytes × IRInstruction} (h : kv ∈ c) :
    c.find kv.1 ≠ none := by
  intro hnone
  have hfind := List.find?_eq_none.mp (Option.map_eq_none_iff.mp hnone) kv h
  exact hfind (by simp)

theorem agrees_getInstruction (h : Agrees t) {pathKey instrName : Bytes}
    (hfollowed : Followed t (.getInstruction pathKey instrName)) :
    Agrees (readerStep t (.getInstruction pathKey instrName)) := by
  have hversion : ¬(t.reader.getInstruction t.ctx pathKey instrName).2.lastVersion <
      t.ctx.hotUpdateVersion := by
    rw [getInstruction_lastVersion]
    exact watched_version t.reader t.ctx
  intro kv hkv
  have hlist : kv ∈ (t.reader.getInstruction t.ctx pathKey instrName).2.list := by
    have hwatched := watched_of_not_lt hversion
    rw [← hwatched]
    exact hkv
  show ∃ asked, Function.update t.asked _ _ kv.1 = some asked ∧ _
  by_cases hkey : kv.1 = makeKey pathKey instrName
  · rw [hkey, Function.update_self]
    refine ⟨(pathKey, instrName), rfl, ?_⟩
    rcases mem_getInstruction hlist with hold | ⟨-, -, hnew⟩
    · obtain ⟨asked, hasked, hcurrent⟩ := h kv hold
      have hsame := hfollowed (hkey ▸ ne_none_of_mem hold)
      rw [← hkey, hasked, Option.some.injEq] at hsame
      rw [hsame] at hcurrent
      exact hcurrent
    · exact hnew
  · rw [Function.update_of_ne hkey]
    rcases mem_getInstruction hlist with hold | ⟨heq, -⟩
    · exact h kv hold
    · exact absurd heq hkey

theorem agrees_update (h : Agrees t) {ctx : GateResults}
    (hctx : t.reader.lastVersion < ctx.hotUpdateVersion ∨
      ctx.hotUpdateVersion = t.ctx.hotUpdateVersion ∧
        ∀ kv ∈ (t.reader.watched t.ctx).list, ∀ asked ∈ t.asked kv.1,
          currentInstruction ctx asked.1 asked.2 = currentInstruction t.ctx asked.1 asked.2) :
    Agrees { t with ctx := ctx } := by
  intro kv hkv
  by_cases hlt : t.reader.lastVersion < ctx.hotUpdateVersion
  · have hwatched : t.reader.watched ctx = t.reader.refresh ctx := watched_of_lt hlt
    have hnil : kv ∈ (t.reader.refresh ctx).list := hwatched ▸ hkv
    exact absurd hnil List.not_mem_nil
  · obtain ⟨hversion, hsame⟩ := hctx.resolve_left hlt
    have hold : kv ∈ (t.reader.watched t.ctx).list := by
      have hwatched := watched_of_not_lt hlt
      rw [hversion] at hlt
      rw [watched_of_not_lt hlt, ← hwatched]
      exact hkv
    obtain ⟨asked, hasked, hcurrent⟩ := h kv hold
    exact ⟨asked, hasked, (hsame kv hold asked hasked).trans hcurrent⟩

theorem agrees_of_reachable (h : readerMachine.ReachableMeeting Followed t) : Agrees t := by
  refine h.invariant ?_ ?_
  · intro kv hkv
    exact absurd hkv (by simp [readerMachine, watched])
  · rintro t e t' hagrees hfollowed hstep
    cases hstep
    cases e with
    | reloadRun gated allOk => exact agrees_update hagrees hfollowed
    | sessionCommit files mems => exact agrees_update hagrees hfollowed
    | getInstruction pathKey instrName => exact agrees_getInstruction hagrees hfollowed
    | refresh =>
        intro kv hkv
        have hwatched : (t.reader.refresh t.ctx).watched t.ctx = t.reader.refresh t.ctx :=
          watched_of_not_lt (UInt64.lt_irrefl t.ctx.hotUpdateVersion)
        have hnil : kv ∈ (t.reader.refresh t.ctx).list := hwatched ▸ hkv
        exact absurd hnil List.not_mem_nil

/-- The reader returns the first instruction of the name in the current list, in
every run whose calls are followed. -/
theorem getInstruction_eq_current (h : readerMachine.ReachableMeeting Followed t)
    {pathKey instrName : Bytes} (hfollowed : Followed t (.getInstruction pathKey instrName)) :
    (t.reader.getInstruction t.ctx pathKey instrName).1 =
      currentInstruction t.ctx pathKey instrName := by
  unfold getInstruction
  dsimp only
  cases hfind : (t.reader.watched t.ctx).list.find (makeKey pathKey instrName) with
  | some value =>
      obtain ⟨asked, hasked, hcurrent⟩ := agrees_of_reachable h _ (Lru.mem_of_find hfind)
      have hsame := hfollowed (by simp [hfind])
      rw [hasked, Option.some.injEq] at hsame
      rw [hsame] at hcurrent
      exact hcurrent.symm
  | none => cases currentInstruction t.ctx pathKey instrName <;> rfl

/-- An instruction `i` of version `v`. -/
def instructionOf (v : UInt64) : IRInstruction := ⟨none, some (ascii "i"), [], v, 0⟩

def twoRuns : List ReaderCall :=
  [.reloadRun [(ascii "p", [instructionOf 1])] true, .getInstruction (ascii "p") (ascii "i"),
    .reloadRun [(ascii "p", [instructionOf 2])] true]

/-- The reader follows the second run. -/
theorem current_after_twoRuns :
    ∃ t, readerMachine.run readerMachine.init twoRuns = some t ∧
      (t.reader.getInstruction t.ctx (ascii "p") (ascii "i")).1 =
        currentInstruction t.ctx (ascii "p") (ascii "i") := by
  have hmeets : readerMachine.RunMeets Followed readerMachine.init twoRuns :=
    ⟨Or.inl (by decide), fun h => absurd rfl h, Or.inl (by decide), trivial⟩
  have hreach := Machine.ReachableMeeting.run (.init readerMachine _) hmeets rfl
  exact ⟨_, rfl, getInstruction_eq_current hreach fun h => absurd rfl h⟩

/-- A commit of keys in memory makes no version; the reader keeps the old instruction. -/
theorem stale_after_commit :
    ∃ t, readerMachine.run readerMachine.init
        [.sessionCommit none [(ascii "mem://k", [instructionOf 1])],
          .getInstruction (ascii "mem://k") (ascii "i"),
          .sessionCommit none [(ascii "mem://k", [instructionOf 2])]] = some t ∧
      (t.reader.getInstruction t.ctx (ascii "mem://k") (ascii "i")).1 = some (instructionOf 1) ∧
      currentInstruction t.ctx (ascii "mem://k") (ascii "i") = some (instructionOf 2) :=
  ⟨_, rfl, by decide, by decide⟩

end BlessStar.Sdk.Proofs.ReaderTransparency
