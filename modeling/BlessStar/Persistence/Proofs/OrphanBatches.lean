import BlessStar.Persistence.Proofs.StoreFiles
import BlessStar.Persistence.Proofs.WalCorruption

/-!
# Which batches recovery takes for orphans

Recovery compares an epoch with the manifest's and with the highest committed
one it has met, and notes phase marks in a table of limited size.  What it
removes and reports is set beside what the commits of the log say.
-/

namespace BlessStar.Persistence.Proofs.OrphanBatches

open Lib.ByteString Persistence
open Persistence.Crc32 Persistence.Wal
open WalGrammar WalRoundTrip WalCorruption

/-! ## Phase marks -/

def addMarked (epochs : List UInt64) : WalAppend → List UInt64
  | .phaseMark epoch _ _ => if epoch ∈ epochs then epochs else epochs ++ [epoch]
  | .batch _ _ => epochs
  | .committed _ => epochs

def markedEpochs (as : List WalAppend) : List UInt64 := as.foldl addMarked []

def Tracked (as : List WalAppend) (epoch : UInt64) : Prop :=
  epoch ∈ (markedEpochs as).take walMaxPhaseTrack

def ExecMarked (as : List WalAppend) (epoch : UInt64) : Prop :=
  ∃ phase uriSetHash, .phaseMark epoch phase uriSetHash ∈ as ∧ walPhaseExec ≤ phase

theorem mem_markedEpochs {as : List WalAppend} {epoch : UInt64} :
    epoch ∈ markedEpochs as ↔ ∃ phase uriSetHash, .phaseMark epoch phase uriSetHash ∈ as := by
  induction as using List.reverseRecOn with
  | nil => simp [markedEpochs]
  | append_singleton as a ih =>
      have hstep : markedEpochs (as ++ [a]) = addMarked (markedEpochs as) a := by
        rw [markedEpochs, List.foldl_append]
        rfl
      rw [hstep]
      cases a with
      | phaseMark e phase uriSetHash =>
          have hadd : epoch ∈ addMarked (markedEpochs as) (.phaseMark e phase uriSetHash) ↔
              epoch ∈ markedEpochs as ∨ epoch = e := by
            rw [addMarked]
            split
            · rename_i hold
              exact ⟨Or.inl, fun h => h.elim id fun he => he ▸ hold⟩
            · rw [List.mem_append, List.mem_singleton]
          rw [hadd, ih]
          constructor
          · rintro (⟨p, h, hmem⟩ | rfl)
            · exact ⟨p, h, List.mem_append_left _ hmem⟩
            · exact ⟨phase, uriSetHash, by simp⟩
          · rintro ⟨p, h, hmem⟩
            rcases List.mem_append.mp hmem with hmem | hmem
            · exact Or.inl ⟨p, h, hmem⟩
            · simp only [List.mem_singleton, WalAppend.phaseMark.injEq] at hmem
              exact Or.inr hmem.1
      | batch e entries =>
          rw [addMarked, ih]
          simp
      | committed e =>
          rw [addMarked, ih]
          simp

theorem phaseTrackRaise_some {epoch : UInt64} {phase : UInt32} {tracks : List (UInt64 × UInt32)} :
    ∀ {tracks'}, phaseTrackRaise epoch phase tracks = some tracks' →
      tracks'.map Prod.fst = tracks.map Prod.fst ∧ epoch ∈ tracks.map Prod.fst ∧
        ∀ e, tracks'.lookup e =
          if e = epoch then (tracks.lookup epoch).map fun p => if p < phase then phase else p
          else tracks.lookup e := by
  induction tracks with
  | nil => exact fun h => by cases h
  | cons t ts ih =>
      intro tracks' h
      obtain ⟨k, q⟩ := t
      rw [phaseTrackRaise] at h
      dsimp only at h
      by_cases hk : k = epoch
      · subst hk
        rw [if_pos rfl] at h
        cases h
        refine ⟨rfl, List.mem_cons_self, fun e => ?_⟩
        by_cases he : e = k
        · subst he
          rw [if_pos rfl, List.lookup_cons_self, List.lookup_cons_self]
          rfl
        · have hbeq : (e == k) = false := by simpa using he
          rw [if_neg he, List.lookup_cons, List.lookup_cons, hbeq]
      · rw [if_neg hk] at h
        obtain ⟨ts', hts, rfl⟩ := Option.map_eq_some_iff.mp h
        obtain ⟨hkeys, hmem, hlookup⟩ := ih hts
        refine ⟨by rw [List.map_cons, List.map_cons, hkeys], List.mem_cons_of_mem _ hmem,
          fun e => ?_⟩
        have hepoch : (epoch == k) = false := by simpa using Ne.symm hk
        rw [List.lookup_cons, List.lookup_cons, List.lookup_cons, hlookup e, hepoch]
        by_cases he : e = k
        · subst he
          simp [hk]
        · have hbeq : (e == k) = false := by simpa using he
          rw [hbeq]

theorem phaseTrackRaise_none {epoch : UInt64} {phase : UInt32} {tracks : List (UInt64 × UInt32)}
    (h : phaseTrackRaise epoch phase tracks = none) : epoch ∉ tracks.map Prod.fst := by
  induction tracks with
  | nil => simp
  | cons t ts ih =>
      rw [phaseTrackRaise] at h
      split at h
      · cases h
      · rename_i hne
        rw [List.map_cons, List.mem_cons, not_or]
        exact ⟨Ne.symm hne, ih (Option.map_eq_none_iff.mp h)⟩

theorem lookup_isSome_iff {tracks : List (UInt64 × UInt32)} {epoch : UInt64} :
    (tracks.lookup epoch).isSome ↔ epoch ∈ tracks.map Prod.fst := by
  induction tracks with
  | nil => simp
  | cons t ts ih =>
      obtain ⟨k, q⟩ := t
      rw [List.lookup_cons, List.map_cons, List.mem_cons, ← ih]
      by_cases h : epoch = k
      · subst h
        simp
      · have hbeq : (epoch == k) = false := by simpa using h
        rw [hbeq]
        simp [h]

structure Tracks (as : List WalAppend) (tracks : List (UInt64 × UInt32)) : Prop where
  keys : tracks.map Prod.fst = (markedEpochs as).take walMaxPhaseTrack
  exec : ∀ e p, tracks.lookup e = some p → (walPhaseExec ≤ p ↔ ExecMarked as e)

theorem execMarked_snoc {as : List WalAppend} {a : WalAppend} {e : UInt64} :
    ExecMarked (as ++ [a]) e ↔
      ExecMarked as e ∨
        ∃ phase uriSetHash, a = .phaseMark e phase uriSetHash ∧ walPhaseExec ≤ phase := by
  unfold ExecMarked
  constructor
  · rintro ⟨phase, h, hmem, hexec⟩
    rcases List.mem_append.mp hmem with hmem | hmem
    · exact Or.inl ⟨phase, h, hmem, hexec⟩
    · exact Or.inr ⟨phase, h, (List.mem_singleton.mp hmem).symm, hexec⟩
  · rintro (⟨phase, h, hmem, hexec⟩ | ⟨phase, h, rfl, hexec⟩)
    · exact ⟨phase, h, List.mem_append_left _ hmem, hexec⟩
    · exact ⟨phase, h, by simp, hexec⟩

theorem max_phase_iff (q p phase : UInt32) :
    q ≤ (if p < phase then phase else p) ↔ q ≤ p ∨ q ≤ phase := by
  simp only [UInt32.le_iff_toNat_le, UInt32.lt_iff_toNat_lt]
  split <;> omega

theorem Tracks.mark {as : List WalAppend} {tracks : List (UInt64 × UInt32)} (h : Tracks as tracks)
    {epoch : UInt64} {phase uriSetHash : UInt32} (hepoch : epoch ≠ 0) :
    Tracks (as ++ [.phaseMark epoch phase uriSetHash]) (walPhaseTrackUpdate tracks epoch phase) := by
  have hstep : markedEpochs (as ++ [.phaseMark epoch phase uriSetHash]) =
      if epoch ∈ markedEpochs as then markedEpochs as else markedEpochs as ++ [epoch] := by
    rw [markedEpochs, List.foldl_append]
    rfl
  have hlen := congrArg List.length h.keys
  rw [List.length_map, List.length_take] at hlen
  have hother : ∀ e, e ≠ epoch →
      (ExecMarked (as ++ [.phaseMark epoch phase uriSetHash]) e ↔ ExecMarked as e) := by
    intro e he
    rw [execMarked_snoc]
    refine or_iff_left ?_
    rintro ⟨p, u, heq, -⟩
    simp only [WalAppend.phaseMark.injEq] at heq
    exact he heq.1.symm
  have hself : ExecMarked (as ++ [.phaseMark epoch phase uriSetHash]) epoch ↔
      ExecMarked as epoch ∨ walPhaseExec ≤ phase := by
    rw [execMarked_snoc]
    refine or_congr_right ⟨?_, fun hexec => ⟨phase, uriSetHash, rfl, hexec⟩⟩
    rintro ⟨p, u, heq, hexec⟩
    simp only [WalAppend.phaseMark.injEq] at heq
    rw [heq.2.1]
    exact hexec
  unfold walPhaseTrackUpdate
  rw [if_neg hepoch]
  cases hraise : phaseTrackRaise epoch phase tracks with
  | some tracks' =>
      obtain ⟨hkeys, hmem, hlookup⟩ := phaseTrackRaise_some hraise
      dsimp only
      have hold : epoch ∈ markedEpochs as := by
        rw [h.keys] at hmem
        exact List.mem_of_mem_take hmem
      refine ⟨by rw [hkeys, h.keys, hstep, if_pos hold], fun e p hp => ?_⟩
      rw [hlookup e] at hp
      by_cases he : e = epoch
      · subst he
        rw [if_pos rfl] at hp
        obtain ⟨q, hq, rfl⟩ := Option.map_eq_some_iff.mp hp
        rw [max_phase_iff, h.exec e q hq, hself]
      · rw [if_neg he] at hp
        rw [h.exec e p hp, hother e he]
  | none =>
      have hnew := phaseTrackRaise_none hraise
      dsimp only
      by_cases hfull : walMaxPhaseTrack ≤ tracks.length
      · rw [if_pos hfull]
        refine ⟨?_, fun e p hp => ?_⟩
        · rw [h.keys, hstep]
          split
          · rfl
          · rw [List.take_append_of_le_length (by omega)]
        · have he : e ≠ epoch := by
            rintro rfl
            exact hnew (lookup_isSome_iff.mp (by rw [hp]; rfl))
          rw [h.exec e p hp, hother e he]
      · rw [if_neg hfull]
        have hall : (markedEpochs as).take walMaxPhaseTrack = markedEpochs as :=
          List.take_of_length_le (by omega)
        have hfresh : epoch ∉ markedEpochs as := by
          rw [← hall, ← h.keys]
          exact hnew
        have hsize : (markedEpochs as).length = tracks.length := by
          rw [← hall, ← h.keys, List.length_map]
        refine ⟨?_, fun e p hp => ?_⟩
        · rw [List.map_append, h.keys, hall, hstep, if_neg hfresh,
            List.take_of_length_le (by rw [List.length_append, List.length_singleton]; omega)]
          rfl
        · rw [List.lookup_append] at hp
          by_cases he : e = epoch
          · subst he
            have hnone : tracks.lookup e = none := by
              rw [← Option.not_isSome_iff_eq_none, lookup_isSome_iff]
              exact hnew
            rw [hnone, Option.none_or, List.lookup_cons_self] at hp
            cases hp
            have hunmarked : ¬ExecMarked as e := by
              rintro ⟨q, u, hmem, -⟩
              exact hfresh (mem_markedEpochs.mpr ⟨q, u, hmem⟩)
            rw [hself]
            exact (or_iff_right hunmarked).symm
          · have hnone : List.lookup e [(epoch, phase)] = none := by
              rw [List.lookup_cons]
              have hbeq : (e == epoch) = false := by simpa using he
              rw [hbeq]
              rfl
            rw [hnone, Option.or_none] at hp
            rw [h.exec e p hp, hother e he]

theorem Tracks.quiet {as : List WalAppend} {tracks : List (UInt64 × UInt32)} (h : Tracks as tracks)
    {a : WalAppend} (ha : ∀ epoch phase uriSetHash, a ≠ .phaseMark epoch phase uriSetHash) :
    Tracks (as ++ [a]) tracks := by
  have hstep : markedEpochs (as ++ [a]) = markedEpochs as := by
    rw [markedEpochs, List.foldl_append]
    cases a with
    | phaseMark e p u => exact absurd rfl (ha e p u)
    | batch e entries => rfl
    | committed e => rfl
  refine ⟨by rw [hstep, h.keys], fun e p hp => ?_⟩
  rw [h.exec e p hp, execMarked_snoc]
  refine (or_iff_left ?_).symm
  rintro ⟨q, u, heq, -⟩
  exact ha _ _ _ heq

/-- **What the phase table says** of an epoch. -/
theorem Tracks.max_phase_iff {as : List WalAppend} {tracks : List (UInt64 × UInt32)}
    (h : Tracks as tracks) (e : UInt64) :
    walPhaseExec ≤ walMaxPhaseForEpoch tracks e ↔ Tracked as e ∧ ExecMarked as e := by
  unfold walMaxPhaseForEpoch Tracked
  rw [← h.keys, ← lookup_isSome_iff]
  cases hp : tracks.lookup e with
  | none =>
      rw [Option.getD_none]
      exact iff_of_false (by decide) fun hc => by simp at hc
  | some p =>
      rw [Option.getD_some, h.exec e p hp]
      exact ⟨fun hexec => ⟨rfl, hexec⟩, fun hc => hc.2⟩

/-! ## The pass over a log -/

section Pass

variable (last m : UInt64)

def Noticed (as : List WalAppend) : Prop :=
  (∃ e, last < e ∧ m < e ∧ ExecMarked as e) ∨
    ∃ pre epoch entries post, as = pre ++ .batch epoch entries :: post ∧ IsOrphan last m epoch ∧
      Tracked pre epoch ∧ ExecMarked pre epoch

variable {last m}

theorem noticed_snoc {as : List WalAppend} {a : WalAppend} :
    Noticed last m (as ++ [a]) ↔ Noticed last m as ∨
      (∃ e phase uriSetHash, a = .phaseMark e phase uriSetHash ∧ last < e ∧ m < e ∧
        walPhaseExec ≤ phase) ∨
      ∃ e entries, a = .batch e entries ∧ IsOrphan last m e ∧ Tracked as e ∧ ExecMarked as e := by
  constructor
  · rintro (⟨e, hlast, hm, hexec⟩ | ⟨pre, e, entries, post, hsplit, horphan, htracked, hexec⟩)
    · rcases execMarked_snoc.mp hexec with hold | ⟨phase, u, rfl, hphase⟩
      · exact Or.inl (Or.inl ⟨e, hlast, hm, hold⟩)
      · exact Or.inr (Or.inl ⟨e, phase, u, rfl, hlast, hm, hphase⟩)
    · rcases List.eq_nil_or_concat post with rfl | ⟨init, x, rfl⟩
      · obtain ⟨rfl, ha⟩ := List.append_inj' hsplit rfl
        exact Or.inr (Or.inr ⟨e, entries, List.singleton_inj.mp ha, horphan, htracked, hexec⟩)
      · rw [List.concat_eq_append, ← List.cons_append, ← List.append_assoc] at hsplit
        obtain ⟨rfl, -⟩ := List.append_inj' hsplit rfl
        exact Or.inl (Or.inr ⟨pre, e, entries, init, rfl, horphan, htracked, hexec⟩)
  · rintro ((⟨e, hlast, hm, hexec⟩ | ⟨pre, e, entries, post, rfl, horphan, htracked, hexec⟩) |
      ⟨e, phase, u, rfl, hlast, hm, hexec⟩ | ⟨e, entries, rfl, horphan, htracked, hexec⟩)
    · exact Or.inl ⟨e, hlast, hm, execMarked_snoc.mpr (Or.inl hexec)⟩
    · exact Or.inr ⟨pre, e, entries, post ++ [a], by simp, horphan, htracked, hexec⟩
    · exact Or.inl ⟨e, hlast, hm, execMarked_snoc.mpr (Or.inr ⟨phase, u, rfl, hexec⟩)⟩
    · exact Or.inr ⟨as, e, entries, [], rfl, horphan, htracked, hexec⟩

theorem recoverRecord_quiet {s : RecoverState} {r : WalRecord} (hend : r.type ≠ recBatchEnd)
    (hmark : r.type ≠ recPhaseMark) :
    (recoverRecord last m s r).phaseTracks = s.phaseTracks ∧
      (recoverRecord last m s r).execRollback = s.execRollback := by
  unfold recoverRecord
  split
  · exact ⟨rfl, rfl⟩
  split
  · split <;> exact ⟨rfl, rfl⟩
  split
  · split
    · exact ⟨rfl, rfl⟩
    · split <;> exact ⟨rfl, rfl⟩
  rw [if_neg fun h => hend h.1, if_neg fun h => hmark h.1]
  exact ⟨rfl, rfl⟩

theorem foldl_recoverRecord_quiet {rs : List WalRecord}
    (h : ∀ r ∈ rs, r.type ≠ recBatchEnd ∧ r.type ≠ recPhaseMark) :
    ∀ s, (rs.foldl (recoverRecord last m) s).phaseTracks = s.phaseTracks ∧
      (rs.foldl (recoverRecord last m) s).execRollback = s.execRollback := by
  induction rs with
  | nil => exact fun s => ⟨rfl, rfl⟩
  | cons r rs ih =>
      intro s
      obtain ⟨hend, hmark⟩ := h r List.mem_cons_self
      obtain ⟨htracks, hrollback⟩ := @recoverRecord_quiet last m s r hend hmark
      obtain ⟨htracks', hrollback'⟩ := ih (fun r' hr' => h r' (List.mem_cons_of_mem r hr'))
        (recoverRecord last m s r)
      exact ⟨htracks'.trans htracks, hrollback'.trans hrollback⟩

theorem foldl_batch {s : RecoverState} {bs : List WalBatch} (h : Between last m s bs)
    {epoch : UInt64} {entries : List WalEntry} (hok : (WalAppend.batch epoch entries).Succeeds) :
    ((WalAppend.batch epoch entries).records.foldl (recoverRecord last m) s).phaseTracks =
        s.phaseTracks ∧
      ((WalAppend.batch epoch entries).records.foldl (recoverRecord last m) s).execRollback =
        if IsOrphan last m epoch ∧ walPhaseExec ≤ walMaxPhaseForEpoch s.phaseTracks epoch then
          some epoch
        else s.execRollback := by
  classical
  obtain ⟨-, hcount, hfit⟩ := (walAppendBatch_ok_iff epoch entries).mp hok
  have hcountN := countOf_begin_toNat epoch hcount
  have hopen := open_entries entries hcountN.ge hfit
  have hbegin : IsBegin ⟨recBatchBegin, beginPayload epoch (UInt32.ofNat entries.length)⟩ :=
    ⟨rfl, length_beginPayload _ _⟩
  have hinside := hopen.inside h hbegin
  have hmatch := matches_endPayload (entries.map fun e => crc32 (entryPayload e))
    (hcountN.trans (List.length_map fun e => cstr e.stagingPath).symm)
  rw [epochOf_begin, countOf_begin] at hmatch
  have hquiet : ∀ r ∈ (⟨recBatchBegin, beginPayload epoch (UInt32.ofNat entries.length)⟩ ::
      entries.map fun e => ⟨recEntry, entryPayload e⟩ : List WalRecord),
      r.type ≠ recBatchEnd ∧ r.type ≠ recPhaseMark := by
    intro r hr
    have hbeginType : recBatchBegin ≠ recBatchEnd ∧ recBatchBegin ≠ recPhaseMark := by decide
    have hentryType : recEntry ≠ recBatchEnd ∧ recEntry ≠ recPhaseMark := by decide
    rcases List.mem_cons.mp hr with rfl | hr
    · exact hbeginType
    · obtain ⟨e, -, rfl⟩ := List.mem_map.mp hr
      exact hentryType
  obtain ⟨htracks, hrollback⟩ := @foldl_recoverRecord_quiet last m _ hquiet s
  rw [WalAppend.records, List.foldl_append, List.foldl_cons, List.foldl_nil,
    recoverRecord_end hinside (isEnd_endPayload _ _ _), if_pos hmatch]
  dsimp only
  unfold RecoverState.closeBatch
  rw [hinside.epoch, epochOf_begin, htracks, hrollback]
  by_cases horphan : IsOrphan last m epoch
  · rw [if_pos horphan]
    refine ⟨rfl, ?_⟩
    dsimp only
    by_cases hexec : walPhaseExec ≤ walMaxPhaseForEpoch s.phaseTracks epoch
    · rw [if_pos hexec, if_pos ⟨horphan, hexec⟩]
    · rw [if_neg hexec, if_neg fun hc => hexec hc.2]
  · rw [if_neg horphan, if_neg fun hc => horphan hc.1]
    exact ⟨htracks, hrollback⟩

theorem foldl_phaseMark {s : RecoverState} (hhalt : s.halt = none) (epoch : UInt64)
    (phase uriSetHash : UInt32) :
    ((WalAppend.phaseMark epoch phase uriSetHash).records.foldl (recoverRecord last m) s).phaseTracks =
        walPhaseTrackUpdate s.phaseTracks epoch phase ∧
      ((WalAppend.phaseMark epoch phase uriSetHash).records.foldl
          (recoverRecord last m) s).execRollback =
        if last < epoch ∧ m < epoch ∧ walPhaseExec ≤ phase then some epoch else s.execRollback := by
  have htypes : recPhaseMark ≠ recBatchBegin ∧ recPhaseMark ≠ recEntry ∧
      recPhaseMark ≠ recBatchEnd := by decide
  have hlen : (writeU64Le epoch ++ writeU32Le phase ++ writeU32Le uriSetHash).length = 16 := by simp
  have hepoch : readU64Le (writeU64Le epoch ++ writeU32Le phase ++ writeU32Le uriSetHash) = epoch := by
    rw [List.append_assoc, readU64Le_writeU64Le]
  have hphase : readU32Le ((writeU64Le epoch ++ writeU32Le phase ++ writeU32Le uriSetHash).drop 8) =
      phase := by
    rw [List.append_assoc, List.drop_left' (length_writeU64Le epoch), readU32Le_writeU32Le]
  rw [WalAppend.records, List.foldl_cons, List.foldl_nil]
  unfold recoverRecord
  rw [if_neg (by simp [hhalt]), if_neg fun h => htypes.1 h.1, if_neg fun h => htypes.2.1 h.1,
    if_neg fun h => htypes.2.2 h.1, if_pos ⟨rfl, hlen⟩]
  dsimp only
  rw [hepoch, hphase]
  exact ⟨rfl, rfl⟩

/-- **The second pass** over a log of successful appends keeps the phase table
and reports a rollback where one is to be noticed. -/
theorem foldl_walFileRecords {as : List WalAppend} (hok : ∀ a ∈ as, a.Succeeds) :
    Tracks as ((walFileRecords as).foldl (recoverRecord last m) {}).phaseTracks ∧
      (((walFileRecords as).foldl (recoverRecord last m) {}).execRollback.isSome ↔
        Noticed last m as) := by
  induction as using List.reverseRecOn with
  | nil =>
      refine ⟨⟨rfl, fun e p hp => by cases hp⟩, iff_of_false Bool.false_ne_true ?_⟩
      rintro (⟨e, -, -, phase, u, hmem, -⟩ | ⟨pre, e, entries, post, hsplit, -⟩)
      · simp at hmem
      · simp at hsplit
  | append_singleton as a ih =>
      have hokAs : ∀ x ∈ as, x.Succeeds := fun x hx => hok x (List.mem_append_left _ hx)
      have hokA : a.Succeeds := hok a (by simp)
      obtain ⟨htracks, hrollback⟩ := ih hokAs
      have hbetween : Between last m _ _ := (complete_walFileRecords hokAs).between
      rw [walFileRecords_append, List.foldl_append, noticed_snoc]
      have hone : walFileRecords [a] = a.records := by simp [walFileRecords]
      rw [hone]
      generalize (walFileRecords as).foldl (recoverRecord last m) {} = s at *
      cases a with
      | committed epoch =>
          have hquiet : ∀ r ∈ (WalAppend.committed epoch).records,
              r.type ≠ recBatchEnd ∧ r.type ≠ recPhaseMark := by
            have htype : recCommitted ≠ recBatchEnd ∧ recCommitted ≠ recPhaseMark := by decide
            intro r hr
            rw [List.mem_singleton.mp hr]
            exact htype
          obtain ⟨hsame, hreport⟩ := @foldl_recoverRecord_quiet last m _ hquiet s
          rw [hsame, hreport, hrollback]
          exact ⟨htracks.quiet (by simp), by simp⟩
      | batch epoch entries =>
          obtain ⟨hsame, hreport⟩ := foldl_batch hbetween hokA
          rw [hsame, hreport]
          refine ⟨htracks.quiet (by simp), ?_⟩
          have hphase := htracks.max_phase_iff epoch
          split
          · rename_i h
            obtain ⟨htracked, hexec⟩ := hphase.mp h.2
            exact iff_of_true rfl (Or.inr (Or.inr ⟨epoch, entries, rfl, h.1, htracked, hexec⟩))
          · rename_i h
            rw [hphase] at h
            rw [hrollback]
            refine (or_iff_left ?_).symm
            rintro (⟨e, phase, u, heq, -⟩ | ⟨e, entries', heq, horphan, htracked, hexec⟩)
            · cases heq
            · obtain ⟨rfl, -⟩ := WalAppend.batch.inj heq
              exact h ⟨horphan, htracked, hexec⟩
      | phaseMark epoch phase uriSetHash =>
          have hne := (WalAppend.succeeds_phaseMark_iff epoch phase uriSetHash).mp hokA
          obtain ⟨hupdate, hreport⟩ := @foldl_phaseMark last m s hbetween.halt epoch phase uriSetHash
          rw [hupdate, hreport]
          refine ⟨htracks.mark hne.1, ?_⟩
          split
          · rename_i h
            exact iff_of_true rfl (Or.inr (Or.inl ⟨epoch, phase, uriSetHash, rfl, h⟩))
          · rename_i h
            rw [hrollback]
            refine (or_iff_left ?_).symm
            rintro (⟨e, p, u, heq, habove⟩ | ⟨e, entries, heq, -⟩)
            · obtain ⟨rfl, rfl, -⟩ := WalAppend.phaseMark.inj heq
              exact h habove
            · cases heq

end Pass

/-! ## What the commits say -/

def CommitsEpoch (f : Bytes) (epoch : UInt64) : Prop :=
  ∃ r ∈ (walRecords f).1, r.type = recCommitted ∧ r.payload.length = 8 ∧
    readU64Le r.payload = epoch

def HasCommitted (d : AttachDisk) (walPath : Path) (epoch : UInt64) : Prop :=
  (∃ f, d walPath = some f ∧ CommitsEpoch f epoch) ∨
    ∃ e seg f, walBuildSegmentPath walPath e = some seg ∧ d seg = some f ∧ CommitsEpoch f epoch

def Uncommitted (d : AttachDisk) (walPath : Path) (m epoch : UInt64) : Prop :=
  m < epoch ∧ ¬HasCommitted d walPath epoch

def SegmentScanEnds (m : UInt64) : Prop := m + 1 ≠ UInt64.ofNat (2 ^ 64 - 1)

/-- Recovery comes back, removes the staging files of exactly the uncommitted
batches and reports exactly an uncommitted epoch that has an EXEC mark. -/
structure ClassifiesExactly (d : AttachDisk) (walPath : Path) (m : UInt64) (as : List WalAppend) :
    Prop where
  returns : SegmentScanEnds m
  removed : ∀ p, p ∈ (walRecoverUnfinished d walPath m).2.removed ↔
    ∃ b ∈ batchesOf as, Uncommitted d walPath m b.epoch ∧ p ∈ b.stagingPaths ∧ p ≠ []
  rollback : (walRecoverUnfinished d walPath m).2.execRollback.isSome ↔
    ∃ e, Uncommitted d walPath m e ∧ ExecMarked as e

def Mistaken (d : AttachDisk) (walPath : Path) (last m epoch : UInt64) : Prop :=
  (epoch ≤ m ∧ last < epoch) ∨ (m < epoch ∧ HasCommitted d walPath epoch)

/-- The log does not reach the difference between the tests and the commits. -/
structure TestsAgree (d : AttachDisk) (walPath : Path) (m : UInt64) (as : List WalAppend) :
    Prop where
  returns : SegmentScanEnds m
  /-- Behind a corrupted file nothing is removed. -/
  unread : (walMaxCommittedAcrossSegments d walPath m).2 = true →
    ∀ b ∈ batchesOf as, Uncommitted d walPath m b.epoch → ∀ p ∈ b.stagingPaths, p = []
  /-- The files of a mistaken batch are removed for another one. -/
  staged : (walMaxCommittedAcrossSegments d walPath m).2 = false →
    ∀ b ∈ batchesOf as, Mistaken d walPath (walMaxCommittedAcrossSegments d walPath m).1 m b.epoch →
      ∀ p ∈ b.stagingPaths, p ≠ [] →
        ∃ b' ∈ batchesOf as, Uncommitted d walPath m b'.epoch ∧ p ∈ b'.stagingPaths
  missed : ∀ e, Uncommitted d walPath m e → ExecMarked as e →
    (walMaxCommittedAcrossSegments d walPath m).2 = false ∧
      (e ≤ (walMaxCommittedAcrossSegments d walPath m).1 →
        Noticed (walMaxCommittedAcrossSegments d walPath m).1 m as)
  alarm : (walMaxCommittedAcrossSegments d walPath m).2 = false →
    Noticed (walMaxCommittedAcrossSegments d walPath m).1 m as →
      ∃ e, Uncommitted d walPath m e ∧ ExecMarked as e

section Recovery

variable {d : AttachDisk} {walPath : Path} {m : UInt64} {as : List WalAppend}

theorem recover_corrupted (hscan : (walMaxCommittedAcrossSegments d walPath m).2 = true) :
    (walRecoverUnfinished d walPath m).2.removed = [] ∧
      (walRecoverUnfinished d walPath m).2.execRollback = none := by
  simp [walRecoverUnfinished, hscan]

theorem recover_walFile (hok : ∀ a ∈ as, a.Succeeds) (hfile : d walPath = some (walFile as))
    (hscan : (walMaxCommittedAcrossSegments d walPath m).2 = false) :
    (∀ p, p ∈ (walRecoverUnfinished d walPath m).2.removed ↔
      ∃ b ∈ batchesOf as, IsOrphan (walMaxCommittedAcrossSegments d walPath m).1 m b.epoch ∧
        p ∈ b.stagingPaths ∧ p ≠ []) ∧
      ((walRecoverUnfinished d walPath m).2.execRollback.isSome ↔
        Noticed (walMaxCommittedAcrossSegments d walPath m).1 m as) := by
  have hrun : (walRecoverUnfinished d walPath m).2 =
      recoverScan (walMaxCommittedAcrossSegments d walPath m).1 m (walFile as) := by
    simp [walRecoverUnfinished, hscan, hfile]
  generalize (walMaxCommittedAcrossSegments d walPath m).1 = last at *
  have hbetween := between_recoverScan_walFile hok last m
  have hpass : Between last m _ _ := (complete_walFileRecords hok).between
  have hsame : (recoverScan last m (walFile as)).execRollback =
      ((walFileRecords as).foldl (recoverRecord last m) {}).execRollback := by
    rw [recoverScan, walFile_eq_frames hok, walRecords_frames (walFileRecords_fit hok)]
    simp only [reduceCtorEq, and_false, if_false]
    rw [if_neg (by simp [hpass.inBatch])]
  rw [hrun, hsame, hbetween.removed]
  exact ⟨fun p => mem_flatMap_orphanPaths, (foldl_walFileRecords hok).2⟩

theorem isOrphan_iff {last epoch : UInt64} :
    IsOrphan last m epoch ↔ Uncommitted d walPath m epoch ∨ Mistaken d walPath last m epoch := by
  unfold IsOrphan Uncommitted Mistaken
  by_cases hm : m < epoch
  · by_cases hcommitted : HasCommitted d walPath epoch
    · exact iff_of_true (Or.inr hm) (Or.inr (Or.inr ⟨hm, hcommitted⟩))
    · exact iff_of_true (Or.inr hm) (Or.inl ⟨hm, hcommitted⟩)
  · have hle : epoch ≤ m := UInt64.not_lt.mp hm
    constructor
    · rintro (hlast | habove)
      · exact Or.inr (Or.inl ⟨hle, hlast⟩)
      · exact absurd habove hm
    · rintro (habove | ⟨-, hlast⟩ | habove)
      · exact absurd habove.1 hm
      · exact Or.inl hlast
      · exact absurd habove.1 hm

/-- **Recovery classifies exactly** as the commits say where the log does not
reach a difference between its tests and them. -/
theorem classifies_exactly_iff (d : AttachDisk) (walPath : Path) (m : UInt64)
    (as : List WalAppend) (hok : ∀ a ∈ as, a.Succeeds) (hfile : d walPath = some (walFile as)) :
    ClassifiesExactly d walPath m as ↔ TestsAgree d walPath m as := by
  cases hscan : (walMaxCommittedAcrossSegments d walPath m).2 with
  | true =>
      obtain ⟨hremoved, hreport⟩ := recover_corrupted hscan
      constructor
      · intro h
        refine ⟨h.returns, fun _ b hb hwanted p hp => ?_, fun hclean => ?_, fun e hwanted hexec => ?_,
          fun hclean => ?_⟩
        · by_contra hne
          have hmem := (h.removed p).mpr ⟨b, hb, hwanted, hp, hne⟩
          rw [hremoved] at hmem
          exact absurd hmem List.not_mem_nil
        · rw [hscan] at hclean
          cases hclean
        · have hsome := h.rollback.mpr ⟨e, hwanted, hexec⟩
          rw [hreport] at hsome
          cases hsome
        · rw [hscan] at hclean
          cases hclean
      · intro h
        refine ⟨h.returns, fun p => ?_, ?_⟩
        · rw [hremoved]
          refine iff_of_false List.not_mem_nil ?_
          rintro ⟨b, hb, hwanted, hp, hne⟩
          exact hne (h.unread hscan b hb hwanted p hp)
        · rw [hreport]
          refine iff_of_false Bool.false_ne_true ?_
          rintro ⟨e, hwanted, hexec⟩
          have hclean := (h.missed e hwanted hexec).1
          rw [hscan] at hclean
          cases hclean
  | false =>
      obtain ⟨hremoved, hreport⟩ := recover_walFile hok hfile hscan
      constructor
      · intro h
        refine ⟨h.returns, fun hcorrupt => ?_, fun _ b hb hmistaken p hp hne => ?_,
          fun e hwanted hexec => ⟨hscan, fun _ => ?_⟩, fun _ hnoticed => ?_⟩
        · rw [hscan] at hcorrupt
          cases hcorrupt
        · have hmem := (hremoved p).mpr ⟨b, hb, isOrphan_iff.mpr (Or.inr hmistaken), hp, hne⟩
          obtain ⟨b', hb', hwanted, hp', -⟩ := (h.removed p).mp hmem
          exact ⟨b', hb', hwanted, hp'⟩
        · exact hreport.mp (h.rollback.mpr ⟨e, hwanted, hexec⟩)
        · exact h.rollback.mp (hreport.mpr hnoticed)
      · intro h
        refine ⟨h.returns, fun p => ?_, ?_⟩
        · rw [hremoved p]
          constructor
          · rintro ⟨b, hb, horphan, hp, hne⟩
            rcases isOrphan_iff.mp horphan with hwanted | hmistaken
            · exact ⟨b, hb, hwanted, hp, hne⟩
            · obtain ⟨b', hb', hwanted, hp'⟩ := h.staged hscan b hb hmistaken p hp hne
              exact ⟨b', hb', hwanted, hp', hne⟩
          · rintro ⟨b, hb, hwanted, hp, hne⟩
            exact ⟨b, hb, isOrphan_iff.mpr (Or.inl hwanted), hp, hne⟩
        · rw [hreport]
          constructor
          · exact h.alarm hscan
          · rintro ⟨e, hwanted, hexec⟩
            by_cases hlast : (walMaxCommittedAcrossSegments d walPath m).1 < e
            · exact Or.inl ⟨e, hlast, hwanted.1, hexec⟩
            · exact (h.missed e hwanted hexec).2 (UInt64.not_lt.mp hlast)

end Recovery

/-! ## A log without segments -/

def onlyFile (as : List WalAppend) : AttachDisk := fun p =>
  if p = ascii "/m.wal" then some (walFile as) else none

theorem onlyFile_segment {as : List WalAppend} {e : UInt64} {seg : Path}
    (h : walBuildSegmentPath (ascii "/m.wal") e = some seg) : onlyFile as seg = none := by
  rw [onlyFile, if_neg (StoreFiles.segment_ne_active h)]

theorem walMaxCommitted_onlyFile {as : List WalAppend} (hok : ∀ a ∈ as, a.Succeeds) (m : UInt64) :
    walMaxCommittedAcrossSegments (onlyFile as) (ascii "/m.wal") m = (maxCommitted as, false) := by
  have hsegments : (walSegmentEpochs m).filterMap
      (fun e => (walBuildSegmentPath (ascii "/m.wal") e).bind (onlyFile as)) = [] := by
    rw [List.filterMap_eq_nil_iff]
    intro e _
    cases hseg : walBuildSegmentPath (ascii "/m.wal") e with
    | none => rfl
    | some seg => exact onlyFile_segment hseg
  have hactive : onlyFile as (ascii "/m.wal") = some (walFile as) := if_pos rfl
  rw [walMaxCommittedAcrossSegments, walScannedFiles, hsegments, hactive]
  simp only [Option.toList_some, List.append_nil, walMaxCommittedOf, scan_walFile hok]
  rw [if_neg Bool.false_ne_true]
  split
  · rfl
  · rename_i hzero
    have hle : maxCommitted as ≤ 0 := UInt64.not_lt.mp hzero
    rw [UInt64.le_antisymm hle (UInt64.zero_le)]

theorem not_hasCommitted_onlyFile {as : List WalAppend} (hok : ∀ a ∈ as, a.Succeeds)
    (h : ∀ r ∈ walFileRecords as, r.type ≠ recCommitted) (e : UInt64) :
    ¬HasCommitted (onlyFile as) (ascii "/m.wal") e := by
  rintro (⟨f, hf, r, hr, htype, -⟩ | ⟨n, seg, f, hseg, hf, -⟩)
  · obtain rfl : walFile as = f := by simpa [onlyFile] using hf
    rw [walFile_eq_frames hok, walRecords_frames (walFileRecords_fit hok)] at hr
    exact h r hr htype
  · rw [onlyFile_segment hseg] at hf
    cases hf

theorem classifies_exactly_one_mark :
    ClassifiesExactly (onlyFile [.phaseMark 5 3 0]) (ascii "/m.wal") 4 [.phaseMark 5 3 0] := by
  have hok : ∀ a ∈ [WalAppend.phaseMark 5 3 0], a.Succeeds := by decide
  have hfree := not_hasCommitted_onlyFile hok (by decide)
  have hscan := walMaxCommitted_onlyFile hok 4
  have hwanted : Uncommitted (onlyFile [.phaseMark 5 3 0]) (ascii "/m.wal") 4 5 :=
    ⟨by decide, hfree 5⟩
  have hexec : ExecMarked [.phaseMark 5 3 0] 5 := ⟨3, 0, by simp, by decide⟩
  apply (classifies_exactly_iff _ _ _ _ hok (if_pos rfl)).mpr
  constructor
  · unfold SegmentScanEnds
    decide
  · intro _ b hb
    exact absurd hb (by simp [batchesOf, batchOf])
  · intro _ b hb
    exact absurd hb (by simp [batchesOf, batchOf])
  · intro e _ _
    rw [hscan]
    refine ⟨rfl, fun _ => Or.inl ⟨5, by decide, by decide, hexec⟩⟩
  · intro _ _
    exact ⟨5, hwanted, hexec⟩

/-! ## A batch below the manifest epoch -/

def staleBatch : List WalAppend := [.batch 5 [⟨ascii "file:///a", ascii "/a.s", 0, 1, 0⟩]]

/-- Its staging file is removed, since no commit is later than its epoch. -/
theorem stale_batch_removed :
    ¬ ∀ (d : AttachDisk) (walPath : Path) (m : UInt64) (as : List WalAppend),
      (∀ a ∈ as, a.Succeeds) → d walPath = some (walFile as) →
        ClassifiesExactly d walPath m as := by
  intro h
  have hok : ∀ a ∈ staleBatch, a.Succeeds := by decide
  have hfile : onlyFile staleBatch (ascii "/m.wal") = some (walFile staleBatch) := if_pos rfl
  have hscan := walMaxCommitted_onlyFile hok 7
  have hexact := h _ _ 7 staleBatch hok hfile
  obtain ⟨hremoved, -⟩ := recover_walFile hok hfile (by rw [hscan])
  rw [hscan] at hremoved
  have hmem := (hremoved (ascii "/a.s")).mpr
    ⟨⟨5, 1, [ascii "/a.s"]⟩, by decide, by decide, by decide, by decide⟩
  obtain ⟨b, hb, hwanted, -⟩ := (hexact.removed _).mp hmem
  obtain rfl : b = ⟨5, 1, [ascii "/a.s"]⟩ := by
    rw [show batchesOf staleBatch = [⟨5, 1, [ascii "/a.s"]⟩] by decide] at hb
    exact List.mem_singleton.mp hb
  exact absurd hwanted.1 (by decide)

end BlessStar.Persistence.Proofs.OrphanBatches
