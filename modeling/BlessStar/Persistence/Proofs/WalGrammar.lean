import BlessStar.Persistence.WalRecover

/-!
# The batches of a record sequence

The second pass of recovery is a state machine over records.  Its language is
given here as a grammar: sequences that are batch by batch complete, an open
batch, and the records that are faults inside an open batch.  The pass follows
the grammar, and it stops only at a fault.
-/

namespace BlessStar.Persistence.Proofs.WalGrammar

open Lib.ByteString Persistence Persistence.Crc32
open Persistence.Wal

abbrev IsBegin (r : WalRecord) : Prop := r.type = recBatchBegin ∧ r.payload.length = 12

abbrev IsEnd (r : WalRecord) : Prop := r.type = recBatchEnd ∧ r.payload.length = 16

def epochOf (r : WalRecord) : UInt64 := readU64Le r.payload

def countOf (r : WalRecord) : UInt32 := readU32Le (r.payload.drop 8)

def hashOf (r : WalRecord) : UInt32 := readU32Le (r.payload.drop 12)

/-- The records after the BATCH_BEGIN `b` of a batch that is still open, with
the staging paths and the CRCs of its entries. -/
inductive Open (b : WalRecord) : List WalRecord → List Path → List UInt32 → Prop
  | start : Open b [] [] []
  | entry {mid paths crcs r p} : Open b mid paths crcs → r.type = recEntry →
      paths.length < (countOf b).toNat → parseStagingPath r.payload = .path p →
      Open b (mid ++ [r]) (paths ++ [p]) (crcs ++ [crc32 r.payload])
  | other {mid paths crcs r} : Open b mid paths crcs → r.type ≠ recEntry → ¬IsBegin r →
      ¬IsEnd r → Open b (mid ++ [r]) paths crcs

/-- The BATCH_END `e` closes the batch `b` with the entries seen. -/
def Matches (b : WalRecord) (paths : List Path) (crcs : List UInt32) (e : WalRecord) : Prop :=
  epochOf e = epochOf b ∧ countOf e = countOf b ∧ (countOf e).toNat = paths.length ∧
    hashOf e = crc32 (crcBytes crcs)

inductive Complete : List WalRecord → List WalBatch → Prop
  | nil : Complete [] []
  | skip {rs bs r} : Complete rs bs → ¬IsBegin r → Complete (rs ++ [r]) bs
  | batch {rs bs b mid paths crcs e} : Complete rs bs → IsBegin b → Open b mid paths crcs →
      IsEnd e → Matches b paths crcs e →
      Complete (rs ++ b :: mid ++ [e]) (bs ++ [⟨epochOf b, countOf b, paths⟩])

inductive Unbroken (rs : List WalRecord) (bs : List WalBatch) : Prop
  | complete : Complete rs bs → Unbroken rs bs
  | opened {pre b mid paths crcs} : Complete pre bs → IsBegin b → Open b mid paths crcs →
      rs = pre ++ b :: mid → Unbroken rs bs

inductive Fault (b : WalRecord) (paths : List Path) (crcs : List UInt32) (r : WalRecord) : Prop
  | nested : IsBegin r → Fault b paths crcs r
  | tooMany : r.type = recEntry → (countOf b).toNat ≤ paths.length → Fault b paths crcs r
  | badEntry : r.type = recEntry → (∀ p, parseStagingPath r.payload ≠ .path p) →
      Fault b paths crcs r
  | badEnd : IsEnd r → ¬Matches b paths crcs r → Fault b paths crcs r

theorem Complete.append {rs ss : List WalRecord} {bs cs : List WalBatch} (h : Complete rs bs)
    (hs : Complete ss cs) : Complete (rs ++ ss) (bs ++ cs) := by
  induction hs with
  | nil => simpa using h
  | skip _ hr ih =>
      rw [← List.append_assoc]
      exact ih.skip hr
  | batch _ hb hopen he hmatch ih =>
      have hall := ih.batch hb hopen he hmatch
      simpa only [List.append_assoc, List.cons_append] using hall

theorem Unbroken.snoc {rs : List WalRecord} {bs : List WalBatch} {r : WalRecord}
    (h : Unbroken rs bs) (htype : r.type ≠ recEntry) (hbegin : ¬IsBegin r) (hend : ¬IsEnd r) :
    Unbroken (rs ++ [r]) bs := by
  cases h with
  | complete hcomplete => exact .complete (hcomplete.skip hbegin)
  | opened hpre hb hopen hrs =>
      exact .opened hpre hb (hopen.other htype hbegin hend) (by simp [hrs])

theorem Unbroken.mark {rs : List WalRecord} {bs : List WalBatch} {r : WalRecord}
    (h : Unbroken rs bs) (htype : r.type = recCommitted ∨ r.type = recPhaseMark) :
    Unbroken (rs ++ [r]) bs := by
  have hne : r.type ≠ recBatchBegin ∧ r.type ≠ recEntry ∧ r.type ≠ recBatchEnd := by
    rcases htype with h | h <;> rw [h] <;> decide
  exact h.snoc hne.2.1 (fun hb => hne.1 hb.1) fun he => hne.2.2 he.1

section Pass

variable (lastCommitted manifestEpoch : UInt64)

structure Between (s : RecoverState) (bs : List WalBatch) : Prop where
  halt : s.halt = none
  inBatch : s.inBatch = false
  accepted : s.accepted = bs
  removed : s.removed =
    bs.flatMap fun b => orphanPaths lastCommitted manifestEpoch b.epoch b.stagingPaths

/-- Inside the batch `b`, after entries with these paths and CRCs. -/
structure Inside (s : RecoverState) (bs : List WalBatch) (b : WalRecord) (paths : List Path)
    (crcs : List UInt32) : Prop where
  halt : s.halt = none
  inBatch : s.inBatch = true
  epoch : s.currentBatchEpoch = epochOf b
  count : s.currentBatchCount = countOf b
  paths : s.stagingPaths = paths
  crcs : s.entryCrcs = crcs
  accepted : s.accepted = bs
  removed : s.removed =
    bs.flatMap fun b => orphanPaths lastCommitted manifestEpoch b.epoch b.stagingPaths

/-- Stopped by a fault after the batches `bs`. -/
structure Stopped (s : RecoverState) (bs : List WalBatch) : Prop where
  halt : s.halt ≠ none
  removed : s.removed =
    bs.flatMap fun b => orphanPaths lastCommitted manifestEpoch b.epoch b.stagingPaths

theorem Between.initial : Between lastCommitted manifestEpoch {} [] := ⟨rfl, rfl, rfl, rfl⟩

variable {lastCommitted manifestEpoch} {s : RecoverState} {bs : List WalBatch} {b r : WalRecord}
  {paths : List Path} {crcs : List UInt32}

theorem Between.skip (h : Between lastCommitted manifestEpoch s bs) (hr : ¬IsBegin r) :
    Between lastCommitted manifestEpoch (recoverRecord lastCommitted manifestEpoch s r) bs := by
  unfold recoverRecord
  rw [if_neg (by simp [h.halt]), if_neg hr, if_neg (by simp [h.inBatch]),
    if_neg (by simp [h.inBatch])]
  split
  · exact ⟨h.halt, h.inBatch, h.accepted, h.removed⟩
  · exact h

theorem Between.start (h : Between lastCommitted manifestEpoch s bs) (hr : IsBegin r) :
    Inside lastCommitted manifestEpoch (recoverRecord lastCommitted manifestEpoch s r) bs r [] [] := by
  unfold recoverRecord
  rw [if_neg (by simp [h.halt]), if_pos hr, if_neg (by simp [h.inBatch])]
  exact ⟨h.halt, rfl, rfl, rfl, rfl, rfl, h.accepted, h.removed⟩

theorem Inside.entry (h : Inside lastCommitted manifestEpoch s bs b paths crcs)
    (htype : r.type = recEntry) (hroom : paths.length < (countOf b).toNat) {p : Path}
    (hp : parseStagingPath r.payload = .path p) :
    Inside lastCommitted manifestEpoch (recoverRecord lastCommitted manifestEpoch s r) bs b
      (paths ++ [p]) (crcs ++ [crc32 r.payload]) := by
  have hbegin : recEntry ≠ recBatchBegin := by decide
  unfold recoverRecord
  rw [if_neg (by simp [h.halt]), if_neg (by rw [htype]; exact fun hc => hbegin hc.1),
    if_pos ⟨htype, h.inBatch⟩, if_neg (by rw [h.count, h.paths]; omega), hp]
  exact ⟨h.halt, h.inBatch, h.epoch, h.count, by simp [h.paths], by simp [h.crcs], h.accepted,
    h.removed⟩

theorem Inside.other (h : Inside lastCommitted manifestEpoch s bs b paths crcs)
    (htype : r.type ≠ recEntry) (hbegin : ¬IsBegin r) (hend : ¬IsEnd r) :
    Inside lastCommitted manifestEpoch (recoverRecord lastCommitted manifestEpoch s r) bs b
      paths crcs := by
  unfold recoverRecord
  rw [if_neg (by simp [h.halt]), if_neg hbegin, if_neg fun hc => htype hc.1,
    if_neg fun hc => hend ⟨hc.1, hc.2.2⟩]
  split
  · exact ⟨h.halt, h.inBatch, h.epoch, h.count, h.paths, h.crcs, h.accepted, h.removed⟩
  · exact h

theorem recoverRecord_end (h : Inside lastCommitted manifestEpoch s bs b paths crcs)
    (hend : IsEnd r) [Decidable (Matches b paths crcs r)] :
    recoverRecord lastCommitted manifestEpoch s r =
      if Matches b paths crcs r then
        { s.closeBatch lastCommitted manifestEpoch with
          accepted := s.accepted ++ [⟨epochOf b, countOf b, paths⟩]
          inBatch := false }
      else { s with halt := some .corrupted, inBatch := false } := by
  have hbegin : recBatchEnd ≠ recBatchBegin := by decide
  have hentry : recBatchEnd ≠ recEntry := by decide
  unfold recoverRecord
  rw [if_neg (by simp [h.halt]), if_neg (by rw [hend.1]; exact fun hc => hbegin hc.1),
    if_neg (by rw [hend.1]; exact fun hc => hentry hc.1), if_pos ⟨hend.1, h.inBatch, hend.2⟩]
  simp only [h.epoch, h.count, h.paths, h.crcs]
  by_cases hmatch : Matches b paths crcs r
  · rw [if_pos hmatch, if_neg]
    obtain ⟨hepoch, hcount, hseen, hhash⟩ := hmatch
    simp only [epochOf, countOf, hashOf] at hepoch hcount hseen hhash
    simp [hepoch, hcount, hhash, ← hseen, epochOf, countOf]
  · rw [if_neg hmatch, if_pos]
    by_contra hc
    simp only [not_or, not_not] at hc
    exact hmatch hc

theorem Inside.close (h : Inside lastCommitted manifestEpoch s bs b paths crcs) (hend : IsEnd r)
    (hmatch : Matches b paths crcs r) :
    Between lastCommitted manifestEpoch (recoverRecord lastCommitted manifestEpoch s r)
      (bs ++ [⟨epochOf b, countOf b, paths⟩]) := by
  classical
  rw [recoverRecord_end h hend, if_pos hmatch]
  exact ⟨by simp [h.halt], rfl, by simp [h.accepted],
    by simp [h.removed, h.epoch, h.paths]⟩

theorem Inside.fault (h : Inside lastCommitted manifestEpoch s bs b paths crcs)
    (hfault : Fault b paths crcs r) :
    Stopped lastCommitted manifestEpoch (recoverRecord lastCommitted manifestEpoch s r) bs := by
  have hentryBegin : recEntry ≠ recBatchBegin := by decide
  cases hfault with
  | nested hbegin =>
      unfold recoverRecord
      rw [if_neg (by simp [h.halt]), if_pos hbegin, if_pos h.inBatch]
      exact ⟨by simp, h.removed⟩
  | tooMany htype hmany =>
      unfold recoverRecord
      rw [if_neg (by simp [h.halt]), if_neg (by rw [htype]; exact fun hc => hentryBegin hc.1),
        if_pos ⟨htype, h.inBatch⟩, if_pos (by rw [h.count, h.paths]; exact hmany)]
      exact ⟨by simp, h.removed⟩
  | badEntry htype hbad =>
      unfold recoverRecord
      rw [if_neg (by simp [h.halt]), if_neg (by rw [htype]; exact fun hc => hentryBegin hc.1),
        if_pos ⟨htype, h.inBatch⟩]
      split
      · exact ⟨by simp, h.removed⟩
      · cases hp : parseStagingPath r.payload with
        | path p => exact absurd hp (hbad p)
        | malformed => exact ⟨by simp, h.removed⟩
        | outOfBounds => exact ⟨by simp, h.removed⟩
  | badEnd hend hbad =>
      classical
      rw [recoverRecord_end h hend, if_neg hbad]
      exact ⟨by simp, h.removed⟩

theorem Stopped.step (h : Stopped lastCommitted manifestEpoch s bs) (r : WalRecord) :
    Stopped lastCommitted manifestEpoch (recoverRecord lastCommitted manifestEpoch s r) bs := by
  have hsome : s.halt.isSome := Option.isSome_iff_ne_none.mpr h.halt
  rw [recoverRecord, if_pos hsome]
  exact h

theorem Open.cases (hopen : Open b mid paths crcs) (r : WalRecord) :
    (∃ paths' crcs', Open b (mid ++ [r]) paths' crcs') ∨ (IsEnd r ∧ Matches b paths crcs r) ∨
      Fault b paths crcs r := by
  by_cases hbegin : IsBegin r
  · exact Or.inr (Or.inr (.nested hbegin))
  · by_cases hend : IsEnd r
    · by_cases hmatch : Matches b paths crcs r
      · exact Or.inr (Or.inl ⟨hend, hmatch⟩)
      · exact Or.inr (Or.inr (.badEnd hend hmatch))
    · by_cases htype : r.type = recEntry
      · by_cases hroom : paths.length < (countOf b).toNat
        · cases hp : parseStagingPath r.payload with
          | path p => exact Or.inl ⟨_, _, hopen.entry htype hroom hp⟩
          | malformed => exact Or.inr (Or.inr (.badEntry htype (by simp [hp])))
          | outOfBounds => exact Or.inr (Or.inr (.badEntry htype (by simp [hp])))
        · exact Or.inr (Or.inr (.tooMany htype (by omega)))
      · exact Or.inl ⟨_, _, hopen.other htype hbegin hend⟩

theorem Open.inside {mid : List WalRecord} (hopen : Open b mid paths crcs)
    (h : Between lastCommitted manifestEpoch s bs) (hb : IsBegin b) :
    Inside lastCommitted manifestEpoch
      ((b :: mid).foldl (recoverRecord lastCommitted manifestEpoch) s) bs b paths crcs := by
  induction hopen with
  | start => exact h.start hb
  | entry _ htype hroom hp ih =>
      rw [← List.cons_append, List.foldl_append]
      exact ih.entry htype hroom hp
  | other _ htype hbegin hend ih =>
      rw [← List.cons_append, List.foldl_append]
      exact ih.other htype hbegin hend

theorem Complete.between {rs : List WalRecord} (hcomplete : Complete rs bs) :
    Between lastCommitted manifestEpoch
      (rs.foldl (recoverRecord lastCommitted manifestEpoch) {}) bs := by
  induction hcomplete with
  | nil => exact Between.initial lastCommitted manifestEpoch
  | skip _ hr ih =>
      rw [List.foldl_append]
      exact ih.skip hr
  | batch _ hb hopen he hmatch ih =>
      rw [List.foldl_append, List.foldl_append]
      exact (hopen.inside ih hb).close he hmatch

structure Broken (rs : List WalRecord) (bs : List WalBatch) : Prop where
  split : ∃ pre b mid paths crcs r post, rs = pre ++ b :: mid ++ r :: post ∧ Complete pre bs ∧
    IsBegin b ∧ Open b mid paths crcs ∧ Fault b paths crcs r

theorem Broken.snoc {rs : List WalRecord} (h : Broken rs bs) (r : WalRecord) :
    Broken (rs ++ [r]) bs := by
  obtain ⟨pre, b, mid, paths, crcs, r', post, rfl, hrest⟩ := h.split
  exact ⟨⟨pre, b, mid, paths, crcs, r', post ++ [r], by simp, hrest⟩⟩

theorem Stopped.foldl (h : Stopped lastCommitted manifestEpoch s bs) (rs : List WalRecord) :
    Stopped lastCommitted manifestEpoch
      (rs.foldl (recoverRecord lastCommitted manifestEpoch) s) bs := by
  induction rs generalizing s with
  | nil => exact h
  | cons r rs ih => exact ih (h.step r)

theorem Broken.stopped {rs : List WalRecord} (h : Broken rs bs) :
    Stopped lastCommitted manifestEpoch
      (rs.foldl (recoverRecord lastCommitted manifestEpoch) {}) bs := by
  obtain ⟨pre, b, mid, paths, crcs, r, post, rfl, hpre, hb, hopen, hfault⟩ := h.split
  rw [List.foldl_append, List.foldl_append, List.foldl_cons]
  exact ((hopen.inside hpre.between hb).fault hfault).foldl post

theorem Unbroken.running {rs : List WalRecord} (h : Unbroken rs bs) :
    (rs.foldl (recoverRecord lastCommitted manifestEpoch) {}).halt = none ∧
      (rs.foldl (recoverRecord lastCommitted manifestEpoch) {}).accepted = bs := by
  cases h with
  | complete hcomplete =>
      have hbetween : Between lastCommitted manifestEpoch _ _ := hcomplete.between
      exact ⟨hbetween.halt, hbetween.accepted⟩
  | opened hpre hb hopen hrs =>
      have hinside : Inside lastCommitted manifestEpoch _ _ _ _ _ := hopen.inside hpre.between hb
      rw [hrs, List.foldl_append]
      exact ⟨hinside.halt, hinside.accepted⟩

/-- **Every sequence is unbroken or broken.** -/
theorem unbroken_or_broken (rs : List WalRecord) :
    (∃ bs, Unbroken rs bs) ∨ ∃ bs, Broken rs bs := by
  induction rs using List.reverseRecOn with
  | nil => exact Or.inl ⟨[], .complete .nil⟩
  | append_singleton rs r ih =>
      rcases ih with ⟨bs, hunbroken⟩ | ⟨bs, hbroken⟩
      · cases hunbroken with
        | complete hcomplete =>
            by_cases hr : IsBegin r
            · exact Or.inl ⟨bs, .opened hcomplete hr .start rfl⟩
            · exact Or.inl ⟨bs, .complete (hcomplete.skip hr)⟩
        | @opened pre b mid paths crcs hpre hb hopen hrs =>
            subst hrs
            rcases hopen.cases r with ⟨paths', crcs', hopen'⟩ | ⟨hend, hmatch⟩ | hfault
            · exact Or.inl ⟨bs, .opened hpre hb hopen' (by simp)⟩
            · exact Or.inl ⟨_, .complete (hpre.batch hb hopen hend hmatch)⟩
            · exact Or.inr ⟨bs, ⟨⟨pre, b, mid, paths, crcs, r, [], rfl, hpre, hb, hopen, hfault⟩⟩⟩
      · exact Or.inr ⟨bs, hbroken.snoc r⟩

end Pass

theorem Unbroken.recoverScan {f : Bytes} {rs : List WalRecord} {bs : List WalBatch}
    (h : Unbroken rs bs) (hf : walRecords f = (rs, .eof)) (last m : UInt64) :
    (recoverScan last m f).accepted = bs ∧ (recoverScan last m f).halt = none := by
  obtain ⟨hhalt, haccepted⟩ := @Unbroken.running last m _ _ h
  rw [Wal.recoverScan, hf]
  simp only [reduceCtorEq, and_false, if_false]
  split
  · exact ⟨by simp [haccepted], by simp [hhalt]⟩
  · exact ⟨haccepted, hhalt⟩

theorem Broken.recoverScan {f : Bytes} {bs : List WalBatch} (h : Broken (walRecords f).1 bs)
    (last m : UInt64) : Stopped last m (recoverScan last m f) bs := by
  have hstopped : Stopped last m _ bs := h.stopped
  rw [Wal.recoverScan]
  have hframing : ¬(((walRecords f).1.foldl (recoverRecord last m) {}).halt = none ∧
      (walRecords f).2 = .corrupt) := fun hc => hstopped.halt hc.1
  rw [if_neg hframing, if_neg fun hc => hstopped.halt hc.2]
  exact hstopped

end BlessStar.Persistence.Proofs.WalGrammar
