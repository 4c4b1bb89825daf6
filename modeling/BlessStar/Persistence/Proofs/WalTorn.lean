import BlessStar.Persistence.Proofs.WalRoundTrip

/-!
# Torn appends

A crash may leave only a prefix of the bytes of the last append.  The prefix is
a number of whole records and a tail of the next one; what recovery makes of
the file depends on how long that tail is.
-/

namespace BlessStar.Persistence.Proofs.WalTorn

open Lib.ByteString Persistence Persistence.Crc32
open Persistence.Wal Persistence.Proofs.WalGrammar
open Persistence.Proofs.WalRoundTrip

def tornWhole : List WalRecord → Nat → List WalRecord
  | [], _ => []
  | r :: rs, c =>
      if (frame r).length ≤ c then r :: tornWhole rs (c - (frame r).length) else []

def tornTail : List WalRecord → Nat → Bytes
  | [], _ => []
  | r :: rs, c =>
      if (frame r).length ≤ c then tornTail rs (c - (frame r).length) else (frame r).take c

/-- The file left by the calls `as`, the first `c` bytes of the call `a`, and
the calls `bs` made on it afterwards. -/
def tornFile (as : List WalAppend) (a : WalAppend) (c : Nat) (bs : List WalAppend) : Bytes :=
  walFile as ++ a.run.1.take c ++ walFile bs

theorem take_frames (rs : List WalRecord) (c : Nat) :
    (frames rs).take c = frames (tornWhole rs c) ++ tornTail rs c := by
  induction rs generalizing c with
  | nil => simp [tornWhole, tornTail]
  | cons r rs ih =>
      rw [frames_cons, List.take_append, tornWhole, tornTail]
      by_cases hc : (frame r).length ≤ c
      · rw [if_pos hc, if_pos hc, List.take_of_length_le hc, ih, frames_cons, List.append_assoc]
      · rw [if_neg hc, if_neg hc, show c - (frame r).length = 0 by omega]
        simp

theorem tornWhole_starts (rs : List WalRecord) (c : Nat) : tornWhole rs c <+: rs := by
  induction rs generalizing c with
  | nil => simp [tornWhole]
  | cons r rs ih =>
      rw [tornWhole]
      split
      · exact (List.prefix_cons_inj r).mpr (ih _)
      · exact List.nil_prefix

theorem tornWhole_lost (rs : List WalRecord) {last : WalRecord} {c : Nat}
    (hc : c < (frames (rs ++ [last])).length) : tornWhole (rs ++ [last]) c <+: rs := by
  induction rs generalizing c with
  | nil =>
      simp only [List.nil_append, frames_cons, frames_nil, List.append_nil] at hc
      rw [List.nil_append, tornWhole, if_neg (by omega)]
  | cons r rs ih =>
      rw [List.cons_append, frames_cons, List.length_append] at hc
      rw [List.cons_append, tornWhole]
      split
      · exact (List.prefix_cons_inj r).mpr (ih (by omega))
      · exact List.nil_prefix

theorem tornTail_eq_take {rs : List WalRecord} {c : Nat} (hc : c < (frames rs).length) :
    ∃ r ∈ rs, ∃ n < (frame r).length, tornTail rs c = (frame r).take n := by
  induction rs generalizing c with
  | nil => simp at hc
  | cons r rs ih =>
      rw [frames_cons, List.length_append] at hc
      rw [tornTail]
      split
      · obtain ⟨r', hr', n, hn, htail⟩ := ih (c := c - (frame r).length) (by omega)
        exact ⟨r', by simp [hr'], n, hn, htail⟩
      · exact ⟨r, by simp, c, by omega, rfl⟩

theorem walReadRecord_short {f : Bytes} (h : f.length < 16) : walReadRecord f = .eof := by
  rw [walReadRecord, walReadRecordHeader, if_pos h]

theorem walRecords_short {f : Bytes} (h : f.length < 16) : walRecords f = ([], .eof) := by
  rw [walRecords]
  cases hn : f.length with
  | zero => rfl
  | succ n => rw [walRecordsFuel, walReadRecord_short h]

theorem walReadRecord_torn {r : WalRecord} (hfit : r.Fits) {n : Nat} (hlow : 16 ≤ n)
    (hn : n < (frame r).length) : walReadRecord ((frame r).take n) = .corrupt := by
  have hlen := length_payload_toNat hfit
  rw [length_frame] at hn
  have htake : (frame r).take n =
      hdrNoCrc r.type (UInt32.ofNat r.payload.length) ++
        writeU32Le (crc32 (hdrNoCrc r.type (UInt32.ofNat r.payload.length) ++ r.payload)) ++
        r.payload.take (n - 16) := by
    rw [frame, List.take_append, List.take_of_length_le (by simp; omega)]
    congr 2
  unfold walReadRecord
  rw [htake, walReadRecordHeader_fields _ _ _ (by rw [hlen]; exact hfit)]
  simp only [hlen]
  rw [if_pos (by simp; omega)]

theorem walRecords_torn {r : WalRecord} (hfit : r.Fits) {n : Nat} (hlow : 16 ≤ n)
    (hn : n < (frame r).length) : walRecords ((frame r).take n) = ([], .corrupt) := by
  have hlen : ((frame r).take n).length = n := by
    rw [List.length_take]
    omega
  obtain ⟨fuel, rfl⟩ : ∃ fuel, n = fuel + 1 := ⟨n - 1, by omega⟩
  rw [walRecords, hlen, walRecordsFuel, walReadRecord_torn hfit hlow hn]

theorem records_split (a : WalAppend) : ∃ init last, a.records = init ++ [last] ∧
    ∀ r ∈ init, r.type ≠ recCommitted := by
  cases a with
  | batch epoch entries =>
      refine ⟨_, _, rfl, fun r hr => ?_⟩
      exact records_type_ne_committed (a := .batch epoch entries) (by simp) r
        (List.mem_append_left _ hr)
  | phaseMark epoch phase uriSetHash => exact ⟨[], _, rfl, by simp⟩
  | committed epoch => exact ⟨[], _, rfl, by simp⟩

theorem tornWhole_type_ne_committed {a : WalAppend} {c : Nat}
    (hc : c < (frames a.records).length) :
    ∀ r ∈ tornWhole a.records c, r.type ≠ recCommitted := by
  obtain ⟨init, last, hsplit, hinit⟩ := records_split a
  rw [hsplit] at hc ⊢
  exact fun r hr => hinit r ((tornWhole_lost init hc).subset hr)

theorem walRecords_tornFile {as : List WalAppend} {a : WalAppend} (c : Nat) (bs : List WalAppend)
    (has : ∀ x ∈ as, x.Succeeds) (ha : a.Succeeds) :
    walRecords (tornFile as a c bs) =
      (walFileRecords as ++ tornWhole a.records c ++
        (walRecords (tornTail a.records c ++ walFile bs)).1,
        (walRecords (tornTail a.records c ++ walFile bs)).2) := by
  have hfit : ∀ r ∈ walFileRecords as ++ tornWhole a.records c, r.Fits := by
    intro r hr
    rcases List.mem_append.mp hr with hr | hr
    · exact walFileRecords_fit has r hr
    · exact WalAppend.records_fit ha r ((tornWhole_starts _ c).subset hr)
  have hfile : tornFile as a c bs =
      frames (walFileRecords as ++ tornWhole a.records c) ++
        (tornTail a.records c ++ walFile bs) := by
    rw [tornFile, walFile_eq_frames has, WalAppend.run_bytes ha, take_frames, frames_append]
    simp only [List.append_assoc]
  rw [hfile, walRecords_frames_append hfit]

theorem foldl_lastCommittedStep_torn {as : List WalAppend} {a : WalAppend} {c : Nat}
    (hc : c < (frames a.records).length) :
    (walFileRecords as ++ tornWhole a.records c).foldl lastCommittedStep 0 = maxCommitted as := by
  rw [List.foldl_append, foldl_lastCommittedStep_records,
    foldl_lastCommittedStep_other (tornWhole_type_ne_committed hc)]
  rfl

theorem prefix_map_take {α β : Type} {f : α → β} {xs : List α} {ys : List β}
    (h : ys <+: xs.map f) : ys = (xs.take ys.length).map f := by
  rw [List.prefix_iff_eq_take.mp h]
  simp

theorem unbroken_tornWhole {as : List WalAppend} (has : ∀ x ∈ as, x.Succeeds) {a : WalAppend}
    (ha : a.Succeeds) {c : Nat} (hc : c < (frames a.records).length) :
    Unbroken (walFileRecords as ++ tornWhole a.records c) (batchesOf as) := by
  have hcomplete := complete_walFileRecords has
  cases a with
  | batch epoch entries =>
      obtain ⟨-, hcount, hfit⟩ := (walAppendBatch_ok_iff epoch entries).mp ha
      have hcountN := countOf_begin_toNat epoch hcount
      have hpre : tornWhole (WalAppend.batch epoch entries).records c <+: _ := tornWhole_lost _ hc
      -- nothing whole, or the BATCH_BEGIN with some of the entries
      rcases List.prefix_cons_iff.mp hpre with hnil | ⟨entryRecords, hcons, hentries⟩
      · rw [hnil, List.append_nil]
        exact .complete hcomplete
      · rw [hcons, prefix_map_take hentries]
        refine .opened hcomplete ⟨rfl, length_beginPayload _ _⟩ (open_entries _ ?_ ?_) rfl
        · rw [hcountN]
          exact List.length_take_le' _ _
        · exact fun e he => hfit e (List.mem_of_mem_take he)
  | phaseMark epoch phase uriSetHash =>
      have hnil : tornWhole (WalAppend.phaseMark epoch phase uriSetHash).records c = [] :=
        List.prefix_nil.mp (tornWhole_lost [] hc)
      rw [hnil, List.append_nil]
      exact .complete hcomplete
  | committed epoch =>
      have hnil : tornWhole (WalAppend.committed epoch).records c = [] :=
        List.prefix_nil.mp (tornWhole_lost [] hc)
      rw [hnil, List.append_nil]
      exact .complete hcomplete

theorem unbroken_marks {bs : List WalAppend} (hbs : batchesOf bs = []) {rs : List WalRecord}
    {batches : List WalBatch} (h : Unbroken rs batches) :
    Unbroken (rs ++ walFileRecords bs) batches := by
  induction bs generalizing rs with
  | nil => simpa [walFileRecords] using h
  | cons b bs ih =>
      have hrecords : walFileRecords (b :: bs) = b.records ++ walFileRecords bs := by
        simp [walFileRecords]
      have hrest : batchesOf bs = [] := by
        cases hb : batchOf b <;> simp_all [batchesOf]
      rw [hrecords, ← List.append_assoc]
      apply ih hrest
      cases b with
      | batch epoch entries => simp [batchesOf, batchOf] at hbs
      | phaseMark epoch phase uriSetHash => exact h.mark (Or.inr rfl)
      | committed epoch => exact h.mark (Or.inl rfl)

theorem walRecoverUnfinished_of_corrupted {d : AttachDisk} {walPath : Path} {f : Bytes}
    (hf : d walPath = some f) (hscan : (walScanLastCommittedEpoch f).2 = true)
    (manifestEpoch : UInt64) : (walRecoverUnfinished d walPath manifestEpoch).1 = d := by
  have hcorrupt : (walMaxCommittedAcrossSegments d walPath manifestEpoch).2 = true := by
    simp [walMaxCommittedAcrossSegments, walScannedFiles, hf, walMaxCommittedOf, hscan]
  simp [walRecoverUnfinished, hcorrupt]

/-- A cut inside a payload is corruption, even before any later append. -/
theorem torn_payload_corrupted :
    ¬ ∀ (as : List WalAppend) (a : WalAppend) (c : Nat) (bs : List WalAppend),
      (∀ x ∈ as, x.Succeeds) → a.Succeeds → c < a.run.1.length → (∀ x ∈ bs, x.Succeeds) →
      walScanLastCommittedEpoch (tornFile as a c bs) = (maxCommitted (as ++ bs), false) ∧
      ∀ last m, (recoverScan last m (tornFile as a c bs)).accepted = batchesOf (as ++ bs) := by
  intro h
  have hscan := (h [] (.committed 7) 20 [] (by decide) (by decide) (by decide) (by decide)).1
  have hcorrupt : (walScanLastCommittedEpoch (tornFile [] (.committed 7) 20 [])).2 = true := by
    decide +kernel
  rw [hscan] at hcorrupt
  cases hcorrupt

/-- **Torn appends.**  Cut the last append anywhere before its end.  A tail
shorter than a header reads as the end of the file: nothing is corrupted and
recovery sees the full appends.  A longer tail is corruption, and nothing is
deleted.  When the cut falls between two records, later appends keep the file
sound with the right highest committed epoch, and all batches are seen unless a
batch cut open is followed by another. -/
theorem torn_append {as bs : List WalAppend} {a : WalAppend} {c : Nat}
    (has : ∀ x ∈ as, x.Succeeds) (ha : a.Succeeds) (hc : c < a.run.1.length)
    (hbs : ∀ x ∈ bs, x.Succeeds) :
    ((tornTail a.records c).length < 16 →
      walScanLastCommittedEpoch (tornFile as a c []) = (maxCommitted as, false) ∧
      ∀ last m, (recoverScan last m (tornFile as a c [])).accepted = batchesOf as ∧
        (recoverScan last m (tornFile as a c [])).halt = none) ∧
    (16 ≤ (tornTail a.records c).length →
      (walScanLastCommittedEpoch (tornFile as a c [])).2 = true ∧
      ∀ (d : AttachDisk) walPath m, d walPath = some (tornFile as a c []) →
        (walRecoverUnfinished d walPath m).1 = d) ∧
    (tornTail a.records c = [] →
      walScanLastCommittedEpoch (tornFile as a c bs) = (maxCommitted (as ++ bs), false) ∧
      (c = 0 ∨ batchesOf bs = [] →
        ∀ last m, (recoverScan last m (tornFile as a c bs)).accepted = batchesOf (as ++ bs) ∧
          (recoverScan last m (tornFile as a c bs)).halt = none)) := by
  have hc' : c < (frames a.records).length := by rwa [← WalAppend.run_bytes ha]
  have hnone : walFile [] = [] := rfl
  refine ⟨fun htail => ?_, fun htail => ?_, fun htail => ?_⟩
  · have hread : walRecords (tornFile as a c []) =
        (walFileRecords as ++ tornWhole a.records c, .eof) := by
      rw [walRecords_tornFile c [] has ha, hnone, List.append_nil, walRecords_short htail]
      simp
    refine ⟨?_, fun last m => ?_⟩
    · rw [walScanLastCommittedEpoch, hread]
      simp only [foldl_lastCommittedStep_torn hc']
      rfl
    · exact (unbroken_tornWhole has ha hc').recoverScan hread last m
  · obtain ⟨r, hr, n, hn, hcut⟩ := tornTail_eq_take hc'
    have hfit : r.Fits := WalAppend.records_fit ha r hr
    have hlow : 16 ≤ n := by
      rw [hcut, List.length_take] at htail
      omega
    have hscan : (walScanLastCommittedEpoch (tornFile as a c [])).2 = true := by
      rw [walScanLastCommittedEpoch, walRecords_tornFile c [] has ha, hnone, List.append_nil, hcut,
        walRecords_torn hfit hlow hn]
      rfl
    exact ⟨hscan, fun d walPath m hd => walRecoverUnfinished_of_corrupted hd hscan m⟩
  · have hread : walRecords (tornFile as a c bs) =
        (walFileRecords as ++ tornWhole a.records c ++ walFileRecords bs, .eof) := by
      rw [walRecords_tornFile c bs has ha, htail, List.nil_append, walFile_eq_frames hbs,
        walRecords_frames (walFileRecords_fit hbs)]
    refine ⟨?_, fun hbatch last m => ?_⟩
    · rw [walScanLastCommittedEpoch, hread]
      simp only
      rw [List.foldl_append, foldl_lastCommittedStep_torn hc', foldl_lastCommittedStep_records,
        maxCommitted, maxCommitted, committedEpochs_append, List.foldl_append]
      rfl
    · rw [batchesOf_append]
      rcases hbatch with rfl | hbatch
      · have hzero : tornWhole a.records 0 = [] := by
          cases hrs : a.records with
          | nil => rfl
          | cons r rs => rw [tornWhole, if_neg (by rw [length_frame]; omega)]
        rw [hzero, List.append_nil] at hread
        have hall := (complete_walFileRecords has).append (complete_walFileRecords hbs)
        exact (Unbroken.complete hall).recoverScan hread last m
      · rw [hbatch, List.append_nil]
        have hall := unbroken_marks hbatch (unbroken_tornWhole has ha hc')
        exact hall.recoverScan hread last m

theorem torn_append_cut_header :
    walScanLastCommittedEpoch (tornFile [.committed 3] (.committed 7) 5 []) = (3, false) ∧
      ∀ last m,
        (recoverScan last m (tornFile [.committed 3] (.committed 7) 5 [])).accepted = [] ∧
        (recoverScan last m (tornFile [.committed 3] (.committed 7) 5 [])).halt = none :=
  (@torn_append [.committed 3] [] (.committed 7) 5 (by decide) (by decide) (by decide)
    (by decide)).1 (by decide)

end BlessStar.Persistence.Proofs.WalTorn
