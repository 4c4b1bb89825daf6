import BlessStar.Persistence.Proofs.WalGrammar

/-!
# What recovery reads of a record

The bytes of a payload that the second pass looks at, and how many checksums it
hashes.  The lengths in an entry are added in 32 bits, and a BATCH_END is hashed
before its count is compared.
-/

namespace BlessStar.Persistence.Proofs.WalBounds

open Lib.ByteString Persistence Persistence.Wal
open WalGrammar

def entryReads (payload : Bytes) : List (Nat × Nat) :=
  let len := UInt32.ofNat payload.length
  (0, payload.length) ::
    if len < 4 then []
    else
      let uriN := readU32Le payload
      (0, 4) ::
        if 4 + uriN + 4 > len then []
        else
          let off := 4 + uriN
          let pathN := readU32Le (payload.drop off.toNat)
          (off.toNat, 4) ::
            let off := off + 4
            if off + pathN > len then [] else [(off.toNat, pathN.toNat)]

/-- The reads of a record in this state, and the elements of `entry_crcs` that
are hashed. -/
def recordReads (s : RecoverState) (r : WalRecord) : List (Nat × Nat) × Nat :=
  if s.halt.isSome then ([], 0)
  else if r.type = recBatchBegin ∧ r.payload.length = 12 then
    if s.inBatch then ([], 0) else ([(0, 8), (8, 4)], 0)
  else if r.type = recEntry ∧ s.inBatch then
    if s.currentBatchCount.toNat ≤ s.stagingPaths.length then ([], 0)
    else (entryReads r.payload, 0)
  else if r.type = recBatchEnd ∧ s.inBatch ∧ r.payload.length = 16 then
    ([(0, 8), (8, 4), (12, 4)], (countOf r).toNat)
  else if r.type = recPhaseMark ∧ r.payload.length = 16 then ([(0, 8), (8, 4)], 0)
  else ([], 0)

def Within (payload : Bytes) (reads : List (Nat × Nat)) : Prop :=
  ∀ x ∈ reads, ∀ i < x.2, x.1 + i < payload.length

def InBounds (s : RecoverState) (r : WalRecord) : Prop :=
  Within r.payload (recordReads s r).1 ∧ (recordReads s r).2 ≤ s.currentBatchCount.toNat

def BoundsSafe (lastCommitted manifestEpoch : UInt64) (rs : List WalRecord) : Prop :=
  ∀ pre r post, rs = pre ++ r :: post →
    InBounds (pre.foldl (recoverRecord lastCommitted manifestEpoch) {}) r

def uriLen (payload : Bytes) : Nat := (readU32Le payload).toNat

def UriWraps (payload : Bytes) : Prop :=
  2 ^ 32 - 8 ≤ uriLen payload ∧ uriLen payload < 2 ^ 32 - 4 ∧
    uriLen payload + 8 - 2 ^ 32 ≤ payload.length

def pathOffset (payload : Bytes) : Nat := (uriLen payload + 8) % 2 ^ 32

def pathLen (payload : Bytes) : Nat := (readU32Le (payload.drop (pathOffset payload - 4))).toNat

def PathWraps (payload : Bytes) : Prop :=
  4 ≤ pathOffset payload ∧ pathOffset payload ≤ payload.length ∧
    2 ^ 32 ≤ pathOffset payload + pathLen payload ∧
      pathOffset payload + pathLen payload - 2 ^ 32 ≤ payload.length

def Wraps (payload : Bytes) : Prop := 4 ≤ payload.length ∧ (UriWraps payload ∨ PathWraps payload)

theorem within_cons {payload : Bytes} {x : Nat × Nat} {reads : List (Nat × Nat)} :
    Within payload (x :: reads) ↔ (∀ i < x.2, x.1 + i < payload.length) ∧ Within payload reads :=
  List.forall_mem_cons

theorem within_nil (payload : Bytes) : Within payload [] := fun _ h => absurd h List.not_mem_nil

theorem within_range {payload : Bytes} {off n : Nat} (hn : 0 < n) :
    (∀ i < n, off + i < payload.length) ↔ off + n ≤ payload.length := by
  constructor
  · intro h
    have hlast := h (n - 1) (by omega)
    omega
  · intro h i hi
    omega

/-- **An entry is read within its payload** unless one of its lengths wraps. -/
theorem within_entryReads_iff {payload : Bytes} (hfit : payload.length ≤ walMaxRecordBytes) :
    Within payload (entryReads payload) ↔ ¬Wraps payload := by
  unfold walMaxRecordBytes at hfit
  have hlen : (UInt32.ofNat payload.length).toNat = payload.length := by
    rw [UInt32.toNat_ofNat']
    exact Nat.mod_eq_of_lt (by omega)
  have hlast : (4 + readU32Le payload + 4).toNat = pathOffset payload := by
    rw [UInt32.toNat_add, UInt32.toNat_add, pathOffset, uriLen]
    simp only [UInt32.reduceToNat]
    omega
  have hoff : (4 + readU32Le payload).toNat = (uriLen payload + 4) % 2 ^ 32 := by
    rw [UInt32.toNat_add, uriLen]
    simp only [UInt32.reduceToNat]
    omega
  have huri : uriLen payload < 2 ^ 32 := (readU32Le payload).toNat_lt
  unfold entryReads
  dsimp only
  rw [within_cons]
  have hall : ∀ i < payload.length, 0 + i < payload.length := fun i hi => by omega
  rw [and_iff_right hall]
  by_cases hshort : UInt32.ofNat payload.length < 4
  · have hlt : payload.length < 4 := by
      rw [UInt32.lt_iff_toNat_lt, hlen] at hshort
      exact hshort
    rw [if_pos hshort]
    exact iff_of_true (within_nil _) fun h => by have := h.1; omega
  have hge : 4 ≤ payload.length := by
    rw [UInt32.lt_iff_toNat_lt, hlen] at hshort
    exact Nat.not_lt.mp hshort
  have hfirst : ∀ i < 4, 0 + i < payload.length := fun i hi => by omega
  rw [if_neg hshort, within_cons, and_iff_right hfirst]
  by_cases hcheck : 4 + readU32Le payload + 4 > UInt32.ofNat payload.length
  · have hover : payload.length < pathOffset payload := by
      rw [gt_iff_lt, UInt32.lt_iff_toNat_lt, hlen, hlast] at hcheck
      exact hcheck
    rw [if_pos hcheck]
    refine iff_of_true (within_nil _) ?_
    rintro ⟨-, ⟨hlow, hhigh, hle⟩ | ⟨-, hle, -⟩⟩
    · unfold pathOffset at hover
      omega
    · omega
  have hpass : pathOffset payload ≤ payload.length := by
    rw [gt_iff_lt, UInt32.lt_iff_toNat_lt, hlen, hlast] at hcheck
    exact Nat.not_lt.mp hcheck
  rw [if_neg hcheck, within_cons, within_range (show 0 < 4 by decide), hoff]
  by_cases hwrap : UriWraps payload
  · -- the length of the path is read far behind the payload
    refine iff_of_false ?_ fun h => h ⟨hge, Or.inl hwrap⟩
    rintro ⟨hread, -⟩
    obtain ⟨hlow, hhigh, -⟩ := hwrap
    dsimp only at hread
    omega
  have hfour : 4 ≤ pathOffset payload ∧ (uriLen payload + 4) % 2 ^ 32 = pathOffset payload - 4 := by
    unfold UriWraps pathOffset at *
    omega
  have hread : (uriLen payload + 4) % 2 ^ 32 + 4 ≤ payload.length := by omega
  rw [and_iff_right hread, hfour.2]
  have hpath : (readU32Le (payload.drop (pathOffset payload - 4))).toNat = pathLen payload := rfl
  have hpathLt : pathLen payload < 2 ^ 32 := (readU32Le _).toNat_lt
  have hend : (4 + readU32Le payload + 4 +
      readU32Le (payload.drop (pathOffset payload - 4))).toNat =
        (pathOffset payload + pathLen payload) % 2 ^ 32 := by
    rw [UInt32.toNat_add, hlast, hpath]
  by_cases hover : 4 + readU32Le payload + 4 + readU32Le (payload.drop (pathOffset payload - 4)) >
      UInt32.ofNat payload.length
  · rw [if_pos hover]
    rw [gt_iff_lt, UInt32.lt_iff_toNat_lt, hlen, hend] at hover
    refine iff_of_true (within_nil _) ?_
    rintro ⟨-, h | ⟨-, -, hlow, hle⟩⟩
    · exact hwrap h
    · omega
  · rw [if_neg hover, within_cons, and_iff_left (within_nil _), hlast, hpath]
    rw [gt_iff_lt, UInt32.lt_iff_toNat_lt, hlen, hend] at hover
    constructor
    · rintro hwithin ⟨-, h | ⟨-, -, hlow, hle⟩⟩
      · exact hwrap h
      · have hpos : 0 < pathLen payload := by omega
        have hlast := (within_range hpos).mp hwithin
        omega
    · intro hnot i hi
      dsimp only at hi ⊢
      have hsum : pathOffset payload + pathLen payload < 2 ^ 32 := by
        by_contra hbig
        exact hnot ⟨hge, Or.inr ⟨hfour.1, hpass, by omega, by omega⟩⟩
      omega

/-- What a record met with a batch open must keep to: an entry there is room for
has no length that wraps, and a BATCH_END counts no more entries than there is
room for. -/
def KeepsBounds (s : RecoverState) (r : WalRecord) : Prop :=
  s.halt = none → s.inBatch = true →
    (r.type = recEntry → s.stagingPaths.length < s.currentBatchCount.toNat → ¬Wraps r.payload) ∧
      (IsEnd r → countOf r ≤ s.currentBatchCount)

theorem within_fixed {payload : Bytes} {reads : List (Nat × Nat)}
    (h : ∀ x ∈ reads, x.1 + x.2 ≤ payload.length) : Within payload reads := by
  intro x hx i hi
  have hend := h x hx
  omega

theorem inBounds_iff {s : RecoverState} {r : WalRecord} (hfit : r.Fits) :
    InBounds s r ↔ KeepsBounds s r := by
  unfold InBounds KeepsBounds recordReads
  by_cases hhalt : s.halt = none
  · rw [if_neg (by simp [hhalt])]
    by_cases hbegin : r.type = recBatchBegin ∧ r.payload.length = 12
    · have hentry : recBatchBegin ≠ recEntry := by decide
      have hend : recBatchBegin ≠ recBatchEnd := by decide
      rw [if_pos hbegin]
      refine iff_of_true ?_ fun _ _ =>
        ⟨fun h => absurd (hbegin.1.symm.trans h) hentry,
          fun h => absurd (hbegin.1.symm.trans h.1) hend⟩
      split
      · exact ⟨within_nil _, Nat.zero_le _⟩
      · refine ⟨within_fixed ?_, Nat.zero_le _⟩
        rw [hbegin.2]
        decide
    rw [if_neg hbegin]
    by_cases hin : s.inBatch = true
    · by_cases hentry : r.type = recEntry
      · have hend : ¬IsEnd r := fun h => by
          have hne : recEntry ≠ recBatchEnd := by decide
          exact hne (hentry.symm.trans h.1)
        rw [if_pos ⟨hentry, hin⟩]
        by_cases hfull : s.currentBatchCount.toNat ≤ s.stagingPaths.length
        · rw [if_pos hfull]
          exact iff_of_true ⟨within_nil _, Nat.zero_le _⟩ fun _ _ =>
            ⟨fun _ hroom => absurd hroom (by omega), fun h => absurd h hend⟩
        · rw [if_neg hfull, and_iff_left (Nat.zero_le _), within_entryReads_iff hfit]
          constructor
          · exact fun h _ _ => ⟨fun _ _ => h, fun h' => absurd h' hend⟩
          · exact fun h => (h hhalt hin).1 hentry (by omega)
      · rw [if_neg fun h => hentry h.1]
        by_cases hend : r.type = recBatchEnd ∧ s.inBatch ∧ r.payload.length = 16
        · have hreads : Within r.payload [(0, 8), (8, 4), (12, 4)] := by
            apply within_fixed
            rw [hend.2.2]
            decide
          rw [if_pos hend, and_iff_right hreads]
          constructor
          · exact fun h _ _ => ⟨fun h' => absurd h' hentry, fun _ => UInt32.le_iff_toNat_le.mpr h⟩
          · exact fun h => UInt32.le_iff_toNat_le.mp ((h hhalt hin).2 ⟨hend.1, hend.2.2⟩)
        · rw [if_neg hend]
          refine iff_of_true ?_ fun _ _ =>
            ⟨fun h => absurd h hentry, fun h => absurd ⟨h.1, hin, h.2⟩ hend⟩
          split
          · rename_i hmark
            refine ⟨within_fixed ?_, Nat.zero_le _⟩
            rw [hmark.2]
            decide
          · exact ⟨within_nil _, Nat.zero_le _⟩
    · rw [if_neg fun h => hin h.2, if_neg fun h => hin h.2.1]
      refine iff_of_true ?_ fun _ h => absurd h hin
      split
      · rename_i hmark
        refine ⟨within_fixed ?_, Nat.zero_le _⟩
        rw [hmark.2]
        decide
      · exact ⟨within_nil _, Nat.zero_le _⟩
  · rw [if_pos (Option.isSome_iff_ne_none.mpr hhalt)]
    exact iff_of_true ⟨within_nil _, Nat.zero_le _⟩ fun h => absurd h hhalt

/-- **Recovery stays within its bounds** exactly on the logs whose records all
keep to them. -/
theorem bounds_safe_iff (lastCommitted manifestEpoch : UInt64) (rs : List WalRecord)
    (hfits : ∀ r ∈ rs, r.Fits) :
    BoundsSafe lastCommitted manifestEpoch rs ↔
      ∀ pre r post, rs = pre ++ r :: post →
        KeepsBounds (pre.foldl (recoverRecord lastCommitted manifestEpoch) {}) r := by
  have hfit : ∀ pre r post, rs = pre ++ r :: post → r.Fits := by
    intro pre r post hsplit
    exact hfits r (by rw [hsplit]; simp)
  constructor
  · exact fun h pre r post hsplit => (inBounds_iff (hfit pre r post hsplit)).mp (h pre r post hsplit)
  · exact fun h pre r post hsplit => (inBounds_iff (hfit pre r post hsplit)).mpr (h pre r post hsplit)

theorem bounds_safe_one_begin : BoundsSafe 0 0 [⟨recBatchBegin, beginPayload 7 1⟩] :=
  (bounds_safe_iff 0 0 [⟨recBatchBegin, beginPayload 7 1⟩] (by decide)).mpr (by
    intro pre r post hsplit
    cases pre with
    | nil => exact fun _ hin => absurd hin (by decide)
    | cons x pre => simp at hsplit)

/-- An entry whose URI is said to be eight bytes short of 2^32: the length of
its path is read behind the payload. -/
theorem wrapped_uri_out_of_bounds :
    (∀ r ∈ [(⟨recBatchBegin, beginPayload 7 1⟩ : WalRecord), ⟨recEntry, writeU32Le 0xFFFFFFF8⟩],
        r.Fits) ∧
      ¬BoundsSafe 0 0 [⟨recBatchBegin, beginPayload 7 1⟩, ⟨recEntry, writeU32Le 0xFFFFFFF8⟩] := by
  refine ⟨by decide, fun h => ?_⟩
  have hreads := (h [⟨recBatchBegin, beginPayload 7 1⟩] ⟨recEntry, writeU32Le 0xFFFFFFF8⟩ [] rfl).1
  have hindex := hreads (0xFFFFFFFC, 4) (by decide) 0 (by decide)
  exact absurd hindex (by decide)

end BlessStar.Persistence.Proofs.WalBounds
