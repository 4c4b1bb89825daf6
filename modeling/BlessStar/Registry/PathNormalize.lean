import BlessStar.Lib.ByteString

/-!
# Canonical registry paths

`path_normalize.cpp`, with what its loop does to the segments of a path.
-/

namespace BlessStar.Registry

open Lib.ByteString

inductive RegistryStatus
  | ok
  | invalidPath
  | notFound
  | alreadyExists
  | frozen
  | manifest
  | logicalId
  | hubOverride
  | invalidArg
  | noDeclaration
  | phase
  deriving DecidableEq, Repr

def maxPath : Nat := 256

/-- The segment at the start of a text; the tests of `p[0]`, `p[1]` and `p[2]`
are tests of it. -/
def segmentAt (p : Bytes) : Bytes := p.takeWhile (· ≠ 47)

/-- The loop of `bs_registry_normalize_path` at `p` with `out` written; each
turn consumes a byte, so the length of the text is enough fuel. -/
def normalizeFrom (outSize : Nat) : Nat → Bytes → Bytes → Option Bytes
  | 0, _, out => some out
  | fuel + 1, p, out =>
      let p := p.dropWhile (· = 47)
      if p = [] then some out
      else if segmentAt p = ascii ".." then none
      else if segmentAt p = ascii "." then normalizeFrom outSize fuel (p.drop 2) out
      else if outSize ≤ out.length + (segmentAt p).length + 1 then none
      else
        normalizeFrom outSize fuel (p.drop (segmentAt p).length)
          (out ++ (if 1 < out.length then [47] else []) ++ segmentAt p)

def normalizePath (path : Bytes) (outSize : Nat) : Except RegistryStatus Bytes :=
  if outSize < 2 then .error .invalidArg
  else if (cstr path).head? ≠ some 47 then .error .invalidPath
  else
    match normalizeFrom outSize (cstr path).length (cstr path).tail [47] with
    | none => .error .invalidPath
    | some out => .ok out

def hasAllowedRoot (path : Bytes) : Bool :=
  path = ascii "/kernel" ∨ ascii "/kernel/" <+: path ∨ path = ascii "/adapter" ∨
    ascii "/adapter/" <+: path

/-- A segment that stays: not empty and neither `.` nor `..`. -/
structure IsSegment (s : Bytes) : Prop where
  ne_nil : s ≠ []
  noSlash : (47 : UInt8) ∉ s
  noNul : (0 : UInt8) ∉ s
  ne_dot : s ≠ ascii "."
  ne_dotdot : s ≠ ascii ".."

def pathOf (segments : List Bytes) : Bytes :=
  if segments = [] then [47] else segments.flatMap (47 :: ·)

theorem pathOf_cons (s : Bytes) (segments : List Bytes) :
    pathOf (s :: segments) = 47 :: s ++ segments.flatMap (47 :: ·) := by
  rw [pathOf, if_neg (List.cons_ne_nil s segments), List.flatMap_cons]

def appendSegments (outSize : Nat) : Bytes → List Bytes → Option Bytes
  | out, [] => some out
  | out, s :: segments =>
      if outSize ≤ out.length + s.length + 1 then none
      else appendSegments outSize (out ++ (if 1 < out.length then [47] else []) ++ s) segments

theorem appendSegments_of_long {outSize : Nat} (segments : List Bytes) :
    ∀ {out out' : Bytes}, 1 < out.length → appendSegments outSize out segments = some out' →
      out' = out ++ segments.flatMap (47 :: ·) := by
  induction segments with
  | nil =>
      intro out out' _ h
      rw [List.flatMap_nil, List.append_nil]
      exact (Option.some.inj h).symm
  | cons s segments ih =>
      intro out out' hlong h
      rw [appendSegments, if_pos hlong] at h
      split at h
      · cases h
      · rw [ih (by rw [List.length_append, List.length_append]; omega) h, List.flatMap_cons]
        simp

theorem appendSegments_root {outSize : Nat} {segments : List Bytes} {out : Bytes}
    (hsegments : ∀ s ∈ segments, IsSegment s) (h : appendSegments outSize [47] segments = some out) :
    out = pathOf segments := by
  cases segments with
  | nil => exact (Option.some.inj h).symm
  | cons s segments =>
      have hs : 0 < s.length := List.length_pos_iff.mpr (hsegments s List.mem_cons_self).ne_nil
      rw [appendSegments] at h
      split at h
      · cases h
      · rw [appendSegments_of_long segments (by simp; omega) h, pathOf_cons]
        simp

theorem appendSegments_length_lt {outSize : Nat} {segments : List Bytes} {out out' : Bytes}
    (hout : out.length < outSize) (h : appendSegments outSize out segments = some out') :
    out'.length < outSize := by
  induction segments generalizing out with
  | nil => exact Option.some.inj h ▸ hout
  | cons s segments ih =>
      rw [appendSegments] at h
      split at h
      · cases h
      · refine ih ?_ h
        rw [List.length_append, List.length_append]
        split
        · rw [List.length_singleton]
          omega
        · rw [List.length_nil]
          omega

theorem not_mem_segmentAt (p : Bytes) : (47 : UInt8) ∉ segmentAt p := by
  intro h
  simpa using List.mem_takeWhile_imp h

theorem segmentAt_append_head {s : Bytes} (h : (47 : UInt8) ∉ s) {rest : Bytes}
    (hrest : ∀ b ∈ rest.head?, b = 47) : segmentAt (s ++ rest) = s := by
  have hkeep : ∀ b ∈ s, decide (b ≠ 47) = true := by
    intro b hb
    exact decide_eq_true fun hslash => h (hslash ▸ hb)
  have hstop : rest.takeWhile (fun b => decide (b ≠ 47)) = [] := by
    cases rest with
    | nil => rfl
    | cons c rest => simp [hrest c rfl]
  rw [segmentAt, List.takeWhile_append_of_pos hkeep, hstop, List.append_nil]

theorem head_flatMap_slash (segments : List Bytes) :
    ∀ b ∈ (segments.flatMap (47 :: ·)).head?, b = 47 := by
  cases segments with
  | nil => simp
  | cons s segments => simp

theorem segmentAt_append {s : Bytes} (h : (47 : UInt8) ∉ s) (segments : List Bytes) :
    segmentAt (s ++ segments.flatMap (47 :: ·)) = s :=
  segmentAt_append_head h (head_flatMap_slash segments)

theorem segmentAt_ne_nil {q : Bytes} (hnil : q ≠ []) (hhead : ∀ b ∈ q.head?, b ≠ 47) :
    segmentAt q ≠ [] := by
  cases q with
  | nil => exact absurd rfl hnil
  | cons c r =>
      have hc : c ≠ 47 := hhead c rfl
      rw [segmentAt, List.takeWhile_cons, if_pos (decide_eq_true hc)]
      exact List.cons_ne_nil c _

theorem dropWhile_slash {s : Bytes} (hs : s ≠ []) (hslash : (47 : UInt8) ∉ s) (rest : Bytes) :
    (47 :: s ++ rest).dropWhile (· = 47) = s ++ rest := by
  cases s with
  | nil => exact absurd rfl hs
  | cons c r =>
      have hc : c ≠ 47 := fun h => hslash (h ▸ List.mem_cons_self)
      simp [hc]

/-- **What is normalized is a list of segments**, written one by one. -/
theorem exists_segments {outSize : Nat} (fuel : Nat) :
    ∀ {p out out' : Bytes}, (0 : UInt8) ∉ p → normalizeFrom outSize fuel p out = some out' →
      ∃ segments, (∀ s ∈ segments, IsSegment s) ∧
        appendSegments outSize out segments = some out' := by
  induction fuel with
  | zero =>
      intro p out out' _ h
      exact ⟨[], by simp, h⟩
  | succ fuel ih =>
      intro p out out' hnul h
      rw [normalizeFrom] at h
      have hrest : (0 : UInt8) ∉ p.dropWhile (· = 47) := fun hmem =>
        hnul ((List.dropWhile_suffix _).mem hmem)
      have hhead : ∀ b ∈ (p.dropWhile (· = 47)).head?, b ≠ 47 := by
        intro b hb
        have hnot := List.head?_dropWhile_not (· = 47) p
        rw [Option.mem_def.mp hb] at hnot
        simpa using hnot
      generalize p.dropWhile (· = 47) = q at hrest hhead h
      by_cases hnil : q = []
      · rw [if_pos hnil] at h
        exact ⟨[], by simp, h⟩
      rw [if_neg hnil] at h
      by_cases hdotdot : segmentAt q = ascii ".."
      · rw [if_pos hdotdot] at h
        cases h
      rw [if_neg hdotdot] at h
      by_cases hdot : segmentAt q = ascii "."
      · rw [if_pos hdot] at h
        exact ih (fun hmem => hrest (List.mem_of_mem_drop hmem)) h
      rw [if_neg hdot] at h
      by_cases hroom : outSize ≤ out.length + (segmentAt q).length + 1
      · rw [if_pos hroom] at h
        cases h
      rw [if_neg hroom] at h
      obtain ⟨segments, hsegments, happend⟩ := ih (fun hmem => hrest (List.mem_of_mem_drop hmem)) h
      have hsegment : IsSegment (segmentAt q) :=
        ⟨segmentAt_ne_nil hnil hhead, not_mem_segmentAt q,
          fun hmem => hrest ((List.takeWhile_prefix _).mem hmem), hdot, hdotdot⟩
      refine ⟨segmentAt q :: segments, List.forall_mem_cons.mpr ⟨hsegment, hsegments⟩, ?_⟩
      rw [appendSegments, if_neg hroom]
      exact happend

theorem normalizeFrom_slash (outSize fuel : Nat) (p out : Bytes) :
    normalizeFrom outSize fuel (47 :: p) out = normalizeFrom outSize fuel p out := by
  cases fuel with
  | zero => rfl
  | succ fuel =>
      have hdrop : (47 :: p).dropWhile (· = 47) = p.dropWhile (· = 47) := by simp
      rw [normalizeFrom, normalizeFrom, hdrop]

theorem normalizeFrom_segments {outSize : Nat} (segments : List Bytes)
    (hsegments : ∀ s ∈ segments, IsSegment s) :
    ∀ {fuel : Nat} {out : Bytes}, (segments.flatMap (47 :: ·)).length ≤ fuel →
      normalizeFrom outSize fuel (segments.flatMap (47 :: ·)) out =
        appendSegments outSize out segments := by
  induction segments with
  | nil =>
      intro fuel out _
      cases fuel with
      | zero => rfl
      | succ fuel => rfl
  | cons s segments ih =>
      intro fuel out hfuel
      obtain ⟨hs, hrest⟩ := List.forall_mem_cons.mp hsegments
      rw [List.flatMap_cons] at hfuel ⊢
      rw [List.length_append, List.length_cons] at hfuel
      cases fuel with
      | zero => omega
      | succ fuel =>
          rw [normalizeFrom, dropWhile_slash hs.ne_nil hs.noSlash]
          rw [if_neg (by simp [hs.ne_nil]), segmentAt_append hs.noSlash, if_neg hs.ne_dotdot,
            if_neg hs.ne_dot, appendSegments, List.drop_left]
          split
          · rfl
          · exact ih hrest (by omega)

/-- The path is its own normal form, and its segments are none of the empty one,
`.` and `..`. -/
def IsNormalized (p : Bytes) : Prop :=
  normalizePath p maxPath = .ok p ∧ ∃ segments, (∀ s ∈ segments, IsSegment s) ∧ p = pathOf segments

theorem not_zero_mem_pathOf {segments : List Bytes} (h : ∀ s ∈ segments, IsSegment s) :
    (0 : UInt8) ∉ pathOf segments := by
  unfold pathOf
  split
  · decide
  · intro hmem
    obtain ⟨s, hs, hmem⟩ := List.mem_flatMap.mp hmem
    rcases List.mem_cons.mp hmem with hzero | hmem
    · exact absurd hzero (by decide)
    · exact (h s hs).noNul hmem

/-- **The normal form is normalized.** -/
theorem isNormalized_of_normalizePath {path p : Bytes} (h : normalizePath path maxPath = .ok p) :
    IsNormalized p := by
  unfold normalizePath at h
  split at h
  · cases h
  split at h
  · cases h
  split at h
  · cases h
  rename_i out hout
  obtain rfl := Except.ok.inj h
  have hnul : (0 : UInt8) ∉ (cstr path).tail := fun hmem =>
    not_zero_mem_cstr path (List.mem_of_mem_tail hmem)
  obtain ⟨segments, hsegments, happend⟩ := exists_segments _ hnul hout
  have hpath := appendSegments_root hsegments happend
  refine ⟨?_, segments, hsegments, hpath⟩
  have hcstr : cstr out = out := cstr_eq_self (hpath ▸ not_zero_mem_pathOf hsegments)
  have hagain : normalizeFrom maxPath out.length out.tail [47] = some out := by
    cases segments with
    | nil =>
        rw [hpath]
        rfl
    | cons s segments =>
        have htail : 47 :: out.tail = (s :: segments).flatMap (47 :: ·) := by
          rw [hpath, pathOf_cons]
          rfl
        rw [← normalizeFrom_slash, htail, normalizeFrom_segments _ hsegments, happend]
        rw [← htail, hpath, pathOf_cons]
        simp
  have hhead : out.head? = some 47 := by
    rw [hpath]
    cases segments with
    | nil => rfl
    | cons s segments => rfl
  unfold normalizePath
  rw [hcstr, if_neg (by decide), if_neg (not_not.mpr hhead), hagain]

theorem length_lt_of_normalizePath {path p : Bytes} (h : normalizePath path maxPath = .ok p) :
    p.length < maxPath := by
  unfold normalizePath at h
  split at h
  · cases h
  split at h
  · cases h
  split at h
  · cases h
  rename_i out hout
  obtain rfl := Except.ok.inj h
  have hnul : (0 : UInt8) ∉ (cstr path).tail := fun hmem =>
    not_zero_mem_cstr path (List.mem_of_mem_tail hmem)
  obtain ⟨segments, -, happend⟩ := exists_segments _ hnul hout
  exact appendSegments_length_lt (by decide) happend

example : (normalizePath (ascii "//kernel/./a/") maxPath).toOption = some (ascii "/kernel/a") := by
  decide

end BlessStar.Registry
