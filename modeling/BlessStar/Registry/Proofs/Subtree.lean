import BlessStar.Registry.Proofs.Discipline

/-!
# Listing a subtree

Which stored paths `bs_path_registry_list_subtree` lists, in terms of the
segments of the paths.
-/

namespace BlessStar.Registry.Proofs.Subtree

open Lib.ByteString Registry Registry.PathRegistry
open Registry.Proofs.Discipline (IsStored normalizeInto_eq)

def AllStored (r : PathRegistry) : Prop := ∀ p ∈ r.nodes, IsStored p

theorem AllStored.insert {r : PathRegistry} (h : AllStored r) {norm : Bytes} (hnorm : IsStored norm)
    (node : PathNode) : AllStored { r with nodes := r.nodes.insert norm node } := by
  intro p hp
  rcases Finmap.mem_insert.mp hp with rfl | hp
  · exact hnorm
  · exact h p hp

theorem AllStored.run {r : PathRegistry} (h : AllStored r) (call : RegistryCall) :
    AllStored (call.run r).2 := by
  cases call with
  | registerDeclaration path entry =>
      rw [RegistryCall.run, PathRegistry.registerDeclaration]
      cases hinto : normalizeInto path with
      | error rc => exact h
      | ok norm =>
          dsimp only
          split
          · exact h
          split
          · exact h
          split
          · exact h
          · exact h.insert (normalizeInto_eq hinto).2 _
  | bindInstance path impl =>
      rw [RegistryCall.run, PathRegistry.bindInstance]
      cases hinto : normalizeInto path with
      | error rc => exact h
      | ok norm =>
          dsimp only
          split
          · exact h
          split
          · exact h
          split
          · exact h
          split
          · exact h
          split
          · exact h
          split
          · exact h
          · exact h.insert (normalizeInto_eq hinto).2 _
  | unregister path =>
      rw [RegistryCall.run, PathRegistry.unregister]
      cases hinto : normalizeInto path with
      | error rc => exact h
      | ok norm =>
          dsimp only
          split
          · exact h
          split
          · exact h
          · exact fun p hp => h p (Finmap.mem_erase.mp hp).2
  | advancePhase phase =>
      have hnodes : (r.advancePhase phase).2.nodes = r.nodes := by
        unfold PathRegistry.advancePhase
        split
        · rfl
        split
        · rfl
        dsimp only
        split <;> split <;> rfl
      intro p hp
      exact h p (hnodes ▸ hp)
  | freeze => exact h

theorem AllStored.after {r : PathRegistry} (h : AllStored r) (calls : List RegistryCall) :
    AllStored (r.after calls) := by
  induction calls generalizing r with
  | nil => exact h
  | cons call calls ih => exact ih (h.run call)

theorem allStored_after (calls : List RegistryCall) :
    AllStored (({} : PathRegistry).after calls) :=
  AllStored.after (fun _ hp => absurd hp Finmap.notMem_empty) calls

theorem exists_extension {ss ts : List Bytes} (hss : ∀ s ∈ ss, IsSegment s)
    (hts : ∀ t ∈ ts, IsSegment t) {rest : Bytes} (hrest : ∀ b ∈ rest.head?, b = 47)
    (h : ts.flatMap (47 :: ·) = ss.flatMap (47 :: ·) ++ rest) :
    ∃ ext, ts = ss ++ ext ∧ rest = ext.flatMap (47 :: ·) := by
  induction ss generalizing ts with
  | nil => exact ⟨ts, rfl, h.symm⟩
  | cons s ss ih =>
      obtain ⟨hs, hss⟩ := List.forall_mem_cons.mp hss
      cases ts with
      | nil => simp at h
      | cons t ts =>
          obtain ⟨ht, hts⟩ := List.forall_mem_cons.mp hts
          rw [List.flatMap_cons, List.flatMap_cons, List.cons_append, List.cons_append,
            List.cons_append, List.cons_inj_right, List.append_assoc] at h
          have hbehind : ∀ b ∈ (ss.flatMap (47 :: ·) ++ rest).head?, b = 47 := by
            cases ss with
            | nil => exact hrest
            | cons u ss => simp
          have hst : t = s := by
            rw [← segmentAt_append_head ht.noSlash (head_flatMap_slash ts), h,
              segmentAt_append_head hs.noSlash hbehind]
          rw [hst, List.append_cancel_left_eq] at h
          obtain ⟨ext, hext, hrest⟩ := ih hss hts h
          exact ⟨ext, by rw [hst, hext, List.cons_append], hrest⟩

/-- `p` extends the prefix by at most `maxDepth + 1` segments, and by one at least. -/
def Extends (maxDepth : Int) (normPrefix p : Bytes) : Prop :=
  ∃ ss ext, (∀ s ∈ ss ++ ext, IsSegment s) ∧ normPrefix = pathOf ss ∧ p = pathOf (ss ++ ext) ∧
    ext ≠ [] ∧ (ext.length : Int) ≤ maxDepth + 1

theorem count_flatMap_slash {segments : List Bytes} (h : ∀ s ∈ segments, IsSegment s) :
    (segments.flatMap (47 :: ·)).count 47 = segments.length := by
  induction segments with
  | nil => rfl
  | cons s segments ih =>
      obtain ⟨hs, hrest⟩ := List.forall_mem_cons.mp h
      rw [List.flatMap_cons, List.count_append, List.count_cons_self,
        List.count_eq_zero.mpr hs.noSlash, ih hrest, List.length_cons]
      omega

theorem pathOf_inj {ss ts : List Bytes} (hss : ∀ s ∈ ss, IsSegment s) (hts : ∀ t ∈ ts, IsSegment t)
    (h : pathOf ss = pathOf ts) : ss = ts := by
  have hroot : ∀ {us : List Bytes}, (∀ u ∈ us, IsSegment u) → pathOf us = [47] → us = [] := by
    intro us hus hpath
    cases us with
    | nil => rfl
    | cons u us =>
        rw [pathOf_cons] at hpath
        have hu := (List.forall_mem_cons.mp hus).1.ne_nil
        simp [hu] at hpath
  by_cases hs : ss = []
  · rw [hs] at h ⊢
    exact (hroot hts h.symm).symm
  by_cases ht : ts = []
  · rw [ht] at h ⊢
    exact hroot hss h
  rw [pathOf, pathOf, if_neg hs, if_neg ht] at h
  obtain ⟨ext, hext, hrest⟩ :=
    exists_extension hts hss (by simp) (h.trans (List.append_nil _).symm)
  cases ext with
  | nil => rw [hext, List.append_nil]
  | cons e ext => simp at hrest

theorem isListed_root {ts : List Bytes} (hts : ∀ t ∈ ts, IsSegment t) (maxDepth : Int) :
    isListed [47] maxDepth (pathOf ts) = false := by
  cases ts with
  | nil => simp [isListed, pathOf]
  | cons t ts =>
      obtain ⟨ht, -⟩ := List.forall_mem_cons.mp hts
      rw [pathOf_cons]
      cases t with
      | nil => exact absurd rfl ht.ne_nil
      | cons c t =>
          have hc : c ≠ 47 := fun h => ht.noSlash (h ▸ List.mem_cons_self)
          simp [isListed, hc]

theorem isPrefix_of_isListed {normPrefix p : Bytes} {maxDepth : Int}
    (h : isListed normPrefix maxDepth p = true) : normPrefix <+: p := by
  unfold isListed at h
  dsimp only at h
  split at h
  · cases h
  · rename_i hsame
    obtain ⟨-, htake⟩ := not_or.mp hsame
    rw [← not_not.mp htake]
    exact List.take_prefix _ p

theorem isListed_append {normPrefix rest : Bytes} (hne : normPrefix ≠ []) (maxDepth : Int) :
    isListed normPrefix maxDepth (normPrefix ++ rest) = true ↔
      ∃ rel, rest = 47 :: rel ∧ rel ≠ [] ∧ (rel.count 47 : Int) ≤ maxDepth := by
  have hlong : 0 < normPrefix.length := List.length_pos_iff.mpr hne
  cases rest with
  | nil => simp [isListed]
  | cons c rel =>
      have hnext : (normPrefix ++ c :: rel)[normPrefix.length]? = some c := by simp
      unfold isListed
      dsimp only
      rw [hnext]
      by_cases hc : c = 47
      · simp [hc]
      · simp [hc, hlong]

/-- **The loop lists extensions**, behind any prefix but the root. -/
theorem isListed_iff {ss ts : List Bytes} (hss : ∀ s ∈ ss, IsSegment s)
    (hts : ∀ t ∈ ts, IsSegment t) (hne : ss ≠ []) (maxDepth : Int) :
    isListed (pathOf ss) maxDepth (pathOf ts) = true ↔
      ∃ ext, ts = ss ++ ext ∧ ext ≠ [] ∧ (ext.length : Int) ≤ maxDepth + 1 := by
  have hpath : pathOf ss = ss.flatMap (47 :: ·) := if_neg hne
  have hnil : pathOf ss ≠ [] := by
    cases ss with
    | nil => exact absurd rfl hne
    | cons s ss => simp [pathOf_cons]
  constructor
  · intro hlisted
    obtain ⟨rest, hrest⟩ := isPrefix_of_isListed hlisted
    rw [← hrest, isListed_append hnil] at hlisted
    obtain ⟨rel, hrel, hsome, hcount⟩ := hlisted
    have hts' : ts ≠ [] := by
      intro h
      have hlen := congrArg List.length hrest
      have hpos := List.length_pos_iff.mpr hnil
      rw [h, hrel, List.length_append, List.length_cons] at hlen
      have hroot : (pathOf []).length = 1 := rfl
      omega
    rw [hrel, hpath, pathOf, if_neg hts'] at hrest
    obtain ⟨ext, hext, hflat⟩ := exists_extension hss hts (by simp) hrest.symm
    have hexts : ∀ s ∈ ext, IsSegment s :=
      fun s hs => hts s (hext ▸ List.mem_append_right ss hs)
    have hslashes := count_flatMap_slash hexts
    rw [← hflat, List.count_cons_self] at hslashes
    refine ⟨ext, hext, ?_, by omega⟩
    intro h
    rw [h] at hflat
    simp at hflat
  · rintro ⟨ext, hext, hsome, hlen⟩
    have hexts : ∀ s ∈ ext, IsSegment s :=
      fun s hs => hts s (hext ▸ List.mem_append_right ss hs)
    have hslashes := count_flatMap_slash hexts
    have hflat : pathOf ts = pathOf ss ++ ext.flatMap (47 :: ·) := by
      rw [hpath, pathOf, if_neg (by simp [hext, hne]), hext, List.flatMap_append]
    rw [hflat, isListed_append hnil]
    cases ext with
    | nil => exact absurd rfl hsome
    | cons e es =>
        obtain ⟨he, -⟩ := List.forall_mem_cons.mp hexts
        rw [List.flatMap_cons, List.cons_append] at hslashes ⊢
        rw [List.count_cons_self] at hslashes
        refine ⟨_, rfl, by simp [he.ne_nil], by omega⟩

theorem listFrom_eq {normPrefix : Bytes} {maxDepth outCapacity : Int} {keys out : List Bytes}
    (hkeys : ∀ p ∈ keys, (cstr p).take (maxPath - 1) = p)
    (hroom : (out.length + keys.length : Int) ≤ outCapacity) :
    listFrom normPrefix maxDepth outCapacity keys out =
      out ++ keys.filter (isListed normPrefix maxDepth) := by
  induction keys generalizing out with
  | nil => simp [listFrom]
  | cons p keys ih =>
      obtain ⟨hp, hkeys⟩ := List.forall_mem_cons.mp hkeys
      rw [List.length_cons] at hroom
      rw [listFrom, if_neg (by omega), List.filter_cons]
      by_cases hlisted : isListed normPrefix maxDepth p = true
      · rw [if_pos hlisted, if_pos hlisted, hp, ih hkeys]
        · simp
        · rw [List.length_append, List.length_singleton]
          omega
      · rw [if_neg hlisted, if_neg hlisted]
        exact ih hkeys (by omega)

theorem copied_of_isStored {p : Bytes} (h : IsStored p) : (cstr p).take (maxPath - 1) = p := by
  obtain ⟨⟨hnorm, segments, hsegments, hpath⟩, -⟩ := h
  have hlen := length_lt_of_normalizePath hnorm
  rw [cstr_eq_self (hpath ▸ not_zero_mem_pathOf hsegments), List.take_of_length_le (by omega)]

theorem length_keys {r : PathRegistry} (walk : Walk r.nodes) :
    walk.keys.length = r.nodes.keys.card := by
  rw [← List.toFinset_card_of_nodup walk.nodup]
  congr 1
  ext p
  rw [List.mem_toFinset, walk.mem_keys, Finmap.mem_keys]

/-- The paths listed are the stored ones that extend the prefix, each once. -/
def ListsExactly (r : PathRegistry) (maxDepth : Int) (normPrefix : Bytes)
    (listed : Except RegistryStatus (List Bytes)) : Prop :=
  ∃ out, listed = .ok out ∧ out.Nodup ∧
    ∀ p, p ∈ out ↔ p ∈ r.nodes ∧ Extends maxDepth normPrefix p

theorem exists_segments_of_isStored {p : Bytes} (h : IsStored p) :
    ∃ ts, (∀ t ∈ ts, IsSegment t) ∧ p = pathOf ts :=
  h.1.2

theorem listSubtree_eq {r : PathRegistry} (hstored : AllStored r) (walk : Walk r.nodes)
    {path normPrefix : Bytes} (hnorm : normalizePath path maxPath = .ok normPrefix)
    {maxDepth outCapacity : Int} (hdepth : 0 ≤ maxDepth ∧ maxDepth ≤ listMaxDepth)
    (hroom : (r.nodes.keys.card : Int) ≤ outCapacity) :
    r.listSubtree walk path maxDepth outCapacity =
      .ok (walk.keys.filter (isListed normPrefix maxDepth)) := by
  have hcopied : ∀ p ∈ walk.keys, (cstr p).take (maxPath - 1) = p :=
    fun p hp => copied_of_isStored (hstored p ((walk.mem_keys p).mp hp))
  have hlen := length_keys walk
  rw [listSubtree, if_neg (by omega), hnorm]
  dsimp only
  rw [listFrom_eq hcopied (by rw [List.length_nil]; omega), List.nil_append]

theorem isListed_iff_extends {r : PathRegistry} (hstored : AllStored r) {ss : List Bytes}
    (hss : ∀ s ∈ ss, IsSegment s) (hne : ss ≠ []) {p : Bytes} (hp : p ∈ r.nodes) (maxDepth : Int) :
    isListed (pathOf ss) maxDepth p = true ↔ Extends maxDepth (pathOf ss) p := by
  obtain ⟨ts, hts, rfl⟩ := exists_segments_of_isStored (hstored p hp)
  rw [isListed_iff hss hts hne]
  constructor
  · rintro ⟨ext, rfl, hsome, hlen⟩
    exact ⟨ss, ext, hts, rfl, rfl, hsome, hlen⟩
  · rintro ⟨ss', ext, hall, hprefix, hpath, hsome, hlen⟩
    have hss' : ∀ s ∈ ss', IsSegment s := fun s hs => hall s (List.mem_append_left ext hs)
    rw [pathOf_inj hss hss' hprefix]
    exact ⟨ext, pathOf_inj hts hall hpath, hsome, hlen⟩

/-- **A subtree is listed exactly**, after any calls and in any order of the
walk, unless the prefix is the root and something lies near enough under it. -/
theorem listSubtree_exact_iff (calls : List RegistryCall)
    (walk : Walk (({} : PathRegistry).after calls).nodes) {path normPrefix : Bytes}
    (hnorm : normalizePath path maxPath = .ok normPrefix) {maxDepth outCapacity : Int}
    (hdepth : 0 ≤ maxDepth ∧ maxDepth ≤ listMaxDepth)
    (hroom : ((({} : PathRegistry).after calls).nodes.keys.card : Int) ≤ outCapacity) :
    ListsExactly (({} : PathRegistry).after calls) maxDepth normPrefix
        ((({} : PathRegistry).after calls).listSubtree walk path maxDepth outCapacity) ↔
      (normPrefix ≠ ascii "/" ∨
        ∀ p ∈ (({} : PathRegistry).after calls).nodes, ¬Extends maxDepth normPrefix p) := by
  have hstored := allStored_after calls
  rw [ListsExactly, listSubtree_eq hstored walk hnorm hdepth hroom]
  obtain ⟨-, ss, hss, rfl⟩ := isNormalized_of_normalizePath hnorm
  by_cases hne : ss = []
  · have hroot : pathOf ss = ascii "/" := by rw [hne]; rfl
    have hnone : walk.keys.filter (isListed (pathOf ss) maxDepth) = [] := by
      rw [List.filter_eq_nil_iff]
      intro p hp
      obtain ⟨ts, hts, rfl⟩ := exists_segments_of_isStored (hstored p ((walk.mem_keys p).mp hp))
      rw [hroot]
      exact Bool.not_eq_true _ ▸ isListed_root hts maxDepth
    rw [hnone]
    constructor
    · rintro ⟨out, hout, -, hmem⟩
      refine Or.inr fun p hp hextends => ?_
      have hlisted := (hmem p).mpr ⟨hp, hextends⟩
      rw [← Except.ok.inj hout] at hlisted
      exact absurd hlisted List.not_mem_nil
    · rintro (hneroot | hfar)
      · exact absurd hroot hneroot
      · refine ⟨[], rfl, List.nodup_nil, fun p => iff_of_false List.not_mem_nil ?_⟩
        rintro ⟨hp, hextends⟩
        exact hfar p hp hextends
  · refine iff_of_true ?_ (Or.inl ?_)
    · refine ⟨_, rfl, walk.nodup.filter _, fun p => ?_⟩
      rw [List.mem_filter, walk.mem_keys]
      refine and_congr_right fun hp => ?_
      exact isListed_iff_extends hstored hss hne hp maxDepth
    · intro hroot
      have hempty : pathOf ([] : List Bytes) = ascii "/" := rfl
      exact hne (pathOf_inj hss (by simp) (hroot.trans hempty.symm))

def oneDeclaration : List RegistryCall :=
  [.advancePhase .p1, .registerDeclaration (ascii "/kernel/a") ⟨.builtin, none, none⟩]

theorem mem_oneDeclaration (p : Bytes) :
    p ∈ (({} : PathRegistry).after oneDeclaration).nodes ↔ p = ascii "/kernel/a" := by
  have hnodes : (({} : PathRegistry).after oneDeclaration).nodes =
      (∅ : Finmap fun _ : Bytes => PathNode).insert (ascii "/kernel/a")
        { hasDeclaration := true, declaredIn := .p1 } := rfl
  rw [hnodes, Finmap.mem_insert]
  exact or_iff_left Finmap.notMem_empty

def oneWalk : Walk (({} : PathRegistry).after oneDeclaration).nodes where
  keys := [ascii "/kernel/a"]
  nodup := List.nodup_singleton _
  mem_keys p := by rw [mem_oneDeclaration, List.mem_singleton]

theorem extends_oneDeclaration : Extends 2 (ascii "/") (ascii "/kernel/a") := by
  have hsegments : ∀ s ∈ [ascii "kernel", ascii "a"], IsSegment s := by
    intro s hs
    rcases List.mem_pair.mp hs with rfl | rfl <;> constructor <;> decide
  exact ⟨[], [ascii "kernel", ascii "a"], hsegments, rfl, rfl, by simp, by decide⟩

/-- Nothing is listed under the root. -/
theorem root_not_listed :
    ¬ListsExactly (({} : PathRegistry).after oneDeclaration) 2 (ascii "/")
      ((({} : PathRegistry).after oneDeclaration).listSubtree oneWalk (ascii "/") 2 1) := by
  rintro ⟨out, hout, -, hmem⟩
  have hnone : (({} : PathRegistry).after oneDeclaration).listSubtree oneWalk (ascii "/") 2 1 =
      .ok [] := rfl
  have hlisted := (hmem (ascii "/kernel/a")).mpr
    ⟨(mem_oneDeclaration _).mpr rfl, extends_oneDeclaration⟩
  rw [← Except.ok.inj (hnone.symm.trans hout)] at hlisted
  exact absurd hlisted List.not_mem_nil

theorem listSubtree_exact_iff_kernel :
    normalizePath (ascii "/kernel/") maxPath = .ok (ascii "/kernel") ∧
      ListsExactly (({} : PathRegistry).after oneDeclaration) 0 (ascii "/kernel")
        ((({} : PathRegistry).after oneDeclaration).listSubtree oneWalk (ascii "/kernel/") 0 1) := by
  have hnorm : normalizePath (ascii "/kernel/") maxPath = .ok (ascii "/kernel") := rfl
  refine ⟨hnorm, (listSubtree_exact_iff oneDeclaration oneWalk hnorm (by decide) ?_).mpr ?_⟩
  · rw [← length_keys oneWalk]
    decide
  · exact Or.inl (by decide)

end BlessStar.Registry.Proofs.Subtree
