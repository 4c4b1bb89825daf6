import BlessStar.Gate.Proofs.JsonRoundTrip
import BlessStar.Sdk.PersistFile

/-!
# Runtime values across a restart

The reader drops each backslash that the writer puts, and with it what the
escapes of control characters stand for.  All other bytes come back, and the
file is whole at every moment.
-/

namespace BlessStar.Sdk.Proofs.PersistRoundTrip

open Lib.ByteString Lib.FileSystem Gate Persistence

def loadedByte (c : UInt8) : Bytes :=
  if c = 10 then ascii "n"
  else if c = 13 then ascii "r"
  else if c = 9 then ascii "t"
  else if c < 32 then ascii "u00" ++ [digitByte (c.toNat / 16), digitByte (c.toNat % 16)]
  else [c]

def loaded (s : Bytes) : Bytes := s.flatMap loadedByte

theorem loadString_raw {c : UInt8} (hquote : c ≠ ch '"') (hslash : c ≠ ch '\\') (rest : Bytes) :
    loadString (c :: rest) = (c :: (loadString rest).1, (loadString rest).2) := by
  rw [loadString.eq_def]
  simp only [if_neg hquote, if_neg hslash]

theorem loadString_escape (e : UInt8) (rest : Bytes) :
    loadString (ch '\\' :: e :: rest) = (e :: (loadString rest).1, (loadString rest).2) := by
  rw [loadString]
  rfl

theorem loadString_escapeByte (c : UInt8) (rest : Bytes) :
    loadString (jsonEscapeByte c ++ rest) =
      (loadedByte c ++ (loadString rest).1, (loadString rest).2) := by
  by_cases hquote : c = ch '"'
  · subst hquote
    exact loadString_escape _ _
  by_cases hslash : c = ch '\\'
  · subst hslash
    exact loadString_escape _ _
  by_cases h10 : c = 10
  · subst h10
    exact loadString_escape _ _
  by_cases h13 : c = 13
  · subst h13
    exact loadString_escape _ _
  by_cases h9 : c = 9
  · subst h9
    exact loadString_escape _ _
  rw [jsonEscapeByte, if_neg hquote, if_neg hslash, if_neg h10, if_neg h13, if_neg h9, loadedByte,
    if_neg h10, if_neg h13, if_neg h9]
  by_cases hlow : c < 32
  · -- five plain bytes after the backslash, the first of them taken for itself
    have hdigit : ∀ d < 16, digitByte d ≠ ch '"' ∧ digitByte d ≠ ch '\\' := by decide
    have hc : c.toNat < 32 := UInt8.lt_iff_toNat_lt.mp hlow
    obtain ⟨hq, hs⟩ := hdigit (c.toNat / 16) (by omega)
    obtain ⟨hq', hs'⟩ := hdigit (c.toNat % 16) (by omega)
    rw [if_pos hlow, if_pos hlow]
    show loadString (ch '\\' :: ch 'u' :: ch '0' :: ch '0' :: _ :: _ :: rest) = _
    rw [loadString_escape, loadString_raw (by decide) (by decide),
      loadString_raw (by decide) (by decide), loadString_raw hq hs, loadString_raw hq' hs']
    rfl
  · rw [if_neg hlow, if_neg hlow]
    exact loadString_raw hquote hslash rest

theorem loadString_jsonEscape (s rest : Bytes) :
    loadString (s.flatMap jsonEscapeByte ++ ch '"' :: rest) = (loaded s, ch '"' :: rest) := by
  induction s with
  | nil =>
      rw [List.flatMap_nil, List.nil_append, loadString.eq_def]
      simp only [if_true]
      rfl
  | cons c s ih =>
      rw [List.flatMap_cons, List.append_assoc, loadString_escapeByte, ih]
      rfl

theorem isPlain_loadedByte (c : UInt8) : IsPlain (loadedByte c) := by
  unfold loadedByte IsPlain
  split
  · decide
  split
  · decide
  split
  · decide
  split
  · rename_i hlow
    have hc : c.toNat < 32 := UInt8.lt_iff_toNat_lt.mp hlow
    have hdigit : ∀ d < 16, (32 : UInt8) ≤ digitByte d := by decide
    have hword : ∀ b ∈ ascii "u00", (32 : UInt8) ≤ b := by decide
    intro b hb
    rcases List.mem_append.mp hb with hb | hb
    · exact hword b hb
    · have hpair : b = digitByte (c.toNat / 16) ∨ b = digitByte (c.toNat % 16) := by
        simpa using hb
      rcases hpair with rfl | rfl
      · exact hdigit _ (by omega)
      · exact hdigit _ (by omega)
  · rename_i hlow
    intro b hb
    rw [List.mem_singleton.mp hb]
    exact UInt8.not_lt.mp hlow

theorem isPlain_loaded (s : Bytes) : IsPlain (loaded s) := by
  intro b hb
  obtain ⟨c, -, hb⟩ := List.mem_flatMap.mp hb
  exact isPlain_loadedByte c b hb

theorem loaded_of_isPlain {s : Bytes} (h : IsPlain s) : loaded s = s := by
  induction s with
  | nil => rfl
  | cons c s ih =>
      have hc : (32 : UInt8) ≤ c := h c List.mem_cons_self
      have hlow : ¬c < 32 := UInt8.not_lt.mpr hc
      have hne : c ≠ 10 ∧ c ≠ 13 ∧ c ≠ 9 := by
        refine ⟨?_, ?_, ?_⟩ <;>
        · rintro rfl
          exact absurd hc (by decide)
      rw [loaded, List.flatMap_cons, loadedByte, if_neg hne.1, if_neg hne.2.1, if_neg hne.2.2,
        if_neg hlow, List.singleton_append]
      congr 1
      exact ih fun b hb => h b (List.mem_cons_of_mem c hb)

def loadedMember (kv : Bytes × Bytes) : Bytes × Bytes := (loaded kv.1, loaded kv.2)

def NoNul (kv : Bytes × Bytes) : Prop := (0 : UInt8) ∉ kv.1 ∧ (0 : UInt8) ∉ kv.2

def persistRest : List (Bytes × Bytes) → Bytes
  | [] => ascii "\n\x7d\n"
  | kv :: kvs => ascii ",\n" ++ (persistMember kv ++ persistRest kvs)

theorem persistText_cons (kv : Bytes × Bytes) (kvs : List (Bytes × Bytes)) :
    persistText (kv :: kvs) = ascii "\x7b\n" ++ (persistMember kv ++ persistRest kvs) := by
  have hrest : ∀ kv, (ascii ",\n").intercalate ((kv :: kvs).map persistMember) ++ ascii "\n\x7d\n" =
      persistMember kv ++ persistRest kvs := by
    induction kvs with
    | nil =>
        intro kv
        simp [persistRest, List.intercalate]
    | cons kv' kvs ih =>
        intro kv
        rw [List.map_cons, List.map_cons, List.intercalate_cons_cons, List.append_assoc,
          List.append_assoc, ← List.map_cons, ih]
        simp [persistRest]
  rw [persistText, List.append_assoc, hrest]

theorem skipBlanks_white {c : UInt8} (h : isWhite c = true) (p : Bytes) :
    skipBlanks (c :: p) = skipBlanks p := by
  simp [skipBlanks, h]

theorem skipBlanks_other {c : UInt8} (h : isWhite c = false) (p : Bytes) :
    skipBlanks (c :: p) = c :: p := by
  simp [skipBlanks, h]

theorem loadValue_written (s rest : Bytes) :
    loadValue (ch '"' :: (s.flatMap jsonEscapeByte ++ ch '"' :: rest)) = (loaded s, rest) := by
  simp only [loadValue, if_true, loadString_jsonEscape]
  rfl

def memberBody (kv : Bytes × Bytes) (rest : Bytes) : Bytes :=
  kv.1.flatMap jsonEscapeByte ++ ch '"' :: ch ':' :: ch ' ' :: ch '"' ::
    (kv.2.flatMap jsonEscapeByte ++ ch '"' :: rest)

theorem skipBlanks_member {kv : Bytes × Bytes} (h : NoNul kv) (rest : Bytes) :
    skipBlanks (persistMember kv ++ rest) = ch '"' :: memberBody kv rest := by
  rw [persistMember, ConfigDeclareState.jsonEscape, ConfigDeclareState.jsonEscape,
    cstr_eq_self h.1, cstr_eq_self h.2]
  simp only [Gate.jsonEscape, List.append_assoc, List.cons_append]
  rfl

theorem loadMember_written (kv : Bytes × Bytes) (rest : Bytes) :
    loadMember (ch '"' :: memberBody kv rest) = some (loadedMember kv, rest) := by
  unfold loadMember memberBody
  simp only [ne_eq, not_true_eq_false, if_false, loadString_jsonEscape]
  rw [skipBlanks_other (by decide)]
  simp only [not_true_eq_false, if_false]
  rw [skipBlanks_white (by decide), skipBlanks_other (by decide), loadValue_written]
  rfl

theorem loadMembers_member {kv : Bytes × Bytes} (h : NoNul kv) (fuel : Nat) (rest : Bytes) :
    loadMembers (fuel + 1) (persistMember kv ++ rest) =
      (loadedMember kv :: (loadMembers fuel rest).1, (loadMembers fuel rest).2) := by
  have hbrace : ch '"' ≠ ch '\x7d' := by decide
  have hcomma : ch '"' ≠ ch ',' := by decide
  rw [loadMembers, skipBlanks_member h]
  simp only [if_neg hbrace, if_neg hcomma, loadMember_written]

theorem loadMembers_comma (fuel : Nat) (p : Bytes) :
    loadMembers (fuel + 1) (ch ',' :: p) = loadMembers fuel p := by
  have hbrace : ch ',' ≠ ch '\x7d' := by decide
  rw [loadMembers, skipBlanks_other (by decide)]
  simp only [if_neg hbrace, if_true]

theorem loadMembers_white {c : UInt8} (h : isWhite c = true) (fuel : Nat) (p : Bytes) :
    loadMembers fuel (c :: p) = loadMembers fuel p := by
  cases fuel with
  | zero => rfl
  | succ fuel => rw [loadMembers, loadMembers, skipBlanks_white h]

theorem loadMembers_rest {kvs : List (Bytes × Bytes)} (h : ∀ kv ∈ kvs, NoNul kv) :
    ∀ fuel, 2 * kvs.length < fuel →
      loadMembers fuel (persistRest kvs) = (kvs.map loadedMember, true) := by
  induction kvs with
  | nil =>
      intro fuel hfuel
      cases fuel with
      | zero => omega
      | succ fuel => rfl
  | cons kv kvs ih =>
      intro fuel hfuel
      rw [List.length_cons] at hfuel
      obtain ⟨fuel, rfl⟩ := Nat.exists_eq_add_of_le' (show 2 ≤ fuel by omega)
      show loadMembers (fuel + 2) (ch ',' :: 10 :: (persistMember kv ++ persistRest kvs)) = _
      rw [loadMembers_comma, loadMembers_white (by decide),
        loadMembers_member (h kv List.mem_cons_self),
        ih (fun kv hkv => h kv (List.mem_cons_of_mem _ hkv)) fuel (by omega)]
      rfl

theorem two_mul_length_le_persistRest (kvs : List (Bytes × Bytes)) :
    2 * kvs.length ≤ (persistRest kvs).length := by
  induction kvs with
  | nil => exact Nat.zero_le _
  | cons kv kvs ih =>
      have hsep : (ascii ",\n").length = 2 := by decide
      rw [persistRest, List.length_append, List.length_append, List.length_cons, hsep]
      omega

theorem persistMember_noNul {kv : Bytes × Bytes} (h : NoNul kv) :
    (0 : UInt8) ∉ persistMember kv := by
  have hindent : (0 : UInt8) ∉ ascii "  " := by decide
  have hcolon : (0 : UInt8) ∉ ascii ": " := by decide
  rw [persistMember, ConfigDeclareState.jsonEscape, ConfigDeclareState.jsonEscape,
    cstr_eq_self h.1, cstr_eq_self h.2]
  simp [hindent, hcolon, Gate.Proofs.JsonRoundTrip.jsonEscape_noNul h.1,
    Gate.Proofs.JsonRoundTrip.jsonEscape_noNul h.2]

theorem persistText_noNul {kvs : List (Bytes × Bytes)} (h : ∀ kv ∈ kvs, NoNul kv) :
    (0 : UInt8) ∉ persistText kvs := by
  have hopen : (0 : UInt8) ∉ ascii "\x7b\n" := by decide
  have hclose : (0 : UInt8) ∉ ascii "\n\x7d\n" := by decide
  have hmembers : (0 : UInt8) ∉ (ascii ",\n").intercalate (kvs.map persistMember) := by
    apply Gate.Proofs.JsonRoundTrip.intercalate_noNul (by decide)
    intro x hx
    obtain ⟨kv, hkv, rfl⟩ := List.mem_map.mp hx
    exact persistMember_noNul (h kv hkv)
  simp [persistText, hopen, hclose, hmembers]

theorem loadText_persistText {kvs : List (Bytes × Bytes)} (hne : kvs ≠ [])
    (h : ∀ kv ∈ kvs, NoNul kv) :
    loadText (persistText kvs) = (kvs.map loadedMember, true) := by
  obtain ⟨kv, kvs, rfl⟩ := List.exists_cons_of_ne_nil hne
  have hkvs : ∀ kv ∈ kvs, NoNul kv := fun kv hkv => h kv (List.mem_cons_of_mem _ hkv)
  have htext : skipBlanks (persistText (kv :: kvs)) =
      ch '\x7b' :: 10 :: (persistMember kv ++ persistRest kvs) := by
    rw [persistText_cons]
    exact skipBlanks_other (by decide) _
  have hlen := two_mul_length_le_persistRest kvs
  rw [loadText, cstr_eq_self (persistText_noNul h), htext]
  simp only [if_true, List.length_cons, List.length_append]
  rw [loadMembers_white (by decide), loadMembers_member (h kv List.mem_cons_self),
    loadMembers_rest hkvs _ (by omega)]
  rfl

/-- What the writes keep: every value has a declared key, and no NUL is in it. -/
structure Kept (fields : StringMap FieldDecl) (s : ConfigDeclareState) : Prop where
  fields_eq : s.fields = fields
  initialized : s.runtimeValues ≠ ∅ → s.initialized = true
  entry : ∀ k v, s.runtimeValues.lookup k = some v →
    k ≠ [] ∧ NoNul (k, v) ∧ ∃ f, fields.lookup k = some f

theorem kept_write {fields : StringMap FieldDecl} {s : ConfigDeclareState} (h : Kept fields s)
    (key value : Bytes) : Kept fields (s.write key value).2 := by
  unfold ConfigDeclareState.write
  dsimp only
  by_cases hempty : cstr key = []
  · rw [if_pos hempty]
    exact h
  rw [if_neg hempty]
  split
  · exact ⟨h.fields_eq, fun _ => rfl, h.entry⟩
  · rename_i f hf
    refine ⟨h.fields_eq, fun _ => rfl, ?_⟩
    intro k v hv
    by_cases hk : k = cstr key
    · subst hk
      rw [Finmap.lookup_insert, Option.some.injEq] at hv
      rw [← hv]
      exact ⟨hempty, ⟨not_zero_mem_cstr key, not_zero_mem_cstr value⟩, f, h.fields_eq ▸ hf⟩
    · rw [Finmap.lookup_insert_of_ne _ hk] at hv
      exact h.entry k v hv

theorem kept_written (fields : StringMap FieldDecl) (writes : List (Bytes × Bytes)) :
    Kept fields (written fields writes) := by
  have hfresh : Kept fields (freshState fields) := by
    refine ⟨rfl, fun h => absurd rfl h, ?_⟩
    intro k v hv
    exact absurd hv (by simp [freshState])
  have hrun : ∀ s, Kept fields s → Kept fields (writes.foldl (fun s kv => (s.write kv.1 kv.2).2) s) := by
    induction writes with
    | nil => exact fun s h => h
    | cons kv writes ih => exact fun s h => ih _ (kept_write h kv.1 kv.2)
  exact hrun _ hfresh

theorem loadEntry_declared {s : ConfigDeclareState} {kv : Bytes × Bytes} (hne : kv.1 ≠ [])
    {f : FieldDecl} (hf : s.fields.lookup kv.1 = some f) :
    loadEntry s kv = { s with runtimeValues := s.runtimeValues.insert kv.1 kv.2 } := by
  rw [loadEntry, if_neg hne, hf]

theorem loadEntry_ignored {s : ConfigDeclareState} {kv : Bytes × Bytes}
    (h : kv.1 ≠ [] → s.fields.lookup kv.1 = none) : loadEntry s kv = s := by
  unfold loadEntry
  split
  · rfl
  · rename_i hne
    rw [h hne]

theorem loadEntry_cases (s : ConfigDeclareState) (kv : Bytes × Bytes) :
    loadEntry s kv = s ∨
      loadEntry s kv = { s with runtimeValues := s.runtimeValues.insert kv.1 kv.2 } := by
  unfold loadEntry
  split
  · exact Or.inl rfl
  · split
    · exact Or.inr rfl
    · exact Or.inl rfl

theorem lookup_foldl_loadEntry {kvs : List (Bytes × Bytes)} {s : ConfigDeclareState} {k v : Bytes}
    (h : (kvs.foldl loadEntry s).runtimeValues.lookup k = some v) :
    s.runtimeValues.lookup k = some v ∨ (k, v) ∈ kvs := by
  induction kvs generalizing s with
  | nil => exact Or.inl h
  | cons kv kvs ih =>
      rw [List.foldl_cons] at h
      rcases ih h with hv | hmem
      · rcases loadEntry_cases s kv with hs | hs
        · rw [hs] at hv
          exact Or.inl hv
        · rw [hs] at hv
          by_cases hk : k = kv.1
          · rw [hk, Finmap.lookup_insert, Option.some.injEq] at hv
            rw [hk, ← hv]
            exact Or.inr List.mem_cons_self
          · rw [Finmap.lookup_insert_of_ne _ hk] at hv
            exact Or.inl hv
      · exact Or.inr (List.mem_cons_of_mem _ hmem)

theorem lookup_foldl_declared {kvs : List (Bytes × Bytes)} {s : ConfigDeclareState}
    (hdeclared : ∀ kv ∈ kvs, kv.1 ≠ [] ∧ ∃ f, s.fields.lookup kv.1 = some f)
    (hnodup : (kvs.map Prod.fst).Nodup) (k : Bytes) :
    (∀ v, (k, v) ∈ kvs → (kvs.foldl loadEntry s).runtimeValues.lookup k = some v) ∧
      (k ∉ kvs.map Prod.fst →
        (kvs.foldl loadEntry s).runtimeValues.lookup k = s.runtimeValues.lookup k) := by
  induction kvs generalizing s with
  | nil => exact ⟨fun v hv => absurd hv List.not_mem_nil, fun _ => rfl⟩
  | cons kv kvs ih =>
      obtain ⟨hne, f, hf⟩ := hdeclared kv List.mem_cons_self
      rw [List.map_cons, List.nodup_cons] at hnodup
      rw [List.foldl_cons, loadEntry_declared hne hf]
      obtain ⟨hin, hout⟩ := ih (s := { s with runtimeValues := s.runtimeValues.insert kv.1 kv.2 })
        (fun kv hkv => hdeclared kv (List.mem_cons_of_mem _ hkv)) hnodup.2
      constructor
      · intro v hv
        rcases List.mem_cons.mp hv with rfl | hv
        · rw [hout hnodup.1]
          exact Finmap.lookup_insert _
        · exact hin v hv
      · intro hk
        rw [List.map_cons, List.mem_cons, not_or] at hk
        rw [hout hk.2]
        exact Finmap.lookup_insert_of_ne _ hk.1

theorem insert_ne_empty {β : Type} (m : StringMap β) (k : Bytes) (v : β) : m.insert k v ≠ ∅ := by
  intro h
  have hlookup := Finmap.lookup_insert (a := k) (b := v) m
  rw [h, Finmap.lookup_empty] at hlookup
  exact absurd hlookup (by simp)

theorem foldl_loadEntry_ne_empty {kvs : List (Bytes × Bytes)} {s : ConfigDeclareState}
    (hs : s.runtimeValues ≠ ∅) : (kvs.foldl loadEntry s).runtimeValues ≠ ∅ := by
  induction kvs generalizing s with
  | nil => exact hs
  | cons kv kvs ih =>
      rw [List.foldl_cons]
      apply ih
      rcases loadEntry_cases s kv with h | h
      · rw [h]
        exact hs
      · rw [h]
        exact insert_ne_empty _ _ _

theorem foldl_loadEntry_eq_empty_iff (kvs : List (Bytes × Bytes)) {s : ConfigDeclareState}
    (hs : s.runtimeValues = ∅) :
    (kvs.foldl loadEntry s).runtimeValues = ∅ ↔
      ∀ kv ∈ kvs, kv.1 ≠ [] → s.fields.lookup kv.1 = none := by
  induction kvs with
  | nil => exact ⟨fun _ kv hkv => absurd hkv List.not_mem_nil, fun _ => hs⟩
  | cons kv kvs ih =>
      rw [List.foldl_cons, List.forall_mem_cons]
      by_cases hkv : kv.1 ≠ [] → s.fields.lookup kv.1 = none
      · rw [loadEntry_ignored hkv, ih]
        exact ⟨fun h => ⟨hkv, h⟩, fun h => h.2⟩
      · obtain ⟨hne, hsome⟩ := Classical.not_imp.mp hkv
        obtain ⟨f, hf⟩ := Option.ne_none_iff_exists'.mp hsome
        constructor
        · intro h
          apply absurd h
          apply foldl_loadEntry_ne_empty
          rw [loadEntry_declared hne hf]
          exact insert_ne_empty _ _ _
        · intro h
          exact absurd h.1 hkv

section Restart

variable {fields : StringMap FieldDecl} {path : Path} {d : AttachDisk}

theorem loadedAfresh_congr {d' : AttachDisk} (h : d (cstr path) = d' (cstr path)) :
    loadedAfresh fields path d = loadedAfresh fields path d' := by
  rw [loadedAfresh, loadedAfresh, persistLoad, persistLoad, h]

theorem loadedAfresh_content {content : Bytes} (hpath : cstr path ≠ [])
    (hd : d (cstr path) = some content) (hne : content ≠ []) :
    loadedAfresh fields path d = (if (loadText content).2 then 0 else -1,
      ((loadText content).1.foldl loadEntry (freshState fields).ensureInit).runtimeValues) := by
  obtain ⟨c, content, rfl⟩ := List.exists_cons_of_ne_nil hne
  rw [loadedAfresh, persistLoad, if_neg hpath, hd]

theorem loadedAfresh_eq_empty_iff (fields : StringMap FieldDecl) (hpath : cstr path ≠ []) :
    loadedAfresh fields path d = (0, ∅) ↔
      ∀ content ∈ d (cstr path), content ≠ [] → (loadText content).2 = true ∧
        ∀ kv ∈ (loadText content).1, kv.1 ≠ [] → fields.lookup kv.1 = none := by
  cases hd : d (cstr path) with
  | none =>
      have h : loadedAfresh fields path d = (0, ∅) := by
        rw [loadedAfresh, persistLoad, if_neg hpath, hd]
        rfl
      simp [h]
  | some content =>
      by_cases hne : content = []
      · have h : loadedAfresh fields path d = (0, ∅) := by
          rw [loadedAfresh, persistLoad, if_neg hpath, hd, hne]
          rfl
        simp [h, hne]
      · have hfold := foldl_loadEntry_eq_empty_iff (loadText content).1
          (s := (freshState fields).ensureInit) rfl
        have hcode : (if (loadText content).2 then (0 : Int) else -1) = 0 ↔
            (loadText content).2 = true := by
          split <;> simp [*]
        rw [loadedAfresh_content hpath hd hne, Prod.mk.injEq, hcode, hfold]
        constructor
        · intro h content' hcontent' _
          rw [Option.mem_some_iff.mp hcontent'] at h
          exact h
        · exact fun h => h content (Option.mem_some_self content) hne

theorem loadedAfresh_persistText_iff {s : ConfigDeclareState} (hs : Kept fields s)
    (order : MapOrder Bytes) (hne : s.runtimeValues ≠ ∅) (hpath : cstr path ≠ [])
    (hd : d (cstr path) = some (persistText (order.entries s.runtimeValues))) :
    loadedAfresh fields path d = (0, s.runtimeValues) ↔
      ∀ k v, s.runtimeValues.lookup k = some v → IsPlain k ∧ IsPlain v := by
  have hmem := order.mem_entries s.runtimeValues
  have hentries := order.entries_ne_nil hne
  have hnul : ∀ kv ∈ order.entries s.runtimeValues, NoNul kv :=
    fun kv hkv => (hs.entry kv.1 kv.2 ((hmem kv.1 kv.2).mp hkv)).2.1
  have htext : persistText (order.entries s.runtimeValues) ≠ [] := by
    have hclose : ascii "\n\x7d\n" ≠ [] := by decide
    exact List.append_ne_nil_of_right_ne_nil _ hclose
  rw [loadedAfresh_content hpath hd htext, loadText_persistText hentries hnul, Prod.mk.injEq]
  constructor
  · rintro ⟨-, hvalues⟩ k v hv
    rw [← hvalues] at hv
    rcases lookup_foldl_loadEntry hv with hfresh | hloaded
    · exact absurd hfresh (by simp [ConfigDeclareState.ensureInit, freshState])
    · obtain ⟨kv, -, hkv⟩ := List.mem_map.mp hloaded
      rw [loadedMember, Prod.mk.injEq] at hkv
      rw [← hkv.1, ← hkv.2]
      exact ⟨isPlain_loaded _, isPlain_loaded _⟩
  · intro hplain
    have hsame : (order.entries s.runtimeValues).map loadedMember =
        order.entries s.runtimeValues := by
      rw [List.map_congr_left (g := id), List.map_id]
      intro kv hkv
      obtain ⟨hk, hv⟩ := hplain kv.1 kv.2 ((hmem kv.1 kv.2).mp hkv)
      rw [loadedMember, loaded_of_isPlain hk, loaded_of_isPlain hv, id]
    have hdeclared : ∀ kv ∈ order.entries s.runtimeValues, kv.1 ≠ [] ∧
        ∃ f, (freshState fields).ensureInit.fields.lookup kv.1 = some f := by
      intro kv hkv
      obtain ⟨hkey, -, hf⟩ := hs.entry kv.1 kv.2 ((hmem kv.1 kv.2).mp hkv)
      exact ⟨hkey, hf⟩
    have hlookup := lookup_foldl_declared hdeclared (order.nodup_keys s.runtimeValues)
    rw [hsame]
    refine ⟨rfl, Finmap.ext_lookup fun k => ?_⟩
    obtain ⟨hin, hout⟩ := hlookup k
    cases hk : s.runtimeValues.lookup k with
    | some v => exact hin v ((hmem k v).mpr hk)
    | none =>
        rw [hout]
        · rfl
        · intro hmapped
          obtain ⟨kv, hkv, rfl⟩ := List.mem_map.mp hmapped
          rw [(hmem kv.1 kv.2).mp hkv] at hk
          exact absurd hk (by simp)

theorem persistTmpPath_ne (path : Path) : path ≠ persistTmpPath path := by
  have hsuffix : ascii ".tmp" ≠ [] := by decide
  intro h
  exact hsuffix (List.self_eq_append_right.mp h)

theorem persistSteps_frame (text : Bytes) {fault : PersistFault} (h : fault ≠ .none) :
    ∀ f ∈ persistSteps path text fault, ∀ d', d' path = d path → (f d') path = d path := by
  have hother := persistTmpPath_ne path
  intro f hf d' hd'
  cases fault with
  | none => exact absurd rfl h
  | openTmp => exact absurd hf List.not_mem_nil
  | write done =>
      simp only [persistSteps, List.mem_cons, List.not_mem_nil, or_false] at hf
      rcases hf with rfl | rfl | rfl
      · exact (Disk.write_other hother).trans hd'
      · exact (appendFile_other hother).trans hd'
      · exact (Disk.remove_other hother).trans hd'
  | flush =>
      simp only [persistSteps, List.mem_cons, List.not_mem_nil, or_false] at hf
      rcases hf with rfl | rfl
      · exact (Disk.write_other hother).trans hd'
      · exact (Disk.remove_other hother).trans hd'
  | rename =>
      simp only [persistSteps, List.mem_cons, List.not_mem_nil, or_false] at hf
      rcases hf with rfl | rfl | rfl
      · exact (Disk.write_other hother).trans hd'
      · exact (appendFile_other hother).trans hd'
      · exact (Disk.remove_other hother).trans hd'

theorem persistSteps_done (text : Bytes) :
    runSteps (persistSteps path text .none) d path = some text := by
  have htmp : appendFile (d.write (persistTmpPath path) []) (persistTmpPath path) text
      (persistTmpPath path) = some text := by
    rw [appendFile_same, Disk.write_same]
    rfl
  rw [persistSteps, runSteps_cons, runSteps_cons, runSteps_cons, runSteps_nil,
    Disk.rename_of_eq_some htmp, Disk.write_same]

theorem persistSteps_crash (path : Path) (text : Bytes) (fault : PersistFault) (k : Nat) :
    crashAfter k (persistSteps path text fault) d path = d path ∨
      crashAfter k (persistSteps path text fault) d path = some text := by
  by_cases hfault : fault = .none
  · subst hfault
    have hother := persistTmpPath_ne path
    match k with
    | 0 => exact Or.inl rfl
    | 1 => exact Or.inl (Disk.write_other hother)
    | 2 => exact Or.inl ((appendFile_other hother).trans (Disk.write_other hother))
    | k + 3 =>
        rw [crashAfter_all (by simp [persistSteps])]
        exact Or.inr (persistSteps_done text)
  · exact Or.inl (crashAfter_invariant (P := fun d' : AttachDisk => d' path = d path)
      (persistSteps_frame text hfault) rfl k)

theorem survivesRestart_iff (order : MapOrder Bytes) {s : ConfigDeclareState}
    (hs : Kept s.fields s) : SurvivesRestart order s path d ↔ Persistable s path d := by
  have hminus : (-1 : Int) ≠ 0 := by decide
  by_cases hpath : cstr path = []
  · constructor
    · rintro ⟨⟨hcode, -⟩, -⟩
      rw [persistWrite, persistWriteSteps, if_pos (Or.inl hpath)] at hcode
      exact absurd hcode hminus
    · exact fun h => absurd hpath h.1
  by_cases hempty : s.runtimeValues = ∅
  · cases hinit : s.initialized with
    | false =>
        constructor
        · rintro ⟨⟨hcode, -⟩, -⟩
          rw [persistWrite, persistWriteSteps, if_pos (Or.inr hinit)] at hcode
          exact absurd hcode hminus
        · intro h
          rw [Persistable, if_pos hempty, hinit] at h
          exact absurd h.2.1 (by decide)
    | true =>
        have hcond : ¬(cstr path = [] ∨ s.initialized = false) := by simp [hpath, hinit]
        have hsteps : ∀ fault, persistWriteSteps order fault s path = (0, []) := by
          intro fault
          rw [persistWriteSteps, if_neg hcond, if_pos hempty]
        have hafresh := loadedAfresh_eq_empty_iff (d := d) s.fields hpath
        rw [SurvivesRestart, Persistable, if_pos hempty, persistWrite]
        simp only [hsteps, runSteps_nil, crashAfter_nil, hempty, true_or, implies_true, and_true,
          true_and, hafresh, hinit, hpath, ne_eq, not_false_eq_true]
  · have hcond : ¬(cstr path = [] ∨ s.initialized = false) := by
      simp [hpath, hs.initialized hempty]
    have hsteps : ∀ fault, persistWriteSteps order fault s path =
        (if fault = .none then 0 else -1,
          persistSteps (cstr path) (persistText (order.entries s.runtimeValues)) fault) := by
      intro fault
      rw [persistWriteSteps, if_neg hcond, if_neg hempty]
    have hloaded := fun d => loadedAfresh_persistText_iff (d := d) hs order hempty hpath
    rw [SurvivesRestart, Persistable, if_neg hempty, persistWrite]
    simp only [hsteps, if_true, true_and]
    rw [hloaded _ (persistSteps_done _)]
    constructor
    · exact fun h => ⟨hpath, h.1⟩
    · intro h
      refine ⟨h.2, fun fault k => ?_⟩
      rcases persistSteps_crash (d := d) (cstr path)
        (persistText (order.entries s.runtimeValues)) fault k with hleft | hleft
      · exact Or.inl (loadedAfresh_congr hleft)
      · exact Or.inr ((hloaded _ hleft).mpr h.2)

/-- Values come back from the file, and a crash leaves the old ones or the new
ones, exactly when there are no control bytes in them. -/
theorem survivesRestart_written_iff (order : MapOrder Bytes) (fields : StringMap FieldDecl)
    (writes : List (Bytes × Bytes)) (path : Path) (d : AttachDisk) :
    SurvivesRestart order (written fields writes) path d ↔
      Persistable (written fields writes) path d := by
  have hkept := kept_written fields writes
  exact survivesRestart_iff order (hkept.fields_eq.symm ▸ hkept)

end Restart

/-- A declared field `k`. -/
def fieldK : StringMap FieldDecl :=
  Finmap.insert (ascii "k") ⟨1, 2, 0, 0, false, []⟩ ∅

/-- A line feed comes back as an `n`. -/
theorem lineFeed_not_restored :
    ¬SurvivesRestart default (written fieldK [(ascii "k", [10])]) (ascii "f") (fun _ => none) := by
  have hlookup : (written fieldK [(ascii "k", [10])]).runtimeValues.lookup (ascii "k") =
      some [10] := by decide
  have hne : (written fieldK [(ascii "k", [10])]).runtimeValues ≠ ∅ := by
    intro hempty
    rw [hempty, Finmap.lookup_empty] at hlookup
    exact absurd hlookup (by simp)
  have hkept := kept_written fieldK [(ascii "k", [10])]
  intro h
  rw [survivesRestart_iff default (hkept.fields_eq.symm ▸ hkept), Persistable, if_neg hne] at h
  have hplain : IsPlain [10] := (h.2 _ _ hlookup).2
  exact absurd (hplain 10 (List.mem_singleton_self 10)) (by decide)


end BlessStar.Sdk.Proofs.PersistRoundTrip
