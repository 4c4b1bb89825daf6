import BlessStar.Sdk.Proofs.SchemaLookup
import Mathlib.Algebra.Order.BigOperators.Group.List

/-!
# The schema area follows the declarations

As long as every call leaves the area in order, the editor finds the declared
fields and no others.  A patch for a key that the area does not have yet leaves
it out.
-/

namespace BlessStar.Sdk.Proofs.SchemaFollows

open Lib.ByteString Lib.ByteArea Lib.Utf8Text
open Lib.LinearProbing Lib.Transition
open SchemaArea SchemaLayout SchemaLookup
open ConfigDeclareState (textAt merge serializeSchema schemaText)
open SchemaPublishing (lastDeclared_append key_of_lastDeclared holds_merge)

variable {mem : Address → Bytes} {hash : Bytes → UInt32}

theorem declareField_keeps (s : ConfigDeclareState) (f : FieldDecl) :
    (∀ k ∈ s.dirtyKeys, k ∈ (s.declareField mem f).dirtyKeys) ∧
      ∀ k, k ∉ (s.declareField mem f).dirtyKeys →
        (s.declareField mem f).fields.lookup k = s.fields.lookup k := by
  have hinsert : (∀ k ∈ s.dirtyKeys, k ∈ s.dirtyKeys ++ [textAt mem f.key]) ∧
      ∀ k, k ∉ s.dirtyKeys ++ [textAt mem f.key] →
        (s.fields.insert (textAt mem f.key) f).lookup k = s.fields.lookup k := by
    refine ⟨fun k hk => List.mem_append_left _ hk, fun k hk => ?_⟩
    apply Finmap.lookup_insert_of_ne
    intro heq
    exact hk (List.mem_append_right _ (List.mem_singleton.mpr heq))
  have hsame : (∀ k ∈ s.dirtyKeys, k ∈ s.dirtyKeys) ∧
      ∀ k, k ∉ s.dirtyKeys → s.fields.lookup k = s.fields.lookup k :=
    ⟨fun _ hk => hk, fun _ _ => rfl⟩
  unfold ConfigDeclareState.declareField
  dsimp only
  split
  · exact hsame
  · split
    · split
      · exact hsame
      · exact hinsert
    · exact hinsert

theorem lookup_merge_of_not_dirty {s : ConfigDeclareState} {src : List FieldDecl} {k : Bytes}
    (hk : k ∉ (merge mem s src).dirtyKeys) :
    (merge mem s src).fields.lookup k = s.fields.lookup k := by
  have hrun : ∀ s : ConfigDeclareState,
      (∀ k ∈ s.dirtyKeys, k ∈ (src.foldl (ConfigDeclareState.declareField mem) s).dirtyKeys) ∧
        ∀ k, k ∉ (src.foldl (ConfigDeclareState.declareField mem) s).dirtyKeys →
          (src.foldl (ConfigDeclareState.declareField mem) s).fields.lookup k =
            s.fields.lookup k := by
    clear hk
    induction src with
    | nil => exact fun s => ⟨fun _ hk => hk, fun _ _ => rfl⟩
    | cons f src ih =>
        intro s
        obtain ⟨hdirty, hfields⟩ := @declareField_keeps mem s f
        obtain ⟨hdirty', hfields'⟩ := ih (s.declareField mem f)
        refine ⟨fun k hk => hdirty' k (hdirty k hk), fun k hk => ?_⟩
        have hk' : k ∉ (s.declareField mem f).dirtyKeys := fun hmem => hk (hdirty' k hmem)
        exact (hfields' k hk).trans (hfields k hk')
  exact (hrun s.ensureInit).2 k hk

/-- The fields are the declarations, and the area is in order. -/
structure InOrder (mem : Address → Bytes) (hash : Bytes → UInt32) (t : ShmRun) : Prop where
  holds : SchemaPublishing.Holds mem t.declared.state.fields t.declared.decls
  area : (t.declared.state.fields = ∅ ∧ Fresh t.area) ∨
    ∃ table, Indexed mem hash t.area t.declared.state.fields table

theorem holds_nothing (mem : Address → Bytes) : SchemaPublishing.Holds mem ∅ [] := by
  intro k
  have hnone : lastDeclared mem [] k = none := rfl
  rw [hnone, ite_self, Finmap.lookup_empty]

theorem key_of_lookup {fields : StringMap FieldDecl} {decls : List FieldDecl}
    (h : SchemaPublishing.Holds mem fields decls) {k : Bytes} {f : FieldDecl}
    (hf : fields.lookup k = some f) : k ≠ [] ∧ lastDeclared mem decls k = some f := by
  rw [h k] at hf
  by_cases hk : k = []
  · rw [if_pos hk] at hf
    exact absurd hf (by simp)
  · rw [if_neg hk] at hf
    exact ⟨hk, hf⟩

/-- **In order**, a lookup finds what is declared. -/
theorem InOrder.findsDeclared {t : ShmRun} (h : InOrder mem hash t) :
    FindsDeclared mem hash t := by
  rcases h.area with ⟨hempty, hfresh⟩ | ⟨table, hindexed⟩
  · constructor
    · intro k f hk hf
      have hlookup := h.holds k
      rw [hempty, if_neg hk, hf] at hlookup
      exact absurd hlookup (by simp)
    · exact fun key _ => lookup_fresh hfresh key
  · constructor
    · intro k f hk hf
      apply hindexed.lookup_found
      rw [h.holds k, if_neg hk]
      exact hf
    · intro key hnone
      apply hindexed.lookup_none
      intro k f hf
      obtain ⟨hk, hlast⟩ := key_of_lookup h.holds hf
      exact hnone k f hk hlast

theorem schemaText_ne_nil (ts : Bytes) (fields : List FieldDecl) :
    schemaText mem ts fields ≠ [] := by
  intro h
  unfold schemaText at h
  rw [List.append_eq_nil_iff] at h
  exact absurd h.2 (by decide)

theorem InOrder.declare {t : ShmRun} {order : MapOrder FieldDecl}
    {domainOrder : MapOrder (List (Bytes × Nat))} {ts : Bytes} {src : List FieldDecl}
    (h : InOrder mem hash t)
    (hfits : CallFits mem hash t { call := .declare order ts src, domainOrder := domainOrder }) :
    InOrder mem hash
      (shmStep mem hash t { call := .declare order ts src, domainOrder := domainOrder }) := by
  have hmerge := holds_merge h.holds src
  unfold shmStep declareStep ConfigDeclareState.declare SchemaArea.declare
  dsimp only
  by_cases hsrc : src = []
  · rw [if_pos hsrc, if_pos hsrc, hsrc, List.append_nil]
    exact ⟨h.holds, h.area⟩
  replace hfits := hfits hsrc
  rw [if_neg hsrc, if_neg hsrc]
  have hkeys : ∀ k f, (merge mem t.declared.state src).fields.lookup k = some f →
      textAt mem f.key = k := fun k f hf => key_of_lastDeclared (key_of_lookup hmerge hf).2
  by_cases hincremental : (merge mem t.declared.state src).incremental = true
  · rw [if_pos hincremental] at hfits
    rw [if_pos hincremental, if_pos hincremental]
    refine ⟨hmerge, Or.inr ?_⟩
    have hdirty : (merge mem t.declared.state src).dirtyKeys ≠ [] := by
      intro hnil
      unfold ConfigDeclareState.incremental at hincremental
      rw [hnil] at hincremental
      simp at hincremental
    rcases h.area with ⟨hempty, -⟩ | ⟨table, hindexed⟩
    · obtain ⟨key, rest, hcons⟩ := List.exists_cons_of_ne_nil hdirty
      obtain ⟨f, g, hf, -⟩ := hfits key (hcons ▸ List.mem_cons_self)
      rw [hempty] at hf
      exact absurd hf (by simp)
    · exact ⟨table, hindexed.patch hdirty (fun k hk => lookup_merge_of_not_dirty hk) hkeys hfits⟩
  · rw [if_neg hincremental] at hfits
    rw [if_neg hincremental, if_neg hincremental]
    refine ⟨hmerge, ?_⟩
    by_cases hempty : (merge mem t.declared.state src).fields = ∅
    · have hnone : serializeSchema mem order ts (merge mem t.declared.state src).fields = none :=
        if_pos hempty
      rw [hnone]
      rcases h.area with ⟨-, hfresh⟩ | ⟨table, hindexed⟩
      · exact Or.inl ⟨hempty, hfresh⟩
      · -- the fields that there were are still there
        obtain ⟨k, hk⟩ := hindexed.first
        obtain ⟨f, hf, -⟩ := hindexed.field k 0 hk
        obtain ⟨hne, hlast⟩ := key_of_lookup h.holds hf
        have hlookup := hmerge k
        rw [hempty, if_neg hne, lastDeclared_append, hlast] at hlookup
        cases hsrcLast : lastDeclared mem src k <;> simp [hsrcLast] at hlookup
    · have hsome : serializeSchema mem order ts (merge mem t.declared.state src).fields =
          some (schemaText mem ts
            ((order.entries (merge mem t.declared.state src).fields).map Prod.snd)) :=
        if_neg hempty
      obtain ⟨hfit, hkeysFit⟩ := hfits _ hsome
      rw [hsome]
      exact Or.inr (exists_indexed_writeSchema hfit (schemaText_ne_nil _ _) hempty hkeys hkeysFit)

theorem InOrder.step {t : ShmRun} {e : ShmCall} (h : InOrder mem hash t)
    (hfits : CallFits mem hash t e) : InOrder mem hash (shmStep mem hash t e) := by
  obtain ⟨call, domainOrder⟩ := e
  cases call with
  | declare order ts src => exact h.declare hfits
  | write key value =>
      have hfields : (t.declared.state.write key value).2.fields = t.declared.state.fields := by
        unfold ConfigDeclareState.write
        dsimp only
        split
        · rfl
        · split <;> rfl
      refine ⟨?_, ?_⟩
      · show SchemaPublishing.Holds mem (t.declared.state.write key value).2.fields _
        rw [hfields]
        exact h.holds
      · show ((t.declared.state.write key value).2.fields = ∅ ∧ _) ∨
          ∃ table, Indexed mem hash t.area (t.declared.state.write key value).2.fields table
        rw [hfields]
        exact h.area
  | clearDirty => exact ⟨h.holds, h.area⟩
  | reset =>
      have hempty : t.declared.state.fields = ∅ := hfits
      refine ⟨holds_nothing mem, Or.inl ⟨rfl, ?_⟩⟩
      rcases h.area with ⟨-, hfresh⟩ | ⟨table, hindexed⟩
      · exact hfresh
      · obtain ⟨k, hk⟩ := hindexed.first
        obtain ⟨f, hf, -⟩ := hindexed.field k 0 hk
        rw [hempty] at hf
        exact absurd hf (by simp)

section Letters

/-- The letter `n` is at the address `n`. -/
def letters (n : Address) : Bytes := [UInt8.ofNat n]

def letter (n : Nat) : FieldDecl :=
  { key := n, type := 0, defaultStr := 0, description := 0, required := false }

/-- Fields that are all letters from `a` to `l`. -/
def AreLetters (fields : StringMap FieldDecl) : Prop :=
  ∀ k f, fields.lookup k = some f → ∃ n, n < 12 ∧ f = letter (97 + n) ∧ k = letters (97 + n)

theorem length_intercalate_le (sep : Bytes) {xs : List Bytes} {c : Nat}
    (h : ∀ x ∈ xs, x.length ≤ c) : (sep.intercalate xs).length ≤ xs.length * (c + sep.length) := by
  induction xs with
  | nil => simp [List.intercalate]
  | cons x xs ih =>
      have hx := h x List.mem_cons_self
      have hxs := ih fun y hy => h y (List.mem_cons_of_mem x hy)
      rw [List.length_cons, Nat.add_mul, Nat.one_mul]
      cases xs with
      | nil =>
          rw [List.intercalate_singleton]
          omega
      | cons y ys =>
          rw [List.intercalate_cons_cons, List.length_append, List.length_append]
          omega

theorem letter_sizes : ∀ n < 12, textAt letters (letter (97 + n)).key = letters (97 + n) ∧
    recordLen letters (letter (97 + n)) = 9 ∧
      (ConfigDeclareState.fieldText letters (letter (97 + n))).length ≤ 80 ∧
        xxhash32 (letters (97 + n)) ≠ 0 ∧ encode (decode (letters (97 + n))) = letters (97 + n) := by
  decide +kernel

theorem length_entries_letters {fields : StringMap FieldDecl} (h : AreLetters fields)
    (order : MapOrder FieldDecl) : (order.entries fields).length ≤ 12 := by
  have hlen := length_entries_le (l := (List.range 12).map fun n => letters (97 + n)) order (by
    intro k f hf
    obtain ⟨n, hn, -, rfl⟩ := h k f hf
    exact List.mem_map.mpr ⟨n, List.mem_range.mpr hn, rfl⟩)
  simpa using hlen

theorem fits_letters {fields : StringMap FieldDecl} (h : AreLetters fields)
    (order : MapOrder FieldDecl) (domainOrder : MapOrder (List (Bytes × Nat))) {a : SchemaArea}
    (hcap : a.schemaCapacity = 0) :
    Fits letters order domainOrder fields (schemaText letters [] (declsOf order fields)) a := by
  have hcapacity : a.capacity = 2 * 1024 * 1024 := if_pos hcap
  have hcount := length_entries_letters h order
  have hdecl : ∀ f ∈ declsOf order fields, ∃ n, n < 12 ∧ f = letter (97 + n) := by
    intro f hf
    obtain ⟨kv, hkv, rfl⟩ := List.mem_map.mp hf
    obtain ⟨n, hn, hfn, -⟩ := h kv.1 kv.2 ((order.mem_entries fields kv.1 kv.2).mp hkv)
    exact ⟨n, hn, hfn⟩
  have hdeclCount : (declsOf order fields).length = (order.entries fields).length :=
    List.length_map _
  refine ⟨?_, ?_, ?_, ?_⟩
  · unfold hashSlotCount
    omega
  · intro f hf
    obtain ⟨n, hn, rfl⟩ := hdecl f hf
    have hlen := (letter_sizes n hn).2.1
    unfold recordLen at hlen
    exact ⟨by omega, by omega, by omega⟩
  · have hrecords : recordsLen letters (declsOf order fields) ≤ 12 * 9 := by
      have hsum := List.sum_le_card_nsmul ((declsOf order fields).map (recordLen letters)) 9 (by
        intro x hx
        obtain ⟨f, hf, rfl⟩ := List.mem_map.mp hx
        obtain ⟨n, hn, rfl⟩ := hdecl f hf
        exact (letter_sizes n hn).2.1.le)
      rw [List.length_map] at hsum
      change _ ≤ (declsOf order fields).length * 9 at hsum
      unfold recordsLen
      omega
    have htext : ∀ x ∈ (declsOf order fields).map (ConfigDeclareState.fieldText letters),
        x.length ≤ 80 := by
      intro x hx
      obtain ⟨f, hf, rfl⟩ := List.mem_map.mp hx
      obtain ⟨n, hn, rfl⟩ := hdecl f hf
      exact (letter_sizes n hn).2.2.1
    have htexts := length_intercalate_le (ascii ",\n") htext
    have hjson : (schemaText letters [] (declsOf order fields)).length ≤ 1200 := by
      have hsep : (ascii ",\n").length = 2 := by decide
      have hfixed : (ascii "\x7b\n" ++ ascii "  \"version\": \"1.0\",\n" ++
          ascii "  \"generated_at\": " ++ ConfigDeclareState.jsonEscape [] ++ ascii ",\n" ++
            ascii "  \"fields\": [\n").length ≤ 80 := by decide
      have hend : (ascii "\n  ]\n\x7d\n").length ≤ 10 := by decide
      rw [List.length_map, hdeclCount, hsep] at htexts
      unfold schemaText
      rw [List.length_append, List.length_append]
      omega
    have hdomains := length_entries_le (m := domains letters (order.entries fields)) domainOrder
      fun k v hk => mem_of_lookup_domains (order.entries fields) hk
    rw [List.length_map] at hdomains
    unfold trieEnd trieAt pagesAt recordsAt indexAt align8 hashIndexSize hashSlotCount fieldsPerPage
      sizeofTrieNode
    rw [hcapacity]
    omega
  · rw [hcapacity]
    omega

theorem areLetters_of_holds {fields : StringMap FieldDecl} {decls : List FieldDecl}
    (h : SchemaPublishing.Holds letters fields decls)
    (hdecls : ∀ f ∈ decls, ∃ n, n < 12 ∧ f = letter (97 + n)) : AreLetters fields := by
  intro k f hf
  obtain ⟨-, hlast⟩ := key_of_lookup h hf
  have hmem : f ∈ decls := (List.mem_filter.mp (List.mem_of_getLast? hlast)).1
  obtain ⟨n, hn, rfl⟩ := hdecls f hmem
  refine ⟨n, hn, rfl, ?_⟩
  rw [← key_of_lastDeclared hlast]
  exact (letter_sizes n hn).1

theorem keysFit_letters {fields : StringMap FieldDecl} (h : AreLetters fields)
    (order : MapOrder FieldDecl) : KeysFit xxhash32 order fields := by
  intro kv hkv
  obtain ⟨n, hn, -, hk⟩ := h kv.1 kv.2 ((order.mem_entries fields kv.1 kv.2).mp hkv)
  rw [hk]
  exact (letter_sizes n hn).2.2.2

theorem callFits_letters {src : List FieldDecl}
    (hsrc : ∀ f ∈ src, ∃ n, n < 12 ∧ f = letter (97 + n)) (order : MapOrder FieldDecl)
    (domainOrder : MapOrder (List (Bytes × Nat))) :
    CallFits letters xxhash32 (shmMachine letters xxhash32 0).init
      { call := .declare order [] src, domainOrder := domainOrder } := by
  intro _
  have hfull : ¬(merge letters (shmMachine letters xxhash32 0).init.declared.state src).incremental =
      true := by
    unfold ConfigDeclareState.incremental
    rw [SchemaPublishing.merge_schemaJson]
    simp [shmMachine]
  have hholds := holds_merge
    (show SchemaPublishing.Holds letters (shmMachine letters xxhash32 0).init.declared.state.fields
      [] from holds_nothing letters) src
  rw [List.nil_append] at hholds
  have hletters := areLetters_of_holds hholds hsrc
  rw [if_neg hfull]
  intro json hjson
  unfold serializeSchema at hjson
  split at hjson
  · exact absurd hjson (by simp)
  · cases hjson
    exact ⟨fits_letters hletters order domainOrder rfl, keysFit_letters hletters order⟩

end Letters

theorem lookupLoop_none_of_hash {b : SchemaArea} {t : Table Bytes Nat}
    (h : Indexes hash b.bytes b.hashTableOffset t) {key : Utf16} {w : UInt32}
    (hnone : ∀ k v, t.Holds k v → hash k ≠ w) (turns : Nat) :
    ∀ idx, idx < hashSlotCount → b.reader.lookupLoop key w turns idx = none := by
  induction turns with
  | zero => exact fun _ _ => rfl
  | succ turns ih =>
      intro idx hidx
      have hnext := ih ((idx + 1) % hashSlotCount) (Nat.mod_lt _ (by decide))
      obtain ⟨slot, hslot⟩ : ∃ slot, t[idx]? = some slot :=
        ⟨_, List.getElem?_eq_getElem (by rw [h.length]; exact hidx)⟩
      rw [SchemaReader.lookupLoop]
      dsimp only
      split
      · rfl
      split
      · rfl
      cases slot with
      | none =>
          rename_i hused
          exact absurd (h.readLE_free hslot) hused
      | some kv =>
          obtain ⟨k, v⟩ := kv
          have hword : readLE b.reader.buffer (b.reader.hashTableOffset + idx * 8) 4 =
              (hash k).toNat := (h.readLE_full hslot).1
          have hother : ¬(hash k).toNat = w.toNat := fun heq =>
            hnone k v ⟨idx, hslot⟩ (UInt32.toNat_inj.mp heq)
          rw [hword, if_neg hother]
          exact hnext

theorem sameBelow_patchDirtyFields {a : SchemaArea} (h : a.fieldDataOffset ≤ a.trieRootOffset)
    (order : MapOrder FieldDecl) (fields : StringMap FieldDecl) (dirtyKeys : List Bytes) :
    SameBelow a.fieldDataOffset a.bytes (patchDirtyFields mem order fields dirtyKeys a).bytes := by
  have hfield : ∀ m key, SameBelow a.fieldDataOffset m (patchField mem fields a m key) := by
    intro m key
    unfold patchField
    split
    · exact sameBelow_refl _ m
    · split
      · exact sameBelow_refl _ m
      · exact sameBelow_write m le_rfl
  have hfold : ∀ (keys : List Bytes) m,
      SameBelow a.fieldDataOffset m (keys.foldl (patchField mem fields a) m) := by
    intro keys
    induction keys with
    | nil => exact fun m => sameBelow_refl _ m
    | cons key keys ih => exact fun m => (hfield m key).trans (ih _)
  unfold patchDirtyFields
  split
  · exact sameBelow_refl _ _
  · dsimp only
    split
    · exact (hfold dirtyKeys a.bytes).trans ((sameBelow_rebuildTrie mem _ _ _ _).mono h)
    · exact hfold dirtyKeys a.bytes

theorem patchDirtyFields_reader {a : SchemaArea} (order : MapOrder FieldDecl)
    (fields : StringMap FieldDecl) (dirtyKeys : List Bytes) :
    (patchDirtyFields mem order fields dirtyKeys a).hashTableOffset = a.hashTableOffset := by
  unfold patchDirtyFields
  split <;> rfl

/-- **A patch adds no key**: what hashes like none of the keys so far is not
found after it, declared or not. -/
theorem Indexed.lookup_patch_none {a : SchemaArea} {fields : StringMap FieldDecl}
    {t : Table Bytes Nat} (h : Indexed mem hash a fields t) (order : MapOrder FieldDecl)
    (fields' : StringMap FieldDecl) (dirtyKeys : List Bytes) {key : Utf16}
    (hnew : ∀ k f, fields.lookup k = some f → hash k ≠ hash (encode key)) :
    (patchDirtyFields mem order fields' dirtyKeys a).reader.lookup hash key = none := by
  obtain ⟨k₀, hk₀⟩ := h.first
  obtain ⟨f₀, -, -, -, -, -, -, htrie⟩ := h.field k₀ 0 hk₀
  have hsame := @sameBelow_patchDirtyFields mem a (by omega) order fields' dirtyKeys
  have hinside := h.inside
  have hindex : Indexes hash (patchDirtyFields mem order fields' dirtyKeys a).bytes
      (patchDirtyFields mem order fields' dirtyKeys a).hashTableOffset t := by
    rw [patchDirtyFields_reader]
    exact h.index.of_same fun i _ hi => hsame i (by omega)
  apply lookupLoop_none_of_hash hindex _ _ _ (Nat.mod_lt _ (by decide))
  intro k v hk
  obtain ⟨f, hf, -⟩ := h.field k v hk
  exact hnew k f hf

/-- The letters from `a` to `k`. -/
def elevenLetters : List FieldDecl := (List.range 11).map fun n => letter (97 + n)

/-- Eleven letters are declared, no key is dirty, and a twelfth is declared. -/
noncomputable def twelfthLetter : List ShmCall :=
  [{ call := .declare default [] elevenLetters, domainOrder := default },
    { call := .clearDirty, domainOrder := default },
    { call := .declare default [] [letter 108], domainOrder := default }]

noncomputable def lettersRun (calls : List ShmCall) : ShmRun :=
  calls.foldl (shmStep letters xxhash32) (shmMachine letters xxhash32 0).init

theorem merge_new {s : ConfigDeclareState} {f : FieldDecl} (hne : textAt mem f.key ≠ [])
    (hnone : s.fields.lookup (textAt mem f.key) = none) :
    merge mem s [f] =
      { s with
        initialized := true
        fields := s.fields.insert (textAt mem f.key) f
        dirtyKeys := s.dirtyKeys ++ [textAt mem f.key]
        dirty := true } := by
  have hlookup : s.ensureInit.fields.lookup (textAt mem f.key) = none := hnone
  unfold merge
  rw [List.foldl_cons, List.foldl_nil, ConfigDeclareState.declareField]
  dsimp only
  rw [if_neg hne, hlookup]
  rfl

theorem state_eleven :
    (lettersRun (twelfthLetter.take 2)).declared.state =
      { merge letters {} elevenLetters with
        dirtyKeys := []
        initialized := true
        schemaJson := serializeSchema letters default [] (merge letters {} elevenLetters).fields
        lastSerializedCount := (merge letters {} elevenLetters).fields.keys.card } := by
  have hfull : ¬(merge letters {} elevenLetters).incremental = true := by
    unfold ConfigDeclareState.incremental
    rw [SchemaPublishing.merge_schemaJson]
    simp
  show (ConfigDeclareState.declare letters default [] {} elevenLetters).2.clearDirty = _
  unfold ConfigDeclareState.declare
  dsimp only
  rw [if_neg (by decide), if_neg hfull]
  rfl

theorem elevenLetters_letters : ∀ f ∈ elevenLetters, ∃ n, n < 12 ∧ f = letter (97 + n) := by
  intro f hf
  obtain ⟨n, hn, rfl⟩ := List.mem_map.mp hf
  have hlt := List.mem_range.mp hn
  exact ⟨n, by omega, rfl⟩

theorem inOrder_eleven : InOrder letters xxhash32 (lettersRun (twelfthLetter.take 2)) := by
  have hinit : InOrder letters xxhash32 (shmMachine letters xxhash32 0).init :=
    ⟨holds_nothing letters, Or.inl ⟨rfl, fun i => rfl⟩⟩
  exact (hinit.step (callFits_letters elevenLetters_letters default default)).step trivial

theorem area_twelve :
    (lettersRun twelfthLetter).area =
      patchDirtyFields letters default
        (merge letters (lettersRun (twelfthLetter.take 2)).declared.state [letter 108]).fields
        (merge letters (lettersRun (twelfthLetter.take 2)).declared.state [letter 108]).dirtyKeys
        (lettersRun (twelfthLetter.take 2)).area := by
  have hincremental :
      (merge letters (lettersRun (twelfthLetter.take 2)).declared.state [letter 108]).incremental =
        true := by
    have hnone : (merge letters {} elevenLetters).fields.lookup (textAt letters 108) = none := by
      decide +kernel
    have hcard : ((merge letters {} elevenLetters).fields.insert (textAt letters 108)
        (letter 108)).keys.card = 12 := by decide +kernel
    have hsome : (merge letters {} elevenLetters).fields ≠ ∅ := by
      intro hempty
      have hlookup : ((merge letters {} elevenLetters).fields.lookup (textAt letters 97)).isSome =
          true := by decide +kernel
      rw [hempty] at hlookup
      exact absurd hlookup (by decide)
    rw [state_eleven, merge_new (by decide) hnone]
    unfold ConfigDeclareState.incremental serializeSchema
    rw [if_neg hsome]
    show (decide (10 * 1 < ((merge letters {} elevenLetters).fields.insert (textAt letters 108)
      (letter 108)).keys.card) && _ && _) = true
    rw [hcard]
    rfl
  show SchemaArea.declare letters xxhash32 default default []
    (lettersRun (twelfthLetter.take 2)).declared.state [letter 108]
      (lettersRun (twelfthLetter.take 2)).area = _
  unfold SchemaArea.declare
  rw [if_neg (by decide)]
  dsimp only
  rw [if_pos hincremental]

theorem declare_fields {order : MapOrder FieldDecl} {ts : Bytes} {s : ConfigDeclareState}
    {src : List FieldDecl} (hsrc : src ≠ []) :
    (s.declare mem order ts src).2.fields = (merge mem s src).fields := by
  unfold ConfigDeclareState.declare
  rw [if_neg hsrc]
  dsimp only
  split <;> rfl

theorem shmStep_schemaCapacity (t : ShmRun) (e : ShmCall) :
    (shmStep mem hash t e).area.schemaCapacity = t.area.schemaCapacity := by
  obtain ⟨call, domainOrder⟩ := e
  unfold shmStep
  cases call with
  | declare order ts src =>
      dsimp only
      unfold SchemaArea.declare patchDirtyFields
      dsimp only
      split
      · rfl
      · split
        · split <;> rfl
        · split <;> rfl
  | write key value => rfl
  | clearDirty => rfl
  | reset => rfl

end BlessStar.Sdk.Proofs.SchemaFollows
