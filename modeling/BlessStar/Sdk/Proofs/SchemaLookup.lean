import BlessStar.Sdk.Proofs.SchemaLayout
import BlessStar.Sdk.Proofs.SchemaPublishing

/-!
# Lookups in the schema area

An area that is written anew finds every declared key.  A patch writes all its
records over the first one and adds no key to the index, so it leaves the area
in order only when that record is the one it is for.
-/

namespace BlessStar.Sdk.Proofs.SchemaLookup

open Lib.ByteString Lib.ByteArea Lib.Utf8Text
open Lib.LinearProbing Lib.Transition
open SchemaArea SchemaLayout
open ConfigDeclareState (textAt merge serializeSchema)
open SchemaPublishing (lastDeclared_append key_of_lastDeclared holds_merge)

structure ShmRun where
  declared : DeclareRun := {}
  area : SchemaArea

structure ShmCall where
  call : DeclareCall
  domainOrder : MapOrder (List (Bytes × Nat))

section Runs

variable (mem : Address → Bytes) (hash : Bytes → UInt32)

def shmStep (t : ShmRun) (e : ShmCall) : ShmRun where
  declared := declareStep mem t.declared e.call
  area :=
    match e.call with
    | .declare order ts src =>
        SchemaArea.declare mem hash order e.domainOrder ts t.declared.state src t.area
    | _ => t.area

def shmMachine (schemaCapacity : Nat) : Machine ShmRun ShmCall where
  init := { area := create schemaCapacity }
  step := fun t e => some (shmStep mem hash t e)

def PatchFits (t : ShmRun) (s : ConfigDeclareState) : Prop :=
  ∀ key ∈ s.dirtyKeys, ∃ f g, t.declared.state.fields.lookup key = some f ∧
    s.fields.lookup key = some g ∧ Short mem g ∧ recordLen mem g ≤ recordLen mem f ∧
      Holds t.area.bytes t.area.fieldDataOffset (fieldRecord mem f)

def KeysFit (order : MapOrder FieldDecl) (fields : StringMap FieldDecl) : Prop :=
  ∀ kv ∈ order.entries fields, hash kv.1 ≠ 0 ∧ IsUtf8 kv.1

def CallFits (t : ShmRun) (e : ShmCall) : Prop :=
  match e.call with
  | .declare order ts src =>
      src ≠ [] →
        if (merge mem t.declared.state src).incremental then
          PatchFits mem t (merge mem t.declared.state src)
        else
          ∀ json, serializeSchema mem order ts (merge mem t.declared.state src).fields = some json →
            Fits mem order e.domainOrder (merge mem t.declared.state src).fields json t.area ∧
              KeysFit hash order (merge mem t.declared.state src).fields
  | .reset => t.declared.state.fields = ∅
  | _ => True

/-- A lookup finds every declared key with its last declaration, and nothing
else. -/
def FindsDeclared (t : ShmRun) : Prop :=
  (∀ k f, k ≠ [] → lastDeclared mem t.declared.decls k = some f →
    t.area.reader.lookup hash (decode k) = some (fieldOf mem f)) ∧
  ∀ key, (∀ k f, k ≠ [] → lastDeclared mem t.declared.decls k = some f → decode k ≠ key) →
    t.area.reader.lookup hash key = none

end Runs

structure Indexed (mem : Address → Bytes) (hash : Bytes → UInt32) (a : SchemaArea)
    (fields : StringMap FieldDecl) (t : Table Bytes Nat) : Prop where
  index : Indexes hash a.bytes a.hashTableOffset t
  field : ∀ k v, t.Holds k v → ∃ f, fields.lookup k = some f ∧ textAt mem f.key = k ∧
    Short mem f ∧ IsUtf8 k ∧ Holds a.bytes (a.fieldDataOffset + v) (fieldRecord mem f) ∧
      a.fieldDataOffset + v + recordLen mem f ≤ a.capacity ∧
      a.fieldDataOffset + v + recordLen mem f ≤ a.trieRootOffset
  complete : ∀ k f, fields.lookup k = some f → ∃ v, t.Holds k v
  apart : ∀ k v k' v' f, t.Holds k v → t.Holds k' v' → k ≠ k' → fields.lookup k = some f →
    v ≤ v' → v + recordLen mem f ≤ v'
  first : ∃ k, t.Holds k 0
  inside : a.hashTableOffset + hashIndexSize ≤ a.fieldDataOffset

def Fresh (a : SchemaArea) : Prop := ∀ i, a.bytes i = 0

section Lookups

variable {mem : Address → Bytes} {hash : Bytes → UInt32} {a : SchemaArea}
  {fields : StringMap FieldDecl} {t : Table Bytes Nat}

theorem lookup_fresh (h : Fresh a) (key : Utf16) : a.reader.lookup hash key = none := by
  have hzeros : ∀ off, readLE a.reader.buffer off 4 = 0 := by
    intro off
    have hbytes : Holds a.reader.buffer off (leBytes 4 0) := by
      rw [holds_iff]
      intro i hi
      have hzero : leBytes 4 0 = List.replicate 4 0 := rfl
      simp only [hzero, List.getElem_replicate]
      exact h _
    exact hbytes.readLE_eq (by decide)
  rw [SchemaReader.lookup, show hashSlotCount = 4095 + 1 from rfl, SchemaReader.lookupLoop]
  simp only [hzeros, and_self, if_true, ite_self]

theorem Indexed.slot_inside (h : Indexed mem hash a fields t) {idx : Nat}
    (hidx : idx < hashSlotCount) : ¬a.reader.length < a.reader.hashTableOffset + idx * 8 + 8 := by
  obtain ⟨k, hk⟩ := h.first
  obtain ⟨f, -, -, -, -, -, hend, -⟩ := h.field k 0 hk
  have hinside := h.inside
  unfold hashIndexSize at hinside
  show ¬a.capacity < a.hashTableOffset + idx * 8 + 8
  omega

theorem Indexed.lookupLoop_free (h : Indexed mem hash a fields t) {idx : Nat}
    (hslot : t[idx]? = some none) (key : Utf16) (w : UInt32) (turns : Nat) :
    a.reader.lookupLoop key w (turns + 1) idx = none := by
  have hidx : idx < hashSlotCount := h.index.length ▸ (List.getElem?_eq_some_iff.mp hslot).1
  have hfree : readLE a.reader.buffer (a.reader.hashTableOffset + idx * 8) 4 = 0 ∧
      readLE a.reader.buffer (a.reader.hashTableOffset + idx * 8 + 4) 4 = 0 :=
    h.index.readLE_free hslot
  rw [SchemaReader.lookupLoop]
  dsimp only
  rw [if_neg (h.slot_inside hidx), if_pos hfree]

theorem Indexed.lookupLoop_full (h : Indexed mem hash a fields t) {idx v : Nat} {k : Bytes}
    (hslot : t[idx]? = some (some (k, v))) {f : FieldDecl} (hf : fields.lookup k = some f)
    (key : Utf16) (w : UInt32) (turns : Nat) :
    a.reader.lookupLoop key w (turns + 1) idx =
      if hash k = w ∧ decode k = key then some (fieldOf mem f)
      else a.reader.lookupLoop key w turns ((idx + 1) % hashSlotCount) := by
  have hidx : idx < hashSlotCount := h.index.length ▸ (List.getElem?_eq_some_iff.mp hslot).1
  obtain ⟨hword, hoffset⟩ := h.index.readLE_full hslot
  obtain ⟨g, hg, hkey, hshort, -, hrecord, hend, -⟩ := h.field k v ⟨idx, hslot⟩
  obtain rfl : f = g := Option.some.inj (hf.symm.trans hg)
  have hnonzero : ¬((hash k).toNat = 0 ∧ v = 0) := fun hz =>
    (h.index.entry idx k v hslot).1 (UInt32.toNat_inj.mp hz.1)
  have hdecode : a.reader.decodeFieldRecord (a.reader.fieldDataOffset + v) =
      some (fieldOf mem f) := decodeFieldRecord_of_holds hrecord hshort hend
  have hfieldKey : (fieldOf mem f).key = decode k := by rw [← hkey]; rfl
  rw [SchemaReader.lookupLoop]
  dsimp only
  rw [if_neg (h.slot_inside hidx),
    show readLE a.reader.buffer (a.reader.hashTableOffset + idx * 8) 4 = (hash k).toNat from hword,
    show readLE a.reader.buffer (a.reader.hashTableOffset + idx * 8 + 4) 4 = v from hoffset,
    if_neg hnonzero, hdecode]
  by_cases hw : hash k = w
  · rw [if_pos (by rw [hw])]
    by_cases hd : decode k = key
    · simp [Option.filter, hw, hd, hfieldKey]
    · simp [Option.filter, hw, hd, hfieldKey]
  · have hne : ¬(hash k).toNat = w.toNat := fun heq => hw (UInt32.toNat_inj.mp heq)
    simp [hw, hne]

theorem Indexed.lookup_found (h : Indexed mem hash a fields t) {k : Bytes} {f : FieldDecl}
    (hf : fields.lookup k = some f) : a.reader.lookup hash (decode k) = some (fieldOf mem f) := by
  obtain ⟨v, hv⟩ := h.complete k f hf
  obtain ⟨g, -, -, -, hutf8, -⟩ := h.field k v hv
  obtain ⟨i, hi⟩ := hv
  obtain ⟨j, rfl, hstop⟩ := h.index.reachable i k v hi
  have hloop : ∀ turns n, n ≤ j → j < n + turns →
      a.reader.lookupLoop (decode k) (hash k) turns (t.probe (homeOf hash k) n) =
        some (fieldOf mem f) := by
    intro turns
    induction turns with
    | zero => intro n hn hlt; omega
    | succ turns ih =>
        intro n hn hlt
        rcases Nat.lt_or_eq_of_le hn with hbefore | rfl
        · obtain ⟨k', v', hget, hne⟩ := hstop.other_key hbefore
          obtain ⟨f', hf', -, -, hutf8', -⟩ := h.field k' v' ⟨_, hget⟩
          have hother : ¬(hash k' = hash k ∧ decode k' = decode k) := fun heq =>
            hne ((hutf8'.eq_of_decode heq.2).trans hutf8)
          rw [h.lookupLoop_full hget hf', if_neg hother, h.index.next]
          exact ih (n + 1) (by omega) (by omega)
        · rw [h.lookupLoop_full hi hf, if_pos ⟨rfl, rfl⟩]
  have hlt := hstop.lt
  rw [h.index.length] at hlt
  have hhome : (hash k).toNat % hashSlotCount = t.probe (homeOf hash k) 0 := by
    rw [Table.probe, h.index.length, homeOf, Nat.add_zero]
  rw [SchemaReader.lookup, hutf8, hhome]
  exact hloop hashSlotCount 0 (Nat.zero_le j) (by omega)

theorem Indexed.lookupLoop_none (h : Indexed mem hash a fields t) {key : Utf16} {w : UInt32}
    (hnone : ∀ k v, t.Holds k v → ¬(hash k = w ∧ decode k = key)) (turns : Nat) :
    ∀ idx, idx < hashSlotCount → a.reader.lookupLoop key w turns idx = none := by
  induction turns with
  | zero => exact fun _ _ => rfl
  | succ turns ih =>
      intro idx hidx
      obtain ⟨slot, hslot⟩ : ∃ slot, t[idx]? = some slot :=
        ⟨_, List.getElem?_eq_getElem (by rw [h.index.length]; exact hidx)⟩
      cases slot with
      | none => exact h.lookupLoop_free hslot key w turns
      | some kv =>
          obtain ⟨k, v⟩ := kv
          obtain ⟨f, hf, -⟩ := h.field k v ⟨idx, hslot⟩
          rw [h.lookupLoop_full hslot hf, if_neg (hnone k v ⟨idx, hslot⟩)]
          exact ih _ (Nat.mod_lt _ (by decide))

theorem Indexed.lookup_none (h : Indexed mem hash a fields t) {key : Utf16}
    (hnone : ∀ k f, fields.lookup k = some f → decode k ≠ key) :
    a.reader.lookup hash key = none := by
  apply h.lookupLoop_none _ _ _ (Nat.mod_lt _ (by decide))
  rintro k v hk ⟨-, hd⟩
  obtain ⟨f, hf, -⟩ := h.field k v hk
  exact hnone k f hf hd

end Lookups

section Anew

variable {mem : Address → Bytes} {hash : Bytes → UInt32}

theorem le_of_mem_placed {fs : List FieldDecl} {off v : Nat} {k : Bytes}
    (h : (k, v) ∈ placed mem off fs) : off ≤ v := by
  obtain ⟨pre, f, post, -, -, rfl⟩ := mem_placed h
  omega

theorem placed_apart {fs : List FieldDecl} {off v v' : Nat} {k k' : Bytes}
    (h : (k, v) ∈ placed mem off fs) (h' : (k', v') ∈ placed mem off fs) (hne : k ≠ k')
    (hle : v ≤ v') : ∃ f ∈ fs, textAt mem f.key = k ∧ v + recordLen mem f ≤ v' := by
  induction fs generalizing off with
  | nil => cases h
  | cons f fs ih =>
      rw [placed, List.mem_cons, Prod.mk.injEq] at h h'
      rcases h with ⟨hk, hv⟩ | h
      · rcases h' with ⟨hk', -⟩ | h'
        · exact absurd (hk.trans hk'.symm) hne
        · have hlater := le_of_mem_placed h'
          exact ⟨f, List.mem_cons_self, hk.symm, by omega⟩
      · rcases h' with ⟨-, hv'⟩ | h'
        · have hlater := le_of_mem_placed h
          have hlen := eight_le_recordLen mem f
          omega
        · obtain ⟨g, hg, hkey, hend⟩ := ih h h'
          exact ⟨g, List.mem_cons_of_mem _ hg, hkey, hend⟩

variable {order : MapOrder FieldDecl} {domainOrder : MapOrder (List (Bytes × Nat))}
  {fields : StringMap FieldDecl} {json : Bytes} {a : SchemaArea}

theorem lookup_of_mem_declsOf (hkeys : ∀ k f, fields.lookup k = some f → textAt mem f.key = k)
    {f : FieldDecl} (hf : f ∈ declsOf order fields) :
    fields.lookup (textAt mem f.key) = some f := by
  obtain ⟨kv, hkv, rfl⟩ := List.mem_map.mp hf
  have hlookup := (order.mem_entries fields kv.1 kv.2).mp hkv
  rw [hkeys kv.1 kv.2 hlookup]
  exact hlookup

/-- **An area written anew is in order**, when the keys fit. -/
theorem exists_indexed_writeSchema (h : Fits mem order domainOrder fields json a) (hjson : json ≠ [])
    (hfields : fields ≠ ∅) (hkeys : ∀ k f, fields.lookup k = some f → textAt mem f.key = k)
    (hfit : KeysFit hash order fields) :
    ∃ t, Indexed mem hash (writeSchema mem hash order domainOrder fields json a) fields t := by
  have hne := order.entries_ne_nil hfields
  have hlaid := laid_writeSchema hash h hjson hne
  obtain ⟨htext, hindex, hpages, htrie, hend⟩ := h.bounds
  obtain ⟨t, hindexes, -, hholds⟩ := exists_index_writeSchema hash h hjson hne (by
    intro kv hkv
    have hlookup := (order.mem_entries fields kv.1 kv.2).mp hkv
    exact ⟨hkeys kv.1 kv.2 hlookup, (hfit kv hkv).1⟩)
  have hlookup := fun f (hf : f ∈ declsOf order fields) => lookup_of_mem_declsOf hkeys hf
  refine ⟨t, ?_, ?_, ?_, ?_, ?_, ?_⟩
  · rw [hlaid.hashTableOffset]
    exact hindexes
  · intro k v hk
    obtain ⟨pre, f, post, hdecls, hkey, hv⟩ := mem_placed ((hholds k v).mp hk)
    have hmem : f ∈ declsOf order fields := by rw [hdecls]; simp
    have hf := hlookup f hmem
    rw [hkey] at hf
    have hrecords := hlaid.records
    have hlens : recordsLen mem (declsOf order fields) =
        recordsLen mem pre + (recordLen mem f + recordsLen mem post) := by
      rw [hdecls, recordsLen, List.map_append, List.sum_append, List.map_cons, List.sum_cons]
      rfl
    rw [hdecls, List.flatMap_append, List.flatMap_cons, holds_append_iff, holds_append_iff,
      length_flatMap_fieldRecord] at hrecords
    have hsize : 0 < sizeofTrieNode := by decide
    rw [hlaid.fieldDataOffset, hlaid.capacity, hlaid.trieRootOffset, hv, Nat.zero_add]
    refine ⟨f, hf, hkey, h.short f hmem, ?_, hrecords.2.1, by omega, by omega⟩
    exact (hfit (k, f) ((order.mem_entries fields k f).mpr hf)).2
  · intro k f hf
    have hmem : f ∈ declsOf order fields :=
      List.mem_map_of_mem ((order.mem_entries fields k f).mpr hf)
    obtain ⟨v, hv⟩ := mem_placed_of_mem mem hmem 0
    rw [hkeys k f hf] at hv
    exact ⟨v, (hholds k v).mpr hv⟩
  · intro k v k' v' f hk hk' hne' hf hle
    obtain ⟨g, hg, hkey, hend'⟩ := placed_apart ((hholds k v).mp hk) ((hholds k' v').mp hk') hne' hle
    have hg' := hlookup g hg
    rw [hkey, hf] at hg'
    obtain rfl := Option.some.inj hg'
    exact hend'
  · obtain ⟨kv, rest, hentries⟩ := List.exists_cons_of_ne_nil hne
    refine ⟨textAt mem kv.2.key, (hholds _ _).mpr ?_⟩
    rw [declsOf, hentries, List.map_cons, placed]
    exact List.mem_cons_self
  · rw [hlaid.hashTableOffset, hlaid.fieldDataOffset]
    exact hindex.le

end Anew

section Patch

variable {mem : Address → Bytes} {hash : Bytes → UInt32}

mutual

theorem sameBelow_serializeTrieNode {base cap : Nat} (offset : Nat) (node : TrieBuilderNode)
    (m : Area) : SameBelow base m (serializeTrieNode base cap offset node m) := by
  match node with
  | .mk name children firstFieldOff =>
      rw [serializeTrieNode]
      split
      · exact sameBelow_refl base m
      · exact (((sameBelow_write m (by omega)).trans
          (sameBelow_serializeSiblings (offset + 41) children _)).trans
            (sameBelow_write _ (by omega))).trans
              ((sameBelow_write _ (by omega)).trans (sameBelow_write _ (by omega)))

theorem sameBelow_serializeSiblings {base cap : Nat} (offset : Nat) (nodes : List TrieBuilderNode)
    (m : Area) : SameBelow base m (serializeSiblings base cap offset nodes m) := by
  match nodes with
  | [] => exact sameBelow_refl base m
  | node :: nodes =>
      rw [serializeSiblings]
      exact (sameBelow_serializeTrieNode offset node m).trans
        (sameBelow_serializeSiblings (offset + 41) nodes _)

end

variable (mem) in
theorem sameBelow_rebuildTrie (entries : List (Bytes × FieldDecl)) (base fieldDataBase : Nat)
    (m : Area) : SameBelow base m (rebuildTrie mem entries base fieldDataBase m) := by
  unfold rebuildTrie
  split
  · exact sameBelow_refl base m
  · exact sameBelow_serializeTrieNode 0 _ m

theorem patchDirtyFields_spec (order : MapOrder FieldDecl) {fields : StringMap FieldDecl}
    {dirtyKeys : List Bytes} {a : SchemaArea} {key : Bytes} {g : FieldDecl}
    (hdirty : dirtyKeys ≠ []) (hkey : ∀ k ∈ dirtyKeys, k = key) (hg : fields.lookup key = some g)
    (hcap : a.fieldDataOffset + recordLen mem g ≤ a.capacity)
    (htrie : a.fieldDataOffset + recordLen mem g ≤ a.trieRootOffset) :
    ∃ m, patchDirtyFields mem order fields dirtyKeys a = { a with bytes := m } ∧
      Holds m a.fieldDataOffset (fieldRecord mem g) ∧
      ∀ i, i < a.trieRootOffset →
        i < a.fieldDataOffset ∨ a.fieldDataOffset + recordLen mem g ≤ i → m i = a.bytes i := by
  have hpatch : ∀ m k, k ∈ dirtyKeys → patchField mem fields a m k =
      write m a.fieldDataOffset (fieldRecord mem g) := by
    intro m k hk
    rw [patchField, hkey k hk, hg]
    exact if_neg (by omega)
  have hfold : ∀ ks : List Bytes, (∀ k ∈ ks, k ∈ dirtyKeys) → ∀ m : Area,
      Holds m a.fieldDataOffset (fieldRecord mem g) →
      Holds (ks.foldl (patchField mem fields a) m) a.fieldDataOffset (fieldRecord mem g) ∧
        ∀ i, i < a.fieldDataOffset ∨ a.fieldDataOffset + recordLen mem g ≤ i →
          ks.foldl (patchField mem fields a) m i = m i := by
    intro ks
    induction ks with
    | nil => exact fun _ m hm => ⟨hm, fun i _ => rfl⟩
    | cons k ks ih =>
        intro hks m hm
        rw [List.foldl_cons, hpatch m k (hks k List.mem_cons_self)]
        obtain ⟨hholds, hother⟩ := ih (fun k' hk' => hks k' (List.mem_cons_of_mem _ hk')) _
          (holds_write : Holds (write m a.fieldDataOffset (fieldRecord mem g)) _ _)
        refine ⟨hholds, fun i hi => (hother i hi).trans (write_outside ?_)⟩
        rw [length_fieldRecord]
        exact hi
  obtain ⟨k, ks, rfl⟩ := List.exists_cons_of_ne_nil hdirty
  obtain ⟨hholds, hother⟩ := hfold ks (fun k' hk' => List.mem_cons_of_mem _ hk') _
    (holds_write : Holds (write a.bytes a.fieldDataOffset (fieldRecord mem g)) _ _)
  have hlen := eight_le_recordLen mem g
  have hroot : a.trieRootOffset ≠ 0 := by omega
  have hsame := sameBelow_rebuildTrie mem (order.entries fields) a.trieRootOffset
    a.fieldDataOffset ((k :: ks).foldl (patchField mem fields a) a.bytes)
  rw [List.foldl_cons, hpatch _ k List.mem_cons_self] at hsame
  refine ⟨_, ?_, hholds.of_sameBelow hsame (by rw [length_fieldRecord]; exact htrie), ?_⟩
  · unfold patchDirtyFields
    dsimp only
    rw [if_neg hdirty, if_pos hroot, List.foldl_cons, hpatch _ k List.mem_cons_self]
  · intro i hi hout
    rw [hsame i hi, hother i hout]
    apply write_outside
    rw [length_fieldRecord]
    exact hout

/-- **A patch of the first field** leaves the area in order. -/
theorem Indexed.patch {a : SchemaArea} {fields fields' : StringMap FieldDecl}
    {t : Table Bytes Nat} (h : Indexed mem hash a fields t) {order : MapOrder FieldDecl}
    {dirtyKeys : List Bytes} (hdirty : dirtyKeys ≠ [])
    (hkeep : ∀ k, k ∉ dirtyKeys → fields'.lookup k = fields.lookup k)
    (hkeys : ∀ k f, fields'.lookup k = some f → textAt mem f.key = k)
    (hfits : ∀ key ∈ dirtyKeys, ∃ f g, fields.lookup key = some f ∧ fields'.lookup key = some g ∧
      Short mem g ∧ recordLen mem g ≤ recordLen mem f ∧
        Holds a.bytes a.fieldDataOffset (fieldRecord mem f)) :
    Indexed mem hash (patchDirtyFields mem order fields' dirtyKeys a) fields' t := by
  obtain ⟨k₀, hk₀⟩ := h.first
  obtain ⟨f₀, hf₀, hkey₀, hshort₀, hutf8₀, hrecord₀, hend₀, htrie₀⟩ := h.field k₀ 0 hk₀
  rw [Nat.add_zero] at hrecord₀ hend₀ htrie₀
  have hfirst := decodeFieldRecord_of_holds (r := a.reader) hrecord₀ hshort₀ hend₀
  have honly : ∀ key ∈ dirtyKeys, key = k₀ := by
    intro key hkey
    obtain ⟨f, g, hf, -, -, -, hrecord⟩ := hfits key hkey
    obtain ⟨v, hv⟩ := h.complete key f hf
    obtain ⟨f', hf', hkey', hshort, hutf8, -, hend, -⟩ := h.field key v hv
    obtain rfl : f = f' := Option.some.inj (hf.symm.trans hf')
    have hsame := decodeFieldRecord_of_holds (r := a.reader) hrecord hshort
      (show a.fieldDataOffset + recordLen mem f ≤ a.capacity by omega)
    have hdecode : decode key = decode k₀ := by
      rw [← hkey', ← hkey₀]
      exact congrArg SchemaField.key (Option.some.inj (hsame.symm.trans hfirst))
    rw [← hutf8, ← hutf8₀, hdecode]
  obtain ⟨key, rest, hcons⟩ := List.exists_cons_of_ne_nil hdirty
  have hmem : k₀ ∈ dirtyKeys := by
    have hkey : key ∈ dirtyKeys := hcons ▸ List.mem_cons_self
    exact honly key hkey ▸ hkey
  obtain ⟨f, g, hf, hg, hshort, hlen, -⟩ := hfits k₀ hmem
  obtain rfl : f = f₀ := Option.some.inj (hf.symm.trans hf₀)
  have hcap : a.fieldDataOffset + recordLen mem g ≤ a.capacity := by omega
  have htrie : a.fieldDataOffset + recordLen mem g ≤ a.trieRootOffset := by omega
  obtain ⟨m, hpatch, hrecord, hother⟩ :=
    patchDirtyFields_spec order hdirty honly hg hcap htrie
  have hunchanged : ∀ k, k ≠ k₀ → fields'.lookup k = fields.lookup k := fun k hk =>
    hkeep k fun hk' => hk (honly k hk')
  have hinside := h.inside
  rw [hpatch]
  refine ⟨?_, ?_, ?_, ?_, h.first, hinside⟩
  · apply h.index.of_same
    intro i _ hi
    exact hother i (by omega) (Or.inl (by omega))
  · intro k v hk
    by_cases hk' : k = k₀
    · subst hk'
      obtain rfl := h.index.reachable.functional hk hk₀
      refine ⟨g, hg, hkeys k g hg, hshort, hutf8₀, hrecord, ?_, ?_⟩
      · show a.fieldDataOffset + 0 + recordLen mem g ≤ a.capacity
        omega
      · show a.fieldDataOffset + 0 + recordLen mem g ≤ a.trieRootOffset
        omega
    · obtain ⟨f', hf', hkey', hshort', hutf8, hrecord', hend, htrie⟩ := h.field k v hk
      have hapart := h.apart k₀ 0 k v f hk₀ hk (Ne.symm hk') hf (Nat.zero_le v)
      refine ⟨f', (hunchanged k hk').trans hf', hkey', hshort', hutf8, ?_, hend, htrie⟩
      rw [holds_iff] at hrecord' ⊢
      intro i hi
      rw [length_fieldRecord] at hi
      have hsame := hother (a.fieldDataOffset + v + i) (by omega) (Or.inr (by omega))
      exact hsame.trans (hrecord' i (by rw [length_fieldRecord]; exact hi))
  · intro k f' hf'
    by_cases hk' : k = k₀
    · exact ⟨0, hk' ▸ hk₀⟩
    · exact h.complete k f' ((hunchanged k hk').symm.trans hf')
  · intro k v k' v' f' hk hk' hne hf' hle
    by_cases hkk : k = k₀
    · subst hkk
      obtain rfl : g = f' := Option.some.inj (hg.symm.trans hf')
      have hapart := h.apart k v k' v' f hk hk' hne hf hle
      omega
    · exact h.apart k v k' v' f' hk hk' hne ((hunchanged k hkk).symm.trans hf') hle

end Patch

end BlessStar.Sdk.Proofs.SchemaLookup
