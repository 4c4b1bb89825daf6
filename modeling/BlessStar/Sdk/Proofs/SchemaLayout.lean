import BlessStar.Lib.LinearProbing
import BlessStar.Sdk.SchemaReader

/-!
# The layout of a schema area

What stands where after the area has been written anew: the text in front, the
hash index as a table of the keys, and the records one behind the other.  The
pages and the trie lie behind all of these.
-/

namespace BlessStar.Sdk.Proofs.SchemaLayout

open Lib.ByteString Lib.ByteArea Lib.Utf8Text
open Lib.LinearProbing
open SchemaArea
open ConfigDeclareState (textAt)

variable {mem : Address → Bytes} {hash : Bytes → UInt32}

structure Short (mem : Address → Bytes) (f : FieldDecl) : Prop where
  key : (textAt mem f.key).length < 65536
  defaultStr : (textAt mem f.defaultStr).length < 65536
  description : (textAt mem f.description).length < 65536

def fieldOf (mem : Address → Bytes) (f : FieldDecl) : SchemaField where
  key := decode (textAt mem f.key)
  type := UInt8.ofNat (f.type % 256).toNat
  defaultStr := decode (textAt mem f.defaultStr)
  description := decode (textAt mem f.description)
  required := f.required

@[simp] theorem length_fieldRecordHeader (f : FieldDecl) : (fieldRecordHeader mem f).length = 8 := by
  simp [fieldRecordHeader]

@[simp] theorem length_fieldRecord (f : FieldDecl) :
    (fieldRecord mem f).length = recordLen mem f := by
  simp only [fieldRecord, List.length_append, length_fieldRecordHeader, recordLen]

theorem eight_le_recordLen (mem : Address → Bytes) (f : FieldDecl) : 8 ≤ recordLen mem f := by
  unfold recordLen
  omega

/-- **A record is read as the field it was written for.** -/
theorem decodeFieldRecord_of_holds {r : SchemaReader} {off : Nat} {f : FieldDecl}
    (h : Holds r.buffer off (fieldRecord mem f)) (hshort : Short mem f)
    (hend : off + recordLen mem f ≤ r.length) :
    r.decodeFieldRecord off = some (fieldOf mem f) := by
  simp only [fieldRecord, fieldRecordHeader, holds_append_iff, List.length_append,
    length_leBytes, List.length_cons, List.length_nil, Nat.add_assoc, Nat.reduceAdd] at h
  obtain ⟨⟨⟨⟨⟨⟨hkeyLen, hdefaultLen⟩, hdescLen⟩, hflags⟩, hkey⟩, hdefault⟩, hdesc⟩ := h
  have hk := hkeyLen.readLE_eq hshort.key
  have hd := hdefaultLen.readLE_eq hshort.defaultStr
  have hs := hdescLen.readLE_eq hshort.description
  rw [holds_iff] at hflags
  have htype := hflags 0 (by simp)
  have hrequired := hflags 1 (by simp)
  unfold recordLen at hend
  rw [SchemaReader.decodeFieldRecord, if_neg (by omega)]
  simp only [hk, hd, hs]
  rw [if_neg (by omega), Option.some.injEq]
  have hrequiredByte : (r.buffer (off + 7) ≠ 0) ↔ f.required = true := by
    rw [show off + 7 = off + 6 + 1 from rfl, hrequired]
    cases f.required <;> simp
  simp only [SchemaReader.text, fieldOf, SchemaField.mk.injEq]
  refine ⟨?_, htype, ?_, ?_, ?_⟩
  · rw [hkey.read_eq rfl]
  · rw [Nat.add_assoc off, hdefault.read_eq rfl]
  · rw [Nat.add_assoc off, Nat.add_assoc off, Nat.add_assoc 8, hdesc.read_eq rfl]
  · rw [Bool.eq_iff_iff, decide_eq_true_iff]
    exact hrequiredByte

def slotBytes (hash : Bytes → UInt32) : Option (Bytes × Nat) → Bytes
  | none => List.replicate 8 0
  | some (key, dataOffset) => hashSlot (hash key) dataOffset

@[simp] theorem length_slotBytes (s : Option (Bytes × Nat)) : (slotBytes hash s).length = 8 := by
  cases s <;> simp [slotBytes, hashSlot]

def homeOf (hash : Bytes → UInt32) (key : Bytes) : Nat := (hash key).toNat

/-- The index at `table` is this table of keys with the offsets of their
records. -/
structure Indexes (hash : Bytes → UInt32) (m : Area) (table : Nat) (t : Table Bytes Nat) : Prop where
  length : t.length = hashSlotCount
  slots : ∀ (i : Nat) s, t[i]? = some s → Holds m (table + i * 8) (slotBytes hash s)
  entry : ∀ (i : Nat) k v, t[i]? = some (some (k, v)) → hash k ≠ 0 ∧ v < 2 ^ 32
  reachable : t.Reachable (homeOf hash)

theorem hashIndexInsertLoop_other {table dataOffset i : Nat} {h : UInt32}
    (hi : i < table ∨ table + hashIndexSize ≤ i) (turns : Nat) :
    ∀ {idx}, idx < hashSlotCount → ∀ m,
      hashIndexInsertLoop table h dataOffset turns idx m i = m i := by
  induction turns with
  | zero => exact fun _ m => rfl
  | succ turns ih =>
      intro idx hidx m
      rw [hashIndexInsertLoop]
      split
      · apply write_outside
        simp only [hashSlot, List.length_append, length_leBytes]
        unfold hashIndexSize at hi
        omega
      · exact ih (Nat.mod_lt _ (by decide)) m

theorem hashIndexInsert_other {table dataOffset i : Nat} (hi : i < table ∨ table + hashIndexSize ≤ i)
    (key : Bytes) (m : Area) : hashIndexInsert hash table key dataOffset m i = m i :=
  hashIndexInsertLoop_other hi hashSlotCount (Nat.mod_lt _ (by decide)) m

section Index

variable {m : Area} {table : Nat} {t : Table Bytes Nat}

theorem Indexes.readLE_free (h : Indexes hash m table t) {i : Nat} (hi : t[i]? = some none) :
    readLE m (table + i * 8) 4 = 0 ∧ readLE m (table + i * 8 + 4) 4 = 0 := by
  have hslot := h.slots i none hi
  have hzeros : slotBytes hash none = leBytes 4 0 ++ leBytes 4 0 := rfl
  rw [hzeros, holds_append_iff, length_leBytes] at hslot
  exact ⟨hslot.1.readLE_eq (by decide), hslot.2.readLE_eq (by decide)⟩

theorem Indexes.readLE_full (h : Indexes hash m table t) {i : Nat} {k : Bytes} {v : Nat}
    (hi : t[i]? = some (some (k, v))) :
    readLE m (table + i * 8) 4 = (hash k).toNat ∧ readLE m (table + i * 8 + 4) 4 = v := by
  have hslot := h.slots i _ hi
  rw [slotBytes, hashSlot, holds_append_iff, length_leBytes] at hslot
  have hword : (hash k).toNat < 256 ^ 4 := by
    have hlt := (hash k).toNat_lt
    omega
  have hoffset : v < 256 ^ 4 := by
    have hlt := (h.entry i k v hi).2
    omega
  exact ⟨hslot.1.readLE_eq hword, hslot.2.readLE_eq hoffset⟩

theorem Indexes.next (h : Indexes hash m table t) (home j : Nat) :
    (t.probe home j + 1) % hashSlotCount = t.probe home (j + 1) := by
  rw [Table.probe, Table.probe, h.length, Nat.mod_add_mod, Nat.add_assoc]

theorem Indexes.of_same (h : Indexes hash m table t) {m' : Area}
    (hsame : ∀ i, table ≤ i → i < table + hashIndexSize → m' i = m i) :
    Indexes hash m' table t where
  length := h.length
  slots := by
    intro i s hi
    have hlt : i < hashSlotCount := h.length ▸ (List.getElem?_eq_some_iff.mp hi).1
    have hslot := h.slots i s hi
    rw [holds_iff] at hslot ⊢
    intro n hn
    rw [length_slotBytes] at hn
    rw [hsame _ (by omega) (by unfold hashIndexSize; omega)]
    exact hslot n (by rw [length_slotBytes]; exact hn)
  entry := h.entry
  reachable := h.reachable

theorem hashIndexInsertLoop_eq (h : Indexes hash m table t) {key : Bytes} {j dataOffset : Nat}
    (hstop : t.FirstStop key (homeOf hash key) j) (hnew : ∀ v, ¬t.Holds key v) (turns : Nat) :
    ∀ i, i ≤ j → j < i + turns →
      hashIndexInsertLoop table (hash key) dataOffset turns (t.probe (homeOf hash key) i) m =
        write m (table + t.probe (homeOf hash key) j * 8) (hashSlot (hash key) dataOffset) := by
  induction turns with
  | zero => intro i hi hlt; omega
  | succ turns ih =>
      intro i hi hlt
      rw [hashIndexInsertLoop]
      rcases Nat.lt_or_eq_of_le hi with hbefore | rfl
      · obtain ⟨key', v, hget, -⟩ := hstop.other_key hbefore
        have hfull : readLE m (table + t.probe (homeOf hash key) i * 8) 4 ≠ 0 := by
          rw [(h.readLE_full hget).1]
          intro hzero
          exact (h.entry _ _ _ hget).1 (UInt32.toNat_inj.mp hzero)
        rw [if_neg hfull, h.next]
        exact ih (i + 1) (by omega) (by omega)
      · have hfree : t[t.probe (homeOf hash key) i]? = some none := by
          rcases hstop.stops with hfree | ⟨v, hv⟩
          · exact hfree
          · exact absurd ⟨_, hv⟩ (hnew v)
        rw [if_pos (h.readLE_free hfree).1]

theorem Indexes.hashIndexInsert_eq (h : Indexes hash m table t) {key : Bytes} {j dataOffset : Nat}
    (hstop : t.FirstStop key (homeOf hash key) j) (hnew : ∀ v, ¬t.Holds key v) :
    hashIndexInsert hash table key dataOffset m =
      write m (table + t.probe (homeOf hash key) j * 8) (hashSlot (hash key) dataOffset) := by
  have hhome : (hash key).toNat % hashSlotCount = t.probe (homeOf hash key) 0 := by
    rw [Table.probe, h.length, homeOf, Nat.add_zero]
  have hlt := hstop.lt
  rw [h.length] at hlt
  rw [hashIndexInsert, hhome]
  exact hashIndexInsertLoop_eq h hstop hnew hashSlotCount 0 (Nat.zero_le j) (by omega)

/-- **An insertion** puts a new key where the search for it ends. -/
theorem Indexes.insert (h : Indexes hash m table t) {key : Bytes} {j dataOffset : Nat}
    (hstop : t.FirstStop key (homeOf hash key) j) (hnew : ∀ v, ¬t.Holds key v)
    (hhash : hash key ≠ 0) (hoffset : dataOffset < 2 ^ 32) :
    Indexes hash (hashIndexInsert hash table key dataOffset m) table
      (t.put (t.probe (homeOf hash key) j) key dataOffset) where
  length := (Table.length_put ..).trans h.length
  slots := by
    intro i s hi
    rw [h.hashIndexInsert_eq hstop hnew]
    by_cases heq : t.probe (homeOf hash key) j = i
    · have hlt : i < t.length := by
        rw [← heq]
        exact Table.probe_lt (by have := hstop.lt; omega) _ j
      subst heq
      rw [Table.put_same hlt, Option.some.injEq] at hi
      rw [← hi]
      exact holds_write
    · rw [Table.put_other heq] at hi
      apply (h.slots i s hi).write
      simp only [length_slotBytes, hashSlot, List.length_append, length_leBytes]
      omega
  entry := by
    intro i k v hi
    by_cases heq : t.probe (homeOf hash key) j = i
    · have hlt : i < t.length := by
        rw [← heq]
        exact Table.probe_lt (by have := hstop.lt; omega) _ j
      subst heq
      rw [Table.put_same hlt, Option.some.injEq, Option.some.injEq, Prod.mk.injEq] at hi
      rw [← hi.1, ← hi.2]
      exact ⟨hhash, hoffset⟩
    · rw [Table.put_other heq] at hi
      exact h.entry i k v hi
  reachable := h.reachable.put hstop dataOffset

end Index

def recordsLen (mem : Address → Bytes) (fs : List FieldDecl) : Nat := (fs.map (recordLen mem)).sum

theorem recordsLen_cons (f : FieldDecl) (fs : List FieldDecl) :
    recordsLen mem (f :: fs) = recordLen mem f + recordsLen mem fs := by
  simp [recordsLen]

/-- The keys with the offsets of their records, the first of them at `off`. -/
def placed (mem : Address → Bytes) : Nat → List FieldDecl → List (Bytes × Nat)
  | _, [] => []
  | off, f :: fs => (textAt mem f.key, off) :: placed mem (off + recordLen mem f) fs

theorem mem_placed {fs : List FieldDecl} {off v : Nat} {k : Bytes} (h : (k, v) ∈ placed mem off fs) :
    ∃ pre f post, fs = pre ++ f :: post ∧ textAt mem f.key = k ∧ v = off + recordsLen mem pre := by
  induction fs generalizing off with
  | nil => cases h
  | cons f fs ih =>
      rw [placed, List.mem_cons, Prod.mk.injEq] at h
      rcases h with ⟨hk, hv⟩ | h
      · exact ⟨[], f, fs, rfl, hk.symm, hv⟩
      · obtain ⟨pre, g, post, rfl, hg, hv⟩ := ih h
        refine ⟨f :: pre, g, post, rfl, hg, ?_⟩
        rw [hv, recordsLen_cons, Nat.add_assoc]

theorem placed_append (off : Nat) (xs ys : List FieldDecl) :
    placed mem off (xs ++ ys) = placed mem off xs ++ placed mem (off + recordsLen mem xs) ys := by
  induction xs generalizing off with
  | nil => rfl
  | cons x xs ih =>
      rw [List.cons_append, placed, placed, ih, List.cons_append, recordsLen_cons, Nat.add_assoc]

theorem mem_placed_of_mem (mem : Address → Bytes) {fs : List FieldDecl} {f : FieldDecl} (h : f ∈ fs) (off : Nat) :
    ∃ v, (textAt mem f.key, v) ∈ placed mem off fs := by
  obtain ⟨pre, post, rfl⟩ := List.append_of_mem h
  rw [placed_append]
  exact ⟨_, List.mem_append_right _ List.mem_cons_self⟩

theorem length_flatMap_fieldRecord (fs : List FieldDecl) :
    (fs.flatMap (fieldRecord mem)).length = recordsLen mem fs := by
  induction fs with
  | nil => rfl
  | cons f fs ih =>
      rw [List.flatMap_cons, List.length_append, ih, length_fieldRecord, recordsLen_cons]

section Loop

variable {table start cap : Nat}

theorem writeFields_records (hstart : table + hashIndexSize ≤ start) (fs : List FieldDecl) :
    ∀ {off m}, start + off + recordsLen mem fs ≤ cap →
      (writeFields mem hash table start cap fs off m).1 = off + recordsLen mem fs ∧
        Holds (writeFields mem hash table start cap fs off m).2 (start + off)
          (fs.flatMap (fieldRecord mem)) ∧
        ∀ i, i < table ∨ (table + hashIndexSize ≤ i ∧ i < start + off) →
          (writeFields mem hash table start cap fs off m).2 i = m i := by
  induction fs with
  | nil => exact fun _ => ⟨rfl, holds_nil, fun i _ => rfl⟩
  | cons f fs ih =>
      intro off m hend
      rw [recordsLen_cons] at hend ⊢
      rw [writeFields, if_neg (by omega)]
      have hend' : start + (off + recordLen mem f) + recordsLen mem fs ≤ cap := by omega
      obtain ⟨hoff, hrecords, hother⟩ := ih (m := hashIndexInsert hash table (textAt mem f.key)
        (u32 off) (write m (start + off) (fieldRecord mem f))) hend'
      refine ⟨by rw [hoff, Nat.add_assoc], ?_, ?_⟩
      · rw [List.flatMap_cons, holds_append_iff, length_fieldRecord]
        constructor
        · have hfirst : Holds (write m (start + off) (fieldRecord mem f)) (start + off)
              (fieldRecord mem f) := holds_write
          rw [holds_iff] at hfirst ⊢
          intro i hi
          rw [length_fieldRecord] at hi
          rw [hother _ (by omega), hashIndexInsert_other (by omega)]
          exact hfirst i (by rw [length_fieldRecord]; exact hi)
        · rw [Nat.add_assoc]
          exact hrecords
      · intro i hi
        rw [hother i (by omega), hashIndexInsert_other (by omega)]
        exact write_outside (by omega)

theorem exists_writeFields_index (hstart : table + hashIndexSize ≤ start) (hcap : cap < 2 ^ 32)
    (fs : List FieldDecl) :
    ∀ {off m t}, Indexes hash m table t → t.used + fs.length < hashSlotCount →
      (∀ f ∈ fs, ∀ v, ¬t.Holds (textAt mem f.key) v) →
      (fs.map fun f => textAt mem f.key).Nodup → (∀ f ∈ fs, hash (textAt mem f.key) ≠ 0) →
      start + off + recordsLen mem fs ≤ cap →
      ∃ t', Indexes hash (writeFields mem hash table start cap fs off m).2 table t' ∧
        t'.used = t.used + fs.length ∧
        ∀ k v, t'.Holds k v ↔ t.Holds k v ∨ (k, v) ∈ placed mem off fs := by
  induction fs with
  | nil =>
      intro off m t hindex _ _ _ _ _
      refine ⟨t, hindex, rfl, fun k v => ?_⟩
      simp [placed]
  | cons f fs ih =>
      intro off m t hindex hroom hnew hnodup hhash hend
      rw [recordsLen_cons] at hend
      rw [List.map_cons, List.nodup_cons] at hnodup
      rw [List.length_cons] at hroom
      have hu32 : u32 off = off := Nat.mod_eq_of_lt (by omega)
      rw [writeFields, if_neg (by omega), hu32]
      -- the record lies behind the index
      have hrecord : Indexes hash (write m (start + off) (fieldRecord mem f)) table t := by
        apply hindex.of_same
        intro i _ hi
        exact write_outside (Or.inl (by omega))
      obtain ⟨e, he⟩ := Table.exists_free (t := t) (by rw [hindex.length]; omega)
      obtain ⟨j, hstop⟩ := Table.exists_firstStop he (textAt mem f.key)
        (homeOf hash (textAt mem f.key))
      have hkey := hnew f List.mem_cons_self
      have hinsert := hrecord.insert hstop hkey (hhash f List.mem_cons_self)
        (show off < 2 ^ 32 by omega)
      have hused : (t.put (t.probe (homeOf hash (textAt mem f.key)) j) (textAt mem f.key) off).used =
          t.used + 1 := by
        apply Table.used_put_free
        rcases hstop.stops with hfree | ⟨v, hv⟩
        · exact hfree
        · exact absurd ⟨_, hv⟩ (hkey v)
      have hholds := Table.holds_put hindex.reachable hstop off
      have hend' : start + (off + recordLen mem f) + recordsLen mem fs ≤ cap := by omega
      have hrest := ih hinsert (by omega)
        (by
          intro g hg v hv
          rcases (hholds _ v).mp hv with ⟨hsame, -⟩ | ⟨-, hold⟩
          · exact hnodup.1 (hsame ▸ List.mem_map_of_mem hg)
          · exact hnew g (List.mem_cons_of_mem _ hg) v hold)
        hnodup.2 (fun g hg => hhash g (List.mem_cons_of_mem _ hg)) hend'
      obtain ⟨t', hindex', hused', hholds'⟩ := hrest
      refine ⟨t', hindex', ?_, ?_⟩
      · rw [hused', hused, List.length_cons]
        omega
      · intro k v
        rw [hholds', hholds, placed, List.mem_cons, Prod.mk.injEq]
        constructor
        · rintro ((hsame | ⟨-, hold⟩) | hlater)
          · exact Or.inr (Or.inl hsame)
          · exact Or.inl hold
          · exact Or.inr (Or.inr hlater)
        · rintro (hold | hsame | hlater)
          · by_cases hk : k = textAt mem f.key
            · exact absurd (hk ▸ hold) (hkey v)
            · exact Or.inl (Or.inr ⟨hk, hold⟩)
          · exact Or.inl (Or.inl hsame)
          · exact Or.inr hlater

end Loop

theorem sameBelow_writePages {n : Nat} (pageStart pageLen pages : Nat) :
    ∀ {offset}, n ≤ offset → ∀ m, SameBelow n m (writePages pageStart pageLen pages offset m) := by
  induction pages with
  | zero => exact fun _ m => sameBelow_refl n m
  | succ pages ih =>
      intro offset hn m
      rw [writePages]
      exact (sameBelow_write m hn).trans (ih (by omega) _)

theorem writeFieldNodes_eq (base fieldDataOffset : Nat) (entries : List (Bytes × Nat)) :
    ∀ i trieOff firstFieldOff m,
      writeFieldNodes base fieldDataOffset entries i trieOff firstFieldOff m =
        (firstFieldOff, m) := by
  induction entries with
  | nil => exact fun _ _ _ _ => rfl
  | cons entry entries ih =>
      intro i trieOff firstFieldOff m
      rw [writeFieldNodes, if_neg (by decide)]
      exact ih (i + 1) trieOff firstFieldOff m

@[simp] theorem length_trieNode (name : Bytes) (firstChildOff nextSiblingOff firstFieldOff : Nat) :
    (trieNode name firstChildOff nextSiblingOff firstFieldOff).length = sizeofTrieNode := by
  simp only [trieNode, List.length_append, List.length_cons, List.length_take,
    List.length_replicate, length_leBytes, sizeofTrieNode]
  omega

theorem sameBelow_writeDomains {base fieldDataOffset n : Nat}
    (ds : List (Bytes × List (Bytes × Nat))) :
    ∀ {off}, n ≤ base + off → ∀ m,
      SameBelow n m (ds.foldl (writeDomain base fieldDataOffset) (off, m)).2 := by
  induction ds with
  | nil => exact fun _ m => sameBelow_refl n m
  | cons d ds ih =>
      intro off hn m
      rw [List.foldl_cons, writeDomain, writeFieldNodes_eq]
      exact (sameBelow_write m hn).trans (ih (by omega) _)

theorem writeDomains_fst {base fieldDataOffset : Nat} (ds : List (Bytes × List (Bytes × Nat))) :
    ∀ off m, (ds.foldl (writeDomain base fieldDataOffset) (off, m)).1 =
      off + ds.length * sizeofTrieNode := by
  induction ds with
  | nil =>
      intro off m
      simp
  | cons d ds ih =>
      intro off m
      rw [List.foldl_cons, writeDomain, ih, List.length_cons, Nat.add_mul]
      omega

section Trie

variable {domainOrder : MapOrder (List (Bytes × Nat))} {base fieldDataOffset : Nat}
  {entries : List (Bytes × FieldDecl)}

theorem sameBelow_buildTrie (m : Area) :
    SameBelow base m
      (buildTrieFromFields mem domainOrder base entries fieldDataOffset m).2 := by
  unfold buildTrieFromFields
  split
  · exact sameBelow_refl base m
  · exact (sameBelow_write m le_rfl).trans (sameBelow_writeDomains _ (by omega) _)

theorem holds_root (hne : entries ≠ []) (m : Area) :
    Holds (buildTrieFromFields mem domainOrder base entries fieldDataOffset m).2 base
      (trieNode (ascii "root") sizeofTrieNode 0 0) := by
  rw [buildTrieFromFields, if_neg hne]
  apply Holds.of_sameBelow holds_write (sameBelow_writeDomains _ le_rfl _)
  rw [length_trieNode]

theorem buildTrie_pos (hne : entries ≠ []) (m : Area) :
    0 < (buildTrieFromFields mem domainOrder base entries fieldDataOffset m).1 := by
  rw [buildTrieFromFields, if_neg hne, writeDomains_fst]
  unfold sizeofTrieNode
  omega

end Trie

theorem length_entries_le {β : Type} (order : MapOrder β) {m : StringMap β} {l : List Bytes}
    (h : ∀ k v, m.lookup k = some v → k ∈ l) : (order.entries m).length ≤ l.length := by
  have hsubset : (order.entries m).map Prod.fst ⊆ l := by
    intro k hk
    obtain ⟨kv, hkv, rfl⟩ := List.mem_map.mp hk
    exact h kv.1 kv.2 ((order.mem_entries m kv.1 kv.2).mp hkv)
  have hlen := (order.nodup_keys m).length_le_of_subset hsubset
  rw [List.length_map] at hlen
  exact hlen

theorem mem_of_lookup_domains (entries : List (Bytes × FieldDecl)) {k : Bytes}
    {v : List (Bytes × Nat)} (h : (domains mem entries).lookup k = some v) :
    k ∈ entries.map fun kv => domainOf kv.1 := by
  have hrun : ∀ acc : StringMap (List (Bytes × Nat)) × Nat,
      ∀ k v, (entries.foldl (groupField mem) acc).1.lookup k = some v →
        acc.1.lookup k = some v ∨ k ∈ entries.map fun kv => domainOf kv.1 := by
    clear h
    induction entries with
    | nil => exact fun acc k v h => Or.inl h
    | cons kv entries ih =>
        intro acc k v h
        rw [List.map_cons, List.mem_cons]
        rcases ih _ k v h with hlater | hmem
        · by_cases hk : k = domainOf kv.1
          · exact Or.inr (Or.inl hk)
          · left
            rw [← hlater]
            exact (Finmap.lookup_insert_of_ne _ hk).symm
        · exact Or.inr (Or.inr hmem)
  rcases hrun (∅, 0) k v h with hempty | hmem
  · simp at hempty
  · exact hmem

section Area

variable (mem : Address → Bytes) (order : MapOrder FieldDecl)
  (domainOrder : MapOrder (List (Bytes × Nat))) (fields : StringMap FieldDecl) (json : Bytes)

def declsOf (order : MapOrder FieldDecl) (fields : StringMap FieldDecl) : List FieldDecl :=
  (order.entries fields).map Prod.snd

def indexAt (json : Bytes) : Nat := align8 (json.length + 1)

def recordsAt (json : Bytes) : Nat := indexAt json + hashIndexSize

def pagesAt : Nat := recordsAt json + recordsLen mem (declsOf order fields)

def trieAt : Nat :=
  pagesAt mem order fields json +
    ((order.entries fields).length + fieldsPerPage - 1) / fieldsPerPage * 8

def trieEnd : Nat :=
  trieAt mem order fields json +
    (1 + (domainOrder.entries (domains mem (order.entries fields))).length) * sizeofTrieNode

structure Fits (a : SchemaArea) : Prop where
  few : (order.entries fields).length < hashSlotCount
  short : ∀ f ∈ declsOf order fields, Short mem f
  within : trieEnd mem order domainOrder fields json ≤ a.capacity
  word : a.capacity < 2 ^ 32

end Area

section Layout

variable {order : MapOrder FieldDecl} {domainOrder : MapOrder (List (Bytes × Nat))}
  {fields : StringMap FieldDecl} {json : Bytes} {a : SchemaArea}

theorem Fits.bounds (h : Fits mem order domainOrder fields json a) :
    json.length < indexAt json ∧ indexAt json + hashIndexSize = recordsAt json ∧
      recordsAt json + recordsLen mem (declsOf order fields) = pagesAt mem order fields json ∧
      pagesAt mem order fields json ≤ trieAt mem order fields json ∧
      trieAt mem order fields json + sizeofTrieNode ≤ a.capacity := by
  have hend := h.within
  have hroot : sizeofTrieNode ≤
      (1 + (domainOrder.entries (domains mem (order.entries fields))).length) * sizeofTrieNode :=
    Nat.le_mul_of_pos_left _ (by omega)
  unfold trieEnd at hend
  refine ⟨?_, rfl, rfl, Nat.le_add_right _ _, by omega⟩
  unfold indexAt align8
  omega

def emptyIndex : Table Bytes Nat := List.replicate hashSlotCount none

theorem emptyIndex_get {i : Nat} {s : Option (Bytes × Nat)} (h : emptyIndex[i]? = some s) :
    i < hashSlotCount ∧ s = none := by
  obtain ⟨hlt, hget⟩ := List.getElem?_eq_some_iff.mp h
  unfold emptyIndex at hlt hget
  rw [List.getElem_replicate] at hget
  rw [List.length_replicate] at hlt
  exact ⟨hlt, hget.symm⟩

theorem not_holds_emptyIndex (k : Bytes) (v : Nat) : ¬emptyIndex.Holds k v := by
  rintro ⟨i, hi⟩
  cases (emptyIndex_get hi).2

theorem used_emptyIndex : emptyIndex.used = 0 := by
  rw [Table.used, emptyIndex, List.countP_replicate]
  rfl

theorem indexes_zeros (hash : Bytes → UInt32) (m : Area) (table : Nat) :
    Indexes hash (write m table (List.replicate hashIndexSize 0)) table emptyIndex where
  length := List.length_replicate
  slots := by
    intro i s hi
    obtain ⟨hlt, rfl⟩ := emptyIndex_get hi
    rw [holds_iff]
    intro n hn
    have hn8 : n < 8 := by simpa using hn
    have hin : i * 8 + n < (List.replicate hashIndexSize (0 : UInt8)).length := by
      rw [List.length_replicate]
      unfold hashIndexSize
      omega
    rw [Nat.add_assoc, write_inside hin, List.getElem_replicate]
    simp only [slotBytes, List.getElem_replicate]
  entry := by
    intro i k v hi
    cases (emptyIndex_get hi).2
  reachable := by
    intro i k v hi
    cases (emptyIndex_get hi).2

structure Laid (mem : Address → Bytes) (order : MapOrder FieldDecl) (fields : StringMap FieldDecl)
    (json : Bytes) (cap : Nat) (b : SchemaArea) : Prop where
  hashTableOffset : b.hashTableOffset = indexAt json
  fieldDataOffset : b.fieldDataOffset = recordsAt json
  trieRootOffset : b.trieRootOffset = trieAt mem order fields json
  capacity : b.capacity = cap
  text : Holds b.bytes 0 (json ++ [0])
  records : Holds b.bytes (recordsAt json) ((declsOf order fields).flatMap (fieldRecord mem))
  root : Holds b.bytes (trieAt mem order fields json)
    (trieNode (ascii "root") sizeofTrieNode 0 0)

def beforePages (mem : Address → Bytes) (hash : Bytes → UInt32) (order : MapOrder FieldDecl)
    (fields : StringMap FieldDecl) (json : Bytes) (a : SchemaArea) : Area :=
  (writeFields mem hash (indexAt json) (recordsAt json) a.capacity (declsOf order fields) 0
    (write (write a.bytes 0 (json ++ [0])) (indexAt json) (List.replicate hashIndexSize 0))).2

def withPages (mem : Address → Bytes) (hash : Bytes → UInt32) (order : MapOrder FieldDecl)
    (domainOrder : MapOrder (List (Bytes × Nat))) (fields : StringMap FieldDecl) (json : Bytes)
    (a : SchemaArea) : Area :=
  (buildTrieFromFields mem domainOrder (trieAt mem order fields json) (order.entries fields)
    (recordsAt json)
    (writePages (recordsAt json) (recordsLen mem (declsOf order fields))
      (((order.entries fields).length + fieldsPerPage - 1) / fieldsPerPage)
      (pagesAt mem order fields json) (beforePages mem hash order fields json a))).2

theorem writeSchema_eq (h : Fits mem order domainOrder fields json a) (hjson : json ≠ [])
    (hfields : order.entries fields ≠ []) :
    writeSchema mem hash order domainOrder fields json a =
        { a with
          bytes := withPages mem hash order domainOrder fields json a
          schemaJsonLen := json.length
          schemaJsonOffset := 0
          hashTableOffset := indexAt json
          fieldDataOffset := recordsAt json
          pageTableOffset := pagesAt mem order fields json
          pageCount := ((order.entries fields).length + fieldsPerPage - 1) / fieldsPerPage
          trieRootOffset := trieAt mem order fields json } := by
  obtain ⟨htext, hindex, hpages, htrie, hend⟩ := h.bounds
  have hword := h.word
  have hfew := h.few
  have hsize : 0 < sizeofTrieNode := by decide
  have hlt : json.length < a.capacity := by omega
  have hu32 : ∀ n, n < 2 ^ 32 → u32 n = n := fun n hn => Nat.mod_eq_of_lt hn
  have hrecords : (writeFields mem hash (indexAt json) (recordsAt json) a.capacity
      (declsOf order fields) 0 (write (write a.bytes 0 (json ++ [0])) (indexAt json)
        (List.replicate hashIndexSize 0))).1 = 0 + recordsLen mem (declsOf order fields) :=
    (writeFields_records hindex.le _ (by omega)).1
  rw [Nat.zero_add] at hrecords
  have hindexWord := hu32 (indexAt json) (by omega)
  have hrecordsWord := hu32 (recordsAt json) (by omega)
  have hlenWord := hu32 (recordsLen mem (declsOf order fields)) (by omega)
  have hpagesWord := hu32 (pagesAt mem order fields json) (by omega)
  have htrieWord := hu32 (trieAt mem order fields json) (by omega)
  have hjsonWord := hu32 json.length (by omega)
  have hcountWord := hu32 (((order.entries fields).length + fieldsPerPage - 1) / fieldsPerPage)
    (by unfold hashSlotCount at hfew; unfold fieldsPerPage; omega)
  unfold trieAt pagesAt recordsAt indexAt declsOf at *
  simp only [writeSchema, if_neg hjson, if_pos hlt, List.take_length, hrecords, hindexWord,
    hrecordsWord, hlenWord, hpagesWord, htrieWord, hjsonWord, hcountWord,
    if_pos (buildTrie_pos hfields _)]
  rfl

theorem sameBelow_withPages (hash : Bytes → UInt32)
    (h : Fits mem order domainOrder fields json a) :
    SameBelow (pagesAt mem order fields json) (beforePages mem hash order fields json a)
      (withPages mem hash order domainOrder fields json a) :=
  (sameBelow_writePages _ _ _ le_rfl _).trans ((sameBelow_buildTrie _).mono h.bounds.2.2.2.1)

/-- **A new area** holds the text, the records and the root of the trie. -/
theorem laid_writeSchema (hash : Bytes → UInt32) (h : Fits mem order domainOrder fields json a) (hjson : json ≠ [])
    (hfields : order.entries fields ≠ []) :
    Laid mem order fields json a.capacity
      (writeSchema mem hash order domainOrder fields json a) := by
  obtain ⟨htext, hindex, hpages, htrie, hend⟩ := h.bounds
  have hsame := sameBelow_withPages hash h
  have hsize : 0 < sizeofTrieNode := by decide
  have hfit : recordsAt json + 0 + recordsLen mem (declsOf order fields) ≤ a.capacity := by omega
  obtain ⟨-, hrecords, hother⟩ := @writeFields_records mem hash (indexAt json) (recordsAt json)
    a.capacity hindex.le (declsOf order fields) 0
    (write (write a.bytes 0 (json ++ [0])) (indexAt json) (List.replicate hashIndexSize 0)) hfit
  rw [writeSchema_eq h hjson hfields]
  refine ⟨rfl, rfl, rfl, rfl, ?_, ?_, holds_root hfields _⟩
  · have hjsonHolds : Holds (write a.bytes 0 (json ++ [0])) 0 (json ++ [0]) := holds_write
    have hlen : (json ++ [0]).length = json.length + 1 := by simp
    have hkept : Holds (write (write a.bytes 0 (json ++ [0])) (indexAt json)
        (List.replicate hashIndexSize 0)) 0 (json ++ [0]) := hjsonHolds.write (Or.inl (by omega))
    apply Holds.of_sameBelow _ hsame (by omega)
    rw [holds_iff] at hkept ⊢
    intro i hi
    unfold beforePages
    rw [hother _ (by omega)]
    exact hkept i hi
  · apply Holds.of_sameBelow hrecords hsame
    rw [length_flatMap_fieldRecord]
    exact hpages.le

theorem exists_index_writeSchema (hash : Bytes → UInt32)
    (h : Fits mem order domainOrder fields json a) (hjson : json ≠ [])
    (hfields : order.entries fields ≠ [])
    (hkeys : ∀ kv ∈ order.entries fields, textAt mem kv.2.key = kv.1 ∧ hash kv.1 ≠ 0) :
    ∃ t, Indexes hash (writeSchema mem hash order domainOrder fields json a).bytes
        (indexAt json) t ∧ t.used < hashSlotCount ∧
      ∀ k v, t.Holds k v ↔ (k, v) ∈ placed mem 0 (declsOf order fields) := by
  obtain ⟨htext, hindex, hpages, htrie, hend⟩ := h.bounds
  have hsize : 0 < sizeofTrieNode := by decide
  have hzeros := indexes_zeros hash (write a.bytes 0 (json ++ [0])) (indexAt json)
  have hmap : (declsOf order fields).map (fun f => textAt mem f.key) =
      (order.entries fields).map Prod.fst := by
    rw [declsOf, List.map_map]
    exact List.map_congr_left fun kv hkv => (hkeys kv hkv).1
  have hcount : (declsOf order fields).length = (order.entries fields).length := List.length_map _
  have hfew := h.few
  have hfit : recordsAt json + 0 + recordsLen mem (declsOf order fields) ≤ a.capacity := by omega
  obtain ⟨t, hindexes, husedT, hholds⟩ := exists_writeFields_index hindex.le h.word
    (declsOf order fields) hzeros
    (by rw [used_emptyIndex]; omega) (fun f _ v => not_holds_emptyIndex _ v)
    (by rw [hmap]; exact order.nodup_keys fields)
    (by
      intro f hf
      obtain ⟨kv, hkv, rfl⟩ := List.mem_map.mp hf
      rw [(hkeys kv hkv).1]
      exact (hkeys kv hkv).2)
    hfit
  rw [used_emptyIndex] at husedT
  refine ⟨t, ?_, by omega, fun k v => ?_⟩
  · rw [writeSchema_eq h hjson hfields]
    apply hindexes.of_same
    intro i _ hi
    exact sameBelow_withPages hash h i (by omega)
  · rw [hholds]
    exact or_iff_right (not_holds_emptyIndex k v)

end Layout

end BlessStar.Sdk.Proofs.SchemaLayout
