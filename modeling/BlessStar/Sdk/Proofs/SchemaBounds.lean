import BlessStar.Sdk.Proofs.SchemaLayout

/-!
# The bounds of a schema area

Only the records are compared with the capacity of the area.  The text always
ends inside; the index in front of the records, and the pages and the trie
behind them, end where the sizes of all regions put them.
-/

namespace BlessStar.Sdk.Proofs.SchemaBounds

open Lib.ByteString Lib.ByteArea
open SchemaArea SchemaLayout
open ConfigDeclareState (textAt)

def fittingLen : Nat → List Nat → Nat
  | _, [] => 0
  | room, len :: lens => if room < len then 0 else len + fittingLen (room - len) lens

def textEnd (json : Bytes) (cap : Nat) : Nat :=
  if json = [] then 0 else min json.length (cap - 1) + 1

def recordsStart (json : Bytes) (cap : Nat) : Nat := align8 (textEnd json cap) + hashIndexSize

def pagesLen (fields : Nat) : Nat := (fields + fieldsPerPage - 1) / fieldsPerPage * 8

def trieLen (fields domains : Nat) : Nat := if fields = 0 then 0 else (1 + domains) * sizeofTrieNode

section

variable (mem : Address → Bytes) (order : MapOrder FieldDecl)
  (domainOrder : MapOrder (List (Bytes × Nat))) (fields : StringMap FieldDecl)

def areaEnd (json : Bytes) (cap : Nat) : Nat :=
  recordsStart json cap +
    fittingLen (cap - recordsStart json cap) ((declsOf order fields).map (recordLen mem)) +
    pagesLen (declsOf order fields).length +
    trieLen (declsOf order fields).length
      (domainOrder.entries (domains mem (order.entries fields))).length

/-- Whatever the area held, nothing is stored at or behind its capacity. -/
def StaysInside (hash : Bytes → UInt32) (json : Bytes) (a : SchemaArea) : Prop :=
  ∀ m : Area, SameFrom a.capacity m
    (writeSchema mem hash order domainOrder fields json { a with bytes := m }).bytes

end

variable {mem : Address → Bytes} {hash : Bytes → UInt32}

theorem writeFields_spec {table start cap : Nat} (hstart : table + hashIndexSize ≤ start)
    (fs : List FieldDecl) : ∀ (off : Nat) (m : Area),
      (writeFields mem hash table start cap fs off m).1 =
          off + fittingLen (cap - (start + off)) (fs.map (recordLen mem)) ∧
        SameFrom (start + (writeFields mem hash table start cap fs off m).1) m
          (writeFields mem hash table start cap fs off m).2 := by
  induction fs with
  | nil => exact fun off m => ⟨rfl, sameFrom_refl _ m⟩
  | cons f fs ih =>
      intro off m
      have hpos := eight_le_recordLen mem f
      rw [writeFields, List.map_cons, fittingLen]
      by_cases hfull : cap < start + off + recordLen mem f
      · rw [if_pos hfull, if_pos (by omega)]
        exact ⟨rfl, sameFrom_refl _ m⟩
      · rw [if_neg hfull, if_neg (by omega)]
        dsimp only
        obtain ⟨hlen, hsame⟩ := ih (off + recordLen mem f)
          (hashIndexInsert hash table (textAt mem f.key) (u32 off)
            (write m (start + off) (fieldRecord mem f)))
        have hroom : cap - (start + (off + recordLen mem f)) =
            cap - (start + off) - recordLen mem f := by omega
        refine ⟨by rw [hlen, hroom]; omega, SameFrom.trans ?_ hsame⟩
        intro i hi
        rw [hashIndexInsert_other (Or.inr (by omega))]
        apply sameFrom_write m le_rfl
        rw [length_fieldRecord]
        omega

theorem sameFrom_writePages (pageStart pageLen pages : Nat) : ∀ (offset : Nat) (m : Area),
    SameFrom (offset + pages * 8) m (writePages pageStart pageLen pages offset m) := by
  induction pages with
  | zero => exact fun offset m => sameFrom_refl _ m
  | succ pages ih =>
      intro offset m
      have hlen : (leBytes 4 pageStart ++ leBytes 4 pageLen).length = 8 := by
        rw [List.length_append, length_leBytes, length_leBytes]
      rw [writePages, show offset + (pages + 1) * 8 = offset + 8 + pages * 8 by omega]
      exact (sameFrom_write m (by omega)).trans (ih (offset + 8) _)

section Trie

variable {base fieldDataOffset : Nat}

theorem last_trieNode (m : Area) (off : Nat) (name : Bytes) (firstChildOff : Nat) :
    write m off (trieNode name firstChildOff 0 0) (off + sizeofTrieNode - 1) = 0 := by
  obtain ⟨front, hnode, hfront⟩ : ∃ front,
      trieNode name firstChildOff 0 0 = front ++ leBytes 4 0 ∧ front.length + 4 = sizeofTrieNode := by
    have hlen := length_trieNode name firstChildOff 0 0
    rw [trieNode, List.length_append, length_leBytes] at hlen
    exact ⟨_, rfl, hlen⟩
  have hholds := @holds_write m off (front ++ leBytes 4 0)
  have hlast := holds_iff.mp (holds_append_iff.mp hholds).2 3 (by rw [length_leBytes]; omega)
  rw [hnode, show off + sizeofTrieNode - 1 = off + front.length + 3 by omega, hlast]
  rfl

theorem writeDomains_spec (ds : List (Bytes × List (Bytes × Nat))) : ∀ (off : Nat) (m : Area),
    SameFrom (base + off + ds.length * sizeofTrieNode) m
        (ds.foldl (writeDomain base fieldDataOffset) (off, m)).2 ∧
      (0 < off → m (base + off - 1) = 0 →
        (ds.foldl (writeDomain base fieldDataOffset) (off, m)).2
          (base + off + ds.length * sizeofTrieNode - 1) = 0) := by
  induction ds with
  | nil =>
      intro off m
      exact ⟨sameFrom_refl _ m, fun _ hlast => by simpa using hlast⟩
  | cons d ds ih =>
      intro off m
      rw [List.foldl_cons, writeDomain, writeFieldNodes_eq]
      dsimp only
      obtain ⟨hsame, hlast⟩ := ih (off + sizeofTrieNode) (write m (base + off) (trieNode d.1 0 0 0))
      have hend : base + off + (d :: ds).length * sizeofTrieNode =
          base + (off + sizeofTrieNode) + ds.length * sizeofTrieNode := by
        rw [List.length_cons, Nat.add_mul]
        omega
      rw [hend]
      refine ⟨SameFrom.trans (sameFrom_write m ?_) hsame, fun _ _ => hlast (by unfold sizeofTrieNode; omega) ?_⟩
      · rw [length_trieNode]
        omega
      · exact last_trieNode m (base + off) d.1 0

theorem buildTrie_spec {domainOrder : MapOrder (List (Bytes × Nat))}
    {entries : List (Bytes × FieldDecl)} (m : Area) :
    SameFrom (base + trieLen entries.length (domainOrder.entries (domains mem entries)).length) m
        (buildTrieFromFields mem domainOrder base entries fieldDataOffset m).2 ∧
      (entries ≠ [] →
        (buildTrieFromFields mem domainOrder base entries fieldDataOffset m).2
          (base + trieLen entries.length (domainOrder.entries (domains mem entries)).length - 1) =
            0) := by
  unfold buildTrieFromFields trieLen
  by_cases hnil : entries = []
  · rw [if_pos hnil, if_pos (by rw [hnil]; rfl)]
    exact ⟨sameFrom_refl _ m, fun hne => absurd hnil hne⟩
  · rw [if_neg hnil, if_neg (by rwa [List.length_eq_zero_iff])]
    obtain ⟨hsame, hlast⟩ := @writeDomains_spec base fieldDataOffset
      (domainOrder.entries (domains mem entries)) sizeofTrieNode
      (write m base (trieNode (ascii "root") sizeofTrieNode 0 0))
    rw [Nat.add_mul, Nat.one_mul, ← Nat.add_assoc]
    refine ⟨SameFrom.trans (sameFrom_write m ?_) hsame, fun _ => hlast (by decide) ?_⟩
    · rw [length_trieNode]
      omega
    · exact last_trieNode m base (ascii "root") sizeofTrieNode

end Trie

section Area

variable {order : MapOrder FieldDecl} {domainOrder : MapOrder (List (Bytes × Nat))}
  {fields : StringMap FieldDecl} {json : Bytes} {a : SchemaArea}

theorem capacity_pos (a : SchemaArea) : 0 < a.capacity := by
  unfold capacity defaultSchemaCapacity
  split <;> omega

def cleared (json : Bytes) (cap : Nat) (m : Area) : Area :=
  write (if json = [] then m
    else write m 0 (json.take (if json.length < cap then json.length else cap - 1) ++ [0]))
    (align8 (textEnd json cap)) (List.replicate hashIndexSize 0)

theorem textEnd_eq (json : Bytes) {cap : Nat} (hcap : 0 < cap) :
    textEnd json cap = if json = [] then 0
      else (if json.length < cap then json.length else cap - 1) + 1 := by
  unfold textEnd
  split
  · rfl
  · split <;> omega

theorem sameFrom_cleared (json : Bytes) {cap : Nat} (hcap : 0 < cap) (m : Area) :
    SameFrom (recordsStart json cap) m (cleared json cap m) := by
  have halign : textEnd json cap ≤ align8 (textEnd json cap) := by
    unfold align8
    omega
  have hend : recordsStart json cap = align8 (textEnd json cap) + hashIndexSize := rfl
  refine SameFrom.trans ?_ (sameFrom_write _ (by rw [List.length_replicate]; exact le_rfl))
  by_cases hjson : json = []
  · rw [if_pos hjson]
    exact sameFrom_refl _ m
  · rw [if_neg hjson]
    have htext := textEnd_eq json hcap
    rw [if_neg hjson] at htext
    apply sameFrom_write
    rw [List.length_append, List.length_take, List.length_singleton]
    omega

theorem last_cleared (json : Bytes) (cap : Nat) (m : Area) :
    cleared json cap m (recordsStart json cap - 1) = 0 := by
  have hlast := holds_iff.mp (@holds_write
    (if json = [] then m
      else write m 0 (json.take (if json.length < cap then json.length else cap - 1) ++ [0]))
    (align8 (textEnd json cap)) (List.replicate hashIndexSize 0)) (hashIndexSize - 1)
    (by rw [List.length_replicate]; decide)
  rw [List.getElem_replicate] at hlast
  exact hlast

def withRecords (mem : Address → Bytes) (hash : Bytes → UInt32) (order : MapOrder FieldDecl)
    (fields : StringMap FieldDecl) (json : Bytes) (cap : Nat) (m : Area) : Nat × Area :=
  writeFields mem hash (align8 (textEnd json cap)) (recordsStart json cap) cap
    (declsOf order fields) 0 (cleared json cap m)

theorem withRecords_spec (mem : Address → Bytes) (hash : Bytes → UInt32)
    (order : MapOrder FieldDecl) (fields : StringMap FieldDecl) (json : Bytes) {cap : Nat}
    (hcap : 0 < cap) (m : Area) :
    (withRecords mem hash order fields json cap m).1 =
        fittingLen (cap - recordsStart json cap) ((declsOf order fields).map (recordLen mem)) ∧
      SameFrom (recordsStart json cap + (withRecords mem hash order fields json cap m).1) m
        (withRecords mem hash order fields json cap m).2 := by
  obtain ⟨hlen, hsame⟩ := @writeFields_spec mem hash (align8 (textEnd json cap)) _ cap
    (le_refl (recordsStart json cap)) (declsOf order fields) 0 (cleared json cap m)
  rw [Nat.zero_add, Nat.add_zero] at hlen
  refine ⟨hlen, SameFrom.trans ?_ hsame⟩
  exact fun i hi => sameFrom_cleared json hcap m i (le_trans (Nat.le_add_right _ _) hi)

theorem bytes_writeSchema (m : Area) :
    (writeSchema mem hash order domainOrder fields json { a with bytes := m }).bytes =
      let records := withRecords mem hash order fields json a.capacity m
      let pageOff := recordsStart json a.capacity + records.1
      (buildTrieFromFields mem domainOrder
        (pageOff + pagesLen (declsOf order fields).length) (order.entries fields)
        (u32 (recordsStart json a.capacity))
        (writePages (u32 (recordsStart json a.capacity)) (u32 records.1)
          (((declsOf order fields).length + fieldsPerPage - 1) / fieldsPerPage) pageOff
          records.2)).2 := by
  have hlen : (declsOf order fields).length = (order.entries fields).length := List.length_map _
  have htext := textEnd_eq json (capacity_pos a)
  simp only [withRecords, cleared, recordsStart, pagesLen, htext, hlen]
  rfl

theorem writeSchema_spec (hash : Bytes → UInt32) (m : Area) :
    SameFrom (areaEnd mem order domainOrder fields json a.capacity) m
        (writeSchema mem hash order domainOrder fields json { a with bytes := m }).bytes ∧
      (writeSchema mem hash order domainOrder fields json { a with bytes := m }).bytes
        (areaEnd mem order domainOrder fields json a.capacity - 1) = 0 := by
  have hlen : (declsOf order fields).length = (order.entries fields).length := List.length_map _
  obtain ⟨hrecords, hsame⟩ :=
    withRecords_spec mem hash order fields json (capacity_pos a) m
  rw [bytes_writeSchema]
  unfold areaEnd
  rw [← hrecords]
  dsimp only
  have hpages := sameFrom_writePages (u32 (recordsStart json a.capacity))
    (u32 (withRecords mem hash order fields json a.capacity m).1)
    (((declsOf order fields).length + fieldsPerPage - 1) / fieldsPerPage)
    (recordsStart json a.capacity + (withRecords mem hash order fields json a.capacity m).1)
    (withRecords mem hash order fields json a.capacity m).2
  have htrie := @buildTrie_spec mem
    (recordsStart json a.capacity + (withRecords mem hash order fields json a.capacity m).1 +
      pagesLen (declsOf order fields).length)
    (u32 (recordsStart json a.capacity)) domainOrder (order.entries fields)
  rw [← hlen] at htrie
  refine ⟨fun i hi => ?_, ?_⟩
  · rw [(htrie _).1 i hi, hpages i (by unfold pagesLen at hi; omega), hsame i (by omega)]
  · by_cases hnil : order.entries fields = []
    · -- without fields the index is the last region
      have hdecls : declsOf order fields = [] := by rw [declsOf, hnil, List.map_nil]
      have hnone : withRecords mem hash order fields json a.capacity m =
          (0, cleared json a.capacity m) := by
        rw [withRecords, hdecls, writeFields]
      rw [hdecls, hnone, hnil, buildTrieFromFields, if_pos rfl]
      exact last_cleared json a.capacity m
    · exact (htrie _).2 hnil

end Area

theorem lt_areaEnd (mem : Address → Bytes) (order : MapOrder FieldDecl)
    (domainOrder : MapOrder (List (Bytes × Nat))) (fields : StringMap FieldDecl) {json : Bytes}
    {cap : Nat} (hcap : 0 < cap) (hlong : cap ≤ json.length) :
    cap < areaEnd mem order domainOrder fields json cap := by
  have hne : json ≠ [] := by
    rintro rfl
    exact absurd hlong (Nat.not_le_of_lt hcap)
  unfold areaEnd recordsStart textEnd align8 hashIndexSize hashSlotCount
  rw [if_neg hne]
  omega

end BlessStar.Sdk.Proofs.SchemaBounds
