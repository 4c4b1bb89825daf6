import BlessStar.Sdk.Proofs.SchemaBounds

/-!
# Fields by their index

Behind the index of the keys stand the records, the page table and the trie.
Every entry of the table is the region of all records, with its offset in the
area; the paged reader takes that for an offset behind the records' start.
-/

namespace BlessStar.Sdk.Proofs.SchemaPages

open Lib.ByteString Lib.ByteArea Lib.Utf8Text
open SchemaArea SchemaLayout SchemaBounds
open ConfigDeclareState (textAt)

/-! ## The regions behind the index -/

def pageTotal (fields : Nat) : Nat := (fields + fieldsPerPage - 1) / fieldsPerPage

def pageTable (pageStart pageLen pages : Nat) : Bytes :=
  (List.replicate pages (leBytes 4 pageStart ++ leBytes 4 pageLen)).flatten

def domainNodes (ds : List (Bytes × List (Bytes × Nat))) : Bytes :=
  ds.flatMap fun d => trieNode d.1 0 0 0

section

variable (mem : Address → Bytes) (order : MapOrder FieldDecl)
  (domainOrder : MapOrder (List (Bytes × Nat))) (fields : StringMap FieldDecl)

def trieText : Bytes :=
  if order.entries fields = [] then []
  else
    trieNode (ascii "root") sizeofTrieNode 0 0 ++
      domainNodes (domainOrder.entries (domains mem (order.entries fields)))

/-- The records, the page table and the trie, for records that begin at `start`. -/
def regions (start : Nat) : Bytes :=
  (declsOf order fields).flatMap (fieldRecord mem) ++
    pageTable start (recordsLen mem (declsOf order fields))
      (pageTotal (declsOf order fields).length) ++
    trieText mem order domainOrder fields

/-- The fields fit the area: their texts the lengths of a record, their regions
the capacity, and the capacity the offsets. -/
structure FieldsFit (json : Bytes) (a : SchemaArea) : Prop where
  short : ∀ f ∈ declsOf order fields, Short mem f
  within : recordsStart json a.capacity +
    (regions mem order domainOrder fields (recordsStart json a.capacity)).length ≤ a.capacity
  word : a.capacity < 2 ^ 32

end

variable {mem : Address → Bytes} {hash : Bytes → UInt32}

theorem length_pageEntry (pageStart pageLen : Nat) :
    (leBytes 4 pageStart ++ leBytes 4 pageLen).length = 8 := by
  rw [List.length_append, length_leBytes, length_leBytes]

@[simp] theorem length_pageTable (pageStart pageLen pages : Nat) :
    (pageTable pageStart pageLen pages).length = pages * 8 := by
  rw [pageTable, List.length_flatten, List.map_replicate, List.sum_replicate_nat,
    length_pageEntry]

theorem length_domainNodes (ds : List (Bytes × List (Bytes × Nat))) :
    (domainNodes ds).length = ds.length * sizeofTrieNode := by
  induction ds with
  | nil => rfl
  | cons d ds ih =>
      rw [domainNodes, List.flatMap_cons, List.length_append, length_trieNode, List.length_cons,
        Nat.add_mul, Nat.one_mul, Nat.add_comm]
      exact congrArg (· + sizeofTrieNode) ih

theorem holds_writePages (pageStart pageLen pages : Nat) : ∀ (offset : Nat) (m : Area),
    Holds (writePages pageStart pageLen pages offset m) offset
      (pageTable pageStart pageLen pages) := by
  induction pages with
  | zero => exact fun _ _ => holds_nil
  | succ pages ih =>
      intro offset m
      have hlen := length_pageEntry pageStart pageLen
      rw [pageTable, List.replicate_succ, List.flatten_cons, holds_append_iff, hlen, writePages]
      constructor
      · apply Holds.of_sameBelow holds_write (sameBelow_writePages _ _ _ le_rfl _)
        rw [hlen]
      · exact ih (offset + 8) _

theorem holds_pageTable {m : Area} {off pageStart pageLen pages : Nat}
    (h : Holds m off (pageTable pageStart pageLen pages)) {p : Nat} (hp : p < pages) :
    Holds m (off + p * 8) (leBytes 4 pageStart ++ leBytes 4 pageLen) := by
  induction p generalizing off pages with
  | zero =>
      obtain ⟨pages, rfl⟩ := Nat.exists_eq_add_of_lt hp
      rw [pageTable, show 0 + pages + 1 = pages + 1 by omega, List.replicate_succ,
        List.flatten_cons, holds_append_iff] at h
      rw [Nat.zero_mul]
      exact h.1
  | succ p ih =>
      obtain ⟨pages, rfl⟩ : ∃ rest, pages = rest + 1 := ⟨pages - 1, by omega⟩
      rw [pageTable, List.replicate_succ, List.flatten_cons, holds_append_iff,
        length_pageEntry] at h
      rw [show off + (p + 1) * 8 = off + 8 + p * 8 by omega]
      exact ih h.2 (by omega)

section Trie

variable {base fieldDataOffset : Nat}

theorem holds_writeDomains (ds : List (Bytes × List (Bytes × Nat))) : ∀ (off : Nat) (m : Area),
    Holds (ds.foldl (writeDomain base fieldDataOffset) (off, m)).2 (base + off)
      (domainNodes ds) := by
  induction ds with
  | nil => exact fun _ _ => holds_nil
  | cons d ds ih =>
      intro off m
      rw [domainNodes, List.flatMap_cons, holds_append_iff, length_trieNode, List.foldl_cons,
        writeDomain, writeFieldNodes_eq, Nat.add_assoc]
      constructor
      · apply Holds.of_sameBelow holds_write (sameBelow_writeDomains ds le_rfl _)
        rw [length_trieNode, Nat.add_assoc]
      · exact ih (off + sizeofTrieNode) _

theorem holds_buildTrie {order : MapOrder FieldDecl} {domainOrder : MapOrder (List (Bytes × Nat))}
    {fields : StringMap FieldDecl} (m : Area) :
    Holds (buildTrieFromFields mem domainOrder base (order.entries fields) fieldDataOffset m).2 base
      (trieText mem order domainOrder fields) := by
  unfold trieText
  by_cases hnil : order.entries fields = []
  · rw [if_pos hnil]
    exact holds_nil
  · rw [if_neg hnil, holds_append_iff, length_trieNode]
    refine ⟨holds_root hnil m, ?_⟩
    rw [buildTrieFromFields, if_neg hnil]
    exact holds_writeDomains _ sizeofTrieNode _

end Trie

section Area

variable {order : MapOrder FieldDecl} {domainOrder : MapOrder (List (Bytes × Nat))}
  {fields : StringMap FieldDecl} {json : Bytes} {a : SchemaArea}

theorem length_trieText :
    (trieText mem order domainOrder fields).length =
      trieLen (declsOf order fields).length
        (domainOrder.entries (domains mem (order.entries fields))).length := by
  have hlen : (declsOf order fields).length = (order.entries fields).length := List.length_map _
  unfold trieText trieLen
  rw [hlen]
  by_cases hnil : order.entries fields = []
  · rw [if_pos hnil, if_pos (by rw [hnil]; rfl)]
    rfl
  · rw [if_neg hnil, if_neg (by rwa [List.length_eq_zero_iff]), List.length_append,
      length_trieNode, length_domainNodes, Nat.add_mul, Nat.one_mul]

theorem length_regions (start : Nat) :
    (regions mem order domainOrder fields start).length =
      recordsLen mem (declsOf order fields) + pagesLen (declsOf order fields).length +
        trieLen (declsOf order fields).length
          (domainOrder.entries (domains mem (order.entries fields))).length := by
  rw [regions, List.length_append, List.length_append, length_flatMap_fieldRecord,
    length_pageTable, length_trieText]
  rfl

theorem withRecords_of_fit (hash : Bytes → UInt32)
    (h : FieldsFit mem order domainOrder fields json a) (m : Area) :
    (withRecords mem hash order fields json a.capacity m).1 =
        recordsLen mem (declsOf order fields) ∧
      Holds (withRecords mem hash order fields json a.capacity m).2
        (recordsStart json a.capacity) ((declsOf order fields).flatMap (fieldRecord mem)) := by
  have hwithin := h.within
  rw [length_regions] at hwithin
  obtain ⟨hlen, hrecords, -⟩ := @writeFields_records mem hash (align8 (textEnd json a.capacity))
    (recordsStart json a.capacity) a.capacity le_rfl (declsOf order fields) 0
    (cleared json a.capacity m) (by omega)
  rw [Nat.zero_add] at hlen
  exact ⟨hlen, hrecords⟩

/-- **Behind its index** the area holds the records, the page table and the trie. -/
theorem holds_regions (hash : Bytes → UInt32)
    (h : FieldsFit mem order domainOrder fields json a) :
    Holds (writeSchema mem hash order domainOrder fields json a).bytes
      (recordsStart json a.capacity)
      (regions mem order domainOrder fields (recordsStart json a.capacity)) := by
  have hwithin := h.within
  have hword := h.word
  rw [length_regions] at hwithin
  obtain ⟨hlen, hrecords⟩ := withRecords_of_fit hash h a.bytes
  have hstart : u32 (recordsStart json a.capacity) = recordsStart json a.capacity :=
    Nat.mod_eq_of_lt (by omega)
  have hrecordsLen : u32 (recordsLen mem (declsOf order fields)) =
      recordsLen mem (declsOf order fields) := Nat.mod_eq_of_lt (by omega)
  have hbytes := @bytes_writeSchema mem hash order domainOrder fields json a a.bytes
  dsimp only at hbytes
  rw [hlen, hstart, hrecordsLen] at hbytes
  rw [hbytes, regions, holds_append_iff, holds_append_iff, List.length_append,
    length_flatMap_fieldRecord, length_pageTable]
  have htrie := fun m => @sameBelow_buildTrie mem domainOrder
    (recordsStart json a.capacity + recordsLen mem (declsOf order fields) +
      pagesLen (declsOf order fields).length) (recordsStart json a.capacity)
    (order.entries fields) m
  have hpages : pagesLen (declsOf order fields).length =
      pageTotal (declsOf order fields).length * 8 := rfl
  refine ⟨⟨?_, ?_⟩, ?_⟩
  · apply Holds.of_sameBelow _ (htrie _)
    · rw [length_flatMap_fieldRecord]
      omega
    · apply Holds.of_sameBelow hrecords (sameBelow_writePages _ _ _ le_rfl _)
      rw [length_flatMap_fieldRecord]
  · apply Holds.of_sameBelow (holds_writePages _ _ _ _ _) (htrie _)
    rw [length_pageTable]
    exact le_rfl
  · rw [← Nat.add_assoc, ← hpages]
    exact holds_buildTrie _

theorem writeSchema_from (hash : Bytes → UInt32)
    (h : FieldsFit mem order domainOrder fields json a) {i : Nat}
    (hi : recordsStart json a.capacity ≤ i) :
    (writeSchema mem hash order domainOrder fields json a).bytes i =
      write a.bytes (recordsStart json a.capacity)
        (regions mem order domainOrder fields (recordsStart json a.capacity)) i := by
  obtain ⟨n, rfl⟩ := Nat.exists_eq_add_of_le hi
  by_cases hn : n < (regions mem order domainOrder fields (recordsStart json a.capacity)).length
  · rw [holds_iff.mp (holds_regions hash h) n hn, write_inside hn]
  · have hend : areaEnd mem order domainOrder fields json a.capacity =
        recordsStart json a.capacity +
          (regions mem order domainOrder fields (recordsStart json a.capacity)).length := by
      have hfitting := (withRecords_spec mem hash order fields json (capacity_pos a) a.bytes).1
      rw [(withRecords_of_fit hash h a.bytes).1] at hfitting
      rw [areaEnd, ← hfitting, length_regions]
      omega
    rw [write_outside (by omega)]
    exact (@writeSchema_spec mem order domainOrder fields json a hash a.bytes).1 _ (by omega)

end Area

/-! ## A record at an offset -/

/-- The bytes at `off` are a record with these texts, and it reads as the field. -/
structure RecordOf (mem : Address → Bytes) (m : Area) (cap off : Nat) (f : FieldDecl)
    (key defaultStr description : Bytes) : Prop where
  keyLen : readLE m off 2 = key.length
  defaultLen : readLE m (off + 2) 2 = defaultStr.length
  descLen : readLE m (off + 4) 2 = description.length
  texts : Holds m (off + 8) (key ++ defaultStr ++ description)
  inside : off + 8 + key.length + defaultStr.length + description.length ≤ cap
  type : m (off + 6) = UInt8.ofNat (f.type % 256).toNat
  required : m (off + 7) ≠ 0 ↔ f.required = true
  key : decode key = decode (textAt mem f.key)
  defaultStr : decode defaultStr = decode (textAt mem f.defaultStr)
  description : decode description = decode (textAt mem f.description)

/-- Inside the area a record stands at `off` that reads as the field. -/
def RecordAt (mem : Address → Bytes) (m : Area) (cap off : Nat) (f : FieldDecl) : Prop :=
  ∃ key defaultStr description, RecordOf mem m cap off f key defaultStr description

theorem lengths_of_holds {m : Area} {off : Nat} {f : FieldDecl}
    (h : Holds m off (fieldRecord mem f)) (hshort : Short mem f) :
    readLE m off 2 = (textAt mem f.key).length ∧
      readLE m (off + 2) 2 = (textAt mem f.defaultStr).length ∧
        readLE m (off + 4) 2 = (textAt mem f.description).length := by
  simp only [fieldRecord, fieldRecordHeader, holds_append_iff, List.length_append,
    length_leBytes, Nat.reduceAdd] at h
  obtain ⟨⟨⟨⟨⟨⟨hkey, hdefault⟩, hdesc⟩, -⟩, -⟩, -⟩, -⟩ := h
  exact ⟨hkey.readLE_eq hshort.key, hdefault.readLE_eq hshort.defaultStr,
    hdesc.readLE_eq hshort.description⟩

theorem decodeFieldRecord_iff {r : SchemaReader} {off : Nat} {f : FieldDecl} :
    r.decodeFieldRecord off = some (fieldOf mem f) ↔ RecordAt mem r.buffer r.length off f := by
  constructor
  · intro h
    rw [SchemaReader.decodeFieldRecord] at h
    split at h
    · cases h
    dsimp only at h
    split at h
    · cases h
    rename_i hend
    simp only [Option.some.injEq, fieldOf, SchemaField.mk.injEq] at h
    obtain ⟨hkey, htype, hdefault, hdesc, hrequired⟩ := h
    exact ⟨_, _, _, {
      keyLen := (length_read ..).symm
      defaultLen := (length_read ..).symm
      descLen := (length_read ..).symm
      texts := by
        have hall := holds_read r.buffer (off + 8) (readLE r.buffer off 2 +
          readLE r.buffer (off + 2) 2 + readLE r.buffer (off + 4) 2)
        rw [read_add, read_add, ← Nat.add_assoc] at hall
        exact hall
      inside := by
        simp only [length_read]
        omega
      type := htype
      required := by
        rw [← hrequired, decide_eq_true_iff]
      key := hkey
      defaultStr := hdefault
      description := hdesc }⟩
  · rintro ⟨key, defaultStr, description, h⟩
    have htexts := h.texts
    have hend := h.inside
    rw [holds_append_iff, holds_append_iff, List.length_append, ← Nat.add_assoc] at htexts
    obtain ⟨⟨hkey, hdefault⟩, hdesc⟩ := htexts
    rw [SchemaReader.decodeFieldRecord, if_neg (by omega)]
    dsimp only
    rw [h.keyLen, h.defaultLen, h.descLen, if_neg (by omega), Option.some.injEq]
    simp only [SchemaReader.text, fieldOf, SchemaField.mk.injEq]
    refine ⟨?_, h.type, ?_, ?_, ?_⟩
    · rw [hkey.read_eq rfl, h.key]
    · rw [hdefault.read_eq rfl, h.defaultStr]
    · rw [hdesc.read_eq rfl, h.description]
    · rw [Bool.eq_iff_iff, decide_eq_true_iff]
      exact h.required

/-! ## The paged reader -/

structure Paged (mem : Address → Bytes) (fs : List FieldDecl) (start : Nat)
    (r : PagedSchemaReader) : Prop where
  records : Holds r.buffer start (fs.flatMap (fieldRecord mem))
  inside : start + recordsLen mem fs ≤ r.length
  entries : ∀ p < pageTotal fs.length, r.getPageEntry p = some (start, recordsLen mem fs)
  table : fs ≠ [] → r.pageTableOffset ≠ 0 ∧ r.pageCount ≠ 0
  loaded : ∀ p page, r.loadedPages.lookup p = some page → r.getPageEntry p = some page

section Reader

variable {fs : List FieldDecl} {start : Nat} {r r' : PagedSchemaReader}

theorem Paged.load (h : Paged mem fs start r) {p : Nat} (hload : r.ensurePageLoaded p = some r') :
    Paged mem fs start r' ∧ r'.toSchemaReader = r.toSchemaReader ∧
      ∃ page, r'.loadedPages.lookup p = some page := by
  rw [PagedSchemaReader.ensurePageLoaded] at hload
  split at hload
  · rename_i hcached
    cases hload
    exact ⟨h, rfl, Option.isSome_iff_exists.mp hcached⟩
  split at hload
  · cases hload
  cases hentry : r.getPageEntry p with
  | none =>
      rw [hentry] at hload
      cases hload
  | some entry =>
      rw [hentry] at hload
      dsimp only at hload
      split at hload
      · cases hload
      cases hload
      refine ⟨⟨h.records, h.inside, h.entries, h.table, ?_⟩, rfl, entry, List.lookup_cons_self⟩
      intro q page hq
      rw [List.lookup_cons] at hq
      by_cases hqp : q = p
      · subst hqp
        simp only [BEq.rfl, Option.some.injEq] at hq
        rw [← hq]
        exact hentry
      · rw [beq_eq_false_iff_ne.mpr hqp] at hq
        exact h.loaded q page hq

theorem Paged.exists_load (h : Paged mem fs start r) (hne : fs ≠ []) {p : Nat}
    (hp : p < pageTotal fs.length) : ∃ r', r.ensurePageLoaded p = some r' := by
  have hinside := h.inside
  obtain ⟨htable, hcount⟩ := h.table hne
  rw [PagedSchemaReader.ensurePageLoaded]
  split
  · exact ⟨r, rfl⟩
  · rw [if_neg (by omega), h.entries p hp]
    dsimp only
    rw [if_neg (by omega)]
    exact ⟨_, rfl⟩

theorem Paged.getFieldByIndex_snd (h : Paged mem fs start r) (fieldIdx : Nat) :
    Paged mem fs start (r.getFieldByIndex fieldIdx).2 ∧
      (r.getFieldByIndex fieldIdx).2.toSchemaReader = r.toSchemaReader := by
  rw [PagedSchemaReader.getFieldByIndex]
  dsimp only
  cases hload : r.ensurePageLoaded (fieldIdx / fieldsPerPage) with
  | none => exact ⟨h, rfl⟩
  | some r' => exact ⟨(h.load hload).1, (h.load hload).2.1⟩

theorem Paged.after (calls : List Nat) : ∀ {r}, Paged mem fs start r →
    Paged mem fs start (r.after calls) ∧ (r.after calls).toSchemaReader = r.toSchemaReader := by
  induction calls with
  | nil => exact fun h => ⟨h, rfl⟩
  | cons fieldIdx calls ih =>
      intro r h
      obtain ⟨hpaged, hsame⟩ := h.getFieldByIndex_snd fieldIdx
      obtain ⟨hafter, hreader⟩ := ih hpaged
      exact ⟨hafter, hreader.trans hsame⟩

theorem slotOffset_eq (hshort : ∀ f ∈ fs, Short mem f) (len : Nat) : ∀ (slot off : Nat),
    Holds r.buffer (start + off) (fs.flatMap (fieldRecord mem)) → off + recordsLen mem fs ≤ len →
      slot < fs.length →
        r.slotOffset (start, len) slot off = some (off + recordsLen mem (fs.take slot)) := by
  induction fs with
  | nil => exact fun slot off _ _ hslot => absurd hslot (Nat.not_lt_zero slot)
  | cons f fs ih =>
      intro slot off hrecords hlen hslot
      have hpos := eight_le_recordLen mem f
      rw [recordsLen_cons] at hlen
      rw [List.flatMap_cons, holds_append_iff, length_fieldRecord] at hrecords
      obtain ⟨hfirst, hrest⟩ := hrecords
      obtain ⟨hkeyLen, hdefaultLen, hdescLen⟩ :=
        lengths_of_holds hfirst (hshort f List.mem_cons_self)
      cases slot with
      | zero =>
          rw [PagedSchemaReader.slotOffset, if_neg (by omega)]
          rfl
      | succ slot =>
          rw [PagedSchemaReader.slotOffset, if_neg (by omega)]
          dsimp only
          have htotal : off + (8 + readLE r.buffer (start + off) 2 +
              readLE r.buffer (start + off + 2) 2 + readLE r.buffer (start + off + 4) 2) =
                off + recordLen mem f := by
            rw [hkeyLen, hdefaultLen, hdescLen]
            rfl
          rw [Nat.add_assoc] at hrest
          rw [htotal, ih (fun g hg => hshort g (List.mem_cons_of_mem f hg)) slot _ hrest (by omega)
            (Nat.lt_of_succ_lt_succ hslot), List.take_succ_cons, recordsLen_cons, Nat.add_assoc]

/-- **A call reads** the record of its slot, as far behind the base as it stands in the area. -/
theorem Paged.getFieldByIndex_fst (h : Paged mem fs start r) (hshort : ∀ f ∈ fs, Short mem f)
    {i : Nat} (hi : i < fs.length) :
    (r.getFieldByIndex i).1 = r.decodeFieldRecord
      (r.fieldDataOffset + (start + recordsLen mem (fs.take (i % fieldsPerPage)))) := by
  have hpage : i / fieldsPerPage < pageTotal fs.length := by
    unfold pageTotal fieldsPerPage
    omega
  have hne : fs ≠ [] := List.ne_nil_of_length_pos (by omega)
  obtain ⟨r', hload⟩ := h.exists_load hne hpage
  obtain ⟨hpaged, hreader, page, hlookup⟩ := h.load hload
  have hentry := hpaged.entries _ hpage
  obtain rfl : (start, recordsLen mem fs) = page :=
    Option.some.inj (hentry.symm.trans (hpaged.loaded _ page hlookup))
  have hslot := slotOffset_eq hshort (recordsLen mem fs) (i % fieldsPerPage) 0 hpaged.records
    (by omega) (lt_of_le_of_lt (Nat.mod_le i fieldsPerPage) hi)
  rw [Nat.zero_add] at hslot
  rw [PagedSchemaReader.getFieldByIndex]
  dsimp only
  rw [hload]
  dsimp only
  rw [hlookup, Option.bind_eq_bind, Option.bind_some, hslot, Option.bind_eq_bind,
    Option.bind_some, hentry, Option.bind_some, hreader]

/-- Every index below the number of the fields gets its field, whatever was asked before. -/
def Enumerates (mem : Address → Bytes) (fs : List FieldDecl) (r : PagedSchemaReader) : Prop :=
  ∀ (calls : List Nat) (i : Nat) (f : FieldDecl), fs[i]? = some f →
    ((r.after calls).getFieldByIndex i).1 = some (fieldOf mem f)

theorem Paged.enumerates_iff_recordAt (h : Paged mem fs start r) (hshort : ∀ f ∈ fs, Short mem f) :
    Enumerates mem fs r ↔ ∀ (i : Nat) (f : FieldDecl), fs[i]? = some f →
      RecordAt mem r.buffer r.length
        (r.fieldDataOffset + (start + recordsLen mem (fs.take (i % fieldsPerPage)))) f := by
  constructor
  · intro hall i f hf
    have hcall := hall [] i f hf
    rw [PagedSchemaReader.after, List.foldl_nil,
      h.getFieldByIndex_fst hshort (List.getElem?_eq_some_iff.mp hf).1] at hcall
    exact decodeFieldRecord_iff.mp hcall
  · intro hall calls i f hf
    obtain ⟨hpaged, hreader⟩ := h.after calls
    rw [hpaged.getFieldByIndex_fst hshort (List.getElem?_eq_some_iff.mp hf).1, hreader]
    exact decodeFieldRecord_iff.mpr (hall i f hf)

end Reader

/-! ## The reader of a new area -/

section Written

variable {order : MapOrder FieldDecl} {domainOrder : MapOrder (List (Bytes × Nat))}
  {fields : StringMap FieldDecl} {json : Bytes} {a : SchemaArea}

theorem RecordAt.of_same {m m' : Area} {n cap off : Nat} {f : FieldDecl} (hsame : SameFrom n m m')
    (hn : n ≤ off) (h : RecordAt mem m cap off f) : RecordAt mem m' cap off f := by
  obtain ⟨key, defaultStr, description, h⟩ := h
  refine ⟨key, defaultStr, description, ?_, ?_, ?_, ?_, h.inside, ?_, ?_, h.key, h.defaultStr,
    h.description⟩
  · rw [readLE, hsame.read_eq hn]
    exact h.keyLen
  · rw [readLE, hsame.read_eq (by omega)]
    exact h.defaultLen
  · rw [readLE, hsame.read_eq (by omega)]
    exact h.descLen
  · rw [Holds, hsame.read_eq (by omega)]
    exact h.texts
  · rw [hsame _ (by omega)]
    exact h.type
  · rw [hsame _ (by omega)]
    exact h.required

theorem offsets_writeSchema (hash : Bytes → UInt32)
    (h : FieldsFit mem order domainOrder fields json a) :
    (writeSchema mem hash order domainOrder fields json a).fieldDataOffset =
        recordsStart json a.capacity ∧
      (writeSchema mem hash order domainOrder fields json a).pageTableOffset =
        recordsStart json a.capacity + recordsLen mem (declsOf order fields) ∧
      (writeSchema mem hash order domainOrder fields json a).pageCount =
        pageTotal (declsOf order fields).length := by
  have hwithin := h.within
  have hword := h.word
  rw [length_regions] at hwithin
  have hpages : pagesLen (declsOf order fields).length =
      pageTotal (declsOf order fields).length * 8 := rfl
  have hlen := (withRecords_of_fit hash h a.bytes).1
  have hcount : (declsOf order fields).length = (order.entries fields).length := List.length_map _
  have htext := textEnd_eq json (capacity_pos a)
  have hu32 : ∀ n, n < 2 ^ 32 → u32 n = n := fun n hn => Nat.mod_eq_of_lt hn
  refine ⟨?_, ?_, ?_⟩
  · rw [← hu32 (recordsStart json a.capacity) (by omega), recordsStart, htext]
    rfl
  · rw [← hlen, ← hu32 (recordsStart json a.capacity + _) (by omega)]
    simp only [withRecords, cleared, recordsStart, htext]
    rfl
  · rw [← hu32 (pageTotal _) (by omega), hcount]
    rfl

theorem paged_writeSchema (hash : Bytes → UInt32)
    (h : FieldsFit mem order domainOrder fields json a) (hashTableOffset fieldDataOffset : Option Nat) :
    Paged mem (declsOf order fields) (recordsStart json a.capacity)
      ((writeSchema mem hash order domainOrder fields json a).pagedReader hashTableOffset
        fieldDataOffset) := by
  have hwithin := h.within
  have hword := h.word
  obtain ⟨-, htable, hcount⟩ := offsets_writeSchema hash h
  have hholds := holds_regions hash h
  rw [regions, holds_append_iff, holds_append_iff, length_flatMap_fieldRecord] at hholds
  obtain ⟨⟨hrecords, hpages⟩, -⟩ := hholds
  rw [length_regions] at hwithin
  have hstart : 0 < recordsStart json a.capacity := Nat.lt_of_lt_of_le (by decide) (Nat.le_add_left _ _)
  have hpagesLen : pagesLen (declsOf order fields).length =
      pageTotal (declsOf order fields).length * 8 := rfl
  refine ⟨hrecords, ?_, ?_, ?_, ?_⟩
  · show _ ≤ a.capacity
    omega
  · intro p hp
    have hentry := holds_pageTable hpages hp
    rw [holds_append_iff, length_leBytes] at hentry
    have htableOffset : ((writeSchema mem hash order domainOrder fields json a).pagedReader
        hashTableOffset fieldDataOffset).pageTableOffset =
          recordsStart json a.capacity + recordsLen mem (declsOf order fields) := htable
    have hlength : ((writeSchema mem hash order domainOrder fields json a).pagedReader
        hashTableOffset fieldDataOffset).length = a.capacity := rfl
    have hbuffer : ((writeSchema mem hash order domainOrder fields json a).pagedReader
        hashTableOffset fieldDataOffset).buffer =
          (writeSchema mem hash order domainOrder fields json a).bytes := rfl
    rw [PagedSchemaReader.getPageEntry, htableOffset, hlength, hbuffer]
    rw [if_neg (by omega), hentry.1.readLE_eq (by omega), hentry.2.readLE_eq (by omega)]
  · intro hne
    have hlen := List.length_pos_of_ne_nil hne
    refine ⟨?_, ?_⟩
    · show (writeSchema mem hash order domainOrder fields json a).pageTableOffset ≠ 0
      omega
    · show (writeSchema mem hash order domainOrder fields json a).pageCount ≠ 0
      rw [hcount]
      unfold pageTotal fieldsPerPage
      omega
  · intro p page hp
    cases hp

def writtenReader (mem : Address → Bytes) (hash : Bytes → UInt32) (order : MapOrder FieldDecl)
    (domainOrder : MapOrder (List (Bytes × Nat))) (fields : StringMap FieldDecl) (json : Bytes)
    (a : SchemaArea) (hashTableOffset fieldDataOffset : Option Nat) : PagedSchemaReader :=
  (writeSchema mem hash order domainOrder fields json a).pagedReader hashTableOffset fieldDataOffset

/-- As far behind `base` as the record of its slot stands in the area, bytes stand that read as
the field: of the records, the table, the trie, or of what the area held before. -/
def RecordsBehind (mem : Address → Bytes) (order : MapOrder FieldDecl)
    (domainOrder : MapOrder (List (Bytes × Nat))) (fields : StringMap FieldDecl) (json : Bytes)
    (a : SchemaArea) (base : Nat) : Prop :=
  ∀ (i : Nat) (f : FieldDecl), (declsOf order fields)[i]? = some f →
    RecordAt mem
      (write a.bytes (recordsStart json a.capacity)
        (regions mem order domainOrder fields (recordsStart json a.capacity)))
      a.capacity
      (base + (recordsStart json a.capacity +
        recordsLen mem ((declsOf order fields).take (i % fieldsPerPage)))) f

theorem recordAt_writeSchema_iff (hash : Bytes → UInt32)
    (h : FieldsFit mem order domainOrder fields json a) {off : Nat} {f : FieldDecl}
    (hoff : recordsStart json a.capacity ≤ off) :
    RecordAt mem (writeSchema mem hash order domainOrder fields json a).bytes a.capacity off f ↔
      RecordAt mem
        (write a.bytes (recordsStart json a.capacity)
          (regions mem order domainOrder fields (recordsStart json a.capacity)))
        a.capacity off f := by
  have hsame : SameFrom (recordsStart json a.capacity)
      (write a.bytes (recordsStart json a.capacity)
        (regions mem order domainOrder fields (recordsStart json a.capacity)))
      (writeSchema mem hash order domainOrder fields json a).bytes :=
    fun i hi => writeSchema_from hash h hi
  constructor
  · exact RecordAt.of_same (fun i hi => (hsame i hi).symm) hoff
  · exact RecordAt.of_same hsame hoff

/-- **The paged reader enumerates the fields** exactly when every field has a record behind the
base of the reader. -/
theorem enumerates_iff (hash : Bytes → UInt32)
    (h : FieldsFit mem order domainOrder fields json a)
    (hashTableOffset fieldDataOffset : Option Nat) :
    Enumerates mem (declsOf order fields)
        (writtenReader mem hash order domainOrder fields json a hashTableOffset fieldDataOffset) ↔
      RecordsBehind mem order domainOrder fields json a
        (writtenReader mem hash order domainOrder fields json a hashTableOffset
          fieldDataOffset).fieldDataOffset := by
  rw [writtenReader,
    (paged_writeSchema hash h hashTableOffset fieldDataOffset).enumerates_iff_recordAt h.short]
  apply forall₃_congr
  intro i f hf
  exact recordAt_writeSchema_iff hash h (by omega)

theorem not_enumerates_of_blank (hash : Bytes → UInt32)
    (h : FieldsFit mem order domainOrder fields json a)
    {hashTableOffset fieldDataOffset : Option Nat} {f : FieldDecl}
    (hf : (declsOf order fields)[0]? = some f) (hkey : decode (textAt mem f.key) ≠ [])
    (hbase : (regions mem order domainOrder fields (recordsStart json a.capacity)).length ≤
      (writtenReader mem hash order domainOrder fields json a hashTableOffset
        fieldDataOffset).fieldDataOffset)
    (hblank : ∀ i, recordsStart json a.capacity ≤ i → a.bytes i = 0) :
    ¬Enumerates mem (declsOf order fields)
      (writtenReader mem hash order domainOrder fields json a hashTableOffset
        fieldDataOffset) := by
  intro hall
  obtain ⟨key, defaultStr, description, hrecord⟩ := (recordAt_writeSchema_iff hash h (by omega)).mp
    (((paged_writeSchema hash h hashTableOffset fieldDataOffset).enumerates_iff_recordAt h.short).mp
      hall 0 f hf)
  apply hkey
  have hlen := hrecord.keyLen
  rw [readLE, Lib.ByteArea.read, List.map_congr_left (g := fun _ => 0)] at hlen
  · have hnil : key = [] := List.length_eq_zero_iff.mp hlen.symm
    rw [← hrecord.key, hnil]
    rfl
  · intro i hi
    rw [write_outside (by unfold writtenReader at hbase; omega)]
    exact hblank _ (by omega)

end Written

/-! ## One field -/

theorem declsOf_insert_empty (order : MapOrder FieldDecl) (k : Bytes) (f : FieldDecl) :
    declsOf order ((∅ : StringMap FieldDecl).insert k f) = [f] := by
  have hlookup : ∀ k' v, ((∅ : StringMap FieldDecl).insert k f).lookup k' = some v →
      k' = k ∧ v = f := by
    intro k' v hv
    by_cases hk : k' = k
    · subst hk
      rw [Finmap.lookup_insert] at hv
      exact ⟨rfl, (Option.some.inj hv).symm⟩
    · rw [Finmap.lookup_insert_of_ne _ hk, Finmap.lookup_empty] at hv
      cases hv
  have hlen := length_entries_le (l := [k]) order fun k' v hv =>
    List.mem_singleton.mpr (hlookup k' v hv).1
  have hmem := (order.mem_entries _ k f).mpr (Finmap.lookup_insert (∅ : StringMap FieldDecl))
  obtain ⟨kv, hkv⟩ := List.length_eq_one_iff.mp
    (Nat.le_antisymm hlen (List.length_pos_of_mem hmem))
  rw [hkv, List.mem_singleton] at hmem
  rw [declsOf, hkv, ← hmem]
  rfl

/-- A field with the key `a`, and no other text. -/
def fieldA : FieldDecl := { key := 1, type := 2, defaultStr := 0, description := 0, required := false }

def fieldsA : StringMap FieldDecl := (∅ : StringMap FieldDecl).insert (ascii "a") fieldA

theorem length_regions_le_A (order : MapOrder FieldDecl)
    (domainOrder : MapOrder (List (Bytes × Nat))) (start : Nat) :
    (regions (fun _ => ascii "a") order domainOrder fieldsA start).length ≤ 105 := by
  have hdecls : declsOf order fieldsA = [fieldA] := declsOf_insert_empty order _ _
  have hcount : (order.entries fieldsA).length = 1 := by
    rw [← List.length_map (f := Prod.snd)]
    exact congrArg List.length hdecls
  have hdomains := length_entries_le (m := domains (fun _ => ascii "a") (order.entries fieldsA))
    domainOrder fun k v hk => mem_of_lookup_domains (order.entries fieldsA) hk
  have hrecord : recordsLen (fun _ => ascii "a") [fieldA] = 9 := by decide
  have hpages : pagesLen 1 = 8 := by decide
  rw [List.length_map, hcount] at hdomains
  rw [length_regions, hdecls, List.length_singleton, hrecord, hpages, trieLen, if_neg (by omega)]
  unfold sizeofTrieNode
  omega

theorem fieldsFit_A (order : MapOrder FieldDecl) (domainOrder : MapOrder (List (Bytes × Nat))) :
    FieldsFit (fun _ => ascii "a") order domainOrder fieldsA (ascii "\x7b\x7d")
      (create defaultSchemaCapacity) where
  short := by
    intro f hf
    rw [fieldsA, declsOf_insert_empty, List.mem_singleton] at hf
    subst hf
    exact ⟨by decide, by decide, by decide⟩
  within := by
    have hstart : recordsStart (ascii "\x7b\x7d") (create defaultSchemaCapacity).capacity + 105 ≤
        (create defaultSchemaCapacity).capacity := by decide
    have hlen := length_regions_le_A order domainOrder
      (recordsStart (ascii "\x7b\x7d") (create defaultSchemaCapacity).capacity)
    omega
  word := by decide

/-- With the offsets that are stored, the reader does not find the only field. -/
theorem only_field_not_enumerated : ¬Enumerates (fun _ => ascii "a") (declsOf default fieldsA)
    (writtenReader (fun _ => ascii "a") xxhash32 default default fieldsA (ascii "\x7b\x7d")
      (create defaultSchemaCapacity)
      (some (writeSchema (fun _ => ascii "a") xxhash32 default default fieldsA (ascii "\x7b\x7d")
        (create defaultSchemaCapacity)).hashTableOffset)
      (some (writeSchema (fun _ => ascii "a") xxhash32 default default fieldsA (ascii "\x7b\x7d")
        (create defaultSchemaCapacity)).fieldDataOffset)) := by
  apply not_enumerates_of_blank (f := fieldA) xxhash32 (fieldsFit_A default default)
  · rw [fieldsA, declsOf_insert_empty]
    rfl
  · decide
  · have hlen := length_regions_le_A default default
      (recordsStart (ascii "\x7b\x7d") (create defaultSchemaCapacity).capacity)
    have hstart : 105 ≤ recordsStart (ascii "\x7b\x7d") (create defaultSchemaCapacity).capacity := by
      decide
    show _ ≤ (writeSchema (fun _ => ascii "a") xxhash32 default default fieldsA
      (ascii "\x7b\x7d") (create defaultSchemaCapacity)).fieldDataOffset
    rw [(offsets_writeSchema xxhash32 (fieldsFit_A default default)).1]
    omega
  · exact fun i _ => rfl

/-- The theorem on one field, with the offsets that are stored. -/
theorem enumerates_iff_one_field :
    Enumerates (fun _ => ascii "a") (declsOf default fieldsA)
        (writtenReader (fun _ => ascii "a") xxhash32 default default fieldsA (ascii "\x7b\x7d")
          (create defaultSchemaCapacity) (some 8) (some 32776)) ↔
      RecordsBehind (fun _ => ascii "a") default default fieldsA (ascii "\x7b\x7d")
        (create defaultSchemaCapacity) 32776 :=
  enumerates_iff xxhash32 (fieldsFit_A default default) (some 8) (some 32776)

end BlessStar.Sdk.Proofs.SchemaPages
