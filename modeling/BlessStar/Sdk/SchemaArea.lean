import BlessStar.Lib.ByteArea
import BlessStar.Sdk.ConfigDeclare

/-!
# The schema area of the shared memory

What `config_declare.cpp` writes behind the buffers of `shm_config_layout`: the
schema text, a hash index of the fields, their records, a page table and a trie
of their keys, all of it anew or as a patch of some fields.  The hash function is
a parameter.
-/

namespace BlessStar.Sdk

open Lib.ByteString Lib.ByteArea
open ConfigDeclareState (textAt merge serializeSchema)

/-- `shm_config_layout`: the members that tell of the schema area, and its bytes. -/
structure SchemaArea where
  bytes : Area
  schemaJsonLen : Nat := 0
  schemaJsonOffset : Nat := 0
  schemaCapacity : Nat
  hashTableOffset : Nat
  fieldDataOffset : Nat
  pageTableOffset : Nat := 0
  pageCount : Nat := 0
  trieRootOffset : Nat := 0

namespace SchemaArea

/-- `static_cast<uint32_t>`. -/
def u32 (n : Nat) : Nat := n % 2 ^ 32

def schemaAreaOffset : Nat := 0x40 + 2 * (64 * 1024)

def defaultSchemaCapacity : Nat := 2 * 1024 * 1024

def hashSlotCount : Nat := 4096

def hashIndexSize : Nat := hashSlotCount * 8

def fieldsPerPage : Nat := 64

/-- `sizeof(trie_node)`: a byte, 31 characters and three words. -/
def sizeofTrieNode : Nat := 44

/-- The area after `shm_manager::create`. -/
def create (schemaCapacity : Nat) : SchemaArea where
  bytes := fun _ => 0
  schemaJsonOffset := schemaAreaOffset
  schemaCapacity := u32 schemaCapacity
  hashTableOffset := schemaAreaOffset
  fieldDataOffset := schemaAreaOffset

def capacity (a : SchemaArea) : Nat :=
  if a.schemaCapacity = 0 then defaultSchemaCapacity else a.schemaCapacity

section Writing

variable (mem : Address → Bytes) (hash : Bytes → UInt32)

def fieldRecordHeader (f : FieldDecl) : Bytes :=
  leBytes 2 (textAt mem f.key).length ++ leBytes 2 (textAt mem f.defaultStr).length ++
    leBytes 2 (textAt mem f.description).length ++
    [UInt8.ofNat (f.type % 256).toNat, if f.required then 1 else 0]

def fieldRecord (f : FieldDecl) : Bytes :=
  fieldRecordHeader mem f ++ textAt mem f.key ++ textAt mem f.defaultStr ++
    textAt mem f.description

def recordLen (f : FieldDecl) : Nat :=
  8 + (textAt mem f.key).length + (textAt mem f.defaultStr).length +
    (textAt mem f.description).length

/-- `PRIME32_1` to `PRIME32_5`. -/
def prime1 : UInt32 := 2654435761
def prime2 : UInt32 := 2246822519
def prime3 : UInt32 := 3266489917
def prime4 : UInt32 := 668265263
def prime5 : UInt32 := 374761393

def rotateLeft (v n : UInt32) : UInt32 := (v <<< n) ||| (v >>> (32 - n))

/-- The loops of `bs_xxhash32`: by words, then by the bytes that are left. -/
def xxhash32Loop (h : UInt32) : Bytes → UInt32
  | a :: b :: c :: d :: rest =>
      let v := rotateLeft (UInt32.ofNat (leNat [a, b, c, d]) * prime2) 13 * prime1
      xxhash32Loop (rotateLeft (h ^^^ v) 19 * prime1 + prime4) rest
  | rest => rest.foldl (fun h b => rotateLeft (h ^^^ (b.toUInt32 * prime5)) 11 * prime1) h

/-- `bs_xxhash32` with the seed 0, which callers hand over as `hash`. -/
def xxhash32 (key : Bytes) : UInt32 :=
  let h := xxhash32Loop prime5 key ^^^ UInt32.ofNat key.length
  let h := (h ^^^ (h >>> 15)) * prime2
  let h := (h ^^^ (h >>> 13)) * prime3
  h ^^^ (h >>> 16)

def hashSlot (hashLow : UInt32) (dataOffset : Nat) : Bytes :=
  leBytes 4 hashLow.toNat ++ leBytes 4 dataOffset

def hashIndexInsertLoop (table : Nat) (h : UInt32) (dataOffset : Nat) : Nat → Nat → Area → Area
  | 0, _, m => m
  | turns + 1, idx, m =>
      if readLE m (table + idx * 8) 4 = 0 then write m (table + idx * 8) (hashSlot h dataOffset)
      else hashIndexInsertLoop table h dataOffset turns ((idx + 1) % hashSlotCount) m

/-- `hash_index_insert`, whose result the callers do not look at. -/
def hashIndexInsert (table : Nat) (key : Bytes) (dataOffset : Nat) (m : Area) : Area :=
  hashIndexInsertLoop table (hash key) dataOffset hashSlotCount
    ((hash key).toNat % hashSlotCount) m

def writeFields (table start cap : Nat) : List FieldDecl → Nat → Area → Nat × Area
  | [], fieldOff, m => (fieldOff, m)
  | f :: fs, fieldOff, m =>
      if cap < start + fieldOff + recordLen mem f then (fieldOff, m)
      else
        let m := write m (start + fieldOff) (fieldRecord mem f)
        let m := hashIndexInsert hash table (textAt mem f.key) (u32 fieldOff) m
        writeFields table start cap fs (fieldOff + recordLen mem f) m

def writePages (pageStart pageLen : Nat) : Nat → Nat → Area → Area
  | 0, _, m => m
  | pages + 1, offset, m =>
      writePages pageStart pageLen pages (offset + 8)
        (write m offset (leBytes 4 pageStart ++ leBytes 4 pageLen))

def trieNode (name : Bytes) (firstChildOff nextSiblingOff firstFieldOff : Nat) : Bytes :=
  UInt8.ofNat (name.take 31).length :: (name.take 31 ++ List.replicate (31 - name.length) 0) ++
    leBytes 4 firstChildOff ++ leBytes 4 nextSiblingOff ++ leBytes 4 firstFieldOff

def domainOf (key : Bytes) : Bytes := key.takeWhile (· ≠ 46)

def subName (key : Bytes) : Bytes := if (46 : UInt8) ∈ key then (key.dropWhile (· ≠ 46)).tail else key

def groupField (acc : StringMap (List (Bytes × Nat)) × Nat) (kv : Bytes × FieldDecl) :
    StringMap (List (Bytes × Nat)) × Nat :=
  let domain := domainOf kv.1
  (acc.1.insert domain ((acc.1.lookup domain).getD [] ++ [(kv.1, acc.2)]),
    u32 (acc.2 + recordLen mem kv.2))

def domains (entries : List (Bytes × FieldDecl)) : StringMap (List (Bytes × Nat)) :=
  (entries.foldl (groupField mem) (∅, 0)).1

/-- The nodes of the fields of a domain, with the offset of the first for the domain.  None is
written: a node is larger than the code allows for. -/
def writeFieldNodes (base fieldDataOffset : Nat) :
    List (Bytes × Nat) → Nat → Nat → Nat → Area → Nat × Area
  | [], _, _, firstFieldOff, m => (firstFieldOff, m)
  | entry :: entries, i, trieOff, firstFieldOff, m =>
      if sizeofTrieNode ≤ 41 then
        writeFieldNodes base fieldDataOffset entries (i + 1) (trieOff + sizeofTrieNode)
          (if i = 0 then trieOff + sizeofTrieNode * (i + 1) else firstFieldOff)
          (write m (base + trieOff) (trieNode (subName entry.1) 0 0 (fieldDataOffset + entry.2)))
      else writeFieldNodes base fieldDataOffset entries (i + 1) trieOff firstFieldOff m

def writeDomain (base fieldDataOffset : Nat) (acc : Nat × Area)
    (domain : Bytes × List (Bytes × Nat)) : Nat × Area :=
  let fields := writeFieldNodes base fieldDataOffset domain.2 0 acc.1 0 acc.2
  (acc.1 + sizeofTrieNode, write fields.2 (base + acc.1) (trieNode domain.1 0 0 fields.1))

/-- `build_trie_from_fields` with a `const` pointer: the size of the trie, and the area. -/
def buildTrieFromFields (domainOrder : MapOrder (List (Bytes × Nat))) (base : Nat)
    (entries : List (Bytes × FieldDecl)) (fieldDataOffset : Nat) (m : Area) : Nat × Area :=
  if entries = [] then (0, m)
  else
    (domainOrder.entries (domains mem entries)).foldl (writeDomain base fieldDataOffset)
      (sizeofTrieNode, write m base (trieNode (ascii "root") sizeofTrieNode 0 0))

def align8 (n : Nat) : Nat := (n + 7) / 8 * 8

/-- `write_schema_to_shm_fields`. -/
def writeSchema (order : MapOrder FieldDecl) (domainOrder : MapOrder (List (Bytes × Nat)))
    (fields : StringMap FieldDecl) (json : Bytes) (a : SchemaArea) : SchemaArea :=
  let cap := a.capacity
  let copyLen := if json.length < cap then json.length else cap - 1
  let m := if json = [] then a.bytes else write a.bytes 0 (json.take copyLen ++ [0])
  let hashOff := align8 (if json = [] then 0 else copyLen + 1)
  let m := write m hashOff (List.replicate hashIndexSize 0)
  let fieldOff := hashOff + hashIndexSize
  let entries := order.entries fields
  let records := writeFields mem hash hashOff fieldOff cap (entries.map Prod.snd) 0 m
  let pageOff := fieldOff + records.1
  let numPages := (entries.length + fieldsPerPage - 1) / fieldsPerPage
  let m := writePages (u32 fieldOff) (u32 records.1) numPages pageOff records.2
  let trieOff := pageOff + numPages * 8
  let trie := buildTrieFromFields mem domainOrder trieOff entries (u32 fieldOff) m
  { a with
    bytes := trie.2
    schemaJsonLen := if json = [] then 0 else u32 copyLen
    schemaJsonOffset := 0
    hashTableOffset := u32 hashOff
    fieldDataOffset := u32 fieldOff
    pageTableOffset := u32 pageOff
    pageCount := u32 numPages
    trieRootOffset := if 0 < trie.1 then u32 trieOff else 0 }

/-- `trie_builder_node`, with its siblings in the list of its parent. -/
inductive TrieBuilderNode
  | mk (name : Bytes) (children : List TrieBuilderNode) (firstFieldOff : Nat)

def TrieBuilderNode.name : TrieBuilderNode → Bytes
  | mk name _ _ => name

def segments (key : Bytes) : List Bytes :=
  let parts := key.splitOn 46
  if parts.getLast? = some [] then parts.dropLast else parts

def TrieBuilderNode.fresh (segment : Bytes) : TrieBuilderNode := mk (segment.take 31) [] 0

def changeChild (segment : Bytes) (change : TrieBuilderNode → TrieBuilderNode) :
    List TrieBuilderNode → List TrieBuilderNode
  | [] => [change (.fresh segment)]
  | child :: children =>
      if child.name = segment then change child :: children
      else child :: changeChild segment change children

/-- `trie_insert_key` below a node: the children after the segments are in. -/
def trieInsertKey (fieldDataOff : Nat) :
    List Bytes → List TrieBuilderNode → List TrieBuilderNode
  | [], children => children
  | segment :: rest, children =>
      changeChild segment
        (fun
          | .mk name below first =>
              .mk name (trieInsertKey fieldDataOff rest below)
                (if first = 0 then fieldDataOff else first))
        children

/-- The nodes below the root of `build_trie_from_fields` without `const`. -/
def builtTrie (entries : List (Bytes × FieldDecl)) (fieldDataBase : Nat) : List TrieBuilderNode :=
  entries.foldl
    (fun children kv =>
      let key := textAt mem kv.2.key
      if key = [] then children else trieInsertKey fieldDataBase (segments key) children)
    []

def trieName (name : Bytes) : Bytes :=
  UInt8.ofNat (name.take 31).length :: (name.take 31 ++ List.replicate (31 - name.length) 0)

mutual

def serializeTrieNode (base cap offset : Nat) : TrieBuilderNode → Area → Area
  | .mk name children firstFieldOff, m =>
      if cap < offset + 41 then m
      else
        let m := write m (base + offset) (trieName name)
        let m := serializeSiblings base cap (offset + 41) children m
        let childOff := if children.isEmpty then 0 else offset + 41
        let m := write m (base + offset + 32) (leBytes 4 childOff)
        let m := write m (base + offset + 36) (leBytes 4 0)
        write m (base + offset + 40) (leBytes 4 firstFieldOff)

def serializeSiblings (base cap offset : Nat) : List TrieBuilderNode → Area → Area
  | [], m => m
  | node :: nodes, m =>
      serializeSiblings base cap (offset + 41) nodes (serializeTrieNode base cap offset node m)

end

/-- `build_trie_from_fields` without `const`; only the first node below the root is written. -/
def rebuildTrie (entries : List (Bytes × FieldDecl)) (base fieldDataBase : Nat) (m : Area) : Area :=
  match builtTrie mem entries fieldDataBase with
  | [] => m
  | node :: _ => serializeTrieNode base 65536 0 node m

def patchField (fields : StringMap FieldDecl) (a : SchemaArea) (m : Area) (key : Bytes) : Area :=
  match fields.lookup key with
  | none => m
  | some f =>
      if a.capacity < a.fieldDataOffset + recordLen mem f then m
      else write m a.fieldDataOffset (fieldRecord mem f)

/-- `patch_shm_dirty_fields`. -/
def patchDirtyFields (order : MapOrder FieldDecl) (fields : StringMap FieldDecl)
    (dirtyKeys : List Bytes) (a : SchemaArea) : SchemaArea :=
  if dirtyKeys = [] then a
  else
    let m := dirtyKeys.foldl (patchField mem fields a) a.bytes
    { a with
      bytes :=
        if a.trieRootOffset ≠ 0 then
          rebuildTrie mem (order.entries fields) a.trieRootOffset a.fieldDataOffset m
        else m }

/-- What `bs_config_declare` does to the area. -/
def declare (order : MapOrder FieldDecl) (domainOrder : MapOrder (List (Bytes × Nat))) (ts : Bytes)
    (s : ConfigDeclareState) (src : List FieldDecl) (a : SchemaArea) : SchemaArea :=
  if src = [] then a
  else
    let s := merge mem s src
    if s.incremental then patchDirtyFields mem order s.fields s.dirtyKeys a
    else
      match serializeSchema mem order ts s.fields with
      | none => a
      | some json => writeSchema mem hash order domainOrder s.fields json a

end Writing

end SchemaArea

end BlessStar.Sdk
