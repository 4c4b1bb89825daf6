import BlessStar.Lib.Utf8Text
import BlessStar.Sdk.SchemaArea

/-!
# The schema reader of the editor

`SchemaReader` and `PagedSchemaReader` of `schema_reader.ts` on a buffer that
holds the schema area.  The hash function is a parameter.
-/

namespace BlessStar.Sdk

open Lib.ByteString Lib.ByteArea Lib.Utf8Text

/-- `FieldDecl` of the editor. -/
structure SchemaField where
  key : Utf16
  type : UInt8
  defaultStr : Utf16
  description : Utf16
  required : Bool
  deriving DecidableEq

/-- `SchemaReader`, with the trie of `PagedSchemaReader`. -/
structure SchemaReader where
  buffer : Area
  length : Nat
  hashTableOffset : Nat
  fieldDataOffset : Nat
  trieRootOffset : Nat := 0

def SchemaArea.reader (a : SchemaArea) : SchemaReader where
  buffer := a.bytes
  length := a.capacity
  hashTableOffset := a.hashTableOffset
  fieldDataOffset := a.fieldDataOffset
  trieRootOffset := a.trieRootOffset

namespace SchemaReader

variable (r : SchemaReader)

/-- `buffer.toString('utf-8', start, end)`. -/
def text (start len : Nat) : Utf16 := decode (read r.buffer start len)

def decodeFieldRecord (offset : Nat) : Option SchemaField :=
  if r.length < offset + 8 then none
  else
    let keyLen := readLE r.buffer offset 2
    let defaultLen := readLE r.buffer (offset + 2) 2
    let descLen := readLE r.buffer (offset + 4) 2
    let pos := offset + 8
    if r.length < pos + keyLen + defaultLen + descLen then none
    else
      some {
        key := r.text pos keyLen
        type := r.buffer (offset + 6)
        defaultStr := r.text (pos + keyLen) defaultLen
        description := r.text (pos + keyLen + defaultLen) descLen
        required := r.buffer (offset + 7) ≠ 0 }

def lookupLoop (key : Utf16) (h : UInt32) : Nat → Nat → Option SchemaField
  | 0, _ => none
  | turns + 1, idx =>
      let slotOff := r.hashTableOffset + idx * 8
      if r.length < slotOff + 8 then none
      else
        let hashLow := readLE r.buffer slotOff 4
        let dataOff := readLE r.buffer (slotOff + 4) 4
        if hashLow = 0 ∧ dataOff = 0 then none
        else
          let found :=
            if hashLow = h.toNat then
              (r.decodeFieldRecord (r.fieldDataOffset + dataOff)).filter (·.key = key)
            else none
          match found with
          | some field => some field
          | none => lookupLoop key h turns ((idx + 1) % SchemaArea.hashSlotCount)

def lookup (hash : Bytes → UInt32) (key : Utf16) : Option SchemaField :=
  r.lookupLoop key (hash (encode key)) SchemaArea.hashSlotCount
    ((hash (encode key)).toNat % SchemaArea.hashSlotCount)

/-- The end of the text up to the last brace before `n`. -/
def lastBrace : Nat → Nat
  | 0 => 0
  | i + 1 => if r.buffer i = 0x7D then i + 1 else lastBrace i

def skipBlanks : Nat → Nat → Nat
  | 0, at' => at'
  | left + 1, at' => if r.buffer at' ≤ 0x20 then skipBlanks left (at' + 1) else at'

def detectJsonEnd : Nat :=
  let i := r.lastBrace (min r.length (1024 * 1024))
  if i = 0 then 0 else r.skipBlanks (r.length - i) i

end SchemaReader

/-- `PagedSchemaReader`; a loaded page is a part of the buffer: where it begins, how long it is. -/
structure PagedSchemaReader extends SchemaReader where
  pageTableOffset : Nat := 0
  pageCount : Nat := 0
  loadedPages : List (Nat × Nat × Nat) := []

/-- The constructor of `PagedSchemaReader`, on the area with its page table; offsets that are
left out are guessed. -/
def SchemaArea.pagedReader (a : SchemaArea) (hashTableOffset fieldDataOffset : Option Nat) :
    PagedSchemaReader :=
  let hashTableOffset := hashTableOffset.getD a.reader.detectJsonEnd
  { a.reader with
    hashTableOffset
    fieldDataOffset := fieldDataOffset.getD (hashTableOffset + SchemaArea.hashIndexSize)
    pageTableOffset := a.pageTableOffset
    pageCount := a.pageCount }

namespace PagedSchemaReader

variable (r : PagedSchemaReader)

def getPageEntry (pageIdx : Nat) : Option (Nat × Nat) :=
  let pos := r.pageTableOffset + pageIdx * 8
  if r.length < pos + 8 then none
  else some (readLE r.buffer pos 4, readLE r.buffer (pos + 4) 4)

/-- `ensurePageLoaded`; `none` when the page cannot be loaded. -/
def ensurePageLoaded (pageIdx : Nat) : Option PagedSchemaReader :=
  if (r.loadedPages.lookup pageIdx).isSome then some r
  else if r.pageTableOffset = 0 ∨ r.pageCount = 0 then none
  else
    match r.getPageEntry pageIdx with
    | none => none
    | some entry =>
        if r.length < entry.1 + entry.2 then none
        else some { r with loadedPages := (pageIdx, entry) :: r.loadedPages }

/-- The scan of a page: where the record of a slot begins, counted from `off`. -/
def slotOffset (page : Nat × Nat) : Nat → Nat → Option Nat
  | slotInPage, off =>
      if page.2 < off + 8 then none
      else
        let keyLen := readLE r.buffer (page.1 + off) 2
        let defaultLen := readLE r.buffer (page.1 + off + 2) 2
        let descLen := readLE r.buffer (page.1 + off + 4) 2
        match slotInPage with
        | 0 => some off
        | slots + 1 => slotOffset page slots (off + (8 + keyLen + defaultLen + descLen))

/-- `getFieldByIndex`, with the reader after it. -/
def getFieldByIndex (fieldIdx : Nat) : Option SchemaField × PagedSchemaReader :=
  let pageIdx := fieldIdx / SchemaArea.fieldsPerPage
  match r.ensurePageLoaded pageIdx with
  | none => (none, r)
  | some r =>
      let field := do
        let page ← r.loadedPages.lookup pageIdx
        let off ← r.slotOffset page (fieldIdx % SchemaArea.fieldsPerPage) 0
        let entry ← r.getPageEntry pageIdx
        r.decodeFieldRecord (r.fieldDataOffset + (entry.1 + off))
      (field, r)

/-- The reader after these calls of `getFieldByIndex`. -/
def after (calls : List Nat) : PagedSchemaReader :=
  calls.foldl (fun r fieldIdx => (r.getFieldByIndex fieldIdx).2) r

end PagedSchemaReader

end BlessStar.Sdk
