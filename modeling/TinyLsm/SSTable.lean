import TinyLsm.WalRecord
import TinyLsm.MemTable
import TinyLsm.Library.BinarySearch

/-!
# SSTables

The writer and the reader of the on-disk tables, after `sstable.cpp`: the bytes
`WriteSSTable` puts into a file, the constructor of `SSTableReader` with its checks, the
three ways to read a table, and the merge of several tables.
-/

namespace TinyLsm

/-- The ways an SSTable operation ends without a result.  All but the last are thrown;
`outOfBounds` is a read outside a buffer, which the code does not check for. -/
inductive StorageError where
  /-- The file does not fit in a string or a file. -/
  | tooLarge
  /-- "SSTable too small to contain a footer". -/
  | tooSmall
  /-- "bad SSTable magic number". -/
  | badMagic
  /-- "corrupt SSTable footer offsets". -/
  | corruptFooter
  /-- "corrupt SSTable index". -/
  | corruptIndex
  /-- "corrupt SSTable data block". -/
  | corruptBlock
  /-- A system call failed: `ThrowErrno`. -/
  | io
  | outOfBounds
deriving DecidableEq, Repr

/-! ### Writing -/

/-- `kSparseIndexInterval`. -/
def sparseIndexInterval : ℕ := 16

/-- `kFooterSize`. -/
def footerSize : ℕ := 8 + 8 + 4 + 4

/-- `kMagic`. -/
def magic : UInt32 := 0x53535442

/-- The record an entry is written as. -/
def entryRecord (e : Bytes × Entry) : Record where
  type := if e.2.isTombstone then .delete else .put
  key := e.1
  value := e.2.value

/-- The bytes of an entry in the data section. -/
def encodeEntry (e : Bytes × Entry) : Bytes :=
  (entryRecord e).encode

/-- The local variables of the loop over the entries in `WriteSSTable`. -/
structure Layout where
  data : Bytes
  sparseIndex : List (Bytes × ℕ)
  position : ℕ

/-- The body of that loop: every `kSparseIndexInterval`-th entry is sampled. -/
def Layout.add (l : Layout) (e : Bytes × Entry) : Layout where
  data := l.data ++ encodeEntry e
  sparseIndex :=
    if l.position % sparseIndexInterval = 0 then l.sparseIndex ++ [(e.1, l.data.length)]
    else l.sparseIndex
  position := l.position + 1

/-- The loop over the entries. -/
def layout (entries : List (Bytes × Entry)) : Layout :=
  entries.foldl Layout.add ⟨[], [], 0⟩

/-- The bytes of an index entry. -/
def encodeIndexEntry (e : Bytes × ℕ) : Bytes :=
  putUint32LE (UInt32.ofNat e.1.length) ++ e.1 ++ putUint64LE (UInt64.ofNat e.2)

/-- The footer. -/
def encodeFooter (indexOffset indexSize entryCount : ℕ) : Bytes :=
  putUint64LE (UInt64.ofNat indexOffset) ++ putUint64LE (UInt64.ofNat indexSize)
    ++ putUint32LE (UInt32.ofNat entryCount) ++ putUint32LE magic

/-- The contents of the file written for `entries`. -/
def sstableFile (entries : EntryMap) : Bytes :=
  let l := layout entries.entries
  let indexBytes := l.sparseIndex.flatMap encodeIndexEntry
  l.data ++ indexBytes
    ++ encodeFooter l.data.length indexBytes.length entries.entries.length

/-- What `WriteSSTable` has to write, or the failure of growing its strings or the file. -/
def writeSSTable (entries : EntryMap) : Except StorageError Bytes :=
  if maxSize < (sstableFile entries).length then .error .tooLarge
  else .ok (sstableFile entries)

/-! ### Opening -/

/-- `SSTableReader::IndexEntry`. -/
structure IndexEntry where
  key : Bytes
  offset : ℕ
deriving DecidableEq, Repr

/-- `SSTableReader`.  The path is the number in the file's name; `contents`, the bytes the
reader was loaded from, is a ghost that no operation reads. -/
structure SSTableReader where
  path : ℕ
  data : Bytes
  index : List IndexEntry
  contents : Bytes
deriving DecidableEq, Repr

/-- The footer checks of the constructor: the index offset and size of a file that passes.
The sum in the last check is one of `uint64_t`. -/
def readFooter (contents : Bytes) : Except StorageError (UInt64 × UInt64) :=
  if contents.length < footerSize then .error .tooSmall
  else
    let footer := contents.drop (contents.length - footerSize)
    let indexOffset := getUint64LE footer
    let indexSize := getUint64LE (footer.drop 8)
    if getUint32LE (footer.drop 20) ≠ magic then .error .badMagic
    else if indexOffset + indexSize + UInt64.ofNat footerSize ≠ UInt64.ofNat contents.length then
      .error .corruptFooter
    else .ok (indexOffset, indexSize)

/-- Read one entry off the front of the index view. -/
def decodeIndexEntry (view : Bytes) : Option (IndexEntry × ℕ) :=
  if view.length < 4 then none
  else
    let keyLen := (getUint32LE view).toNat
    if view.length - 4 < keyLen + 8 then none
    else
      some (⟨(view.drop 4).take keyLen, (getUint64LE (view.drop (4 + keyLen))).toNat⟩,
        4 + keyLen + 8)

/-- The loop over the index view. -/
def readIndex (view : Bytes) : Except StorageError (List IndexEntry) :=
  Framing.forFrames decodeIndexEntry .corruptIndex (fun index e => .yield (index ++ [e]))
    view.length view []

/-- The constructor of `SSTableReader`, on the contents of the file. -/
def SSTableReader.load (path : ℕ) (contents : Bytes) : Except StorageError SSTableReader := do
  let (indexOffset, indexSize) ← readFooter contents
  -- Reading a nonempty index view that is not inside `contents` is undefined.
  if indexSize ≠ 0 ∧ contents.length < indexOffset.toNat + indexSize.toNat then
    .error .outOfBounds
  else
    let index ← readIndex ((contents.drop indexOffset.toNat).take indexSize.toNat)
    .ok ⟨path, contents.take indexOffset.toNat, index, contents⟩

/-! ### Reading -/

/-- The entry a decoded record stands for. -/
def DecodedRecord.entry (r : DecodedRecord) : Entry :=
  ⟨r.value, r.type = .delete⟩

/-- The part of `data_` from `start` to `bound`, when both lie in it in this order. -/
def blockOf (data : Bytes) (start bound : ℕ) : Except StorageError Bytes :=
  if start ≤ bound ∧ bound ≤ data.length then .ok ((data.drop start).take (bound - start))
  else .error .outOfBounds

/-- The loop over the records of a block. -/
def forRecords {ρ : Type} (body : ρ → DecodedRecord → ForInStep ρ) (acc : ρ) (block : Bytes) :
    Except StorageError ρ :=
  Framing.forFrames decodeFrame .corruptBlock body block.length block acc

namespace SSTableReader

/-- The position of the first sampled key greater than `key`. -/
def upperBound (r : SSTableReader) (key : Bytes) : ℕ :=
  BinarySearch.upperBound (fun e : IndexEntry => key < e.key) r.index

/-- The offset of the `i`-th sampled key, or the end of the data section. -/
def offsetAt (r : SSTableReader) (i : ℕ) : ℕ :=
  match r.index[i]? with
  | some e => e.offset
  | none => r.data.length

/-- The body of the loop in `Find`. -/
def findStep (key : Bytes) (_ : Option Entry) (record : DecodedRecord) :
    ForInStep (Option Entry) :=
  if record.key = key then .done (some record.entry)
  else if key < record.key then .done none
  else .yield none

/-- `SSTableReader::Find`. -/
def find (r : SSTableReader) (key : Bytes) : Except StorageError (Option Entry) :=
  if r.index = [] then .ok none
  else if r.upperBound key = 0 then .ok none
  else do
    let block ← blockOf r.data (r.offsetAt (r.upperBound key - 1)) (r.offsetAt (r.upperBound key))
    forRecords (findStep key) none block

/-- The body of the loop in `ScanRaw`. -/
def scanStep (start stop : Bytes) (results : List (Bytes × Entry)) (record : DecodedRecord) :
    ForInStep (List (Bytes × Entry)) :=
  if stop ≤ record.key then .done results
  else if start ≤ record.key then .yield (results ++ [(record.key, record.entry)])
  else .yield results

/-- `SSTableReader::ScanRaw`. -/
def scanRaw (r : SSTableReader) (start stop : Bytes) :
    Except StorageError (List (Bytes × Entry)) :=
  if r.index = [] then .ok []
  else do
    let startOffset := if r.upperBound start = 0 then 0 else r.offsetAt (r.upperBound start - 1)
    let block ← blockOf r.data startOffset r.data.length
    forRecords (scanStep start stop) [] block

/-- `SSTableReader::AllRaw`. -/
def allRaw (r : SSTableReader) : Except StorageError (List (Bytes × Entry)) :=
  forRecords (fun results record => .yield (results ++ [(record.key, record.entry)])) [] r.data

end SSTableReader

/-- `MergeSSTables`: the tables are given oldest first, and later entries overwrite. -/
def mergeSSTables (readers : List SSTableReader) : Except StorageError EntryMap :=
  readers.foldlM (fun merged reader => do .ok (merged.overwrite (← reader.allRaw)))
    OrderedMap.empty

end TinyLsm
