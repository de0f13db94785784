import TinyLsm.SSTable

/-!
# The SSTable format

A `Table` is a map whose keys and values fit the length fields and whose file fits in a
string.  Its data section is the concatenation of its encoded entries, its sparse index
samples every sixteenth entry with the offset of its record, and opening its file gives
the reader with exactly these (`Table.load_file`).
-/

namespace TinyLsm

open Framing

/-! ### The layout -/

/-- The data section of a list of entries. -/
def encodeEntries (es : List (Bytes × Entry)) : Bytes :=
  es.flatMap encodeEntry

/-- The `i`-th sample: the key of entry `16 * i` and the offset of its record. -/
def sample (es : List (Bytes × Entry)) (i : ℕ) : Bytes × ℕ :=
  ((es[sparseIndexInterval * i]?.map Prod.fst).getD [],
    (encodeEntries (es.take (sparseIndexInterval * i))).length)

/-- The number of samples taken of `n` entries. -/
def sampleCount (n : ℕ) : ℕ :=
  (n + (sparseIndexInterval - 1)) / sparseIndexInterval

/-- The sparse index. -/
def samples (es : List (Bytes × Entry)) : List (Bytes × ℕ) :=
  (List.range (sampleCount es.length)).map (sample es)

@[simp]
theorem encodeEntries_nil :
  encodeEntries [] = []
  := rfl

@[simp]
theorem encodeEntries_append (es fs : List (Bytes × Entry)) :
  encodeEntries (es ++ fs) = encodeEntries es ++ encodeEntries fs
  := List.flatMap_append

theorem lt_sampleCount_iff {i n : ℕ} :
  i < sampleCount n ↔ sparseIndexInterval * i < n
  := by
  simp only [sampleCount, sparseIndexInterval]
  omega

/-- The samples of the entries before the last one are those of the shorter list. -/
theorem sample_append {es : List (Bytes × Entry)} {i : ℕ} (h : i < sampleCount es.length)
    (fs : List (Bytes × Entry)) :
  sample (es ++ fs) i = sample es i
  := by
  rw [lt_sampleCount_iff] at h
  rw [sample, sample, List.getElem?_append_left h, List.take_append_of_le_length h.le]

/-- A further entry is sampled when the number of entries before it is a multiple of the
interval. -/
theorem samples_concat (es : List (Bytes × Entry)) (e : Bytes × Entry) :
  samples (es ++ [e])
    = if es.length % sparseIndexInterval = 0 then
        samples es ++ [(e.1, (encodeEntries es).length)]
      else samples es
  := by
  have hold : (List.range (sampleCount es.length)).map (sample (es ++ [e])) = samples es := by
    apply List.map_congr_left
    intro i hi
    apply sample_append (List.mem_range.mp hi)
  rw [samples, List.length_append, List.length_singleton]
  split_ifs with h
  · have hcount : sampleCount (es.length + 1) = sampleCount es.length + 1 := by
      simp only [sampleCount, sparseIndexInterval] at h ⊢
      omega
    have hindex : sparseIndexInterval * sampleCount es.length = es.length := by
      simp only [sampleCount, sparseIndexInterval] at h ⊢
      omega
    rw [hcount, List.range_succ, List.map_append, hold]
    congr 1
    simp [sample, hindex]
  · have hcount : sampleCount (es.length + 1) = sampleCount es.length := by
      simp only [sampleCount, sparseIndexInterval] at h ⊢
      omega
    rw [hcount, hold]

/-- The loop of `WriteSSTable` computes the data section and the samples. -/
theorem layout_eq (es : List (Bytes × Entry)) :
  layout es = ⟨encodeEntries es, samples es, es.length⟩
  := by
  induction es using List.reverseRecOn with
  | nil => rfl
  | append_singleton es e ih =>
      rw [layout, List.foldl_append, ← layout, ih]
      simp only [List.foldl_cons, List.foldl_nil, Layout.add]
      rw [samples_concat, encodeEntries_append, List.length_append]
      congr 1
      simp [encodeEntries]

/-! ### The index section -/

theorem length_encodeIndexEntry (e : Bytes × ℕ) :
  (encodeIndexEntry e).length = 4 + e.1.length + 8
  := by
  simp [encodeIndexEntry]
  omega

/-- An index entry that fits its fields is read off the front of a view. -/
theorem reads_indexEntry {e : Bytes × ℕ} (hkey : e.1.length < 2 ^ 32) (hoffset : e.2 < 2 ^ 64) :
  Reads decodeIndexEntry encodeIndexEntry (fun e => ⟨e.1, e.2⟩) e
  := by
  constructor
  · apply List.ne_nil_of_length_pos
    rw [length_encodeIndexEntry]
    omega
  · intro rest
    have hsplit : encodeIndexEntry e ++ rest
        = putUint32LE (UInt32.ofNat e.1.length)
          ++ (e.1 ++ (putUint64LE (UInt64.ofNat e.2) ++ rest)) := by
      simp [encodeIndexEntry]
    have hdrop : (encodeIndexEntry e ++ rest).drop 4
        = e.1 ++ (putUint64LE (UInt64.ofNat e.2) ++ rest) := by
      rw [hsplit]
      apply List.drop_left' (length_putUint32LE _)
    have hlen : (getUint32LE (encodeIndexEntry e ++ rest)).toNat = e.1.length := by
      rw [hsplit, getUint32LE_put, toNat_ofNat32 hkey]
    simp only [decodeIndexEntry, hlen, hdrop, List.length_append, length_encodeIndexEntry]
    rw [if_neg (by omega), if_neg (by omega)]
    rw [← List.drop_drop, hdrop, List.take_left, List.drop_left, getUint64LE_put,
      toNat_ofNat64 hoffset]

/-- The index loop reads back the index entries. -/
theorem readIndex_encoded {es : List (Bytes × ℕ)}
    (h : ∀ e ∈ es, e.1.length < 2 ^ 32 ∧ e.2 < 2 ^ 64) :
  readIndex (es.flatMap encodeIndexEntry) = .ok (es.map (fun e => ⟨e.1, e.2⟩))
  := by
  rw [readIndex, forFrames_encoded (fun e he => reads_indexEntry (h e he).1 (h e he).2) _ _
    (le_refl _)]
  have hcollect := foldSteps_collect (fun e : IndexEntry => e) [] (es.map (fun e => ⟨e.1, e.2⟩))
  rw [List.map_id', List.nil_append] at hcollect
  rw [hcollect]

/-! ### The footer -/

@[simp]
theorem length_encodeFooter (indexOffset indexSize entryCount : ℕ) :
  (encodeFooter indexOffset indexSize entryCount).length = footerSize
  := by
  simp [encodeFooter, footerSize]

/-- The footer of a file is accepted when its fields describe the sections before it. -/
theorem readFooter_encoded {body : Bytes} {indexOffset indexSize : ℕ} (entryCount : ℕ)
    (h : indexOffset + indexSize = body.length) :
  readFooter (body ++ encodeFooter indexOffset indexSize entryCount)
    = .ok (UInt64.ofNat indexOffset, UInt64.ofNat indexSize)
  := by
  have hfooter : (body ++ encodeFooter indexOffset indexSize entryCount).drop
      (body.length + footerSize - footerSize)
      = putUint64LE (UInt64.ofNat indexOffset) ++ (putUint64LE (UInt64.ofNat indexSize)
        ++ (putUint32LE (UInt32.ofNat entryCount) ++ (putUint32LE magic ++ []))) := by
    rw [Nat.add_sub_cancel, List.drop_left]
    simp [encodeFooter]
  have hdrop₈ : ∀ rest, (putUint64LE (UInt64.ofNat indexOffset) ++ rest).drop 8 = rest :=
    fun rest => List.drop_left' (length_putUint64LE _)
  have hdrop₂₀ : (putUint64LE (UInt64.ofNat indexOffset) ++ (putUint64LE (UInt64.ofNat indexSize)
      ++ (putUint32LE (UInt32.ofNat entryCount) ++ (putUint32LE magic ++ [])))).drop 20
      = putUint32LE magic ++ [] := by
    rw [show 20 = 8 + 8 + 4 from rfl, ← List.drop_drop, ← List.drop_drop, hdrop₈,
      List.drop_left' (length_putUint64LE _), List.drop_left' (length_putUint32LE _)]
  have hsum : UInt64.ofNat indexOffset + UInt64.ofNat indexSize + UInt64.ofNat footerSize
      = UInt64.ofNat (body.length + footerSize) := by
    rw [← UInt64.ofNat_add, ← UInt64.ofNat_add, h]
  simp only [readFooter, List.length_append, length_encodeFooter, hfooter, getUint64LE_put,
    hdrop₈, hdrop₂₀, getUint32LE_put, hsum]
  rw [if_neg (by omega), if_neg (by simp), if_neg (by simp)]

/-! ### Files -/

/-- The keys and values of a map fit the length fields of their records. -/
def EntryMap.InRange (m : EntryMap) : Prop :=
  ∀ e ∈ m.entries, (entryRecord e).InRange

instance decidableEntryMapInRange (m : EntryMap) : Decidable m.InRange :=
  inferInstanceAs (Decidable (∀ e ∈ m.entries, _))

namespace EntryMap

/-- The reader of the file written for a map, under the number `path`. -/
def reader (m : EntryMap) (path : ℕ) : SSTableReader where
  path := path
  data := encodeEntries m.entries
  index := (samples m.entries).map (fun e => ⟨e.1, e.2⟩)
  contents := sstableFile m

theorem sstableFile_eq (m : EntryMap) :
  sstableFile m = encodeEntries m.entries ++ (samples m.entries).flatMap encodeIndexEntry
    ++ encodeFooter (encodeEntries m.entries).length
      ((samples m.entries).flatMap encodeIndexEntry).length m.entries.length
  := by
  rw [sstableFile, layout_eq]

theorem length_sstableFile (m : EntryMap) :
  (sstableFile m).length = (encodeEntries m.entries).length
    + ((samples m.entries).flatMap encodeIndexEntry).length + footerSize
  := by
  rw [sstableFile_eq, List.length_append, List.length_append, length_encodeFooter]

variable {m : EntryMap} (h : m.InRange) (hsize : (sstableFile m).length < 2 ^ 64)

include h hsize

/-- Every sample of a map that fits its records and a file fits its fields. -/
theorem samples_inRange {e : Bytes × ℕ} (he : e ∈ samples m.entries) :
  e.1.length < 2 ^ 32 ∧ e.2 < 2 ^ 64
  := by
  obtain ⟨i, hi, rfl⟩ := List.mem_map.mp he
  have hlt := lt_sampleCount_iff.mp (List.mem_range.mp hi)
  constructor
  · simp only [sample, List.getElem?_eq_getElem hlt, Option.map_some, Option.getD_some]
    exact (h _ (List.getElem_mem hlt)).1
  · have hsplit : encodeEntries m.entries
        = encodeEntries (m.entries.take (sparseIndexInterval * i))
          ++ encodeEntries (m.entries.drop (sparseIndexInterval * i)) := by
      rw [← encodeEntries_append, List.take_append_drop]
    rw [length_sstableFile, hsplit, List.length_append] at hsize
    simp only [sample]
    omega

/-- Opening the file written for a map gives its reader. -/
theorem load_sstableFile (path : ℕ) :
  SSTableReader.load path (sstableFile m) = .ok (m.reader path)
  := by
  have hlen := length_sstableFile m
  have hoffset := toNat_ofNat64 (show (encodeEntries m.entries).length < 2 ^ 64 by omega)
  have hindex := toNat_ofNat64
    (show ((samples m.entries).flatMap encodeIndexEntry).length < 2 ^ 64 by omega)
  have hfooter : readFooter (sstableFile m)
      = .ok (UInt64.ofNat (encodeEntries m.entries).length,
        UInt64.ofNat ((samples m.entries).flatMap encodeIndexEntry).length) := by
    rw [sstableFile_eq]
    apply readFooter_encoded
    rw [List.length_append]
  have hview : ((sstableFile m).drop (encodeEntries m.entries).length).take
      ((samples m.entries).flatMap encodeIndexEntry).length
      = (samples m.entries).flatMap encodeIndexEntry := by
    rw [sstableFile_eq, List.append_assoc, List.drop_left, List.take_left]
  have hdata : (sstableFile m).take (encodeEntries m.entries).length
      = encodeEntries m.entries := by
    rw [sstableFile_eq, List.append_assoc, List.take_left]
  have hinside : ¬ (UInt64.ofNat ((samples m.entries).flatMap encodeIndexEntry).length ≠ 0
      ∧ (sstableFile m).length < (encodeEntries m.entries).length
        + ((samples m.entries).flatMap encodeIndexEntry).length) := by
    omega
  simp only [SSTableReader.load, hfooter, bind, Except.bind, hoffset, hindex]
  rw [if_neg hinside, hview, hdata, readIndex_encoded (fun e he => samples_inRange h hsize he)]
  rfl

end EntryMap

/-! ### Tables -/

/-- A map that can be written to an SSTable and read back. -/
structure Table where
  entries : EntryMap
  inRange : entries.InRange
  fits : (sstableFile entries).length ≤ maxSize

namespace Table

/-- The file written for a table. -/
def file (t : Table) : Bytes :=
  sstableFile t.entries

/-- The reader of a table's file under the number `path`. -/
def reader (t : Table) (path : ℕ) : SSTableReader where
  path := path
  data := encodeEntries t.entries.entries
  index := (samples t.entries.entries).map (fun e => ⟨e.1, e.2⟩)
  contents := t.file

theorem writeSSTable_entries (t : Table) :
  writeSSTable t.entries = .ok t.file
  := by
  rw [writeSSTable, if_neg (not_lt.mpr t.fits), file]

/-- Opening the file of a table gives its reader. -/
theorem load_file (t : Table) (path : ℕ) :
  SSTableReader.load path t.file = .ok (t.reader path)
  := t.entries.load_sstableFile t.inRange (t.fits.trans_lt (by decide)) path

end Table

theorem eq_sstableFile {entries : EntryMap} {contents : Bytes}
    (h : writeSSTable entries = .ok contents) :
  contents = sstableFile entries
  := by
  rw [writeSSTable] at h
  split_ifs at h
  exact (Except.ok.inj h).symm

/-- The file of a map in range is accepted. -/
theorem load_of_inRange {entries : EntryMap} {contents : Bytes} (hin : entries.InRange)
    (hwrite : writeSSTable entries = .ok contents) (n : ℕ) :
  ∃ t : Table, t.entries = entries ∧ SSTableReader.load n contents = .ok (t.reader n)
  := by
  have hfits : (sstableFile entries).length ≤ maxSize := by
    rw [writeSSTable] at hwrite
    split_ifs at hwrite with hlarge
    exact not_lt.mp hlarge
  use ⟨entries, hin, hfits⟩, rfl
  rw [eq_sstableFile hwrite]
  exact Table.load_file ⟨entries, hin, hfits⟩ n

end TinyLsm
