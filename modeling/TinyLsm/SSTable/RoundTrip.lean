import TinyLsm.Reading

/-!
# Tables written and read back

The file `WriteSSTable` produces for a map whose keys and values fit their length fields is opened
again to the entries of the map and a sparse index of every sixteenth of them (`read_written`).  On
the reader opened, `Find` is the lookup in the map, and looks at no more than sixteen entries for it
(`find_written`); `ScanRaw` is the filter of `AllRaw` by the range (`scanRaw_written`).
-/

namespace TinyLsm

open Framing OrderedMap

/-! ### The whole table -/

/-- The offset in the data section of the record of entry number `i`. -/
def recordOffset (es : List (Bytes × Entry)) (i : ℕ) : ℕ :=
  (encodeEntries (es.take i)).length

/-- The record of every entry is found at its offset. -/
theorem decodeRecord_recordOffset {es : List (Bytes × Entry)}
    (h : ∀ e ∈ es, (entryRecord e).InRange) {i : ℕ} {e : Bytes × Entry} (he : es[i]? = some e) :
  decodeRecord ((encodeEntries es).drop (recordOffset es i)) = .ok (decodedEntry e)
  := by
  obtain ⟨hi, rfl⟩ := List.getElem?_eq_some_iff.mp he
  have hsplit : encodeEntries es = encodeEntries (es.take i) ++ encodeEntries (es.drop i) := by
    rw [← encodeEntries_append, List.take_append_drop]
  rw [recordOffset, hsplit, List.drop_left, List.drop_eq_getElem_cons hi]
  have hread := (Record.reads (h _ (List.getElem_mem hi))).2 (encodeEntries (es.drop (i + 1)))
  exact (decodeFrame_eq_some.mp hread).1

/-- The sparse index of a reader lists the keys and the offsets of every sixteenth entry. -/
theorem EntryMap.index_reader (m : EntryMap) (path i : ℕ) :
  (m.reader path).index[i]?
    = (m.entries[sparseIndexInterval * i]?).map
      (fun e => ⟨e.1, recordOffset m.entries (sparseIndexInterval * i)⟩)
  := by
  by_cases hi : sparseIndexInterval * i < m.entries.length
  · simp [reader, samples, List.getElem?_range (lt_sampleCount_iff.mpr hi), sample, recordOffset,
      List.getElem?_eq_getElem hi]
  · have hcount : ¬ i < sampleCount m.entries.length := fun h => hi (lt_sampleCount_iff.mp h)
    rw [List.getElem?_eq_none (not_lt.mp hi), Option.map_none, List.getElem?_eq_none]
    simp only [reader, samples, List.length_map, List.length_range]
    exact not_lt.mp hcount

/-- The file written for a map is opened, to the entries of the map in ascending order and to the
sparse index of every sixteenth of them. -/
theorem read_written {m : EntryMap} (h : m.InRange) (hsize : (sstableFile m).length < 2 ^ 64)
    (path : ℕ) :
  (∀ contents, writeSSTable m = .ok contents → contents = sstableFile m)
    ∧ ∃ r, SSTableReader.load path (sstableFile m) = .ok r
      ∧ r.allRaw = .ok (m.entries.map readBack)
      ∧ (m.entries.map readBack).Pairwise (fun a b => a.1 < b.1)
      ∧ (∀ i, r.index[i]? = (m.entries[sparseIndexInterval * i]?).map
        (fun e => ⟨e.1, recordOffset m.entries (sparseIndexInterval * i)⟩))
      ∧ ∀ i e, m.entries[i]? = some e →
        decodeRecord (r.data.drop (recordOffset m.entries i)) = .ok (decodedEntry e)
  := by
  refine ⟨fun contents => eq_sstableFile, m.reader path, EntryMap.load_sstableFile h hsize path,
    EntryMap.allRaw_reader h path, ?_, m.index_reader path, ?_⟩
  · rw [List.pairwise_map]
    exact m.sorted
  · intro i e he
    exact decodeRecord_recordOffset h he

/-- A table of a live entry and a tombstone. -/
def twoEntries : Table where
  entries := (OrderedMap.empty.insert [97] ⟨[1], false⟩).insert [98] ⟨[], true⟩
  inRange := by decide +kernel
  fits := by decide +kernel

theorem read_written_two :
  ∃ r, SSTableReader.load 1 (sstableFile twoEntries.entries) = .ok r
    ∧ r.allRaw = .ok [([97], ⟨[1], false⟩), ([98], ⟨[], true⟩)]
  := by
  obtain ⟨-, r, hload, hraw, -⟩ := read_written twoEntries.inRange (by decide +kernel) 1
  exact ⟨r, hload, hraw⟩

/-! ### The block a lookup scans -/

/-- The block of bytes that `Find` reads records from, empty if it returns before. -/
def SSTableReader.findBlock (r : SSTableReader) (key : Bytes) : Except StorageError Bytes :=
  if r.index = [] ∨ r.upperBound key = 0 then .ok []
  else blockOf r.data (r.offsetAt (r.upperBound key - 1)) (r.offsetAt (r.upperBound key))

/-- `Find` is its loop over that block. -/
theorem SSTableReader.find_eq_findBlock (r : SSTableReader) (key : Bytes) :
  r.find key = (r.findBlock key >>= forRecords (findStep key) none)
  := by
  rw [find, findBlock]
  by_cases hindex : r.index = []
  · rw [if_pos hindex, if_pos (.inl hindex)]
    rfl
  · by_cases hzero : r.upperBound key = 0
    · rw [if_neg hindex, if_pos hzero, if_pos (.inr hzero)]
      rfl
    · rw [if_neg hindex, if_neg hzero, if_neg (not_or.mpr ⟨hindex, hzero⟩)]

/-- The block is the encoding of at most sixteen entries that stand side by side. -/
theorem Table.findBlock_reader (t : Table) (path : ℕ) (key : Bytes) :
  ∃ before es after, t.entries.entries = before ++ es ++ after
    ∧ es.length ≤ sparseIndexInterval
    ∧ (t.reader path).findBlock key = .ok (encodeEntries es)
  := by
  rw [SSTableReader.findBlock]
  split_ifs with hempty
  · exact ⟨[], [], t.entries.entries, rfl, Nat.zero_le _, rfl⟩
  · have hnext : sparseIndexInterval * (t.reader path).upperBound key
        = sparseIndexInterval * ((t.reader path).upperBound key - 1) + sparseIndexInterval := by
      have hpos := (not_or.mp hempty).2
      rw [← Nat.mul_add_one, Nat.sub_add_cancel (Nat.pos_of_ne_zero hpos)]
    rw [offsetAt_reader, offsetAt_reader, hnext]
    generalize sparseIndexInterval * ((t.reader path).upperBound key - 1) = start
    refine ⟨t.entries.entries.take start,
      (t.entries.entries.take (start + sparseIndexInterval)).drop start,
      t.entries.entries.drop (start + sparseIndexInterval), ?_, ?_, ?_⟩
    · have htake : t.entries.entries.take start
          = (t.entries.entries.take (start + sparseIndexInterval)).take start := by
        rw [List.take_take, Nat.min_eq_left (Nat.le_add_right _ _)]
      rw [htake, List.take_append_drop, List.take_append_drop]
    · rw [List.length_drop, List.length_take]
      omega
    · exact blockOf_encodeEntries t.entries.entries (Nat.le_add_right _ _)

/-! ### Reading what was written -/

/-- The entries read back are those of the layer of the map. -/
theorem mem_map_readBack {m : EntryMap} {key : Bytes} {entry : Entry} :
  (key, entry) ∈ m.entries.map readBack ↔ m.layer key = some entry
  := by
  rw [List.mem_map, EntryMap.layer, Option.map_eq_some_iff]
  constructor
  · rintro ⟨⟨k, e⟩, hmem, heq⟩
    obtain ⟨rfl, rfl⟩ := Prod.mk.inj heq
    exact ⟨e, mem_entries.mp hmem, rfl⟩
  · rintro ⟨e, hfind, rfl⟩
    exact ⟨(key, e), mem_entries.mpr hfind, rfl⟩

/-- The reader was opened on the file `WriteSSTable` has produced for the map. -/
def SSTableReader.OpenedOn (r : SSTableReader) (m : EntryMap) : Prop :=
  ∃ contents, writeSSTable m = .ok contents ∧ SSTableReader.load r.path contents = .ok r

theorem SSTableReader.OpenedOn.exists_table {r : SSTableReader} {m : EntryMap}
    (h : r.OpenedOn m) (hrange : m.InRange) :
  ∃ t : Table, t.entries = m ∧ r = t.reader r.path
  := by
  obtain ⟨contents, hwrite, hload⟩ := h
  obtain ⟨t, hentries, hreader⟩ := load_of_inRange hrange hwrite r.path
  use t, hentries
  exact Except.ok.inj (hload.symm.trans hreader)

theorem Table.openedOn_reader (t : Table) (path : ℕ) :
  (t.reader path).OpenedOn t.entries
  := ⟨t.file, t.writeSSTable_entries, t.load_file path⟩

/-- `Find` is the lookup in the map the table was written for; it reads the records of a block that
is the encoding of at most sixteen entries that stand side by side. -/
theorem find_written {r : SSTableReader} {m : EntryMap} (hrange : m.InRange) (h : r.OpenedOn m)
    (key : Bytes) :
  r.find key = .ok ((m.find? key).map Entry.onDisk)
    ∧ r.find key = (r.findBlock key >>= forRecords (SSTableReader.findStep key) none)
    ∧ ∃ before es after, m.entries = before ++ es ++ after ∧ es.length ≤ sparseIndexInterval
      ∧ r.findBlock key = .ok (encodeEntries es)
  := by
  obtain ⟨t, rfl, ht⟩ := h.exists_table hrange
  refine ⟨?_, r.find_eq_findBlock key, ?_⟩
  · rw [ht]
    apply t.find_reader
  · rw [ht]
    apply t.findBlock_reader

theorem find_written_tombstone :
  (twoEntries.reader 1).find [98] = .ok (some ⟨[], true⟩)
  := (find_written twoEntries.inRange (twoEntries.openedOn_reader 1) [98]).1

/-- `ScanRaw` is the filter of `AllRaw` by the range, in ascending order, with the tombstones. -/
theorem scanRaw_written {r : SSTableReader} {m : EntryMap} (hrange : m.InRange) (h : r.OpenedOn m)
    (start stop : Bytes) :
  ∃ all results, r.allRaw = .ok all ∧ r.scanRaw start stop = .ok results
    ∧ results = all.filter (fun e => start ≤ e.1 ∧ e.1 < stop)
    ∧ results.Pairwise (fun a b => a.1 < b.1)
    ∧ ∀ key entry, (key, entry) ∈ results
      ↔ start ≤ key ∧ key < stop ∧ (m.find? key).map Entry.onDisk = some entry
  := by
  obtain ⟨t, rfl, ht⟩ := h.exists_table hrange
  have hsorted : (t.entries.entries.map readBack).Pairwise (fun a b => a.1 < b.1) := by
    rw [List.pairwise_map]
    exact t.entries.sorted
  have hfilter : (t.entries.entries.filter (fun e => start ≤ e.1 ∧ e.1 < stop)).map readBack
      = (t.entries.entries.map readBack).filter (fun e => start ≤ e.1 ∧ e.1 < stop) := by
    rw [List.filter_map]
    rfl
  rw [ht]
  refine ⟨_, _, t.allRaw_reader r.path, t.scanRaw_reader r.path start stop, hfilter, ?_, ?_⟩
  · rw [hfilter]
    exact hsorted.filter _
  · intro key entry
    rw [hfilter, List.mem_filter, decide_eq_true_eq, mem_map_readBack, and_comm, and_assoc]
    rfl

/-- A scan that begins behind the live entry. -/
theorem scanRaw_written_tombstone :
  ∃ all results, (twoEntries.reader 1).allRaw = .ok all
    ∧ (twoEntries.reader 1).scanRaw [97, 0] [99] = .ok results
    ∧ results = all.filter (fun e => [97, 0] ≤ e.1 ∧ e.1 < [99])
  := by
  obtain ⟨all, results, hall, hresults, hfilter, -⟩ :=
    scanRaw_written twoEntries.inRange (twoEntries.openedOn_reader 1) [97, 0] [99]
  exact ⟨all, results, hall, hresults, hfilter⟩

end TinyLsm
