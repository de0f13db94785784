import TinyLsm.SSTable.Format

/-!
# Reading a table

On the reader of a table, `Find`, `ScanRaw` and `AllRaw` return what the lookup, the
filter by range and the list of the table's entries return, with the values of tombstones
dropped; none of them fails.  The block `Find` scans starts at the last sample not above
the key and ends at the next one.
-/

namespace TinyLsm

open Framing OrderedMap

/-- What is read back of an entry. -/
def readBack (e : Bytes × Entry) : Bytes × Entry :=
  (e.1, e.2.onDisk)

/-- The record decoded for an entry. -/
def decodedEntry (e : Bytes × Entry) : DecodedRecord :=
  (entryRecord e).decoded

@[simp]
theorem decodedEntry_key (e : Bytes × Entry) :
  (decodedEntry e).key = e.1
  := rfl

@[simp]
theorem decodedEntry_entry (e : Bytes × Entry) :
  (decodedEntry e).entry = e.2.onDisk
  := by
  obtain ⟨key, value, isTombstone⟩ := e
  cases isTombstone with
  | false => rfl
  | true => rfl

/-! ### Loops over blocks -/

/-- The loop over a block of encoded entries is the loop over the entries. -/
theorem forRecords_encoded {ρ : Type} (body : ρ → DecodedRecord → ForInStep ρ) (acc : ρ)
    {es : List (Bytes × Entry)} (h : ∀ e ∈ es, (entryRecord e).InRange) :
  forRecords body acc (encodeEntries es) = .ok (foldSteps body acc (es.map decodedEntry))
  := by
  have hread : ∀ e ∈ es, Reads decodeFrame encodeEntry decodedEntry e :=
    fun e he => Record.reads (h e he)
  apply forFrames_encoded hread _ _ (le_refl _)

/-- `AllRaw` on the reader of a map lists its entries. -/
theorem EntryMap.allRaw_reader {m : EntryMap} (h : m.InRange) (path : ℕ) :
  (m.reader path).allRaw = .ok (m.entries.map readBack)
  := by
  rw [SSTableReader.allRaw, reader, forRecords_encoded _ _ h, foldSteps_collect]
  simp [readBack, Function.comp_def]

/-- The loop of `Find` on sorted entries is a lookup. -/
theorem foldSteps_findStep (key : Bytes) {es : List (Bytes × Entry)}
    (hs : es.Pairwise (fun a b => a.1 < b.1)) :
  foldSteps (SSTableReader.findStep key) none (es.map decodedEntry)
    = (lookup key es).map Entry.onDisk
  := by
  induction es with
  | nil => rfl
  | cons e es ih =>
      obtain ⟨k, entry⟩ := e
      obtain ⟨hhead, htail⟩ := List.pairwise_cons.mp hs
      simp only [List.map_cons, foldSteps, SSTableReader.findStep, decodedEntry_key,
        decodedEntry_entry, lookup_cons]
      by_cases heq : k = key
      · simp [heq]
      · by_cases hlt : key < k
        · have hnone : lookup key es = none := by
            apply lookup_eq_none.mpr
            intro d hd
            exact ne_of_gt (hlt.trans (hhead d hd))
          simp [heq, hlt, hnone]
        · simp only [heq, hlt, if_false]
          apply ih htail

/-- The loop of `ScanRaw` on sorted entries is a filter. -/
theorem foldSteps_scanStep (start stop : Bytes) (acc : List (Bytes × Entry))
    {es : List (Bytes × Entry)} (hs : es.Pairwise (fun a b => a.1 < b.1)) :
  foldSteps (SSTableReader.scanStep start stop) acc (es.map decodedEntry)
    = acc ++ (es.filter (fun e => start ≤ e.1 ∧ e.1 < stop)).map readBack
  := by
  induction es generalizing acc with
  | nil => simp [foldSteps]
  | cons e es ih =>
      obtain ⟨k, entry⟩ := e
      obtain ⟨hhead, htail⟩ := List.pairwise_cons.mp hs
      simp only [List.map_cons, foldSteps, SSTableReader.scanStep, decodedEntry_key,
        decodedEntry_entry]
      by_cases hstop : stop ≤ k
      · have hnone : ((k, entry) :: es).filter (fun e => start ≤ e.1 ∧ e.1 < stop) = [] := by
          apply List.filter_eq_nil_iff.mpr
          intro d hd
          rcases List.mem_cons.mp hd with rfl | hd
          · simp [hstop]
          · have hle : stop ≤ d.1 := hstop.trans (hhead d hd).le
            simp [hle]
        rw [hnone]
        simp [hstop]
      · by_cases hstart : start ≤ k
        · simp only [hstop, hstart, if_false, if_true]
          rw [ih _ htail]
          simp [hstart, not_le.mp hstop, readBack]
        · simp only [hstop, hstart, if_false]
          rw [ih _ htail]
          simp [hstart]

/-! ### Blocks -/

/-- A segment of the data section between two entries encodes the entries between them. -/
theorem blockOf_encodeEntries (es : List (Bytes × Entry)) {a b : ℕ} (hab : a ≤ b) :
  blockOf (encodeEntries es) (encodeEntries (es.take a)).length (encodeEntries (es.take b)).length
    = .ok (encodeEntries ((es.take b).drop a))
  := by
  have hb : encodeEntries es = encodeEntries (es.take b) ++ encodeEntries (es.drop b) := by
    rw [← encodeEntries_append, List.take_append_drop]
  have ha : encodeEntries (es.take b)
      = encodeEntries (es.take a) ++ encodeEntries ((es.take b).drop a) := by
    have htake : (es.take b).take a = es.take a := by
      rw [List.take_take, Nat.min_eq_left hab]
    rw [← htake, ← encodeEntries_append, List.take_append_drop]
  rw [blockOf, if_pos]
  · rw [hb, ha, List.append_assoc, List.drop_left]
    congr 1
    rw [List.length_append, Nat.add_sub_cancel_left, List.take_left]
  · constructor
    · rw [ha, List.length_append]
      omega
    · rw [hb, List.length_append]
      omega

/-- A key that is neither before entry `a` nor from entry `b` on is looked up between
them. -/
theorem lookup_segment {es : List (Bytes × Entry)} {key : Bytes} {a b : ℕ} (hab : a ≤ b)
    (hbefore : ∀ e ∈ es.take a, e.1 ≠ key) (hafter : ∀ e ∈ es.drop b, e.1 ≠ key) :
  lookup key ((es.take b).drop a) = lookup key es
  := by
  have hsplit : es = es.take a ++ ((es.take b).drop a ++ es.drop b) := by
    conv_lhs => rw [← List.take_append_drop b es, ← List.take_append_drop a (es.take b),
      List.take_take, Nat.min_eq_left hab]
    rw [List.append_assoc]
  conv_rhs => rw [hsplit]
  rw [lookup_append, lookup_append, lookup_eq_none.mpr hbefore, lookup_eq_none.mpr hafter]
  simp

section Sorted

variable {es : List (Bytes × Entry)} (hs : es.Pairwise (fun a b => a.1 < b.1))

include hs

theorem lt_of_mem_take {a : ℕ} (ha : a < es.length) {e : Bytes × Entry} (he : e ∈ es.take a) :
  e.1 < (es[a]).1
  := by
  rw [← List.take_append_drop a es, List.pairwise_append] at hs
  apply hs.2.2 e he
  rw [List.drop_eq_getElem_cons ha]
  exact List.mem_cons_self

theorem le_of_mem_drop {b : ℕ} {e : Bytes × Entry} (he : e ∈ es.drop b) :
  ∃ hb : b < es.length, (es[b]).1 ≤ e.1
  := by
  have hb : b < es.length := by
    by_contra h
    rw [List.drop_of_length_le (not_lt.mp h)] at he
    simp at he
  use hb
  rw [List.drop_eq_getElem_cons hb] at he
  have hdrop := hs.sublist (List.drop_sublist b es)
  rw [List.drop_eq_getElem_cons hb, List.pairwise_cons] at hdrop
  rcases List.mem_cons.mp he with rfl | he
  · exact le_refl _
  · exact (hdrop.1 e he).le

end Sorted

/-! ### The sparse index -/

namespace Table

variable (t : Table) (path : ℕ)

theorem index_getElem? (i : ℕ) :
  (t.reader path).index[i]?
    = if i < sampleCount t.entries.entries.length then
        some ⟨(sample t.entries.entries i).1, (sample t.entries.entries i).2⟩
      else none
  := by
  simp only [reader, samples, List.getElem?_map]
  split_ifs with h
  · rw [List.getElem?_range h]
    rfl
  · rw [List.getElem?_eq_none (by rw [List.length_range]; omega)]
    rfl

/-- The `i`-th sampled offset, or the end of the data, is that of entry `16 * i`. -/
theorem offsetAt_reader (i : ℕ) :
  (t.reader path).offsetAt i
    = (encodeEntries (t.entries.entries.take (sparseIndexInterval * i))).length
  := by
  rw [SSTableReader.offsetAt, index_getElem?]
  by_cases h : i < sampleCount t.entries.entries.length
  · simp [h, sample]
  · have hlen : t.entries.entries.length ≤ sparseIndexInterval * i :=
      not_lt.mp (fun hlt => h (lt_sampleCount_iff.mpr hlt))
    simp [h, reader, List.take_of_length_le hlen]

/-- The sampled keys ascend. -/
theorem index_sorted :
  (t.reader path).index.Pairwise (fun a b => a.key < b.key)
  := by
  apply List.pairwise_iff_getElem.mpr
  intro i j hi hj hij
  have hlen : (t.reader path).index.length = sampleCount t.entries.entries.length := by
    simp [reader, samples]
  rw [hlen] at hi hj
  have hi' := lt_sampleCount_iff.mp hi
  have hj' := lt_sampleCount_iff.mp hj
  have hlt : sparseIndexInterval * i < sparseIndexInterval * j := by
    simp only [sparseIndexInterval]
    omega
  simp only [reader, samples, List.getElem_map, List.getElem_range, sample,
    List.getElem?_eq_getElem hi', List.getElem?_eq_getElem hj', Option.map_some,
    Option.getD_some]
  apply List.pairwise_iff_getElem.mp t.entries.sorted
  exact hlt

/-- Where the binary search for a key stops: the samples before are not above the key, the
ones from there on are. -/
theorem upperBound_spec (key : Bytes) :
  (∀ i (h : sparseIndexInterval * i < t.entries.entries.length),
      i < (t.reader path).upperBound key → (t.entries.entries[sparseIndexInterval * i]).1 ≤ key)
    ∧ ∀ i (h : sparseIndexInterval * i < t.entries.entries.length),
      (t.reader path).upperBound key ≤ i → key < (t.entries.entries[sparseIndexInterval * i]).1
  := by
  obtain ⟨-, hbefore, hafter⟩ := BinarySearch.upperBound_spec
    (p := fun e : IndexEntry => decide (key < e.key)) (l := (t.reader path).index)
    ((t.index_sorted path).imp (fun hab => by
      simp only [decide_eq_true_eq]
      exact fun h => h.trans hab))
  have hget : ∀ i (h : sparseIndexInterval * i < t.entries.entries.length),
      (t.reader path).index[i]?
        = some ⟨(t.entries.entries[sparseIndexInterval * i]).1,
            (sample t.entries.entries i).2⟩ := by
    intro i h
    rw [index_getElem?, if_pos (lt_sampleCount_iff.mpr h)]
    simp [sample, List.getElem?_eq_getElem h]
  constructor
  · intro i h hi
    have hmem := List.mem_of_getElem? (l := (t.reader path).index.take
      ((t.reader path).upperBound key)) (i := i) (by rw [List.getElem?_take_of_lt hi, hget i h])
    simpa using hbefore _ hmem
  · intro i h hi
    have hmem := List.mem_of_getElem? (l := (t.reader path).index.drop
      ((t.reader path).upperBound key)) (i := i - (t.reader path).upperBound key)
      (by rw [List.getElem?_drop, Nat.add_sub_cancel' hi, hget i h])
    simpa using hafter _ hmem

theorem index_eq_nil :
  (t.reader path).index = [] ↔ t.entries.entries = []
  := by
  simp only [reader, samples, List.map_eq_nil_iff, List.range_eq_nil, sampleCount,
    sparseIndexInterval]
  rw [← List.length_eq_zero_iff]
  omega

/-- The entries before the last sample not above the key are below the key. -/
theorem lt_of_before {key : Bytes} {i : ℕ} (hi : i < (t.reader path).upperBound key)
    {e : Bytes × Entry} (he : e ∈ t.entries.entries.take (sparseIndexInterval * i)) :
  e.1 < key
  := by
  by_cases h : sparseIndexInterval * i < t.entries.entries.length
  · exact (lt_of_mem_take t.entries.sorted h he).trans_le ((t.upperBound_spec path key).1 i h hi)
  · -- Past the last sample the search has stopped before `i`.
    have hbound := (BinarySearch.upperBound_spec
      (p := fun e : IndexEntry => decide (key < e.key)) (l := (t.reader path).index)
      ((t.index_sorted path).imp (fun hab => by
        simp only [decide_eq_true_eq]
        exact fun h => h.trans hab))).1
    have hlen : (t.reader path).index.length = sampleCount t.entries.entries.length := by
      simp [reader, samples]
    rw [hlen] at hbound
    exact absurd (lt_sampleCount_iff.mp (hi.trans_le hbound)) h

/-- The entries from the first sample above the key on are above the key. -/
theorem lt_of_after {key : Bytes} {e : Bytes × Entry}
    (he : e ∈ t.entries.entries.drop (sparseIndexInterval * (t.reader path).upperBound key)) :
  key < e.1
  := by
  obtain ⟨h, hle⟩ := le_of_mem_drop t.entries.sorted he
  exact ((t.upperBound_spec path key).2 _ h (le_refl _)).trans_le hle

/-! ### The three reads -/

/-- `Find` on the reader of a table is the lookup. -/
theorem find_reader (key : Bytes) :
  (t.reader path).find key = .ok ((t.entries.find? key).map Entry.onDisk)
  := by
  rw [SSTableReader.find]
  split_ifs with hindex hzero
  · rw [OrderedMap.find?, (t.index_eq_nil path).mp hindex]
    rfl
  · have hnone : lookup key t.entries.entries = none := by
      apply lookup_eq_none.mpr
      intro e he
      apply ne_of_gt
      apply t.lt_of_after path
      rw [hzero]
      exact he
    rw [OrderedMap.find?, hnone]
    rfl
  · have hle : sparseIndexInterval * ((t.reader path).upperBound key - 1)
        ≤ sparseIndexInterval * (t.reader path).upperBound key :=
      Nat.mul_le_mul_left _ (Nat.sub_le _ _)
    have hsub : (t.reader path).upperBound key - 1 < (t.reader path).upperBound key := by omega
    rw [offsetAt_reader, offsetAt_reader,
      show (t.reader path).data = encodeEntries t.entries.entries from rfl,
      blockOf_encodeEntries _ hle]
    simp only [bind, Except.bind]
    rw [forRecords_encoded, foldSteps_findStep, OrderedMap.find?, lookup_segment hle]
    · exact fun e he => ne_of_lt (t.lt_of_before path hsub he)
    · exact fun e he => ne_of_gt (t.lt_of_after path he)
    · exact (t.entries.sorted.sublist (List.take_sublist _ _)).sublist (List.drop_sublist _ _)
    · exact fun e he => t.inRange e (List.mem_of_mem_take (List.mem_of_mem_drop he))

/-- `ScanRaw` on the reader of a table is the filter by range. -/
theorem scanRaw_reader (start stop : Bytes) :
  (t.reader path).scanRaw start stop
    = .ok ((t.entries.entries.filter (fun e => start ≤ e.1 ∧ e.1 < stop)).map readBack)
  := by
  rw [SSTableReader.scanRaw]
  split_ifs with hindex hzero
  · rw [(t.index_eq_nil path).mp hindex]
    rfl
  · have hblock := blockOf_encodeEntries t.entries.entries
      (Nat.zero_le t.entries.entries.length)
    rw [List.take_length, List.take_zero, List.drop_zero] at hblock
    rw [show (t.reader path).data = encodeEntries t.entries.entries from rfl]
    simp only [encodeEntries_nil, List.length_nil] at hblock
    simp only [hblock, bind, Except.bind]
    rw [forRecords_encoded _ _ t.inRange, foldSteps_scanStep _ _ _ t.entries.sorted]
    rfl
  · have hsub : (t.reader path).upperBound start - 1 < (t.reader path).upperBound start := by
      omega
    have hle : sparseIndexInterval * ((t.reader path).upperBound start - 1)
        ≤ max t.entries.entries.length
          (sparseIndexInterval * ((t.reader path).upperBound start - 1)) := le_max_right _ _
    have hblock := blockOf_encodeEntries t.entries.entries hle
    rw [List.take_of_length_le (le_max_left _ _)] at hblock
    rw [offsetAt_reader, show (t.reader path).data = encodeEntries t.entries.entries from rfl]
    simp only [hblock, bind, Except.bind]
    rw [forRecords_encoded, foldSteps_scanStep]
    · conv_rhs => rw [← List.take_append_drop (sparseIndexInterval
        * ((t.reader path).upperBound start - 1)) t.entries.entries, List.filter_append]
      have hnone : (t.entries.entries.take (sparseIndexInterval
          * ((t.reader path).upperBound start - 1))).filter
            (fun e => start ≤ e.1 ∧ e.1 < stop) = [] := by
        apply List.filter_eq_nil_iff.mpr
        intro e he
        have hlt := t.lt_of_before path hsub he
        simp [not_le.mpr hlt]
      rw [hnone, List.nil_append, List.nil_append]
    · exact t.entries.sorted.sublist (List.drop_sublist _ _)
    · exact fun e he => t.inRange e (List.mem_of_mem_drop he)

/-- `AllRaw` on the reader of a table lists its entries. -/
theorem allRaw_reader :
  (t.reader path).allRaw = .ok (t.entries.entries.map readBack)
  := EntryMap.allRaw_reader t.inRange path

end Table

end TinyLsm
