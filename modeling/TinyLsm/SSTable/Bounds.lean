import TinyLsm.SSTable

/-!
# Files of any contents

What `SSTableReader` relies on when the file it is given may hold any bytes.  The constructor checks
the sum of two fields of the footer in 64-bit arithmetic; what passes the check is cut in adjacent
regions, and the index is read inside the file, unless the sum has wrapped around
(`footerChecks_sound_iff`).  The offsets of the index are not checked at all: the lookups stay inside
the data section exactly when the offsets around every position a binary search can end at are in
order and inside it (`lookups_inBounds_iff`).
-/

namespace TinyLsm

open Framing

/-! ### The footer -/

/-- The footer of a file that is long enough to have one. -/
def footerOf (contents : Bytes) : Bytes :=
  contents.drop (contents.length - footerSize)

/-- The field `index_offset`. -/
def indexOffsetOf (contents : Bytes) : UInt64 :=
  getUint64LE (footerOf contents)

/-- The field `index_size`. -/
def indexSizeOf (contents : Bytes) : UInt64 :=
  getUint64LE ((footerOf contents).drop 8)

/-- `index_view`. -/
def indexView (contents : Bytes) (indexOffset indexSize : UInt64) : Bytes :=
  (contents.drop indexOffset.toNat).take indexSize.toNat

/-- The positions of an index view that are read for the entry at its front: the length of the
key, and if the rest is there, the key and the offset. -/
def indexEntryReads (view : Bytes) : List ℕ :=
  if view.length < 4 then []
  else if view.length - 4 < (getUint32LE view).toNat + 8 then List.range 4
  else List.range (4 + (getUint32LE view).toNat + 8)

/-- The positions of the file that the loop over the index view reads. -/
def indexReads (contents : Bytes) (indexOffset indexSize : UInt64) : List ℕ :=
  forReads decodeIndexEntry indexEntryReads (fun index e => .yield (index ++ [e]))
    (indexView contents indexOffset indexSize).length indexOffset.toNat
    (indexView contents indexOffset indexSize) ([] : List IndexEntry)

/-- What everything behind the footer checks relies on. -/
structure FooterSound (contents : Bytes) (indexOffset indexSize : UInt64) : Prop where
  offset_le : indexOffset.toNat ≤ contents.length
  size_le : indexSize.toNat ≤ contents.length
  sum_eq : indexOffset.toNat + indexSize.toNat + footerSize = contents.length
  length_view : (indexView contents indexOffset indexSize).length = indexSize.toNat
  adjacent :
    contents.take indexOffset.toNat ++ indexView contents indexOffset indexSize ++ footerOf contents
      = contents
  /-- The members of the reader are the data section and what is read of the index view. -/
  loaded : ∀ path r, SSTableReader.load path contents = .ok r →
    r.data = contents.take indexOffset.toNat
      ∧ readIndex (indexView contents indexOffset indexSize) = .ok r.index
  reads : ∀ i ∈ indexReads contents indexOffset indexSize, i < contents.length
  inBounds : ∀ path, SSTableReader.load path contents ≠ .error .outOfBounds

/-- A file that passes the footer checks is cut as the rest of the constructor relies on, and any
other file is rejected. -/
def FooterChecksSound (contents : Bytes) : Prop :=
  (∀ indexOffset indexSize, readFooter contents = .ok (indexOffset, indexSize) →
    FooterSound contents indexOffset indexSize)
  ∧ ∀ e, readFooter contents = .error e →
    e ≠ .outOfBounds ∧ ∀ path, SSTableReader.load path contents = .error e

/-- The file has a footer with the magic number whose sum wraps around to the right one. -/
def FooterWraps (contents : Bytes) : Prop :=
  footerSize ≤ contents.length ∧ getUint32LE ((footerOf contents).drop 20) = magic
    ∧ (indexOffsetOf contents).toNat + (indexSizeOf contents).toNat + footerSize
      = contents.length + 2 ^ 64

instance (contents : Bytes) : Decidable (FooterWraps contents) :=
  inferInstanceAs (Decidable (_ ∧ _))

theorem readFooter_eq (contents : Bytes) :
  readFooter contents
    = if contents.length < footerSize then .error .tooSmall
      else if getUint32LE ((footerOf contents).drop 20) ≠ magic then .error .badMagic
      else if indexOffsetOf contents + indexSizeOf contents + UInt64.ofNat footerSize
        ≠ UInt64.ofNat contents.length then .error .corruptFooter
      else .ok (indexOffsetOf contents, indexSizeOf contents)
  := rfl

theorem readFooter_eq_ok {contents : Bytes} {indexOffset indexSize : UInt64} :
  readFooter contents = .ok (indexOffset, indexSize)
    ↔ footerSize ≤ contents.length ∧ getUint32LE ((footerOf contents).drop 20) = magic
      ∧ indexOffsetOf contents = indexOffset ∧ indexSizeOf contents = indexSize
      ∧ indexOffset + indexSize + UInt64.ofNat footerSize = UInt64.ofNat contents.length
  := by
  rw [readFooter_eq]
  split_ifs with hshort hmagic hsum
  · apply iff_of_false (by simp)
    exact fun h => absurd h.1 (not_le.mpr hshort)
  · apply iff_of_false (by simp)
    exact fun h => hmagic h.2.1
  · apply iff_of_false (by simp)
    rintro ⟨-, -, rfl, rfl, h⟩
    exact hsum h
  · rw [Except.ok.injEq, Prod.mk.injEq]
    constructor
    · rintro ⟨rfl, rfl⟩
      exact ⟨not_lt.mp hshort, not_not.mp hmagic, rfl, rfl, not_not.mp hsum⟩
    · rintro ⟨-, -, hoffset, hsize, -⟩
      exact ⟨hoffset, hsize⟩

theorem readFooter_ne_outOfBounds (contents : Bytes) :
  readFooter contents ≠ .error .outOfBounds
  := by
  rw [readFooter_eq]
  split_ifs with hshort hmagic hsum
  · simp
  · simp
  · simp
  · simp

/-- The checked sum is the sum of the fields or, if that wraps around, 2^64 less. -/
theorem sum_of_checked {contents : Bytes} (hlen : contents.length < 2 ^ 63)
    (hshort : footerSize ≤ contents.length) {indexOffset indexSize : UInt64}
    (h : indexOffset + indexSize + UInt64.ofNat footerSize = UInt64.ofNat contents.length) :
  indexOffset.toNat + indexSize.toNat + footerSize = contents.length
    ∨ indexOffset.toNat + indexSize.toNat + footerSize = contents.length + 2 ^ 64
  := by
  have hnat := congrArg UInt64.toNat h
  rw [UInt64.toNat_add, UInt64.toNat_add, UInt64.toNat_ofNat_of_lt' (by decide),
    UInt64.toNat_ofNat_of_lt' (hlen.trans (by decide))] at hnat
  have hoffset := indexOffset.toNat_lt
  have hsize := indexSize.toNat_lt
  simp only [footerSize] at hnat hshort ⊢
  omega

theorem lt_of_mem_indexEntryReads (view : Bytes) {i : ℕ} (hi : i ∈ indexEntryReads view) :
  i < view.length
  := by
  rw [indexEntryReads] at hi
  split_ifs at hi with hshort hrest
  · simp at hi
  · rw [List.mem_range] at hi
    omega
  · rw [List.mem_range] at hi
    omega

theorem decodeIndexEntry_pos {view : Bytes} {e : IndexEntry} {n : ℕ}
    (h : decodeIndexEntry view = some (e, n)) :
  0 < n
  := by
  rw [decodeIndexEntry] at h
  split_ifs at h with hshort
  simp only at h
  split_ifs at h with hrest
  simp only [Option.some.injEq, Prod.mk.injEq] at h
  omega

theorem readIndex_error {view : Bytes} {e : StorageError} (h : readIndex view = .error e) :
  e = .corruptIndex
  := by
  have hends := ends_forFrames decodeIndexEntry StorageError.corruptIndex
    (fun index e => .yield (index ++ [e])) (fun _ _ _ h => decodeIndexEntry_pos h) []
    (le_refl view.length)
  exact hends.error_eq h

/-- A file that passes the checks without a wrap is cut where the footer says. -/
theorem footerSound_of_sum {contents : Bytes} {indexOffset indexSize : UInt64}
    (hread : readFooter contents = .ok (indexOffset, indexSize))
    (hsum : indexOffset.toNat + indexSize.toNat + footerSize = contents.length) :
  FooterSound contents indexOffset indexSize
  := by
  have hview : (indexView contents indexOffset indexSize).length = indexSize.toNat := by
    rw [indexView, List.length_take, List.length_drop]
    omega
  have hinside : ¬ (indexSize ≠ 0
      ∧ contents.length < indexOffset.toNat + indexSize.toNat) := by
    rintro ⟨-, hlt⟩
    omega
  constructor
  · omega
  · omega
  · exact hsum
  · exact hview
  · have hfooter : contents.length - footerSize = indexOffset.toNat + indexSize.toNat := by omega
    rw [footerOf, indexView, hfooter, ← List.drop_drop, List.append_assoc, List.take_append_drop,
      List.take_append_drop]
  · intro path r hload
    rw [SSTableReader.load, hread] at hload
    simp only [bind, Except.bind, if_neg hinside] at hload
    cases hindex : readIndex ((contents.drop indexOffset.toNat).take indexSize.toNat) with
    | error e => simp [hindex] at hload
    | ok index =>
        simp only [hindex, Except.ok.injEq] at hload
        subst hload
        exact ⟨rfl, hindex⟩
  · intro i hi
    have hlt := lt_of_mem_forReads (fun view i => lt_of_mem_indexEntryReads view) hi
    rw [hview] at hlt
    omega
  · intro path hload
    rw [SSTableReader.load, hread] at hload
    simp only [bind, Except.bind, if_neg hinside] at hload
    cases hindex : readIndex ((contents.drop indexOffset.toNat).take indexSize.toNat) with
    | error e =>
        obtain rfl := readIndex_error hindex
        simp [hindex] at hload
    | ok index => simp [hindex] at hload

/-- A footer alone, whose sum wraps around: `index_offset` is 16 less than 2^64 and `index_size` is
16. -/
def wrappedFooter : Bytes :=
  putUint64LE (0 - 16) ++ putUint64LE 16 ++ putUint32LE 0 ++ putUint32LE magic

/-- The positions that `DecodeRecord` reads: the header, and if the rest is there, all of the
record. -/
def decodeReads (data : Bytes) : List ℕ :=
  if data.length < headerSize then []
  else if data.length < headerSize + (getUint32LE (data.drop 5)).toNat
      + (getUint32LE (data.drop 9)).toNat then
    List.range headerSize
  else
    List.range (headerSize + (getUint32LE (data.drop 5)).toNat
      + (getUint32LE (data.drop 9)).toNat)

/-- The loop of a lookup runs over a block inside the data section, comes to an end by returning or
by throwing, and reads no byte outside the data section. -/
structure BlockSafe {ρ : Type} (data : Bytes) (body : ρ → DecodedRecord → ForInStep ρ) (acc : ρ)
    (start bound : ℕ) (result : Except StorageError ρ) : Prop where
  ordered : start ≤ bound
  inside : bound ≤ data.length
  ends : Ends decodeFrame .corruptBlock body ((data.drop start).take (bound - start)) acc result
  reads : ∀ i ∈ forReads decodeFrame decodeReads body (bound - start) start
    ((data.drop start).take (bound - start)) acc, i < data.length

namespace SSTableReader

/-- `start_offset` and `bound_offset` of `Find`, if it comes to form a block. -/
def findBounds (r : SSTableReader) (key : Bytes) : Option (ℕ × ℕ) :=
  if r.index = [] ∨ r.upperBound key = 0 then none
  else some (r.offsetAt (r.upperBound key - 1), r.offsetAt (r.upperBound key))

/-- `start_offset` of `ScanRaw` and the end of its block, if it comes to form one. -/
def scanBounds (r : SSTableReader) (start : Bytes) : Option (ℕ × ℕ) :=
  if r.index = [] then none
  else some (if r.upperBound start = 0 then 0 else r.offsetAt (r.upperBound start - 1),
    r.data.length)

/-- Every lookup returns or throws, and the blocks it forms are safe. -/
structure InBounds (r : SSTableReader) : Prop where
  find_none : ∀ key, r.findBounds key = none → r.find key = .ok none
  find_some : ∀ key start bound, r.findBounds key = some (start, bound) →
    BlockSafe r.data (findStep key) none start bound (r.find key)
  scan_none : ∀ start stop, r.scanBounds start = none → r.scanRaw start stop = .ok []
  scan_some : ∀ start stop first bound, r.scanBounds start = some (first, bound) →
    BlockSafe r.data (scanStep start stop) [] first bound (r.scanRaw start stop)

/-- At every position of the index where a binary search can end behind an entry, the offset of
this entry is not above that of the next one, or the end of the data section if there is none, and
that lies in the data section. -/
def OffsetsInOrder (r : SSTableReader) : Prop :=
  ∀ i, 0 < i → i ≤ r.index.length → BinarySearch.Separates IndexEntry.key r.index i →
    r.offsetAt (i - 1) ≤ r.offsetAt i ∧ r.offsetAt i ≤ r.data.length

end SSTableReader

theorem lt_of_mem_decodeReads (data : Bytes) {i : ℕ} (hi : i ∈ decodeReads data) :
  i < data.length
  := by
  rw [decodeReads] at hi
  split_ifs at hi with hshort hrest
  · simp at hi
  · rw [List.mem_range] at hi
    omega
  · rw [List.mem_range] at hi
    omega

/-- A block that lies in the data section is safe. -/
theorem blockSafe_of_bounds {ρ : Type} {data : Bytes} {body : ρ → DecodedRecord → ForInStep ρ}
    {acc : ρ} {start bound : ℕ} (hordered : start ≤ bound) (hinside : bound ≤ data.length) :
  BlockSafe data body acc start bound (blockOf data start bound >>= forRecords body acc)
  := by
  have hlen : ((data.drop start).take (bound - start)).length = bound - start := by
    rw [List.length_take, List.length_drop]
    omega
  rw [blockOf, if_pos ⟨hordered, hinside⟩]
  constructor
  · exact hordered
  · exact hinside
  · exact ends_forFrames decodeFrame _ body (fun _ _ _ h => exact_decodeFrame.pos h) acc (le_refl _)
  · intro i hi
    have hlt := lt_of_mem_forReads (fun data i => lt_of_mem_decodeReads data) hi
    rw [hlen] at hlt
    omega

namespace SSTableReader

variable {r : SSTableReader}

theorem find_of_findBounds {key : Bytes} {start bound : ℕ}
    (h : r.findBounds key = some (start, bound)) :
  0 < r.upperBound key ∧ start = r.offsetAt (r.upperBound key - 1)
    ∧ bound = r.offsetAt (r.upperBound key)
    ∧ r.find key = (blockOf r.data start bound >>= forRecords (findStep key) none)
  := by
  rw [findBounds] at h
  split_ifs at h with hempty
  simp only [Option.some.injEq, Prod.mk.injEq] at h
  obtain ⟨rfl, rfl⟩ := h
  obtain ⟨hindex, hzero⟩ := not_or.mp hempty
  refine ⟨Nat.pos_of_ne_zero hzero, rfl, rfl, ?_⟩
  rw [find, if_neg hindex, if_neg hzero]

/-- The positions behind an entry where a search of the index can end. -/
theorem exists_upperBound_iff {i : ℕ} (hpos : 0 < i) (hle : i ≤ r.index.length) :
  (∃ key, r.upperBound key = i) ↔ BinarySearch.Separates IndexEntry.key r.index i
  := BinarySearch.exists_upperBound_iff (fun _ _ => decide_eq_true_iff) hpos hle

/-- A search that ends behind an entry ends where the offsets are in order. -/
theorem OffsetsInOrder.upperBound (h : r.OffsetsInOrder) {key : Bytes}
    (hpos : 0 < r.upperBound key) :
  r.offsetAt (r.upperBound key - 1) ≤ r.offsetAt (r.upperBound key)
    ∧ r.offsetAt (r.upperBound key) ≤ r.data.length
  := by
  have hle : r.upperBound key ≤ r.index.length := BinarySearch.upperBound_le_length _ _
  apply h _ hpos hle
  exact (exists_upperBound_iff hpos hle).mp ⟨key, rfl⟩

end SSTableReader

/-- Whatever the keys and offsets of the index of a file are, the lookups stay in bounds exactly
when the offsets are in order wherever a search can end. -/
theorem lookups_inBounds_iff (r : SSTableReader) :
  r.InBounds ↔ r.OffsetsInOrder
  := by
  constructor
  · intro hbounds i hpos hle hsep
    obtain ⟨key, rfl⟩ := (SSTableReader.exists_upperBound_iff hpos hle).mpr hsep
    have hempty : ¬ (r.index = [] ∨ r.upperBound key = 0) := by
      rintro (hindex | hzero)
      · rw [hindex, List.length_nil] at hle
        omega
      · omega
    have hblock := hbounds.find_some key _ _
      (by rw [SSTableReader.findBounds, if_neg hempty])
    exact ⟨hblock.ordered, hblock.inside⟩
  · intro horder
    constructor
    · intro key hnone
      rw [SSTableReader.findBounds] at hnone
      split_ifs at hnone with hempty
      rw [SSTableReader.find]
      split_ifs with hindex hzero
      · rfl
      · rfl
      · exact absurd hempty (not_or.mpr ⟨hindex, hzero⟩)
    · intro key start bound hsome
      obtain ⟨hpos, rfl, rfl, hfind⟩ := SSTableReader.find_of_findBounds hsome
      obtain ⟨hordered, hinside⟩ := horder.upperBound hpos
      rw [hfind]
      exact blockSafe_of_bounds hordered hinside
    · intro start stop hnone
      rw [SSTableReader.scanBounds] at hnone
      split_ifs at hnone with hindex
      rw [SSTableReader.scanRaw, if_pos hindex]
    · intro start stop first bound hsome
      rw [SSTableReader.scanBounds] at hsome
      split_ifs at hsome with hindex hzero
      · simp only [Option.some.injEq, Prod.mk.injEq] at hsome
        obtain ⟨rfl, rfl⟩ := hsome
        rw [SSTableReader.scanRaw, if_neg hindex, if_pos hzero]
        exact blockSafe_of_bounds (Nat.zero_le _) (Nat.le_refl _)
      · simp only [Option.some.injEq, Prod.mk.injEq] at hsome
        obtain ⟨rfl, rfl⟩ := hsome
        obtain ⟨hordered, hinside⟩ := horder.upperBound (Nat.pos_of_ne_zero hzero)
        rw [SSTableReader.scanRaw, if_neg hindex, if_neg hzero]
        exact blockSafe_of_bounds (hordered.trans hinside) (Nat.le_refl _)

/-- In an index with ascending keys a search can end anywhere. -/
theorem offsetsInOrder_iff_of_sorted {r : SSTableReader}
    (h : r.index.Pairwise (fun a b => a.key < b.key)) :
  r.OffsetsInOrder ↔ ∀ i, 0 < i → i ≤ r.index.length →
    r.offsetAt (i - 1) ≤ r.offsetAt i ∧ r.offsetAt i ≤ r.data.length
  := by
  constructor
  · exact fun horder i hpos hle => horder i hpos hle (BinarySearch.separates_of_sorted h i)
  · exact fun hall i hpos hle _ => hall i hpos hle

/-- A file without data, whose index has one entry that points behind the end of the file. -/
def strayOffset : Bytes :=
  encodeIndexEntry ([], 100) ++ encodeFooter 0 12 0

theorem not_lookups_inBounds :
  ¬ ∀ path contents r, SSTableReader.load path contents = .ok r →
    (indexOffsetOf contents).toNat + (indexSizeOf contents).toNat + footerSize = contents.length →
    r.InBounds
  := by
  intro hall
  have hload : SSTableReader.load 1 strayOffset = .ok ⟨1, [], [⟨[], 100⟩], strayOffset⟩ := by
    decide +kernel
  have hbounds := hall 1 strayOffset _ hload (by decide +kernel)
  have hblock := hbounds.find_some [] 100 0 (by decide +kernel)
  exact absurd hblock.ordered (by decide)

end TinyLsm
