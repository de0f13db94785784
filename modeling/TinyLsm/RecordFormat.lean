import TinyLsm.Checksum

/-!
# The record format

What `EncodeRecord` and `DecodeRecord` have to do with each other on all inputs.  A record whose
lengths fit their fields is decoded to itself whatever follows it, and no strict prefix of it
is taken for a record.  Conversely a string that is decoded begins with the encoding of what
was decoded, unless it is a DELETE that carries a value, which no encoding has.  A record that
is damaged in a window of at most four bytes of its checksum, of its type, or of its key
and value is reported as corrupt.
-/

namespace TinyLsm

variable {type : RecordType} {key value data : Bytes}

/-- The lengths `EncodeRecord` writes are not truncated. -/
def FitsRecord (type : RecordType) (key value : Bytes) : Prop :=
  key.length < 2 ^ 32 ∧ (type = .put → value.length < 2 ^ 32)

instance decidableFitsRecord (type : RecordType) (key value : Bytes) :
    Decidable (FitsRecord type key value) :=
  inferInstanceAs (Decidable (_ ∧ (_ → _)))

theorem FitsRecord.stored (h : FitsRecord type key value) :
  (valueToWrite type value).length < 2 ^ 32
  := by
  cases type with
  | put => exact h.2 rfl
  | delete => exact Nat.two_pow_pos 32

/-! ### Encoding, then decoding -/

/-- Only a record whose lengths fit is decoded to itself. -/
theorem fitsRecord_of_decodeRecord {n : ℕ}
    (h : decodeRecord data = .ok ⟨type, key, valueToWrite type value, n⟩) :
  FitsRecord type key value
  := by
  obtain ⟨-, -, hkey, hvalue⟩ := decodeRecord_eq_ok h
  use hkey
  rintro rfl
  exact hvalue

/-- A record is decoded to itself, whatever follows it, exactly when its lengths fit, and then
its strict prefixes are incomplete. -/
theorem decode_encode_iff (type : RecordType) (key value : Bytes) :
  (∀ rest, decodeRecord (encodeRecord type key value ++ rest)
      = .ok
        { type := type
          key := key
          value := if type = .delete then [] else value
          bytesConsumed := (encodeRecord type key value).length }
    ↔ FitsRecord type key value)
  ∧ (FitsRecord type key value → ∀ n, n < (encodeRecord type key value).length →
    decodeRecord ((encodeRecord type key value).take n) = .error .incomplete)
  := by
  constructor
  · intro rest
    constructor
    · intro h
      exact fitsRecord_of_decodeRecord h
    · intro h
      exact decodeRecord_encodeRecord h.1 h.stored rest
  · intro h n hn
    exact decodeRecord_take_encodeRecord h.1 h.stored hn

/-! ### Decoding, then encoding -/

/-- The size of the record at the front of a string, by its header. -/
def recordSize (data : Bytes) : ℕ :=
  headerSize + (getUint32LE (data.drop 5)).toNat + (getUint32LE (data.drop 9)).toNat

/-- The part of that record its checksum covers. -/
def checkedPart (data : Bytes) : Bytes :=
  (data.drop 4).take (recordSize data - 4)

theorem RecordType.byte_ofByte {byte : UInt8} (h : isValidRecordType byte = true) :
  (RecordType.ofByte byte).byte = byte
  := by
  rw [isValidRecordType, decide_eq_true_iff] at h
  rcases h with rfl | rfl
  · rfl
  · rfl

/-- When the string holds the whole record, the checked part is its type, its lengths, its key
and its value. -/
theorem checkedPart_eq (h : recordSize data ≤ data.length) :
  checkedPart data = data.getD 4 0 :: (putUint32LE (getUint32LE (data.drop 5))
    ++ putUint32LE (getUint32LE (data.drop 9))
    ++ (data.drop headerSize).take (getUint32LE (data.drop 5)).toNat
    ++ (data.drop (headerSize + (getUint32LE (data.drop 5)).toNat)).take
      (getUint32LE (data.drop 9)).toNat)
  := by
  have hsize : headerSize = 13 := rfl
  rw [recordSize, hsize] at h
  have hfour : 4 < data.length := by omega
  rw [checkedPart, recordSize, List.drop_eq_getElem_cons hfour, putUint32LE_get, putUint32LE_get,
    List.getD_eq_getElem?_getD, List.getElem?_eq_getElem hfour, Option.getD_some]
  · have hcount : headerSize + (getUint32LE (data.drop 5)).toNat
        + (getUint32LE (data.drop 9)).toNat - 4
        = 4 + 4 + (getUint32LE (data.drop 5)).toNat + (getUint32LE (data.drop 9)).toNat + 1 := by
      omega
    rw [hcount, List.take_succ_cons, List.take_add, List.take_add, List.take_add]
    simp only [List.drop_drop, hsize]
    congr 4
    omega
  · rw [List.length_drop]
    omega
  · rw [List.length_drop]
    omega

/-- What the fields of the record at the front of a string say. -/
def readRecord (data : Bytes) : DecodedRecord where
  type := RecordType.ofByte (data.getD 4 0)
  key := (data.drop headerSize).take (getUint32LE (data.drop 5)).toNat
  value := (data.drop (headerSize + (getUint32LE (data.drop 5)).toNat)).take
    (getUint32LE (data.drop 9)).toNat
  bytesConsumed := recordSize data

theorem decodeRecord_eq (data : Bytes) :
  decodeRecord data
    = if data.length < headerSize then .error .incomplete
      else if data.length < recordSize data then .error .incomplete
      else if crc32 (checkedPart data) ≠ getUint32LE data ∨ ¬ isValidRecordType (data.getD 4 0) then
        .error .corrupt
      else .ok (readRecord data)
  := rfl

theorem decodeRecord_eq_ok_iff {r : DecodedRecord} :
  decodeRecord data = .ok r
    ↔ recordSize data ≤ data.length ∧ crc32 (checkedPart data) = getUint32LE data
      ∧ isValidRecordType (data.getD 4 0) = true ∧ readRecord data = r
  := by
  have hheader : headerSize ≤ recordSize data := by
    rw [recordSize]
    omega
  rw [decodeRecord_eq]
  constructor
  · intro h
    split_ifs at h with hshort htotal hcheck
    obtain ⟨hcrc, htype⟩ : crc32 (checkedPart data) = getUint32LE data
        ∧ isValidRecordType (data.getD 4 0) = true := by
      simpa using hcheck
    exact ⟨not_lt.mp htotal, hcrc, htype, Except.ok.inj h⟩
  · rintro ⟨htotal, hcrc, htype, rfl⟩
    rw [if_neg (by omega), if_neg (by omega), hcrc, htype, if_neg (by simp)]

theorem length_readRecord (h : recordSize data ≤ data.length) :
  (readRecord data).key.length = (getUint32LE (data.drop 5)).toNat
    ∧ (readRecord data).value.length = (getUint32LE (data.drop 9)).toNat
  := by
  rw [recordSize] at h
  simp only [readRecord, List.length_take, List.length_drop]
  omega

/-- What is decoded from the front of a string is encoded there, if it is no DELETE with a
value. -/
theorem take_of_decodeRecord {r : DecodedRecord} (h : decodeRecord data = .ok r)
    (hvalue : valueToWrite r.type r.value = r.value) :
  data.take r.bytesConsumed = encodeRecord r.type r.key r.value
  := by
  obtain ⟨htotal, hcrc, htype, rfl⟩ := decodeRecord_eq_ok_iff.mp h
  obtain ⟨hkeyLen, hvalueLen⟩ := length_readRecord htotal
  have hbody : recordBody (readRecord data).type (readRecord data).key (readRecord data).value
      = checkedPart data := by
    rw [recordBody, hvalue, hkeyLen, hvalueLen, UInt32.ofNat_toNat, UInt32.ofNat_toNat,
      checkedPart_eq htotal, readRecord, RecordType.byte_ofByte htype]
  have hfour : recordSize data = 4 + (recordSize data - 4) := by
    rw [recordSize, headerSize]
    omega
  rw [encodeRecord, hbody, hcrc, putUint32LE_get (by omega), checkedPart, ← List.take_add, ← hfour]
  rfl

/-- The string begins with a whole DELETE record with a matching checksum whose `value_len` is
not 0. -/
def BeginsWithDeletedValue (data : Bytes) : Prop :=
  recordSize data ≤ data.length ∧ data.getD 4 0 = RecordType.delete.byte
    ∧ getUint32LE (data.drop 9) ≠ 0 ∧ crc32 (checkedPart data) = getUint32LE data

/-- The string begins with the encoding of a record whose lengths do not fit. -/
def BeginsWithTruncated (data : Bytes) : Prop :=
  ∃ type key value, ¬ FitsRecord type key value ∧ encodeRecord type key value <+: data

/-- A DELETE is decoded with a value exactly when the string begins with one. -/
theorem beginsWithDeletedValue_iff :
  BeginsWithDeletedValue data
    ↔ ∃ r, decodeRecord data = .ok r ∧ r.type = .delete ∧ r.value ≠ []
  := by
  have hvalue : recordSize data ≤ data.length →
      ((readRecord data).value ≠ [] ↔ getUint32LE (data.drop 9) ≠ 0) := by
    intro htotal
    rw [ne_eq, ← List.length_eq_zero_iff, (length_readRecord htotal).2, ne_eq,
      ← UInt32.toNat_inj]
    rfl
  constructor
  · rintro ⟨htotal, htype, hlen, hcrc⟩
    refine ⟨readRecord data, ?_, ?_, (hvalue htotal).mpr hlen⟩
    · apply decodeRecord_eq_ok_iff.mpr
      refine ⟨htotal, hcrc, ?_, rfl⟩
      rw [htype, isValidRecordType_byte]
    · rw [readRecord, htype, RecordType.ofByte_byte]
  · rintro ⟨r, hdecode, hdelete, hne⟩
    obtain ⟨htotal, hcrc, htype, rfl⟩ := decodeRecord_eq_ok_iff.mp hdecode
    refine ⟨htotal, ?_, (hvalue htotal).mp hne, hcrc⟩
    rw [← RecordType.byte_ofByte htype, ← hdelete]
    rfl

theorem valueToWrite_of_absent (h : type = .delete → value = []) :
  valueToWrite type value = value
  := by
  cases type with
  | put => rfl
  | delete => exact (h rfl).symm

theorem encodeRecord_valueToWrite (type : RecordType) (key value : Bytes) :
  encodeRecord type key (valueToWrite type value) = encodeRecord type key value
  := by
  cases type with
  | put => rfl
  | delete => rfl

/-- What is encoded at the front of a string is decoded, if its lengths fit. -/
theorem decodeRecord_of_take (h : FitsRecord type key value) {n : ℕ} (hn : n ≤ data.length)
    (htake : data.take n = encodeRecord type key value) :
  decodeRecord data = .ok ⟨type, key, valueToWrite type value, n⟩
  := by
  have hlen : n = (encodeRecord type key value).length := by
    rw [← htake, List.length_take, Nat.min_eq_left hn]
  rw [← List.take_append_drop n data, htake, decodeRecord_encodeRecord h.1 h.stored, hlen]

/-- What is decoded is what `EncodeRecord` writes, and all of it, on the strings that begin
neither with a DELETE that carries a value nor with a record whose lengths were truncated. -/
theorem decodes_format_iff (data : Bytes) :
  (∀ type key value n, decodeRecord data = .ok ⟨type, key, value, n⟩
      ↔ n ≤ data.length ∧ data.take n = encodeRecord type key value
        ∧ (type = .delete → value = []))
    ↔ ¬ BeginsWithDeletedValue data ∧ ¬ BeginsWithTruncated data
  := by
  constructor
  · intro h
    constructor
    · intro hdeleted
      obtain ⟨r, hdecode, hdelete, hvalue⟩ := beginsWithDeletedValue_iff.mp hdeleted
      exact hvalue (((h _ _ _ _).mp hdecode).2.2 hdelete)
    · rintro ⟨type, key, value, hfits, hfront⟩
      have htake := (List.prefix_iff_eq_take.mp hfront).symm
      apply hfits
      apply fitsRecord_of_decodeRecord
      apply (h type key (valueToWrite type value) _).mpr
      refine ⟨hfront.length_le, htake.trans (encodeRecord_valueToWrite _ _ _).symm, ?_⟩
      rintro rfl
      rfl
  · rintro ⟨hdeleted, htruncated⟩ type key value n
    constructor
    · intro hdecode
      have hvalue : type = .delete → value = [] := by
        rintro rfl
        by_contra hne
        exact hdeleted (beginsWithDeletedValue_iff.mpr ⟨_, hdecode, rfl, hne⟩)
      exact ⟨(decodeRecord_eq_ok hdecode).1,
        take_of_decodeRecord hdecode (valueToWrite_of_absent hvalue), hvalue⟩
    · rintro ⟨hn, htake, hvalue⟩
      have hfits : FitsRecord type key value := by
        by_contra hfits
        exact htruncated ⟨type, key, value, hfits, htake ▸ List.take_prefix n data⟩
      rw [decodeRecord_of_take hfits hn htake, valueToWrite_of_absent hvalue]

/-- A DELETE of the empty key with a value of one byte. -/
def deletedValue : Bytes :=
  putUint32LE (crc32 [2, 0, 0, 0, 0, 1, 0, 0, 0, 120]) ++ [2, 0, 0, 0, 0, 1, 0, 0, 0, 120]

theorem not_decodes_format :
  ¬ ∀ data type key value n, decodeRecord data = .ok ⟨type, key, value, n⟩
    ↔ n ≤ data.length ∧ data.take n = encodeRecord type key value
  := by
  intro h
  have hdecode : decodeRecord deletedValue = .ok ⟨.delete, [], [120], 14⟩ := by
    decide +kernel
  have htake := ((h _ _ _ _ _).mp hdecode).2
  have hlen := congrArg List.length htake
  revert hlen
  decide +kernel

/-! ### Damaged records -/

/-- The two strings differ, and only inside the window of `width` bytes from `start` on. -/
structure CorruptedIn (record bad : Bytes) (start width : ℕ) : Prop where
  length_eq : bad.length = record.length
  outside : ∀ i, i < start ∨ start + width ≤ i → bad[i]? = record[i]?
  changed : bad ≠ record

/-- The window lies in the checksum, in the type byte, or in the key and the value. -/
def InOneField (start width : ℕ) : Prop :=
  start + width ≤ 4 ∨ (start = 4 ∧ width ≤ 1) ∨ headerSize ≤ start

/-- Up to the window the strings agree. -/
theorem CorruptedIn.take_eq {record bad : Bytes} {start width n : ℕ}
    (h : CorruptedIn record bad start width) (hn : n ≤ start) :
  bad.take n = record.take n
  := by
  apply List.ext_getElem?
  intro i
  rw [List.getElem?_take, List.getElem?_take]
  split_ifs with hi
  · exact h.outside i (.inl (hi.trans_le hn))
  · rfl

/-- Behind the window the strings agree. -/
theorem CorruptedIn.drop_eq {record bad : Bytes} {start width n : ℕ}
    (h : CorruptedIn record bad start width) (hn : start + width ≤ n) :
  bad.drop n = record.drop n
  := by
  apply List.ext_getElem?
  intro i
  rw [List.getElem?_drop, List.getElem?_drop]
  exact h.outside _ (.inr (hn.trans (Nat.le_add_right _ _)))

/-- A window that begins behind the front of the strings is one of what is behind it. -/
theorem CorruptedIn.drop {record bad : Bytes} {start width n : ℕ}
    (h : CorruptedIn record bad start width) (hn : n ≤ start) :
  CorruptedIn (record.drop n) (bad.drop n) (start - n) width
  := by
  constructor
  · rw [List.length_drop, List.length_drop, h.length_eq]
  · intro i hi
    rw [List.getElem?_drop, List.getElem?_drop]
    apply h.outside
    omega
  · intro heq
    apply h.changed
    rw [← List.take_append_drop n bad, h.take_eq hn, heq, List.take_append_drop]

/-- The strings share what is before and what is after the window. -/
theorem CorruptedIn.split {record bad : Bytes} {start width : ℕ}
    (h : CorruptedIn record bad start width) :
  ∃ before w w' after, record = before ++ w ++ after ∧ bad = before ++ w' ++ after
    ∧ before.length = start ∧ w.length = w'.length ∧ w.length ≤ width ∧ w ≠ w'
  := by
  have hsplit : ∀ l : Bytes,
      l = l.take start ++ (l.drop start).take width ++ l.drop (start + width) := by
    intro l
    rw [← List.take_add, List.take_append_drop]
  have hrecord := hsplit record
  have hbad := hsplit bad
  rw [h.take_eq (Nat.le_refl _), h.drop_eq (Nat.le_refl _)] at hbad
  have hne : (record.drop start).take width ≠ (bad.drop start).take width := by
    intro heq
    apply h.changed
    rw [hbad, ← heq, ← hrecord]
  refine ⟨_, _, _, _, hrecord, hbad, ?_, ?_, ?_, hne⟩
  · rw [List.length_take, Nat.min_eq_left]
    by_contra hstart
    apply hne
    rw [List.drop_of_length_le (by omega), List.drop_of_length_le (by rw [h.length_eq]; omega)]
  · simp only [List.length_take, List.length_drop, h.length_eq]
  · rw [List.length_take]
    exact Nat.min_le_left _ _

/-- A record whose lengths tell its size, but whose checksum does not match. -/
theorem decodeRecord_eq_corrupt {checksum body rest : Bytes} (hlen : checksum.length = 4)
    (hsize : recordSize (checksum ++ body ++ rest) = (checksum ++ body).length)
    (hcrc : crc32 body ≠ getUint32LE checksum) :
  decodeRecord (checksum ++ body ++ rest) = .error .corrupt
  := by
  have hheader : headerSize ≤ recordSize (checksum ++ body ++ rest) := by
    rw [recordSize]
    omega
  have hle : recordSize (checksum ++ body ++ rest) ≤ (checksum ++ body ++ rest).length := by
    rw [hsize]
    exact (List.prefix_append (checksum ++ body) rest).length_le
  have hchecked : checkedPart (checksum ++ body ++ rest) = body := by
    rw [checkedPart, hsize, List.append_assoc, List.drop_left' hlen]
    apply List.take_left'
    rw [List.length_append, hlen]
    omega
  have hstored : getUint32LE (checksum ++ body ++ rest) = getUint32LE checksum := by
    have happend : getUint32LE ((checksum ++ (body ++ rest)).drop 0)
        = getUint32LE (checksum.drop 0) := getUint32LE_drop_append _ (by omega)
    rwa [List.drop_zero, List.drop_zero, ← List.append_assoc] at happend
  rw [decodeRecord_eq, if_neg (by omega), if_neg (by omega), hchecked, hstored,
    if_pos (.inl hcrc)]

/-- The size of a record is told by the four bytes behind its type and the four behind these. -/
theorem recordSize_append {checksum bytes : Bytes} (hlen : checksum.length = 4) :
  recordSize (checksum ++ bytes)
    = headerSize + (getUint32LE (bytes.drop 1)).toNat + (getUint32LE (bytes.drop 5)).toNat
  := by
  rw [recordSize, show 5 = 4 + 1 from rfl, show 9 = 4 + 5 from rfl, ← List.drop_drop,
    ← List.drop_drop, List.drop_left' hlen]

theorem recordSize_encodeRecord (h : FitsRecord type key value) (rest : Bytes) :
  recordSize (encodeRecord type key value ++ rest) = (encodeRecord type key value).length
  := by
  rw [recordSize, drop_five_encodeRecord, drop_nine_encodeRecord, getUint32LE_put,
    getUint32LE_put, toNat_ofNat32 h.1, toNat_ofNat32 h.stored, length_encodeRecord]

/-- The length fields are not touched by a change behind the checksum in the type byte, or in
the key and the value. -/
theorem recordSize_congr {checksum before w w' : Bytes} (hlen : checksum.length = 4)
    (hw : w.length = w'.length) (after : Bytes)
    (hfield : (before = [] ∧ w.length = 1) ∨ headerSize ≤ 4 + before.length) :
  recordSize (checksum ++ (before ++ w' ++ after)) = recordSize (checksum ++ (before ++ w ++ after))
  := by
  have hsame : ∀ i, 1 ≤ i → i + 4 ≤ 9 → getUint32LE ((before ++ w' ++ after).drop i)
      = getUint32LE ((before ++ w ++ after).drop i) := by
    intro i hpos hi
    rcases hfield with ⟨rfl, hone⟩ | hbehind
    · have htail : ∀ v : Bytes, v.length = 1 → ([] ++ v ++ after).drop i = after.drop (i - 1) := by
        intro v hv
        rw [List.nil_append, show i = 1 + (i - 1) from by omega, ← List.drop_drop,
          List.drop_left' hv, Nat.add_sub_cancel_left]
      rw [htail w' (hw ▸ hone), htail w hone]
    · rw [headerSize] at hbehind
      rw [List.append_assoc, List.append_assoc, getUint32LE_drop_append _ (by omega),
        getUint32LE_drop_append _ (by omega)]
  rw [recordSize_append hlen, recordSize_append hlen, hsame 1 (by decide) (by decide),
    hsame 5 (by decide) (by decide)]

/-- A record damaged in its checksum. -/
theorem decodeRecord_corrupted_checksum (h : FitsRecord type key value) {checksum : Bytes}
    (hlen : checksum.length = 4) (hne : checksum ≠ putUint32LE (crc32 (recordBody type key value)))
    (rest : Bytes) :
  decodeRecord (checksum ++ recordBody type key value ++ rest) = .error .corrupt
  := by
  apply decodeRecord_eq_corrupt hlen
  · have hsize := recordSize_encodeRecord h rest
    rw [encodeRecord, List.append_assoc, recordSize_append (length_putUint32LE _),
      ← recordSize_append hlen, ← List.append_assoc] at hsize
    rw [hsize, List.length_append, List.length_append, hlen, length_putUint32LE]
  · intro hcrc
    apply hne
    rw [hcrc, putUint32LE_get (Nat.le_of_eq hlen.symm), List.take_of_length_le (Nat.le_of_eq hlen)]

/-- A record damaged behind its checksum, in a window of at most four bytes. -/
theorem decodeRecord_corrupted_body (h : FitsRecord type key value)
    {before w w' after : Bytes} (hbody : recordBody type key value = before ++ w ++ after)
    (hw : w.length = w'.length) (hwidth : w.length ≤ 4) (hne : w ≠ w')
    (hfield : (before = [] ∧ w.length = 1) ∨ headerSize ≤ 4 + before.length) (rest : Bytes) :
  decodeRecord (putUint32LE (crc32 (recordBody type key value)) ++ (before ++ w' ++ after) ++ rest)
    = .error .corrupt
  := by
  apply decodeRecord_eq_corrupt (length_putUint32LE _)
  · have hsize := recordSize_encodeRecord h rest
    have hcongr := recordSize_congr (length_putUint32LE (crc32 (recordBody type key value))) hw
      (after ++ rest) hfield
    simp only [encodeRecord, hbody, List.append_assoc] at hsize hcongr ⊢
    rw [hcongr, hsize]
    simp only [List.length_append, hw]
  · have hstored := getUint32LE_put (crc32 (recordBody type key value)) []
    rw [List.append_nil] at hstored
    rw [hstored, hbody]
    intro hcrc
    exact hne (crc32_burst hw hwidth hcrc.symm)

/-- A record damaged in a window of at most four bytes of one of its fields, other than the
lengths, is reported as corrupt, whatever follows it. -/
theorem decodeRecord_corrupted {type : RecordType} {key value bad : Bytes} {start width : ℕ}
    (hkey : key.length < 2 ^ 32) (hvalue : value.length < 2 ^ 32)
    (hbad : CorruptedIn (encodeRecord type key value) bad start width) (hwidth : width ≤ 4)
    (hfield : InOneField start width) (rest : Bytes) :
  decodeRecord (bad ++ rest) = .error .corrupt
  := by
  have hfits : FitsRecord type key value := ⟨hkey, fun _ => hvalue⟩
  have htake : (encodeRecord type key value).take 4
      = putUint32LE (crc32 (recordBody type key value)) :=
    List.take_left' (length_putUint32LE _)
  have hdrop : (encodeRecord type key value).drop 4 = recordBody type key value :=
    List.drop_left' (length_putUint32LE _)
  rw [← List.take_append_drop 4 bad]
  by_cases hchecksum : start + width ≤ 4
  · -- The window lies in the checksum, and what follows it is as it was.
    rw [hbad.drop_eq hchecksum, hdrop]
    apply decodeRecord_corrupted_checksum hfits
    · have hlong := length_encodeRecord type key value
      rw [List.length_take, hbad.length_eq, hlong, headerSize]
      omega
    · intro heq
      apply hbad.changed
      rw [← List.take_append_drop 4 bad, heq, hbad.drop_eq hchecksum, hdrop, encodeRecord]
  · -- The window lies behind the checksum, which is as it was.
    have hbehind : 4 ≤ start := by
      simp only [InOneField, headerSize] at hfield
      omega
    obtain ⟨before, w, w', after, hbody, hbad', hstart, hlen, hle, hne⟩ := (hbad.drop hbehind).split
    have hpos : w.length ≠ 0 := by
      intro hzero
      apply hne
      rw [List.length_eq_zero_iff.mp hzero, List.length_eq_zero_iff.mp (hlen.symm.trans hzero)]
    rw [hdrop] at hbody
    rw [hbad.take_eq hbehind, htake, hbad']
    apply decodeRecord_corrupted_body hfits hbody hlen (hle.trans hwidth) hne
    rw [InOneField, headerSize] at hfield
    rcases hfield with hfield | hfield | hfield
    · omega
    · left
      use List.length_eq_zero_iff.mp (by omega)
      omega
    · right
      rw [headerSize]
      omega

/-- A record whose key was damaged, with two bytes behind it. -/
theorem decodeRecord_corrupted_key :
  decodeRecord ((encodeRecord .put [107] [118]).set 13 120 ++ [0, 1]) = .error .corrupt
  := by
  have hbad : CorruptedIn (encodeRecord .put [107] [118])
      ((encodeRecord .put [107] [118]).set 13 120) 13 1 := by
    constructor
    · exact List.length_set
    · intro i hi
      apply List.getElem?_set_ne
      omega
    · decide +kernel
  exact decodeRecord_corrupted (by decide) (by decide) hbad (by decide) (.inr (.inr (by decide)))
    [0, 1]

end TinyLsm
