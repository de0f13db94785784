import TinyLsm.ByteUtil
import TinyLsm.Library.Framing

/-!
# Records

The record format of the write-ahead log and of the data section of an SSTable:
`EncodeRecord` and `DecodeRecord` of `wal_record.cpp`, with the table-driven checksum.

An encoded record whose lengths fit their fields is decoded to itself whatever follows it
(`decodeRecord_encodeRecord`), and none of its strict prefixes decodes
(`decodeRecord_take_encodeRecord`).
-/

namespace TinyLsm

/-- `RecordType`. -/
inductive RecordType where
  | put
  | delete
deriving DecidableEq, Repr

/-- The byte `static_cast<char>(type)`. -/
def RecordType.byte : RecordType → UInt8
  | .put => 1
  | .delete => 2

/-- `static_cast<RecordType>(type_byte)`, for a byte `isValidRecordType` accepts. -/
def RecordType.ofByte (byte : UInt8) : RecordType :=
  if byte = RecordType.put.byte then .put else .delete

/-- `IsValidRecordType`. -/
def isValidRecordType (byte : UInt8) : Bool :=
  byte = RecordType.put.byte ∨ byte = RecordType.delete.byte

/-! ### Checksum -/

/-- One round of the loop over the bits in `MakeCrc32Table`. -/
def crc32Bit (crc : UInt32) : UInt32 :=
  if crc &&& 1 ≠ 0 then (crc >>> 1) ^^^ 0xEDB88320 else crc >>> 1

/-- `MakeCrc32Table`. -/
def makeCrc32Table : List UInt32 :=
  (List.range 256).map (fun i => crc32Bit^[8] i.toUInt32)

/-- One round of the loop over the bytes in `Crc32`. -/
def crc32Byte (crc : UInt32) (byte : UInt8) : UInt32 :=
  makeCrc32Table.getD ((crc ^^^ byte.toUInt32) &&& 0xFF).toNat 0 ^^^ (crc >>> 8)

/-- `Crc32`. -/
def crc32 (data : Bytes) : UInt32 :=
  data.foldl crc32Byte 0xFFFFFFFF ^^^ 0xFFFFFFFF

/-! ### Encoding -/

/-- `kHeaderSize`: checksum, type, key length and value length. -/
def headerSize : ℕ := 4 + 1 + 4 + 4

/-- `value_to_write`: a DELETE has no value on disk. -/
def valueToWrite (type : RecordType) (value : Bytes) : Bytes :=
  if type = .delete then [] else value

/-- The part of a record its checksum covers. -/
def recordBody (type : RecordType) (key value : Bytes) : Bytes :=
  type.byte :: (putUint32LE (UInt32.ofNat key.length)
    ++ putUint32LE (UInt32.ofNat (valueToWrite type value).length)
    ++ key ++ valueToWrite type value)

/-- `EncodeRecord`. -/
def encodeRecord (type : RecordType) (key value : Bytes) : Bytes :=
  putUint32LE (crc32 (recordBody type key value)) ++ recordBody type key value

/-! ### Decoding -/

/-- The outcomes of `DecodeStatus` other than `kOk`. -/
inductive DecodeFailure where
  | incomplete
  | corrupt
deriving DecidableEq, Repr

/-- `DecodedRecord`. -/
structure DecodedRecord where
  type : RecordType
  key : Bytes
  value : Bytes
  bytesConsumed : ℕ
deriving DecidableEq, Repr

/-- `DecodeRecord`.  The sum of the header size and two 32-bit lengths does not overflow
a `size_t`. -/
def decodeRecord (data : Bytes) : Except DecodeFailure DecodedRecord :=
  if data.length < headerSize then .error .incomplete
  else
    let storedChecksum := getUint32LE data
    let typeByte := data.getD 4 0
    let keyLen := getUint32LE (data.drop 5)
    let valueLen := getUint32LE (data.drop 9)
    let totalSize := headerSize + keyLen.toNat + valueLen.toNat
    if data.length < totalSize then .error .incomplete
    else
      let body := (data.drop 4).take (totalSize - 4)
      if crc32 body ≠ storedChecksum ∨ ¬ isValidRecordType typeByte then .error .corrupt
      else .ok
        { type := RecordType.ofByte typeByte
          key := (data.drop headerSize).take keyLen.toNat
          value := (data.drop (headerSize + keyLen.toNat)).take valueLen.toNat
          bytesConsumed := totalSize }

/-! ### Encoded records -/

@[simp]
theorem RecordType.ofByte_byte (type : RecordType) :
  RecordType.ofByte type.byte = type
  := by
  cases type with
  | put => rfl
  | delete => rfl

@[simp]
theorem isValidRecordType_byte (type : RecordType) :
  isValidRecordType type.byte = true
  := by
  cases type with
  | put => rfl
  | delete => rfl

theorem length_recordBody (type : RecordType) (key value : Bytes) :
  (recordBody type key value).length = 9 + key.length + (valueToWrite type value).length
  := by
  simp only [recordBody, List.length_cons, List.length_append, length_putUint32LE]
  omega

theorem length_encodeRecord (type : RecordType) (key value : Bytes) :
  (encodeRecord type key value).length
    = headerSize + key.length + (valueToWrite type value).length
  := by
  rw [encodeRecord, List.length_append, length_putUint32LE, length_recordBody, headerSize]
  omega

theorem encodeRecord_ne_nil (type : RecordType) (key value : Bytes) :
  encodeRecord type key value ≠ []
  := by
  apply List.ne_nil_of_length_pos
  rw [length_encodeRecord, headerSize]
  omega

theorem length_valueToWrite_lt {type : RecordType} {value : Bytes} {n : ℕ} (hn : 0 < n)
    (h : value.length < n) :
  (valueToWrite type value).length < n
  := by
  rw [valueToWrite]
  split_ifs with ht
  · exact hn
  · exact h

section Fields

variable (type : RecordType) (key value rest : Bytes)

/-- An encoded record spelt out as its fields. -/
theorem encodeRecord_append :
  encodeRecord type key value ++ rest
    = putUint32LE (crc32 (recordBody type key value)) ++ (type.byte
      :: (putUint32LE (UInt32.ofNat key.length)
        ++ (putUint32LE (UInt32.ofNat (valueToWrite type value).length)
          ++ (key ++ (valueToWrite type value ++ rest)))))
  := by
  simp [encodeRecord, recordBody]

theorem drop_four_encodeRecord :
  (encodeRecord type key value ++ rest).drop 4 = recordBody type key value ++ rest
  := by
  rw [encodeRecord, List.append_assoc]
  apply List.drop_left' (length_putUint32LE _)

theorem drop_five_encodeRecord :
  (encodeRecord type key value ++ rest).drop 5
    = putUint32LE (UInt32.ofNat key.length)
      ++ (putUint32LE (UInt32.ofNat (valueToWrite type value).length)
        ++ (key ++ (valueToWrite type value ++ rest)))
  := by
  rw [show 5 = 4 + 1 from rfl, ← List.drop_drop, drop_four_encodeRecord]
  simp [recordBody]

theorem drop_nine_encodeRecord :
  (encodeRecord type key value ++ rest).drop 9
    = putUint32LE (UInt32.ofNat (valueToWrite type value).length)
      ++ (key ++ (valueToWrite type value ++ rest))
  := by
  rw [show 9 = 5 + 4 from rfl, ← List.drop_drop, drop_five_encodeRecord]
  apply List.drop_left' (length_putUint32LE _)

theorem drop_header_encodeRecord :
  (encodeRecord type key value ++ rest).drop headerSize
    = key ++ (valueToWrite type value ++ rest)
  := by
  rw [show headerSize = 9 + 4 from rfl, ← List.drop_drop, drop_nine_encodeRecord]
  apply List.drop_left' (length_putUint32LE _)

theorem typeByte_encodeRecord :
  (encodeRecord type key value ++ rest).getD 4 0 = type.byte
  := by
  rw [List.getD_eq_getElem?_getD, ← Nat.add_zero 4, ← List.getElem?_drop,
    drop_four_encodeRecord]
  rfl

end Fields

/-- An encoded record is decoded, whatever follows it. -/
theorem decodeRecord_encodeRecord {type : RecordType} {key value : Bytes}
    (hkey : key.length < 2 ^ 32) (hvalue : (valueToWrite type value).length < 2 ^ 32)
    (rest : Bytes) :
  decodeRecord (encodeRecord type key value ++ rest)
    = .ok
      { type := type
        key := key
        value := valueToWrite type value
        bytesConsumed := (encodeRecord type key value).length }
  := by
  have hlen := length_encodeRecord type key value
  have hchecksum : getUint32LE (encodeRecord type key value ++ rest)
      = crc32 (recordBody type key value) := by
    rw [encodeRecord_append]
    apply getUint32LE_put
  have hkeyLen : (getUint32LE ((encodeRecord type key value ++ rest).drop 5)).toNat
      = key.length := by
    rw [drop_five_encodeRecord, getUint32LE_put, toNat_ofNat32 hkey]
  have hvalueLen : (getUint32LE ((encodeRecord type key value ++ rest).drop 9)).toNat
      = (valueToWrite type value).length := by
    rw [drop_nine_encodeRecord, getUint32LE_put, toNat_ofNat32 hvalue]
  have hbody : ((encodeRecord type key value ++ rest).drop 4).take
      (headerSize + key.length + (valueToWrite type value).length - 4)
      = recordBody type key value := by
    rw [drop_four_encodeRecord]
    apply List.take_left'
    rw [length_recordBody, headerSize]
    omega
  rw [decodeRecord]
  simp only [hchecksum, hkeyLen, hvalueLen, hbody, typeByte_encodeRecord, List.length_append,
    hlen]
  rw [if_neg (by omega), if_neg (by omega), if_neg (by simp)]
  congr 2
  · simp
  · rw [drop_header_encodeRecord, List.take_left]
  · rw [← List.drop_drop, drop_header_encodeRecord, List.drop_left, List.take_left]

/-- A strict prefix of an encoded record is reported as incomplete. -/
theorem decodeRecord_take_encodeRecord {type : RecordType} {key value : Bytes}
    (hkey : key.length < 2 ^ 32) (hvalue : (valueToWrite type value).length < 2 ^ 32) {n : ℕ}
    (hn : n < (encodeRecord type key value).length) :
  decodeRecord ((encodeRecord type key value).take n) = .error .incomplete
  := by
  have hlen : ((encodeRecord type key value).take n).length = n := by
    rw [List.length_take]
    omega
  rw [decodeRecord, hlen]
  by_cases hheader : n < headerSize
  · rw [if_pos hheader]
  · -- The header is whole, so its lengths are those of the record.
    have hfields : ∀ i, i + 4 ≤ headerSize →
        getUint32LE (((encodeRecord type key value).take n).drop i)
          = getUint32LE ((encodeRecord type key value).drop i) := by
      intro i hi
      apply getUint32LE_drop_take
      · omega
      · exact hn.le
    have hdrop₅ := drop_five_encodeRecord type key value []
    have hdrop₉ := drop_nine_encodeRecord type key value []
    rw [List.append_nil] at hdrop₅ hdrop₉
    rw [if_neg hheader]
    simp only [hfields 5 (by decide), hfields 9 (by decide), hdrop₅, hdrop₉, getUint32LE_put,
      toNat_ofNat32 hkey, toNat_ofNat32 hvalue]
    rw [if_pos (by rw [length_encodeRecord] at hn; exact hn)]

/-! ### Decoded records -/

/-- What a successful decoding has read. -/
theorem decodeRecord_eq_ok {data : Bytes} {r : DecodedRecord} (h : decodeRecord data = .ok r) :
  r.bytesConsumed ≤ data.length ∧ headerSize ≤ r.bytesConsumed
    ∧ r.key.length < 2 ^ 32 ∧ r.value.length < 2 ^ 32
  := by
  simp only [decodeRecord] at h
  split_ifs at h with hheader htotal hcrc
  obtain rfl := Except.ok.inj h
  have hkey := (getUint32LE (data.drop 5)).toNat_lt
  have hvalue := (getUint32LE (data.drop 9)).toNat_lt
  simp only [List.length_take]
  omega

/-- The decoder reads the size its header tells, and nothing behind it. -/
theorem decodeRecord_append_eq {data : Bytes} (rest : Bytes) (hheader : headerSize ≤ data.length)
    (htotal : headerSize + (getUint32LE (data.drop 5)).toNat
      + (getUint32LE (data.drop 9)).toNat ≤ data.length) :
  decodeRecord (data ++ rest) = decodeRecord data
  := by
  have hsize : headerSize = 13 := rfl
  have hfields : ∀ i, i + 4 ≤ data.length →
      getUint32LE ((data ++ rest).drop i) = getUint32LE (data.drop i) :=
    fun i hi => getUint32LE_drop_append rest hi
  have hchecksum := hfields 0 (by omega)
  simp only [List.drop_zero] at hchecksum
  have htype : (data ++ rest).getD 4 0 = data.getD 4 0 := by
    simp only [List.getD_eq_getElem?_getD]
    rw [List.getElem?_append_left (by omega)]
  have hslice : ∀ i n, i + n ≤ data.length →
      ((data ++ rest).drop i).take n = (data.drop i).take n := by
    intro i n hin
    rw [List.drop_append_of_le_length (by omega),
      List.take_append_of_le_length (by rw [List.length_drop]; omega)]
  have hlong : ∀ n, n ≤ data.length → ¬ (data ++ rest).length < n := by
    intro n hn
    rw [List.length_append]
    omega
  rw [decodeRecord, decodeRecord, if_neg (hlong _ hheader), if_neg (Nat.not_lt.mpr hheader)]
  simp only [hchecksum, hfields 5 (by omega), hfields 9 (by omega), htype]
  rw [if_neg (hlong _ htotal), if_neg (Nat.not_lt.mpr htotal), hslice 4 _ (by omega),
    hslice headerSize _ (by omega), hslice (headerSize + (getUint32LE (data.drop 5)).toNat) _
      (by omega)]

/-- The size of a decoded record is the one its header tells. -/
theorem bytesConsumed_eq {data : Bytes} {r : DecodedRecord} (h : decodeRecord data = .ok r) :
  r.bytesConsumed = headerSize + (getUint32LE (data.drop 5)).toNat
    + (getUint32LE (data.drop 9)).toNat
  := by
  simp only [decodeRecord] at h
  split_ifs at h with hheader htotal hcrc
  obtain rfl := Except.ok.inj h
  rfl

/-- A decoded record is decoded again when more bytes follow it. -/
theorem decodeRecord_append {data : Bytes} {r : DecodedRecord} (h : decodeRecord data = .ok r)
    (rest : Bytes) :
  decodeRecord (data ++ rest) = .ok r
  := by
  obtain ⟨hle, hheader, -⟩ := decodeRecord_eq_ok h
  rw [decodeRecord_append_eq rest (hheader.trans hle) (bytesConsumed_eq h ▸ hle), h]

/-- A record is decoded from its own bytes. -/
theorem decodeRecord_of_append {data rest : Bytes} {r : DecodedRecord}
    (h : decodeRecord (data ++ rest) = .ok r) (hle : r.bytesConsumed ≤ data.length) :
  decodeRecord data = .ok r
  := by
  obtain ⟨-, hheader, -⟩ := decodeRecord_eq_ok h
  have hsize := bytesConsumed_eq h
  simp only [headerSize] at hheader hsize
  rw [getUint32LE_drop_append rest (by omega), getUint32LE_drop_append rest (by omega)] at hsize
  rw [← h, decodeRecord_append_eq rest]
  · simp only [headerSize]
    omega
  · simp only [headerSize]
    omega

/-! ### Frames -/

/-- `DecodeRecord` as the decoder of a framed stream. -/
def decodeFrame (data : Bytes) : Option (DecodedRecord × ℕ) :=
  match decodeRecord data with
  | .ok r => some (r, r.bytesConsumed)
  | .error _ => none

/-- A record to be written. -/
structure Record where
  type : RecordType
  key : Bytes
  value : Bytes
deriving DecidableEq, Repr

/-- The lengths of a record fit the fields they are written to. -/
def Record.InRange (r : Record) : Prop :=
  r.key.length < 2 ^ 32 ∧ r.value.length < 2 ^ 32

instance (r : Record) : Decidable r.InRange :=
  inferInstanceAs (Decidable (_ ∧ _))

/-- `EncodeRecord`. -/
def Record.encode (r : Record) : Bytes :=
  encodeRecord r.type r.key r.value

/-- What `DecodeRecord` returns for an encoded record. -/
def Record.decoded (r : Record) : DecodedRecord where
  type := r.type
  key := r.key
  value := valueToWrite r.type r.value
  bytesConsumed := r.encode.length

/-- The decoder reads a record in range off the front of a stream. -/
theorem Record.reads {r : Record} (h : r.InRange) :
  Framing.Reads decodeFrame Record.encode Record.decoded r
  := by
  constructor
  · apply encodeRecord_ne_nil
  · intro rest
    rw [decodeFrame, Record.encode,
      decodeRecord_encodeRecord h.1 (length_valueToWrite_lt (by decide) h.2)]
    rfl

theorem decodeFrame_eq_some {data : Bytes} {r : DecodedRecord} {n : ℕ} :
  decodeFrame data = some (r, n) ↔ decodeRecord data = .ok r ∧ n = r.bytesConsumed
  := by
  rw [decodeFrame]
  cases decodeRecord data with
  | error e => simp
  | ok r' =>
      simp only [Option.some.injEq, Prod.mk.injEq, Except.ok.injEq]
      constructor
      · rintro ⟨rfl, rfl⟩
        exact ⟨rfl, rfl⟩
      · rintro ⟨rfl, rfl⟩
        exact ⟨rfl, rfl⟩

/-- `DecodeRecord` reads the bytes it reports as consumed. -/
theorem exact_decodeFrame :
  Framing.Exact decodeFrame DecodedRecord.bytesConsumed
  := by
  constructor
  · exact fun h => (decodeFrame_eq_some.mp h).2
  · intro data r n h
    obtain ⟨hdecode, rfl⟩ := decodeFrame_eq_some.mp h
    obtain ⟨-, hheader, -⟩ := decodeRecord_eq_ok hdecode
    simp only [headerSize] at hheader
    omega
  · intro data r n h
    obtain ⟨hdecode, rfl⟩ := decodeFrame_eq_some.mp h
    exact (decodeRecord_eq_ok hdecode).1
  · intro data r n h rest
    obtain ⟨hdecode, hn⟩ := decodeFrame_eq_some.mp h
    exact decodeFrame_eq_some.mpr ⟨decodeRecord_append hdecode rest, hn⟩
  · intro data r n rest h hle
    obtain ⟨hdecode, rfl⟩ := decodeFrame_eq_some.mp h
    exact decodeFrame_eq_some.mpr ⟨decodeRecord_of_append hdecode hle, rfl⟩

/-- A strict prefix of a record in range is no frame. -/
theorem Record.decodeFrame_take {r : Record} (h : r.InRange) {n : ℕ}
    (hn : n < r.encode.length) :
  decodeFrame (r.encode.take n) = none
  := by
  rw [decodeFrame, Record.encode,
    decodeRecord_take_encodeRecord h.1 (length_valueToWrite_lt (by decide) h.2) hn]

example : decodeRecord (encodeRecord .put [107] [118, 49]) = .ok ⟨.put, [107], [118, 49], 16⟩ := by
  decide +kernel

end TinyLsm
