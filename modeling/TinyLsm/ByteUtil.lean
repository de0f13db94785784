import Mathlib.Data.List.Lex
import Mathlib.Data.UInt
import Mathlib.Order.Basic

/-!
# Byte strings and little-endian integers

A `std::string` is a list of bytes, compared lexicographically by unsigned bytes.  The
fixed-width integers of the file formats are written and read as in `byte_util.h`; reading
back what was written gives the integer, whatever bytes follow.
-/

namespace TinyLsm

instance linearOrderUInt8 : LinearOrder UInt8 where
  le_refl := UInt8.le_refl
  le_trans _ _ _ := UInt8.le_trans
  le_antisymm _ _ := UInt8.le_antisymm
  le_total := UInt8.le_total
  toDecidableLE := inferInstance
  toDecidableLT := inferInstance
  lt_iff_le_not_ge a b := by
    simp only [UInt8.lt_iff_toNat_lt, UInt8.le_iff_toNat_le]
    omega

/-- The contents of a string or of a file. -/
abbrev Bytes := List UInt8

/-- `std::string::max_size()`, which also bounds the offsets of a file. -/
def maxSize : ℕ := 2 ^ 63 - 1

/-- `PutUint32LE`. -/
def putUint32LE (value : UInt32) : Bytes :=
  [(value &&& 0xFF).toUInt8, ((value >>> 8) &&& 0xFF).toUInt8,
    ((value >>> 16) &&& 0xFF).toUInt8, ((value >>> 24) &&& 0xFF).toUInt8]

/-- `GetUint32LE`; its callers have checked that there are four bytes to read. -/
def getUint32LE (bytes : Bytes) : UInt32 :=
  (bytes.getD 0 0).toUInt32 ||| (bytes.getD 1 0).toUInt32 <<< 8
    ||| (bytes.getD 2 0).toUInt32 <<< 16 ||| (bytes.getD 3 0).toUInt32 <<< 24

/-- `PutUint64LE`. -/
def putUint64LE (value : UInt64) : Bytes :=
  (List.range 8).map (fun i => ((value >>> (8 * i.toUInt64)) &&& 0xFF).toUInt8)

/-- `GetUint64LE`; its callers have checked that there are eight bytes to read. -/
def getUint64LE (bytes : Bytes) : UInt64 :=
  (List.range 8).foldl
    (fun value i => value ||| (bytes.getD i 0).toUInt64 <<< (8 * i.toUInt64)) 0

@[simp]
theorem length_putUint32LE (value : UInt32) :
  (putUint32LE value).length = 4
  := rfl

@[simp]
theorem length_putUint64LE (value : UInt64) :
  (putUint64LE value).length = 8
  := by
  simp [putUint64LE]

/-- The bits of the mask of a byte. -/
theorem getLsbD_mask {w : ℕ} (hw : 8 ≤ w) (i : ℕ) :
  (255#w).getLsbD i = decide (i < 8)
  := by
  have hbit : Nat.testBit 255 i = decide (i < 8) := Nat.testBit_two_pow_sub_one 8 i
  rw [BitVec.getLsbD_ofNat, hbit, ← Bool.decide_and]
  apply decide_eq_decide.mpr
  omega

theorem getUint32LE_put (value : UInt32) (rest : Bytes) :
  getUint32LE (putUint32LE value ++ rest) = value
  := by
  simp only [putUint32LE, getUint32LE, List.cons_append, List.nil_append,
    List.getD_cons_zero, List.getD_cons_succ]
  apply UInt32.toBitVec_inj.mp
  apply BitVec.eq_of_getLsbD_eq
  intro i hi
  simp only [UInt32.toBitVec_or, UInt32.toBitVec_shiftLeft, UInt8.toBitVec_toUInt32,
    UInt32.toBitVec_toUInt8, UInt32.toBitVec_and, UInt32.toBitVec_shiftRight,
    UInt32.toBitVec_ofNat, BitVec.getLsbD_or, BitVec.getLsbD_and, BitVec.getLsbD_setWidth,
    BitVec.shiftLeft_eq', BitVec.ushiftRight_eq', BitVec.getLsbD_shiftLeft,
    BitVec.getLsbD_ushiftRight, getLsbD_mask (w := 32) (by decide)]
  grind

/-- The low byte of a word is the byte with the same low bits. -/
theorem toUInt8_mask {value : UInt32} {byte : UInt8}
    (h : ∀ i < 8, value.toBitVec.getLsbD i = byte.toBitVec.getLsbD i) :
  (value &&& 0xFF).toUInt8 = byte
  := by
  have hmask : ∀ i (hi : i < 8), (255#8)[i] = true := by
    decide
  apply UInt8.toBitVec_inj.mp
  apply BitVec.eq_of_getLsbD_eq
  intro i hi
  simp [hmask, hi, h i hi]

/-- The bytes of a word that was read are those that were read. -/
theorem putUint32LE_get {bytes : Bytes} (h : 4 ≤ bytes.length) :
  putUint32LE (getUint32LE bytes) = bytes.take 4
  := by
  obtain ⟨a, b, c, d, rest, rfl⟩ : ∃ a b c d rest, bytes = a :: b :: c :: d :: rest := by
    match bytes, h with
    | a :: b :: c :: d :: rest, _ => exact ⟨a, b, c, d, rest, rfl⟩
  have hbits : ∀ (value shift : UInt32) (byte : UInt8),
      (∀ i < 8, value.toBitVec.getLsbD (shift.toNat % 32 + i) = byte.toBitVec.getLsbD i) →
      ((value >>> shift) &&& 0xFF).toUInt8 = byte := by
    intro value shift byte h
    apply toUInt8_mask
    intro i hi
    simp [h i hi]
  rw [putUint32LE, getUint32LE]
  simp only [List.getD_cons_zero, List.getD_cons_succ, List.take_succ_cons, List.take_zero]
  congr 1
  · apply toUInt8_mask
    intro i hi
    simp
    grind
  congr 1
  · apply hbits
    intro i hi
    simp
    grind
  congr 1
  · apply hbits
    intro i hi
    simp
    grind
  congr 1
  · apply hbits
    intro i hi
    simp
    grind

theorem getUint64LE_put (value : UInt64) (rest : Bytes) :
  getUint64LE (putUint64LE value ++ rest) = value
  := by
  simp only [putUint64LE, getUint64LE, List.range, List.range.loop, List.map_cons, List.map_nil,
    List.foldl_cons, List.foldl_nil, List.cons_append, List.nil_append, List.getD_cons_zero,
    List.getD_cons_succ]
  apply UInt64.toBitVec_inj.mp
  apply BitVec.eq_of_getLsbD_eq
  intro i hi
  simp only [UInt64.toBitVec_or, UInt64.toBitVec_shiftLeft, UInt8.toBitVec_toUInt64,
    UInt64.toBitVec_toUInt8, UInt64.toBitVec_and, UInt64.toBitVec_shiftRight,
    UInt64.toBitVec_ofNat, BitVec.getLsbD_or, BitVec.getLsbD_and, BitVec.getLsbD_setWidth,
    BitVec.shiftLeft_eq', BitVec.ushiftRight_eq', BitVec.getLsbD_shiftLeft,
    BitVec.getLsbD_ushiftRight, getLsbD_mask (w := 64) (by decide)]
  simp
  grind

/-- A word is read from its own bytes, whatever follows them. -/
theorem getUint32LE_drop_append {data : Bytes} (rest : Bytes) {i : ℕ}
    (hi : i + 4 ≤ data.length) :
  getUint32LE ((data ++ rest).drop i) = getUint32LE (data.drop i)
  := by
  have hget : ∀ j, j < 4 → ((data ++ rest).drop i).getD j 0 = (data.drop i).getD j 0 := by
    intro j hj
    simp only [List.getD_eq_getElem?_getD, List.getElem?_drop]
    rw [List.getElem?_append_left (by omega)]
  simp only [getUint32LE]
  rw [hget 0 (by omega), hget 1 (by omega), hget 2 (by omega), hget 3 (by omega)]

theorem getUint32LE_drop_take {data : Bytes} {i n : ℕ} (hi : i + 4 ≤ n)
    (hn : n ≤ data.length) :
  getUint32LE ((data.take n).drop i) = getUint32LE (data.drop i)
  := by
  have hlen : (data.take n).length = n := by
    rw [List.length_take, Nat.min_eq_left hn]
  conv_rhs => rw [← List.take_append_drop n data]
  rw [getUint32LE_drop_append _ (by omega)]

theorem toNat_ofNat32 {n : ℕ} (h : n < 2 ^ 32) :
  (UInt32.ofNat n).toNat = n
  := UInt32.toNat_ofNat_of_lt h

theorem toNat_ofNat64 {n : ℕ} (h : n < 2 ^ 64) :
  (UInt64.ofNat n).toNat = n
  := UInt64.toNat_ofNat_of_lt h

end TinyLsm
