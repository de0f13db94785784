import TinyLsm.WalRecord
import TinyLsm.Library.ShiftRegister

/-!
# The checksum as a shift register

`MakeCrc32Table` shifts out the bits of an index one by one, and `Crc32` the bytes of the
checksum, each time adding a word that the bits shifted out select.  The words are told apart by
their high bits, so both are shift registers (`crcBits`, `crcBytes`), and two strings that
differ in a window of at most four bytes have different checksums (`crc32_burst`).  Byte by byte
with the table is the same as bit by bit without it (`crc32_eq_ieeeCrc32`).
-/

namespace TinyLsm

/-! ### The bits of a table entry -/

/-- The word that is added when a bit is shifted out. -/
def crcPolynomial (bit : Bool) : UInt32 :=
  if bit then 0xEDB88320 else 0

/-- The checksum as a register of bits.  The loop of `MakeCrc32Table` takes in zeros. -/
def crcBits : ShiftRegister UInt32 Bool Bool :=
  .ofTable 1 32 rfl crcPolynomial (fun crc bit => crc.toNat.testBit 0 ^^ bit)
    (by
      intro i j h
      revert i j
      decide)
    (by
      intro s b b' h
      exact Bool.xor_right_inj.mp h)
    (by
      intro s s' b h
      have hbit := Bool.xor_left_inj.mp h
      simp only [Nat.testBit_zero] at hbit
      have hmod := decide_eq_decide.mp hbit
      omega)

theorem crc32Bit_eq (crc : UInt32) :
  crc32Bit crc = crcBits.step crc false
  := by
  have hshift : UInt32.ofNat (crc.toNat >>> 1) = crc >>> 1 :=
    ShiftRegister.ofNat_shiftRight crc 1 (by decide)
  have hbit : (crc &&& 1 ≠ 0) ↔ crc.toNat.testBit 0 = true := by
    rw [ne_eq, ← UInt32.toNat_inj, UInt32.toNat_and, Nat.testBit_zero]
    change ¬ crc.toNat &&& 1 = 0 ↔ _
    rw [Nat.and_one_is_mod]
    simp
  change crc32Bit crc = crcPolynomial (crc.toNat.testBit 0 ^^ false)
    ^^^ UInt32.ofNat (crc.toNat >>> 1)
  rw [crc32Bit, hshift, Bool.xor_false, crcPolynomial]
  by_cases h : crc.toNat.testBit 0 = true
  · rw [if_pos (hbit.mpr h), if_pos h, UInt32.xor_comm]
  · rw [if_neg (fun hne => h (hbit.mp hne)), if_neg h, UInt32.zero_xor]

theorem crc32Bit_iterate (n : ℕ) (crc : UInt32) :
  crc32Bit^[n] crc = (List.replicate n false).foldl crcBits.step crc
  := by
  induction n generalizing crc with
  | zero => rfl
  | succ n ih =>
      rw [Function.iterate_succ_apply, ih, crc32Bit_eq, List.replicate_succ, List.foldl_cons]

/-- The table entry a byte selects. -/
def crcEntry (i : UInt8) : UInt32 :=
  makeCrc32Table.getD i.toNat 0

theorem crcEntry_eq (i : UInt8) :
  crcEntry i = (List.replicate 8 false).foldl crcBits.step i.toUInt32
  := by
  have hword : i.toNat.toUInt32 = i.toUInt32 := by
    apply UInt32.toNat_inj.mp
    rw [UInt8.toNat_toUInt32]
    exact UInt32.toNat_ofNat_of_lt' (i.toNat_lt.trans (by decide))
  have hget : ∀ (f : ℕ → UInt32) (n k : ℕ), k < n → ((List.range n).map f).getD k 0 = f k := by
    intro f n k hk
    rw [List.getD_eq_getElem?_getD, List.getElem?_map, List.getElem?_range hk, Option.map_some,
      Option.getD_some]
  rw [← crc32Bit_iterate, ← hword]
  exact hget _ _ _ i.toNat_lt

/-- The high bytes of the table entries are different. -/
theorem crcEntry_injective {i j : UInt8}
    (h : (crcEntry i).toNat >>> 24 = (crcEntry j).toNat >>> 24) :
  i = j
  := by
  rw [crcEntry_eq, crcEntry_eq] at h
  have hagree : crcBits.Agree 24 ((List.replicate 8 false).foldl crcBits.step i.toUInt32)
      ((List.replicate 8 false).foldl crcBits.step j.toUInt32) := by
    change _ >>> (1 * 24) = _ >>> (1 * 24)
    exact h
  obtain ⟨hindices, -⟩ := crcBits.indices_eq rfl (by decide) hagree
  have hbytes : crcBits.Agree (List.replicate 8 false).length i.toUInt32 j.toUInt32 := by
    have hzero : ∀ b : UInt8, b.toUInt32.toNat >>> 8 = 0 := by
      intro b
      rw [UInt8.toNat_toUInt32, Nat.shiftRight_eq_div_pow]
      exact Nat.div_eq_of_lt b.toNat_lt
    exact (hzero i).trans (hzero j).symm
  have hwords := crcBits.state_eq_of_indices (by decide) hbytes hindices
  apply UInt8.toNat_inj.mp
  rw [← UInt8.toNat_toUInt32, ← UInt8.toNat_toUInt32, hwords]

/-! ### The bytes of the checksum -/

/-- The checksum as a register of bytes. -/
def crcBytes : ShiftRegister UInt32 UInt8 UInt8 :=
  .ofTable 8 4 rfl crcEntry (fun crc byte => crc.toUInt8 ^^^ byte)
    crcEntry_injective
    (by
      intro s b b' h
      exact (UInt8.xor_right_inj _).mp h)
    (by
      intro s s' b h
      have hbyte := (UInt8.xor_left_inj _).mp h
      have hmod := congrArg UInt8.toNat hbyte
      rw [UInt32.toNat_toUInt8, UInt32.toNat_toUInt8] at hmod
      exact hmod)

theorem crc32Byte_eq_entry (crc : UInt32) (byte : UInt8) :
  crc32Byte crc byte = crcEntry (crc.toUInt8 ^^^ byte) ^^^ crc >>> 8
  := by
  have hindex : ((crc ^^^ byte.toUInt32) &&& 0xFF).toNat = (crc.toUInt8 ^^^ byte).toNat := by
    have hmask : (0xFF : UInt32).toNat = 2 ^ 8 - 1 := rfl
    rw [UInt32.toNat_and, hmask, Nat.and_two_pow_sub_one_eq_mod, UInt32.toNat_xor,
      UInt8.toNat_toUInt32, UInt8.toNat_xor, UInt32.toNat_toUInt8, Nat.xor_mod_two_pow,
      Nat.mod_eq_of_lt byte.toNat_lt]
  rw [crc32Byte, hindex, crcEntry]

theorem crc32Byte_eq (crc : UInt32) (byte : UInt8) :
  crc32Byte crc byte = crcBytes.step crc byte
  := by
  have hshift : UInt32.ofNat (crc.toNat >>> 8) = crc >>> 8 :=
    ShiftRegister.ofNat_shiftRight crc 8 (by decide)
  rw [crc32Byte_eq_entry, ← hshift]
  rfl

/-- Strings that differ in a window of at most four bytes have different checksums. -/
theorem crc32_burst {before w w' after : Bytes} (hlen : w.length = w'.length)
    (hwidth : w.length ≤ 4)
    (h : crc32 (before ++ w ++ after) = crc32 (before ++ w' ++ after)) :
  w = w'
  := by
  have hstep : crc32Byte = crcBytes.step := by
    funext crc byte
    exact crc32Byte_eq crc byte
  rw [crc32, crc32, UInt32.xor_left_inj, hstep] at h
  exact crcBytes.burst_injective (by decide) hlen hwidth h

/-! ### Bit at a time -/

/-- The bits of a byte, the least significant first. -/
def bitsOf (byte : UInt8) : List Bool :=
  (List.range 8).map byte.toNat.testBit

/-- One step of the reflected CRC-32 of IEEE 802.3: the register is shifted right, and the
polynomial is added if the bit shifted out differs from the bit taken in. -/
def ieeeStep (crc : UInt32) (bit : Bool) : UInt32 :=
  if (crc &&& 1) ^^^ (if bit then 1 else 0) ≠ 0 then (crc >>> 1) ^^^ 0xEDB88320 else crc >>> 1

/-- The CRC-32 of IEEE 802.3, bit by bit. -/
def ieeeCrc32 (data : Bytes) : UInt32 :=
  (data.flatMap bitsOf).foldl ieeeStep 0xFFFFFFFF ^^^ 0xFFFFFFFF

theorem crcBits_step (crc : UInt32) (bit : Bool) :
  crcBits.step crc bit = crcPolynomial (crc.toNat.testBit 0 ^^ bit) ^^^ crc >>> 1
  := by
  have hshift : UInt32.ofNat (crc.toNat >>> 1) = crc >>> 1 :=
    ShiftRegister.ofNat_shiftRight crc 1 (by decide)
  rw [← hshift]
  rfl

theorem and_one_eq (crc : UInt32) :
  crc &&& 1 = if crc.toNat.testBit 0 then 1 else 0
  := by
  apply UInt32.toNat_inj.mp
  rw [UInt32.toNat_and, Nat.testBit_zero]
  change crc.toNat &&& 1 = _
  rw [Nat.and_one_is_mod]
  rcases Nat.mod_two_eq_zero_or_one crc.toNat with h | h
  · simp [h]
  · simp [h]

theorem ieeeStep_eq (crc : UInt32) (bit : Bool) :
  ieeeStep crc bit = crcBits.step crc bit
  := by
  rw [crcBits_step, ieeeStep, and_one_eq]
  cases crc.toNat.testBit 0 with
  | false =>
      cases bit with
      | false => simp [crcPolynomial]
      | true => simp [crcPolynomial, UInt32.xor_comm]
  | true =>
      cases bit with
      | false => simp [crcPolynomial, UInt32.xor_comm]
      | true => simp [crcPolynomial]

/-- Steps are linear in the register and the bit. -/
theorem crcBits_step_xor (s s' : UInt32) (b b' : Bool) :
  crcBits.step (s ^^^ s') (b ^^ b') = crcBits.step s b ^^^ crcBits.step s' b'
  := by
  have hpolynomial : ∀ c c' : Bool,
      crcPolynomial (c ^^ c') = crcPolynomial c ^^^ crcPolynomial c' := by
    decide
  have hswap : ∀ c c' d d' : Bool, ((c ^^ c') ^^ (d ^^ d')) = ((c ^^ d) ^^ (c' ^^ d')) := by
    decide
  have hshift : (s ^^^ s') >>> 1 = s >>> 1 ^^^ s' >>> 1 := by
    apply UInt32.toNat_inj.mp
    simp only [UInt32.toNat_shiftRight, UInt32.toNat_xor, Nat.shiftRight_xor_distrib]
  rw [crcBits_step, crcBits_step, crcBits_step, UInt32.toNat_xor, Nat.testBit_xor, hswap,
    hpolynomial, hshift]
  ac_rfl

theorem crcBits_fold_xor (s s' : UInt32) (f g : ℕ → Bool) (n : ℕ) :
  ((List.range n).map (fun i => f i ^^ g i)).foldl crcBits.step (s ^^^ s')
    = ((List.range n).map f).foldl crcBits.step s ^^^ ((List.range n).map g).foldl crcBits.step s'
  := by
  induction n with
  | zero => rfl
  | succ n ih =>
      simp only [List.range_succ, List.map_append, List.map_singleton, List.foldl_append,
        List.foldl_cons, List.foldl_nil, ih, crcBits_step_xor]

/-- A register that takes in its own bits is only shifted. -/
theorem crcBits_fold_self (s : UInt32) (n : ℕ) :
  (((List.range n).map s.toNat.testBit).foldl crcBits.step s).toNat = s.toNat >>> n
  := by
  induction n generalizing s with
  | zero => rfl
  | succ n ih =>
      have hstep : (crcBits.step s (s.toNat.testBit 0)).toNat = s.toNat >>> 1 := by
        rw [crcBits_step, Bool.xor_self]
        change ((0 : UInt32) ^^^ s >>> 1).toNat = _
        rw [UInt32.zero_xor, UInt32.toNat_shiftRight]
        rfl
      have hbits : (List.range n).map (fun i => s.toNat.testBit (i + 1))
          = (List.range n).map (crcBits.step s (s.toNat.testBit 0)).toNat.testBit := by
        apply List.map_congr_left
        intro i _
        rw [hstep, Nat.testBit_shiftRight, Nat.add_comm]
      rw [List.range_succ_eq_map, List.map_cons, List.foldl_cons, List.map_map]
      change (((List.range n).map (fun i => s.toNat.testBit (i + 1))).foldl crcBits.step _).toNat = _
      rw [hbits, ih, hstep, Nat.add_comm, Nat.shiftRight_add]

/-- A byte taken in bit by bit gives the table entry of the index it selects, and the rest of the
register shifted. -/
theorem fold_bitsOf (crc : UInt32) (byte : UInt8) :
  (bitsOf byte).foldl ieeeStep crc = crc32Byte crc byte
  := by
  have hstep : ieeeStep = crcBits.step := by
    funext s b
    exact ieeeStep_eq s b
  rw [hstep, crc32Byte_eq_entry, crcEntry_eq]
  generalize hindex : crc.toUInt8 ^^^ byte = index
  -- The register is the index and a rest whose low bits are those of the byte.
  let rest := crc ^^^ index.toUInt32
  have hsplit : crc = index.toUInt32 ^^^ rest := by
    rw [UInt32.xor_comm, UInt32.xor_assoc, UInt32.xor_self, UInt32.xor_zero]
  have hbits : bitsOf byte = (List.range 8).map (fun i => false ^^ rest.toNat.testBit i) := by
    apply List.map_congr_left
    intro i hi
    have hlow : crc.toUInt8.toNat.testBit i = crc.toNat.testBit i := by
      rw [UInt32.toNat_toUInt8, Nat.testBit_mod_two_pow, decide_eq_true (List.mem_range.mp hi),
        Bool.true_and]
    rw [Bool.false_xor, UInt32.toNat_xor, Nat.testBit_xor, UInt8.toNat_toUInt32, ← hindex,
      UInt8.toNat_xor, Nat.testBit_xor, hlow, ← Bool.xor_assoc, Bool.xor_self, Bool.false_xor]
  have hzeros : (List.range 8).map (fun _ => false) = List.replicate 8 false := rfl
  have hrest : ((List.range 8).map rest.toNat.testBit).foldl crcBits.step rest = crc >>> 8 := by
    apply UInt32.toNat_inj.mp
    have hhigh : index.toNat >>> 8 = 0 := by
      rw [Nat.shiftRight_eq_div_pow]
      exact Nat.div_eq_of_lt index.toNat_lt
    rw [crcBits_fold_self, UInt32.toNat_xor, UInt8.toNat_toUInt32, Nat.shiftRight_xor_distrib,
      hhigh, Nat.xor_zero, UInt32.toNat_shiftRight]
    rfl
  rw [hbits]
  conv_lhs => rw [hsplit]
  rw [crcBits_fold_xor, hzeros, hrest]

/-- The table-driven checksum is the CRC-32 of IEEE 802.3, computed bit by bit. -/
theorem crc32_eq_ieeeCrc32 (data : Bytes) :
  crc32 data = ieeeCrc32 data
  := by
  have hfold : ∀ crc : UInt32, data.foldl crc32Byte crc = (data.flatMap bitsOf).foldl ieeeStep crc := by
    induction data with
    | nil => exact fun crc => rfl
    | cons byte data ih =>
        intro crc
        rw [List.foldl_cons, List.flatMap_cons, List.foldl_append, fold_bitsOf, ih]
  rw [crc32, ieeeCrc32, hfold]

end TinyLsm
