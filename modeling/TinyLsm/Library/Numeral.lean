import Mathlib.Data.Nat.Digits.Lemmas

/-!
# Numerals of a minimal width

The digits of a number in a base, most significant first, padded with zeros to a width, and the
value of a list of digits.  Every number is the value of its numeral; a list of digits is the
numeral of its value when it is neither too short nor padded beyond the width
(`numeral_value_iff`).
-/

namespace Numeral

variable {b : ℕ}

/-- The value of a list of digits. -/
def value (b : ℕ) (digits : List ℕ) : ℕ :=
  Nat.ofDigits b digits.reverse

/-- The digits of a number, with zeros in front up to the width. -/
def numeral (b width n : ℕ) : List ℕ :=
  List.replicate (width - (Nat.digits b n).length) 0 ++ (Nat.digits b n).reverse

/-- No digits are missing, and there is no zero in front that the width does not ask for. -/
def Canonical (width : ℕ) (digits : List ℕ) : Prop :=
  width ≤ digits.length ∧ (width < digits.length → digits.head? ≠ some 0)

instance (width : ℕ) (digits : List ℕ) : Decidable (Canonical width digits) :=
  inferInstanceAs (Decidable (_ ∧ _))

theorem length_numeral (width n : ℕ) :
  (numeral b width n).length = max width (Nat.digits b n).length
  := by
  rw [numeral, List.length_append, List.length_replicate, List.length_reverse]
  omega

theorem value_numeral (width n : ℕ) :
  value b (numeral b width n) = n
  := by
  rw [value, numeral, List.reverse_append, List.reverse_reverse, List.reverse_replicate,
    Nat.ofDigits_append_replicate_zero, Nat.ofDigits_digits]

theorem lt_of_mem_numeral (hb : 1 < b) {width n d : ℕ} (hd : d ∈ numeral b width n) :
  d < b
  := by
  rw [numeral, List.mem_append] at hd
  obtain hd | hd := hd
  · rw [List.eq_of_mem_replicate hd]
    omega
  · exact Nat.digits_lt_base hb (List.mem_reverse.mp hd)

/-- A number below a power of the base has few digits. -/
theorem length_numeral_le (hb : 1 < b) {width k n : ℕ} (hwidth : width ≤ k) (hn : n < b ^ k) :
  (numeral b width n).length ≤ k
  := by
  rw [length_numeral]
  exact max_le hwidth ((Nat.digits_length_le_iff hb n).mpr hn)

theorem value_lt_pow (hb : 1 < b) {digits : List ℕ} (hlt : ∀ d ∈ digits, d < b) :
  value b digits < b ^ digits.length
  := by
  rw [value, ← List.length_reverse]
  exact Nat.ofDigits_lt_base_pow_length hb (fun d hd => hlt d (List.mem_reverse.mp hd))

/-- A canonical list of digits is as long as the numeral of its value. -/
theorem Canonical.length_numeral (hb : 1 < b) {width : ℕ} {digits : List ℕ}
    (h : Canonical width digits) (hlt : ∀ d ∈ digits, d < b) :
  (numeral b width (value b digits)).length = digits.length
  := by
  rw [Numeral.length_numeral]
  have hle := (Nat.digits_length_le_iff hb _).mpr (value_lt_pow hb hlt)
  obtain heq | hlong := h.1.eq_or_lt
  · omega
  · -- Without a zero in front, the digits are those of their value.
    have hdigits : Nat.digits b (value b digits) = digits.reverse := by
      apply Nat.digits_ofDigits b hb
      · exact fun d hd => hlt d (List.mem_reverse.mp hd)
      · intro hne hlast
        apply h.2 hlong
        rw [← hlast, List.getLast_reverse, List.head?_eq_some_head]
    rw [hdigits, List.length_reverse]
    omega

/-- The numeral of a number is canonical. -/
theorem canonical_numeral (width n : ℕ) :
  Canonical width (numeral b width n)
  := by
  constructor
  · rw [length_numeral]
    omega
  · intro hlong hzero
    rw [length_numeral] at hlong
    have hdigits : Nat.digits b n ≠ [] := by
      rw [← List.length_pos_iff]
      omega
    have hpad : width - (Nat.digits b n).length = 0 := by omega
    rw [numeral, hpad, List.replicate_zero, List.nil_append, List.head?_reverse,
      List.getLast?_eq_some_getLast hdigits, Option.some.injEq] at hzero
    exact Nat.getLast_digit_ne_zero b (Nat.digits_ne_nil_iff_ne_zero.mp hdigits) hzero

/-- The lists of digits that are the numeral of their value. -/
theorem numeral_value_iff (hb : 1 < b) {width : ℕ} {digits : List ℕ} (hlt : ∀ d ∈ digits, d < b) :
  numeral b width (value b digits) = digits ↔ Canonical width digits
  := by
  constructor
  · intro h
    rw [← h]
    apply canonical_numeral
  · intro h
    apply List.reverse_injective
    apply Nat.ofDigits_inj_of_len_eq hb
    · rw [List.length_reverse, List.length_reverse, h.length_numeral hb hlt]
    · exact fun d hd => lt_of_mem_numeral hb (List.mem_reverse.mp hd)
    · exact fun d hd => hlt d (List.mem_reverse.mp hd)
    · exact value_numeral width (value b digits)

end Numeral
