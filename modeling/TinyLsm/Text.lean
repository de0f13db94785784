import Mathlib.Data.List.TakeWhile
import TinyLsm.FileNames

/-!
# Text

Characters and decimal numbers of the standard library's text functions, as the tools read and write
them.
-/

namespace TinyLsm

/-- The character that ends a line. -/
def newline : UInt8 := 10

/-- The characters of a text of the source. -/
def chars (text : String) : Bytes :=
  text.toList.map Char.toUInt8

/-- `std::isspace`, in the C locale. -/
def isSpace (c : UInt8) : Bool :=
  c == 32 || (9 ≤ c && c ≤ 13)

/-- `std::to_string`, of a number that is not negative. -/
def toText (n : ℕ) : Bytes :=
  (Numeral.numeral 10 1 n).map digitChar

/-- The value of the digits of `std::stoi`, with their sign, if it is an `int`. -/
def toInt (negative : Bool) (digits : Bytes) : Option ℤ :=
  if digits.isEmpty then none
  else
    let value : ℤ := Numeral.value 10 (digits.map digitValue)
    let signed := if negative then -value else value
    if -2 ^ 31 ≤ signed ∧ signed < 2 ^ 31 then some signed else none

/-- `std::stoi`: white space, a sign, and as many digits as there are; none when it throws. -/
def stoi (text : Bytes) : Option ℤ :=
  match text.dropWhile isSpace with
  | [] => none
  | c :: cs =>
      if c = 45 then toInt true (cs.takeWhile isDigit)
      else if c = 43 then toInt false (cs.takeWhile isDigit)
      else toInt false ((c :: cs).takeWhile isDigit)

theorem isDigit_of_mem_toText {n : ℕ} {c : UInt8} (h : c ∈ toText n) :
  isDigit c = true
  := by
  obtain ⟨d, hd, rfl⟩ := List.mem_map.mp h
  exact isDigit_digitChar (Numeral.lt_of_mem_numeral (by decide) hd)

theorem toText_ne_nil (n : ℕ) :
  toText n ≠ []
  := by
  rw [toText, ne_eq, List.map_eq_nil_iff, ← List.length_eq_zero_iff, Numeral.length_numeral]
  omega

theorem newline_notMem_toText (n : ℕ) :
  newline ∉ toText n
  := by
  intro h
  exact absurd (isDigit_of_mem_toText h) (by decide)

theorem length_toText_le {n : ℕ} (h : n < 2 ^ 31) :
  (toText n).length ≤ 10
  := by
  rw [toText, List.length_map]
  exact Numeral.length_numeral_le (by decide) (by decide) (h.trans (by decide))

/-- A number that is printed and read again. -/
theorem stoi_toText {n : ℕ} (h : n < 2 ^ 31) :
  stoi (toText n) = some (n : ℤ)
  := by
  have hall : ∀ c ∈ toText n, isDigit c = true := fun c hc => isDigit_of_mem_toText hc
  have hvalue : Numeral.value 10 ((toText n).map digitValue) = n := by
    rw [toText, map_digitValue_map_digitChar
      (fun d hd => Numeral.lt_of_mem_numeral (by decide) hd), Numeral.value_numeral]
  cases htext : toText n with
  | nil => exact absurd htext (toText_ne_nil n)
  | cons c cs =>
      rw [htext] at hall hvalue
      have hc := bounds_of_isDigit (hall c List.mem_cons_self)
      have hspace : isSpace c = false := by
        rw [isSpace, Bool.or_eq_false_iff, Bool.and_eq_false_iff]
        refine ⟨?_, Or.inr ?_⟩
        · simp only [beq_eq_false_iff_ne, ne_eq]
          rintro rfl
          simp at hc
        · simp only [decide_eq_false_iff_not, UInt8.le_iff_toNat_le, not_le]
          exact Nat.lt_of_lt_of_le (by decide) hc.1
      rw [stoi, List.dropWhile_cons_of_neg (by simp [hspace])]
      have hsigns : c ≠ 45 ∧ c ≠ 43 := by
        constructor
        · rintro rfl
          simp at hc
        · rintro rfl
          simp at hc
      simp only [hsigns.1, hsigns.2, if_false]
      rw [List.takeWhile_eq_self_iff.mpr hall, toInt]
      simp only [List.isEmpty_cons, Bool.false_eq_true, if_false, hvalue]
      rw [if_pos]
      constructor
      · omega
      · exact_mod_cast h

end TinyLsm
