import Mathlib.Data.List.Basic
import Mathlib.Data.Nat.Bitwise
import Mathlib.Data.UInt

/-!
# Shift registers

A register takes in a symbol by drawing an index from its state and the symbol, and moving on
by the index.  `Agree k` says of two states that they agree but for the `k` symbols that are
shifted out next; a state after a move determines the index and, but for one symbol more, the
state before, as long as the register holds that many symbols.

Two inputs no longer than the register, taken in from one state, lead to different states
(`window_injective`), and whatever is taken in afterwards, the states remain different
(`fold_injective`).
-/

/-- A register of `width` symbols. -/
structure ShiftRegister (σ β ι : Type*) where
  width : ℕ
  index : σ → β → ι
  next : σ → ι → σ
  Agree : ℕ → σ → σ → Prop
  agree_zero : ∀ {s s'}, Agree 0 s s' ↔ s = s'
  index_injective : ∀ {s b b'}, index s b = index s b' → b = b'
  /-- The symbol a move shifts out is seen in the index. -/
  eq_of_index : ∀ {s s' b}, index s b = index s' b → Agree 1 s s' → s = s'
  forward : ∀ {k s s'} (i), Agree (k + 1) s s' → Agree k (next s i) (next s' i)
  back : ∀ {k s s' i i'}, k < width → Agree k (next s i) (next s' i') → i = i' ∧ Agree (k + 1) s s'

namespace ShiftRegister

variable {σ β ι : Type*} (r : ShiftRegister σ β ι)

/-- Take in a symbol. -/
def step (s : σ) (b : β) : σ :=
  r.next s (r.index s b)

/-- The indices drawn while a list of symbols is taken in. -/
def indices (s : σ) : List β → List ι
  | [] => []
  | b :: bs => r.index s b :: indices (r.step s b) bs

/-- The symbol and the state after it determine the state before. -/
theorem step_injective (hwidth : 0 < r.width) {s s' : σ} {b : β}
    (h : r.step s b = r.step s' b) :
  s = s'
  := by
  obtain ⟨hindex, hagree⟩ := r.back hwidth (r.agree_zero.mpr h)
  exact r.eq_of_index hindex hagree

theorem fold_injective (hwidth : 0 < r.width) {s s' : σ} {bs : List β}
    (h : bs.foldl r.step s = bs.foldl r.step s') :
  s = s'
  := by
  induction bs generalizing s s' with
  | nil => exact h
  | cons b bs ih =>
      apply r.step_injective hwidth (b := b)
      exact ih h

/-- States that agree but for `k` symbols have drawn the same indices in the moves that shifted
out the symbols before. -/
theorem indices_eq {s s' : σ} {bs bs' : List β} {k : ℕ} (hlen : bs.length = bs'.length)
    (hwidth : k + bs.length ≤ r.width) (h : r.Agree k (bs.foldl r.step s) (bs'.foldl r.step s')) :
  r.indices s bs = r.indices s' bs' ∧ r.Agree (k + bs.length) s s'
  := by
  induction bs generalizing s s' bs' with
  | nil =>
      obtain rfl := List.length_eq_zero_iff.mp hlen.symm
      exact ⟨rfl, h⟩
  | cons b bs ih =>
      cases bs' with
      | nil => simp at hlen
      | cons b' bs' =>
          rw [List.length_cons] at hwidth
          have hrest : r.Agree k (bs.foldl r.step (r.step s b)) (bs'.foldl r.step (r.step s' b')) :=
            h
          obtain ⟨hindices, hagree⟩ := ih (by simpa using hlen) (by omega) hrest
          obtain ⟨hindex, hagree⟩ := r.back (by omega) hagree
          constructor
          · rw [indices, indices, hindex, hindices]
          · exact hagree

/-- From one state, the indices determine the symbols. -/
theorem eq_of_indices {s : σ} {bs bs' : List β} (h : r.indices s bs = r.indices s bs') :
  bs = bs'
  := by
  induction bs generalizing s bs' with
  | nil =>
      cases bs' with
      | nil => rfl
      | cons b' bs' => simp [indices] at h
  | cons b bs ih =>
      cases bs' with
      | nil => simp [indices] at h
      | cons b' bs' =>
          obtain ⟨hindex, hindices⟩ := List.cons.inj h
          obtain rfl := r.index_injective hindex
          rw [ih hindices]

/-- States that agree but for as many symbols as are taken in, and draw the same indices, are
the same. -/
theorem state_eq_of_indices (hpos : 0 < r.width) {s s' : σ} {bs : List β}
    (hagree : r.Agree bs.length s s') (h : r.indices s bs = r.indices s' bs) :
  s = s'
  := by
  apply @fold_injective _ _ _ r hpos s s' bs
  induction bs generalizing s s' with
  | nil => exact r.agree_zero.mp hagree
  | cons b bs ih =>
      obtain ⟨hindex, hindices⟩ := List.cons.inj h
      apply ih _ hindices
      rw [step, step, hindex]
      exact r.forward _ hagree

/-- Different inputs of one length that the register holds lead to different states. -/
theorem window_injective {s : σ} {bs bs' : List β} (hlen : bs.length = bs'.length)
    (hwidth : bs.length ≤ r.width) (h : bs.foldl r.step s = bs'.foldl r.step s) :
  bs = bs'
  := by
  obtain ⟨hindices, -⟩ := r.indices_eq hlen (by omega) (r.agree_zero.mpr h)
  exact r.eq_of_indices hindices

/-- Inputs that differ in a window the register holds lead to different states. -/
theorem burst_injective (hpos : 0 < r.width) {s : σ} {before w w' after : List β}
    (hlen : w.length = w'.length) (hwidth : w.length ≤ r.width)
    (h : (before ++ w ++ after).foldl r.step s = (before ++ w' ++ after).foldl r.step s) :
  w = w'
  := by
  simp only [List.foldl_append] at h
  exact r.window_injective hlen hwidth (r.fold_injective hpos h)

/-! ### Words -/

theorem toNat_xor_shift (e s : UInt32) (w : ℕ) :
  (e ^^^ UInt32.ofNat (s.toNat >>> w)).toNat = e.toNat ^^^ s.toNat >>> w
  := by
  have hlt : s.toNat >>> w < 2 ^ 32 := (Nat.shiftRight_le _ _).trans_lt s.toNat_lt
  rw [UInt32.toNat_xor, UInt32.toNat_ofNat_of_lt' hlt]

theorem ofNat_shiftRight (s w : UInt32) (hw : w.toNat < 32) :
  UInt32.ofNat (s.toNat >>> w.toNat) = s >>> w
  := by
  apply UInt32.toNat_inj.mp
  rw [UInt32.toNat_ofNat_of_lt' ((Nat.shiftRight_le _ _).trans_lt s.toNat_lt),
    UInt32.toNat_shiftRight, Nat.mod_eq_of_lt hw]

/-- A word of `n` symbols of `w` bits.  A move shifts out the low symbol and adds the entry
that the index selects; the entries are told apart by their high symbols. -/
def ofTable (w n : ℕ) (hn : w * n = 32) (entry : ι → UInt32) (index : UInt32 → β → ι)
    (hentry : ∀ {i j}, (entry i).toNat >>> (32 - w) = (entry j).toNat >>> (32 - w) → i = j)
    (hsymbol : ∀ {s b b'}, index s b = index s b' → b = b')
    (hlow : ∀ {s s' b}, index s b = index s' b → s.toNat % 2 ^ w = s'.toNat % 2 ^ w) :
    ShiftRegister UInt32 β ι where
  width := n
  index := index
  next s i := entry i ^^^ UInt32.ofNat (s.toNat >>> w)
  Agree k s s' := s.toNat >>> (w * k) = s'.toNat >>> (w * k)
  agree_zero := by
    intro s s'
    rw [Nat.mul_zero, Nat.shiftRight_zero, Nat.shiftRight_zero, UInt32.toNat_inj]
  index_injective := hsymbol
  eq_of_index := by
    intro s s' b h hagree
    rw [Nat.mul_one, Nat.shiftRight_eq_div_pow, Nat.shiftRight_eq_div_pow] at hagree
    apply UInt32.toNat_inj.mp
    rw [← Nat.div_add_mod s.toNat (2 ^ w), hagree, hlow h, Nat.div_add_mod]
  forward := by
    intro k s s' i h
    rw [Nat.mul_add_one, Nat.add_comm, Nat.shiftRight_add, Nat.shiftRight_add] at h
    rw [toNat_xor_shift, toNat_xor_shift, Nat.shiftRight_xor_distrib, Nat.shiftRight_xor_distrib, h]
  back := by
    intro k s s' i i' hk h
    rw [toNat_xor_shift, toNat_xor_shift] at h
    -- The high symbol after the move is that of the entry.
    have hhigh : ∀ (e u : UInt32), (e.toNat ^^^ u.toNat >>> w) >>> (32 - w) = e.toNat >>> (32 - w) := by
      intro e u
      have hzero : u.toNat >>> w >>> (32 - w) = 0 := by
        rw [← Nat.shiftRight_add, Nat.shiftRight_eq_div_pow]
        apply Nat.div_eq_of_lt
        apply u.toNat_lt.trans_le
        apply Nat.pow_le_pow_right
        · decide
        · omega
      rw [Nat.shiftRight_xor_distrib, hzero, Nat.xor_zero]
    have hsplit : 32 - w = w * k + (32 - w - w * k) := by
      have hle : w * (k + 1) ≤ w * n := Nat.mul_le_mul_left w hk
      rw [Nat.mul_add_one] at hle
      omega
    obtain rfl : i = i' := by
      apply hentry
      rw [← hhigh (entry i) s, ← hhigh (entry i') s', hsplit, Nat.shiftRight_add, h,
        Nat.shiftRight_add]
    refine ⟨rfl, ?_⟩
    rw [Nat.shiftRight_xor_distrib, Nat.shiftRight_xor_distrib] at h
    rw [Nat.mul_add_one, Nat.add_comm, Nat.shiftRight_add, Nat.shiftRight_add]
    exact Nat.xor_right_injective h

end ShiftRegister
