import Mathlib.Data.List.Basic
import Mathlib.Data.List.MinMax

/-!
# Binary search

The halving loop that finds the first element of a list satisfying a predicate, for lists
in which the elements that do not satisfy it come first.  On any list, where the search ends is
determined by the few elements it looks at on the way there (`upperBound_eq_iff`).
-/

namespace BinarySearch

variable {α : Type*}

/-- Search the `len` elements from `first` on, halving the range in each round. -/
def upperBoundFrom (p : α → Bool) (l : List α) : ℕ → ℕ → ℕ → ℕ
  | 0, first, _ => first
  | fuel + 1, first, len =>
      if len = 0 then first
      else
        match l[first + len / 2]? with
        | none => first
        | some a =>
            if p a then upperBoundFrom p l fuel first (len / 2)
            else upperBoundFrom p l fuel (first + len / 2 + 1) (len - len / 2 - 1)

/-- The position of the first element satisfying `p`, or the length of the list. -/
def upperBound (p : α → Bool) (l : List α) : ℕ :=
  upperBoundFrom p l l.length 0 l.length

theorem upperBoundFrom_eq {p : α → Bool} {as bs : List α} (has : ∀ a ∈ as, p a = false)
    (hbs : ∀ b ∈ bs, p b = true) {fuel first len : ℕ} (hfuel : len ≤ fuel)
    (hfirst : first ≤ as.length) (hlast : as.length ≤ first + len)
    (hlen : first + len ≤ (as ++ bs).length) :
  upperBoundFrom p (as ++ bs) fuel first len = as.length
  := by
  induction fuel generalizing first len with
  | zero =>
      rw [upperBoundFrom]
      omega
  | succ fuel ih =>
      rw [upperBoundFrom]
      by_cases hzero : len = 0
      · rw [if_pos hzero]
        omega
      · rw [if_neg hzero]
        have hmid : first + len / 2 < (as ++ bs).length := by omega
        rw [List.getElem?_eq_getElem hmid]
        simp only [List.length_append] at hlen hmid
        by_cases hside : first + len / 2 < as.length
        · have hfalse : p (as ++ bs)[first + len / 2] = false := by
            rw [List.getElem_append_left hside]
            apply has
            apply List.getElem_mem
          simp only [hfalse, Bool.false_eq_true, if_false]
          apply ih
          · omega
          · omega
          · omega
          · simp only [List.length_append]
            omega
        · have htrue : p (as ++ bs)[first + len / 2] = true := by
            rw [List.getElem_append_right (Nat.le_of_not_lt hside)]
            apply hbs
            apply List.getElem_mem
          simp only [htrue, if_true]
          apply ih
          · omega
          · omega
          · omega
          · simp only [List.length_append]
            omega

/-- On a partitioned list the search returns the length of its first part. -/
theorem upperBound_append {p : α → Bool} {as bs : List α} (has : ∀ a ∈ as, p a = false)
    (hbs : ∀ b ∈ bs, p b = true) :
  upperBound p (as ++ bs) = as.length
  := by
  apply upperBoundFrom_eq has hbs
  · exact Nat.le_refl _
  · omega
  · simp
  · simp

/-- When `p` stays true once it is, the search splits the list into the elements that do
not satisfy it and those that do. -/
theorem upperBound_spec {p : α → Bool} {l : List α}
    (h : l.Pairwise (fun a b => p a = true → p b = true)) :
  upperBound p l ≤ l.length ∧ (∀ a ∈ l.take (upperBound p l), p a = false)
    ∧ ∀ b ∈ l.drop (upperBound p l), p b = true
  := by
  obtain ⟨as, bs, rfl, has, hbs⟩ : ∃ as bs, l = as ++ bs ∧ (∀ a ∈ as, p a = false)
      ∧ ∀ b ∈ bs, p b = true := by
    induction l with
    | nil => exact ⟨[], [], rfl, by simp, by simp⟩
    | cons c l ih =>
        obtain ⟨hhead, htail⟩ := List.pairwise_cons.mp h
        cases hc : p c with
        | true =>
            use [], c :: l, rfl
            constructor
            · simp
            · intro b hb
              rcases List.mem_cons.mp hb with rfl | hb
              · exact hc
              · exact hhead b hb hc
        | false =>
            obtain ⟨as, bs, rfl, has, hbs⟩ := ih htail
            use c :: as, bs, rfl
            constructor
            · intro a ha
              rcases List.mem_cons.mp ha with rfl | ha
              · exact hc
              · exact has a ha
            · exact hbs
  rw [upperBound_append has hbs, List.take_left, List.drop_left]
  exact ⟨by simp, has, hbs⟩

/-! ### Searches of unsorted lists -/

/-- The positions a search that ends at `i` looks at. -/
def probesFrom : ℕ → ℕ → ℕ → ℕ → List ℕ
  | 0, _, _, _ => []
  | fuel + 1, first, len, i =>
      if len = 0 then []
      else if i ≤ first + len / 2 then (first + len / 2) :: probesFrom fuel first (len / 2) i
      else (first + len / 2) :: probesFrom fuel (first + len / 2 + 1) (len - len / 2 - 1) i

/-- The positions a search of a list of `n` elements looks at when it ends at `i`. -/
def probes (n i : ℕ) : List ℕ :=
  probesFrom n 0 n i

theorem upperBoundFrom_bounds {p : α → Bool} {l : List α} (fuel first len : ℕ) :
  first ≤ upperBoundFrom p l fuel first len ∧ upperBoundFrom p l fuel first len ≤ first + len
  := by
  induction fuel generalizing first len with
  | zero => exact ⟨Nat.le_refl _, Nat.le_add_right _ _⟩
  | succ fuel ih =>
      rw [upperBoundFrom]
      split_ifs with hzero
      · exact ⟨Nat.le_refl _, Nat.le_add_right _ _⟩
      · cases l[first + len / 2]? with
        | none => exact ⟨Nat.le_refl _, Nat.le_add_right _ _⟩
        | some a =>
            simp only
            split_ifs with ha
            · have hleft := ih first (len / 2)
              omega
            · have hright := ih (first + len / 2 + 1) (len - len / 2 - 1)
              omega

/-- The search ends at a position exactly when the elements it looks at on the way there send it
there. -/
theorem upperBoundFrom_eq_iff {p : α → Bool} {l : List α} {fuel first len i : ℕ}
    (hfuel : len ≤ fuel) (hlen : first + len ≤ l.length) (hfirst : first ≤ i)
    (hlast : i ≤ first + len) :
  upperBoundFrom p l fuel first len = i
    ↔ ∀ m ∈ probesFrom fuel first len i, ∀ a, l[m]? = some a → (p a = true ↔ i ≤ m)
  := by
  induction fuel generalizing first len with
  | zero =>
      simp only [upperBoundFrom, probesFrom, List.not_mem_nil, false_implies, implies_true, iff_true]
      omega
  | succ fuel ih =>
      rw [upperBoundFrom, probesFrom]
      by_cases hzero : len = 0
      · simp only [hzero, if_true, List.not_mem_nil, false_implies, implies_true, iff_true]
        omega
      · have hmid : first + len / 2 < l.length := by omega
        have hleft := upperBoundFrom_bounds (p := p) (l := l) fuel first (len / 2)
        have hright := upperBoundFrom_bounds (p := p) (l := l) fuel (first + len / 2 + 1)
          (len - len / 2 - 1)
        have hhead : (∀ a, l[first + len / 2]? = some a → (p a = true ↔ i ≤ first + len / 2))
            ↔ (p l[first + len / 2] = true ↔ i ≤ first + len / 2) := by
          rw [List.getElem?_eq_getElem hmid]
          simp only [Option.some.injEq, forall_eq']
        rw [if_neg hzero, if_neg hzero, List.getElem?_eq_getElem hmid]
        by_cases hi : i ≤ first + len / 2
        · rw [if_pos hi, List.forall_mem_cons, hhead]
          by_cases ha : p l[first + len / 2] = true
          · simp only [if_pos ha]
            rw [ih (by omega) (by omega) hfirst hi]
            exact (and_iff_right (iff_of_true ha hi)).symm
          · simp only [if_neg ha]
            apply iff_of_false
            · omega
            · exact fun h => ha (h.1.mpr hi)
        · rw [if_neg hi, List.forall_mem_cons, hhead]
          by_cases ha : p l[first + len / 2] = true
          · simp only [if_pos ha]
            apply iff_of_false
            · omega
            · exact fun h => hi (h.1.mp ha)
          · simp only [if_neg ha]
            rw [ih (by omega) (by omega) (by omega) (by omega)]
            exact (and_iff_right (iff_of_false ha hi)).symm

theorem upperBound_eq_iff {p : α → Bool} {l : List α} {i : ℕ} (hi : i ≤ l.length) :
  upperBound p l = i
    ↔ ∀ m ∈ probes l.length i, ∀ a, l[m]? = some a → (p a = true ↔ i ≤ m)
  := by
  apply upperBoundFrom_eq_iff
  · exact Nat.le_refl _
  · omega
  · exact Nat.zero_le _
  · omega

theorem upperBound_le_length (p : α → Bool) (l : List α) :
  upperBound p l ≤ l.length
  := by
  have hbounds := (upperBoundFrom_bounds (p := p) (l := l) l.length 0 l.length).2
  rwa [Nat.zero_add] at hbounds

/-- A search that ends behind an element has looked at it. -/
theorem pred_mem_probesFrom {fuel first len i : ℕ} (hfuel : len ≤ fuel) (hfirst : first < i)
    (hlast : i ≤ first + len) :
  i - 1 ∈ probesFrom fuel first len i
  := by
  induction fuel generalizing first len with
  | zero => omega
  | succ fuel ih =>
      rw [probesFrom, if_neg (by omega)]
      by_cases hi : i ≤ first + len / 2
      · rw [if_pos hi]
        apply List.mem_cons_of_mem
        apply ih
        · omega
        · exact hfirst
        · exact hi
      · rw [if_neg hi]
        by_cases hmid : i - 1 = first + len / 2
        · rw [hmid]
          exact List.mem_cons_self
        · apply List.mem_cons_of_mem
          apply ih
          · omega
          · omega
          · omega

/-- The first part of the positions looked at has smaller keys than the second. -/
def Separates {κ : Type*} [LT κ] (key : α → κ) (l : List α) (i : ℕ) : Prop :=
  ∀ m ∈ probes l.length i, ∀ m' ∈ probes l.length i, ∀ a b, l[m]? = some a → l[m']? = some b →
    m < i → i ≤ m' → key a < key b

/-- The search for the first larger key ends at a position behind an element, for some key,
exactly when the keys it looks at are separated there. -/
theorem exists_upperBound_iff {κ : Type*} [LinearOrder κ] {key : α → κ} {p : κ → α → Bool}
    (hp : ∀ k a, p k a = true ↔ k < key a) {l : List α} {i : ℕ} (hpos : 0 < i)
    (hi : i ≤ l.length) :
  (∃ k, upperBound (p k) l = i) ↔ Separates key l i
  := by
  constructor
  · rintro ⟨k, hk⟩ m hm m' hm' a b ha hb hlt hle
    have hsent := (upperBound_eq_iff hi).mp hk
    have hleft := hsent m hm a ha
    have hright := hsent m' hm' b hb
    rw [hp] at hleft hright
    have hak : key a ≤ k := not_lt.mp (fun h => absurd (hleft.mp h) (not_le.mpr hlt))
    exact hak.trans_lt (hright.mpr hle)
  · intro hsep
    -- The largest key in front of the position is one that is found there.
    let before := (probes l.length i).filterMap (fun m => if m < i then l[m]? else none)
    have hmem : ∀ a, a ∈ before ↔ ∃ m ∈ probes l.length i, m < i ∧ l[m]? = some a := by
      intro a
      simp only [before, List.mem_filterMap]
      constructor
      · rintro ⟨m, hm, ha⟩
        split_ifs at ha with hlt
        exact ⟨m, hm, hlt, ha⟩
      · rintro ⟨m, hm, hlt, ha⟩
        exact ⟨m, hm, by rw [if_pos hlt, ha]⟩
    have hpred : i - 1 ∈ probes l.length i :=
      pred_mem_probesFrom (Nat.le_refl _) hpos (by omega)
    have hne : before ≠ [] := by
      apply List.ne_nil_of_mem
      rw [hmem]
      exact ⟨i - 1, hpred, by omega, List.getElem?_eq_getElem (by omega)⟩
    obtain ⟨top, htop⟩ := Option.ne_none_iff_exists'.mp (mt List.argmax_eq_none.mp hne :
      before.argmax key ≠ none)
    obtain ⟨m₀, hm₀, hlt₀, ha₀⟩ := (hmem top).mp (List.argmax_mem htop)
    use key top
    rw [upperBound_eq_iff hi]
    intro m hm a ha
    rw [hp]
    by_cases hle : i ≤ m
    · exact iff_of_true (hsep m₀ hm₀ m hm top a ha₀ ha hlt₀ hle) hle
    · have hmax : key a ≤ key top :=
        List.le_of_mem_argmax ((hmem a).mpr ⟨m, hm, not_le.mp hle, ha⟩) htop
      exact iff_of_false (not_lt.mpr hmax) hle

/-- In a list with ascending keys every position is separated. -/
theorem separates_of_sorted {κ : Type*} [LinearOrder κ] {key : α → κ} {l : List α}
    (h : l.Pairwise (fun a b => key a < key b)) (i : ℕ) :
  Separates key l i
  := by
  intro m _ m' _ a b ha hb hlt hle
  obtain ⟨hm, rfl⟩ := List.getElem?_eq_some_iff.mp ha
  obtain ⟨hm', rfl⟩ := List.getElem?_eq_some_iff.mp hb
  exact List.pairwise_iff_getElem.mp h m m' hm hm' (hlt.trans_le hle)

end BinarySearch
