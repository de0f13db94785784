import Mathlib.Algebra.Order.BigOperators.Group.List
import Mathlib.Algebra.Order.Ring.Nat
import Mathlib.Data.List.Sort
import Mathlib.Data.List.Perm.Basic

/-!
# Ordered maps

A finite map held as the list of its entries in strictly ascending key order, with the
order as a field.  A lookup, an insertion, a removal, a filter and the range between two
keys are computed on the list; `ext_find?` says that the lookups determine the map.
-/

/-- A finite map from `κ` to `ν`: its entries in strictly ascending key order. -/
@[ext]
structure OrderedMap (κ ν : Type*) [LinearOrder κ] where
  entries : List (κ × ν)
  sorted : entries.Pairwise (fun a b => a.1 < b.1)

namespace OrderedMap

variable {κ ν : Type*} [LinearOrder κ]

/-! ### Entry lists -/

/-- The value of the first entry at `k`. -/
def lookup (k : κ) : List (κ × ν) → Option ν
  | [] => none
  | (k', v) :: es => if k' = k then some v else lookup k es

/-- Insert `v` at `k` into entries in key order, replacing the value `k` had. -/
def insertEntry (k : κ) (v : ν) : List (κ × ν) → List (κ × ν)
  | [] => [(k, v)]
  | (k', v') :: es =>
      if k < k' then (k, v) :: (k', v') :: es
      else if k' < k then (k', v') :: insertEntry k v es
      else (k, v) :: es

/-- Remove the entry at `k`. -/
def eraseEntry (k : κ) (es : List (κ × ν)) : List (κ × ν) :=
  es.filter (fun e => e.1 ≠ k)

@[simp]
theorem lookup_nil (k : κ) :
  lookup k ([] : List (κ × ν)) = none
  := rfl

@[simp]
theorem lookup_cons (k k' : κ) (v : ν) (es : List (κ × ν)) :
  lookup k ((k', v) :: es) = if k' = k then some v else lookup k es
  := rfl

theorem lookup_eq_none {k : κ} {es : List (κ × ν)} :
  lookup k es = none ↔ ∀ e ∈ es, e.1 ≠ k
  := by
  induction es with
  | nil => simp
  | cons e es ih =>
      obtain ⟨k', v⟩ := e
      by_cases h : k' = k
      · simp [h]
      · simp [h, ih]

theorem mem_of_lookup {k : κ} {v : ν} {es : List (κ × ν)} (h : lookup k es = some v) :
  (k, v) ∈ es
  := by
  induction es with
  | nil => simp at h
  | cons e es ih =>
      obtain ⟨k', v'⟩ := e
      by_cases hk : k' = k
      · simp [hk] at h
        simp [hk, h]
      · simp only [lookup_cons, hk, if_false] at h
        exact List.mem_cons_of_mem _ (ih h)

theorem lookup_of_mem {k : κ} {v : ν} {es : List (κ × ν)}
    (hs : es.Pairwise (fun a b => a.1 < b.1)) (h : (k, v) ∈ es) :
  lookup k es = some v
  := by
  induction es with
  | nil => simp at h
  | cons e es ih =>
      obtain ⟨k', v'⟩ := e
      obtain ⟨hhead, htail⟩ := List.pairwise_cons.mp hs
      rcases List.mem_cons.mp h with heq | hmem
      · obtain ⟨rfl, rfl⟩ := Prod.mk.inj heq
        simp
      · have hne : k' ≠ k := ne_of_lt (hhead _ hmem)
        simp only [lookup_cons, hne, if_false]
        apply ih htail hmem

theorem lookup_append (k : κ) (es fs : List (κ × ν)) :
  lookup k (es ++ fs) = (lookup k es).or (lookup k fs)
  := by
  induction es with
  | nil => simp
  | cons e es ih =>
      obtain ⟨k', v⟩ := e
      by_cases h : k' = k
      · simp [h]
      · simp [h, ih]

theorem lookup_map_snd {μ : Type*} (f : ν → μ) (k : κ) (es : List (κ × ν)) :
  lookup k (es.map (fun e => (e.1, f e.2))) = (lookup k es).map f
  := by
  induction es with
  | nil => simp
  | cons e es ih =>
      obtain ⟨k', v⟩ := e
      by_cases h : k' = k
      · simp [h]
      · simp [h, ih]

theorem mem_insertEntry {k : κ} {v : ν} {e : κ × ν} {es : List (κ × ν)}
    (h : e ∈ insertEntry k v es) :
  e = (k, v) ∨ e ∈ es
  := by
  induction es with
  | nil => simpa [insertEntry] using h
  | cons d es ih =>
      obtain ⟨k', v'⟩ := d
      rw [insertEntry] at h
      split_ifs at h with h₁ h₂
      · simpa using h
      · rcases List.mem_cons.mp h with rfl | h
        · simp
        · rcases ih h with rfl | h
          · simp
          · simp [h]
      · rcases List.mem_cons.mp h with rfl | h
        · simp
        · simp [h]

theorem sorted_insertEntry (k : κ) (v : ν) {es : List (κ × ν)}
    (hs : es.Pairwise (fun a b => a.1 < b.1)) :
  (insertEntry k v es).Pairwise (fun a b => a.1 < b.1)
  := by
  induction es with
  | nil => simp [insertEntry]
  | cons d es ih =>
      obtain ⟨k', v'⟩ := d
      obtain ⟨hhead, htail⟩ := List.pairwise_cons.mp hs
      rw [insertEntry]
      split_ifs with h₁ h₂
      · apply List.pairwise_cons.mpr
        constructor
        · intro e he
          rcases List.mem_cons.mp he with rfl | he
          · exact h₁
          · exact h₁.trans (hhead e he)
        · exact hs
      · apply List.pairwise_cons.mpr
        constructor
        · intro e he
          rcases mem_insertEntry he with rfl | he
          · exact h₂
          · exact hhead e he
        · exact ih htail
      · obtain rfl : k = k' := le_antisymm (not_lt.mp h₂) (not_lt.mp h₁)
        apply List.pairwise_cons.mpr
        exact ⟨hhead, htail⟩

theorem lookup_insertEntry (k : κ) (v : ν) (k' : κ) {es : List (κ × ν)}
    (hs : es.Pairwise (fun a b => a.1 < b.1)) :
  lookup k' (insertEntry k v es) = if k = k' then some v else lookup k' es
  := by
  induction es with
  | nil => simp [insertEntry]
  | cons d es ih =>
      obtain ⟨k₁, v₁⟩ := d
      obtain ⟨-, htail⟩ := List.pairwise_cons.mp hs
      rw [insertEntry]
      by_cases h₁ : k < k₁
      · simp [h₁]
      · by_cases h₂ : k₁ < k
        · simp only [h₁, h₂, if_false, if_true, lookup_cons, ih htail]
          by_cases h₃ : k₁ = k'
          · have hne : k ≠ k' := fun h => absurd (h ▸ h₃ ▸ h₂) (lt_irrefl _)
            simp [h₃, hne]
          · simp [h₃]
        · obtain rfl : k = k₁ := le_antisymm (not_lt.mp h₂) (not_lt.mp h₁)
          by_cases h₃ : k = k'
          · simp [h₃]
          · simp [h₃]

/-- The entry inserted takes the place of the one at its key. -/
theorem sum_insertEntry (w : κ × ν → ℕ) (k : κ) (v : ν) {es : List (κ × ν)}
    (hs : es.Pairwise (fun a b => a.1 < b.1)) :
  ((insertEntry k v es).map w).sum + ((lookup k es).map (fun old => w (k, old))).getD 0
    = (es.map w).sum + w (k, v)
  := by
  induction es with
  | nil => simp [insertEntry]
  | cons d es ih =>
      obtain ⟨k', v'⟩ := d
      obtain ⟨hhead, htail⟩ := List.pairwise_cons.mp hs
      have hsum := ih htail
      rw [insertEntry]
      split_ifs with h₁ h₂
      · -- A key below all others has no entry.
        have hnone : lookup k ((k', v') :: es) = none := by
          apply lookup_eq_none.mpr
          intro e he
          rcases List.mem_cons.mp he with rfl | he
          · exact h₁.ne'
          · exact (h₁.trans (hhead e he)).ne'
        rw [hnone]
        simp only [List.map_cons, List.sum_cons, Option.map_none, Option.getD_none]
        omega
      · rw [lookup_cons, if_neg h₂.ne]
        simp only [List.map_cons, List.sum_cons]
        omega
      · obtain rfl : k = k' := le_antisymm (not_lt.mp h₂) (not_lt.mp h₁)
        rw [lookup_cons, if_pos rfl]
        simp only [List.map_cons, List.sum_cons, Option.map_some, Option.getD_some]
        omega

/-! ### Maps -/

/-- The map with no entries. -/
def empty : OrderedMap κ ν :=
  ⟨[], List.Pairwise.nil⟩

/-- The value at `k`. -/
def find? (m : OrderedMap κ ν) (k : κ) : Option ν :=
  lookup k m.entries

/-- The map with `v` at `k`, in place of what was there. -/
def insert (m : OrderedMap κ ν) (k : κ) (v : ν) : OrderedMap κ ν :=
  ⟨insertEntry k v m.entries, sorted_insertEntry k v m.sorted⟩

/-- The map without an entry at `k`. -/
def erase (m : OrderedMap κ ν) (k : κ) : OrderedMap κ ν :=
  ⟨eraseEntry k m.entries, m.sorted.filter _⟩

/-- The entries that satisfy `p`. -/
def filter (m : OrderedMap κ ν) (p : κ → ν → Bool) : OrderedMap κ ν :=
  ⟨m.entries.filter (fun e => p e.1 e.2), m.sorted.filter _⟩

/-- The entries from the first key not below `s` up to the first key not below `e`. -/
def range (m : OrderedMap κ ν) (s e : κ) : List (κ × ν) :=
  (m.entries.dropWhile (fun d => d.1 < s)).takeWhile (fun d => d.1 < e)

/-- Write a list of entries over a map, from left to right. -/
def overwrite (m : OrderedMap κ ν) (es : List (κ × ν)) : OrderedMap κ ν :=
  es.foldl (fun m e => m.insert e.1 e.2) m

theorem mem_entries {m : OrderedMap κ ν} {k : κ} {v : ν} :
  (k, v) ∈ m.entries ↔ m.find? k = some v
  := ⟨lookup_of_mem m.sorted, mem_of_lookup⟩

theorem nodup_entries (m : OrderedMap κ ν) :
  m.entries.Nodup
  := by
  apply m.sorted.imp
  intro a b h heq
  apply absurd h
  simp [heq]

/-- Two maps with the same lookups are equal. -/
theorem ext_find? {m n : OrderedMap κ ν} (h : ∀ k, m.find? k = n.find? k) :
  m = n
  := by
  apply OrderedMap.ext
  apply List.Perm.eq_of_pairwise _ m.sorted n.sorted
  · apply (List.perm_ext_iff_of_nodup m.nodup_entries n.nodup_entries).mpr
    rintro ⟨k, v⟩
    rw [mem_entries, mem_entries, h]
  · intro a b _ _ hab hba
    exact absurd hab (lt_asymm hba)

@[simp]
theorem find?_empty (k : κ) :
  (empty : OrderedMap κ ν).find? k = none
  := rfl

@[simp]
theorem find?_insert (m : OrderedMap κ ν) (k : κ) (v : ν) (k' : κ) :
  (m.insert k v).find? k' = if k = k' then some v else m.find? k'
  := lookup_insertEntry k v k' m.sorted

@[simp]
theorem find?_filter (m : OrderedMap κ ν) (p : κ → ν → Bool) (k : κ) :
  (m.filter p).find? k = (m.find? k).filter (p k)
  := by
  apply Option.ext
  intro v
  rw [← mem_entries, filter, List.mem_filter, mem_entries]
  simp [Option.filter_eq_some_iff]

@[simp]
theorem find?_erase (m : OrderedMap κ ν) (k k' : κ) :
  (m.erase k).find? k' = if k = k' then none else m.find? k'
  := by
  apply Option.ext
  intro v
  rw [← mem_entries]
  simp only [erase, eraseEntry, List.mem_filter, mem_entries]
  by_cases h : k = k'
  · simp [h]
  · simp [h, Ne.symm h]

/-! ### Maps that are related key by key -/

/-- The maps have the same keys, and their values at each key are related. -/
def Related {μ : Type*} (R : κ → μ → ν → Prop) (m' : OrderedMap κ μ) (m : OrderedMap κ ν) : Prop :=
  ∀ k, Option.Rel (R k) (m'.find? k) (m.find? k)

theorem forall₂_of_lookup {μ : Type*} {R : κ → μ → ν → Prop} {es' : List (κ × μ)}
    {es : List (κ × ν)} (hs' : es'.Pairwise (fun a b => a.1 < b.1))
    (hs : es.Pairwise (fun a b => a.1 < b.1))
    (h : ∀ k, Option.Rel (R k) (lookup k es') (lookup k es)) :
  List.Forall₂ (fun e' e => e'.1 = e.1 ∧ R e.1 e'.2 e.2) es' es
  := by
  induction es' generalizing es with
  | nil =>
      cases es with
      | nil => exact .nil
      | cons e es =>
          have hrel := h e.1
          rw [lookup_cons, if_pos rfl, lookup_nil] at hrel
          cases hrel
  | cons e' es' ih =>
      obtain ⟨k', v'⟩ := e'
      cases es with
      | nil =>
          have hrel := h k'
          rw [lookup_cons, if_pos rfl, lookup_nil] at hrel
          cases hrel
      | cons e es =>
          obtain ⟨k, v⟩ := e
          have hrel' := h k'
          have hrel := h k
          rw [lookup_cons, if_pos rfl] at hrel'
          rw [lookup_cons _ k, if_pos rfl] at hrel
          obtain ⟨hlt', htail'⟩ := List.pairwise_cons.mp hs'
          obtain ⟨hlt, htail⟩ := List.pairwise_cons.mp hs
          -- The first keys are equal: each is a key of the other list.
          obtain rfl : k' = k := by
            apply le_antisymm
            · generalize hw : lookup k ((k', v') :: es') = w at hrel
              cases hrel with
              | some _ =>
                  rcases List.mem_cons.mp (mem_of_lookup hw) with heq | hmem
                  · exact (congrArg Prod.fst heq).ge
                  · exact (hlt' _ hmem).le
            · generalize hw : lookup k' ((k, v) :: es) = w at hrel'
              cases hrel' with
              | some _ =>
                  rcases List.mem_cons.mp (mem_of_lookup hw) with heq | hmem
                  · exact (congrArg Prod.fst heq).ge
                  · exact (hlt _ hmem).le
          rw [lookup_cons, if_pos rfl] at hrel
          cases hrel with
          | some hv =>
              refine .cons ⟨rfl, hv⟩ (ih htail' htail ?_)
              intro j
              have hj := h j
              rw [lookup_cons, lookup_cons] at hj
              by_cases hkj : k' = j
              · subst hkj
                rw [lookup_eq_none.mpr (fun e he => (hlt' e he).ne'),
                  lookup_eq_none.mpr (fun e he => (hlt e he).ne')]
                exact .none
              · rwa [if_neg hkj, if_neg hkj] at hj

theorem Related.insert {μ : Type*} {R : κ → μ → ν → Prop} {m' : OrderedMap κ μ}
    {m : OrderedMap κ ν} (h : Related R m' m) {k : κ} {v' : μ} {v : ν} (hv : R k v' v) :
  Related R (m'.insert k v') (m.insert k v)
  := by
  intro j
  rw [find?_insert, find?_insert]
  split_ifs with hkj
  · subst hkj
    exact .some hv
  · exact h j

theorem Related.erase {μ : Type*} {R : κ → μ → ν → Prop} {m' : OrderedMap κ μ}
    {m : OrderedMap κ ν} (h : Related R m' m) (k : κ) :
  Related R (m'.erase k) (m.erase k)
  := by
  intro j
  rw [find?_erase, find?_erase]
  split_ifs
  · exact .none
  · exact h j

theorem Related.forall₂_entries {μ : Type*} {R : κ → μ → ν → Prop} {m' : OrderedMap κ μ}
    {m : OrderedMap κ ν} (h : Related R m' m) :
  List.Forall₂ (fun e' e => e'.1 = e.1 ∧ R e.1 e'.2 e.2) m'.entries m.entries
  := forall₂_of_lookup m'.sorted m.sorted h

/-! ### Sums -/

/-- The sum of a weight over the entries. -/
def sum (m : OrderedMap κ ν) (w : κ × ν → ℕ) : ℕ :=
  (m.entries.map w).sum

/-- An insertion adds the weight of the new entry and takes away that of the old one. -/
theorem sum_insert (m : OrderedMap κ ν) (w : κ × ν → ℕ) (k : κ) (v : ν) :
  (m.insert k v).sum w + ((m.find? k).map (fun old => w (k, old))).getD 0 = m.sum w + w (k, v)
  := sum_insertEntry w k v m.sorted

theorem le_sum {m : OrderedMap κ ν} (w : κ × ν → ℕ) {k : κ} {v : ν} (h : m.find? k = some v) :
  w (k, v) ≤ m.sum w
  := by
  apply List.single_le_sum (fun n _ => Nat.zero_le n)
  exact List.mem_map_of_mem (mem_entries.mpr h)

/-! ### Ranges -/

private theorem dropWhile_eq_filter {es : List (κ × ν)}
    (hs : es.Pairwise (fun a b => a.1 < b.1)) (s : κ) :
  es.dropWhile (fun d => d.1 < s) = es.filter (fun d => s ≤ d.1)
  := by
  induction es with
  | nil => rfl
  | cons d es ih =>
      obtain ⟨hhead, htail⟩ := List.pairwise_cons.mp hs
      by_cases h : d.1 < s
      · simp [h, not_le.mpr h, ih htail]
      · have hall : ∀ e ∈ es, s ≤ e.1 := fun e he => (not_lt.mp h).trans (hhead e he).le
        simp only [List.dropWhile_cons, h, decide_false, Bool.false_eq_true, if_false,
          List.filter_cons, not_lt.mp h, decide_true, if_true]
        congr 1
        symm
        apply List.filter_eq_self.mpr
        simpa using hall

private theorem takeWhile_eq_filter {es : List (κ × ν)}
    (hs : es.Pairwise (fun a b => a.1 < b.1)) (t : κ) :
  es.takeWhile (fun d => d.1 < t) = es.filter (fun d => d.1 < t)
  := by
  induction es with
  | nil => rfl
  | cons d es ih =>
      obtain ⟨hhead, htail⟩ := List.pairwise_cons.mp hs
      by_cases h : d.1 < t
      · simp [h, ih htail]
      · have hall : ∀ e ∈ es, ¬ e.1 < t := fun e he => not_lt.mpr ((not_lt.mp h).trans (hhead e he).le)
        simp only [List.takeWhile_cons, h, decide_false, Bool.false_eq_true, if_false,
          List.filter_cons]
        symm
        apply List.filter_eq_nil_iff.mpr
        simpa using hall

/-- The range from `s` to `t` holds the entries with `s ≤ k < t`. -/
theorem range_eq_filter (m : OrderedMap κ ν) (s t : κ) :
  m.range s t = m.entries.filter (fun d => s ≤ d.1 ∧ d.1 < t)
  := by
  rw [range, dropWhile_eq_filter m.sorted, takeWhile_eq_filter (m.sorted.filter _),
    List.filter_filter]
  apply List.filter_congr
  intro d _
  simp [Bool.and_comm]

theorem lookup_filter {es : List (κ × ν)} (hs : es.Pairwise (fun a b => a.1 < b.1))
    (p : κ × ν → Bool) (k : κ) :
  lookup k (es.filter p) = (lookup k es).filter (fun v => p (k, v))
  := by
  have h := find?_filter ⟨es, hs⟩ (fun k v => p (k, v)) k
  exact h

theorem lookup_range (m : OrderedMap κ ν) (s t k : κ) :
  lookup k (m.range s t) = if s ≤ k ∧ k < t then m.find? k else none
  := by
  rw [range_eq_filter, lookup_filter m.sorted]
  by_cases h : s ≤ k ∧ k < t
  · cases hk : lookup k m.entries with
    | none => simp [h, find?, hk]
    | some v => simp [h, find?, hk, Option.filter]
  · cases hk : lookup k m.entries with
    | none => simp [h]
    | some v => simp [h, Option.filter]

/-! ### Overwriting -/

@[simp]
theorem overwrite_nil (m : OrderedMap κ ν) :
  m.overwrite [] = m
  := rfl

theorem overwrite_cons (m : OrderedMap κ ν) (e : κ × ν) (es : List (κ × ν)) :
  m.overwrite (e :: es) = (m.insert e.1 e.2).overwrite es
  := rfl

/-- Writing entries with distinct keys over a map gives their values where they have one. -/
theorem find?_overwrite (m : OrderedMap κ ν) {es : List (κ × ν)}
    (hs : es.Pairwise (fun a b => a.1 < b.1)) (k : κ) :
  (m.overwrite es).find? k = (lookup k es).or (m.find? k)
  := by
  induction es generalizing m with
  | nil => simp
  | cons e es ih =>
      obtain ⟨k', v⟩ := e
      obtain ⟨hhead, htail⟩ := List.pairwise_cons.mp hs
      rw [overwrite_cons, ih _ htail, find?_insert, lookup_cons]
      by_cases h : k' = k
      · have hnone : lookup k es = none := by
          apply lookup_eq_none.mpr
          intro d hd
          exact ne_of_gt (h ▸ hhead d hd)
        simp [h, hnone]
      · simp [h]

end OrderedMap
