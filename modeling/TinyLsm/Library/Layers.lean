import Mathlib.Data.List.Perm.Basic
import Mathlib.Data.Option.Basic
import Mathlib.Order.Lattice

/-!
# Layered maps

A layer is a partial map from keys to entries.  A list of layers, oldest first, is read by
taking the entry of the newest layer that has one (`newest`); an entry may stand for a
value or for its absence, as `live` says, and `view` reads the list down to the values.

The results say which changes of the list keep the view: a repeated layer
(`newest_concat_twice`), a reordering of layers that agree (`newest_eq_of_perm`), a newest
layer read back from a log of it (`Restores.newest_eq`), a merge of the oldest layers that
drops the entries without a value (`newest_insert_merged`), and the removal of merged layers
from the oldest on (`view_drop_merged`).
-/

namespace Layers

variable {κ ε ν α N : Type*}

/-- The entry of the newest layer that has one; the layers are given oldest first. -/
def newest : List (κ → Option ε) → κ → Option ε
  | [], _ => none
  | l :: ls, k => (newest ls k).or (l k)

/-- The value at a key, by the newest entry. -/
def view (live : ε → Option ν) (ls : List (κ → Option ε)) (k : κ) : Option ν :=
  (newest ls k).bind live

/-- The layer of the newest entries that have a value. -/
def merged (live : ε → Option ν) (ls : List (κ → Option ε)) (k : κ) : Option ε :=
  (newest ls k).filter (fun e => (live e).isSome)

/-- Two layers have the same entry wherever both have one. -/
def Agree (a b : κ → Option ε) : Prop :=
  ∀ k x y, a k = some x → b k = some y → x = y

/-! ### Reading a list of layers -/

@[simp]
theorem newest_nil (k : κ) :
  newest ([] : List (κ → Option ε)) k = none
  := rfl

@[simp]
theorem newest_cons (l : κ → Option ε) (ls : List (κ → Option ε)) (k : κ) :
  newest (l :: ls) k = (newest ls k).or (l k)
  := rfl

@[simp]
theorem newest_append (ls ms : List (κ → Option ε)) (k : κ) :
  newest (ls ++ ms) k = (newest ms k).or (newest ls k)
  := by
  induction ls with
  | nil => simp
  | cons l ls ih => simp [ih, Option.or_assoc]

theorem newest_eq_none {ls : List (κ → Option ε)} {k : κ} :
  newest ls k = none ↔ ∀ l ∈ ls, l k = none
  := by
  induction ls with
  | nil => simp
  | cons l ls ih => simp [ih, and_comm]

/-- The newest entry is that of a layer after which no layer has one. -/
theorem newest_map_eq_some {f : α → κ → Option ε} {l : List α} {k : κ} {x : ε}
    (h : newest (l.map f) k = some x) :
  ∃ pre a post, l = pre ++ a :: post ∧ f a k = some x ∧ ∀ b ∈ post, f b k = none
  := by
  induction l with
  | nil => simp at h
  | cons a l ih =>
      rw [List.map_cons, newest_cons] at h
      cases hl : newest (l.map f) k with
      | none =>
          use [], a, l
          simp only [hl, Option.none_or] at h
          refine ⟨rfl, h, ?_⟩
          intro b hb
          apply newest_eq_none.mp hl
          exact List.mem_map_of_mem hb
      | some y =>
          simp only [hl, Option.some_or] at h
          obtain ⟨pre, b, post, rfl, hb, hpost⟩ := ih (hl.trans h)
          use a :: pre, b, post
          exact ⟨rfl, hb, hpost⟩

/-- The newest entry is an entry of some layer. -/
theorem exists_of_newest {ls : List (κ → Option ε)} {k : κ} {x : ε}
    (h : newest ls k = some x) :
  ∃ l ∈ ls, l k = some x
  := by
  obtain ⟨pre, l, post, rfl, hl, -⟩ := newest_map_eq_some (f := id) (by simpa using h)
  use l
  simpa using hl

/-- Reading a last layer a second time changes nothing. -/
theorem newest_concat_twice (ls : List (κ → Option ε)) (l : κ → Option ε) :
  newest (ls ++ [l] ++ [l]) = newest (ls ++ [l])
  := by
  funext k
  cases h : l k with
  | none => simp [h]
  | some x => simp [h]

/-- A last layer with no entries can be left out. -/
theorem newest_concat_empty (ls : List (κ → Option ε)) :
  newest (ls ++ [fun _ => none]) = newest ls
  := by
  funext k
  simp

/-- Layers without an entry for the key can be left out. -/
theorem newest_filter {f : α → κ → Option ε} {keep : α → Bool} {l : List α} {k : κ}
    (h : ∀ a ∈ l, keep a = false → f a k = none) :
  newest ((l.filter keep).map f) k = newest (l.map f) k
  := by
  induction l with
  | nil => rfl
  | cons a l ih =>
      have hl := ih (fun b hb => h b (List.mem_cons_of_mem _ hb))
      cases hkeep : keep a with
      | true => simp [hkeep, hl]
      | false => simp [hkeep, hl, h a List.mem_cons_self hkeep]

theorem view_congr {live : ε → Option ν} {ls ms : List (κ → Option ε)}
    (h : newest ls = newest ms) :
  view live ls = view live ms
  := by
  funext k
  rw [view, view, h]

/-! ### Reordering -/

section Order

variable [LinearOrder N] (num : α → N) (layer : α → κ → Option ε)

/-- A list of numbered layers in which a layer with a smaller number than one before it
agrees with that one. -/
def InOrder (l : List α) : Prop :=
  l.Pairwise (fun a b => num a < num b ∨ Agree (layer a) (layer b))

variable {num layer}

/-- A list with ascending numbers is in order. -/
theorem InOrder.of_ascending {l : List α} (h : l.Pairwise (fun a b => num a < num b)) :
  InOrder num layer l
  := h.imp Or.inl

/-- A list in order is read the same as its layers sorted by number. -/
theorem newest_eq_of_perm {s l : List α} (hp : s.Perm l)
    (hs : s.Pairwise (fun a b => num a < num b)) (hl : InOrder num layer l) :
  newest (s.map layer) = newest (l.map layer)
  := by
  funext k
  cases hx : newest (s.map layer) k with
  | none =>
      symm
      apply newest_eq_none.mpr
      intro m hm
      apply newest_eq_none.mp hx
      obtain ⟨a, ha, rfl⟩ := List.mem_map.mp hm
      exact List.mem_map_of_mem (hp.mem_iff.mpr ha)
  | some x =>
      cases hy : newest (l.map layer) k with
      | none =>
          obtain ⟨pre, a, post, rfl, ha, -⟩ := newest_map_eq_some hx
          have hmem : a ∈ l := hp.mem_iff.mp (by simp)
          have hnone := newest_eq_none.mp hy (layer a) (List.mem_map_of_mem hmem)
          simp [ha] at hnone
      | some y =>
          -- `a` is the last holder of `k` by number, `b` the last one in `l`.
          obtain ⟨pre, a, post, rfl, ha, hpost⟩ := newest_map_eq_some hx
          obtain ⟨pre', b, post', rfl, hb, hpost'⟩ := newest_map_eq_some hy
          have hbs : b ∈ pre ++ a :: post := hp.mem_iff.mpr (by simp)
          have hal : a ∈ pre' ++ b :: post' := hp.mem_iff.mp (by simp)
          rcases List.mem_append.mp hbs with hpre | htail
          · have hlt : num b < num a :=
              (List.pairwise_append.mp hs).2.2 b hpre a List.mem_cons_self
            rcases List.mem_append.mp hal with hpre' | htail'
            · rcases (List.pairwise_append.mp hl).2.2 a hpre' b List.mem_cons_self with h | h
              · exact absurd h (lt_asymm hlt)
              · rw [h k x y ha hb]
            · rcases List.mem_cons.mp htail' with rfl | hmem
              · exact absurd hlt (lt_irrefl _)
              · simp [hpost' a hmem] at ha
          · rcases List.mem_cons.mp htail with rfl | hmem
            · rw [← ha, ← hb]
            · simp [hpost b hmem] at hb

end Order

/-! ### Restoring -/

/-- The newest layer `mem` can be read back from `log` and the layers below, also with a layer
`orphan` put between: `log` has part of its entries, the rest is the newest below, and an entry of
`orphan` is hidden by `log` or is the newest below. -/
structure Restores (ls : List (κ → Option ε)) (orphan log mem : κ → Option ε) : Prop where
  logged : ∀ k x, log k = some x → mem k = some x
  kept : ∀ k x, mem k = some x → log k = some x ∨ newest ls k = some x
  hidden : ∀ k x, orphan k = some x → (∃ y, log k = some y) ∨ newest ls k = some x

namespace Restores

variable {ls : List (κ → Option ε)} {orphan log mem : κ → Option ε}

theorem refl (ls : List (κ → Option ε)) (mem : κ → Option ε) :
  Restores ls (fun _ => none) mem mem
  where
    logged _ _ h := h
    kept _ _ h := Or.inl h
    hidden _ _ h := absurd h (by simp)

/-- What is read back is what was there. -/
theorem newest_eq (h : Restores ls orphan log mem) :
  newest (ls ++ [orphan] ++ [log]) = newest (ls ++ [mem])
  := by
  funext k
  simp only [newest_append, newest_cons, newest_nil, Option.none_or]
  cases hlog : log k with
  | some x => simp [h.logged k x hlog]
  | none =>
      have hmem : (mem k).or (newest ls k) = newest ls k := by
        cases hk : mem k with
        | none => rfl
        | some x =>
            obtain hx | hx := h.kept k x hk
            · simp [hlog] at hx
            · rw [hx]
              rfl
      rw [hmem]
      cases hk : orphan k with
      | none => rfl
      | some x =>
          obtain ⟨y, hy⟩ | hx := h.hidden k x hk
          · simp [hlog] at hy
          · rw [hx]
            rfl

/-- An entry that is written to both layers. -/
theorem update {log' mem' : κ → Option ε} (h : Restores ls orphan log mem) {k₀ : κ} {x₀ : ε}
    (hlog : log' k₀ = some x₀) (hmem : mem' k₀ = some x₀)
    (hlog' : ∀ k, k ≠ k₀ → log' k = log k) (hmem' : ∀ k, k ≠ k₀ → mem' k = mem k) :
  Restores ls orphan log' mem'
  := by
  constructor
  · intro k x hx
    by_cases hk : k = k₀
    · rw [hk, hlog] at hx
      rw [hk, hmem, hx]
    · rw [hlog' k hk] at hx
      rw [hmem' k hk, h.logged k x hx]
  · intro k x hx
    by_cases hk : k = k₀
    · rw [hk, hmem] at hx
      rw [hk, hlog]
      exact Or.inl hx
    · rw [hmem' k hk] at hx
      rw [hlog' k hk]
      exact h.kept k x hx
  · intro k x hx
    by_cases hk : k = k₀
    · rw [hk]
      exact Or.inl ⟨x₀, hlog⟩
    · rw [hlog' k hk]
      exact h.hidden k x hx

/-- A copy of the newest layer that is put below it and forgotten. -/
theorem copy (h : Restores ls orphan log mem) :
  Restores ls mem log mem
  where
    logged := h.logged
    kept := h.kept
    hidden k x hx := (h.kept k x hx).imp (fun hlog => ⟨x, hlog⟩) id

/-- A copy of the newest layer that is put below it. -/
theorem push (h : Restores ls orphan log mem) :
  Restores (ls ++ [mem]) (fun _ => none) log mem
  where
    logged := h.logged
    kept k x hx := Or.inr (by simp [hx])
    hidden _ _ hx := absurd hx (by simp)

/-- Over its copy the newest layer needs no log. -/
theorem truncate (ls : List (κ → Option ε)) (mem : κ → Option ε) :
  Restores (ls ++ [mem]) (fun _ => none) (fun _ => none) mem
  where
    logged _ _ hx := absurd hx (by simp)
    kept k x hx := Or.inr (by simp [hx])
    hidden _ _ hx := absurd hx (by simp)

end Restores

/-! ### Merging -/

section Merge

variable (live : ε → Option ν)

theorem view_none_of_merged {ls : List (κ → Option ε)} {k : κ}
    (h : merged live ls k = none) :
  view live ls k = none
  := by
  rw [merged] at h
  rw [view]
  cases hx : newest ls k with
  | none => rfl
  | some x =>
      rw [hx, Option.filter_some] at h
      simpa using h

theorem newest_of_merged {ls : List (κ → Option ε)} {k : κ} {x : ε}
    (h : merged live ls k = some x) :
  newest ls k = some x ∧ (live x).isSome
  := by
  rw [merged, Option.filter_eq_some_iff] at h
  exact h

/-- Putting the merge of the oldest layers right after them changes no newest entry. -/
theorem newest_insert_merged (ls ps : List (κ → Option ε)) :
  newest (ls ++ merged live ls :: ps) = newest (ls ++ ps)
  := by
  funext k
  simp only [newest_append, newest_cons]
  cases hm : merged live ls k with
  | none => simp
  | some x => simp [(newest_of_merged live hm).1]

/-- When the merge of `ls` stands for them, and the layers `ss` are still before it, a key
is read as before exactly when `ss` has no value for it in case no later layer has an entry
and `ls` has no value. -/
theorem view_survivors_iff (ls ss ps : List (κ → Option ε)) (k : κ) :
  view live (ss ++ merged live ls :: ps) k = view live (ls ++ ps) k
    ↔ (newest ps k = none → view live ls k = none → view live ss k = none)
  := by
  simp only [view, newest_append, newest_cons]
  cases hp : newest ps k with
  | some x => simp
  | none =>
      cases hm : merged live ls k with
      | some x =>
          obtain ⟨hx, hsome⟩ := newest_of_merged live hm
          obtain ⟨v, hv⟩ := Option.isSome_iff_exists.mp hsome
          simp [hx, hv]
      | none =>
          have hnone := view_none_of_merged live hm
          rw [view] at hnone
          simp [hnone]

/-- Once the merge stands for the layers it was made from, those may be removed from the
oldest on. -/
theorem view_drop_merged (rs ss ps : List (κ → Option ε)) :
  view live (ss ++ merged live (rs ++ ss) :: ps) = view live (rs ++ ss ++ ps)
  := by
  funext k
  apply (view_survivors_iff live (rs ++ ss) ss ps k).mpr
  intro _ hview
  rw [view, newest_append] at hview
  rw [view]
  cases hs : newest ss k with
  | none => rfl
  | some x => simpa [hs] using hview

end Merge

end Layers
