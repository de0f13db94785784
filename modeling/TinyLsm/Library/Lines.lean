import Mathlib.Data.List.Basic

/-!
# Lines of a stream

A stream of letters in which one letter ends a line.  The first line of what has been read is known
as soon as its end has been read, whatever comes later (`nextLine_eq_some`), so that the lines are the
same in whatever pieces the stream arrives.  A reader that takes one line after the other until the
stream is exhausted sees the lines of the stream (`lines_eq_cons`, `lines_eq_nil`).
-/

namespace Lines

variable {α : Type*} [DecidableEq α] {sep : α} {xs line rest : List α}

/-- The first line and what follows its end, if it has one. -/
def nextLine (sep : α) (xs : List α) : Option (List α × List α) :=
  match xs.idxOf? sep with
  | none => none
  | some pos => some (xs.take pos, xs.drop (pos + 1))

theorem nextLine_append (h : sep ∉ line) :
  nextLine sep (line ++ sep :: rest) = some (line, rest)
  := by
  have hpos : (line ++ sep :: rest).idxOf? sep = some line.length := by
    rw [List.idxOf?_eq_some_iff]
    refine ⟨by simp, by simp, ?_⟩
    intro j hj heq
    apply h
    rw [← heq, List.getElem_append_left hj]
    exact List.getElem_mem hj
  rw [nextLine, hpos]
  simp

theorem nextLine_eq_none :
  nextLine sep xs = none ↔ sep ∉ xs
  := by
  rw [nextLine]
  split
  · rename_i hnone
    simpa using hnone
  · rename_i pos hpos
    simp only [reduceCtorEq, false_iff, not_not]
    by_contra hmem
    rw [List.idxOf?_eq_none_iff.mpr hmem] at hpos
    simp at hpos

theorem nextLine_eq_some :
  nextLine sep xs = some (line, rest) ↔ xs = line ++ sep :: rest ∧ sep ∉ line
  := by
  constructor
  · intro h
    have hmem : sep ∈ xs := by
      by_contra hmem
      rw [nextLine_eq_none.mpr hmem] at h
      simp at h
    obtain ⟨before, after, rfl, hbefore⟩ := List.eq_append_cons_of_mem hmem
    rw [nextLine_append hbefore] at h
    obtain ⟨rfl, rfl⟩ := Prod.mk.inj (Option.some.inj h)
    exact ⟨rfl, hbefore⟩
  · rintro ⟨rfl, h⟩
    exact nextLine_append h

/-- The first line, which at the end of the stream need not have an end of its own; none when the stream
is exhausted. -/
def getline (sep : α) (xs : List α) : Option (List α × List α) :=
  match nextLine sep xs with
  | some split => some split
  | none => if xs = [] then none else some (xs, [])

/-- The lines of a stream, where the current line has begun with some letters. -/
def linesFrom (sep : α) : List α → List α → List (List α)
  | line, [] => if line = [] then [] else [line]
  | line, x :: xs =>
      if x = sep then line :: linesFrom sep [] xs else linesFrom sep (line ++ [x]) xs

def lines (sep : α) (xs : List α) : List (List α) :=
  linesFrom sep [] xs

theorem linesFrom_append (begun : List α) (h : sep ∉ line) :
  linesFrom sep begun (line ++ xs) = linesFrom sep (begun ++ line) xs
  := by
  induction line generalizing begun with
  | nil => simp
  | cons x line ih =>
      rw [List.mem_cons, not_or] at h
      rw [List.cons_append, linesFrom, if_neg (Ne.symm h.1), ih _ h.2, List.append_assoc,
        List.singleton_append]

theorem getline_eq_some (h : getline sep xs = some (line, rest)) :
  sep ∉ line ∧ line <+: xs
  := by
  rw [getline] at h
  cases hnext : nextLine sep xs with
  | some split =>
      rw [hnext, Option.some.injEq] at h
      rw [h] at hnext
      obtain ⟨rfl, hline⟩ := nextLine_eq_some.mp hnext
      exact ⟨hline, List.prefix_append _ _⟩
  | none =>
      rw [hnext] at h
      by_cases hne : xs = []
      · simp [hne] at h
      · simp only [hne, if_false, Option.some.injEq, Prod.mk.injEq] at h
        rw [← h.1]
        exact ⟨nextLine_eq_none.mp hnext, List.prefix_rfl⟩

theorem getline_of_notMem (h : sep ∉ xs) (hne : xs ≠ []) :
  getline sep xs = some (xs, [])
  := by
  rw [getline, nextLine_eq_none.mpr h]
  simp [hne]

/-- The lines of a stream that consists of lines with their ends. -/
theorem lines_flatMap {ls : List (List α)} (h : ∀ l ∈ ls, sep ∉ l) :
  lines sep (ls.flatMap (fun l => l ++ [sep])) = ls
  := by
  induction ls with
  | nil => rfl
  | cons l ls ih =>
      obtain ⟨hl, hls⟩ := List.forall_mem_cons.mp h
      rw [List.flatMap_cons, List.append_assoc, List.singleton_append, lines,
        linesFrom_append _ hl, List.nil_append, linesFrom, if_pos rfl]
      congr 1
      exact ih hls

theorem lines_eq_nil (h : getline sep xs = none) :
  lines sep xs = []
  := by
  rw [getline] at h
  cases hnext : nextLine sep xs with
  | some split => simp [hnext] at h
  | none =>
      obtain rfl : xs = [] := by
        by_contra hne
        simp [hnext, hne] at h
      rfl

theorem lines_eq_cons (h : getline sep xs = some (line, rest)) :
  lines sep xs = line :: lines sep rest
  := by
  rw [getline] at h
  cases hnext : nextLine sep xs with
  | some split =>
      rw [hnext, Option.some.injEq] at h
      rw [h] at hnext
      obtain ⟨rfl, hline⟩ := nextLine_eq_some.mp hnext
      rw [lines, linesFrom_append _ hline, List.nil_append, linesFrom, if_pos rfl, lines]
  | none =>
      rw [hnext] at h
      by_cases hne : xs = []
      · simp [hne] at h
      · simp only [hne, if_false, Option.some.injEq, Prod.mk.injEq] at h
        obtain ⟨rfl, rfl⟩ := h
        have hline : linesFrom sep [] (xs ++ []) = linesFrom sep ([] ++ xs) [] :=
          linesFrom_append [] (nextLine_eq_none.mp hnext)
        rw [List.append_nil, List.nil_append] at hline
        rw [lines, hline, linesFrom, if_neg hne]
        rfl

end Lines
