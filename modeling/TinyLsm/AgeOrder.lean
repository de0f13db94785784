import TinyLsm.Meaning

/-!
# The order of the numbers

A reopened database sorts its tables by number, while a running one keeps them in the order
of their age.  The two orders are read alike as long as a table with a smaller number than
an older one agrees with it (`Process.Ordered`).  The only such pair comes from a flush
between the snapshot of a compaction and the reservation of its number, so the order is kept
by every step when these flushes agree with what the compaction merges (`FlushAgrees`).
-/

namespace TinyLsm

open FileSystem Layers

/-- The tables a compaction has taken its snapshot of, while it has no number yet. -/
def Compactor.window : Compactor → Option (List SSTableReader)
  | merging toCompact => some toCompact
  | allocating toCompact _ => some toCompact
  | _ => none

/-- The tables flushed since the snapshot of a compaction: the compacted table will be older
than these, so it has a smaller number or agrees with them. -/
def Compactor.Pending (c : Compactor) (db : Database) : Prop :=
  match c with
  | merging toCompact =>
      ∀ r ∈ db.sstables.drop toCompact.length, Agree (mergedLayer toCompact) r.layer
  | allocating toCompact _ =>
      ∀ r ∈ db.sstables.drop toCompact.length, Agree (mergedLayer toCompact) r.layer
  | writing toCompact _ n _ =>
      ∀ r ∈ db.sstables.drop toCompact.length,
        n < r.path ∨ Agree (mergedLayer toCompact) r.layer
  | _ => True

/-- The tables on disk are read alike in the order of their age and in that of their
numbers. -/
structure Process.Ordered (p : Process) : Prop where
  inOrder : InOrder SSTableReader.path SSTableReader.layer p.generations
  pending : p.compactor.Pending p.db

/-- A table that a flush renames between the snapshot of a compaction and the reservation of
its number agrees with what the compaction merges. -/
def Process.FlushAgrees (p : Process) : Prop :=
  ∀ op toCompact, p.writer = .flushing op .synced → p.compactor.window = some toCompact →
    Agree (mergedLayer toCompact) p.db.memtable.entries.layer

theorem path_of_openSSTable {disk : DbDisk} {n : ℕ} {r : SSTableReader}
    (h : openSSTable disk n = .ok r) :
  r.path = n
  := by
  rw [openSSTable] at h
  split at h
  · simp at h
  · exact (SSTableReader.load_eq_ok h).1

namespace Process

variable {p p' : Process} {disk disk' : DbDisk} {c : Option DbSyscall} {calls : List Call}

theorem Ordered.setWriter (ho : p.Ordered) {db : Database} {w : Writer}
    (hsst : db.sstables = p.db.sstables) :
  ({ p with db := db, writer := w } : Process).Ordered
  := by
  have hpending := ho.pending
  constructor
  · have horder := ho.inOrder
    simp only [generations, hsst] at horder ⊢
    exact horder
  · simp only [Compactor.Pending, hsst] at hpending ⊢
    exact hpending

/-- A step of the writer keeps the order, if a table flushed between a snapshot and the
reservation of a number agrees with the merge. -/
theorem Ordered.writerStep (h : p.WellFormed disk) (ho : p.Ordered) (hagrees : p.FlushAgrees)
    (hflushed : p'.writer.Flushed p'.db) (hstep : p.WriterStep disk' c (.running p') calls) :
  p'.Ordered
  := by
  have hpending := ho.pending
  have hcompactor := h.compactor
  cases hstep with
  | append hw hne => exact ho.setWriter rfl
  | sync hw => exact ho.setWriter rfl
  | apply hw hflush => exact ho.setWriter rfl
  | startFlush hw hflush => exact ho.setWriter rfl
  | write hw hfile => exact ho.setWriter rfl
  | reject hw hopen => exact ho.setWriter rfl
  | reset hw => exact ho.setWriter p.db.clearMemtable_sstables
  | @rename op r hw hopen =>
      have hpath := path_of_openSSTable hopen
      obtain ⟨older, r', hsst, hlayer⟩ := hflushed
      obtain rfl : r = r' := by
        have hlast := congrArg List.getLast? hsst
        simpa [Database.pushTable] using hlast
      constructor
      · rw [generations_pushTable hcompactor]
        apply List.pairwise_append.mpr
        refine ⟨ho.inOrder, List.pairwise_singleton _ _, ?_⟩
        intro a ha b hb
        obtain rfl := List.mem_singleton.mp hb
        left
        rw [hpath]
        exact h.below a ha
      · have hdrop : ∀ toCompact : List SSTableReader, toCompact <+: p.db.sstables →
            (p.db.sstables ++ [r]).drop toCompact.length
              = p.db.sstables.drop toCompact.length ++ [r] :=
          fun toCompact hpre => List.drop_append_of_le_length hpre.length_le
        cases hc : p.compactor with
        | merging toCompact =>
            simp only [hc, Compactor.Pending, Compactor.WellFormed, Database.pushTable]
              at hpending hcompactor ⊢
            rw [hdrop _ hcompactor]
            intro b hb
            rcases List.mem_append.mp hb with hb | hb
            · exact hpending b hb
            · obtain rfl := List.mem_singleton.mp hb
              rw [hlayer]
              exact hagrees op toCompact hw (by rw [hc]; rfl)
        | allocating toCompact merged =>
            simp only [hc, Compactor.Pending, Compactor.WellFormed, Database.pushTable]
              at hpending hcompactor ⊢
            rw [hdrop _ hcompactor.1]
            intro b hb
            rcases List.mem_append.mp hb with hb | hb
            · exact hpending b hb
            · obtain rfl := List.mem_singleton.mp hb
              rw [hlayer]
              exact hagrees op toCompact hw (by rw [hc]; rfl)
        | writing toCompact merged n file =>
            simp only [hc, Compactor.Pending, Compactor.WellFormed, Database.pushTable]
              at hpending hcompactor ⊢
            rw [hdrop _ hcompactor.1]
            intro b hb
            rcases List.mem_append.mp hb with hb | hb
            · exact hpending b hb
            · obtain rfl := List.mem_singleton.mp hb
              left
              rw [hpath]
              exact hcompactor.2.2.2.1
        | _ => trivial

/-- A step of the compaction thread keeps the order. -/
theorem Ordered.compactorStep (h : p.WellFormed disk) (ho : p.Ordered)
    (hmerges : p'.compactor.Merges p'.db)
    (hstep : p.CompactorStep disk' c (.running p') calls) :
  p'.Ordered
  := by
  have hpending := ho.pending
  have hcompactor := h.compactor
  have horder := ho.inOrder
  cases hstep with
  | consume hc hreq =>
      rw [generations, hc] at horder
      exact ⟨horder, trivial⟩
  | skip hc hw hlen =>
      rw [generations, hc] at horder
      exact ⟨horder, trivial⟩
  | snapshot hc hw hlen =>
      rw [generations, hc] at horder
      refine ⟨horder, ?_⟩
      simp [Compactor.Pending]
  | merge hc hmerge =>
      rw [generations, hc] at horder
      rw [hc] at hpending
      exact ⟨horder, hpending⟩
  | @allocate toCompact merged hc hw =>
      rw [generations, hc] at horder
      rw [hc] at hpending
      exact ⟨horder, fun r hr => Or.inr (hpending r hr)⟩
  | write hc hfile =>
      rw [generations, hc] at horder
      rw [hc] at hpending
      exact ⟨horder, hpending⟩
  | @rename toCompact merged n r hc hopen =>
      rw [generations, hc] at horder
      simp only [hc, Compactor.Pending, Compactor.WellFormed] at hpending hcompactor
      have hpath := path_of_openSSTable hopen
      obtain ⟨rest, hrest⟩ := hcompactor.1
      simp only [← hrest, List.drop_left] at horder hpending
      obtain ⟨hold, hlater, hcross⟩ := List.pairwise_append.mp horder
      refine ⟨?_, trivial⟩
      simp only [generations, ← hrest, List.drop_left]
      apply List.pairwise_append.mpr
      refine ⟨hold, List.pairwise_cons.mpr ⟨?_, hlater⟩, ?_⟩
      · intro b hb
        rw [hpath, hmerges]
        exact hpending b hb
      · intro a ha b hb
        rcases List.mem_cons.mp hb with rfl | hb
        · left
          rw [hpath]
          exact hcompactor.2.1 a ha
        · exact hcross a ha b hb
  | swap hc hw =>
      rw [hc] at hcompactor
      refine ⟨?_, trivial⟩
      rw [generations_swapIn hc hcompactor.1]
      exact horder
  | @unlink r old hc =>
      refine ⟨?_, trivial⟩
      simp only [generations, hc, List.cons_append] at horder ⊢
      exact (List.pairwise_cons.mp horder).2
  | deleted hc =>
      rw [generations, hc] at horder
      exact ⟨horder, trivial⟩
  | finish hc =>
      rw [generations, hc] at horder
      exact ⟨horder, trivial⟩

end Process

end TinyLsm
