import TinyLsm.CompactionCrash

/-!
# Leftover tables

When the removal of an old file fails, the deletion loop of a compaction goes on with the
next one, so any of the old tables may be left.  A reopened database answers as the running
one does exactly when, for every key without a value and without an entry in the MemTable,
the newest leftover table with an entry for it has a tombstone (`leftovers_harmless_iff`).
-/

namespace TinyLsm

open FileSystem Layers Transition

/-- The tables whose removal fails, for each whether it does. -/
def leftovers (old : List SSTableReader) (fails : List Bool) : List SSTableReader :=
  ((old.zip fails).filter Prod.snd).map Prod.fst

/-- The deletion of a table, which may fail. -/
def deletion (fails : Bool) : Action :=
  if fails then .compactorFail false else .compactor 0

/-! ### The deletion loop -/

/-- The deletion loop leaves the tables whose removal fails, and the log. -/
theorem run_deletions (p : Process) (calls : List Call) {old others : List SSTableReader}
    {disk : DbDisk} {fails : List Bool} (hlen : fails.length = old.length)
    (hholds : Holds disk (old ++ others))
    (hdistinct : ((old ++ others).map SSTableReader.path).Nodup) :
  ∃ disk', run step ⟨disk, .running { p with compactor := .deleting old }, calls⟩
        (fails.map deletion)
      = some ⟨disk', .running { p with compactor := .deleting [] }, calls⟩
    ∧ Holds disk' (leftovers old fails ++ others)
    ∧ disk'.find? .walLog = disk.find? .walLog
  := by
  induction old generalizing disk others fails with
  | nil =>
      obtain rfl := List.length_eq_zero_iff.mp hlen
      exact ⟨disk, rfl, hholds, rfl⟩
  | cons r old ih =>
      cases fails with
      | nil => simp at hlen
      | cons failed fails =>
          have hlen' : fails.length = old.length := by simpa using hlen
          cases failed with
          | true =>
              -- The table joins those that stay.
              have hperm : (r :: old ++ others).Perm (old ++ r :: others) :=
                List.perm_middle.symm
              obtain ⟨disk', hrun, hholds', hlog⟩ := ih hlen' (hholds.perm hperm)
                ((hperm.map SSTableReader.path).nodup hdistinct)
              refine ⟨disk', ?_, hholds'.perm List.perm_middle, hlog⟩
              simp only [List.map_cons, deletion, run, step, Status.move,
                Process.compactorFailMove, if_true, Move.silent, State.after, Move.files,
                Syscall.execOption_none, Option.map_some, Option.bind_some, List.append_nil]
              exact hrun
          | false =>
              have hholds₁ : Holds ((Syscall.unlink (.sst r.path)).exec disk) (old ++ others) := by
                apply hholds.unlink
                intro r' hr' heq
                rw [List.cons_append, List.map_cons, List.nodup_cons] at hdistinct
                apply hdistinct.1
                rw [← heq]
                exact List.mem_map_of_mem hr'
              have hdistinct₁ : ((old ++ others).map SSTableReader.path).Nodup := by
                rw [List.cons_append, List.map_cons, List.nodup_cons] at hdistinct
                exact hdistinct.2
              obtain ⟨disk', hrun, hholds', hlog⟩ := ih hlen' hholds₁ hdistinct₁
              refine ⟨disk', ?_, hholds', ?_⟩
              · simp only [List.map_cons, deletion, run, step, Status.move, Process.compactorMove,
                  State.after, Move.files, Syscall.execOption_some, Option.map_some,
                  Option.bind_some, List.append_nil, Bool.false_eq_true, if_false]
                exact hrun
              · rw [hlog]
                apply Syscall.find?_exec_of_notMem
                simp [Syscall.files]

theorem leftovers_sublist (old : List SSTableReader) (fails : List Bool) :
  (leftovers old fails).Sublist old
  := by
  induction old generalizing fails with
  | nil => simp [leftovers]
  | cons r old ih =>
      cases fails with
      | nil => simp [leftovers]
      | cons failed fails =>
          have hih := ih fails
          cases failed with
          | true => simpa [leftovers] using hih
          | false => simpa [leftovers] using hih.cons r

/-- A table with the largest number of all is the last in ascending order. -/
theorem exists_concat_of_perm {readers left : List SSTableReader} {r : SSTableReader}
    (hperm : readers.Perm (left ++ [r])) (hlt : ∀ r' ∈ left, r'.path < r.path)
    (hascending : readers.Pairwise (fun a b => a.path < b.path)) :
  ∃ sorted, readers = sorted ++ [r] ∧ sorted.Perm left
  := by
  obtain ⟨pre, post, rfl⟩ := List.append_of_mem (hperm.mem_iff.mpr (by simp : r ∈ left ++ [r]))
  have hpost : post = [] := by
    apply List.eq_nil_iff_forall_not_mem.mpr
    intro r' hr'
    have hgt : r.path < r'.path :=
      (List.pairwise_cons.mp (List.pairwise_append.mp hascending).2.1).1 r' hr'
    have hmem : r' ∈ left ++ [r] := hperm.mem_iff.mp (by simp [hr'])
    rcases List.mem_append.mp hmem with hleft | hlast
    · exact absurd (hlt r' hleft) (by omega)
    · obtain rfl := List.mem_singleton.mp hlast
      exact lt_irrefl _ hgt
  subst hpost
  refine ⟨pre, rfl, ?_⟩
  have hrev := (List.perm_append_comm.trans hperm).trans List.perm_append_comm
  exact (List.perm_cons r).mp hrev

/-! ### What the leftovers show -/

/-- The newest of some tables with an entry for the key has a tombstone, if there is one. -/
def Buried (tables : List SSTableReader) (key : Bytes) : Prop :=
  ∀ r ∈ tables, ∀ entry, r.find key = .ok (some entry) →
    (∀ r' ∈ tables, r.path < r'.path → r'.find key = .ok none) → entry.isTombstone

/-- Sorted tables show no value for a key exactly when it is buried. -/
theorem view_eq_none_iff_buried {sorted left : List SSTableReader} (hperm : sorted.Perm left)
    (hvalid : ∀ r ∈ left, r.Valid)
    (hascending : sorted.Pairwise (fun a b => a.path < b.path)) (key : Bytes) :
  view Entry.live (sorted.map SSTableReader.layer) key = none ↔ Buried left key
  := by
  have hlive : ∀ entry : Entry, entry.live = none ↔ entry.isTombstone = true := by
    intro entry
    rw [← Option.isNone_iff_eq_none, ← Option.not_isSome, Entry.isSome_live]
    simp
  rw [view]
  constructor
  · intro hnone r hr entry hfind hlater
    have hlayer : r.layer key = some entry := by
      have heq := (hvalid r hr).find_eq key
      rw [hfind] at heq
      exact (Except.ok.inj heq).symm
    cases hnew : newest (sorted.map SSTableReader.layer) key with
    | none =>
        have habsent := newest_eq_none.mp hnew r.layer
          (List.mem_map_of_mem (hperm.mem_iff.mpr hr))
        simp [hlayer] at habsent
    | some entry' =>
        -- The newest holder is `r`: a later one would have the key too.
        obtain ⟨pre, r', post, hsplit, hlayer', hpost⟩ := newest_map_eq_some hnew
        have hr' : r ∈ sorted := hperm.mem_iff.mpr hr
        have hmem' : r' ∈ left := hperm.mem_iff.mp (by simp [hsplit])
        have heq : r = r' := by
          rw [hsplit] at hr' hascending
          rcases List.mem_append.mp hr' with hpre | htail
          · have hlt := (List.pairwise_append.mp hascending).2.2 r hpre r' List.mem_cons_self
            have habsent := hlater r' hmem' hlt
            rw [(hvalid r' hmem').find_eq, hlayer'] at habsent
            simp at habsent
          · rcases List.mem_cons.mp htail with rfl | hmem
            · rfl
            · simp [hpost r hmem] at hlayer
        subst heq
        rw [hlayer] at hlayer'
        obtain rfl := Option.some.inj hlayer'
        rw [hnew, Option.bind_some] at hnone
        exact (hlive entry).mp hnone
  · intro hburied
    cases hnew : newest (sorted.map SSTableReader.layer) key with
    | none => rfl
    | some entry =>
        obtain ⟨pre, r, post, hsplit, hlayer, hpost⟩ := newest_map_eq_some hnew
        have hmem : r ∈ left := hperm.mem_iff.mp (by simp [hsplit])
        rw [Option.bind_some, hlive]
        apply hburied r hmem entry
        · rw [(hvalid r hmem).find_eq, hlayer]
        · intro r' hr' hlt
          rw [(hvalid r' hr').find_eq]
          have hmem' := hperm.mem_iff.mpr hr'
          rw [hsplit] at hmem' hascending
          rcases List.mem_append.mp hmem' with hpre | htail
          · have hlt' := (List.pairwise_append.mp hascending).2.2 r' hpre r List.mem_cons_self
            omega
          · rcases List.mem_cons.mp htail with rfl | hlate
            · omega
            · rw [hpost r' hlate]

/-- From a directory at rest on, a run keeps the state sound. -/
theorem AtRest.sound {ends : Prop} {disk : DbDisk} {calls : List Call} {s : State}
    (hrest : AtRest disk calls)
    (h : Reaches step (fun s a _ => StepOk ends s a) ⟨disk, .down, calls⟩ s) :
  Sound ends s
  := by
  apply h.invariant (I := Sound ends)
  · constructor
    · obtain ⟨readers, absorbed, ops, hrec, -⟩ := hrest
      intro n contents hfind
      obtain ⟨r, hr, rfl, rfl⟩ := (holds_of_openTables hrec.opened n contents).mp hfind
      exact ⟨r, loaded_of_openTables hrec.opened r hr⟩
    · exact hrest
    · intro _ p hp
      simp at hp
  · exact fun s a t hs hstep hok => sound_step hs hstep hok

/-- The constructor finds, in a directory that holds some tables and one with a larger
number, these tables sorted and then the last one. -/
theorem exists_recoverable {disk : DbDisk} {left : List SSTableReader} {r : SSTableReader}
    {absorbed : List Op} (hholds : Holds disk (left ++ [r]))
    (hdistinct : ((left ++ [r]).map SSTableReader.path).Nodup)
    (hloaded : ∀ a ∈ left ++ [r], a.Loaded) (hvalid : ∀ a ∈ left ++ [r], a.Valid)
    (hlt : ∀ a ∈ left, a.path < r.path) (hin : ∀ op ∈ absorbed, op.InRange)
    (hlog : disk.find? .walLog = some (encodeOps absorbed)) :
  ∃ sorted, sorted.Perm left ∧ sorted.Pairwise (fun a b => a.path < b.path)
    ∧ Recoverable disk (sorted ++ [r]) absorbed
  := by
  obtain ⟨readers, hopen⟩ : ∃ readers, openTables disk = .ok readers := by
    apply openTables_of_load
    intro n contents hn
    obtain ⟨a, ha, rfl, rfl⟩ := (hholds n contents).mp hn
    exact ⟨a, hloaded a ha⟩
  have hperm := perm_of_openTables hopen hholds hloaded hdistinct
  have hascending := ascending_of_openTables hopen
  obtain ⟨sorted, rfl, hsorted⟩ := exists_concat_of_perm hperm hlt hascending
  refine ⟨sorted, hsorted, (List.pairwise_append.mp hascending).1, ?_⟩
  constructor
  · exact hopen
  · exact fun a ha => hvalid a (hperm.subset ha)
  · exact hin
  · exact ⟨[], by rw [hlog, Option.getD_some, List.append_nil], rfl⟩

/-- Leftover tables under the compacted one change the answer for a key only if it has no
entry in the MemTable, no value in the tables merged, and is not buried. -/
theorem recoveredView_leftovers_iff {db : Database} {left sorted : List SSTableReader}
    {r : SSTableReader} {absorbed : List Op} (hmem : db.memtable = memTableOf absorbed)
    (hdb : ∀ a ∈ db.sstables, a.Valid) (hmerges : r.layer = mergedLayer db.sstables)
    (hperm : sorted.Perm left) (hvalid : ∀ a ∈ left, a.Valid)
    (hascending : sorted.Pairwise (fun a b => a.path < b.path)) (key : Bytes) :
  recoveredView (sorted ++ [r]) absorbed key = db.view key
    ↔ (db.memtable.find key = none → db.get key = .ok none → Buried left key)
  := by
  have hleft := view_survivors_iff Entry.live (db.sstables.map SSTableReader.layer)
    (sorted.map SSTableReader.layer) [db.memtable.entries.layer] key
  have habsent : newest [db.memtable.entries.layer] key = none
      ↔ db.memtable.find key = none := by
    rw [newest_cons, newest_nil, Option.none_or, EntryMap.layer, Option.map_eq_none_iff]
    exact Iff.rfl
  have hview : recoveredView (sorted ++ [r]) absorbed = view Entry.live
      (sorted.map SSTableReader.layer ++ mergedLayer db.sstables
        :: [db.memtable.entries.layer]) := by
    simp [recoveredView, hmerges, hmem]
  rw [hview, Database.view, Database.layers, mergedLayer, hleft, habsent]
  constructor
  · intro h hnone hget
    apply (view_eq_none_iff_buried hperm hvalid hascending key).mp
    apply h hnone
    rw [Database.get_eq_view hdb, Except.ok.injEq, Database.view, Database.layers, view,
      newest_append, habsent.mpr hnone, Option.none_or] at hget
    exact hget
  · intro h hnone hmerged
    apply (view_eq_none_iff_buried hperm hvalid hascending key).mpr
    apply h hnone
    rw [Database.get_eq_view hdb, Database.view, Database.layers, view, newest_append,
      habsent.mpr hnone, Option.none_or]
    exact congrArg Except.ok hmerged

/-- A removed key in the newer of two tables, and a compaction of both up to its swap. -/
def swappingRun : List Action :=
  [mergingRun, [.compactor 0, .compactor 0, .compactor 24, .compactor 0, .compactor 0]].flatten

/-- Between calls, with a compaction of all tables before its swap, after which the removals
fail as given and leave what passes the test. -/
def State.swapsAll (fails : List Bool) (test : DbDisk → Process → Bool) (s : State) : Bool :=
  match s.status with
  | .running p =>
      p.unlocked &&
        match p.compactor with
        | .swapping toCompact _ =>
            decide (toCompact.length = p.db.sstables.length)
              && decide (fails.length = toCompact.length)
              && match run step s (.compactor 0 :: fails.map deletion) with
                | some ⟨disk, .running q, _⟩ => test disk q
                | _ => false
        | _ => false
  | _ => false

theorem exists_of_swapsAll {fails : List Bool} {test : DbDisk → Process → Bool} {s : State}
    (hwf : s.status.WellFormed s.disk) (h : s.swapsAll fails test = true) :
  ∃ p q t toCompact r, s.status = .running p ∧ p.writer = .idle
    ∧ p.compactor = .swapping toCompact r ∧ p.db.sstables = toCompact
    ∧ fails.length = toCompact.length
    ∧ run step s (.compactor 0 :: fails.map deletion) = some t
    ∧ t.status = .running q ∧ test t.disk q = true
  := by
  rw [State.swapsAll] at h
  split at h
  · rename_i p hp
    rw [Bool.and_eq_true] at h
    obtain ⟨hunlocked, h⟩ := h
    split at h
    · rename_i toCompact r hc
      simp only [Bool.and_eq_true, decide_eq_true_eq] at h
      obtain ⟨⟨hall, hlen⟩, h⟩ := h
      split at h
      · rename_i disk q calls hrun
        have hprefix := hwf
        rw [hp] at hprefix
        have hcompactor := hprefix.compactor
        rw [hc] at hcompactor
        have heq : toCompact = p.db.sstables := hcompactor.1.eq_of_length hall
        exact ⟨p, q, _, toCompact, r, hp, Process.unlocked_iff.mp hunlocked, hc, heq.symm, hlen,
          hrun, rfl, h⟩
      · simp at h
    · simp at h
  · simp at h

/-- The key `a` has no value in the process, and one in the directory. -/
def revives (disk : DbDisk) (q : Process) : Bool :=
  match Database.construct 0 2 disk with
  | .ok (db, _) => q.db.get [97] = .ok none ∧ db.get [97] = .ok (some [1])
  | .error _ => false

end TinyLsm
