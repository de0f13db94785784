import TinyLsm.CompactionCrash

/-!
# The interface

What `kv_store.h` asks of a store, and the two stores that keep it.  A MemTable keeps it with its own
`get` and `scan`; a database, with its tables, its log, its compactions and its restarts, answers every
call as one MemTable would that had absorbed all operations (`database_answers_as_memTable`).
-/

namespace TinyLsm

open Transition OrderedMap

/-- The comments of `KVStore`: `get` finds the value of the last write, and `scan` lists every live entry
of the range in ascending order. -/
structure IsKvStore (get : Bytes → Option Bytes) (scan : Bytes → Bytes → List (Bytes × Bytes))
    (ops : List Op) : Prop where
  get_eq : ∀ key, get key = contents ops key
  isScan : ∀ start stop, IsScan (contents ops) start stop (scan start stop)

/-! ### The MemTable -/

theorem MemTable.get_eq (m : MemTable) (key : Bytes) :
  m.get key = (m.entries.find? key).bind Entry.live
  := by
  rw [get, find, entries]
  cases m.table.find? key with
  | none => rfl
  | some entry => rfl

/-- The entries `MemTable::scan` visits. -/
def MemTable.visited (m : MemTable) (start stop : Bytes) : EntryMap where
  entries := m.table.range start stop
  sorted := by
    rw [range_eq_filter]
    exact m.table.sorted.filter _

theorem MemTable.isScan_scan (m : MemTable) (start stop : Bytes) :
  IsScan m.get start stop (m.scan start stop)
  := by
  have hscan : m.scan start stop = (m.visited start stop).livePairs := rfl
  rw [hscan]
  constructor
  · apply EntryMap.ascending_livePairs
  · intro key value
    have hmem : (key, value) ∈ (m.visited start stop).livePairs
        ↔ lookup key (m.visited start stop).livePairs = some value :=
      @mem_entries _ _ _ ⟨_, EntryMap.ascending_livePairs _⟩ key value
    have hfind : (m.visited start stop).find? key = lookup key (m.table.range start stop) := rfl
    rw [hmem, EntryMap.lookup_livePairs, hfind, lookup_range, MemTable.get_eq, MemTable.entries]
    split_ifs with hin
    · simp [hin.1, hin.2]
    · apply iff_of_false (by simp)
      exact fun h => hin ⟨h.1, h.2.1⟩

/-- A MemTable keeps the interface. -/
theorem memTable_isKvStore (ops : List Op) :
  IsKvStore (memTableOf ops).get (memTableOf ops).scan ops
  := by
  have hget : (memTableOf ops).get = contents ops := by
    funext key
    rw [MemTable.get_eq]
    induction ops using List.reverseRecOn with
    | nil => simp
    | append_singleton ops op ih =>
        rw [memTableOf_concat, contents_concat, MemTable.entries_apply, find?_insert, Op.apply]
        split_ifs with hkey
        · simp
        · exact ih
  constructor
  · exact fun key => congrFun hget key
  · intro start stop
    rw [← hget]
    apply MemTable.isScan_scan

/-- Its size is the number of the keys that were written, removed ones included. -/
theorem size_memTableOf (ops : List Op) :
  (memTableOf ops).size = (ops.map Op.key).toFinset.card
  := by
  have hmem : ∀ key, ((memTableOf ops).entries.find? key).isSome ↔ key ∈ ops.map Op.key := by
    intro key
    induction ops using List.reverseRecOn with
    | nil => simp
    | append_singleton ops op ih =>
        rw [memTableOf_concat, MemTable.entries_apply, find?_insert, List.map_append,
          List.mem_append, ← ih, List.map_singleton, List.mem_singleton]
        split_ifs with hkey
        · simp [hkey]
        · simp [Ne.symm hkey]
  have hnodup : ((memTableOf ops).entries.entries.map Prod.fst).Nodup := by
    rw [List.Nodup, List.pairwise_map]
    exact (memTableOf ops).entries.sorted.imp (fun hlt => ne_of_lt hlt)
  have hsize : (memTableOf ops).size = ((memTableOf ops).entries.entries.map Prod.fst).length := by
    rw [List.length_map]
    rfl
  rw [hsize, ← List.toFinset_card_of_nodup hnodup]
  congr 1
  ext key
  rw [List.mem_toFinset, List.mem_toFinset, ← hmem, Option.isSome_iff_exists]
  simp only [← mem_entries, List.mem_map, Prod.exists, exists_and_right, exists_eq_right]

/-! ### The database -/

/-- Whatever flushes, compactions, kills and restarts lie behind it, an open database answers every `get`
and every `scan` as one MemTable would that had absorbed the operations of the calls. -/
theorem database_answers_as_memTable {s : State} (h : Reaches step Apart State.init s) {p : Process}
    (hp : s.status = .running p) (hidle : p.writer = .idle) :
  ∃ ops, Resolves s.calls ops ∧ (∀ key, p.db.get key = .ok ((memTableOf ops).get key))
    ∧ ∀ start stop, p.db.scan start stop = .ok ((memTableOf ops).scan start stop)
  := by
  have hsound := sound_of_apart h
  have hvalid := hsound.valid hp
  have hmeans := hsound.means
  rw [hp] at hmeans
  obtain ⟨ops, hresolves, hview⟩ := hmeans.view
  have happlied : p.writer.applied = [] := by
    rw [hidle]
    rfl
  rw [happlied, List.append_nil] at hview
  have hmemtable := memTable_isKvStore ops
  refine ⟨ops, hresolves, ?_, ?_⟩
  · intro key
    rw [hmemtable.get_eq, ← hview, Database.get_eq_view hvalid]
  · intro start stop
    obtain ⟨pairs, hpairs, his⟩ := Database.scan_eq_view hvalid start stop
    rw [hview] at his
    rw [hpairs, his.unique (hmemtable.isScan start stop)]

/-- A kill in the middle of a compaction, and the directory opened again. -/
def reopenedRun : List Action :=
  mergingRun ++ [.kill] ++ launchActions 0 2

theorem database_answers_as_memTable_reopened :
  ∃ s p ops, run (guarded step State.apart) State.init reopenedRun = some s
    ∧ s.status = .running p ∧ Resolves s.calls ops
    ∧ (∀ key, p.db.get key = .ok ((memTableOf ops).get key))
    ∧ ∀ start stop, p.db.scan start stop = .ok ((memTableOf ops).scan start stop)
  := by
  have hrun : (run (guarded step State.apart) State.init reopenedRun).any
      (fun s => s.runs Process.unlocked) = true := by
    decide +kernel
  obtain ⟨s, hs, hruns⟩ := exists_of_run hrun
  obtain ⟨p, hp, hunlocked⟩ := State.runs_iff.mp hruns
  have hreach : Reaches step Apart State.init s :=
    Reaches.of_run hs (fun _ _ _ ha => flushApart_of_apart ha)
  obtain ⟨ops, hresolves, hanswers⟩ :=
    database_answers_as_memTable hreach hp (Process.unlocked_iff.mp hunlocked)
  exact ⟨s, p, ops, hs, hp, hresolves, hanswers⟩

end TinyLsm
