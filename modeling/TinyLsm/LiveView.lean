import TinyLsm.Recovery
import TinyLsm.SSTable.RoundTrip

/-!
# The live view of any layering

What a database answers from tables that were written for arbitrary maps, with whatever overlaps and
tombstones, whether or not one run has written them.  The table a compaction writes lists the pairs
that the search of `Database::get` through the compacted tables finds (`compacted_live_view`), and
`Database::scan` lists the pairs that `Database::get` finds (`scan_agrees_with_get`).
-/

namespace TinyLsm

open FileSystem Layers OrderedMap

/-- The reader was opened on a table written for some map in range. -/
def SSTableReader.Written (r : SSTableReader) : Prop :=
  ∃ m : EntryMap, m.InRange ∧ r.OpenedOn m

theorem SSTableReader.Written.valid {r : SSTableReader} (h : r.Written) :
  r.Valid
  := by
  obtain ⟨m, hrange, hopened⟩ := h
  obtain ⟨t, -, ht⟩ := hopened.exists_table hrange
  exact ⟨t, ht⟩

theorem Table.written_reader (t : Table) (path : ℕ) :
  (t.reader path).Written
  := ⟨t.entries, t.inRange, t.openedOn_reader path⟩

/-! ### Compaction -/

theorem Entry.live_eq_some {e : Entry} {value : Bytes} :
  e.live = some value ↔ e = ⟨value, false⟩
  := by
  obtain ⟨v, isTombstone⟩ := e
  cases isTombstone with
  | false => simp [live]
  | true => simp [live]

/-- The merged layer has the live entries of the view, and no others. -/
theorem merged_eq_some {layers : List (Bytes → Option Entry)} {key : Bytes} {entry : Entry} :
  merged Entry.live layers key = some entry
    ↔ ∃ value, entry = ⟨value, false⟩ ∧ view Entry.live layers key = some value
  := by
  rw [merged, view, Option.filter_eq_some_iff]
  constructor
  · rintro ⟨hnew, hlive⟩
    obtain ⟨value, hvalue⟩ := Option.isSome_iff_exists.mp hlive
    refine ⟨value, Entry.live_eq_some.mp hvalue, ?_⟩
    rw [hnew, Option.bind_some, hvalue]
  · rintro ⟨value, rfl, hview⟩
    obtain ⟨e, hnew, hlive⟩ := Option.bind_eq_some_iff.mp hview
    rw [hnew, Entry.live_eq_some.mp hlive]
    exact ⟨rfl, rfl⟩

/-- The table that `CompactOnce` writes lists, in ascending order, exactly the pairs that a search of
the compacted tables from the newest to the oldest finds. -/
theorem compacted_live_view {toCompact : List SSTableReader} (h : ∀ r ∈ toCompact, r.Written) :
  ∃ entries, Database.compactedEntries toCompact = .ok entries ∧ entries.InRange
    ∧ ∀ contents path, writeSSTable entries = .ok contents →
      ∃ r all, SSTableReader.load path contents = .ok r ∧ r.allRaw = .ok all
        ∧ all.Pairwise (fun a b => a.1 < b.1)
        ∧ ∀ key entry, (key, entry) ∈ all
          ↔ ∃ value, entry = ⟨value, false⟩
            ∧ Database.getFrom key toCompact.reverse = .ok (some value)
  := by
  have hvalid : ∀ r ∈ toCompact, r.Valid := fun r hr => (h r hr).valid
  obtain ⟨entries, hentries, hlayer⟩ := compactedEntries_eq hvalid
  have hrange := inRange_compactedEntries hentries
  refine ⟨entries, hentries, hrange, ?_⟩
  intro contents path hwrite
  obtain ⟨t, rfl, hload⟩ := load_of_inRange hrange hwrite path
  refine ⟨_, _, hload, t.allRaw_reader path, ?_, ?_⟩
  · rw [List.pairwise_map]
    exact t.entries.sorted
  · intro key entry
    rw [mem_map_readBack, hlayer, merged_eq_some,
      getFrom_eq (fun r hr => hvalid r (List.mem_reverse.mp hr)), List.reverse_reverse]
    simp only [view, Except.ok.injEq]

/-- A table that deletes the key 97 and writes the key 99. -/
def overTwoEntries : Table where
  entries := (OrderedMap.empty.insert [97] ⟨[], true⟩).insert [99] ⟨[3], false⟩
  inRange := by decide +kernel
  fits := by decide +kernel

theorem compacted_live_view_over :
  ∃ entries, Database.compactedEntries [twoEntries.reader 1, overTwoEntries.reader 2] = .ok entries
    ∧ ∀ contents, writeSSTable entries = .ok contents →
      ∃ r all, SSTableReader.load 3 contents = .ok r ∧ r.allRaw = .ok all
        ∧ ([97], ⟨[1], false⟩) ∉ all ∧ ([99], ⟨[3], false⟩) ∈ all
  := by
  have hwritten : ∀ r ∈ [twoEntries.reader 1, overTwoEntries.reader 2], r.Written := by
    intro r hr
    rcases List.mem_pair.mp hr with rfl | rfl
    · apply Table.written_reader
    · apply Table.written_reader
  obtain ⟨entries, hentries, -, hlist⟩ := compacted_live_view hwritten
  use entries, hentries
  intro contents hwrite
  obtain ⟨r, all, hload, hraw, -, hmem⟩ := hlist contents 3 hwrite
  refine ⟨r, all, hload, hraw, ?_, (hmem _ _).mpr ⟨[3], rfl, by decide +kernel⟩⟩
  intro hin
  obtain ⟨value, -, hget⟩ := (hmem _ _).mp hin
  have hdeleted : Database.getFrom [97] [twoEntries.reader 1, overTwoEntries.reader 2].reverse
      = .ok none := by
    decide +kernel
  rw [hdeleted] at hget
  simp at hget

/-! ### Get and scan -/

/-- Whatever the MemTable and the tables hold, a scan lists in ascending order exactly the pairs with
a key in its range that `get` finds. -/
theorem scan_agrees_with_get {db : Database} (h : ∀ r ∈ db.sstables, r.Written)
    (start stop : Bytes) :
  ∃ pairs, db.scan start stop = .ok pairs
    ∧ pairs.Pairwise (fun a b => a.1 < b.1)
    ∧ ∀ key value, (key, value) ∈ pairs
      ↔ start ≤ key ∧ key < stop ∧ db.get key = .ok (some value)
  := by
  have hvalid : ∀ r ∈ db.sstables, r.Valid := fun r hr => (h r hr).valid
  obtain ⟨pairs, hscan, hpairs⟩ := Database.scan_eq_view hvalid start stop
  refine ⟨pairs, hscan, hpairs.ascending, ?_⟩
  intro key value
  rw [hpairs.mem_iff, Database.get_eq_view hvalid, Except.ok.injEq]

/-- A MemTable over a table. -/
def overTable : Database where
  flushThresholdBytes := 99
  compactionTriggerCount := 9
  nextSstableNumber := 2
  memtable := MemTable.empty.put [98] [2]
  sstables := [twoEntries.reader 1]
  compactionRequested := false
  compactionRunning := false

theorem scan_agrees_with_get_layers :
  ∃ pairs, overTable.scan [97] [99] = .ok pairs ∧ ([97], [1]) ∈ pairs ∧ ([98], [2]) ∈ pairs
  := by
  have hwritten : ∀ r ∈ overTable.sstables, r.Written := by
    intro r hr
    obtain rfl := List.mem_singleton.mp hr
    apply Table.written_reader
  obtain ⟨pairs, hscan, -, hmem⟩ := scan_agrees_with_get hwritten [97] [99]
  exact ⟨pairs, hscan, (hmem _ _).mpr (by decide +kernel), (hmem _ _).mpr (by decide +kernel)⟩

/-- The constructor of `Database` opens such tables in any directory of files written for maps in
range, whoever has written them. -/
theorem written_of_construct {thr : UInt64} {trig : ℕ} {disk disk' : DbDisk} {db : Database}
    (hdisk : ∀ n contents, disk.find? (.sst n) = some contents →
      ∃ m : EntryMap, m.InRange ∧ writeSSTable m = .ok contents)
    (h : Database.construct thr trig disk = .ok (db, disk')) :
  ∀ r ∈ db.sstables, r.Written
  := by
  rw [Database.construct] at h
  have hkept : ∀ n, ((tmpNumbers disk).foldl
      (fun disk n => (Syscall.unlink (.tmp n)).exec disk) disk).find? (.sst n)
      = disk.find? (.sst n) := fun n => find?_cleaned _ _ (by simp)
  generalize (tmpNumbers disk).foldl
    (fun disk n => (Syscall.unlink (.tmp n)).exec disk) disk = cleaned at h hkept
  cases hdiscover : Database.discover thr trig cleaned with
  | error e => simp [hdiscover, bind, Except.bind] at h
  | ok db₀ =>
      have hopen := (Database.discovered_of_discover hdiscover).1
      simp only [hdiscover, bind, Except.bind, Except.ok.injEq, Prod.mk.injEq] at h
      obtain ⟨rfl, -⟩ := h
      intro r hr
      have hfind := (holds_of_openTables hopen).find?_path hr
      rw [hkept] at hfind
      obtain ⟨m, hrange, hwrite⟩ := hdisk _ _ hfind
      exact ⟨m, hrange, r.contents, hwrite, loaded_of_openTables hopen r hr⟩

end TinyLsm
