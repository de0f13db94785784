import TinyLsm.Database
import TinyLsm.SSTable.Lookup

/-!
# Reading through the layers

On readers of tables, the lookups and the merge of the database are those of layered maps:
`Database::get` reads the view of the tables and the MemTable (`get_eq_view`),
`Database::scan` lists it (`scan_eq_view`), and `CompactOnce` computes the merged layer of
the tables it is given (`compactedEntries_eq`).
-/

namespace TinyLsm

open Layers OrderedMap

/-! ### Readers as layers -/

/-- The reader of some table. -/
def SSTableReader.Valid (r : SSTableReader) : Prop :=
  ∃ t : Table, r = t.reader r.path

/-- The layer a reader stands for. -/
def SSTableReader.layer (r : SSTableReader) (key : Bytes) : Option Entry :=
  match r.find key with
  | .ok entry => entry
  | .error _ => none

@[simp]
theorem Table.layer_reader (t : Table) (path : ℕ) :
  (t.reader path).layer = t.entries.layer
  := by
  funext key
  rw [SSTableReader.layer, t.find_reader path key]
  rfl

theorem Table.valid_reader (t : Table) (path : ℕ) :
  (t.reader path).Valid
  := ⟨t, rfl⟩

theorem SSTableReader.Valid.find_eq {r : SSTableReader} (h : r.Valid) (key : Bytes) :
  r.find key = .ok (r.layer key)
  := by
  obtain ⟨t, ht⟩ := h
  rw [ht, t.find_reader, t.layer_reader]
  rfl

/-- The entries `AllRaw` lists are sorted, and looking one up reads the layer. -/
theorem SSTableReader.Valid.allRaw_eq {r : SSTableReader} (h : r.Valid) :
  ∃ es, r.allRaw = .ok es ∧ es.Pairwise (fun a b => a.1 < b.1)
    ∧ ∀ key, lookup key es = r.layer key
  := by
  obtain ⟨t, ht⟩ := h
  use t.entries.entries.map readBack
  rw [ht]
  refine ⟨t.allRaw_reader _, ?_, ?_⟩
  · rw [List.pairwise_map]
    exact t.entries.sorted
  · intro key
    rw [t.layer_reader]
    exact lookup_map_snd Entry.onDisk key t.entries.entries

/-- The entries `ScanRaw` lists are sorted, and looking one up reads the layer inside the
range. -/
theorem SSTableReader.Valid.scanRaw_eq {r : SSTableReader} (h : r.Valid) (start stop : Bytes) :
  ∃ es, r.scanRaw start stop = .ok es ∧ es.Pairwise (fun a b => a.1 < b.1)
    ∧ ∀ key, lookup key es = if start ≤ key ∧ key < stop then r.layer key else none
  := by
  obtain ⟨t, ht⟩ := h
  use (t.entries.entries.filter (fun e => start ≤ e.1 ∧ e.1 < stop)).map readBack
  rw [ht]
  refine ⟨t.scanRaw_reader _ _ _, ?_, ?_⟩
  · rw [List.pairwise_map]
    exact t.entries.sorted.filter _
  · intro key
    have hrange : t.entries.entries.filter (fun e => start ≤ e.1 ∧ e.1 < stop)
        = t.entries.range start stop := by
      rw [range_eq_filter]
      apply List.filter_congr
      intro d _
      simp
    rw [t.layer_reader, EntryMap.layer, hrange]
    have hmap := lookup_map_snd Entry.onDisk key (t.entries.range start stop)
    rw [lookup_range] at hmap
    rw [show readBack = (fun e : Bytes × Entry => (e.1, e.2.onDisk)) from rfl, hmap]
    split_ifs with hin
    · rfl
    · rfl

/-! ### Merging -/

/-- Overwriting a map with what is read of each table, from the oldest to the newest, gives
the newest entries. -/
theorem foldlM_overwrite {readers : List SSTableReader}
    {read : SSTableReader → Except StorageError (List (Bytes × Entry))}
    {layer : SSTableReader → Bytes → Option Entry}
    (h : ∀ r ∈ readers, ∃ es, read r = .ok es ∧ es.Pairwise (fun a b => a.1 < b.1)
      ∧ ∀ key, lookup key es = layer r key) (m : EntryMap) :
  ∃ m', readers.foldlM (fun merged r => do .ok (OrderedMap.overwrite merged (← read r))) m = .ok m'
    ∧ ∀ key, m'.find? key = (newest (readers.map layer) key).or (m.find? key)
  := by
  induction readers generalizing m with
  | nil => exact ⟨m, rfl, fun key => rfl⟩
  | cons r readers ih =>
      obtain ⟨es, hread, hsorted, hlookup⟩ := h r List.mem_cons_self
      obtain ⟨m', hfold, hfind⟩ := ih (fun r' hr' => h r' (List.mem_cons_of_mem _ hr'))
        (m.overwrite es)
      use m'
      constructor
      · rw [List.foldlM_cons, hread]
        exact hfold
      · intro key
        rw [hfind, find?_overwrite _ hsorted, hlookup, List.map_cons, newest_cons,
          Option.or_assoc]

/-- `MergeSSTables` finds the newest entry of every key. -/
theorem mergeSSTables_eq {readers : List SSTableReader} (h : ∀ r ∈ readers, r.Valid) :
  ∃ m, mergeSSTables readers = .ok m
    ∧ ∀ key, m.find? key = newest (readers.map SSTableReader.layer) key
  := by
  obtain ⟨m, hfold, hfind⟩ := foldlM_overwrite (fun r hr => (h r hr).allRaw_eq) OrderedMap.empty
  use m, hfold
  intro key
  rw [hfind, find?_empty, Option.or_none]

/-- Every entry a layer of a valid reader has is as on disk. -/
theorem SSTableReader.Valid.onDisk_layer {r : SSTableReader} (h : r.Valid) {key : Bytes}
    {entry : Entry} (hentry : r.layer key = some entry) :
  entry.onDisk = entry
  := by
  obtain ⟨t, ht⟩ := h
  rw [ht, t.layer_reader, EntryMap.layer, Option.map_eq_some_iff] at hentry
  obtain ⟨e, -, rfl⟩ := hentry
  obtain ⟨value, isTombstone⟩ := e
  cases isTombstone with
  | false => rfl
  | true => rfl

theorem Entry.isSome_live (e : Entry) :
  e.live.isSome = !e.isTombstone
  := by
  obtain ⟨value, isTombstone⟩ := e
  cases isTombstone with
  | false => rfl
  | true => rfl

/-- What `CompactOnce` writes is the merged layer of the tables: the newest entry of every
key, unless it is a tombstone. -/
theorem compactedEntries_eq {readers : List SSTableReader} (h : ∀ r ∈ readers, r.Valid) :
  ∃ m, Database.compactedEntries readers = .ok m
    ∧ m.layer = merged Entry.live (readers.map SSTableReader.layer)
  := by
  obtain ⟨m, hmerge, hfind⟩ := mergeSSTables_eq h
  use Database.dropTombstones m
  constructor
  · rw [Database.compactedEntries, hmerge]
    rfl
  · funext key
    rw [EntryMap.layer, Database.dropTombstones, find?_filter, hfind, merged]
    cases hnew : newest (readers.map SSTableReader.layer) key with
    | none => rfl
    | some entry =>
        obtain ⟨l, hl, hentry⟩ := exists_of_newest hnew
        obtain ⟨r, hr, rfl⟩ := List.mem_map.mp hl
        rw [Option.filter_some, Option.filter_some, Entry.isSome_live]
        split_ifs with hlive
        · rw [Option.map_some, (h r hr).onDisk_layer hentry]
        · rfl

/-! ### Sizes of merged entries -/

/-- What `AllRaw` returns has been decoded, so its lengths fit their fields. -/
theorem SSTableReader.inRange_allRaw {r : SSTableReader} {es : List (Bytes × Entry)}
    (h : r.allRaw = .ok es) :
  ∀ e ∈ es, (entryRecord e).InRange
  := by
  apply Framing.forFrames_invariant (P := fun es => ∀ e ∈ es, (entryRecord e).InRange) _ _ h
  · intro acc bs record n hacc hdecode e he
    rcases List.mem_append.mp he with he | he
    · exact hacc e he
    · obtain rfl := List.mem_singleton.mp he
      rw [decodeFrame] at hdecode
      cases hrecord : decodeRecord bs with
      | error failure => simp [hrecord] at hdecode
      | ok record' =>
          simp only [hrecord, Option.some.injEq, Prod.mk.injEq] at hdecode
          obtain ⟨rfl, -⟩ := hdecode
          obtain ⟨-, -, hkey, hvalue⟩ := decodeRecord_eq_ok hrecord
          exact ⟨hkey, hvalue⟩
  · simp

theorem EntryMap.InRange.insert {m : EntryMap} (h : m.InRange) {key : Bytes} {entry : Entry}
    (hentry : (entryRecord (key, entry)).InRange) :
  EntryMap.InRange (m.insert key entry)
  := by
  intro e he
  rcases mem_insertEntry he with rfl | he
  · exact hentry
  · exact h e he

theorem EntryMap.InRange.overwrite {m : EntryMap} (h : m.InRange) {es : List (Bytes × Entry)}
    (hes : ∀ e ∈ es, (entryRecord e).InRange) :
  EntryMap.InRange (m.overwrite es)
  := by
  induction es generalizing m with
  | nil => exact h
  | cons e es ih =>
      rw [overwrite_cons]
      apply ih
      · exact h.insert (hes e List.mem_cons_self)
      · exact fun d hd => hes d (List.mem_cons_of_mem _ hd)

/-- The map a compaction writes fits the length fields, whatever the tables hold. -/
theorem inRange_compactedEntries {readers : List SSTableReader} {m : EntryMap}
    (h : Database.compactedEntries readers = .ok m) :
  m.InRange
  := by
  have hmerge : ∀ (rs : List SSTableReader) (m₀ m₁ : EntryMap), m₀.InRange →
      rs.foldlM (fun merged r => do .ok (OrderedMap.overwrite merged (← r.allRaw))) m₀ = .ok m₁ →
      m₁.InRange := by
    intro rs
    induction rs with
    | nil =>
        intro m₀ m₁ h₀ hfold
        obtain rfl := Except.ok.inj hfold
        exact h₀
    | cons r rs ih =>
        intro m₀ m₁ h₀ hfold
        rw [List.foldlM_cons] at hfold
        cases hraw : r.allRaw with
        | error e => simp [hraw, bind, Except.bind] at hfold
        | ok es =>
            simp only [hraw, bind, Except.bind] at hfold
            exact ih _ _ (h₀.overwrite (r.inRange_allRaw hraw)) hfold
  rw [Database.compactedEntries] at h
  cases hm : mergeSSTables readers with
  | error e => simp [hm, bind, Except.bind] at h
  | ok merged =>
      simp only [hm, bind, Except.bind, Except.ok.injEq] at h
      subst h
      have hin := hmerge readers OrderedMap.empty merged (fun e he => by simp [empty] at he) hm
      intro e he
      exact hin e (List.mem_of_mem_filter he)

/-! ### Get and scan -/

/-- The layers of a database, oldest first: its tables, then the MemTable. -/
def Database.layers (db : Database) : List (Bytes → Option Entry) :=
  db.sstables.map SSTableReader.layer ++ [db.memtable.entries.layer]

/-- The map a database stands for. -/
def Database.view (db : Database) : Bytes → Option Bytes :=
  Layers.view Entry.live db.layers

theorem getFrom_eq {readers : List SSTableReader} (h : ∀ r ∈ readers, r.Valid) (key : Bytes) :
  Database.getFrom key readers
    = .ok ((newest (readers.reverse.map SSTableReader.layer) key).bind Entry.live)
  := by
  induction readers with
  | nil => rfl
  | cons r readers ih =>
      rw [Database.getFrom, (h r List.mem_cons_self).find_eq, List.reverse_cons, List.map_append,
        newest_append]
      cases hl : r.layer key with
      | none =>
          simp only [bind, Except.bind]
          rw [ih (fun r' hr' => h r' (List.mem_cons_of_mem _ hr'))]
          simp [hl]
      | some entry => simp [bind, Except.bind, hl]

/-- `Database::get` reads the view. -/
theorem Database.get_eq_view {db : Database} (h : ∀ r ∈ db.sstables, r.Valid) (key : Bytes) :
  db.get key = .ok (db.view key)
  := by
  rw [Database.get, Database.view, Layers.view, Database.layers, newest_append]
  simp only [newest_cons, newest_nil, Option.none_or, EntryMap.layer, MemTable.find,
    MemTable.entries]
  cases db.memtable.table.find? key with
  | none =>
      simp only [Option.map_none, Option.none_or]
      rw [getFrom_eq (fun r hr => h r (List.mem_reverse.mp hr)), List.reverse_reverse]
  | some entry => simp

/-- The pairs are those of the map with a key from `start` up to but not including `stop`,
in strictly ascending order. -/
structure IsScan (m : Bytes → Option Bytes) (start stop : Bytes) (pairs : List (Bytes × Bytes)) :
    Prop where
  ascending : pairs.Pairwise (fun a b => a.1 < b.1)
  mem_iff : ∀ key value,
    (key, value) ∈ pairs ↔ start ≤ key ∧ key < stop ∧ m key = some value

/-- There is only one such list. -/
theorem IsScan.unique {m : Bytes → Option Bytes} {start stop : Bytes}
    {pairs pairs' : List (Bytes × Bytes)} (h : IsScan m start stop pairs)
    (h' : IsScan m start stop pairs') :
  pairs = pairs'
  := by
  have heq : (⟨pairs, h.ascending⟩ : OrderedMap Bytes Bytes) = ⟨pairs', h'.ascending⟩ := by
    apply ext_find?
    intro key
    apply Option.ext
    intro value
    rw [← mem_entries, ← mem_entries, h.mem_iff, h'.mem_iff]
  exact congrArg OrderedMap.entries heq

/-- The pairs `Database::scan` lists of the map it has merged. -/
def EntryMap.livePairs (m : EntryMap) : List (Bytes × Bytes) :=
  m.entries.filterMap (fun e => e.2.live.map (fun value => (e.1, value)))

theorem EntryMap.ascending_livePairs (m : EntryMap) :
  m.livePairs.Pairwise (fun a b => a.1 < b.1)
  := by
  rw [livePairs, List.pairwise_filterMap]
  apply m.sorted.imp
  rintro ⟨k, e⟩ ⟨k', e'⟩ hlt d hd d' hd'
  obtain ⟨v, -, rfl⟩ := Option.map_eq_some_iff.mp hd
  obtain ⟨v', -, rfl⟩ := Option.map_eq_some_iff.mp hd'
  exact hlt

/-- They are the live entries of the map. -/
theorem EntryMap.lookup_livePairs (m : EntryMap) (key : Bytes) :
  lookup key m.livePairs = (m.find? key).bind Entry.live
  := by
  apply Option.ext
  intro value
  have hmem : (key, value) ∈ m.livePairs ↔ lookup key m.livePairs = some value :=
    @mem_entries _ _ _ ⟨m.livePairs, m.ascending_livePairs⟩ key value
  rw [← hmem, livePairs, List.mem_filterMap, Option.bind_eq_some_iff]
  constructor
  · rintro ⟨⟨k, e⟩, hentry, heq⟩
    obtain ⟨v, hv, hpair⟩ := Option.map_eq_some_iff.mp heq
    obtain ⟨rfl, rfl⟩ := Prod.mk.inj hpair
    exact ⟨e, mem_entries.mp hentry, hv⟩
  · rintro ⟨e, hfind, hv⟩
    refine ⟨(key, e), mem_entries.mpr hfind, ?_⟩
    rw [hv]
    rfl

/-- `Database::scan` lists the view. -/
theorem Database.scan_eq_view {db : Database} (h : ∀ r ∈ db.sstables, r.Valid)
    (start stop : Bytes) :
  ∃ pairs, db.scan start stop = .ok pairs ∧ IsScan db.view start stop pairs
  := by
  obtain ⟨m, hfold, hfind⟩ := foldlM_overwrite (fun r hr => (h r hr).scanRaw_eq start stop)
    OrderedMap.empty
  have hmerged : db.scanMerged start stop
      = .ok (m.overwrite (db.memtable.entries.range start stop)) := by
    rw [scanMerged, hfold]
    rfl
  have hnewest : ∀ (rs : List SSTableReader) (key : Bytes),
      newest (rs.map (fun r key => if start ≤ key ∧ key < stop then r.layer key else none)) key
        = if start ≤ key ∧ key < stop then newest (rs.map SSTableReader.layer) key else none := by
    intro rs key
    induction rs with
    | nil => simp
    | cons r rs ih =>
        rw [List.map_cons, List.map_cons, newest_cons, newest_cons, ih]
        split_ifs with hin
        · rfl
        · rfl
  have hsorted : (db.memtable.entries.range start stop).Pairwise (fun a b => a.1 < b.1) := by
    rw [range_eq_filter]
    exact db.memtable.entries.sorted.filter _
  -- The merged map holds, inside the range, the newest entry of every key.
  have hlive : ∀ key, ((m.overwrite (db.memtable.entries.range start stop)).find? key).bind
      Entry.live = if start ≤ key ∧ key < stop then db.view key else none := by
    intro key
    rw [find?_overwrite _ hsorted, lookup_range, hfind, hnewest, find?_empty, Option.or_none,
      Database.view, Layers.view, Database.layers, newest_append]
    simp only [newest_cons, newest_nil, Option.none_or, EntryMap.layer]
    split_ifs with hin
    · cases db.memtable.entries.find? key with
      | none => rfl
      | some entry => simp
    · rfl
  use EntryMap.livePairs (m.overwrite (db.memtable.entries.range start stop))
  constructor
  · rw [scan, hmerged]
    rfl
  · constructor
    · apply EntryMap.ascending_livePairs
    · intro key value
      have hmem := @mem_entries _ _ _ ⟨_, EntryMap.ascending_livePairs
        (m.overwrite (db.memtable.entries.range start stop))⟩ key value
      apply hmem.trans
      change lookup key _ = some value ↔ _
      rw [EntryMap.lookup_livePairs, hlive]
      split_ifs with hin
      · simp [hin.1, hin.2]
      · apply iff_of_false (by simp)
        exact fun h => hin ⟨h.1, h.2.1⟩

end TinyLsm
