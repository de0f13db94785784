import TinyLsm.SSTable
import TinyLsm.Wal
import TinyLsm.Library.FileSystem

/-!
# The database

The members of `Database` and its operations, after `database.cpp`: the lookups through the
layers, the steps of a flush and of a compaction on the members, and the constructor, which
rebuilds the members from the files of a directory.

The files are named by `FileName`; how the names are rendered and parsed is the subject of
`TinyLsm.FileNames`.  The counter `next_sstable_number_` is a natural number: a run would have to
write 2^64 tables for it to overflow.
-/

namespace TinyLsm

open FileSystem

/-- The files of a database directory: `wal.log`, `sst-<number>.sst` and
`sst-<number>.sst.tmp`. -/
inductive FileName where
  | walLog
  | sst (number : ℕ)
  | tmp (number : ℕ)
deriving DecidableEq, Repr

namespace FileName

/-- The position of a file in the order of the names. -/
def code : FileName → ℕ
  | walLog => 0
  | sst number => 2 * number + 1
  | tmp number => 2 * number + 2

theorem code_injective :
  Function.Injective code
  := by
  intro a b h
  cases a with
  | walLog =>
      cases b with
      | walLog => rfl
      | sst n => simp [code] at h
      | tmp n => simp [code] at h
  | sst m =>
      cases b with
      | walLog => simp [code] at h
      | sst n =>
          simp only [code] at h
          congr 1
          omega
      | tmp n =>
          simp only [code] at h
          omega
  | tmp m =>
      cases b with
      | walLog => simp [code] at h
      | sst n =>
          simp only [code] at h
          omega
      | tmp n =>
          simp only [code] at h
          congr 1
          omega

instance linearOrderFileName : LinearOrder FileName :=
  LinearOrder.lift' code code_injective

theorem sst_lt_sst {m n : ℕ} :
  sst m < sst n ↔ m < n
  := by
  change code (sst m) < code (sst n) ↔ m < n
  simp only [code]
  omega

end FileName

/-- The files of the database directory. -/
abbrev DbDisk := Disk FileName UInt8

/-- The calls that change them. -/
abbrev DbSyscall := Syscall FileName UInt8

/-- The members of `Database`.  The log is a file, and the condition variable and the
thread belong to the running process. -/
structure Database where
  flushThresholdBytes : UInt64
  compactionTriggerCount : ℕ
  nextSstableNumber : ℕ
  memtable : MemTable
  /-- Oldest first, newest last. -/
  sstables : List SSTableReader
  compactionRequested : Bool
  compactionRunning : Bool

/-- The constructor of `SSTableReader`, on a path. -/
def openSSTable (disk : DbDisk) (number : ℕ) : Except StorageError SSTableReader :=
  match disk.find? (.sst number) with
  | none => .error .io
  | some contents => SSTableReader.load number contents

namespace Database

/-! ### Reading -/

/-- The loop of `Database::get` over the tables, from the newest to the oldest. -/
def getFrom (key : Bytes) : List SSTableReader → Except StorageError (Option Bytes)
  | [] => .ok none
  | r :: rs => do
      match ← r.find key with
      | some entry => .ok entry.live
      | none => getFrom key rs

/-- `Database::get`. -/
def get (db : Database) (key : Bytes) : Except StorageError (Option Bytes) :=
  match db.memtable.find key with
  | some entry => .ok entry.live
  | none => getFrom key db.sstables.reverse

/-- The map `Database::scan` merges the generations into, oldest first. -/
def scanMerged (db : Database) (start stop : Bytes) : Except StorageError EntryMap := do
  let merged ← db.sstables.foldlM
    (fun merged sstable => do .ok (merged.overwrite (← sstable.scanRaw start stop)))
    OrderedMap.empty
  .ok (merged.overwrite (db.memtable.entries.range start stop))

/-- `Database::scan`. -/
def scan (db : Database) (start stop : Bytes) : Except StorageError (List (Bytes × Bytes)) := do
  let merged ← db.scanMerged start stop
  .ok (merged.entries.filterMap (fun e => e.2.live.map (fun value => (e.1, value))))

/-- `Database::sstable_count`. -/
def sstableCount (db : Database) : ℕ :=
  db.sstables.length

/-! ### Flushing -/

/-- The test of `Database::MaybeFlush`. -/
def needsFlush (db : Database) : Bool :=
  db.flushThresholdBytes ≤ db.memtable.approximateSizeBytes

/-- The new table joins the list, and its number is used up. -/
def pushTable (db : Database) (r : SSTableReader) : Database :=
  { db with
    sstables := db.sstables ++ [r]
    nextSstableNumber := db.nextSstableNumber + 1 }

/-- `Database::MaybeTriggerCompaction`, up to the notification. -/
def maybeTriggerCompaction (db : Database) : Database :=
  if db.sstables.length < db.compactionTriggerCount then db
  else { db with compactionRequested := true }

/-- The end of `Database::Flush`, once the log is reset. -/
def clearMemtable (db : Database) : Database :=
  { db with memtable := MemTable.empty }.maybeTriggerCompaction

/-- The trigger touches nothing but the request. -/
theorem clearMemtable_eq (db : Database) :
  ∃ requested, db.clearMemtable
    = { db with memtable := MemTable.empty, compactionRequested := requested }
  := by
  rw [clearMemtable, maybeTriggerCompaction]
  split_ifs with hcount
  · exact ⟨_, rfl⟩
  · exact ⟨_, rfl⟩

@[simp]
theorem clearMemtable_sstables (db : Database) :
  db.clearMemtable.sstables = db.sstables
  := by
  obtain ⟨requested, heq⟩ := db.clearMemtable_eq
  rw [heq]

@[simp]
theorem clearMemtable_memtable (db : Database) :
  db.clearMemtable.memtable = MemTable.empty
  := by
  obtain ⟨requested, heq⟩ := db.clearMemtable_eq
  rw [heq]

@[simp]
theorem clearMemtable_nextSstableNumber (db : Database) :
  db.clearMemtable.nextSstableNumber = db.nextSstableNumber
  := by
  obtain ⟨requested, heq⟩ := db.clearMemtable_eq
  rw [heq]

/-! ### Compacting -/

/-- The loop of `CompactOnce` that erases the tombstones. -/
def dropTombstones (merged : EntryMap) : EntryMap :=
  merged.filter (fun _ entry => !entry.isTombstone)

/-- The map `CompactOnce` writes. -/
def compactedEntries (toCompact : List SSTableReader) : Except StorageError EntryMap := do
  .ok (dropTombstones (← mergeSSTables toCompact))

/-- The swap: the compacted table takes the place of the first tables. -/
def swapIn (db : Database) (r : SSTableReader) (count : ℕ) : Database :=
  { db with sstables := r :: db.sstables.drop count }

end Database

/-! ### Opening -/

/-- The SSTables of a directory with their numbers, in ascending order. -/
def sstFiles (disk : DbDisk) : List (ℕ × Bytes) :=
  disk.entries.filterMap (fun
    | (.sst number, contents) => some (number, contents)
    | _ => none)

/-- The numbers of the `*.sst.tmp` files. -/
def tmpNumbers (disk : DbDisk) : List ℕ :=
  disk.entries.filterMap (fun
    | (.tmp number, _) => some number
    | _ => none)

/-- Open the SSTables of a directory, oldest first. -/
def openTables (disk : DbDisk) : Except StorageError (List SSTableReader) :=
  (sstFiles disk).mapM (fun file => SSTableReader.load file.1 file.2)

/-- One more than the number of the last table, or the initial value of the counter. -/
def nextNumber (sstables : List SSTableReader) : ℕ :=
  match sstables.getLast? with
  | none => 1
  | some r => r.path + 1

namespace Database

/-- The members before the log is replayed. -/
def discover (flushThresholdBytes : UInt64) (compactionTriggerCount : ℕ) (disk : DbDisk) :
    Except StorageError Database := do
  let sstables ← openTables disk
  .ok
    { flushThresholdBytes, compactionTriggerCount, sstables
      nextSstableNumber := nextNumber sstables
      memtable := MemTable.empty
      compactionRequested := false
      compactionRunning := false }

/-- The constructor's call of `Replay`. -/
def replay (db : Database) (log : Bytes) : Database :=
  { db with memtable := (replayLog log).1.foldl MemTable.replay db.memtable }

/-- The constructor of `Database`, run to its end: the members and the files it leaves. -/
def construct (flushThresholdBytes : UInt64) (compactionTriggerCount : ℕ) (disk : DbDisk) :
    Except StorageError (Database × DbDisk) := do
  let disk := (tmpNumbers disk).foldl (fun disk n => (Syscall.unlink (.tmp n)).exec disk) disk
  let db ← discover flushThresholdBytes compactionTriggerCount disk
  let disk := (Syscall.create .walLog).exec disk
  let log := (disk.find? .walLog).getD []
  let validEnd := (replayLog log).2
  let disk :=
    if validEnd < log.length then (Syscall.ftruncate .walLog validEnd).exec disk else disk
  .ok (db.replay log, disk)

end Database

end TinyLsm
