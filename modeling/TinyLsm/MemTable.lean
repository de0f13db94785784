import TinyLsm.ByteUtil
import TinyLsm.Library.OrderedMap

/-!
# The MemTable

The sorted in-memory table of the last write for every key, with its size accounting, after
`memtable.cpp`.
-/

namespace TinyLsm

/-- `Entry`: a value, or a tombstone marking that its key was removed. -/
structure Entry where
  value : Bytes
  isTombstone : Bool
deriving DecidableEq, Repr

/-- The value an entry stands for: none for a tombstone. -/
def Entry.live (e : Entry) : Option Bytes :=
  if e.isTombstone then none else some e.value

/-- What is read back of an entry written to disk: a tombstone loses its value. -/
def Entry.onDisk (e : Entry) : Entry :=
  if e.isTombstone then ⟨[], true⟩ else e

@[simp]
theorem Entry.live_onDisk (e : Entry) :
  e.onDisk.live = e.live
  := by
  obtain ⟨value, isTombstone⟩ := e
  cases isTombstone with
  | false => rfl
  | true => rfl

/-- `std::map<std::string, Entry>`. -/
abbrev EntryMap := OrderedMap Bytes Entry

/-- `MemTable`. -/
structure MemTable where
  table : EntryMap
  approximateSizeBytes : UInt64

namespace MemTable

/-- A fresh `MemTable{}`. -/
def empty : MemTable :=
  ⟨OrderedMap.empty, 0⟩

/-- `EntrySize`, a `size_t`. -/
def entrySize (key : Bytes) (entry : Entry) : UInt64 :=
  UInt64.ofNat key.length + UInt64.ofNat entry.value.length

/-- `MemTable::Upsert`. -/
def upsert (m : MemTable) (key : Bytes) (entry : Entry) : MemTable :=
  let size :=
    match m.table.find? key with
    | some old => m.approximateSizeBytes - entrySize key old
    | none => m.approximateSizeBytes
  ⟨m.table.insert key entry, size + entrySize key entry⟩

/-- `MemTable::put`. -/
def put (m : MemTable) (key value : Bytes) : MemTable :=
  m.upsert key ⟨value, false⟩

/-- `MemTable::remove`. -/
def remove (m : MemTable) (key : Bytes) : MemTable :=
  m.upsert key ⟨[], true⟩

/-- `MemTable::find`. -/
def find (m : MemTable) (key : Bytes) : Option Entry :=
  m.table.find? key

/-- `MemTable::entries`. -/
def entries (m : MemTable) : EntryMap :=
  m.table

/-- `MemTable::get`. -/
def get (m : MemTable) (key : Bytes) : Option Bytes :=
  match m.find key with
  | none => none
  | some entry => entry.live

/-- `MemTable::scan`. -/
def scan (m : MemTable) (start stop : Bytes) : List (Bytes × Bytes) :=
  (m.table.range start stop).filterMap (fun e => e.2.live.map (fun value => (e.1, value)))

/-- `MemTable::size`. -/
def size (m : MemTable) : ℕ :=
  m.table.entries.length

@[simp]
theorem entries_empty :
  empty.entries = OrderedMap.empty
  := rfl

@[simp]
theorem entries_put (m : MemTable) (key value : Bytes) :
  (m.put key value).entries = m.entries.insert key ⟨value, false⟩
  := rfl

@[simp]
theorem entries_remove (m : MemTable) (key : Bytes) :
  (m.remove key).entries = m.entries.insert key ⟨[], true⟩
  := rfl

end MemTable

end TinyLsm
