import TinyLsm.WalRecord
import TinyLsm.MemTable
import TinyLsm.Library.Layers

/-!
# Operations and histories

What the database is for: a map from keys to values that `put` and `remove` write, read
as the last write of each key (`contents`).  The MemTable, replayed from the operations
it has absorbed, is a layer over older ones, and applying an operation to it applies the
operation to the view (`view_apply`).

A call may return, throw, or be cut short by the end of the process; `Resolves` says which
operations a list of calls may stand for.
-/

namespace TinyLsm

open Layers

/-- A call that writes: `Database::put` or `Database::remove`. -/
inductive Op where
  | put (key value : Bytes)
  | remove (key : Bytes)
deriving DecidableEq, Repr

namespace Op

def key : Op → Bytes
  | put key _ => key
  | remove key => key

/-- The value the key of the operation has afterwards. -/
def value : Op → Option Bytes
  | put _ value => some value
  | remove _ => none

/-- The entry the operation leaves in the MemTable. -/
def entry : Op → Entry
  | put _ value => ⟨value, false⟩
  | remove _ => ⟨[], true⟩

/-- The record the operation appends to the log. -/
def record : Op → Record
  | put key value => ⟨.put, key, value⟩
  | remove key => ⟨.delete, key, []⟩

/-- The key and the value are shorter than 2^32 bytes. -/
def InRange (op : Op) : Prop :=
  op.record.InRange

/-- The operation on the abstract map. -/
def apply (op : Op) (m : Bytes → Option Bytes) : Bytes → Option Bytes :=
  fun k => if op.key = k then op.value else m k

@[simp]
theorem live_entry (op : Op) :
  op.entry.live = op.value
  := by
  cases op with
  | put key value => rfl
  | remove key => rfl

@[simp]
theorem onDisk_entry (op : Op) :
  op.entry.onDisk = op.entry
  := by
  cases op with
  | put key value => rfl
  | remove key => rfl

end Op

/-- The map after a sequence of operations: the last write of a key decides. -/
def contents (ops : List Op) : Bytes → Option Bytes :=
  ops.foldl (fun m op => op.apply m) (fun _ => none)

@[simp]
theorem contents_nil :
  contents [] = fun _ => none
  := rfl

@[simp]
theorem contents_concat (ops : List Op) (op : Op) :
  contents (ops ++ [op]) = op.apply (contents ops)
  := by
  rw [contents, List.foldl_append]
  rfl

/-- The map after further operations. -/
def applyAll (m : Bytes → Option Bytes) (ops : List Op) : Bytes → Option Bytes :=
  ops.foldl (fun m op => op.apply m) m

@[simp]
theorem applyAll_nil (m : Bytes → Option Bytes) :
  applyAll m [] = m
  := rfl

@[simp]
theorem applyAll_singleton (m : Bytes → Option Bytes) (op : Op) :
  applyAll m [op] = op.apply m
  := rfl

theorem applyAll_append (m : Bytes → Option Bytes) (ops ops' : List Op) :
  applyAll m (ops ++ ops') = applyAll (applyAll m ops) ops'
  := List.foldl_append

theorem contents_append (ops ops' : List Op) :
  contents (ops ++ ops') = applyAll (contents ops) ops'
  := List.foldl_append

/-! ### MemTables -/

/-- A map of entries as a layer; a tombstone stands without its value, as on disk. -/
def EntryMap.layer (m : EntryMap) (key : Bytes) : Option Entry :=
  (m.find? key).map Entry.onDisk

/-- The update `Database::put` or `Database::remove` makes. -/
def MemTable.apply (m : MemTable) : Op → MemTable
  | .put key value => m.put key value
  | .remove key => m.remove key

theorem MemTable.entries_apply (m : MemTable) (op : Op) :
  (m.apply op).entries = m.entries.insert op.key op.entry
  := by
  cases op with
  | put key value => rfl
  | remove key => rfl

/-- The MemTable that has absorbed the given operations. -/
def memTableOf (ops : List Op) : MemTable :=
  ops.foldl MemTable.apply MemTable.empty

@[simp]
theorem memTableOf_nil :
  memTableOf [] = MemTable.empty
  := rfl

theorem memTableOf_concat (ops : List Op) (op : Op) :
  memTableOf (ops ++ [op]) = (memTableOf ops).apply op
  := by
  rw [memTableOf, List.foldl_append]
  rfl

theorem MemTable.layer_apply (m : MemTable) (op : Op) (key : Bytes) :
  (m.apply op).entries.layer key = if op.key = key then some op.entry else m.entries.layer key
  := by
  rw [EntryMap.layer, MemTable.entries_apply, OrderedMap.find?_insert]
  split_ifs with h
  · simp
  · rfl

/-- An operation on the newest layer is the operation on the view. -/
theorem view_apply (ls : List (Bytes → Option Entry)) (m : MemTable) (op : Op) :
  view Entry.live (ls ++ [(m.apply op).entries.layer])
    = op.apply (view Entry.live (ls ++ [m.entries.layer]))
  := by
  funext key
  simp only [view, newest_append, newest_cons, newest_nil, Option.none_or, Op.apply,
    MemTable.layer_apply]
  split_ifs with h
  · simp
  · rfl

/-- The entries of a MemTable that absorbed operations in range are in range. -/
theorem inRange_memTableOf {ops : List Op} (h : ∀ op ∈ ops, op.InRange) {key : Bytes}
    {entry : Entry} (hfind : (memTableOf ops).entries.find? key = some entry) :
  key.length < 2 ^ 32 ∧ entry.value.length < 2 ^ 32
  := by
  induction ops using List.reverseRecOn with
  | nil => simp at hfind
  | append_singleton ops op ih =>
      rw [memTableOf_concat, MemTable.entries_apply, OrderedMap.find?_insert] at hfind
      split_ifs at hfind with hkey
      · have hop := h op (by simp)
        obtain rfl := Option.some.inj hfind
        subst hkey
        cases op with
        | put key value => exact hop
        | remove key => exact hop
      · apply ih (fun op hop => h op (by simp [hop])) hfind

/-! ### Histories -/

/-- How a call ended. -/
inductive Outcome where
  | returned
  /-- The call threw, before or after its update of the MemTable. -/
  | threw (updated : Bool)
  /-- The process ended during the call. -/
  | interrupted
deriving DecidableEq, Repr

/-- A call with such an end may have taken effect. -/
def Outcome.mayCount : Outcome → Bool
  | returned => true
  | threw updated => updated
  | interrupted => true

/-- A call with such an end may have had no effect. -/
def Outcome.mayDrop : Outcome → Bool
  | returned => false
  | threw updated => !updated
  | interrupted => true

structure Call where
  op : Op
  outcome : Outcome
deriving DecidableEq, Repr

/-- The calls stand for the operations: all that returned, in order, and of those the
process ended in each one whole or not at all. -/
inductive Resolves : List Call → List Op → Prop where
  | nil : Resolves [] []
  | counted {calls : List Call} {ops : List Op} (c : Call) :
      Resolves calls ops → c.outcome.mayCount → Resolves (calls ++ [c]) (ops ++ [c.op])
  | dropped {calls : List Call} {ops : List Op} (c : Call) :
      Resolves calls ops → c.outcome.mayDrop → Resolves (calls ++ [c]) ops

/-- Calls that all returned stand for their operations only. -/
theorem Resolves.eq_of_returned {calls : List Call} {ops : List Op} (h : Resolves calls ops)
    (hret : ∀ c ∈ calls, c.outcome = .returned) :
  ops = calls.map Call.op
  := by
  induction h with
  | nil => rfl
  | counted c _ _ ih =>
      rw [List.map_append, ih (fun d hd => hret d (by simp [hd]))]
      rfl
  | dropped c _ hdrop ih =>
      have hc := hret c (by simp)
      simp [hc, Outcome.mayDrop] at hdrop

end TinyLsm
