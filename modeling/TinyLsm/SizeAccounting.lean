import TinyLsm.Refinement

/-!
# Size accounting

The counter of a MemTable is kept in 64-bit arithmetic, by the difference each update makes.  It is
the sum of the sizes of the entries modulo 2^64 whatever the operations were, so that it is the sum
as long as this fits, no update then takes away more than the counter holds, and a flush starts
exactly when the sum has reached the threshold (`sizeAccounting`).
-/

namespace TinyLsm

open Transition

/-! ### The counter -/

/-- The size of a key with its entry; the value of a tombstone is empty. -/
def entryBytes (e : Bytes × Entry) : ℕ :=
  e.1.length + e.2.value.length

/-- The size of all keys and entries. -/
def MemTable.totalBytes (m : MemTable) : ℕ :=
  m.entries.sum entryBytes

/-- The last operation on a key. -/
def lastOp (ops : List Op) (key : Bytes) : Option Op :=
  (ops.filter (fun op => op.key = key)).getLast?

namespace MemTable

theorem entrySize_eq (key : Bytes) (entry : Entry) :
  entrySize key entry = UInt64.ofNat (entryBytes (key, entry))
  := by
  rw [entrySize, entryBytes, UInt64.ofNat_add]

/-- The size an update adds, and the one it takes away. -/
theorem totalBytes_upsert (m : MemTable) (key : Bytes) (entry : Entry) :
  (m.upsert key entry).totalBytes
      + ((m.find key).map (fun old => entryBytes (key, old))).getD 0
    = m.totalBytes + entryBytes (key, entry)
  := OrderedMap.sum_insert m.entries entryBytes key entry

/-- The counter is the sum modulo 2^64. -/
def Counts (m : MemTable) : Prop :=
  m.approximateSizeBytes = UInt64.ofNat m.totalBytes

/-- An update keeps the counter right. -/
theorem Counts.upsert {m : MemTable} (h : m.Counts) (key : Bytes) (entry : Entry) :
  (m.upsert key entry).Counts
  := by
  have hsum := congrArg UInt64.ofNat (m.totalBytes_upsert key entry)
  rw [UInt64.ofNat_add, UInt64.ofNat_add, ← entrySize_eq, ← h] at hsum
  rw [Counts]
  cases hold : m.table.find? key with
  | none =>
      have hsize : (m.upsert key entry).approximateSizeBytes
          = m.approximateSizeBytes + entrySize key entry := by
        simp only [MemTable.upsert, hold]
      simp only [find, hold, Option.map_none, Option.getD_none] at hsum
      rw [hsize, ← hsum]
      simp
  | some old =>
      have hsize : (m.upsert key entry).approximateSizeBytes
          = m.approximateSizeBytes - entrySize key old + entrySize key entry := by
        simp only [MemTable.upsert, hold]
      simp only [find, hold, Option.map_some, Option.getD_some, ← entrySize_eq] at hsum
      rw [hsize]
      grind

theorem Counts.apply {m : MemTable} (h : m.Counts) (op : Op) :
  (m.apply op).Counts
  := by
  cases op with
  | put key value => exact h.upsert key _
  | remove key => exact h.upsert key _

end MemTable

theorem counts_memTableOf (ops : List Op) :
  (memTableOf ops).Counts
  := by
  induction ops using List.reverseRecOn with
  | nil => rfl
  | append_singleton ops op ih =>
      rw [memTableOf_concat]
      exact ih.apply op

/-- A counter that has not wrapped is the sum. -/
theorem MemTable.Counts.toNat {m : MemTable} (h : m.Counts) (hsize : m.totalBytes < 2 ^ 64) :
  m.approximateSizeBytes.toNat = m.totalBytes
  := by
  rw [h, UInt64.toNat_ofNat_of_lt' hsize]

/-- What an update takes away from a counter that has not wrapped is part of it. -/
theorem MemTable.Counts.entrySize_le {m : MemTable} (h : m.Counts) (hsize : m.totalBytes < 2 ^ 64)
    {key : Bytes} {old : Entry} (hold : m.find key = some old) :
  (entrySize key old).toNat = entryBytes (key, old)
    ∧ entrySize key old ≤ m.approximateSizeBytes
  := by
  have hle : entryBytes (key, old) ≤ m.totalBytes := OrderedMap.le_sum entryBytes hold
  have hentry : (entrySize key old).toNat = entryBytes (key, old) := by
    rw [entrySize_eq, UInt64.toNat_ofNat_of_lt' (hle.trans_lt hsize)]
  use hentry
  rw [UInt64.le_iff_toNat_le, hentry, h.toNat hsize]
  exact hle

/-- A MemTable has for each key the entry of the last operation on it. -/
theorem find_memTableOf (ops : List Op) (key : Bytes) :
  (memTableOf ops).entries.find? key = (lastOp ops key).map Op.entry
  := by
  induction ops using List.reverseRecOn with
  | nil => rfl
  | append_singleton ops op ih =>
      rw [memTableOf_concat, MemTable.entries_apply, OrderedMap.find?_insert, ih, lastOp, lastOp,
        List.filter_append]
      by_cases hkey : op.key = key
      · simp [hkey]
      · simp [hkey]

/-! ### Processes -/

theorem MemTable.Counts.replay {m : MemTable} (h : m.Counts) (records : List DecodedRecord) :
  (records.foldl MemTable.replay m).Counts
  := by
  induction records generalizing m with
  | nil => exact h
  | cons r records ih =>
      apply ih
      rw [MemTable.replay]
      cases r.type with
      | put => exact h.upsert r.key _
      | delete => exact h.upsert r.key _

/-- The counter of the MemTable of a process, or of a constructor that has one, is right. -/
def Status.Counts : Status → Prop
  | opening (.creatingLog db) => db.memtable.Counts
  | opening (.replaying db) => db.memtable.Counts
  | opening (.truncating db _) => db.memtable.Counts
  | running p => p.db.memtable.Counts
  | _ => True

/-- A step of the writer keeps the counter right. -/
theorem Process.counts_writerStep {p : Process} {disk : DbDisk} {c : Option DbSyscall}
    {status : Status} {calls : List Call} (h : p.db.memtable.Counts)
    (hstep : p.WriterStep disk c status calls) :
  status.Counts
  := by
  cases hstep with
  | append hw hne => exact h
  | sync hw => exact h
  | @apply op hw hflush => exact h.apply op
  | @startFlush op hw hflush => exact h.apply op
  | write hw hfile => exact h
  | rename hw hopen => exact h
  | reject hw hopen => exact h
  | reset hw =>
      simp only [Status.Counts, Database.clearMemtable_memtable]
      rfl

/-- A step of the compaction thread leaves the MemTable. -/
theorem Process.counts_compactorStep {p : Process} {disk : DbDisk} {c : Option DbSyscall}
    {status : Status} {calls : List Call} (h : p.db.memtable.Counts)
    (hstep : p.CompactorStep disk c status calls) :
  status.Counts
  := by
  cases hstep with
  | mergeFail hc hmerge => trivial
  | reject hc hopen => trivial
  | _ => exact h

theorem Opener.counts_step {o : Opener} {disk : DbDisk} {c : Option DbSyscall} {status : Status}
    {calls : List Call} (h : (Status.opening o).Counts) (hstep : o.Step disk c status calls) :
  status.Counts
  := by
  cases hstep with
  | clean hn => trivial
  | @discover thr trig db hdiscover =>
      have hmem := (Database.discovered_of_discover hdiscover).2
      simp only [Status.Counts, hmem]
      rfl
  | reject hdiscover => trivial
  | createLog => exact h
  | replayTorn hlog hlt => exact MemTable.Counts.replay h _
  | replayWhole hlog hle => exact MemTable.Counts.replay h _
  | truncate => exact h

theorem counts_step {s t : State} {a : Action} (h : s.status.Counts) (hstep : step s a = some t) :
  t.status.Counts
  := by
  obtain ⟨c, calls, hstatus, -⟩ := step_any_cases hstep
  generalize s.status = status at h hstatus
  generalize t.status = status' at hstatus ⊢
  cases hstatus with
  | succeeds hstatus =>
      cases hstatus with
      | opener hopener => exact Opener.counts_step h hopener
      | call hw => exact h
      | writer hwriter => exact Process.counts_writerStep h hwriter
      | compactor hcompactor => exact Process.counts_compactorStep h hcompactor
      | _ => trivial
  | writerFail hfail =>
      cases hfail with
      | _ => exact h
  | compactorFail hfail =>
      cases hfail with
      | write hc hcall => trivial
      | unlink hc => exact h
  | _ => trivial

theorem counts_of_run {s : State} {as : List Action} (h : run step State.init as = some s) :
  s.status.Counts
  := run_invariant (I := fun s => s.status.Counts) h trivial (fun _ _ _ => counts_step)

/-- When the MemTable takes up the operation of a call, the call starts a flush if the sizes of the
entries come to the threshold, and returns if not. -/
def State.FlushesAtThreshold (s : State) : Prop :=
  ∀ p op count t, s.status = .running p → p.writer = .applying op →
    (p.db.memtable.apply op).totalBytes < 2 ^ 64 → step s (.writer count) = some t →
    ∃ q, t.status = .running q ∧ q.db.memtable = p.db.memtable.apply op
      ∧ (p.db.flushThresholdBytes.toNat ≤ q.db.memtable.totalBytes →
        q.writer = .flushing op (.creating q.db.memtable.entries) ∧ t.calls = s.calls)
      ∧ (q.db.memtable.totalBytes < p.db.flushThresholdBytes.toNat →
        q.writer = .idle ∧ t.calls = s.calls ++ [⟨op, .returned⟩])

theorem flushesAtThreshold_of_run {s : State} {as : List Action}
    (h : run step State.init as = some s) :
  s.FlushesAtThreshold
  := by
  intro p op count t hp hw hsize hstep
  obtain ⟨c, calls, hstatus, -, hcalls⟩ := step_cases hstep rfl
  have hcounts := counts_of_run h
  rw [hp] at hcounts hstatus
  have hneeds : ({ p.db with memtable := p.db.memtable.apply op } : Database).needsFlush
      ↔ p.db.flushThresholdBytes.toNat ≤ (p.db.memtable.apply op).totalBytes := by
    rw [Database.needsFlush, decide_eq_true_iff, UInt64.le_iff_toNat_le,
      (MemTable.Counts.apply hcounts op).toNat hsize]
  generalize t.status = status at hstatus ⊢
  cases hstatus with
  | writer hwriter =>
      cases hwriter with
      | append hw' hne => simp [hw] at hw'
      | sync hw' => simp [hw] at hw'
      | apply hw' hflush =>
          rw [hw, Writer.applying.injEq] at hw'
          subst hw'
          refine ⟨_, rfl, rfl, fun hle => ?_, fun _ => ⟨rfl, hcalls⟩⟩
          exact absurd (hneeds.mpr hle) hflush
      | startFlush hw' hflush =>
          rw [hw, Writer.applying.injEq] at hw'
          subst hw'
          rw [List.append_nil] at hcalls
          refine ⟨_, rfl, rfl, fun _ => ⟨rfl, hcalls⟩, fun hlt => ?_⟩
          exact absurd (hneeds.mp hflush) (not_le.mpr hlt)
      | write hw' hfile => simp [hw] at hw'
      | rename hw' hopen => simp [hw] at hw'
      | reject hw' hopen => simp [hw] at hw'
      | reset hw' => simp [hw] at hw'

/-- After any operations on a fresh MemTable the counter is the sum of the sizes of the entries,
what an update took away on the way was part of the counter, and the entries are those of the last
operations; and in every run a call flushes exactly when the sum has reached the threshold. -/
theorem sizeAccounting {ops : List Op} (hsize : (memTableOf ops).totalBytes < 2 ^ 64)
    {as : List Action} {s : State} (hrun : run step State.init as = some s) :
  (memTableOf ops).approximateSizeBytes.toNat = (memTableOf ops).totalBytes
  ∧ (∀ before op after old, ops = before ++ op :: after →
    (memTableOf before).totalBytes < 2 ^ 64 → (memTableOf before).find op.key = some old →
    (MemTable.entrySize op.key old).toNat = entryBytes (op.key, old)
      ∧ MemTable.entrySize op.key old ≤ (memTableOf before).approximateSizeBytes)
  ∧ (∀ key, (memTableOf ops).entries.find? key = (lastOp ops key).map Op.entry)
  ∧ s.FlushesAtThreshold
  := by
  refine ⟨?_, ?_, ?_, ?_⟩
  · exact (counts_memTableOf ops).toNat hsize
  · intro before op after old _ hbefore hold
    exact (counts_memTableOf before).entrySize_le hbefore hold
  · exact find_memTableOf ops
  · exact flushesAtThreshold_of_run hrun

/-- A value that is overwritten, a key that is removed without being there, and a run that stands
before the update of the MemTable. -/
theorem sizeAccounting_overwritten :
  (memTableOf [.put [97] [1, 2], .put [97] [3], .remove [98]]).approximateSizeBytes.toNat = 3
    ∧ ∃ s, run step State.init (launchActions 2 2
      ++ [.call (.put [97] [1]), .writer 15, .writer 0]) = some s ∧ s.FlushesAtThreshold
  := by
  have hrun : (run step State.init (launchActions 2 2
      ++ [.call (.put [97] [1]), .writer 15, .writer 0])).any State.isRunning = true := by
    decide +kernel
  obtain ⟨s, hs, -⟩ := exists_of_run hrun
  obtain ⟨hcounter, -, -, hflushes⟩ :=
    @sizeAccounting [.put [97] [1, 2], .put [97] [3], .remove [98]] (by decide) _ _ hs
  exact ⟨hcounter.trans (by decide), s, hs, hflushes⟩

end TinyLsm
