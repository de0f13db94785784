import TinyLsm.Reopen

/-!
# Writes that throw

What a call of `put` or `remove` that throws leaves behind in the process, at any of the points at
which it can fail.  A call that fails in `Append` has not touched the members.  One that fails later
has updated the MemTable, so that its write is seen although it was rejected: the answers are those
from before exactly when they were already those the operation asks for
(`throwing_write_invisible_iff`).
-/

namespace TinyLsm

open FileSystem OrderedMap Transition

/-! ### Answers -/

namespace Database

variable {db db' db'' : Database}

theorem SameAnswers.symm (h : db.SameAnswers db') :
  db'.SameAnswers db
  := ⟨fun key => (h.1 key).symm, fun start stop => (h.2 start stop).symm⟩

theorem SameAnswers.trans (h : db.SameAnswers db') (h' : db'.SameAnswers db'') :
  db.SameAnswers db''
  := ⟨fun key => (h'.1 key).trans (h.1 key), fun start stop => (h'.2 start stop).trans (h.2 start stop)⟩

/-- What `scan` merges of the tables, before the MemTable. -/
def scanTables (sstables : List SSTableReader) (start stop : Bytes) :
    Except StorageError EntryMap :=
  sstables.foldlM (fun merged sstable => do .ok (merged.overwrite (← sstable.scanRaw start stop)))
    OrderedMap.empty

theorem scan_eq (db : Database) (start stop : Bytes) :
  db.scan start stop = (scanTables db.sstables start stop).map
    (fun merged => EntryMap.livePairs (merged.overwrite (db.memtable.entries.range start stop)))
  := by
  rw [scan, scanMerged, scanTables]
  cases db.sstables.foldlM (fun merged sstable => do
      .ok (OrderedMap.overwrite merged (← sstable.scanRaw start stop))) OrderedMap.empty with
  | error e => rfl
  | ok merged => rfl

/-- The MemTable has the last word inside the range. -/
theorem find?_merged (merged m : EntryMap) (start stop key : Bytes) :
  (merged.overwrite (m.range start stop)).find? key
    = (if start ≤ key ∧ key < stop then m.find? key else none).or (merged.find? key)
  := by
  have hsorted : (m.range start stop).Pairwise (fun a b => a.1 < b.1) := by
    rw [range_eq_filter]
    exact m.sorted.filter _
  rw [find?_overwrite _ hsorted, lookup_range]
  split_ifs with hin
  · rfl
  · rfl

/-- Two scans of the same tables agree where the MemTables do. -/
theorem livePairs_congr {m m' : EntryMap} (h : ∀ key, (m.find? key).bind Entry.live
    = (m'.find? key).bind Entry.live) :
  m.livePairs = m'.livePairs
  := by
  have heq : (⟨m.livePairs, m.ascending_livePairs⟩ : OrderedMap Bytes Bytes)
      = ⟨m'.livePairs, m'.ascending_livePairs⟩ := by
    apply ext_find?
    intro key
    change lookup key m.livePairs = lookup key m'.livePairs
    rw [EntryMap.lookup_livePairs, EntryMap.lookup_livePairs, h]
  exact congrArg OrderedMap.entries heq

/-- `get` of a key with an entry in the MemTable. -/
theorem get_of_find {key : Bytes} {entry : Entry} (h : db.memtable.find key = some entry) :
  db.get key = .ok entry.live
  := by
  rw [get, h]

/-- What a scan says about a key with an entry in the MemTable. -/
theorem lookup_scan_of_find {key : Bytes} {entry : Entry} (h : db.memtable.find key = some entry)
    {start stop : Bytes} (hin : start ≤ key ∧ key < stop) {pairs : List (Bytes × Bytes)}
    (hscan : db.scan start stop = .ok pairs) :
  lookup key pairs = entry.live
  := by
  rw [scan_eq] at hscan
  cases htables : scanTables db.sstables start stop with
  | error e => simp [htables, Except.map] at hscan
  | ok merged =>
      rw [htables, Except.map, Except.ok.injEq] at hscan
      have hfind : db.memtable.entries.find? key = some entry := h
      rw [← hscan, EntryMap.lookup_livePairs, find?_merged, if_pos hin, hfind]
      rfl

/-! ### Operations that change no answer -/

/-- The members after the update of the MemTable. -/
def withApplied (db : Database) (op : Op) : Database :=
  { db with memtable := db.memtable.apply op }

theorem find_withApplied (db : Database) (op : Op) (key : Bytes) :
  (db.withApplied op).memtable.find key
    = if op.key = key then some op.entry else db.memtable.find key
  := by
  change (db.memtable.apply op).entries.find? key = _
  rw [MemTable.entries_apply, OrderedMap.find?_insert]
  split_ifs with hkey
  · rfl
  · rfl

/-- The answers are those the operation asks for: `get` of its key, and every scan over its key that
does not throw. -/
def Reads (db : Database) (op : Op) : Prop :=
  db.get op.key = .ok op.value
    ∧ ∀ start stop pairs, start ≤ op.key ∧ op.key < stop → db.scan start stop = .ok pairs →
      lookup op.key pairs = op.value

/-- Where the MemTable has the entry of the operation, the answers are those it asks for. -/
theorem reads_of_find {op : Op} (h : db.memtable.find op.key = some op.entry) :
  db.Reads op
  := by
  constructor
  · rw [get_of_find h, op.live_entry]
  · intro start stop pairs hin hscan
    rw [lookup_scan_of_find h hin hscan, op.live_entry]

theorem Reads.congr {op : Op} (h : db'.Reads op) (hsame : db.SameAnswers db') :
  db.Reads op
  := by
  constructor
  · rw [← hsame.1, h.1]
  · intro start stop pairs hin hscan
    rw [← hsame.2] at hscan
    exact h.2 start stop pairs hin hscan

/-- An operation the answers agree with already changes none. -/
theorem Reads.sameAnswers {op : Op} (h : db.Reads op) :
  db.SameAnswers (db.withApplied op)
  := by
  constructor
  · intro key
    by_cases hkey : op.key = key
    · subst hkey
      have hfind := db.find_withApplied op op.key
      rw [if_pos rfl] at hfind
      rw [get_of_find hfind, op.live_entry, h.1]
    · rw [get, get, find_withApplied, if_neg hkey]
      rfl
  · intro start stop
    have hreads := h.2 start stop
    rw [scan_eq, scan_eq]
    rw [scan_eq] at hreads
    change (scanTables db.sstables start stop).map _ = _
    cases htables : scanTables db.sstables start stop with
    | error e => rfl
    | ok merged =>
        rw [htables] at hreads
        rw [Except.map, Except.map, Except.ok.injEq]
        apply livePairs_congr
        intro key
        rw [find?_merged, find?_merged]
        have hfind : (db.withApplied op).memtable.entries.find? key
            = if op.key = key then some op.entry else db.memtable.entries.find? key :=
          db.find_withApplied op key
        rw [hfind]
        by_cases hkey : op.key = key
        · subst hkey
          by_cases hin : start ≤ op.key ∧ op.key < stop
          · have hlookup := hreads _ hin rfl
            rw [EntryMap.lookup_livePairs, find?_merged] at hlookup
            rw [hlookup, if_pos hin, if_pos rfl]
            simp
          · rw [if_neg hin, if_neg hin]
        · rw [if_neg hkey]

theorem sameAnswers_withApplied_iff {op : Op} :
  db.SameAnswers (db.withApplied op) ↔ db.Reads op
  := by
  constructor
  · intro hsame
    apply Reads.congr _ hsame
    apply reads_of_find
    rw [find_withApplied, if_pos rfl]
  · exact Reads.sameAnswers

/-! ### The table of a flush -/

theorem sameAnswers_of_eq (hsst : db'.sstables = db.sstables)
    (hmem : db'.memtable = db.memtable) :
  db.SameAnswers db'
  := by
  constructor
  · intro key
    rw [get, get, hsst, hmem]
  · intro start stop
    rw [scan_eq, scan_eq, hsst, hmem]

/-- The table answers nothing that the MemTable leaves to the tables before it. -/
def Ignores (db : Database) (r : SSTableReader) : Prop :=
  db.SameAnswers (db.pushTable r)

/-- So does the table a flush of these members writes. -/
def FlushIgnored (db : Database) : Prop :=
  ∀ contents r, writeSSTable db.memtable.entries = .ok contents →
    SSTableReader.load db.nextSstableNumber contents = .ok r → db.Ignores r

theorem sameAnswers_pushTable_iff {op : Op} {r : SSTableReader} :
  db.SameAnswers ((db.withApplied op).pushTable r)
    ↔ db.Reads op ∧ (db.withApplied op).Ignores r
  := by
  constructor
  · intro hsame
    have hreads : db.Reads op := by
      apply Reads.congr _ hsame
      apply reads_of_find
      change (db.withApplied op).memtable.find op.key = _
      rw [find_withApplied, if_pos rfl]
    exact ⟨hreads, hreads.sameAnswers.symm.trans hsame⟩
  · rintro ⟨hreads, hignores⟩
    exact hreads.sameAnswers.trans hignores

/-- The table of a MemTable in range answers what the MemTable does. -/
theorem ignores_of_layer {r : SSTableReader} (hvalid : r.Valid)
    (hlayer : r.layer = db.memtable.entries.layer) :
  db.Ignores r
  := by
  constructor
  · intro key
    have hmem : (db.pushTable r).memtable = db.memtable := rfl
    rw [get, get, hmem]
    cases hfind : db.memtable.find key with
    | some entry => rfl
    | none =>
        have hnone : r.layer key = none := by
          rw [hlayer, EntryMap.layer]
          change (db.memtable.find key).map _ = none
          rw [hfind]
          rfl
        change getFrom key (db.sstables ++ [r]).reverse = getFrom key db.sstables.reverse
        rw [List.reverse_append, List.reverse_singleton, List.singleton_append, getFrom,
          hvalid.find_eq, hnone]
        rfl
  · intro start stop
    obtain ⟨es, hscan, hsorted, hlookup⟩ := hvalid.scanRaw_eq start stop
    rw [scan_eq, scan_eq]
    change (scanTables (db.sstables ++ [r]) start stop).map _ = _
    have htables : scanTables (db.sstables ++ [r]) start stop
        = (scanTables db.sstables start stop).map (fun merged => merged.overwrite es) := by
      rw [scanTables, List.foldlM_append, scanTables]
      cases db.sstables.foldlM (fun merged sstable => do
          .ok (OrderedMap.overwrite merged (← sstable.scanRaw start stop))) OrderedMap.empty with
      | error e => rfl
      | ok merged =>
          simp only [bind, Except.bind, List.foldlM_cons, List.foldlM_nil, hscan]
          rfl
    rw [htables]
    cases scanTables db.sstables start stop with
    | error e => rfl
    | ok merged =>
        simp only [Except.map, Except.ok.injEq]
        apply livePairs_congr
        intro key
        have hentry : (db.pushTable r).memtable = db.memtable := rfl
        rw [find?_merged, find?_merged, hentry, find?_overwrite _ hsorted, hlookup, hlayer]
        by_cases hin : start ≤ key ∧ key < stop
        · rw [if_pos hin, if_pos hin, EntryMap.layer]
          cases db.memtable.entries.find? key with
          | none => rfl
          | some entry => rfl
        · rw [if_neg hin, if_neg hin]
          rfl

theorem flushIgnored_of_inRange (h : db.memtable.entries.InRange) :
  db.FlushIgnored
  := by
  intro contents r hwrite hload
  obtain ⟨t, hentries, htable⟩ := load_of_inRange h hwrite db.nextSstableNumber
  rw [hload, Except.ok.injEq] at htable
  subst htable
  apply ignores_of_layer (t.valid_reader _)
  rw [t.layer_reader, hentries]

end Database

/-! ### Reserved numbers -/

/-- The number a compaction is writing its table under is used up. -/
def Compactor.Reserved (c : Compactor) (next : ℕ) : Prop :=
  match c with
  | writing _ _ n _ => n < next
  | _ => True

def Status.Reserved : Status → Prop
  | running p => p.compactor.Reserved p.db.nextSstableNumber
  | _ => True

theorem Compactor.Reserved.mono {c : Compactor} {next next' : ℕ} (h : c.Reserved next)
    (hle : next ≤ next') :
  c.Reserved next'
  := by
  cases c with
  | writing toCompact merged n file => exact lt_of_lt_of_le h hle
  | _ => trivial

/-- No step of the writer touches the compaction or gives a number back. -/
theorem Process.reserved_writerStep {p : Process} {disk : DbDisk} {c : Option DbSyscall}
    {status : Status} {calls : List Call} (h : p.compactor.Reserved p.db.nextSstableNumber)
    (hstep : p.WriterStep disk c status calls) :
  status.Reserved
  := by
  cases hstep with
  | rename hw hopen => exact h.mono (Nat.le_succ _)
  | reset hw =>
      apply h.mono
      rw [p.db.clearMemtable_nextSstableNumber]
  | _ => exact h

theorem Process.reserved_compactorStep {p : Process} {disk : DbDisk} {c : Option DbSyscall}
    {status : Status} {calls : List Call} (h : p.compactor.Reserved p.db.nextSstableNumber)
    (hstep : p.CompactorStep disk c status calls) :
  status.Reserved
  := by
  cases hstep with
  | allocate hc hw => exact Nat.lt_succ_self _
  | write hc hfile =>
      rw [hc] at h
      exact h
  | _ => trivial

theorem reserved_step {s t : State} {a : Action} (h : s.status.Reserved)
    (hstep : step s a = some t) :
  t.status.Reserved
  := by
  obtain ⟨c, calls, hstatus, -⟩ := step_any_cases hstep
  generalize s.status = status at h hstatus
  generalize t.status = status' at hstatus ⊢
  cases hstatus with
  | succeeds hstatus =>
      cases hstatus with
      | opener hopener =>
          cases hopener with
          | _ => trivial
      | call hw => exact h
      | writer hwriter => exact Process.reserved_writerStep h hwriter
      | compactor hcompactor => exact Process.reserved_compactorStep h hcompactor
      | _ => trivial
  | writerFail hfail =>
      cases hfail with
      | _ => exact h
  | compactorFail hfail =>
      cases hfail with
      | _ => trivial
  | _ => trivial

theorem reserved_of_run {s : State} {as : List Action} (h : run step State.init as = some s) :
  s.status.Reserved
  := run_invariant (I := fun s => s.status.Reserved) h trivial (fun _ _ _ => reserved_step)

/-! ### Inside a call -/

/-- The members that the answers and the next number depend on are the same. -/
structure Database.SameMembers (db db' : Database) : Prop where
  memtable : db'.memtable = db.memtable
  sstables : db'.sstables = db.sstables
  nextSstableNumber : db'.nextSstableNumber = db.nextSstableNumber

theorem Database.SameMembers.refl (db : Database) :
  db.SameMembers db
  := ⟨rfl, rfl, rfl⟩

theorem Database.SameMembers.trans {db db' db'' : Database} (h : db.SameMembers db')
    (h' : db'.SameMembers db'') :
  db.SameMembers db''
  where
    memtable := h'.memtable.trans h.memtable
    sstables := h'.sstables.trans h.sstables
    nextSstableNumber := h'.nextSstableNumber.trans h.nextSstableNumber

theorem Database.SameMembers.sameAnswers {db db' : Database} (h : db.SameMembers db') :
  db.SameAnswers db'
  := sameAnswers_of_eq h.sstables h.memtable

/-- What the members are inside a call that began with `before`. -/
def Writer.InCall (w : Writer) (before : Database) (op : Op) (db : Database) (disk : DbDisk) :
    Prop :=
  match w with
  | idle => False
  | appending op' _ => op' = op ∧ before.SameMembers db
  | applying op' => op' = op ∧ before.SameMembers db
  | flushing op' file =>
      op' = op ∧ (before.withApplied op).SameMembers db
        ∧ file.Holds disk before.nextSstableNumber (before.memtable.apply op).entries
  | resetting op' =>
      op' = op ∧ ∃ contents r, writeSSTable (before.memtable.apply op).entries = .ok contents
        ∧ SSTableReader.load before.nextSstableNumber contents = .ok r
        ∧ ((before.withApplied op).pushTable r).SameMembers db

/-- The compaction thread does not disturb a call. -/
theorem Writer.InCall.congr {w : Writer} {before db db' : Database} {op : Op} {disk disk' : DbDisk}
    (h : w.InCall before op db disk) (hdb : db.SameMembers db')
    (hdisk : disk'.find? (.tmp db.nextSstableNumber) = disk.find? (.tmp db.nextSstableNumber)) :
  w.InCall before op db' disk'
  := by
  cases w with
  | idle => exact h
  | appending op' rest => exact ⟨h.1, h.2.trans hdb⟩
  | applying op' => exact ⟨h.1, h.2.trans hdb⟩
  | flushing op' file =>
      obtain ⟨hop, hmembers, hholds⟩ := h
      rw [hmembers.nextSstableNumber] at hdisk
      exact ⟨hop, hmembers.trans hdb, hholds.congr hdisk⟩
  | resetting op' =>
      obtain ⟨hop, contents, r, hwrite, hload, hmembers⟩ := h
      exact ⟨hop, contents, r, hwrite, hload, hmembers.trans hdb⟩

namespace Process

variable {q : Process} {before : Database} {op : Op} {disk : DbDisk} {c : Option DbSyscall}
  {status : Status} {calls : List Call}

/-- A step of the writer that does not end the call stays in it. -/
theorem inCall_writerStep (h : q.writer.InCall before op q.db disk)
    (hstep : q.WriterStep (Syscall.execOption c disk) c status []) :
  ∃ q', status = .running q'
    ∧ q'.writer.InCall before op q'.db (Syscall.execOption c disk)
  := by
  cases hstep with
  | append hw hne =>
      rw [hw] at h
      exact ⟨_, rfl, h⟩
  | sync hw =>
      rw [hw] at h
      exact ⟨_, rfl, h⟩
  | @startFlush op' hw hflush =>
      rw [hw] at h
      obtain ⟨rfl, hmembers⟩ := h
      refine ⟨_, rfl, rfl, ⟨?_, hmembers.sstables, hmembers.nextSstableNumber⟩, ?_⟩
      · rw [hmembers.memtable]
        rfl
      · change (q.db.memtable.apply op').entries = (before.memtable.apply op').entries
        rw [hmembers.memtable]
  | write hw hfile =>
      rw [hw] at h
      obtain ⟨hop, hmembers, hholds⟩ := h
      rw [hmembers.nextSstableNumber] at hfile
      exact ⟨_, rfl, hop, hmembers, hfile.holds hholds⟩
  | @rename op' r hw hopen =>
      rw [hw] at h
      obtain ⟨hop, hmembers, contents, htmp, hwrite⟩ := h
      rw [hmembers.nextSstableNumber, Syscall.execOption_some] at hopen
      change openSSTable ((Syscall.rename (.tmp before.nextSstableNumber)
        (.sst before.nextSstableNumber)).exec disk) before.nextSstableNumber = .ok r at hopen
      rw [openSSTable_rename htmp] at hopen
      refine ⟨_, rfl, hop, contents, r, hwrite, hopen, hmembers.memtable, ?_, ?_⟩
      · change q.db.sstables ++ [r] = (before.withApplied op).sstables ++ [r]
        rw [hmembers.sstables]
      · change q.db.nextSstableNumber + 1 = (before.withApplied op).nextSstableNumber + 1
        rw [hmembers.nextSstableNumber]

theorem interrupted_ne_nil (h : q.writer.InCall before op q.db disk) :
  q.interrupted ≠ []
  := by
  cases hw : q.writer with
  | idle =>
      rw [hw] at h
      exact absurd h id
  | _ => simp [interrupted, hw]

/-- A step of the compaction thread that does not end the process leaves the call where it is. -/
theorem inCall_compactorStep (hres : q.compactor.Reserved q.db.nextSstableNumber)
    (h : q.writer.InCall before op q.db disk)
    (hstep : q.CompactorStep (Syscall.execOption c disk) c status calls) (hcalls : calls = []) :
  ∃ q', status = .running q'
    ∧ q'.writer.InCall before op q'.db (Syscall.execOption c disk)
  := by
  have hidle : q.writer ≠ .idle := by
    intro hw
    rw [hw] at h
    exact h
  have hinterrupted := interrupted_ne_nil h
  cases hstep with
  | consume hc hreq => exact ⟨_, rfl, h.congr ⟨rfl, rfl, rfl⟩ rfl⟩
  | skip hc hw hlen => exact absurd hw hidle
  | snapshot hc hw hlen => exact absurd hw hidle
  | merge hc hmerge => exact ⟨_, rfl, h⟩
  | mergeFail hc hmerge => exact absurd hcalls hinterrupted
  | allocate hc hw => exact absurd hw hidle
  | write hc hfile =>
      rw [hc] at hres
      refine ⟨_, rfl, h.congr (.refl _) (hfile.find?_exec ?_)⟩
      simpa using hres.ne'
  | rename hc hopen =>
      rw [hc] at hres
      refine ⟨_, rfl, h.congr (.refl _) (Syscall.find?_exec_of_notMem ?_)⟩
      simpa [Syscall.files] using hres.ne'
  | reject hc hopen => exact absurd hcalls hinterrupted
  | swap hc hw => exact absurd hw hidle
  | unlink hc =>
      refine ⟨_, rfl, h.congr (.refl _) (Syscall.find?_exec_of_notMem ?_)⟩
      simp [Syscall.files]
  | deleted hc => exact ⟨_, rfl, h⟩
  | finish hc => exact ⟨_, rfl, h.congr ⟨rfl, rfl, rfl⟩ rfl⟩

end Process

/-- A process inside the call. -/
def State.InCall (s : State) (before : Database) (op : Op) : Prop :=
  s.status.Reserved ∧ ∃ q, s.status = .running q ∧ q.writer.InCall before op q.db s.disk

theorem calls_step {s t : State} {a : Action} (h : step s a = some t) :
  ∃ ended, t.calls = s.calls ++ ended
  := by
  obtain ⟨m, -, rfl⟩ := Option.map_eq_some_iff.mp h
  exact ⟨_, rfl⟩

/-- A step that ends no call stays inside the call. -/
theorem State.InCall.step {s t : State} {a : Action} {before : Database} {op : Op}
    (h : s.InCall before op) (hstep : step s a = some t) (hcalls : t.calls = s.calls) :
  t.InCall before op
  := by
  obtain ⟨hres, q, hq, hin⟩ := h
  use reserved_step hres hstep
  rw [hq] at hres
  have hended : ∀ ended, t.calls = s.calls ++ ended → ended = [] := by
    intro ended heq
    rw [hcalls] at heq
    exact List.append_right_eq_self.mp heq.symm
  obtain ⟨c, calls, hstatus, hdisk, heq⟩ := step_any_cases hstep
  have hnil := hended calls heq
  rw [hq, hdisk] at hstatus
  rw [hdisk]
  generalize t.status = status at hstatus ⊢
  cases hstatus with
  | succeeds hstatus =>
      cases hstatus with
      | call hw =>
          rw [hw] at hin
          exact absurd hin id
      | writer hwriter =>
          subst hnil
          exact Process.inCall_writerStep hin hwriter
      | compactor hcompactor => exact Process.inCall_compactorStep hres hin hcompactor hnil
      | close hw hc =>
          rw [hw] at hin
          exact absurd hin id
      | kill => exact absurd hnil (Process.interrupted_ne_nil hin)
  | writerFail hfail =>
      cases hfail with
      | _ => simp at hnil
  | compactorFail hfail =>
      cases hfail with
      | write hc hcall => exact absurd hnil (Process.interrupted_ne_nil hin)
      | unlink hc => exact ⟨_, rfl, hin⟩

/-! ### Calls that throw -/

/-- The call of the operation begins in `s`, and the step from `t` to `u` makes it throw. -/
def Throws (s : State) (op : Op) (t u : State) : Prop :=
  ∃ as a updated, run step s (.call op :: as) = some t ∧ t.calls = s.calls
    ∧ step t a = some u ∧ u.calls = s.calls ++ [⟨op, .threw updated⟩]

/-- The writer is about to truncate the log. -/
def State.InReset (s : State) : Prop :=
  ∃ q op, s.status = .running q ∧ q.writer = .resetting op

theorem State.inCall_call {s t : State} {p : Process} (hp : s.status = .running p) {op : Op}
    (hres : s.status.Reserved) (hstep : step s (.call op) = some t) :
  t.InCall p.db op ∧ t.calls = s.calls
  := by
  obtain ⟨c, calls, hstatus, -, hcalls⟩ := step_cases hstep rfl
  have hres' := reserved_step hres hstep
  rw [hp] at hstatus
  generalize ht : t.status = status at hstatus
  cases hstatus with
  | call hw =>
      rw [List.append_nil] at hcalls
      exact ⟨⟨hres', _, ht, rfl, .refl _⟩, hcalls⟩

/-- Until a call ends it is inside. -/
theorem State.inCall_of_run {s t : State} {p : Process} (hp : s.status = .running p) {op : Op}
    (hres : s.status.Reserved) {as : List Action} (hrun : run step s (.call op :: as) = some t)
    (hcalls : t.calls = s.calls) :
  t.InCall p.db op
  := by
  obtain ⟨s', hs', hrun⟩ := Option.bind_eq_some_iff.mp hrun
  obtain ⟨hin, hcalls'⟩ := inCall_call hp hres hs'
  have hboth : (s.calls <+: t.calls) ∧ (t.calls = s.calls → t.InCall p.db op) := by
    apply run_invariant (I := fun t => s.calls <+: t.calls
      ∧ (t.calls = s.calls → t.InCall p.db op)) hrun
    · exact ⟨hcalls' ▸ List.prefix_refl _, fun _ => hin⟩
    · intro v a w ⟨hpre, hv⟩ hstep
      obtain ⟨ended, hended⟩ := calls_step hstep
      have hvw : v.calls <+: w.calls := ⟨ended, hended.symm⟩
      refine ⟨hpre.trans hvw, fun hw => ?_⟩
      have heq : v.calls = s.calls := by
        rw [hw] at hvw
        exact hvw.eq_of_length_le hpre.length_le
      exact (hv heq).step hstep (hw.trans heq.symm)
  exact hboth.2 hcalls

theorem Process.outcome_of_interrupted {p : Process} {call : Call} (h : call ∈ p.interrupted) :
  call.outcome = .interrupted
  := by
  cases hw : p.writer with
  | idle => simp [interrupted, hw] at h
  | _ =>
      simp only [interrupted, hw, List.mem_singleton] at h
      rw [h]

/-- What the members are after a step that makes the call throw, by where the writer stood. -/
inductive Thrown (w : Writer) (before : Database) (op : Op) (after : Database) : Prop where
  | append {op' : Op} {rest : Bytes} :
      w = .appending op' rest → before.SameMembers after → Thrown w before op after
  | flush {op' : Op} {file : FileWrite} :
      w = .flushing op' file → (before.withApplied op).SameMembers after → Thrown w before op after
  | reset {op' : Op} {contents : Bytes} {r : SSTableReader} :
      w = .resetting op' → writeSSTable (before.memtable.apply op).entries = .ok contents →
      SSTableReader.load before.nextSstableNumber contents = .ok r →
      ((before.withApplied op).pushTable r).SameMembers after → Thrown w before op after

/-- A step that makes the call throw leaves the members as they are. -/
theorem Process.thrown {q : Process} {t u : State} {before : Database} {op : Op}
    (hq : t.status = .running q) (hin : q.writer.InCall before op q.db t.disk) {a : Action}
    (hstep : step t a = some u) {updated : Bool}
    (hcalls : u.calls = t.calls ++ [⟨op, .threw updated⟩]) :
  ∃ q', u.status = .running q' ∧ Thrown q.writer before op q'.db
  := by
  have hended : ∀ ended, u.calls = t.calls ++ ended → ended = [⟨op, .threw updated⟩] := by
    intro ended heq
    rw [hcalls] at heq
    exact (List.append_cancel_left heq).symm
  have hinterrupted : q.interrupted ≠ [⟨op, .threw updated⟩] := by
    intro heq
    have hmem : (⟨op, .threw updated⟩ : Call) ∈ q.interrupted := by
      rw [heq]
      exact List.mem_singleton_self _
    simpa using outcome_of_interrupted hmem
  obtain ⟨c, calls, hstatus, -, heq⟩ := step_any_cases hstep
  have hcall := hended calls heq
  rw [hq] at hstatus
  generalize u.status = status at hstatus ⊢
  cases hstatus with
  | succeeds hstatus =>
      cases hstatus with
      | writer hwriter =>
          cases hwriter with
          | reject hw hopen =>
              rw [hw] at hin
              exact ⟨_, rfl, .flush hw hin.2.1⟩
          | _ => simp at hcall
      | compactor hcompactor =>
          cases hcompactor with
          | mergeFail hc hmerge => exact absurd hcall hinterrupted
          | reject hc hopen => exact absurd hcall hinterrupted
          | _ => simp at hcall
      | kill => exact absurd hcall hinterrupted
      | _ => simp at hcall
  | writerFail hfail =>
      cases hfail with
      | append hw hsys =>
          rw [hw] at hin
          exact ⟨_, rfl, .append hw hin.2⟩
      | flush hw hsys =>
          rw [hw] at hin
          exact ⟨_, rfl, .flush hw hin.2.1⟩
      | reset hw hsys =>
          rw [hw] at hin
          obtain ⟨-, contents, r, hwrite, hload, hmembers⟩ := hin
          exact ⟨_, rfl, .reset hw hwrite hload hmembers⟩
  | compactorFail hfail =>
      cases hfail with
      | write hc hsys => exact absurd hcall hinterrupted
      | unlink hc => simp at hcall

/-- A call that throws leaves the answers as they were exactly when it failed in `Append`, or the
answers were already those it asks for and, if it failed at the truncation of the log, the table it
has written answers nothing that the MemTable leaves to the tables before it.  Such a table of a
MemTable in range never does. -/
theorem throwing_write_invisible_iff {as : List Action} {s : State}
    (hrun : run step State.init as = some s) {p : Process} (hp : s.status = .running p) {op : Op}
    {t u : State} (hthrows : Throws s op t u) :
  (∃ q, u.status = .running q ∧ (p.db.SameAnswers q.db
    ↔ t.InAppend ∨ p.db.Reads op ∧ (t.InReset → (p.db.withApplied op).FlushIgnored)))
  ∧ ((p.db.memtable.apply op).entries.InRange → (p.db.withApplied op).FlushIgnored)
  := by
  refine ⟨?_, @Database.flushIgnored_of_inRange (p.db.withApplied op)⟩
  obtain ⟨bs, a, updated, hbs, hcalls, hstep, hthrew⟩ := hthrows
  obtain ⟨-, q, hq, hin⟩ := State.inCall_of_run hp (reserved_of_run hrun) hbs hcalls
  rw [← hcalls] at hthrew
  obtain ⟨q', hq', hthrown⟩ := q.thrown hq hin hstep hthrew
  use q', hq'
  have hwriter : ∀ q₁, t.status = .running q₁ → q₁ = q := by
    intro q₁ hq₁
    rw [hq] at hq₁
    exact (Status.running.inj hq₁).symm
  cases hthrown with
  | append hw hmembers =>
      apply iff_of_true hmembers.sameAnswers
      exact Or.inl ⟨q, _, _, hq, hw⟩
  | flush hw hmembers =>
      have happend : ¬ t.InAppend := by
        rintro ⟨q₁, op₁, rest, hq₁, hw₁⟩
        obtain rfl := hwriter q₁ hq₁
        simp [hw] at hw₁
      have hreset : ¬ t.InReset := by
        rintro ⟨q₁, op₁, hq₁, hw₁⟩
        obtain rfl := hwriter q₁ hq₁
        simp [hw] at hw₁
      have hsame := hmembers.sameAnswers
      constructor
      · intro h
        exact Or.inr ⟨Database.sameAnswers_withApplied_iff.mp (h.trans hsame.symm), fun hr =>
          absurd hr hreset⟩
      · intro h
        obtain ⟨hreads, -⟩ := h.resolve_left happend
        exact hreads.sameAnswers.trans hsame
  | @reset op' contents r hw hwrite hload hmembers =>
      have happend : ¬ t.InAppend := by
        rintro ⟨q₁, op₁, rest, hq₁, hw₁⟩
        obtain rfl := hwriter q₁ hq₁
        simp [hw] at hw₁
      have hsame := hmembers.sameAnswers
      constructor
      · intro h
        obtain ⟨hreads, hignores⟩ := Database.sameAnswers_pushTable_iff.mp (h.trans hsame.symm)
        refine Or.inr ⟨hreads, fun _ contents' r' hwrite' hload' => ?_⟩
        obtain rfl := Except.ok.inj (hwrite.symm.trans hwrite')
        obtain rfl := Except.ok.inj (hload.symm.trans hload')
        exact hignores
      · intro h
        obtain ⟨hreads, hignored⟩ := h.resolve_left happend
        have hignores := hignored ⟨q, op', hq, hw⟩ contents r hwrite hload
        exact (Database.sameAnswers_pushTable_iff.mpr ⟨hreads, hignores⟩).trans hsame

/-- A call on an empty database whose threshold is zero: the states before it, before the system
call that fails, and after. -/
def failingCall (op : Op) (as : List Action) : Option (State × State × State) :=
  (run step State.init (launchActions 0 2)).bind (fun s =>
    (run step s (.call op :: as)).bind (fun t =>
      (step t (.writerFail false)).map (fun u => (s, t, u))))

/-- The call has thrown. -/
def rejects (op : Op) (updated : Bool) (x : State × State × State) : Bool :=
  x.1.isRunning && decide (x.2.1.calls = x.1.calls
    ∧ x.2.2.calls = x.1.calls ++ [⟨op, .threw updated⟩])

theorem throws_of_failingCall {op : Op} {as : List Action} {updated : Bool}
    (h : (failingCall op as).any (rejects op updated) = true) :
  ∃ s p t u, failingCall op as = some (s, t, u) ∧ run step State.init (launchActions 0 2) = some s
    ∧ s.status = .running p ∧ Throws s op t u
  := by
  cases hcall : failingCall op as with
  | none => simp [hcall] at h
  | some x =>
      obtain ⟨s, t, u⟩ := x
      rw [hcall, Option.any_some, rejects, Bool.and_eq_true, decide_eq_true_iff] at h
      obtain ⟨hrunning, hcalls, hthrew⟩ := h
      obtain ⟨p, hp⟩ := State.isRunning_iff.mp hrunning
      obtain ⟨s', hs, hrest⟩ := Option.bind_eq_some_iff.mp hcall
      obtain ⟨t', ht, hrest⟩ := Option.bind_eq_some_iff.mp hrest
      obtain ⟨u', hu, heq⟩ := Option.map_eq_some_iff.mp hrest
      simp only [Prod.mk.injEq] at heq
      obtain ⟨rfl, rfl, rfl⟩ := heq
      exact ⟨s', p, t', u', rfl, hs, hp, as, _, updated, ht, hcalls, hu, hthrew⟩

/-- A `put` that fails at the first write to the log. -/
theorem throwing_write_invisible_iff_append :
  ∃ s p t u, failingCall (.put [97] [1]) [] = some (s, t, u) ∧ s.status = .running p
    ∧ ∃ q, u.status = .running q ∧ (p.db.SameAnswers q.db
      ↔ t.InAppend ∨ p.db.Reads (.put [97] [1])
        ∧ (t.InReset → (p.db.withApplied (.put [97] [1])).FlushIgnored))
  := by
  have hrejects : (failingCall (.put [97] [1]) []).any (rejects (.put [97] [1]) false) = true := by
    decide +kernel
  obtain ⟨s, p, t, u, hcall, hs, hp, hthrows⟩ := throws_of_failingCall hrejects
  exact ⟨s, p, t, u, hcall, hp, (throwing_write_invisible_iff hs hp hthrows).1⟩

/-- The key `a` has no value before the call and the value it was to be given after. -/
def shows (x : State × State × State) : Bool :=
  match x.1.status, x.2.2.status with
  | .running p, .running q => p.db.get [97] = .ok none ∧ q.db.get [97] = .ok (some [1])
  | _, _ => false

/-- A `put` that reaches the threshold and cannot create the temporary file of its table. -/
theorem not_throwing_write_invisible :
  ¬ ∀ (as : List Action) (s : State) (p : Process) (op : Op) (t u : State) (q : Process),
    run step State.init as = some s → s.status = .running p → Throws s op t u →
    u.status = .running q → p.db.SameAnswers q.db
  := by
  intro hall
  have hrejects : (failingCall (.put [97] [1]) [.writer 15, .writer 0, .writer 0]).any
      (rejects (.put [97] [1]) true) = true := by
    decide +kernel
  have hshows : (failingCall (.put [97] [1]) [.writer 15, .writer 0, .writer 0]).any shows
      = true := by
    decide +kernel
  obtain ⟨s, p, t, u, hcall, hs, hp, hthrows⟩ := throws_of_failingCall hrejects
  rw [hcall, Option.any_some, shows] at hshows
  split at hshows
  · rename_i p' q hp' hq
    obtain rfl := Status.running.inj (hp.symm.trans hp')
    obtain ⟨hbefore, hafter⟩ := of_decide_eq_true hshows
    have hsame := (hall _ s p _ t u q hs hp hthrows hq).1 [97]
    rw [hbefore, hafter] at hsame
    exact absurd hsame (by decide)
  · simp at hshows

end TinyLsm
