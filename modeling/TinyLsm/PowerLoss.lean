import TinyLsm.Reopen
import TinyLsm.Library.Durability

/-!
# Power loss

The program on a file system that makes the contents of a file durable with its `fsync`, and
the entries of a directory only with an `fsync` of the directory, which the program never
calls; but someone else may.  After a loss of power at any point the directory has every call
that returned, in runs in which the entry of `wal.log` is durable whenever an append to it
ends, and the entries of the tables are durable whenever a flush resets it
(`durable_under_power_loss`).  Without an `fsync` of the directory every file may be lost
(`survives_empty`).
-/

namespace TinyLsm

open FileSystem Layers Transition

/-- The program, and what a loss of power may leave of its files. -/
structure PowerState where
  state : State
  pending : FileName → Pending UInt8

inductive PowerAction where
  | program (a : Action)
  /-- Someone calls `fsync` on the directory. -/
  | syncDir
  /-- The power is lost, and these files are left. -/
  | powerLoss (left : DbDisk)

/-- The calls the end of the process would cut short. -/
def State.interrupted (s : State) : List Call :=
  match s.status with
  | .running p => p.interrupted
  | _ => []

namespace PowerState

def init : PowerState :=
  ⟨State.init, fun _ => .settled⟩

/-- One step of the program, or of what happens to it. -/
def step (s : PowerState) : PowerAction → Option PowerState
  | .program a =>
      (s.state.status.move a).map (fun m =>
        ⟨s.state.after m, Syscall.pendOption m.syscall s.state.disk s.pending⟩)
  | .syncDir => some ⟨s.state, Syscall.syncDir.pend s.state.disk s.pending⟩
  | .powerLoss left =>
      some ⟨⟨left, .down, s.state.calls ++ s.state.interrupted⟩, fun _ => .settled⟩

/-- The program neither fails nor compacts, and a loss of power leaves what it may. -/
def Allows (s : PowerState) : PowerAction → Prop
  | .program a => a.noFailure ∧ a.InRange ∧ a.noCompaction
  | .syncDir => True
  | .powerLoss left => Survives s.pending s.state.disk left

/-- The entry of the log is durable when an append ends with its `fsync`, and the entries of
the tables are when a flush resets the log. -/
def EntriesDurable (s : PowerState) (a : PowerAction) : Prop :=
  match s.state.status, a with
  | .running p, .program (.writer _) =>
      match p.writer with
      | .appending _ [] => (s.pending .walLog).entries = []
      | .resetting _ => ∀ r ∈ p.db.sstables, (s.pending (.sst r.path)).entries = []
      | _ => True
  | _, _ => True

end PowerState

/-! ### What a loss of power leaves -/

/-- The directory entry of the table may be lost. -/
def Loose (pending : FileName → Pending UInt8) (r : SSTableReader) : Prop :=
  (pending (.sst r.path)).entries ≠ []

/-- The MemTable has an entry for every key of the table. -/
def SSTableReader.CoveredBy (r : SSTableReader) (m : MemTable) : Prop :=
  ∀ key, m.entries.layer key = none → r.layer key = none

/-- The tables are synced, and one that is on disk is lost at most with its entry. -/
structure TablesSafe (disk : DbDisk) (pending : FileName → Pending UInt8) : Prop where
  synced : ∀ n, (pending (.sst n)).contents = []
  entries : ∀ n, ∀ o ∈ (pending (.sst n)).entries, o = none
  fresh : ∀ n, disk.find? (.sst n) = none → (pending (.sst n)).entries = []

/-- With this log, and whatever tables are lost, the directory stands for the calls. -/
def LogMeans (disk : DbDisk) (pending : FileName → Pending UInt8) (calls : List Call)
    (log : Bytes) : Prop :=
  ∃ readers absorbed ops, Recoverable (disk.insert .walLog log) readers absorbed
    ∧ Resolves calls ops ∧ recoveredView readers absorbed = contents ops
    ∧ ∀ r ∈ readers, Loose pending r → r.CoveredBy (memTableOf absorbed)

theorem find?_insert_log (disk : DbDisk) (log : Bytes) (n : ℕ) :
  (disk.insert .walLog log).find? (.sst n) = disk.find? (.sst n)
  := by
  simp

theorem LogMeans.mono {disk disk' : DbDisk} {pending pending' : FileName → Pending UInt8}
    {calls : List Call} {log : Bytes} (h : LogMeans disk pending calls log)
    (hsst : ∀ n, disk'.find? (.sst n) = disk.find? (.sst n))
    (hloose : ∀ r, Loose pending' r → Loose pending r) :
  LogMeans disk' pending' calls log
  := by
  obtain ⟨readers, absorbed, ops, hrec, hresolves, hview, hcovered⟩ := h
  refine ⟨readers, absorbed, ops, hrec.congr ?_ ?_, hresolves, hview, ?_⟩
  · intro n
    rw [find?_insert_log, find?_insert_log, hsst]
  · simp
  · exact fun r hr hl => hcovered r hr (hloose r hl)

/-- A call that has just started need not count. -/
theorem LogMeans.interrupted {disk : DbDisk} {pending : FileName → Pending UInt8}
    {calls : List Call} {log : Bytes} (h : LogMeans disk pending calls log) (op : Op) :
  LogMeans disk pending (calls ++ [⟨op, .interrupted⟩]) log
  := by
  obtain ⟨readers, absorbed, ops, hrec, hresolves, hrest⟩ := h
  exact ⟨readers, absorbed, ops, hrec, .dropped _ hresolves rfl, hrest⟩

theorem SSTableReader.CoveredBy.apply {r : SSTableReader} {m : MemTable} (h : r.CoveredBy m)
    (op : Op) :
  r.CoveredBy (m.apply op)
  := by
  intro key hnone
  rw [MemTable.layer_apply] at hnone
  split_ifs at hnone with hkey
  exact h key hnone

theorem SSTableReader.CoveredBy.append {r : SSTableReader} {absorbed : List Op}
    (h : r.CoveredBy (memTableOf absorbed)) (more : List Op) :
  r.CoveredBy (memTableOf (absorbed ++ more))
  := by
  induction more using List.reverseRecOn with
  | nil => simpa using h
  | append_singleton more op ih =>
      rw [← List.append_assoc, memTableOf_concat]
      exact ih.apply op

/-- Losing tables that the log covers changes no answer. -/
theorem recoveredView_filter {readers : List SSTableReader} {keep : SSTableReader → Bool}
    {absorbed : List Op}
    (h : ∀ r ∈ readers, keep r = false → r.CoveredBy (memTableOf absorbed)) :
  recoveredView (readers.filter keep) absorbed = recoveredView readers absorbed
  := by
  funext key
  rw [recoveredView, recoveredView, view, view, newest_append, newest_append]
  cases hmem : newest [(memTableOf absorbed).entries.layer] key with
  | some entry => rfl
  | none =>
      rw [newest_cons, newest_nil, Option.none_or] at hmem
      rw [newest_filter (fun r hr hkeep => h r hr hkeep key hmem)]

/-- What a loss of power leaves stands for the calls, if it does with the log that is left
and whatever tables are lost. -/
theorem LogMeans.atRest {disk left : DbDisk} {pending : FileName → Pending UInt8}
    {calls : List Call} (hleft : Survives pending disk left) (htables : TablesSafe disk pending)
    (h : LogMeans disk pending calls ((left.find? .walLog).getD [])) :
  AtRest left calls
  := by
  obtain ⟨readers, absorbed, ops, hrec, hresolves, hview, hcovered⟩ := h
  have hholds : Holds disk readers := by
    apply (holds_of_openTables hrec.opened).congr
    exact fun n => (find?_insert_log disk _ n).symm
  have hloaded := loaded_of_openTables hrec.opened
  have hascending := ascending_of_openTables hrec.opened
  -- A table is left as it was, or lost with its entry.
  have hsst : ∀ n, left.find? (.sst n) = disk.find? (.sst n)
      ∨ left.find? (.sst n) = none ∧ (pending (.sst n)).entries ≠ [] := by
    intro n
    have hmem := hleft (.sst n)
    simp only [Pending.outcomes, Pending.stale, htables.synced, List.map_nil, List.nil_append,
      List.mem_cons] at hmem
    rcases hmem with hsame | hlost
    · exact Or.inl hsame
    · exact Or.inr ⟨htables.entries n _ hlost, List.ne_nil_of_mem hlost⟩
  obtain ⟨readers', hopen⟩ : ∃ readers', openTables left = .ok readers' := by
    apply openTables_of_load
    intro n c hn
    rcases hsst n with hsame | ⟨hlost, -⟩
    · rw [hsame] at hn
      obtain ⟨r, hr, rfl, rfl⟩ := (hholds n c).mp hn
      exact ⟨r, hloaded r hr⟩
    · simp [hlost] at hn
  -- The tables left are found in the same order.
  have hkept : Holds left (readers.filter (fun r => (left.find? (.sst r.path)).isSome)) := by
    intro n c
    constructor
    · intro hn
      rcases hsst n with hsame | ⟨hlost, -⟩
      · rw [hsame] at hn
        obtain ⟨r, hr, rfl, rfl⟩ := (hholds n c).mp hn
        exact ⟨r, List.mem_filter.mpr ⟨hr, by rw [hsame, hn]; rfl⟩, rfl, rfl⟩
      · simp [hlost] at hn
    · rintro ⟨r, hr, rfl, rfl⟩
      obtain ⟨hr, hsome⟩ := List.mem_filter.mp hr
      rcases hsst r.path with hsame | ⟨hlost, -⟩
      · rw [hsame]
        exact hholds.find?_path hr
      · simp [hlost] at hsome
  have heq : readers' = readers.filter (fun r => (left.find? (.sst r.path)).isSome) := by
    have hascending' := hascending.filter (fun r => (left.find? (.sst r.path)).isSome)
    have hperm := perm_of_openTables hopen hkept
      (fun r hr => hloaded r (List.mem_of_mem_filter hr))
      (List.pairwise_map.mpr (hascending'.imp (fun hlt => hlt.ne)))
    apply hperm.eq_of_pairwise _ (ascending_of_openTables hopen) hascending'
    intro a b _ _ hlt hgt
    omega
  refine ⟨readers', absorbed, ops, ?_, hresolves, ?_⟩
  · constructor
    · exact hopen
    · rw [heq]
      exact fun r hr => hrec.valid r (List.mem_of_mem_filter hr)
    · exact hrec.inRange
    · simpa using hrec.log
  · rw [← hview, heq]
    apply recoveredView_filter
    intro r hr hlost
    apply hcovered r hr
    rcases hsst r.path with hsame | ⟨-, hloose⟩
    · rw [hsame, hholds.find?_path hr] at hlost
      simp at hlost
    · exact hloose

/-! ### The invariant -/

/-- The record of the call, or of the last one, is durable. -/
def Writer.logged : Writer → Bool
  | .applying _ => true
  | .flushing _ _ => true
  | .resetting _ => true
  | _ => false

/-- The process can lose the power. -/
structure Process.Secure (p : Process) (pending : FileName → Pending UInt8) : Prop where
  covered : ∀ r ∈ p.db.sstables, Loose pending r → r.CoveredBy p.db.memtable
  log : p.writer.logged = true → pending .walLog = .settled
  tmp : ∀ op, p.writer = .flushing op .synced →
    (pending (.tmp p.db.nextSstableNumber)).contents = []

/-- What the status says about a loss of power that leaves the log as it is. -/
def Status.Secure (status : Status) (disk : DbDisk) (pending : FileName → Pending UInt8)
    (calls : List Call) : Prop :=
  match status with
  | running p => p.Secure pending
  | _ => LogMeans disk pending calls ((disk.find? .walLog).getD [])

/-- Whatever a loss of power leaves stands for the calls so far. -/
structure Withstands (s : PowerState) : Prop where
  sound : Sound True s.state
  quiet : s.state.Quiet
  tables : TablesSafe s.state.disk s.pending
  stale : ∀ o ∈ (s.pending .walLog).stale,
    LogMeans s.state.disk s.pending (s.state.calls ++ s.state.interrupted) (o.getD [])
  secure : s.state.status.Secure s.state.disk s.pending s.state.calls

namespace Process

variable {p : Process} {disk : DbDisk} {calls : List Call}
  {pending : FileName → Pending UInt8}

theorem generations_of_waiting (hc : p.compactor = .waiting) :
  p.generations = p.db.sstables
  := by
  rw [generations, hc]

/-- The log as it is, with whatever tables are lost, has what the process stands for. -/
theorem Means.logMeans (h : p.WellFormed disk) (hm : p.Means disk calls) (ho : p.Ordered)
    (hc : p.compactor = .waiting)
    (hcovered : ∀ r ∈ p.db.sstables, Loose pending r → r.CoveredBy p.db.memtable) :
  LogMeans disk pending (calls ++ p.interrupted) ((disk.find? .walLog).getD [])
  := by
  obtain ⟨readers, absorbed, more, ops, hmem, hrec, hresolves, hview⟩ := hm.recovered h ho
  have hperm := perm_of_openTables hrec.opened h.holds h.loaded h.distinct
  rw [generations_of_waiting hc] at hperm
  refine ⟨readers, absorbed ++ more, ops, ?_, hresolves, hview, ?_⟩
  · apply hrec.congr
    · exact fun n => find?_insert_log _ _ n
    · simp
  · intro r hr hloose
    have hcov := hcovered r (hperm.subset hr) hloose
    rw [hmem] at hcov
    exact hcov.append more

end Process

namespace Withstands

variable {s : PowerState}

/-- The log as it is, too, stands for the calls so far. -/
theorem logMeans (h : Withstands s) :
  LogMeans s.state.disk s.pending (s.state.calls ++ s.state.interrupted)
    ((s.state.disk.find? .walLog).getD [])
  := by
  have hsecure := h.secure
  have hwf := h.sound.wellFormed
  have hmeans := h.sound.means
  simp only [State.interrupted]
  cases hstatus : s.state.status with
  | running p =>
      rw [hstatus] at hsecure hwf hmeans
      exact hmeans.logMeans hwf (h.sound.ordered trivial p hstatus) (h.quiet p hstatus)
        hsecure.covered
  | _ =>
      rw [hstatus] at hsecure
      simpa [Status.Secure] using hsecure

/-- Whatever is left stands for the calls so far. -/
theorem atRest (h : Withstands s) {left : DbDisk}
    (hleft : Survives s.pending s.state.disk left) :
  AtRest left (s.state.calls ++ s.state.interrupted)
  := by
  apply LogMeans.atRest hleft h.tables
  rcases List.mem_cons.mp (hleft .walLog) with hseen | hstale
  · rw [hseen]
    exact h.logMeans
  · exact h.stale _ hstale

end Withstands

/-- A directory at rest, all of it durable, withstands. -/
theorem AtRest.withstands {disk : DbDisk} {calls : List Call} (h : AtRest disk calls) :
  Withstands ⟨⟨disk, .down, calls⟩, fun _ => .settled⟩
  := by
  obtain ⟨readers, absorbed, ops, hrec, hresolves, hview⟩ := h
  constructor
  · constructor
    · intro n contents hfind
      obtain ⟨r, hr, rfl, rfl⟩ := (holds_of_openTables hrec.opened n contents).mp hfind
      exact ⟨r, loaded_of_openTables hrec.opened r hr⟩
    · exact ⟨readers, absorbed, ops, hrec, hresolves, hview⟩
    · intro _ p hp
      simp at hp
  · intro p hp
    simp at hp
  · exact ⟨fun _ => rfl, by simp [Pending.settled], fun _ _ => rfl⟩
  · simp
  · refine ⟨readers, absorbed, ops, ?_, hresolves, hview, by simp [Loose, Pending.settled]⟩
    apply hrec.congr
    · exact fun n => find?_insert_log _ _ n
    · simp

/-! ### Steps -/

/-- The call names no table. -/
def LeavesTables (c : DbSyscall) : Prop :=
  c ≠ .syncDir ∧ ∀ n, .sst n ∉ c.files ∧ c ≠ .fsync (.sst n)

/-- The call does not name the log. -/
def LeavesLog (c : DbSyscall) : Prop :=
  c ≠ .syncDir ∧ .walLog ∉ c.files ∧ c ≠ .fsync .walLog

section Calls

variable {c : DbSyscall} {disk : DbDisk} {pending : FileName → Pending UInt8}

theorem LeavesTables.pend (h : LeavesTables c) (n : ℕ) :
  c.pend disk pending (.sst n) = pending (.sst n)
  := Syscall.pend_of_notMem (h.2 n).1 (h.2 n).2 h.1

theorem LeavesTables.exec (h : LeavesTables c) (n : ℕ) :
  (c.exec disk).find? (.sst n) = disk.find? (.sst n)
  := Syscall.find?_exec_of_notMem (h.2 n).1

theorem LeavesTables.loose (h : LeavesTables c) (disk : DbDisk) (r : SSTableReader) :
  Loose (c.pend disk pending) r ↔ Loose pending r
  := by
  rw [Loose, Loose, h.pend]

theorem LeavesTables.tablesSafe (h : LeavesTables c) (ht : TablesSafe disk pending) :
  TablesSafe (c.exec disk) (c.pend disk pending)
  := by
  constructor
  · intro n
    rw [h.pend]
    exact ht.synced n
  · intro n
    rw [h.pend]
    exact ht.entries n
  · intro n hn
    rw [h.exec] at hn
    rw [h.pend]
    exact ht.fresh n hn

theorem LeavesTables.logMeans (h : LeavesTables c) {calls : List Call} {log : Bytes}
    (hlog : LogMeans disk pending calls log) :
  LogMeans (c.exec disk) (c.pend disk pending) calls log
  := hlog.mono h.exec (fun r hr => (h.loose disk r).mp hr)

theorem LeavesLog.pend (h : LeavesLog c) :
  c.pend disk pending .walLog = pending .walLog
  := Syscall.pend_of_notMem h.2.1 h.2.2 h.1

theorem LeavesLog.exec (h : LeavesLog c) :
  (c.exec disk).find? .walLog = disk.find? .walLog
  := Syscall.find?_exec_of_notMem h.2.1

theorem FileWrite.Step.leaves {n : ℕ} {file file' : FileWrite} (h : file.Step n c file') :
  LeavesTables c ∧ LeavesLog c
  := by
  cases h with
  | _ => simp [LeavesTables, LeavesLog, Syscall.files]

theorem leavesTables_of_log {c : DbSyscall} (hdir : c ≠ .syncDir) (hfiles : c.files ⊆ [.walLog])
    (hsync : ∀ n, c ≠ .fsync (.sst n)) :
  LeavesTables c
  := by
  refine ⟨hdir, fun n => ⟨?_, hsync n⟩⟩
  intro hmem
  have hlog := hfiles hmem
  simp at hlog

end Calls

/-! ### Steps of the constructor -/

/-- A process that has replayed the log is secure. -/
theorem LogMeans.secure_launch {disk : DbDisk} {pending : FileName → Pending UInt8}
    {calls : List Call} {db : Database} {log : Bytes}
    (h : LogMeans disk pending calls ((disk.find? .walLog).getD [])) (hdb : db.Discovered disk)
    (hlog : (disk.find? .walLog).getD [] = log) (pending' : FileName → Pending UInt8)
    (hloose : ∀ r, Loose pending' r → Loose pending r) :
  (db.replay log).idle.Secure pending'
  := by
  obtain ⟨readers, absorbed, ops, hrec, -, -, hcovered⟩ := h
  have hrec' : Recoverable disk readers absorbed := by
    apply hrec.congr
    · exact fun n => (find?_insert_log disk _ n).symm
    · simp
  obtain ⟨hsst, hmem, -⟩ := Database.replay_recoverable hrec' hdb hlog
  constructor
  · intro r hr hl
    change r ∈ (db.replay log).sstables at hr
    change r.CoveredBy (db.replay log).memtable
    rw [hsst] at hr
    rw [hmem]
    exact hcovered r hr (hloose r hl)
  · intro hlogged
    simp [Database.idle, Writer.logged] at hlogged
  · intro op hw
    simp [Database.idle] at hw

theorem Withstands.opener_step {o : Opener} {disk disk' : DbDisk} {status : Status}
    {calls ended : List Call} {c : Option DbSyscall} {pending : FileName → Pending UInt8}
    (h : Withstands ⟨⟨disk, .opening o, calls⟩, pending⟩)
    (hdisk : disk' = Syscall.execOption c disk) (hstep : o.Step disk' c status ended)
    (hsound : Sound True ⟨disk', status, calls ++ ended⟩)
    (hquiet : State.Quiet ⟨disk', status, calls ++ ended⟩) :
  Withstands ⟨⟨disk', status, calls ++ ended⟩, Syscall.pendOption c disk pending⟩
  := by
  have hstale := h.stale
  have hseen := h.secure
  have hmeans := h.sound.means
  simp only [State.interrupted, List.append_nil] at hstale
  simp only [Status.Secure] at hseen
  subst hdisk
  cases hstep with
  | @clean thr trig leftover choice n hn =>
      have htables : LeavesTables (.unlink (.tmp n)) := by simp [LeavesTables, Syscall.files]
      have hlog : LeavesLog (.unlink (.tmp n)) := by simp [LeavesLog, Syscall.files]
      refine ⟨hsound, hquiet, htables.tablesSafe h.tables, ?_, ?_⟩
      · simp only [State.interrupted, List.append_nil, Syscall.pendOption_some, hlog.pend]
        exact fun o ho => htables.logMeans (hstale o ho)
      · simp only [Status.Secure, List.append_nil, Syscall.execOption_some, hlog.exec]
        exact htables.logMeans hseen
  | discover hdiscover =>
      refine ⟨hsound, hquiet, h.tables, ?_, ?_⟩
      · simpa [State.interrupted] using hstale
      · simpa [Status.Secure] using hseen
  | reject hdiscover => exact absurd hsound.means id
  | @createLog db =>
      have htables : LeavesTables (.create .walLog) :=
        leavesTables_of_log (by simp) (by simp [Syscall.files]) (by simp)
      refine ⟨hsound, hquiet, htables.tablesSafe h.tables, ?_, ?_⟩
      · simp only [State.interrupted, List.append_nil, Syscall.pendOption_some]
        intro o ho
        apply htables.logMeans
        rcases Syscall.mem_stale_create ho with rfl | ho
        · exact hseen
        · exact hstale o ho
      · simp only [Status.Secure, List.append_nil, Syscall.execOption_some, Syscall.find?_create,
          Option.getD_some]
        exact htables.logMeans hseen
  | replayTorn hlog hlt =>
      refine ⟨hsound, hquiet, h.tables, ?_, ?_⟩
      · simpa [State.interrupted] using hstale
      · simpa [Status.Secure] using hseen
  | replayWhole hlog hle =>
      refine ⟨hsound, hquiet, h.tables, ?_, ?_⟩
      · simpa [State.interrupted, Process.interrupted] using hstale
      · exact hseen.secure_launch hmeans.2.1 hlog _ (fun r hr => hr)
  | @truncate db validEnd =>
      obtain ⟨-, db₀, log, hdb, hfind, rfl, rfl⟩ := hmeans
      have htables : LeavesTables (.ftruncate .walLog (replayLog log).2) :=
        leavesTables_of_log (by simp) (by simp [Syscall.files]) (by simp)
      have hgetD : (disk.find? .walLog).getD [] = log := by rw [hfind, Option.getD_some]
      refine ⟨hsound, hquiet, htables.tablesSafe h.tables, ?_, ?_⟩
      · simp only [State.interrupted, Process.interrupted, List.append_nil,
          Syscall.pendOption_some]
        intro o ho
        apply htables.logMeans
        rw [Syscall.stale_ftruncate hfind] at ho
        rcases List.mem_cons.mp ho with rfl | ho
        · rw [hfind] at hseen
          exact hseen
        · exact hstale o ho
      · exact hseen.secure_launch hdb hgetD _ (fun r hr => (htables.loose disk r).mp hr)

/-! ### Steps of the writer -/

/-- In the middle of an append, too, the log stands for the calls so far. -/
theorem Process.Means.logMeans_append {p : Process} {disk : DbDisk} {calls : List Call}
    {pending : FileName → Pending UInt8} (h : p.WellFormed disk) (hm : p.Means disk calls)
    (ho : p.Ordered) (hc : p.compactor = .waiting)
    (hcovered : ∀ r ∈ p.db.sstables, Loose pending r → r.CoveredBy p.db.memtable) {op : Op}
    {written rest log : Bytes} (hw : p.writer = .appending op (written ++ rest))
    (hfind : disk.find? .walLog = some log) {k : ℕ} (hk : k < written.length) :
  LogMeans disk pending (calls ++ [⟨op, .interrupted⟩]) (log ++ written.take k)
  := by
  cases k with
  | zero =>
      have hseen := hm.logMeans h ho hc hcovered
      simpa [hfind, interrupted, hw] using hseen
  | succ k =>
      -- The log a shorter `write` would have left.
      have hstep : p.WriterStep ((Syscall.append .walLog (written.take (k + 1))).exec disk)
          (some (.append .walLog (written.take (k + 1))))
          (.running { p with writer := .appending op (written.drop (k + 1) ++ rest) }) [] := by
        apply WriterStep.append
        · rw [← List.append_assoc, List.take_append_drop, hw]
        · rw [ne_eq, List.take_eq_nil_iff]
          rintro (hzero | hnil)
          · omega
          · simp [hnil] at hk
      obtain ⟨p', hp', hm'⟩ := hm.writerStep h (Syscall.execOption_some _ _).symm hstep
      obtain rfl := Status.running.inj hp'
      have h' := h.writerStep (hm.flushAccepted h) (Syscall.execOption_some _ _).symm hstep
      have hseen := hm'.logMeans h' (ho.setWriter rfl) hc hcovered
      have hlog : ((Syscall.append .walLog (written.take (k + 1))).exec disk).find? .walLog
          = some (log ++ written.take (k + 1)) := by
        simp [Syscall.exec, hfind]
      rw [hlog, List.append_nil, Option.getD_some] at hseen
      apply hseen.mono
      · intro n
        apply (Syscall.find?_exec_of_notMem _).symm
        simp [Syscall.files]
      · exact fun r hr => hr

section Writer

variable {p p' : Process} {disk disk' : DbDisk} {calls ended : List Call}
  {c : Option DbSyscall} {pending : FileName → Pending UInt8}

/-- What a flush has renamed may be lost, and the log has all of it. -/
theorem Withstands.rename_step {op : Op} {r : SSTableReader}
    (h : Withstands ⟨⟨disk, .running p, calls⟩, pending⟩)
    (hw : p.writer = .flushing op .synced)
    (hopen : openSSTable ((Syscall.rename (.tmp p.db.nextSstableNumber)
      (.sst p.db.nextSstableNumber)).exec disk) p.db.nextSstableNumber = .ok r)
    (hlayer : r.layer = p.db.memtable.entries.layer) :
  TablesSafe ((Syscall.rename (.tmp p.db.nextSstableNumber)
      (.sst p.db.nextSstableNumber)).exec disk)
      ((Syscall.rename (.tmp p.db.nextSstableNumber) (.sst p.db.nextSstableNumber)).pend disk
        pending)
    ∧ ∀ r' ∈ p.db.sstables ++ [r],
      Loose ((Syscall.rename (.tmp p.db.nextSstableNumber) (.sst p.db.nextSstableNumber)).pend
        disk pending) r' → r'.CoveredBy p.db.memtable
  := by
  have hwf := h.sound.wellFormed
  have hwriter := hwf.writer
  rw [hw] at hwriter
  obtain ⟨contents, htmp, -⟩ := hwriter
  have hpath := path_of_openSSTable hopen
  have hnone : disk.find? (.sst p.db.nextSstableNumber) = none :=
    hwf.holds.find?_eq_none (fun r hr => (hwf.below r hr).ne)
  have hnew : (Syscall.rename (.tmp p.db.nextSstableNumber)
      (.sst p.db.nextSstableNumber)).pend disk pending (.sst p.db.nextSstableNumber)
      = ⟨[], [none]⟩ := by
    rw [Syscall.pend_rename_target htmp, hnone, h.secure.tmp op hw, Pending.relinked,
      Pending.outcomes, Pending.stale, h.tables.synced, h.tables.fresh _ hnone]
    rfl
  have hnotmem : ∀ n, n ≠ p.db.nextSstableNumber → FileName.sst n ∉ (Syscall.rename
      (.tmp p.db.nextSstableNumber) (.sst p.db.nextSstableNumber) : DbSyscall).files := by
    intro n hn
    simpa [Syscall.files] using hn
  have hold : ∀ n, n ≠ p.db.nextSstableNumber → (Syscall.rename (.tmp p.db.nextSstableNumber)
      (.sst p.db.nextSstableNumber)).pend disk pending (.sst n) = pending (.sst n) :=
    fun n hn => Syscall.pend_of_notMem (hnotmem n hn) (by simp) (by simp)
  constructor
  · constructor
    · intro n
      by_cases hn : n = p.db.nextSstableNumber
      · rw [hn, hnew]
      · rw [hold n hn]
        exact h.tables.synced n
    · intro n
      by_cases hn : n = p.db.nextSstableNumber
      · rw [hn, hnew]
        simp
      · rw [hold n hn]
        exact h.tables.entries n
    · intro n hfind
      by_cases hn : n = p.db.nextSstableNumber
      · rw [hn] at hfind
        simp [Syscall.exec, htmp] at hfind
      · rw [Syscall.find?_exec_of_notMem (hnotmem n hn)] at hfind
        rw [hold n hn]
        exact h.tables.fresh n hfind
  · intro r' hr' hloose
    rcases List.mem_append.mp hr' with hr' | hr'
    · have hlt := hwf.below r' (Process.mem_generations hwf.compactor hr')
      rw [Loose, hold _ hlt.ne] at hloose
      exact h.secure.covered r' hr' hloose
    · obtain rfl := List.mem_singleton.mp hr'
      intro key hkey
      rw [hlayer]
      exact hkey

/-- After the reset of the log, the old log and the empty one stand for the calls so far. -/
theorem Process.Means.logMeans_reset {op : Op} {log : Bytes} {db : Database}
    (h : p.WellFormed disk) (hm : p.Means disk calls) (ho : p.Ordered)
    (hc : p.compactor = .waiting) (hw : p.writer = .resetting op)
    (hfind : disk.find? .walLog = some log)
    (hdurable : ∀ r ∈ p.db.sstables, (pending (.sst r.path)).entries = [])
    (hview : db.view = p.db.view) {calls' : List Call}
    (hcalls : ∃ ops, Resolves calls' ops ∧ db.view = contents ops) :
  LogMeans disk pending calls' log
  := by
  obtain ⟨absorbed, hin, hmem, log', hfind', hlogged⟩ := hm.logged
  rw [hfind] at hfind'
  obtain rfl := Option.some.inj hfind'
  rw [hw] at hlogged
  have hlog : log = encodeOps (absorbed ++ []) ++ [] := by
    rw [List.append_nil, List.append_nil]
    exact hlogged
  obtain ⟨readers, hrec, hrecview⟩ := hm.recoverable h ho [] (by simpa using hin) hmem hfind
    hlog rfl
  obtain ⟨ops, hresolves, hops⟩ := hcalls
  have hperm := perm_of_openTables hrec.opened h.holds h.loaded h.distinct
  rw [generations_of_waiting hc] at hperm
  refine ⟨readers, absorbed ++ [], ops, ?_, hresolves, ?_, ?_⟩
  · apply hrec.congr
    · exact fun n => find?_insert_log _ _ n
    · simp [hfind]
  · rw [hrecview, List.foldl_nil, ← hview, hops]
  · exact fun r hr hloose => absurd (hdurable r (hperm.subset hr)) hloose

theorem Withstands.of_running (hsound : Sound True ⟨disk, .running p, calls⟩)
    (hquiet : State.Quiet ⟨disk, .running p, calls⟩) (htables : TablesSafe disk pending)
    (hstale : ∀ o ∈ (pending .walLog).stale,
      LogMeans disk pending (calls ++ p.interrupted) (o.getD []))
    (hcovered : ∀ r ∈ p.db.sstables, Loose pending r → r.CoveredBy p.db.memtable)
    (hlog : p.writer.logged = true → pending .walLog = .settled)
    (htmp : ∀ op, p.writer = .flushing op .synced →
      (pending (.tmp p.db.nextSstableNumber)).contents = []) :
  Withstands ⟨⟨disk, .running p, calls⟩, pending⟩
  := ⟨hsound, hquiet, htables, hstale, hcovered, hlog, htmp⟩

/-- A step of the writer keeps that whatever is left stands for the calls so far. -/
theorem Withstands.writer_step (h : Withstands ⟨⟨disk, .running p, calls⟩, pending⟩) {n : ℕ}
    (hdurable : PowerState.EntriesDurable ⟨⟨disk, .running p, calls⟩, pending⟩
      (.program (.writer n)))
    (hdisk : disk' = Syscall.execOption c disk) (hstep : p.WriterStep disk' c (.running p') ended)
    (hsound : Sound True ⟨disk', .running p', calls ++ ended⟩)
    (hquiet : State.Quiet ⟨disk', .running p', calls ++ ended⟩) :
  Withstands ⟨⟨disk', .running p', calls ++ ended⟩, Syscall.pendOption c disk pending⟩
  := by
  have hwf : p.WellFormed disk := h.sound.wellFormed
  have hmeans : p.Means disk calls := h.sound.means
  have hordered := h.sound.ordered trivial p rfl
  have hwaiting := h.quiet p rfl
  have hsecure : p.Secure pending := h.secure
  have hstale : ∀ o ∈ (pending .walLog).stale,
    LogMeans disk pending (calls ++ p.interrupted) (o.getD []) := h.stale
  have htables : TablesSafe disk pending := h.tables
  obtain ⟨absorbed, hin, hmem, log, hfind, hlogged⟩ := hmeans.logged
  simp only [PowerState.EntriesDurable] at hdurable
  -- With a settled log nothing else is found of it.
  have hsettled : ∀ calls', p.writer.logged = true → ∀ o ∈ (pending .walLog).stale,
      LogMeans disk pending calls' (o.getD []) := by
    intro calls' hlog o ho
    rw [hsecure.log hlog] at ho
    simp at ho
  subst hdisk
  cases hstep with
  | @append op written rest hw hne =>
      have hleaves : LeavesTables (.append .walLog written) :=
        leavesTables_of_log (by simp) (by simp [Syscall.files]) (by simp)
      refine .of_running hsound hquiet (hleaves.tablesSafe htables) ?_ ?_ ?_ ?_
      · simp only [Process.interrupted, hw, List.append_nil] at hstale ⊢
        intro o ho
        apply hleaves.logMeans
        rw [Syscall.pendOption_some, Syscall.stale_append hfind] at ho
        rcases List.mem_append.mp ho with ho | ho
        · simp only [Syscall.appendSteps, List.map_map, List.mem_map, List.mem_range,
            Function.comp_apply] at ho
          obtain ⟨k, hk, rfl⟩ := ho
          exact hmeans.logMeans_append hwf hordered hwaiting hsecure.covered hw hfind hk
        · exact hstale o ho
      · exact fun r hr hl => hsecure.covered r hr ((hleaves.loose disk r).mp hl)
      · simp [Writer.logged]
      · simp
  | @sync op hw =>
      have hleaves : LeavesTables (.fsync .walLog) :=
        leavesTables_of_log (by simp) (by simp [Syscall.files]) (by simp)
      simp only [hw] at hdurable
      refine .of_running hsound hquiet (hleaves.tablesSafe htables) ?_ ?_ ?_ ?_
      · intro o ho
        rw [Syscall.pendOption_some, Syscall.stale_fsync, hdurable] at ho
        simp at ho
      · exact fun r hr hl => hsecure.covered r hr ((hleaves.loose disk r).mp hl)
      · intro _
        rw [Syscall.pendOption_some, Syscall.pend_fsync, hdurable]
        rfl
      · simp
  | @apply op hw hflush =>
      refine .of_running hsound hquiet htables (hsettled _ (by rw [hw]; rfl)) ?_ ?_ ?_
      · exact fun r hr hl => (hsecure.covered r hr hl).apply op
      · simp [Writer.logged]
      · simp
  | @startFlush op hw hflush =>
      refine .of_running hsound hquiet htables (hsettled _ (by rw [hw]; rfl)) ?_ ?_ ?_
      · exact fun r hr hl => (hsecure.covered r hr hl).apply op
      · exact fun _ => hsecure.log (by rw [hw]; rfl)
      · simp
  | @write op file file' c hw hfile =>
      obtain ⟨hleaves, hlog⟩ := hfile.leaves
      refine .of_running hsound hquiet (hleaves.tablesSafe htables) ?_ ?_ ?_ ?_
      · intro o ho
        rw [Syscall.pendOption_some, hlog.pend] at ho
        exact hleaves.logMeans (hsettled _ (by rw [hw]; rfl) o ho)
      · exact fun r hr hl => hsecure.covered r hr ((hleaves.loose disk r).mp hl)
      · intro _
        rw [Syscall.pendOption_some, hlog.pend]
        exact hsecure.log (by rw [hw]; rfl)
      · intro op' hw'
        cases hfile with
        | create hwrite => simp at hw'
        | append hne => simp at hw'
        | sync => simp
  | @rename op r hw hopen =>
      obtain ⟨older, r', hsst, hlayer⟩ := hsound.means.flushed
      obtain rfl : r = r' := by
        have hlast := congrArg List.getLast? hsst
        simpa [Database.pushTable] using hlast
      obtain ⟨htables', hcovered⟩ := h.rename_step hw hopen hlayer
      have hlog : LeavesLog (.rename (.tmp p.db.nextSstableNumber)
          (.sst p.db.nextSstableNumber)) := by
        simp [LeavesLog, Syscall.files]
      have hsame : pending .walLog = .settled := hsecure.log (by rw [hw]; rfl)
      refine .of_running hsound hquiet htables' ?_ hcovered ?_ ?_
      · intro o ho
        rw [Syscall.pendOption_some, hlog.pend, hsame] at ho
        simp at ho
      · intro _
        rw [Syscall.pendOption_some, hlog.pend, hsame]
      · simp
  | @reset op hw =>
      have hleaves : LeavesTables (.ftruncate .walLog 0) :=
        leavesTables_of_log (by simp) (by simp [Syscall.files]) (by simp)
      simp only [hw] at hdurable
      have hflushed := hmeans.flushed
      rw [hw] at hflushed
      obtain ⟨older, r, hsst, hlayer⟩ := hflushed
      have hview : p.db.clearMemtable.view = p.db.view := Process.view_clearMemtable hsst hlayer
      refine .of_running hsound hquiet (hleaves.tablesSafe htables) ?_ ?_ ?_ ?_
      · simp only [Process.interrupted, List.append_nil]
        intro o ho
        apply hleaves.logMeans
        rw [Syscall.pendOption_some, Syscall.stale_ftruncate hfind] at ho
        rcases List.mem_cons.mp ho with rfl | ho
        · obtain ⟨ops, hresolves, hops⟩ := hsound.means.view
          rw [Option.getD_some]
          apply hmeans.logMeans_reset hwf hordered hwaiting hw hfind hdurable hview
          exact ⟨ops, hresolves, by simpa [Writer.applied] using hops⟩
        · exact hsettled _ (by rw [hw]; rfl) o ho
      · intro r' hr' hl
        rw [p.db.clearMemtable_sstables] at hr'
        exact absurd (hdurable r' hr') ((hleaves.loose disk r').mp hl)
      · simp [Writer.logged]
      · simp
  | @reject op e hw hopen =>
      obtain ⟨r, hr⟩ := hmeans.openSSTable_eq_ok hwf hw
      rw [Syscall.execOption_some, hr] at hopen
      simp at hopen

end Writer

/-! ### Runs -/

/-- A step of the program is one of the machine, and changes what may be left by its call. -/
theorem PowerState.step_cases {s t : PowerState} {a : Action}
    (h : PowerState.step s (.program a) = some t) (ha : a.noFailure) :
  TinyLsm.step s.state a = some t.state ∧ ∃ c ended,
    Status.Step t.state.disk s.state.status a c t.state.status ended
    ∧ t.state.disk = Syscall.execOption c s.state.disk
    ∧ t.state.calls = s.state.calls ++ ended
    ∧ t.pending = Syscall.pendOption c s.state.disk s.pending
  := by
  obtain ⟨m, hm, rfl⟩ := Option.map_eq_some_iff.mp h
  refine ⟨Option.map_eq_some_iff.mpr ⟨m, hm, rfl⟩, m.syscall, _,
    Status.step_of_move hm ha s.state.disk, rfl, rfl, rfl⟩

namespace Withstands

variable {s t : PowerState}

theorem program_step (h : Withstands s) {a : Action}
    (hstep : PowerState.step s (.program a) = some t) (hallows : s.Allows (.program a))
    (hdurable : s.EntriesDurable (.program a)) :
  Withstands t
  := by
  obtain ⟨hfail, hin, hcompact⟩ := hallows
  obtain ⟨hmachine, c, ended, hstatus, hdisk, hcalls, hpending⟩ :=
    PowerState.step_cases hstep hfail
  have hok : StepOk True s.state a :=
    ⟨hfail, hin, fun _ => h.quiet.flushAgrees a, fun _ => trivial⟩
  have hsound := sound_step h.sound hmachine hok
  have hquiet := quiet_step h.quiet hmachine hfail hcompact
  have hrest := h.logMeans
  obtain ⟨⟨disk, status, calls⟩, pending⟩ := s
  obtain ⟨⟨disk', status', calls'⟩, pending'⟩ := t
  simp only at hstatus hdisk hcalls hpending
  subst hcalls hpending
  have hstale := h.stale
  have hsecure := h.secure
  simp only [State.interrupted] at hstale hrest
  cases hstatus with
  | start =>
      subst hdisk
      refine ⟨hsound, hquiet, h.tables, ?_, ?_⟩
      · simpa [State.interrupted] using hstale
      · simpa [Status.Secure] using hsecure
  | restart =>
      subst hdisk
      exact absurd h.sound.means id
  | opener hopener => exact h.opener_step hdisk hopener hsound hquiet
  | killOpener =>
      subst hdisk
      refine ⟨hsound, hquiet, h.tables, ?_, ?_⟩
      · simpa [State.interrupted] using hstale
      · simpa [Status.Secure] using hsecure
  | @call p op hw =>
      subst hdisk
      simp only [Process.interrupted, hw, List.append_nil] at hstale
      refine .of_running hsound hquiet h.tables ?_ hsecure.covered ?_ ?_
      · simp only [Process.interrupted, List.append_nil]
        exact fun o ho => (hstale o ho).interrupted op
      · simp [Writer.logged]
      · simp
  | @writer p count c status ended hwriter =>
      obtain ⟨p', rfl, -⟩ := h.sound.means.writerStep h.sound.wellFormed hdisk hwriter
      exact h.writer_step hdurable hdisk hwriter hsound hquiet
  | compactor hcompactor => simp [Action.noCompaction] at hcompact
  | @close p hw hc =>
      subst hdisk
      simp only [Process.interrupted, hw] at hstale hrest
      refine ⟨hsound, hquiet, h.tables, ?_, ?_⟩
      · simpa [State.interrupted] using hstale
      · simpa [Status.Secure] using hrest
  | @kill p =>
      subst hdisk
      refine ⟨hsound, hquiet, h.tables, ?_, hrest⟩
      simpa [State.interrupted] using hstale

theorem syncDir_step (h : Withstands s) :
  Withstands ⟨s.state, Syscall.syncDir.pend s.state.disk s.pending⟩
  := by
  have htight : ∀ r, ¬ Loose (Syscall.syncDir.pend s.state.disk s.pending) r := by
    intro r hr
    exact hr rfl
  have hmono : ∀ {calls log}, LogMeans s.state.disk s.pending calls log →
      LogMeans s.state.disk (Syscall.syncDir.pend s.state.disk s.pending) calls log :=
    fun hlog => hlog.mono (fun _ => rfl) (fun r hr => absurd hr (htight r))
  refine ⟨h.sound, h.quiet, ?_, ?_, ?_⟩
  · constructor
    · exact h.tables.synced
    · simp [Syscall.pend]
    · exact fun _ _ => rfl
  · exact fun o ho => hmono (h.stale o (Syscall.stale_syncDir (d := s.state.disk) ho))
  · have hsecure := h.secure
    cases hstatus : s.state.status with
    | running p =>
        rw [hstatus] at hsecure
        constructor
        · exact fun r _ hr => absurd hr (htight r)
        · intro hlogged
          have hsettled := hsecure.log hlogged
          simp [Syscall.pend, hsettled, Pending.settled]
        · exact hsecure.tmp
    | _ =>
        rw [hstatus] at hsecure
        exact hmono hsecure

/-- Every step that meets the condition keeps that whatever is left stands for the calls so
far. -/
theorem step (h : Withstands s) {a : PowerAction} (hstep : PowerState.step s a = some t)
    (hallows : s.Allows a) (hdurable : s.EntriesDurable a) :
  Withstands t
  := by
  cases a with
  | program a => exact h.program_step hstep hallows hdurable
  | syncDir =>
      obtain rfl := Option.some.inj hstep
      exact h.syncDir_step
  | powerLoss left =>
      obtain rfl := Option.some.inj hstep
      exact (h.atRest hallows).withstands

end Withstands

/-- In every run without compactions, with any number of kills and losses of power, in which
the entry of the log is durable whenever an append ends and the entries of the tables are
whenever a flush resets the log: no constructor throws, and what a loss of power at any point
leaves opens to a database that has every call that returned, in order, and of each call cut
short all or nothing. -/
theorem durable_under_power_loss {s : PowerState}
    (h : Reaches PowerState.step (fun s a _ => s.Allows a ∧ s.EntriesDurable a)
      PowerState.init s) :
  (∀ e, s.state.status ≠ .failed e)
    ∧ ∀ left, Survives s.pending s.state.disk left → ∀ thr trig,
      ∃ db disk ops, Database.construct thr trig left = .ok (db, disk)
        ∧ Resolves (s.state.calls ++ s.state.interrupted) ops
        ∧ ∀ key, db.get key = .ok (contents ops key)
  := by
  have hwithstands : Withstands s := by
    apply h.invariant
    · apply AtRest.withstands
      exact ⟨[], [], [], ⟨rfl, by simp, by simp, [], rfl, rfl⟩, .nil, rfl⟩
    · exact fun s a t hs hstep hok => hs.step hstep hok.1 hok.2
  constructor
  · intro e he
    have hmeans := hwithstands.sound.means
    rw [he] at hmeans
    exact hmeans
  · exact fun left hleft thr trig => (hwithstands.atRest hleft).reopen thr trig

/-- The step meets what is asked of it, and is no loss of power. -/
def PowerState.meets (s : PowerState) (a : PowerAction) : Bool :=
  match a with
  | .program a =>
      a.noFailure && decide a.InRange && a.noCompaction &&
        match s.state.status, a with
        | .running p, .writer _ =>
            match p.writer with
            | .appending _ [] => (s.pending .walLog).entries.isEmpty
            | .resetting _ => p.db.sstables.all (fun r => (s.pending (.sst r.path)).entries.isEmpty)
            | _ => true
        | _, _ => true
  | .syncDir => true
  | .powerLoss _ => false

theorem PowerState.allows_of_meets {s : PowerState} {a : PowerAction} (h : s.meets a = true) :
  s.Allows a ∧ s.EntriesDurable a
  := by
  cases a with
  | program a =>
      simp only [meets, Bool.and_eq_true, decide_eq_true_eq] at h
      obtain ⟨⟨⟨hfail, hin⟩, hcompact⟩, hdurable⟩ := h
      refine ⟨⟨hfail, hin, hcompact⟩, ?_⟩
      unfold EntriesDurable
      split
      · rename_i p n hp heq
        obtain rfl := PowerAction.program.inj heq
        simp only [hp] at hdurable
        split
        · rename_i op hw
          simpa [hw] using hdurable
        · rename_i op hw
          simpa [hw] using hdurable
        · trivial
      · trivial
  | syncDir =>
      refine ⟨trivial, ?_⟩
      unfold EntriesDurable
      split
      · rename_i heq
        simp at heq
      · trivial
  | powerLoss left => simp [meets] at h

/-- A `put` that flushes, on a directory that is synced before the append and before the
reset. -/
def syncedRun : List PowerAction :=
  [(launchActions 0 9).map .program, [.syncDir],
    [.call (.put [97] [1]), .writer 15, .writer 0, .writer 0, .writer 0, .writer 52, .writer 0,
      .writer 0].map .program, [.syncDir, .program (.writer 0)]].flatten

theorem durable_under_power_loss_syncedRun :
  ∃ s, run (guarded PowerState.step PowerState.meets) PowerState.init syncedRun = some s
    ∧ Survives s.pending s.state.disk s.state.disk
    ∧ ∀ thr trig, ∃ db disk ops, Database.construct thr trig s.state.disk = .ok (db, disk)
      ∧ Resolves (s.state.calls ++ s.state.interrupted) ops
      ∧ ∀ key, db.get key = .ok (contents ops key)
  := by
  have hrun : (run (guarded PowerState.step PowerState.meets) PowerState.init syncedRun).isSome
      = true := by
    decide +kernel
  obtain ⟨s, hs⟩ := Option.isSome_iff_exists.mp hrun
  have hreach : Reaches PowerState.step (fun s a _ => s.Allows a ∧ s.EntriesDurable a)
      PowerState.init s :=
    Reaches.of_run hs (fun _ _ _ ha => PowerState.allows_of_meets ha)
  have hleft : Survives s.pending s.state.disk s.state.disk := fun _ => List.mem_cons_self
  exact ⟨s, hs, hleft, (durable_under_power_loss hreach).2 _ hleft⟩

/-! ### Without an fsync of the directory -/

theorem FileWrite.Step.ne_syncDir {n : ℕ} {file file' : FileWrite} {c : DbSyscall}
    (h : file.Step n c file') :
  c ≠ .syncDir
  := h.leaves.1.1

/-- The program never calls `fsync` on the directory. -/
theorem Status.Step.ne_syncDir {disk : DbDisk} {status status' : Status} {a : Action}
    {c : DbSyscall} {ended : List Call} (h : Status.Step disk status a (some c) status' ended) :
  c ≠ .syncDir
  := by
  cases h with
  | opener hopener =>
      cases hopener with
      | _ => simp
  | writer hwriter =>
      cases hwriter with
      | write hw hfile => exact hfile.ne_syncDir
      | _ => simp
  | compactor hcompactor =>
      cases hcompactor with
      | write hc hfile => exact hfile.ne_syncDir
      | _ => simp

/-- As long as nobody else calls `fsync` on the directory, a loss of power may leave no file
at all. -/
theorem survives_empty {s : PowerState}
    (h : Reaches PowerState.step (fun _ a _ => ∃ b, a = .program b ∧ b.noFailure)
      PowerState.init s) :
  Survives s.pending s.state.disk OrderedMap.empty
  := by
  have hvanish : ∀ file, MayVanish s.pending s.state.disk file := by
    apply h.invariant (I := fun s => ∀ file, MayVanish s.pending s.state.disk file)
    · exact fun file => Or.inl rfl
    · rintro s a t hs hstep ⟨b, rfl, hfail⟩ file
      obtain ⟨-, c, ended, hstatus, hdisk, -, hpending⟩ := PowerState.step_cases hstep hfail
      rw [hdisk, hpending]
      cases c with
      | none => exact hs file
      | some c => exact (hs file).exec hstatus.ne_syncDir
  intro file
  exact (hvanish file).mem_outcomes

/-- A `put` on a fresh directory. -/
def freshRun : List Action :=
  launchActions 99 9 ++ [.call (.put [97] [1]), .writer 15, .writer 0, .writer 0]

/-- The `put` of the key `a` has returned, and nothing is in progress. -/
def PowerState.hasPut (s : PowerState) : Bool :=
  s.state.calls = [⟨.put [97] [1], .returned⟩] ∧ s.state.interrupted = []

/-- A step of the program in which no call fails and no compaction starts. -/
def PowerAction.isPlain : PowerAction → Bool
  | .program a => a.noFailure && decide a.InRange && a.noCompaction
  | _ => false

/-- On a fresh directory a `put` that has returned is lost with the entry of the log. -/
theorem not_durable_under_power_loss :
  ¬ ∀ (s : PowerState) (left : DbDisk),
    Reaches PowerState.step (fun s a _ => s.Allows a) PowerState.init s →
    Survives s.pending s.state.disk left →
    ∃ db disk ops, Database.construct 99 9 left = .ok (db, disk)
      ∧ Resolves (s.state.calls ++ s.state.interrupted) ops
      ∧ ∀ key, db.get key = .ok (contents ops key)
  := by
  intro hall
  have hrun : (run (guarded PowerState.step (fun _ a => a.isPlain)) PowerState.init
      (freshRun.map .program)).any PowerState.hasPut = true := by
    decide +kernel
  obtain ⟨s, hs, hput⟩ := exists_of_run hrun
  simp only [PowerState.hasPut, decide_eq_true_eq] at hput
  have hreach : Reaches PowerState.step (fun s a _ => s.Allows a ∧ ∃ b, a = .program b
      ∧ b.noFailure) PowerState.init s := by
    apply Reaches.of_run hs
    intro s a t ha
    cases a with
    | program b =>
        simp only [PowerAction.isPlain, Bool.and_eq_true, decide_eq_true_eq] at ha
        exact ⟨⟨ha.1.1, ha.1.2, ha.2⟩, b, rfl, ha.1.1⟩
    | syncDir => simp [PowerAction.isPlain] at ha
    | powerLoss left => simp [PowerAction.isPlain] at ha
  have hleft := survives_empty (hreach.mono (fun _ _ _ hok => hok.2))
  obtain ⟨db, disk, ops, hconstruct, hresolves, hget⟩ :=
    hall s OrderedMap.empty (hreach.mono (fun _ _ _ hok => hok.1)) hleft
  rw [hput.1, hput.2, List.append_nil] at hresolves
  have hops := hresolves.eq_of_returned (by simp)
  have hempty : (Database.construct 99 9 OrderedMap.empty).toOption.any
      (fun opened => opened.1.get [97] = .ok none) = true := by
    decide +kernel
  simp only [hconstruct, Except.toOption, Option.any_some, decide_eq_true_eq] at hempty
  rw [hget, hops] at hempty
  exact absurd hempty (by decide)

end TinyLsm
