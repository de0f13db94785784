import TinyLsm.Refinement

/-!
# Missed compactions

Once the number of tables has reached the trigger, a compaction is requested or running, and when
none is, the number is below the trigger.  What every step keeps is a bound on the number of tables
that will be listed when the compaction in progress, if any, has ended (`settledCount`): it is below
the trigger, or a request is pending.  A flush that throws from `Reset` leaves its table listed and
requests nothing, so the bound needs that no such flush reaches the trigger
(`count_lt_trigger`).
-/

namespace TinyLsm

open FileSystem Transition

/-! ### What a compaction leaves -/

/-- The tables a compaction has taken its snapshot of, until it has swapped them. -/
def Compactor.snapshot : Compactor → Option (List SSTableReader)
  | merging toCompact => some toCompact
  | allocating toCompact _ => some toCompact
  | writing toCompact _ _ _ => some toCompact
  | swapping toCompact _ => some toCompact
  | _ => none

/-- What a number of listed tables comes to when the compaction in progress has ended, if no flush
adds one. -/
def Compactor.settledCount (c : Compactor) (count : ℕ) : ℕ :=
  match c, c.snapshot with
  | started, _ => min count 1
  | _, some toCompact => count - toCompact.length + 1
  | _, none => count

/-- The snapshot is of at least two of this many tables. -/
def Compactor.Within (c : Compactor) (count : ℕ) : Prop :=
  ∀ toCompact, c.snapshot = some toCompact → 2 ≤ toCompact.length ∧ toCompact.length ≤ count

namespace Compactor

variable {c : Compactor} {count : ℕ}

/-- A compaction does not make the list longer. -/
theorem settledCount_le (h : c.Within count) :
  c.settledCount count ≤ count
  := by
  unfold settledCount
  split
  · exact Nat.min_le_left _ _
  · rename_i toCompact _ hsnapshot
    obtain ⟨htwo, hle⟩ := h toCompact hsnapshot
    omega
  · exact Nat.le_refl _

theorem settledCount_succ (h : c.Within count) :
  c.settledCount (count + 1) ≤ c.settledCount count + 1
  := by
  unfold settledCount
  split
  · omega
  · rename_i toCompact _ hsnapshot
    obtain ⟨htwo, hle⟩ := h toCompact hsnapshot
    omega
  · exact Nat.le_refl _

theorem Within.succ (h : c.Within count) :
  c.Within (count + 1)
  := by
  intro toCompact hsnapshot
  obtain ⟨htwo, hle⟩ := h toCompact hsnapshot
  exact ⟨htwo, Nat.le_succ_of_le hle⟩

end Compactor

/-- The table a flush has listed before it comes to the trigger. -/
def Writer.unannounced : Writer → ℕ
  | .resetting _ => 1
  | _ => 0

namespace Process

/-- From this number of tables on a compaction is due: there is something to merge, and the trigger
is reached. -/
def bound (p : Process) : ℕ :=
  max 2 p.db.compactionTriggerCount

def settledCount (p : Process) : ℕ :=
  p.compactor.settledCount p.db.sstables.length

/-- How the flags, the list and the compaction stand to each other. -/
structure Triggered (p : Process) : Prop where
  waiting : p.db.compactionRunning = false → p.compactor = .waiting
  within : p.compactor.Within p.db.sstables.length
  below : p.db.compactionRequested = false → p.settledCount < p.bound + p.writer.unannounced

theorem Triggered.count_lt {p : Process} (h : p.Triggered) (hw : p.writer = .idle)
    (hrequested : p.db.compactionRequested = false) (hrunning : p.db.compactionRunning = false) :
  p.db.sstables.length < p.bound
  := by
  have hbelow := h.below hrequested
  rw [settledCount, h.waiting hrunning, hw] at hbelow
  exact hbelow

end Process

/-- The members of a database whose directory has no tables. -/
structure Database.Fresh (db : Database) : Prop where
  sstables : db.sstables = []
  running : db.compactionRunning = false

theorem Database.Fresh.triggered {db : Database} (h : db.Fresh) :
  (⟨db, .idle, .waiting⟩ : Process).Triggered
  := by
  constructor
  · exact fun _ => rfl
  · rintro toCompact ⟨⟩
  · intro _
    simp only [Process.settledCount, Compactor.settledCount, Compactor.snapshot, h.sstables,
      Process.bound, List.length_nil]
    omega

/-- A constructor that has found no tables, and a process with its flags and its list in order. -/
def Status.Triggered (disk : DbDisk) : Status → Prop
  | .opening (.cleaning _ _ _) => ∀ n, disk.find? (.sst n) = none
  | .opening (.creatingLog db) => db.Fresh
  | .opening (.replaying db) => db.Fresh
  | .opening (.truncating db _) => db.Fresh
  | .running p => p.Triggered
  | _ => True

/-! ### The threads -/

/-- The members that the trigger depends on are the same. -/
structure Database.Alike (db db' : Database) : Prop where
  trigger : db.compactionTriggerCount = db'.compactionTriggerCount
  sstables : db.sstables = db'.sstables
  requested : db.compactionRequested = db'.compactionRequested
  running : db.compactionRunning = db'.compactionRunning

namespace Process

variable {p : Process} {disk disk' : DbDisk} {c : Option DbSyscall} {status : Status}
  {calls : List Call}

theorem Triggered.setWriter (h : p.Triggered) {db : Database} {w : Writer} (hdb : db.Alike p.db)
    (hbelow : p.db.compactionRequested = false → p.settledCount < p.bound + w.unannounced) :
  ({ p with db := db, writer := w } : Process).Triggered
  := by
  constructor
  · rw [hdb.running]
    exact h.waiting
  · rw [hdb.sstables]
    exact h.within
  · simp only [settledCount, bound, hdb.trigger, hdb.sstables, hdb.requested]
    exact hbelow

/-- A compaction that goes on does not come to list more tables in the end. -/
theorem Triggered.setCompactor (h : p.Triggered) {db : Database} {k : Compactor}
    (hdb : db.Alike p.db) (hc : p.compactor ≠ .waiting)
    (hwithin : k.Within p.db.sstables.length)
    (hsettled : k.settledCount p.db.sstables.length ≤ p.settledCount) :
  ({ p with db := db, compactor := k } : Process).Triggered
  := by
  constructor
  · intro hrunning
    rw [hdb.running] at hrunning
    exact absurd (h.waiting hrunning) hc
  · rw [hdb.sstables]
    exact hwithin
  · intro hrequested
    rw [hdb.requested] at hrequested
    have hbelow := h.below hrequested
    simp only [settledCount, bound, hdb.trigger, hdb.sstables] at hsettled hbelow ⊢
    omega

/-- A step of the writer keeps the flags, the list and the compaction in order. -/
theorem Triggered.writerStep (h : p.Triggered) (hstep : p.WriterStep disk c status calls) :
  status.Triggered disk'
  := by
  have hbelow := h.below
  cases hstep with
  | append hw hne =>
      rw [hw] at hbelow
      exact h.setWriter ⟨rfl, rfl, rfl, rfl⟩ hbelow
  | sync hw =>
      rw [hw] at hbelow
      exact h.setWriter ⟨rfl, rfl, rfl, rfl⟩ hbelow
  | apply hw hflush =>
      rw [hw] at hbelow
      exact h.setWriter ⟨rfl, rfl, rfl, rfl⟩ hbelow
  | startFlush hw hflush =>
      rw [hw] at hbelow
      exact h.setWriter ⟨rfl, rfl, rfl, rfl⟩ hbelow
  | write hw hfile =>
      rw [hw] at hbelow
      exact h.setWriter ⟨rfl, rfl, rfl, rfl⟩ hbelow
  | reject hw hopen =>
      rw [hw] at hbelow
      exact h.setWriter ⟨rfl, rfl, rfl, rfl⟩ hbelow
  | rename hw hopen =>
      rw [hw] at hbelow
      constructor
      · exact h.waiting
      · simp only [Database.pushTable, List.length_append, List.length_singleton]
        exact h.within.succ
      · intro hrequested
        have hsucc := Compactor.settledCount_succ h.within
        have hold := hbelow hrequested
        simp only [settledCount, bound, Database.pushTable, List.length_append,
          List.length_singleton, Writer.unannounced] at hsucc hold ⊢
        omega
  | reset hw =>
      -- The flush comes to the trigger.
      rw [Status.Triggered, Database.clearMemtable, Database.maybeTriggerCompaction]
      split_ifs with hcount
      · refine h.setWriter ⟨rfl, rfl, rfl, rfl⟩ ?_
        intro _
        have hle := Compactor.settledCount_le h.within
        simp only [settledCount, bound] at hle hcount ⊢
        omega
      · constructor
        · exact h.waiting
        · exact h.within
        · simp

/-- A step of the compaction thread keeps them in order. -/
theorem Triggered.compactorStep (h : p.Triggered) (hstep : p.CompactorStep disk c status calls) :
  status.Triggered disk'
  := by
  have hwithin := h.within
  have hbelow := h.below
  have hsettled : p.settledCount = p.compactor.settledCount p.db.sstables.length := rfl
  cases hstep with
  | consume hc hreq =>
      -- The compaction that starts merges all tables, if there is more than one.
      constructor
      · simp
      · rintro toCompact ⟨⟩
      · intro _
        simp only [settledCount, Compactor.settledCount, bound]
        omega
  | skip hc hw hlen =>
      rw [hc] at hsettled
      apply h.setCompactor ⟨rfl, rfl, rfl, rfl⟩ (by simp [hc])
      · rintro toCompact ⟨⟩
      · simp only [hsettled, Compactor.settledCount, Compactor.snapshot]
        omega
  | snapshot hc hw hlen =>
      rw [hc] at hsettled
      apply h.setCompactor ⟨rfl, rfl, rfl, rfl⟩ (by simp [hc])
      · rintro toCompact ⟨⟩
        exact ⟨hlen, Nat.le_refl _⟩
      · simp only [hsettled, Compactor.settledCount, Compactor.snapshot]
        omega
  | merge hc hmerge =>
      rw [hc] at hsettled hwithin
      exact h.setCompactor ⟨rfl, rfl, rfl, rfl⟩ (by simp [hc]) hwithin hsettled.ge
  | mergeFail hc hmerge => trivial
  | allocate hc hw =>
      rw [hc] at hsettled hwithin
      exact h.setCompactor ⟨rfl, rfl, rfl, rfl⟩ (by simp [hc]) hwithin hsettled.ge
  | write hc hfile =>
      rw [hc] at hsettled hwithin
      exact h.setCompactor ⟨rfl, rfl, rfl, rfl⟩ (by simp [hc]) hwithin hsettled.ge
  | rename hc hopen =>
      rw [hc] at hsettled hwithin
      exact h.setCompactor ⟨rfl, rfl, rfl, rfl⟩ (by simp [hc]) hwithin hsettled.ge
  | reject hc hopen => trivial
  | swap hc hw =>
      rw [hc] at hsettled
      constructor
      · intro hrunning
        have hwaiting := h.waiting hrunning
        simp [hc] at hwaiting
      · rintro toCompact ⟨⟩
      · intro hrequested
        have hold := hbelow hrequested
        rw [hsettled] at hold
        simp only [settledCount, bound, Compactor.settledCount, Compactor.snapshot,
          Database.swapIn, List.length_cons, List.length_drop] at hold ⊢
        exact hold
  | unlink hc =>
      rw [hc] at hsettled
      refine h.setCompactor ⟨rfl, rfl, rfl, rfl⟩ (by simp [hc]) ?_ hsettled.ge
      rintro toCompact ⟨⟩
  | deleted hc =>
      rw [hc] at hsettled
      refine h.setCompactor ⟨rfl, rfl, rfl, rfl⟩ (by simp [hc]) ?_ hsettled.ge
      rintro toCompact ⟨⟩
  | finish hc =>
      rw [hc] at hsettled
      constructor
      · exact fun _ => rfl
      · rintro toCompact ⟨⟩
      · intro hrequested
        have hold := hbelow hrequested
        rw [hsettled] at hold
        exact hold

end Process

/-! ### Opening -/

/-- A directory without tables is opened to a database without tables. -/
theorem Database.fresh_of_discover {thr : UInt64} {trig : ℕ} {disk : DbDisk} {db : Database}
    (hdisk : ∀ n, disk.find? (.sst n) = none) (h : Database.discover thr trig disk = .ok db) :
  db.Fresh
  := by
  have hfiles : sstFiles disk = [] := by
    apply List.eq_nil_iff_forall_not_mem.mpr
    rintro ⟨n, contents⟩ hmem
    have hfind := mem_sstFiles.mp hmem
    rw [hdisk] at hfind
    simp at hfind
  have hopen : openTables disk = .ok [] := by
    rw [openTables, hfiles]
    rfl
  simp only [discover, hopen, bind, Except.bind, Except.ok.injEq] at h
  subst h
  exact ⟨rfl, rfl⟩

/-- A step of the constructor that finds no tables. -/
theorem Opener.triggered_step {o : Opener} {disk disk' : DbDisk} {c : Option DbSyscall}
    {status : Status} {calls : List Call} (h : (Status.opening o).Triggered disk)
    (hdisk : disk' = Syscall.execOption c disk) (hstep : o.Step disk' c status calls) :
  status.Triggered disk'
  := by
  subst hdisk
  cases hstep with
  | clean hn =>
      intro n
      rw [Syscall.execOption_some, Syscall.find?_exec_of_notMem (by simp [Syscall.files])]
      exact h n
  | discover hdb => exact Database.fresh_of_discover h hdb
  | reject hdb => trivial
  | createLog => exact h
  | replayTorn hlog hend => exact ⟨h.sstables, h.running⟩
  | replayWhole hlog hend =>
      apply Database.Fresh.triggered
      exact ⟨h.sstables, h.running⟩
  | truncate => exact h.triggered

/-! ### Runs -/

/-- A database is opened on an empty directory only. -/
def State.OpensEmpty (s : State) (a : Action) : Prop :=
  ∀ thr trig, a = .start thr trig → s.disk = OrderedMap.empty

/-- When `Reset` fails, a compaction is requested already, or the number of tables is below the
bound once the compaction in progress has ended. -/
def State.ResetBelow (s : State) (a : Action) : Prop :=
  ∀ p late op, s.status = .running p → a = .writerFail late → p.writer = .resetting op →
    p.db.compactionRequested = false → p.settledCount < p.bound

/-- A failing call of another kind keeps the flags, the list and the compaction in order. -/
theorem Status.FailStep.triggered {status status' : Status} {a : Action} {disk : DbDisk}
    (h : status.Triggered disk) (hstep : Status.FailStep status a status')
    (hreset : ∀ p late op, status = .running p → a = .writerFail late →
      p.writer = .resetting op → p.db.compactionRequested = false → p.settledCount < p.bound)
    {disk' : DbDisk} (hdisk : ∀ o, status = .opening o → disk' = disk) :
  status'.Triggered disk'
  := by
  cases hstep with
  | keepLeftover =>
      rw [hdisk _ rfl]
      exact h
  | opener => trivial
  | @writer p late =>
      apply Process.Triggered.setWriter h ⟨rfl, rfl, rfl, rfl⟩
      intro hrequested
      have hbelow := Process.Triggered.below h hrequested
      cases hw : p.writer with
      | resetting op => exact hreset p late op rfl rfl hw hrequested
      | _ =>
          rw [hw] at hbelow
          exact hbelow
  | keepOld hc =>
      refine Process.Triggered.setCompactor h ⟨rfl, rfl, rfl, rfl⟩ (by simp [hc]) ?_ ?_
      · rintro toCompact ⟨⟩
      · rw [Process.settledCount, hc]
        exact Nat.le_refl _
  | compactor => trivial

/-- Every step of the machine keeps them in order. -/
theorem triggered_step {s t : State} {a : Action} (h : s.status.Triggered s.disk)
    (hempty : s.OpensEmpty a) (hreset : s.ResetBelow a) (hstep : step s a = some t) :
  t.status.Triggered t.disk
  := by
  by_cases ha : a.noFailure
  · obtain ⟨c, calls, hstatus, hdisk, -⟩ := step_cases hstep ha
    generalize hs : s.status = status at hstatus h
    generalize t.status = status' at hstatus
    cases hstatus with
    | start =>
        have hnone := hempty _ _ rfl
        rw [hdisk, Syscall.execOption_none, hnone]
        intro n
        rfl
    | restart =>
        have hnone := hempty _ _ rfl
        rw [hdisk, Syscall.execOption_none, hnone]
        intro n
        rfl
    | opener hopener => exact Opener.triggered_step h hdisk hopener
    | killOpener => trivial
    | @call p op hw =>
        refine Process.Triggered.setWriter h ⟨rfl, rfl, rfl, rfl⟩ ?_
        have hbelow := Process.Triggered.below h
        rw [hw] at hbelow
        exact hbelow
    | writer hwriter => exact Process.Triggered.writerStep h hwriter
    | compactor hcompactor => exact Process.Triggered.compactorStep h hcompactor
    | close hw hc => trivial
    | kill => trivial
  · obtain ⟨hfail, hdisk⟩ := step_fail_cases hstep ha
    exact hfail.triggered h hreset hdisk

/-- In every run of databases opened on empty directories in which no `Reset` fails whose flush has
reached the trigger, `WaitForBackgroundCompaction` returns with fewer tables than the trigger, or
with a single one. -/
theorem count_lt_trigger {s : State}
    (h : Reaches step (fun s a _ => s.OpensEmpty a ∧ s.ResetBelow a) State.init s) {p : Process}
    (hp : s.status = .running p) (hw : p.writer = .idle)
    (hrequested : p.db.compactionRequested = false) (hrunning : p.db.compactionRunning = false) :
  p.db.sstables.length < max 2 p.db.compactionTriggerCount
  := by
  have htriggered : s.status.Triggered s.disk := by
    apply h.invariant (I := fun s => s.status.Triggered s.disk)
    · trivial
    · intro t a u ht hstep hok
      exact triggered_step ht hok.1 hok.2 hstep
  rw [hp] at htriggered
  exact Process.Triggered.count_lt htriggered hw hrequested hrunning

/-! ### A flush that throws from `Reset` -/

def State.opensEmpty (s : State) (a : Action) : Bool :=
  match a with
  | .start _ _ => s.disk.entries.isEmpty
  | _ => true

theorem State.opensEmpty_of {s : State} {a : Action} (h : s.opensEmpty a = true) :
  s.OpensEmpty a
  := by
  rintro thr trig rfl
  rw [opensEmpty, List.isEmpty_iff] at h
  exact OrderedMap.ext h

def State.resetBelow (s : State) (a : Action) : Bool :=
  match s.status, a with
  | .running p, .writerFail _ => p.db.compactionRequested || decide (p.settledCount < p.bound)
  | _, _ => true

theorem State.resetBelow_of {s : State} {a : Action} (h : s.resetBelow a = true) :
  s.ResetBelow a
  := by
  rintro p late op hp rfl - hrequested
  simpa [resetBelow, hp, hrequested] using h

/-- The calls of a put whose `Reset` fails. -/
def throwingFlush (op : Op) (size : ℕ) : List Action :=
  (flushActions op size).dropLast ++ [.writerFail false]

/-- No call is in its critical section, and no compaction is requested or running. -/
def State.quiet (s : State) : Bool :=
  match s.status with
  | .running p => p.unlocked && !p.db.compactionRequested && !p.db.compactionRunning
  | _ => false

theorem State.quiet_iff {s : State} :
  s.quiet = true ↔ ∃ p, s.status = .running p ∧ p.writer = .idle
    ∧ p.db.compactionRequested = false ∧ p.db.compactionRunning = false
  := by
  rw [quiet]
  cases s.status with
  | running p => simp [Process.unlocked_iff, and_assoc]
  | _ => simp

/-- The first flush of a run throws below the trigger; the next ones reach it, and a compaction
merges all tables. -/
def retriedRun : List Action :=
  launchActions 0 2 ++ throwingFlush (.put [97] [1]) 52 ++ flushActions (.put [97] [1]) 52
    ++ [.compactor 0, .compactor 0, .compactor 0] ++ compactActions 52

theorem count_lt_trigger_retried :
  ∃ s p, run (guarded step (fun s a => s.opensEmpty a && s.resetBelow a)) State.init retriedRun
      = some s
    ∧ s.status = .running p ∧ p.db.sstables.length < max 2 p.db.compactionTriggerCount
  := by
  have hrun : (run (guarded step (fun s a => s.opensEmpty a && s.resetBelow a)) State.init
      retriedRun).any State.quiet = true := by
    decide +kernel
  obtain ⟨s, hs, hquiet⟩ := exists_of_run hrun
  obtain ⟨p, hp, hw, hrequested, hrunning⟩ := State.quiet_iff.mp hquiet
  have hreach : Reaches step (fun s a _ => s.OpensEmpty a ∧ s.ResetBelow a) State.init s := by
    apply Reaches.of_run hs
    intro s a _ htest
    rw [Bool.and_eq_true] at htest
    exact ⟨State.opensEmpty_of htest.1, State.resetBelow_of htest.2⟩
  exact ⟨s, p, hs, hp, count_lt_trigger hreach hp hw hrequested hrunning⟩

/-- So many tables are listed that a compaction is due. -/
def State.due (s : State) : Bool :=
  match s.status with
  | .running p => p.bound ≤ p.db.sstables.length
  | _ => false

/-- The second flush throws after it has listed its table, and requests no compaction. -/
theorem not_count_lt_trigger :
  ¬ ∀ s p, Reaches step (fun s a _ => s.OpensEmpty a) State.init s → s.status = .running p →
    p.writer = .idle → p.db.compactionRequested = false → p.db.compactionRunning = false →
    p.db.sstables.length < max 2 p.db.compactionTriggerCount
  := by
  intro hall
  have hrun : (run (guarded step State.opensEmpty) State.init (launchActions 0 2
      ++ flushActions (.put [97] [1]) 52 ++ throwingFlush (.put [98] [1]) 52)).any
      (fun s => s.quiet && s.due) = true := by
    decide +kernel
  obtain ⟨s, hs, hmissed⟩ := exists_of_run hrun
  rw [Bool.and_eq_true] at hmissed
  obtain ⟨p, hp, hw, hrequested, hrunning⟩ := State.quiet_iff.mp hmissed.1
  have hreach : Reaches step (fun s a _ => s.OpensEmpty a) State.init s :=
    Reaches.of_run hs (fun _ _ _ htest => State.opensEmpty_of htest)
  have hlt := hall s p hreach hp hw hrequested hrunning
  have hle := hmissed.2
  rw [State.due, hp] at hle
  exact absurd hlt (not_lt.mpr (of_decide_eq_true hle))

end TinyLsm
