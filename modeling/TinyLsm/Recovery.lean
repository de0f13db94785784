import TinyLsm.AgeOrder

/-!
# Recovery

What the files of a directory mean when no process runs, and that the constructor recovers
it: a directory a process leaves behind, at whatever point it ends, opens to a database that
stands for the calls made so far, with the call that was cut short counted or not
(`Process.Means.atRest`).  `Sound` puts the invariants together, and every step keeps it
(`sound_step`).
-/

namespace TinyLsm

open FileSystem Layers

/-! ### Directories -/

/-- The constructor finds these tables, and in the log the records of these operations. -/
structure Recoverable (disk : DbDisk) (readers : List SSTableReader) (absorbed : List Op) :
    Prop where
  opened : openTables disk = .ok readers
  valid : ∀ r ∈ readers, r.Valid
  inRange : ∀ op ∈ absorbed, op.InRange
  log : ∃ tail, (disk.find? .walLog).getD [] = encodeOps absorbed ++ tail
    ∧ decodeFrame tail = none

/-- What the layers of a recovered database are read as. -/
def recoveredView (readers : List SSTableReader) (absorbed : List Op) :
    Bytes → Option Bytes :=
  view Entry.live
    (readers.map SSTableReader.layer ++ [(memTableOf absorbed).entries.layer])

theorem recoveredView_concat (readers : List SSTableReader) (absorbed : List Op) (op : Op) :
  recoveredView readers (absorbed ++ [op]) = op.apply (recoveredView readers absorbed)
  := by
  rw [recoveredView, memTableOf_concat, view_apply]
  rfl

/-- The directory stands for the calls made so far. -/
def AtRest (disk : DbDisk) (calls : List Call) : Prop :=
  ∃ readers absorbed ops, Recoverable disk readers absorbed ∧ Resolves calls ops
    ∧ recoveredView readers absorbed = contents ops

/-- An empty directory stands for no calls. -/
theorem atRest_empty :
  AtRest OrderedMap.empty []
  := ⟨[], [], [], ⟨rfl, by simp, by simp, [], rfl, rfl⟩, .nil, rfl⟩

theorem openTables_congr {disk disk' : DbDisk}
    (h : ∀ n, disk'.find? (.sst n) = disk.find? (.sst n)) :
  openTables disk' = openTables disk
  := by
  have hfiles : sstFiles disk' = sstFiles disk := by
    have heq : (⟨sstFiles disk', sorted_sstFiles disk'⟩ : OrderedMap ℕ Bytes)
        = ⟨sstFiles disk, sorted_sstFiles disk⟩ := by
      apply OrderedMap.ext_find?
      intro n
      apply Option.ext
      intro c
      rw [← OrderedMap.mem_entries, ← OrderedMap.mem_entries]
      simp only [mem_sstFiles, h]
    exact congrArg OrderedMap.entries heq
  rw [openTables, openTables, hfiles]

theorem Recoverable.congr {disk disk' : DbDisk} {readers : List SSTableReader}
    {absorbed : List Op} (h : Recoverable disk readers absorbed)
    (hsst : ∀ n, disk'.find? (.sst n) = disk.find? (.sst n))
    (hlog : (disk'.find? .walLog).getD [] = (disk.find? .walLog).getD []) :
  Recoverable disk' readers absorbed
  := by
  constructor
  · rw [openTables_congr hsst]
    exact h.opened
  · exact h.valid
  · exact h.inRange
  · rw [hlog]
    exact h.log

theorem AtRest.congr {disk disk' : DbDisk} {calls : List Call} (h : AtRest disk calls)
    (hsst : ∀ n, disk'.find? (.sst n) = disk.find? (.sst n))
    (hlog : (disk'.find? .walLog).getD [] = (disk.find? .walLog).getD []) :
  AtRest disk' calls
  := by
  obtain ⟨readers, absorbed, ops, hrec, hview⟩ := h
  exact ⟨readers, absorbed, ops, hrec.congr hsst hlog, hview⟩

/-! ### Replay -/

namespace Database

/-- The members before the replay: the tables of the directory and an empty MemTable. -/
def Discovered (db : Database) (disk : DbDisk) : Prop :=
  openTables disk = .ok db.sstables ∧ db.memtable = MemTable.empty

theorem discovered_of_discover {thr : UInt64} {trig : ℕ} {disk : DbDisk} {db : Database}
    (h : discover thr trig disk = .ok db) :
  db.Discovered disk
  := by
  rw [discover] at h
  cases hopen : openTables disk with
  | error e => simp [hopen, bind, Except.bind] at h
  | ok readers =>
      simp only [hopen, bind, Except.bind, Except.ok.injEq] at h
      subst h
      exact ⟨hopen, rfl⟩

/-- The replay of a recoverable log absorbs its operations, and ends where they end. -/
theorem replay_recoverable {db : Database} {disk : DbDisk} {readers : List SSTableReader}
    {absorbed : List Op} (hrec : Recoverable disk readers absorbed) (hdb : db.Discovered disk)
    {log : Bytes} (hlog : (disk.find? .walLog).getD [] = log) :
  (db.replay log).sstables = readers ∧ (db.replay log).memtable = memTableOf absorbed
    ∧ log.take (replayLog log).2 = encodeOps absorbed
  := by
  obtain ⟨tail, hsplit, htail⟩ := hrec.log
  rw [hlog] at hsplit
  have hreplay := replayLog_encodeOps hrec.inRange htail
  rw [← hsplit] at hreplay
  refine ⟨?_, ?_, ?_⟩
  · have hopened := hrec.opened
    rw [hdb.1] at hopened
    exact Except.ok.inj hopened
  · rw [replay, hreplay, hdb.2]
    exact foldl_replay_decoded _ _
  · rw [hreplay, hsplit, List.take_left]

end Database

/-- The removal of temporary files keeps all other files. -/
theorem find?_cleaned (ns : List ℕ) (d : DbDisk) {name : FileName} (hname : ∀ n, name ≠ .tmp n) :
  (ns.foldl (fun d n => (Syscall.unlink (.tmp n)).exec d) d).find? name = d.find? name
  := by
  induction ns generalizing d with
  | nil => rfl
  | cons n ns ih =>
      rw [List.foldl_cons, ih]
      simp [Syscall.exec, (hname n).symm]

/-- A constructor that returns has opened every table. -/
theorem loadable_of_construct {thr : UInt64} {trig : ℕ} {disk disk' : DbDisk} {db : Database}
    (h : Database.construct thr trig disk = .ok (db, disk')) :
  Loadable disk
  := by
  intro n contents hfind
  rw [Database.construct] at h
  rw [← find?_cleaned (tmpNumbers disk) disk (by simp)] at hfind
  generalize (tmpNumbers disk).foldl
    (fun disk n => (Syscall.unlink (.tmp n)).exec disk) disk = cleaned at h hfind
  cases hdiscover : Database.discover thr trig cleaned with
  | error e => simp [hdiscover, bind, Except.bind] at h
  | ok db₀ => exact (Database.wellFormed_of_discover hdiscover).loadable n contents hfind

/-- The constructor has replayed the log of the directory into an empty MemTable. -/
theorem memtable_of_construct {thr : UInt64} {trig : ℕ} {disk disk' : DbDisk} {db : Database}
    (h : Database.construct thr trig disk = .ok (db, disk')) :
  db.memtable = (replayLog ((disk.find? .walLog).getD [])).1.foldl MemTable.replay
    MemTable.empty
  := by
  rw [Database.construct] at h
  rw [← find?_cleaned (tmpNumbers disk) disk (by simp)]
  generalize (tmpNumbers disk).foldl
    (fun disk n => (Syscall.unlink (.tmp n)).exec disk) disk = cleaned at h ⊢
  cases hdiscover : Database.discover thr trig cleaned with
  | error e => simp [hdiscover, bind, Except.bind] at h
  | ok db₀ =>
      have hempty := (Database.discovered_of_discover hdiscover).2
      simp only [hdiscover, bind, Except.bind, Except.ok.injEq, Prod.mk.injEq] at h
      obtain ⟨rfl, -⟩ := h
      rw [Syscall.find?_create, Database.replay, hempty]
      rfl

/-- The constructor opens a recoverable directory. -/
theorem construct_recoverable {disk : DbDisk} {readers : List SSTableReader}
    {absorbed : List Op} (h : Recoverable disk readers absorbed) (thr : UInt64) (trig : ℕ) :
  ∃ db disk', Database.construct thr trig disk = .ok (db, disk')
    ∧ (∀ r ∈ db.sstables, r.Valid) ∧ db.view = recoveredView readers absorbed
  := by
  generalize hd : (tmpNumbers disk).foldl
    (fun disk n => (Syscall.unlink (.tmp n)).exec disk) disk = cleaned
  have hkept : ∀ name, (∀ n, name ≠ .tmp n) → cleaned.find? name = disk.find? name := by
    intro name hname
    rw [← hd]
    exact find?_cleaned _ _ hname
  have hrec : Recoverable cleaned readers absorbed :=
    h.congr (fun n => hkept _ (by simp)) (by rw [hkept _ (by simp)])
  have hcreated := Syscall.find?_create cleaned FileName.walLog
  obtain ⟨db, hdb⟩ : ∃ db, Database.discover thr trig cleaned = .ok db := by
    simp [Database.discover, hrec.opened, bind, Except.bind]
  obtain ⟨hsst, hmem, -⟩ := Database.replay_recoverable hrec
    (Database.discovered_of_discover hdb) rfl
  simp only [Database.construct, hd, hdb, bind, Except.bind, hcreated, Option.getD_some]
  refine ⟨_, _, rfl, ?_, ?_⟩
  · rw [hsst]
    exact h.valid
  · rw [Database.view, Database.layers, hsst, hmem]
    rfl

/-! ### The end of a process -/

namespace Process

variable {p : Process} {disk : DbDisk} {calls : List Call}

/-- Sorted by number, the tables on disk are read as in the order of their age. -/
theorem Ordered.opened (h : p.WellFormed disk) (ho : p.Ordered) :
  ∃ readers, openTables disk = .ok readers ∧ readers.Perm p.generations
    ∧ newest (readers.map SSTableReader.layer) = newest (p.generations.map SSTableReader.layer)
  := by
  obtain ⟨readers, hopen⟩ := openTables_of_load h.loadable
  have hperm := perm_of_openTables hopen h.holds h.loaded h.distinct
  use readers, hopen, hperm
  exact newest_eq_of_perm hperm (ascending_of_openTables hopen) ho.inOrder

/-- What the constructor makes of the files of a process, whose log holds the records of
the operations absorbed. -/
theorem Means.recoverable (h : p.WellFormed disk) (hm : p.Means disk calls) (ho : p.Ordered)
    (ops : List Op) {absorbed : List Op} {log tail : Bytes} (hin : ∀ op ∈ absorbed ++ ops, op.InRange)
    (hmem : p.db.memtable = memTableOf absorbed) (hfind : disk.find? .walLog = some log)
    (hlog : log = encodeOps (absorbed ++ ops) ++ tail) (htail : decodeFrame tail = none) :
  ∃ readers, Recoverable disk readers (absorbed ++ ops)
    ∧ recoveredView readers (absorbed ++ ops) = ops.foldl (fun m op => op.apply m) p.db.view
  := by
  obtain ⟨readers, hopen, hperm, hnewest⟩ := ho.opened h
  use readers
  constructor
  · constructor
    · exact hopen
    · exact fun r hr => hm.valid r (hperm.subset hr)
    · exact hin
    · exact ⟨tail, by rw [hfind, Option.getD_some, hlog], htail⟩
  · have hview : recoveredView readers absorbed = p.db.view := by
      rw [← view_generations h hm.merges, recoveredView, ← hmem]
      apply view_congr
      funext key
      rw [newest_append, newest_append, hnewest]
    clear hlog hin
    induction ops using List.reverseRecOn with
    | nil => rw [List.append_nil, hview, List.foldl_nil]
    | append_singleton ops op ih =>
        rw [← List.append_assoc, recoveredView_concat, ih, List.foldl_append, List.foldl_cons,
          List.foldl_nil]

/-- What the constructor makes of the files of a process, at whatever point it ends: the
operations of its MemTable, and perhaps that of the call it cuts short. -/
theorem Means.recovered (h : p.WellFormed disk) (hm : p.Means disk calls) (ho : p.Ordered) :
  ∃ readers absorbed more ops, p.db.memtable = memTableOf absorbed
    ∧ Recoverable disk readers (absorbed ++ more) ∧ Resolves (calls ++ p.interrupted) ops
    ∧ recoveredView readers (absorbed ++ more) = contents ops
  := by
  obtain ⟨absorbed, hin, hmem, log, hfind, hlogged⟩ := hm.logged
  obtain ⟨ops, hresolves, hview⟩ := hm.view
  -- The log ends with the operations absorbed, and nothing of a call in flight counts.
  have hsame : ∀ tail : Bytes, log = encodeOps absorbed ++ tail → decodeFrame tail = none →
      ∃ readers, Recoverable disk readers (absorbed ++ [])
        ∧ recoveredView readers (absorbed ++ []) = p.db.view := by
    intro tail hlog htail
    exact hm.recoverable h ho [] (by simpa using hin) hmem hfind (by simpa using hlog) htail
  -- The log ends with the whole record of the call in flight.
  have hnext : ∀ op : Op, op.InRange → log = encodeOps absorbed ++ op.encode →
      ∃ readers, Recoverable disk readers (absorbed ++ [op])
        ∧ recoveredView readers (absorbed ++ [op]) = op.apply p.db.view := by
    intro op hop hlog
    have hsplit : log = encodeOps (absorbed ++ [op]) ++ [] := by simp [hlog]
    apply hm.recoverable h ho [op] _ hmem hfind hsplit rfl
    exact List.forall_mem_append.mpr ⟨hin, by simpa using hop⟩
  cases hw : p.writer with
  | idle =>
      simp only [hw, Writer.Logged, Writer.applied, List.append_nil] at hlogged hview
      obtain ⟨readers, hrec, hrecview⟩ := hsame [] (by simpa using hlogged) rfl
      refine ⟨readers, absorbed, [], ops, hmem, hrec, ?_, hrecview.trans hview⟩
      simpa [interrupted, hw] using hresolves
  | appending op rest =>
      simp only [hw, Writer.Logged, Writer.applied, List.append_nil] at hlogged hview
      obtain ⟨hop, written, hsplit, hlog⟩ := hlogged
      simp only [interrupted, hw]
      by_cases hrest : rest = []
      · rw [hrest, List.append_nil] at hsplit
        obtain ⟨readers, hrec, hrecview⟩ := hnext op hop (by rw [hlog, hsplit])
        refine ⟨readers, absorbed, [op], ops ++ [op], hmem, hrec,
          .counted ⟨op, .interrupted⟩ hresolves rfl, ?_⟩
        rw [hrecview, hview, contents_concat]
      · obtain ⟨readers, hrec, hrecview⟩ := hsame written hlog
          (op.decodeFrame_prefix hop hsplit hrest)
        exact ⟨readers, absorbed, [], ops, hmem, hrec,
          .dropped ⟨op, .interrupted⟩ hresolves rfl, hrecview.trans hview⟩
  | applying op =>
      simp only [hw, Writer.Logged, Writer.applied, List.append_nil] at hlogged hview
      obtain ⟨hop, hlog⟩ := hlogged
      obtain ⟨readers, hrec, hrecview⟩ := hnext op hop hlog
      simp only [interrupted, hw]
      refine ⟨readers, absorbed, [op], ops ++ [op], hmem, hrec,
        .counted ⟨op, .interrupted⟩ hresolves rfl, ?_⟩
      rw [hrecview, hview, contents_concat]
  | flushing op file =>
      simp only [hw, Writer.Logged, Writer.applied] at hlogged hview
      obtain ⟨readers, hrec, hrecview⟩ := hsame [] (by simpa using hlogged) rfl
      simp only [interrupted, hw]
      exact ⟨readers, absorbed, [], ops ++ [op], hmem, hrec,
        .counted ⟨op, .interrupted⟩ hresolves rfl, hrecview.trans hview⟩
  | resetting op =>
      simp only [hw, Writer.Logged, Writer.applied] at hlogged hview
      obtain ⟨readers, hrec, hrecview⟩ := hsame [] (by simpa using hlogged) rfl
      simp only [interrupted, hw]
      exact ⟨readers, absorbed, [], ops ++ [op], hmem, hrec,
        .counted ⟨op, .interrupted⟩ hresolves rfl, hrecview.trans hview⟩

/-- At whatever point a process ends, its directory stands for the calls made so far, with
the call it cuts short counted or not. -/
theorem Means.atRest (h : p.WellFormed disk) (hm : p.Means disk calls) (ho : p.Ordered) :
  AtRest disk (calls ++ p.interrupted)
  := by
  obtain ⟨readers, absorbed, more, ops, -, hrec⟩ := hm.recovered h ho
  exact ⟨readers, absorbed ++ more, ops, hrec⟩

end Process

/-! ### The constructor -/

/-- The directory stands for the calls made so far, and the constructor has read from it
what its position says. -/
def Opener.Means (o : Opener) (disk : DbDisk) (calls : List Call) : Prop :=
  AtRest disk calls ∧
    match o with
    | cleaning _ _ _ => True
    | creatingLog db => db.Discovered disk
    | replaying db => db.Discovered disk ∧ ∃ log, disk.find? .walLog = some log
    | truncating db validEnd =>
        ∃ (db₀ : Database) (log : Bytes), db₀.Discovered disk ∧ disk.find? .walLog = some log
          ∧ db = db₀.replay log ∧ validEnd = (replayLog log).2

/-- What a status means: a constructor that has thrown means nothing. -/
def Status.Means (status : Status) (disk : DbDisk) (calls : List Call) : Prop :=
  match status with
  | down => AtRest disk calls
  | failed _ => False
  | opening o => o.Means disk calls
  | running p => p.Means disk calls

/-- The process the constructor launches, once the log ends with its last whole record. -/
theorem Opener.means_launch {disk : DbDisk} (disk' : DbDisk) {calls : List Call}
    {db : Database} {log : Bytes} (h : AtRest disk calls) (hdb : db.Discovered disk)
    (hfind : disk.find? .walLog = some log)
    (hfind' : disk'.find? .walLog = some (log.take (replayLog log).2)) :
  (db.replay log).idle.Means disk' calls ∧ (db.replay log).idle.Ordered
  := by
  obtain ⟨readers, absorbed, ops, hrec, hresolves, hview⟩ := h
  have hlog : (disk.find? .walLog).getD [] = log := by rw [hfind, Option.getD_some]
  obtain ⟨hsst, hmem, htake⟩ := Database.replay_recoverable hrec hdb hlog
  have hgen : (db.replay log).idle.generations = readers := hsst
  constructor
  · constructor
    · rw [hgen]
      exact hrec.valid
    · trivial
    · trivial
    · exact ⟨absorbed, hrec.inRange, hmem, _, hfind', htake⟩
    · refine ⟨ops, hresolves, ?_⟩
      change (db.replay log).view = contents (ops ++ [])
      rw [List.append_nil, ← hview, Database.view, Database.layers, hsst, hmem]
      rfl
  · constructor
    · rw [hgen]
      exact InOrder.of_ascending (ascending_of_openTables hrec.opened)
    · trivial

/-- The constructor's steps keep what the directory means; the constructor does not throw. -/
theorem Opener.means_step {o : Opener} {disk disk' : DbDisk} {c : Option DbSyscall}
    {status : Status} {calls ended : List Call} (hm : o.Means disk calls)
    (hdisk : disk' = Syscall.execOption c disk) (hstep : o.Step disk' c status ended) :
  status.Means disk' (calls ++ ended) ∧ ∀ p, status = .running p → p.Ordered
  := by
  obtain ⟨hrest, ho⟩ := hm
  subst hdisk
  cases hstep with
  | clean hn =>
      rw [List.append_nil]
      refine ⟨⟨?_, trivial⟩, by simp⟩
      apply hrest.congr
      · intro n
        apply Syscall.find?_exec_of_notMem
        simp [Syscall.files]
      · congr 1
        apply Syscall.find?_exec_of_notMem
        simp [Syscall.files]
  | discover hdiscover =>
      rw [List.append_nil]
      exact ⟨⟨hrest, Database.discovered_of_discover hdiscover⟩, by simp⟩
  | reject hdiscover =>
      obtain ⟨readers, absorbed, ops, hrec, -⟩ := hrest
      rw [Syscall.execOption_none] at hdiscover
      simp [Database.discover, hrec.opened, bind, Except.bind] at hdiscover
  | @createLog db =>
      rw [List.append_nil]
      have hsst : ∀ n, ((Syscall.create .walLog).exec disk).find? (.sst n)
          = disk.find? (.sst n) := by
        intro n
        apply Syscall.find?_exec_of_notMem
        simp [Syscall.files]
      have hcreated := Syscall.find?_create disk FileName.walLog
      rw [Syscall.execOption_some]
      refine ⟨⟨?_, ⟨?_, ho.2⟩, _, hcreated⟩, by simp⟩
      · apply hrest.congr hsst
        rw [hcreated]
        rfl
      · rw [openTables_congr hsst]
        exact ho.1
  | @replayTorn db log hlog hlt =>
      rw [List.append_nil]
      obtain ⟨hdb, log', hfind⟩ := ho
      rw [Syscall.execOption_none, hfind, Option.getD_some] at hlog
      subst hlog
      exact ⟨⟨hrest, db, log', hdb, hfind, rfl, rfl⟩, by simp⟩
  | @replayWhole db log hlog hle =>
      rw [List.append_nil]
      obtain ⟨hdb, log', hfind⟩ := ho
      rw [Syscall.execOption_none, hfind, Option.getD_some] at hlog
      subst hlog
      obtain ⟨hmeans, hordered⟩ := Opener.means_launch disk hrest hdb hfind
        (by rw [List.take_of_length_le hle, hfind])
      refine ⟨hmeans, ?_⟩
      rintro p ⟨⟩
      exact hordered
  | @truncate db validEnd =>
      rw [List.append_nil]
      obtain ⟨db₀, log, hdb, hfind, rfl, rfl⟩ := ho
      obtain ⟨hmeans, hordered⟩ := Opener.means_launch
        ((Syscall.ftruncate .walLog (replayLog log).2).exec disk) hrest hdb hfind
        (by simp [Syscall.exec, hfind])
      refine ⟨hmeans, ?_⟩
      rintro p ⟨⟩
      exact hordered

/-! ### Runs -/

/-- The state is well formed and stands for the calls made so far.  Where processes come to
an end (`ends`), the tables are also ordered by their numbers. -/
structure Sound (ends : Prop) (s : State) : Prop where
  wellFormed : s.status.WellFormed s.disk
  means : s.status.Means s.disk s.calls
  ordered : ends → ∀ p, s.status = .running p → p.Ordered

/-- In this state the action does not let a flush rename a table that disagrees with a
compaction between its snapshot and the reservation of its number. -/
def State.FlushAgrees (s : State) (a : Action) : Prop :=
  match s.status, a with
  | .running p, .writer _ => p.FlushAgrees
  | _, _ => True

/-- The action ends the process. -/
def Action.ends : Action → Bool
  | .close => true
  | .kill => true
  | _ => false

/-- What a step has to meet to keep a state sound. -/
structure StepOk (ends : Prop) (s : State) (a : Action) : Prop where
  noFailure : a.noFailure
  inRange : a.InRange
  agrees : ends → s.FlushAgrees a
  ends : a.ends → ends

theorem sound_init (ends : Prop) :
  Sound ends State.init
  := by
  constructor
  · intro n contents hfind
    simp [State.init] at hfind
  · exact atRest_empty
  · intro _ p hp
    simp [State.init] at hp

theorem sound_step {ends : Prop} {s t : State} {a : Action} (h : Sound ends s)
    (hstep : step s a = some t) (hok : StepOk ends s a) :
  Sound ends t
  := by
  obtain ⟨hwf, hmeans, hordered⟩ := h
  obtain ⟨disk, status, calls⟩ := s
  obtain ⟨c, ended, hstatus, hdisk, hcalls⟩ := step_cases hstep hok.noFailure
  have hends := hok.ends
  have hagrees := hok.agrees
  have hin := hok.inRange
  have hwf' : t.status.WellFormed t.disk := by
    apply State.wellFormed_step hwf hstep hok.noFailure
    cases status with
    | running p =>
        cases a with
        | writer count => exact Process.Means.flushAccepted hwf hmeans
        | _ => trivial
    | _ => trivial
  obtain ⟨disk', status', calls'⟩ := t
  simp only at hwf hmeans hordered hstatus hdisk hcalls hwf'
  subst hcalls
  cases hstatus with
  | start =>
      subst hdisk
      exact ⟨hwf', by rw [List.append_nil]; exact ⟨hmeans, trivial⟩, by simp⟩
  | restart => exact absurd hmeans id
  | opener hopener =>
      obtain ⟨hmeans', hordered'⟩ := Opener.means_step hmeans hdisk hopener
      exact ⟨hwf', hmeans', fun _ => hordered'⟩
  | killOpener =>
      subst hdisk
      exact ⟨hwf', by rw [List.append_nil]; exact hmeans.1, by simp⟩
  | @call p op hw =>
      subst hdisk
      obtain ⟨absorbed, habsorbed, hmem, log, hfind, hlogged⟩ := hmeans.logged
      have hview := hmeans.view
      simp only [hw, Writer.Logged, Writer.applied] at hlogged hview
      refine ⟨hwf', ?_, ?_⟩
      · refine hmeans.setWriter rfl trivial ?_ ?_
        · exact ⟨absorbed, habsorbed, hmem, log, hfind, hin, [], rfl, by simpa using hlogged⟩
        · rw [List.append_nil]
          exact hview
      · rintro hends' p' ⟨⟩
        exact (hordered hends' p rfl).setWriter rfl
  | @writer p count c status ended hwriter =>
      obtain ⟨p', rfl, hmeans'⟩ := hmeans.writerStep hwf hdisk hwriter
      refine ⟨hwf', hmeans', ?_⟩
      rintro hends' p'' ⟨⟩
      exact (hordered hends' p rfl).writerStep hwf (hagrees hends') hmeans'.flushed hwriter
  | @compactor p count c status ended hcompactor =>
      obtain ⟨p', rfl, hmeans', rfl, -⟩ := hmeans.compactorStep hwf hdisk hcompactor
      refine ⟨hwf', by rw [List.append_nil]; exact hmeans', ?_⟩
      rintro hends' p'' ⟨⟩
      exact (hordered hends' p rfl).compactorStep hwf hmeans'.merges hcompactor
  | @close p hw hc =>
      subst hdisk
      have hrest := hmeans.atRest hwf (hordered (hends rfl) p rfl)
      simp only [Process.interrupted, hw] at hrest
      exact ⟨hwf', hrest, by simp⟩
  | @kill p =>
      subst hdisk
      exact ⟨hwf', hmeans.atRest hwf (hordered (hends rfl) p rfl), by simp⟩

/-- Every state reached from an empty directory is sound. -/
theorem sound_of_reaches {ends : Prop} {ok : State → Action → State → Prop} {s : State}
    (h : Transition.Reaches step ok State.init s)
    (hok : ∀ s a t, ok s a t → StepOk ends s a) :
  Sound ends s
  := h.invariant (sound_init ends) (fun s a t hs hstep hguard => sound_step hs hstep (hok s a t hguard))

end TinyLsm
