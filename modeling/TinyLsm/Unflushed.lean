import TinyLsm.FailedFlush
import TinyLsm.Opening

/-!
# What is not flushed

The log holds whatever was not flushed yet, and nothing else: in every run, with flushes that fail,
compactions, kills and restarts at any point, its records are the last operations of the history, those
that the MemTable has absorbed (`log_holds_unflushed`).  The next constructor makes of it the MemTable of
the process.
-/

namespace TinyLsm

open FileSystem Transition

/-! ### Logs -/

/-- The log holds the last of the operations the calls stand for, and perhaps a part of one more. -/
structure LogMirrors (disk : DbDisk) (calls : List Call) (logged : List Op) : Prop where
  resolved : ∃ ops, Resolves calls ops ∧ logged <:+ ops
  inRange : ∀ op ∈ logged, op.InRange
  log : ∃ tail, logContents disk = encodeOps logged ++ tail ∧ decodeFrame tail = none

/-- The MemTable is that of the operations in the log, to which the writer is about to add one. -/
structure Process.Mirrors (p : Process) (disk : DbDisk) (calls : List Call) (logged : List Op) :
    Prop where
  resolved : ∃ ops, Resolves calls ops ∧ logged <:+ ops ++ p.writer.applied
  inRange : ∀ op ∈ logged, op.InRange
  memtable : p.db.memtable = memTableOf logged
  log : ∃ log, disk.find? .walLog = some log ∧ p.writer.Logged logged log

/-- What the constructor has read of such a log. -/
def Opener.Mirrors (o : Opener) (disk : DbDisk) : Prop :=
  match o with
  | cleaning _ _ _ => True
  | creatingLog db => db.memtable = MemTable.empty
  | replaying db => db.memtable = MemTable.empty ∧ ∃ log, disk.find? .walLog = some log
  | truncating db validEnd =>
      ∃ (db₀ : Database) (log : Bytes), db₀.memtable = MemTable.empty
        ∧ disk.find? .walLog = some log ∧ db = db₀.replay log ∧ validEnd = (replayLog log).2

/-- The log is that of the calls made so far. -/
def Status.Mirrors (status : Status) (disk : DbDisk) (calls : List Call) : Prop :=
  match status with
  | down => ∃ logged, LogMirrors disk calls logged
  | failed _ => ∃ logged, LogMirrors disk calls logged
  | opening o => (∃ logged, LogMirrors disk calls logged) ∧ o.Mirrors disk
  | running p => ∃ logged, p.Mirrors disk calls logged

theorem suffix_concat {logged ops : List Op} (h : logged <:+ ops) (op : Op) :
  logged ++ [op] <:+ ops ++ [op]
  := by
  obtain ⟨flushed, rfl⟩ := h
  exact ⟨flushed, by rw [List.append_assoc]⟩

theorem LogMirrors.congr {disk disk' : DbDisk} {calls : List Call} {logged : List Op}
    (h : LogMirrors disk calls logged) (hlog : logContents disk' = logContents disk) :
  LogMirrors disk' calls logged
  := by
  constructor
  · exact h.resolved
  · exact h.inRange
  · rw [hlog]
    exact h.log

/-! ### The end of a process -/

namespace Process

variable {p : Process} {disk disk' : DbDisk} {c : Option DbSyscall} {status : Status}
  {calls ended : List Call} {logged : List Op}

/-- Between two calls the log holds nothing but the operations. -/
theorem Mirrors.idle (h : p.Mirrors disk calls logged) (hw : p.writer = .idle) :
  LogMirrors disk calls logged ∧ disk.find? .walLog = some (encodeOps logged)
  := by
  obtain ⟨⟨ops, hresolves, hsuffix⟩, hin, -, log, hfind, hlogged⟩ := h
  simp only [hw, Writer.Logged, Writer.applied, List.append_nil] at hlogged hsuffix
  subst hlogged
  refine ⟨?_, hfind⟩
  constructor
  · exact ⟨ops, hresolves, hsuffix⟩
  · exact hin
  · exact ⟨[], by rw [logContents, hfind, Option.getD_some, List.append_nil], rfl⟩

/-- At whatever point a process ends, the log holds the last operations, with that of the call it cuts
short if its record is complete. -/
theorem Mirrors.interrupted (h : p.Mirrors disk calls logged) :
  ∃ logged, LogMirrors disk (calls ++ p.interrupted) logged
  := by
  have hidle := h.idle
  obtain ⟨⟨ops, hresolves, hsuffix⟩, hin, hmem, log, hfind, hlogged⟩ := h
  have hcontents : logContents disk = log := by rw [logContents, hfind, Option.getD_some]
  have hnext : ∀ op : Op, op.InRange → logged <:+ ops → log = encodeOps logged ++ op.encode →
      LogMirrors disk (calls ++ [⟨op, .interrupted⟩]) (logged ++ [op]) := by
    intro op hop hsuffix hlog
    constructor
    · exact ⟨ops ++ [op], .counted ⟨op, .interrupted⟩ hresolves rfl, suffix_concat hsuffix op⟩
    · exact List.forall_mem_append.mpr ⟨hin, List.forall_mem_singleton.mpr hop⟩
    · exact ⟨[], by rw [hcontents, hlog, encodeOps_append, encodeOps_singleton, List.append_nil], rfl⟩
  have hsame : ∀ op : Op, logged <:+ ops ++ [op] → log = encodeOps logged →
      LogMirrors disk (calls ++ [⟨op, .interrupted⟩]) logged := by
    intro op hsuffix hlog
    constructor
    · exact ⟨ops ++ [op], .counted ⟨op, .interrupted⟩ hresolves rfl, hsuffix⟩
    · exact hin
    · exact ⟨[], by rw [hcontents, hlog, List.append_nil], rfl⟩
  cases hw : p.writer with
  | idle =>
      simp only [Process.interrupted, hw, List.append_nil]
      exact ⟨logged, (hidle hw).1⟩
  | appending op rest =>
      simp only [hw, Writer.Logged, Writer.applied, List.append_nil] at hlogged hsuffix
      obtain ⟨hop, written, hsplit, hlog⟩ := hlogged
      simp only [Process.interrupted, hw]
      by_cases hrest : rest = []
      · rw [hrest, List.append_nil] at hsplit
        rw [hsplit] at hlog
        exact ⟨_, hnext op hop hsuffix hlog⟩
      · use logged
        constructor
        · exact ⟨ops, .dropped ⟨op, .interrupted⟩ hresolves rfl, hsuffix⟩
        · exact hin
        · exact ⟨written, by rw [hcontents, hlog], op.decodeFrame_prefix hop hsplit hrest⟩
  | applying op =>
      simp only [hw, Writer.Logged, Writer.applied, List.append_nil] at hlogged hsuffix
      simp only [Process.interrupted, hw]
      exact ⟨_, hnext op hlogged.1 hsuffix hlogged.2⟩
  | flushing op file =>
      simp only [hw, Writer.Logged, Writer.applied] at hlogged hsuffix
      simp only [Process.interrupted, hw]
      exact ⟨_, hsame op hsuffix hlogged⟩
  | resetting op =>
      simp only [hw, Writer.Logged, Writer.applied] at hlogged hsuffix
      simp only [Process.interrupted, hw]
      exact ⟨_, hsame op hsuffix hlogged⟩

/-! ### Steps of the threads -/

/-- A step that touches neither the log nor the MemTable nor the writer. -/
theorem Mirrors.keep (h : p.Mirrors disk calls logged) {q : Process} (hmem : q.db.memtable = p.db.memtable)
    (hw : q.writer = p.writer) (hlog : disk'.find? .walLog = disk.find? .walLog) :
  q.Mirrors disk' calls logged
  := by
  constructor
  · rw [hw]
    exact h.resolved
  · exact h.inRange
  · rw [hmem]
    exact h.memtable
  · rw [hw, hlog]
    exact h.log

/-- A step within a call, which adds what it applies to the log and to the MemTable. -/
theorem mirrors_running {q : Process} {ops : List Op} (hresolves : Resolves calls ops)
    (hsuffix : logged <:+ ops ++ q.writer.applied) (hin : ∀ op ∈ logged, op.InRange)
    (hmem : q.db.memtable = memTableOf logged)
    (hlog : ∃ log, disk.find? .walLog = some log ∧ q.writer.Logged logged log) :
  Status.Mirrors (.running q) disk (calls ++ [])
  := by
  rw [List.append_nil]
  use logged
  constructor
  · exact ⟨ops, hresolves, hsuffix⟩
  · exact hin
  · exact hmem
  · exact hlog

/-- Between calls the log is that of the MemTable. -/
theorem mirrors_idle {q : Process} (hw : q.writer = .idle) {ops : List Op}
    (hresolves : Resolves calls ops) (hsuffix : logged <:+ ops) (hin : ∀ op ∈ logged, op.InRange)
    (hmem : q.db.memtable = memTableOf logged) (hlog : disk.find? .walLog = some (encodeOps logged)) :
  q.Mirrors disk calls logged
  := by
  constructor
  · use ops, hresolves
    simpa only [hw, Writer.applied, List.append_nil] using hsuffix
  · exact hin
  · exact hmem
  · use encodeOps logged, hlog
    simp only [hw, Writer.Logged]

/-- A step of the writer keeps the log the one of the MemTable. -/
theorem Mirrors.writerStep (h : p.Mirrors disk calls logged)
    (hstep : p.WriterStep (Syscall.execOption c disk) c status ended) :
  status.Mirrors (Syscall.execOption c disk) (calls ++ ended)
  := by
  obtain ⟨⟨ops, hresolves, hsuffix⟩, hin, hmem, log, hfind, hlogged⟩ := h
  cases hstep with
  | @append op written rest hw hne =>
      simp only [hw, Writer.Logged, Writer.applied] at hlogged hsuffix
      obtain ⟨hop, before, hsplit, hlog⟩ := hlogged
      refine mirrors_running hresolves hsuffix hin hmem ?_
      use log ++ written
      constructor
      · simp [Syscall.exec, hfind]
      · refine ⟨hop, before ++ written, ?_, ?_⟩
        · rw [List.append_assoc, hsplit]
        · rw [hlog, List.append_assoc]
  | @sync op hw =>
      simp only [hw, Writer.Logged, Writer.applied] at hlogged hsuffix
      obtain ⟨hop, written, hsplit, hlog⟩ := hlogged
      rw [List.append_nil] at hsplit
      refine mirrors_running hresolves hsuffix hin hmem ?_
      exact ⟨log, hfind, hop, by rw [hlog, hsplit]⟩
  | @apply op hw hflush =>
      simp only [hw, Writer.Logged, Writer.applied, List.append_nil] at hlogged hsuffix
      obtain ⟨hop, hlog⟩ := hlogged
      use logged ++ [op]
      apply mirrors_idle rfl (.counted ⟨op, .returned⟩ hresolves rfl) (suffix_concat hsuffix op)
      · exact List.forall_mem_append.mpr ⟨hin, List.forall_mem_singleton.mpr hop⟩
      · rw [memTableOf_concat, ← hmem]
      · rw [encodeOps_append, encodeOps_singleton, ← hlog]
        exact hfind
  | @startFlush op hw hflush =>
      simp only [hw, Writer.Logged, Writer.applied, List.append_nil] at hlogged hsuffix
      obtain ⟨hop, hlog⟩ := hlogged
      apply mirrors_running hresolves (suffix_concat hsuffix op)
      · exact List.forall_mem_append.mpr ⟨hin, List.forall_mem_singleton.mpr hop⟩
      · rw [memTableOf_concat, ← hmem]
      · use log, hfind
        simp only [Writer.Logged, encodeOps_append, encodeOps_singleton, hlog]
  | @write op file file' c hw hfile =>
      simp only [hw, Writer.Logged, Writer.applied] at hlogged hsuffix
      refine mirrors_running hresolves hsuffix hin hmem ?_
      exact ⟨log, (hfile.find?_exec (by simp)).trans hfind, hlogged⟩
  | @rename op r hw hopen =>
      simp only [hw, Writer.Logged, Writer.applied] at hlogged hsuffix
      refine mirrors_running hresolves hsuffix hin hmem ?_
      use log
      constructor
      · rw [← hfind]
        exact Syscall.find?_exec_of_notMem (by simp [Syscall.files])
      · exact hlogged
  | @reject op e hw hopen =>
      simp only [hw, Writer.Logged, Writer.applied] at hlogged hsuffix
      use logged
      apply mirrors_idle rfl (.counted ⟨op, .threw true⟩ hresolves rfl) hsuffix hin
      · exact hmem
      · rw [← hlogged, ← hfind]
        exact Syscall.find?_exec_of_notMem (by simp [Syscall.files])
  | @reset op hw =>
      simp only [hw, Writer.Logged, Writer.applied] at hlogged hsuffix
      -- The log and the MemTable begin anew.
      use []
      apply mirrors_idle rfl (.counted ⟨op, .returned⟩ hresolves rfl) List.nil_suffix
      · simp
      · rw [p.db.clearMemtable_memtable, memTableOf_nil]
      · apply Eq.trans (find?_modify _ _ _ _)
        rw [if_pos rfl, hfind]
        rfl

/-- A flush that fails leaves the operation in the MemTable and in the log. -/
theorem Mirrors.writerFail (h : p.Mirrors disk calls logged) {op : Op} {file : FileWrite}
    (hw : p.writer = .flushing op file) (hfail : p.WriterFail c status ended) :
  status.Mirrors (Syscall.execOption c disk) (calls ++ ended)
  := by
  obtain ⟨⟨ops, hresolves, hsuffix⟩, hin, hmem, log, hfind, hlogged⟩ := h
  simp only [hw, Writer.Logged, Writer.applied] at hlogged hsuffix
  cases hfail with
  | append hw' hc => simp [hw] at hw'
  | @flush op' file' c hw' hc =>
      obtain ⟨rfl, rfl⟩ : op = op' ∧ file = file' := by simpa [hw] using hw'
      use logged
      apply mirrors_idle rfl (.counted ⟨op, .threw true⟩ hresolves rfl) hsuffix hin
      · exact hmem
      · rw [← hlogged, ← hfind]
        exact find?_failedMove hc (by simp) (by simp)
  | reset hw' hc => simp [hw] at hw'

/-- The compaction thread does not touch the log. -/
theorem Mirrors.compactorStep (h : p.Mirrors disk calls logged)
    (hstep : p.CompactorStep (Syscall.execOption c disk) c status ended) :
  status.Mirrors (Syscall.execOption c disk) (calls ++ ended)
  := by
  have hother : ∀ {c : DbSyscall}, .walLog ∉ c.files →
      (c.exec disk).find? .walLog = disk.find? .walLog :=
    fun hc => Syscall.find?_exec_of_notMem hc
  have hkept : ∀ {disk' : DbDisk} {q : Process}, q.db.memtable = p.db.memtable →
      q.writer = p.writer → disk'.find? .walLog = disk.find? .walLog →
      Status.Mirrors (.running q) disk' (calls ++ []) := by
    intro disk' q hmem hw hlog
    rw [List.append_nil]
    exact ⟨logged, h.keep hmem hw hlog⟩
  cases hstep with
  | mergeFail hc hmerge => exact h.interrupted
  | @reject toCompact m n e hc hopen =>
      obtain ⟨logged', hrest⟩ := h.interrupted
      use logged'
      apply hrest.congr
      exact logContents_exec (by simp [Syscall.files])
  | write hc hfile => exact hkept rfl rfl (hfile.find?_exec (by simp))
  | rename hc hopen => exact hkept rfl rfl (hother (by simp [Syscall.files]))
  | unlink hc => exact hkept rfl rfl (hother (by simp [Syscall.files]))
  | _ => exact hkept rfl rfl rfl

theorem Mirrors.compactorFail (h : p.Mirrors disk calls logged)
    (hfail : p.CompactorFail c status ended) :
  status.Mirrors (Syscall.execOption c disk) (calls ++ ended)
  := by
  cases hfail with
  | write hw hc =>
      obtain ⟨logged', hrest⟩ := h.interrupted
      use logged'
      apply hrest.congr
      rw [logContents, find?_failedMove hc (by simp) (by simp), logContents]
  | unlink hw =>
      rw [List.append_nil]
      exact ⟨logged, h.keep rfl rfl rfl⟩

end Process

/-! ### Steps of the constructor -/

/-- The process the constructor launches. -/
theorem LogMirrors.launch {disk disk' : DbDisk} {calls : List Call} {logged : List Op}
    (h : LogMirrors disk calls logged) {db : Database} (hdb : db.memtable = MemTable.empty)
    {log : Bytes} (hfind : disk.find? .walLog = some log)
    (hfind' : disk'.find? .walLog = some (log.take (replayLog log).2)) :
  (db.replay log).idle.Mirrors disk' calls logged
  := by
  obtain ⟨⟨ops, hresolves, hsuffix⟩, hin, tail, hsplit, htail⟩ := h
  rw [logContents, hfind, Option.getD_some] at hsplit
  have hreplay := replayLog_encodeOps hin htail
  rw [← hsplit] at hreplay
  apply Process.mirrors_idle rfl hresolves hsuffix hin
  · change (db.replay log).memtable = memTableOf logged
    rw [Database.replay, hreplay, hdb]
    exact foldl_replay_decoded _ _
  · rw [hfind', hreplay, hsplit, List.take_left]

/-- A step of the constructor keeps what the log holds. -/
theorem Opener.Step.mirrors {o : Opener} {disk : DbDisk} {c : Option DbSyscall} {status : Status}
    {calls ended : List Call} {logged : List Op} (h : LogMirrors disk calls logged)
    (ho : o.Mirrors disk) (hstep : o.Step (Syscall.execOption c disk) c status ended) :
  status.Mirrors (Syscall.execOption c disk) (calls ++ ended)
  := by
  cases hstep with
  | @clean thr trig leftover choice n hn =>
      rw [List.append_nil]
      exact ⟨⟨logged, h.congr (logContents_exec (by simp [Syscall.files]))⟩, trivial⟩
  | discover hdiscover =>
      rw [List.append_nil]
      exact ⟨⟨logged, h⟩, (Database.discovered_of_discover hdiscover).2⟩
  | reject hdiscover =>
      rw [List.append_nil]
      exact ⟨logged, h⟩
  | createLog =>
      rw [List.append_nil]
      exact ⟨⟨logged, h.congr (logContents_create disk)⟩, ho, _,
        Syscall.find?_create disk FileName.walLog⟩
  | replayTorn hlog hlt =>
      rw [List.append_nil]
      obtain ⟨hdb, log', hfind⟩ := ho
      rw [Syscall.execOption_none, hfind, Option.getD_some] at hlog
      subst hlog
      exact ⟨⟨logged, h⟩, _, _, hdb, hfind, rfl, rfl⟩
  | replayWhole hlog hle =>
      rw [List.append_nil]
      obtain ⟨hdb, log', hfind⟩ := ho
      rw [Syscall.execOption_none, hfind, Option.getD_some] at hlog
      subst hlog
      use logged
      apply h.launch hdb hfind
      rw [List.take_of_length_le hle]
      exact hfind
  | truncate =>
      rw [List.append_nil]
      obtain ⟨db₀, log, hdb, hfind, rfl, rfl⟩ := ho
      use logged
      apply h.launch hdb hfind
      apply Eq.trans (find?_modify _ _ _ _)
      rw [if_pos rfl, hfind]
      rfl

/-! ### Runs -/

/-- The writer fails only within a flush, before its table is listed. -/
def State.KeepsLog (s : State) (a : Action) : Prop :=
  ∀ p late, s.status = .running p → a = .writerFail late → ∃ op file, p.writer = .flushing op file

theorem mirrors_step {s t : State} {a : Action} (h : s.status.Mirrors s.disk s.calls)
    (hstep : step s a = some t) (hin : a.InRange) (hkeep : s.KeepsLog a) :
  t.status.Mirrors t.disk t.calls
  := by
  obtain ⟨c, ended, hstatus, hdisk, hcalls⟩ := step_any_cases hstep
  rw [hdisk] at hstatus
  rw [hdisk, hcalls]
  rw [State.KeepsLog] at hkeep
  generalize s.status = before at h hstatus hkeep
  generalize t.status = status at hstatus ⊢
  cases hstatus with
  | succeeds hstatus =>
      cases hstatus with
      | start =>
          rw [List.append_nil]
          exact ⟨h, trivial⟩
      | restart =>
          rw [List.append_nil]
          exact ⟨h, trivial⟩
      | opener hopener =>
          obtain ⟨⟨logged, hrest⟩, ho⟩ := h
          exact hopener.mirrors hrest ho
      | killOpener =>
          rw [List.append_nil]
          exact h.1
      | @call p op hw =>
          obtain ⟨logged, h⟩ := h
          obtain ⟨⟨ops, hresolves, hsuffix⟩, hlogs, hmem, log, hfind, hlogged⟩ := h
          simp only [hw, Writer.Logged, Writer.applied] at hlogged hsuffix
          refine Process.mirrors_running hresolves hsuffix hlogs hmem ?_
          exact ⟨log, hfind, hin, [], rfl, by rw [hlogged, List.append_nil]⟩
      | writer hwriter =>
          obtain ⟨logged, h⟩ := h
          exact h.writerStep hwriter
      | compactor hcompactor =>
          obtain ⟨logged, h⟩ := h
          exact h.compactorStep hcompactor
      | @close p hw hc =>
          obtain ⟨logged, h⟩ := h
          have hrest := h.interrupted
          rw [Process.interrupted, hw] at hrest
          exact hrest
      | kill =>
          obtain ⟨logged, h⟩ := h
          exact h.interrupted
  | keepLeftover =>
      rw [List.append_nil]
      exact ⟨h.1, trivial⟩
  | openerFail =>
      rw [List.append_nil]
      exact h.1
  | @writerFail p late c status ended hfail =>
      obtain ⟨logged, h⟩ := h
      obtain ⟨op, file, hw⟩ := hkeep p late rfl rfl
      exact h.writerFail hw hfail
  | compactorFail hfail =>
      obtain ⟨logged, h⟩ := h
      exact h.compactorFail hfail

/-- The constructor makes the MemTable of the operations in the log. -/
theorem LogMirrors.construct {disk disk' : DbDisk} {calls : List Call} {logged : List Op}
    (h : LogMirrors disk calls logged) {thr : UInt64} {trig : ℕ} {db : Database}
    (hconstruct : Database.construct thr trig disk = .ok (db, disk')) :
  db.memtable = memTableOf logged ∧ disk'.find? .walLog = some (encodeOps logged)
  := by
  obtain ⟨tail, hsplit, htail⟩ := h.log
  obtain ⟨hmem, hfind⟩ := replay_of_construct hconstruct
  have hreplay : replay (logContents disk)
      = (logged.map (fun op => op.record.decoded), encodeOps logged) := by
    rw [replay_eq, hsplit, replayLog_encodeOps h.inRange htail, List.take_left]
  rw [logContents] at hreplay
  rw [hreplay] at hmem hfind
  constructor
  · rw [hmem]
    exact foldl_replay_decoded _ _
  · exact hfind

/-- In every run in which no append and no reset of the log fails, the log holds the last operations of
the history that the calls stand for, and its MemTable is theirs: while the process is between two calls,
where a constructor would make the same MemTable and leave the same log, and after it has ended at any
point, when the next constructor makes it. -/
theorem log_holds_unflushed {s : State}
    (h : Reaches step (fun s a _ => a.InRange ∧ s.KeepsLog a) State.init s) :
  (∀ p, s.status = .running p → p.writer = .idle →
    ∃ flushed logged, Resolves s.calls (flushed ++ logged)
      ∧ s.disk.find? .walLog = some (encodeOps logged) ∧ p.db.memtable = memTableOf logged
      ∧ ∀ thr trig db disk, Database.construct thr trig s.disk = .ok (db, disk) →
          db.memtable = p.db.memtable ∧ disk.find? .walLog = s.disk.find? .walLog)
    ∧ ((∀ p, s.status ≠ .running p) →
      ∃ flushed logged tail, Resolves s.calls (flushed ++ logged)
        ∧ logContents s.disk = encodeOps logged ++ tail ∧ decodeFrame tail = none
        ∧ ∀ thr trig db disk, Database.construct thr trig s.disk = .ok (db, disk) →
            db.memtable = memTableOf logged ∧ disk.find? .walLog = some (encodeOps logged))
  := by
  have hinit : State.init.status.Mirrors State.init.disk State.init.calls := by
    use []
    constructor
    · exact ⟨[], .nil, List.nil_suffix⟩
    · simp
    · exact ⟨[], rfl, rfl⟩
  have hmirrors := h.invariant (I := fun s => s.status.Mirrors s.disk s.calls) hinit
    (fun _ _ _ hu hstep hok => mirrors_step hu hstep hok.1 hok.2)
  constructor
  · intro p hp hw
    rw [hp] at hmirrors
    obtain ⟨logged, hp⟩ := hmirrors
    obtain ⟨hlog, hfind⟩ := hp.idle hw
    obtain ⟨ops, hresolves, flushed, rfl⟩ := hlog.resolved
    refine ⟨flushed, logged, hresolves, hfind, hp.memtable, ?_⟩
    intro thr trig db disk hconstruct
    rw [hp.memtable, hfind]
    exact hlog.construct hconstruct
  · intro hdown
    have hlog : ∃ logged, LogMirrors s.disk s.calls logged := by
      cases hs : s.status with
      | down =>
          rw [hs] at hmirrors
          exact hmirrors
      | failed e =>
          rw [hs] at hmirrors
          exact hmirrors
      | opening o =>
          rw [hs] at hmirrors
          exact hmirrors.1
      | running p => exact absurd hs (hdown p)
    obtain ⟨logged, hlog⟩ := hlog
    obtain ⟨ops, hresolves, flushed, rfl⟩ := hlog.resolved
    obtain ⟨tail, hsplit, htail⟩ := hlog.log
    refine ⟨flushed, logged, tail, hresolves, hsplit, htail, ?_⟩
    intro thr trig db disk hconstruct
    exact hlog.construct hconstruct

/-- The step meets what is asked. -/
def State.logKept (s : State) (a : Action) : Bool :=
  decide a.InRange &&
    match s.status, a with
    | .running p, .writerFail _ =>
        match p.writer with
        | .flushing _ _ => true
        | _ => false
    | _, _ => true

theorem keepsLog_of_logKept {s : State} {a : Action} (h : s.logKept a = true) :
  a.InRange ∧ s.KeepsLog a
  := by
  simp only [State.logKept, Bool.and_eq_true, decide_eq_true_eq] at h
  obtain ⟨hin, hflush⟩ := h
  use hin
  rintro p late hp rfl
  simp only [hp] at hflush
  cases hw : p.writer with
  | flushing op file => exact ⟨op, file, rfl⟩
  | _ => simp [hw] at hflush

/-- One flush, and a second one that fails before it has written anything. -/
def failedFlushRun : List Action :=
  [launchActions 0 3, flushActions (.put [97] [1]) 52, (flushActions (.put [98] [1]) 52).take 4,
    [.writerFail false]].flatten

theorem log_holds_unflushed_failedFlush :
  ∃ s p, run (guarded step State.logKept) State.init failedFlushRun = some s
    ∧ s.status = .running p ∧ ∃ flushed logged, Resolves s.calls (flushed ++ logged)
      ∧ s.disk.find? .walLog = some (encodeOps logged) ∧ p.db.memtable = memTableOf logged
      ∧ ∀ thr trig db disk, Database.construct thr trig s.disk = .ok (db, disk) →
          db.memtable = p.db.memtable ∧ disk.find? .walLog = s.disk.find? .walLog
  := by
  have hrun : (run (guarded step State.logKept) State.init failedFlushRun).any State.between
      = true := by
    decide +kernel
  obtain ⟨s, hs, hbetween⟩ := exists_of_run hrun
  obtain ⟨p, hp, hw⟩ := State.between_iff.mp hbetween
  have hreach : Reaches step (fun s a _ => a.InRange ∧ s.KeepsLog a) State.init s :=
    Reaches.of_run hs (fun _ _ _ ha => keepsLog_of_logKept ha)
  exact ⟨s, p, hs, hp, (log_holds_unflushed hreach).1 p hp hw⟩

end TinyLsm
