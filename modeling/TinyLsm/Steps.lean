import TinyLsm.Process

/-!
# The steps of a process

What a step of each part of the process can be, as a relation with one case for each kind
of step, and that the moves of the machine are such steps.  The relations are indexed by
the files after the step, the system call made, the status reached and the calls ended.
-/

namespace TinyLsm

open FileSystem

/-! ### WriteSSTable -/

/-- A step of `WriteSSTable` on the table `n` up to the rename. -/
inductive FileWrite.Step (n : ℕ) : FileWrite → DbSyscall → FileWrite → Prop where
  | create {entries : EntryMap} {contents : Bytes} :
      writeSSTable entries = .ok contents →
      Step n (.creating entries) (.createTrunc (.tmp n)) (.writing contents)
  | append {written rest : Bytes} :
      written ≠ [] → Step n (.writing (written ++ rest)) (.append (.tmp n) written) (.writing rest)
  | sync : Step n (.writing []) (.fsync (.tmp n)) .synced

theorem FileWrite.step_of_move {file file' : FileWrite} {n count : ℕ} {c : DbSyscall}
    (h : file.move n count = some (c, some file')) :
  FileWrite.Step n file c file'
  := by
  cases file with
  | creating entries =>
      simp only [move] at h
      cases hw : writeSSTable entries with
      | error e => simp [hw] at h
      | ok contents =>
          simp only [hw, Option.some.injEq, Prod.mk.injEq] at h
          obtain ⟨rfl, rfl⟩ := h
          exact .create hw
  | writing rest =>
      cases rest with
      | nil =>
          simp only [move, Option.some.injEq, Prod.mk.injEq] at h
          obtain ⟨rfl, rfl⟩ := h
          exact .sync
      | cons b bs =>
          simp only [move] at h
          split_ifs at h with hcount
          simp only [Option.some.injEq, Prod.mk.injEq] at h
          obtain ⟨rfl, rfl⟩ := h
          have hne : (b :: bs).take count ≠ [] := by
            simp only [ne_eq, List.take_eq_nil_iff, List.cons_ne_nil, or_false]
            omega
          have hstep : Step n (.writing ((b :: bs).take count ++ (b :: bs).drop count))
              (.append (.tmp n) ((b :: bs).take count)) (.writing ((b :: bs).drop count)) :=
            .append hne
          rw [List.take_append_drop] at hstep
          exact hstep
  | synced => simp [move] at h

theorem FileWrite.eq_synced_of_move {file : FileWrite} {n count : ℕ} {c : DbSyscall}
    (h : file.move n count = some (c, none)) :
  file = .synced ∧ c = .rename (.tmp n) (.sst n)
  := by
  cases file with
  | creating entries =>
      simp only [move] at h
      cases hw : writeSSTable entries with
      | error e => simp [hw] at h
      | ok contents => simp [hw] at h
  | writing rest =>
      cases rest with
      | nil => simp [move] at h
      | cons b bs =>
          simp only [move] at h
          split_ifs at h with hcount
          simp at h
  | synced =>
      simp only [move, Option.some.injEq, Prod.mk.injEq, and_true] at h
      exact ⟨rfl, h.symm⟩

/-! ### The threads -/

namespace Process

/-- A step of the writer. -/
inductive WriterStep (p : Process) (disk : DbDisk) :
    Option DbSyscall → Status → List Call → Prop where
  | append {op : Op} {written rest : Bytes} :
      p.writer = .appending op (written ++ rest) → written ≠ [] →
      WriterStep p disk (some (.append .walLog written))
        (.running { p with writer := .appending op rest }) []
  | sync {op : Op} :
      p.writer = .appending op [] →
      WriterStep p disk (some (.fsync .walLog)) (.running { p with writer := .applying op }) []
  | apply {op : Op} :
      p.writer = .applying op →
      ¬ { p.db with memtable := p.db.memtable.apply op }.needsFlush →
      WriterStep p disk none
        (.running { p with db.memtable := p.db.memtable.apply op, writer := .idle })
        [⟨op, .returned⟩]
  | startFlush {op : Op} :
      p.writer = .applying op →
      { p.db with memtable := p.db.memtable.apply op }.needsFlush →
      WriterStep p disk none
        (.running { p with
          db.memtable := p.db.memtable.apply op
          writer := .flushing op (.creating (p.db.memtable.apply op).entries) }) []
  | write {op : Op} {file file' : FileWrite} {c : DbSyscall} :
      p.writer = .flushing op file → file.Step p.db.nextSstableNumber c file' →
      WriterStep p disk (some c) (.running { p with writer := .flushing op file' }) []
  | rename {op : Op} {r : SSTableReader} :
      p.writer = .flushing op .synced → openSSTable disk p.db.nextSstableNumber = .ok r →
      WriterStep p disk
        (some (.rename (.tmp p.db.nextSstableNumber) (.sst p.db.nextSstableNumber)))
        (.running { p with db := p.db.pushTable r, writer := .resetting op }) []
  | reject {op : Op} {e : StorageError} :
      p.writer = .flushing op .synced → openSSTable disk p.db.nextSstableNumber = .error e →
      WriterStep p disk
        (some (.rename (.tmp p.db.nextSstableNumber) (.sst p.db.nextSstableNumber)))
        (.running { p with writer := .idle }) [⟨op, .threw true⟩]
  | reset {op : Op} :
      p.writer = .resetting op →
      WriterStep p disk (some (.ftruncate .walLog 0))
        (.running { p with db := p.db.clearMemtable, writer := .idle }) [⟨op, .returned⟩]

theorem writerStep_of_move {p : Process} {count : ℕ} {m : Move} (h : p.writerMove count = some m)
    (disk : DbDisk) :
  p.WriterStep (m.files disk) m.syscall (m.next (m.files disk)).1 (m.next (m.files disk)).2
  := by
  cases hw : p.writer with
  | idle => simp [writerMove, hw] at h
  | appending op rest =>
      cases rest with
      | nil =>
          simp only [writerMove, hw, Option.some.injEq] at h
          subst h
          exact .sync hw
      | cons b bs =>
          simp only [writerMove, hw] at h
          split_ifs at h with hcount
          obtain rfl := Option.some.inj h
          apply WriterStep.append
          · rw [List.take_append_drop, hw]
          · simp only [ne_eq, List.take_eq_nil_iff, List.cons_ne_nil, or_false]
            omega
  | applying op =>
      simp only [writerMove, hw, Option.some.injEq] at h
      subst h
      simp only [applied]
      split_ifs with hflush
      · exact .startFlush hw hflush
      · exact .apply hw hflush
  | flushing op file =>
      simp only [writerMove, hw] at h
      split at h
      · simp at h
      · rename_i c file' hmove
        obtain rfl := Option.some.inj h
        exact .write hw (FileWrite.step_of_move hmove)
      · rename_i c hmove
        obtain rfl := Option.some.inj h
        obtain ⟨rfl, rfl⟩ := FileWrite.eq_synced_of_move hmove
        simp only [tableWritten]
        split
        · rename_i e he
          exact .reject hw he
        · rename_i r hr
          exact .rename hw hr
  | resetting op =>
      simp only [writerMove, hw, Option.some.injEq] at h
      subst h
      exact .reset hw

/-- A step of the compaction thread. -/
inductive CompactorStep (p : Process) (disk : DbDisk) :
    Option DbSyscall → Status → List Call → Prop where
  | consume :
      p.compactor = .waiting → p.db.compactionRequested →
      CompactorStep p disk none
        (.running { p with
          db := { p.db with compactionRequested := false, compactionRunning := true }
          compactor := .started }) []
  | skip :
      p.compactor = .started → p.writer = .idle → p.db.sstables.length < 2 →
      CompactorStep p disk none (.running { p with compactor := .finishing }) []
  | snapshot :
      p.compactor = .started → p.writer = .idle → 2 ≤ p.db.sstables.length →
      CompactorStep p disk none (.running { p with compactor := .merging p.db.sstables }) []
  | merge {toCompact : List SSTableReader} {merged : EntryMap} :
      p.compactor = .merging toCompact → Database.compactedEntries toCompact = .ok merged →
      CompactorStep p disk none
        (.running { p with compactor := .allocating toCompact merged }) []
  | mergeFail {toCompact : List SSTableReader} {e : StorageError} :
      p.compactor = .merging toCompact → Database.compactedEntries toCompact = .error e →
      CompactorStep p disk none .down p.interrupted
  | allocate {toCompact : List SSTableReader} {merged : EntryMap} :
      p.compactor = .allocating toCompact merged → p.writer = .idle →
      CompactorStep p disk none
        (.running { p with
          db := { p.db with nextSstableNumber := p.db.nextSstableNumber + 1 }
          compactor := .writing toCompact merged p.db.nextSstableNumber (.creating merged) }) []
  | write {toCompact : List SSTableReader} {merged : EntryMap} {n : ℕ} {file file' : FileWrite}
      {c : DbSyscall} :
      p.compactor = .writing toCompact merged n file → file.Step n c file' →
      CompactorStep p disk (some c)
        (.running { p with compactor := .writing toCompact merged n file' }) []
  | rename {toCompact : List SSTableReader} {merged : EntryMap} {n : ℕ} {r : SSTableReader} :
      p.compactor = .writing toCompact merged n .synced → openSSTable disk n = .ok r →
      CompactorStep p disk (some (.rename (.tmp n) (.sst n)))
        (.running { p with compactor := .swapping toCompact r }) []
  | reject {toCompact : List SSTableReader} {merged : EntryMap} {n : ℕ} {e : StorageError} :
      p.compactor = .writing toCompact merged n .synced → openSSTable disk n = .error e →
      CompactorStep p disk (some (.rename (.tmp n) (.sst n))) .down p.interrupted
  | swap {toCompact : List SSTableReader} {r : SSTableReader} :
      p.compactor = .swapping toCompact r → p.writer = .idle →
      CompactorStep p disk none
        (.running { p with
          db := p.db.swapIn r toCompact.length
          compactor := .deleting (p.db.sstables.take toCompact.length) }) []
  | unlink {r : SSTableReader} {old : List SSTableReader} :
      p.compactor = .deleting (r :: old) →
      CompactorStep p disk (some (.unlink (.sst r.path)))
        (.running { p with compactor := .deleting old }) []
  | deleted :
      p.compactor = .deleting [] →
      CompactorStep p disk none (.running { p with compactor := .finishing }) []
  | finish :
      p.compactor = .finishing →
      CompactorStep p disk none
        (.running { p with
          db := { p.db with compactionRunning := false }
          compactor := .waiting }) []

theorem unlocked_iff {p : Process} :
  p.unlocked = true ↔ p.writer = .idle
  := by
  cases hw : p.writer with
  | idle => simp [unlocked, hw]
  | appending op rest => simp [unlocked, hw]
  | applying op => simp [unlocked, hw]
  | flushing op file => simp [unlocked, hw]
  | resetting op => simp [unlocked, hw]

theorem closable_iff {p : Process} :
  p.closable = true ↔ p.writer = .idle ∧ p.compactor = .waiting
  := by
  cases hc : p.compactor with
  | waiting => simp [closable, hc, unlocked_iff]
  | _ => simp [closable, hc]

theorem compactorStep_of_move {p : Process} {count : ℕ} {m : Move}
    (h : p.compactorMove count = some m) (disk : DbDisk) :
  p.CompactorStep (m.files disk) m.syscall (m.next (m.files disk)).1 (m.next (m.files disk)).2
  := by
  cases hc : p.compactor with
  | waiting =>
      simp only [compactorMove, hc] at h
      split_ifs at h with hreq
      obtain rfl := Option.some.inj h
      exact .consume hc hreq
  | started =>
      simp only [compactorMove, hc] at h
      split_ifs at h with hlock hlen
      · obtain rfl := Option.some.inj h
        exact .skip hc (unlocked_iff.mp hlock) hlen
      · obtain rfl := Option.some.inj h
        exact .snapshot hc (unlocked_iff.mp hlock) (not_lt.mp hlen)
  | merging toCompact =>
      simp only [compactorMove, hc] at h
      cases hm : Database.compactedEntries toCompact with
      | error e =>
          simp only [hm, Option.some.injEq] at h
          subst h
          exact .mergeFail hc hm
      | ok merged =>
          simp only [hm, Option.some.injEq] at h
          subst h
          exact .merge hc hm
  | allocating toCompact merged =>
      simp only [compactorMove, hc] at h
      split_ifs at h with hlock
      obtain rfl := Option.some.inj h
      exact .allocate hc (unlocked_iff.mp hlock)
  | writing toCompact merged number file =>
      simp only [compactorMove, hc] at h
      split at h
      · simp at h
      · rename_i c file' hmove
        obtain rfl := Option.some.inj h
        exact .write hc (FileWrite.step_of_move hmove)
      · rename_i c hmove
        obtain rfl := Option.some.inj h
        obtain ⟨rfl, rfl⟩ := FileWrite.eq_synced_of_move hmove
        simp only [compactedWritten]
        split
        · rename_i e he
          exact .reject hc he
        · rename_i r hr
          exact .rename hc hr
  | swapping toCompact compacted =>
      simp only [compactorMove, hc] at h
      split_ifs at h with hlock
      obtain rfl := Option.some.inj h
      exact .swap hc (unlocked_iff.mp hlock)
  | deleting old =>
      cases old with
      | nil =>
          simp only [compactorMove, hc, Option.some.injEq] at h
          subst h
          exact .deleted hc
      | cons r old =>
          simp only [compactorMove, hc, Option.some.injEq] at h
          subst h
          exact .unlink hc
  | finishing =>
      simp only [compactorMove, hc, Option.some.injEq] at h
      subst h
      exact .finish hc

end Process

/-! ### The constructor -/

/-- A step of the constructor. -/
inductive Opener.Step (disk : DbDisk) :
    Opener → Option DbSyscall → Status → List Call → Prop where
  | clean {thr : UInt64} {trig : ℕ} {leftover : List ℕ} {choice n : ℕ} :
      leftover[choice]? = some n →
      Step disk (.cleaning thr trig leftover) (some (.unlink (.tmp n)))
        (.opening (.cleaning thr trig (leftover.eraseIdx choice))) []
  | discover {thr : UInt64} {trig : ℕ} {db : Database} :
      Database.discover thr trig disk = .ok db →
      Step disk (.cleaning thr trig []) none (.opening (.creatingLog db)) []
  | reject {thr : UInt64} {trig : ℕ} {e : StorageError} :
      Database.discover thr trig disk = .error e →
      Step disk (.cleaning thr trig []) none (.failed e) []
  | createLog {db : Database} :
      Step disk (.creatingLog db) (some (.create .walLog)) (.opening (.replaying db)) []
  | replayTorn {db : Database} {log : Bytes} :
      (disk.find? .walLog).getD [] = log → (replayLog log).2 < log.length →
      Step disk (.replaying db) none
        (.opening (.truncating (db.replay log) (replayLog log).2)) []
  | replayWhole {db : Database} {log : Bytes} :
      (disk.find? .walLog).getD [] = log → log.length ≤ (replayLog log).2 →
      Step disk (.replaying db) none (.running ⟨db.replay log, .idle, .waiting⟩) []
  | truncate {db : Database} {validEnd : ℕ} :
      Step disk (.truncating db validEnd) (some (.ftruncate .walLog validEnd))
        (.running ⟨db, .idle, .waiting⟩) []

theorem Opener.step_of_move {o : Opener} {choice : ℕ} {m : Move} (h : o.move choice = some m)
    (disk : DbDisk) :
  o.Step (m.files disk) m.syscall (m.next (m.files disk)).1 (m.next (m.files disk)).2
  := by
  cases o with
  | cleaning thr trig leftover =>
      cases leftover with
      | nil =>
          simp only [move, Option.some.injEq] at h
          subst h
          simp only [discovering]
          split
          · rename_i e he
            exact .reject he
          · rename_i db hdb
            exact .discover hdb
      | cons n ns =>
          simp only [move] at h
          split at h
          · simp at h
          · rename_i n' hn
            obtain rfl := Option.some.inj h
            exact .clean hn
  | creatingLog db =>
      simp only [move, Option.some.injEq] at h
      subst h
      exact .createLog
  | replaying db =>
      simp only [move, Option.some.injEq] at h
      subst h
      simp only [replayed]
      split_ifs with hlt
      · exact .replayTorn rfl hlt
      · exact .replayWhole rfl (not_lt.mp hlt)
  | truncating db validEnd =>
      simp only [move, Option.some.injEq] at h
      subst h
      exact .truncate

/-! ### The machine -/

/-- A step of the process without a failing system call. -/
inductive Status.Step (disk : DbDisk) :
    Status → Action → Option DbSyscall → Status → List Call → Prop where
  | start {thr : UInt64} {trig : ℕ} :
      Step disk .down (.start thr trig) none
        (.opening (.cleaning thr trig (tmpNumbers disk))) []
  | restart {e : StorageError} {thr : UInt64} {trig : ℕ} :
      Step disk (.failed e) (.start thr trig) none
        (.opening (.cleaning thr trig (tmpNumbers disk))) []
  | opener {o : Opener} {choice : ℕ} {c : Option DbSyscall} {status : Status}
      {calls : List Call} :
      o.Step disk c status calls → Step disk (.opening o) (.opener choice) c status calls
  | killOpener {o : Opener} : Step disk (.opening o) .kill none .down []
  | call {p : Process} {op : Op} :
      p.writer = .idle →
      Step disk (.running p) (.call op) none
        (.running { p with writer := .appending op op.encode }) []
  | writer {p : Process} {count : ℕ} {c : Option DbSyscall} {status : Status}
      {calls : List Call} :
      p.WriterStep disk c status calls → Step disk (.running p) (.writer count) c status calls
  | compactor {p : Process} {count : ℕ} {c : Option DbSyscall} {status : Status}
      {calls : List Call} :
      p.CompactorStep disk c status calls →
      Step disk (.running p) (.compactor count) c status calls
  | close {p : Process} :
      p.writer = .idle → p.compactor = .waiting → Step disk (.running p) .close none .down []
  | kill {p : Process} : Step disk (.running p) .kill none .down p.interrupted

theorem Status.step_of_move {status : Status} {a : Action} {m : Move}
    (h : status.move a = some m) (ha : a.noFailure) (disk : DbDisk) :
  Status.Step (m.files disk) status a m.syscall (m.next (m.files disk)).1
    (m.next (m.files disk)).2
  := by
  cases status with
  | down =>
      cases a with
      | start thr trig =>
          obtain rfl := Option.some.inj h
          exact .start
      | _ => simp [move] at h
  | failed e =>
      cases a with
      | start thr trig =>
          obtain rfl := Option.some.inj h
          exact .restart
      | _ => simp [move] at h
  | opening o =>
      cases a with
      | opener choice => exact .opener (Opener.step_of_move h disk)
      | openerFail => simp [Action.noFailure] at ha
      | kill =>
          obtain rfl := Option.some.inj h
          exact .killOpener
      | _ => simp [move] at h
  | running p =>
      cases a with
      | call op =>
          simp only [move] at h
          split at h
          · rename_i hw
            obtain rfl := Option.some.inj h
            exact .call hw
          · simp at h
      | writer count => exact .writer (Process.writerStep_of_move h disk)
      | writerFail late => simp [Action.noFailure] at ha
      | compactor count => exact .compactor (Process.compactorStep_of_move h disk)
      | compactorFail late => simp [Action.noFailure] at ha
      | close =>
          simp only [move] at h
          split_ifs at h with hclose
          obtain rfl := Option.some.inj h
          obtain ⟨hw, hc⟩ := Process.closable_iff.mp hclose
          exact .close hw hc
      | kill =>
          obtain rfl := Option.some.inj h
          exact .kill
      | _ => simp [move] at h

/-- A step of the machine without a failing system call is one of these. -/
theorem step_cases {s t : State} {a : Action} (h : step s a = some t) (ha : a.noFailure) :
  ∃ c calls, Status.Step t.disk s.status a c t.status calls
    ∧ t.disk = Syscall.execOption c s.disk ∧ t.calls = s.calls ++ calls
  := by
  obtain ⟨m, hm, rfl⟩ := Option.map_eq_some_iff.mp h
  exact ⟨m.syscall, (m.next (m.files s.disk)).2, Status.step_of_move hm ha s.disk, rfl, rfl⟩

/-! ### Failing calls -/

/-- A step of the process in which a system call fails. -/
inductive Status.FailStep : Status → Action → Status → Prop where
  | keepLeftover {thr : UInt64} {trig n : ℕ} {leftover : List ℕ} :
      FailStep (.opening (.cleaning thr trig (n :: leftover))) .openerFail
        (.opening (.cleaning thr trig leftover))
  | opener {o : Opener} : FailStep (.opening o) .openerFail (.failed .io)
  | writer {p : Process} {late : Bool} :
      FailStep (.running p) (.writerFail late) (.running { p with writer := .idle })
  | keepOld {p : Process} {r : SSTableReader} {old : List SSTableReader} {late : Bool} :
      p.compactor = .deleting (r :: old) →
      FailStep (.running p) (.compactorFail late) (.running { p with compactor := .deleting old })
  | compactor {p : Process} {late : Bool} : FailStep (.running p) (.compactorFail late) .down

theorem Opener.failStep_of_move {o : Opener} {m : Move} (h : o.failMove = some m)
    (disk : DbDisk) :
  Status.FailStep (.opening o) .openerFail (m.next disk).1 ∧ m.syscall = none
  := by
  cases o with
  | cleaning thr trig leftover =>
      cases leftover with
      | nil =>
          obtain rfl := Option.some.inj h
          exact ⟨.opener, rfl⟩
      | cons n leftover =>
          obtain rfl := Option.some.inj h
          exact ⟨.keepLeftover, rfl⟩
  | _ =>
      obtain rfl := Option.some.inj h
      exact ⟨.opener, rfl⟩

theorem Process.failStep_of_writerMove {p : Process} {late : Bool} {m : Move}
    (h : p.writerFailMove late = some m) (disk : DbDisk) :
  Status.FailStep (.running p) (.writerFail late) (m.next disk).1
  := by
  cases hw : p.writer with
  | idle => simp [writerFailMove, hw] at h
  | appending op rest =>
      cases rest with
      | nil =>
          simp only [writerFailMove, hw, Option.some.injEq] at h
          subst h
          exact .writer
      | cons b bs =>
          simp only [writerFailMove, hw, Option.some.injEq] at h
          subst h
          exact .writer
  | applying op => simp [writerFailMove, hw] at h
  | flushing op file =>
      simp only [writerFailMove, hw, Option.some.injEq] at h
      subst h
      exact .writer
  | resetting op =>
      simp only [writerFailMove, hw, Option.some.injEq] at h
      subst h
      exact .writer

theorem Process.failStep_of_compactorMove {p : Process} {late : Bool} {m : Move}
    (h : p.compactorFailMove late = some m) (disk : DbDisk) :
  Status.FailStep (.running p) (.compactorFail late) (m.next disk).1
  := by
  rw [compactorFailMove] at h
  split at h
  · obtain rfl := Option.some.inj h
    exact .compactor
  · rename_i hc
    obtain rfl := Option.some.inj h
    exact .keepOld hc
  · simp at h

/-- A step with a failing system call is one of these; a constructor that fails has changed no
file by it. -/
theorem step_fail_cases {s t : State} {a : Action} (h : step s a = some t)
    (ha : ¬ a.noFailure) :
  Status.FailStep s.status a t.status ∧ ∀ o, s.status = .opening o → t.disk = s.disk
  := by
  obtain ⟨m, hm, rfl⟩ := Option.map_eq_some_iff.mp h
  cases a with
  | openerFail =>
      cases hs : s.status with
      | opening o =>
          rw [hs] at hm
          obtain ⟨hstep, hcall⟩ := o.failStep_of_move hm (m.files s.disk)
          use hstep
          intro _ _
          rw [State.after, Move.files, hcall]
          rfl
      | _ => simp [hs, Status.move] at hm
  | writerFail late =>
      cases hs : s.status with
      | running p =>
          rw [hs] at hm
          exact ⟨p.failStep_of_writerMove hm (m.files s.disk), by simp⟩
      | _ => simp [hs, Status.move] at hm
  | compactorFail late =>
      cases hs : s.status with
      | running p =>
          rw [hs] at hm
          exact ⟨p.failStep_of_compactorMove hm (m.files s.disk), by simp⟩
      | _ => simp [hs, Status.move] at hm
  | _ => simp [Action.noFailure] at ha

namespace Process

/-- What a failing step of the writer can be: the call it was about to make, if it took effect, and
where it leaves the process. -/
inductive WriterFail (p : Process) : Option DbSyscall → Status → List Call → Prop where
  | append {op : Op} {rest : Bytes} {c : Option DbSyscall} :
      p.writer = .appending op rest → c = none ∨ c = some (.fsync .walLog) →
      WriterFail p c (.running { p with writer := .idle }) [⟨op, .threw false⟩]
  | flush {op : Op} {file : FileWrite} {c : Option DbSyscall} :
      p.writer = .flushing op file →
      c = none ∨ c = (file.move p.db.nextSstableNumber 0).map Prod.fst →
      WriterFail p c (.running { p with writer := .idle }) [⟨op, .threw true⟩]
  | reset {op : Op} {c : Option DbSyscall} :
      p.writer = .resetting op → c = none ∨ c = some (.ftruncate .walLog 0) →
      WriterFail p c (.running { p with writer := .idle }) [⟨op, .threw true⟩]

theorem writerFail_of_move {p : Process} {late : Bool} {m : Move}
    (h : p.writerFailMove late = some m) (disk : DbDisk) :
  p.WriterFail m.syscall (m.next disk).1 (m.next disk).2
  := by
  cases hw : p.writer with
  | idle => simp [writerFailMove, hw] at h
  | appending op rest =>
      cases rest with
      | nil =>
          simp only [writerFailMove, hw, Option.some.injEq] at h
          subst h
          apply WriterFail.append hw
          cases late with
          | false => exact Or.inl rfl
          | true => exact Or.inr rfl
      | cons b bs =>
          simp only [writerFailMove, hw, Option.some.injEq] at h
          subst h
          exact .append hw (Or.inl rfl)
  | applying op => simp [writerFailMove, hw] at h
  | flushing op file =>
      simp only [writerFailMove, hw, Option.some.injEq] at h
      subst h
      apply WriterFail.flush hw
      cases late with
      | false => exact Or.inl rfl
      | true => exact Or.inr rfl
  | resetting op =>
      simp only [writerFailMove, hw, Option.some.injEq] at h
      subst h
      apply WriterFail.reset hw
      cases late with
      | false => exact Or.inl rfl
      | true => exact Or.inr rfl

/-- What a failing step of the compaction thread can be. -/
inductive CompactorFail (p : Process) : Option DbSyscall → Status → List Call → Prop where
  | write {toCompact : List SSTableReader} {merged : EntryMap} {n : ℕ} {file : FileWrite}
      {c : Option DbSyscall} :
      p.compactor = .writing toCompact merged n file →
      c = none ∨ c = (file.move n 0).map Prod.fst →
      CompactorFail p c .down p.interrupted
  | unlink {r : SSTableReader} {old : List SSTableReader} :
      p.compactor = .deleting (r :: old) →
      CompactorFail p none (.running { p with compactor := .deleting old }) []

theorem compactorFail_of_move {p : Process} {late : Bool} {m : Move}
    (h : p.compactorFailMove late = some m) (disk : DbDisk) :
  p.CompactorFail m.syscall (m.next disk).1 (m.next disk).2
  := by
  rw [compactorFailMove] at h
  split at h
  · rename_i hc
    obtain rfl := Option.some.inj h
    apply CompactorFail.write hc
    cases late with
    | false => exact Or.inl rfl
    | true => exact Or.inr rfl
  · rename_i hc
    obtain rfl := Option.some.inj h
    exact .unlink hc
  · simp at h

end Process

/-- The writer is in `Append`, at a write or at the `fsync`. -/
def State.InAppend (s : State) : Prop :=
  ∃ q op rest, s.status = .running q ∧ q.writer = .appending op rest

/-- A step of the process, in which a system call may fail. -/
inductive Status.AnyStep (disk : DbDisk) :
    Status → Action → Option DbSyscall → Status → List Call → Prop where
  | succeeds {status status' : Status} {a : Action} {c : Option DbSyscall} {calls : List Call} :
      Status.Step disk status a c status' calls → AnyStep disk status a c status' calls
  | keepLeftover {thr : UInt64} {trig n : ℕ} {leftover : List ℕ} :
      AnyStep disk (.opening (.cleaning thr trig (n :: leftover))) .openerFail none
        (.opening (.cleaning thr trig leftover)) []
  | openerFail {o : Opener} : AnyStep disk (.opening o) .openerFail none (.failed .io) []
  | writerFail {p : Process} {late : Bool} {c : Option DbSyscall} {status : Status}
      {calls : List Call} :
      p.WriterFail c status calls → AnyStep disk (.running p) (.writerFail late) c status calls
  | compactorFail {p : Process} {late : Bool} {c : Option DbSyscall} {status : Status}
      {calls : List Call} :
      p.CompactorFail c status calls →
      AnyStep disk (.running p) (.compactorFail late) c status calls

theorem Opener.anyStep_of_move {o : Opener} {m : Move} (h : o.failMove = some m) (disk : DbDisk) :
  Status.AnyStep disk (.opening o) .openerFail m.syscall (m.next disk).1 (m.next disk).2
  := by
  cases o with
  | cleaning thr trig leftover =>
      cases leftover with
      | nil =>
          obtain rfl := Option.some.inj h
          exact .openerFail
      | cons n leftover =>
          obtain rfl := Option.some.inj h
          exact .keepLeftover
  | _ =>
      obtain rfl := Option.some.inj h
      exact .openerFail

/-- Every step of the machine is one of these. -/
theorem step_any_cases {s t : State} {a : Action} (h : step s a = some t) :
  ∃ c calls, Status.AnyStep t.disk s.status a c t.status calls
    ∧ t.disk = Syscall.execOption c s.disk ∧ t.calls = s.calls ++ calls
  := by
  by_cases ha : a.noFailure
  · obtain ⟨c, calls, hstatus, hdisk, hcalls⟩ := step_cases h ha
    exact ⟨c, calls, .succeeds hstatus, hdisk, hcalls⟩
  · obtain ⟨m, hm, rfl⟩ := Option.map_eq_some_iff.mp h
    refine ⟨m.syscall, (m.next (m.files s.disk)).2, ?_, rfl, rfl⟩
    cases hs : s.status with
    | opening o =>
        rw [hs] at hm
        cases a with
        | openerFail => exact Opener.anyStep_of_move hm (m.files s.disk)
        | _ => simp [Status.move, Action.noFailure] at hm ha
    | running p =>
        rw [hs] at hm
        cases a with
        | writerFail late => exact .writerFail (Process.writerFail_of_move hm (m.files s.disk))
        | compactorFail late =>
            exact .compactorFail (Process.compactorFail_of_move hm (m.files s.disk))
        | _ => simp [Status.move, Action.noFailure] at hm ha
    | _ =>
        rw [hs] at hm
        cases a with
        | _ => simp [Status.move, Action.noFailure] at hm ha

end TinyLsm
