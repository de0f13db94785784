import TinyLsm.Database
import TinyLsm.Library.Transition

/-!
# Processes

The database process as a machine that moves from one system call to the next.  A client
inside `put` or `remove` holds `mutex_`, so there is one writer, and the background thread
is the one compactor; their steps interleave freely, except that the compactor takes the
mutex for its snapshot, for the number it reserves and for the swap.  The opener is the
constructor.  A lookup is one step under the lock and is not part of the machine: it is
`Database.get` or `Database.scan` in a state whose writer is idle.

A move is the system call a step makes, if any, and what the process does next, which may
depend on the files it then sees.  An action resolves what is left open: the calls of the
clients, how much of a buffer `write` delivers, which call fails, the order of a directory
listing, and the kills.

Data that does not fit in a file cannot be written: `WriteSSTable` then has no move but the
failing one.
-/

namespace TinyLsm

open FileSystem

/-- Where a call of `WriteSSTable` stands. -/
inductive FileWrite where
  | creating (entries : EntryMap)
  /-- With the bytes still to be written; then comes the `fsync`. -/
  | writing (rest : Bytes)
  /-- Before the rename. -/
  | synced

/-- Where the thread in `put` or `remove` stands. -/
inductive Writer where
  | idle
  /-- In `Append`, with the bytes still to be written; then comes the `fsync`. -/
  | appending (op : Op) (rest : Bytes)
  /-- The record is durable, and the MemTable is to be updated. -/
  | applying (op : Op)
  /-- In `Flush`, which writes the next table. -/
  | flushing (op : Op) (file : FileWrite)
  /-- In `Flush`, before `Reset`. -/
  | resetting (op : Op)

/-- The operation of the call in progress. -/
def Writer.operation : Writer → Option Op
  | idle => none
  | appending op _ => some op
  | applying op => some op
  | flushing op _ => some op
  | resetting op => some op

/-- Where the compaction thread stands. -/
inductive Compactor where
  | waiting
  /-- Before the snapshot. -/
  | started
  | merging (toCompact : List SSTableReader)
  /-- The tombstones are dropped; before the number is reserved. -/
  | allocating (toCompact : List SSTableReader) (merged : EntryMap)
  | writing (toCompact : List SSTableReader) (merged : EntryMap) (number : ℕ) (file : FileWrite)
  | swapping (toCompact : List SSTableReader) (compacted : SSTableReader)
  /-- In the deletion loop, with the old tables whose paths are still in `old_paths`. -/
  | deleting (old : List SSTableReader)
  | finishing

/-- Where the constructor stands. -/
inductive Opener where
  /-- The leftover temporary files that the directory listing still has to return. -/
  | cleaning (flushThresholdBytes : UInt64) (compactionTriggerCount : ℕ) (leftover : List ℕ)
  | creatingLog (db : Database)
  | replaying (db : Database)
  | truncating (db : Database) (validEnd : ℕ)

/-- A process whose constructor has returned. -/
structure Process where
  db : Database
  writer : Writer
  compactor : Compactor

/-- The process, if there is one. -/
inductive Status where
  | down
  /-- The constructor has thrown. -/
  | failed (error : StorageError)
  | opening (opener : Opener)
  | running (process : Process)

/-- The files, the process, and the calls made so far. -/
structure State where
  disk : DbDisk
  status : Status
  calls : List Call

inductive Action where
  | start (flushThresholdBytes : UInt64) (compactionTriggerCount : ℕ)
  /-- The constructor moves; `choice` picks the next leftover file of the listing. -/
  | opener (choice : ℕ)
  | openerFail
  | call (op : Op)
  /-- The writer moves; a `write` delivers `count` bytes. -/
  | writer (count : ℕ)
  /-- The writer's system call fails, after taking effect if `late`. -/
  | writerFail (late : Bool)
  | compactor (count : ℕ)
  | compactorFail (late : Bool)
  /-- The destructor, which returns when the compaction thread has. -/
  | close
  | kill

/-- A system call and what follows it. -/
structure Move where
  syscall : Option DbSyscall
  next : DbDisk → Status × List Call

namespace Move

/-- A move without a system call and without a call that ends. -/
def silent (status : Status) : Move :=
  ⟨none, fun _ => (status, [])⟩

/-- The files after the call of a move. -/
def files (m : Move) (disk : DbDisk) : DbDisk :=
  Syscall.execOption m.syscall disk

end Move

/-! ### WriteSSTable -/

/-- The next call of `WriteSSTable` on the table `number`, and where it leaves the write:
nowhere after the rename. -/
def FileWrite.move (file : FileWrite) (number count : ℕ) :
    Option (DbSyscall × Option FileWrite) :=
  match file with
  | creating entries =>
      match writeSSTable entries with
      | .error _ => none
      | .ok contents => some (.createTrunc (.tmp number), some (.writing contents))
  | writing [] => some (.fsync (.tmp number), some .synced)
  | writing (b :: bs) =>
      if 0 < count ∧ count ≤ (b :: bs).length then
        some (.append (.tmp number) ((b :: bs).take count), some (.writing ((b :: bs).drop count)))
      else none
  | synced => some (.rename (.tmp number) (.sst number), none)

/-! ### Writers -/

namespace Process

/-- The call of the writer has returned. -/
def returned (p : Process) (op : Op) : Status × List Call :=
  (.running { p with writer := .idle }, [⟨op, .returned⟩])

/-- The call of the writer has thrown. -/
def threw (p : Process) (op : Op) (updated : Bool) : Status × List Call :=
  (.running { p with writer := .idle }, [⟨op, .threw updated⟩])

/-- The end of `put` or `remove`, once the record is durable: the MemTable is updated, and
`MaybeFlush` starts a flush or returns. -/
def applied (p : Process) (op : Op) : Status × List Call :=
  let p' := { p with db.memtable := p.db.memtable.apply op }
  if p'.db.needsFlush then
    (.running { p' with writer := .flushing op (.creating p'.db.memtable.entries) }, [])
  else p'.returned op

/-- The middle of `Flush`, once the table is renamed. -/
def tableWritten (p : Process) (op : Op) (disk : DbDisk) : Status × List Call :=
  match openSSTable disk p.db.nextSstableNumber with
  | .error _ => p.threw op true
  | .ok r => (.running { p with db := p.db.pushTable r, writer := .resetting op }, [])

/-- The next move of the writer. -/
def writerMove (p : Process) (count : ℕ) : Option Move :=
  match p.writer with
  | .idle => none
  | .appending op [] =>
      some ⟨some (.fsync .walLog), fun _ => (.running { p with writer := .applying op }, [])⟩
  | .appending op (b :: bs) =>
      if 0 < count ∧ count ≤ (b :: bs).length then
        some ⟨some (.append .walLog ((b :: bs).take count)),
          fun _ => (.running { p with writer := .appending op ((b :: bs).drop count) }, [])⟩
      else none
  | .applying op => some ⟨none, fun _ => p.applied op⟩
  | .flushing op file =>
      match file.move p.db.nextSstableNumber count with
      | none => none
      | some (c, some file') =>
          some ⟨some c, fun _ => (.running { p with writer := .flushing op file' }, [])⟩
      | some (c, none) => some ⟨some c, fun disk => p.tableWritten op disk⟩
  | .resetting op =>
      some ⟨some (.ftruncate .walLog 0), fun _ => { p with db := p.db.clearMemtable }.returned op⟩

/-- The next system call of the writer fails, and `put` or `remove` throws. -/
def writerFailMove (p : Process) (late : Bool) : Option Move :=
  match p.writer with
  | .idle => none
  | .appending op [] =>
      some ⟨if late then some (.fsync .walLog) else none, fun _ => p.threw op false⟩
  | .appending op (_ :: _) => some ⟨none, fun _ => p.threw op false⟩
  | .applying _ => none
  | .flushing op file =>
      some ⟨if late then (file.move p.db.nextSstableNumber 0).map Prod.fst else none,
        fun _ => p.threw op true⟩
  | .resetting op =>
      some ⟨if late then some (.ftruncate .walLog 0) else none, fun _ => p.threw op true⟩

/-! ### The compaction thread -/

/-- The members are free to be locked: no writer holds `mutex_`. -/
def unlocked (p : Process) : Bool :=
  match p.writer with
  | .idle => true
  | _ => false

/-- The calls the end of the process cuts short. -/
def interrupted (p : Process) : List Call :=
  match p.writer with
  | .idle => []
  | .appending op _ => [⟨op, .interrupted⟩]
  | .applying op => [⟨op, .interrupted⟩]
  | .flushing op _ => [⟨op, .interrupted⟩]
  | .resetting op => [⟨op, .interrupted⟩]

/-- An exception leaves the compaction thread, which ends the process. -/
def terminated (p : Process) : Status × List Call :=
  (.down, p.interrupted)

/-- The compacted table is renamed and gets its reader. -/
def compactedWritten (p : Process) (toCompact : List SSTableReader) (number : ℕ)
    (disk : DbDisk) : Status × List Call :=
  match openSSTable disk number with
  | .error _ => p.terminated
  | .ok r => (.running { p with compactor := .swapping toCompact r }, [])

/-- The next move of the compaction thread. -/
def compactorMove (p : Process) (count : ℕ) : Option Move :=
  match p.compactor with
  | .waiting =>
      if p.db.compactionRequested then
        some (.silent (.running { p with
          db := { p.db with compactionRequested := false, compactionRunning := true }
          compactor := .started }))
      else none
  | .started =>
      if p.unlocked then
        if p.db.sstables.length < 2 then
          some (.silent (.running { p with compactor := .finishing }))
        else some (.silent (.running { p with compactor := .merging p.db.sstables }))
      else none
  | .merging toCompact =>
      match Database.compactedEntries toCompact with
      | .error _ => some ⟨none, fun _ => p.terminated⟩
      | .ok merged => some (.silent (.running { p with compactor := .allocating toCompact merged }))
  | .allocating toCompact merged =>
      if p.unlocked then
        some (.silent (.running { p with
          db := { p.db with nextSstableNumber := p.db.nextSstableNumber + 1 }
          compactor := .writing toCompact merged p.db.nextSstableNumber (.creating merged) }))
      else none
  | .writing toCompact merged number file =>
      match file.move number count with
      | none => none
      | some (c, some file') =>
          some ⟨some c, fun _ =>
            (.running { p with compactor := .writing toCompact merged number file' }, [])⟩
      | some (c, none) => some ⟨some c, fun disk => p.compactedWritten toCompact number disk⟩
  | .swapping toCompact compacted =>
      if p.unlocked then
        some (.silent (.running { p with
          db := p.db.swapIn compacted toCompact.length
          compactor := .deleting (p.db.sstables.take toCompact.length) }))
      else none
  | .deleting [] => some (.silent (.running { p with compactor := .finishing }))
  | .deleting (r :: old) =>
      some ⟨some (.unlink (.sst r.path)), fun _ =>
        (.running { p with compactor := .deleting old }, [])⟩
  | .finishing =>
      some (.silent (.running { p with
        db := { p.db with compactionRunning := false }
        compactor := .waiting }))

/-- The next system call of the compaction thread fails.  The deletion loop goes on with
the next file. -/
def compactorFailMove (p : Process) (late : Bool) : Option Move :=
  match p.compactor with
  | .writing _ _ number file =>
      some ⟨if late then (file.move number 0).map Prod.fst else none, fun _ => p.terminated⟩
  | .deleting (_ :: old) =>
      some (.silent (.running { p with compactor := .deleting old }))
  | _ => none

/-- The destructor: no call is going on, and the compaction thread has returned. -/
def closable (p : Process) : Bool :=
  match p.compactor with
  | .waiting => p.unlocked
  | _ => false

end Process

/-! ### The constructor -/

namespace Opener

/-- A process whose constructor has just returned. -/
def launched (db : Database) : Status × List Call :=
  (.running ⟨db, .idle, .waiting⟩, [])

/-- The SSTables are opened, oldest first. -/
def discovering (flushThresholdBytes : UInt64) (compactionTriggerCount : ℕ) (disk : DbDisk) :
    Status × List Call :=
  match Database.discover flushThresholdBytes compactionTriggerCount disk with
  | .error e => (.failed e, [])
  | .ok db => (.opening (.creatingLog db), [])

/-- The log is read and replayed. -/
def replayed (db : Database) (disk : DbDisk) : Status × List Call :=
  let log := (disk.find? .walLog).getD []
  let validEnd := (replayLog log).2
  if validEnd < log.length then (.opening (.truncating (db.replay log) validEnd), [])
  else launched (db.replay log)

/-- The next move of the constructor. -/
def move (o : Opener) (choice : ℕ) : Option Move :=
  match o with
  | cleaning thr trig [] => some ⟨none, discovering thr trig⟩
  | cleaning thr trig (n :: ns) =>
      match (n :: ns)[choice]? with
      | none => none
      | some m =>
          some ⟨some (.unlink (.tmp m)),
            fun _ => (.opening (.cleaning thr trig ((n :: ns).eraseIdx choice)), [])⟩
  | creatingLog db =>
      some ⟨some (.create .walLog), fun _ => (.opening (.replaying db), [])⟩
  | replaying db => some ⟨none, replayed db⟩
  | truncating db validEnd =>
      some ⟨some (.ftruncate .walLog validEnd), fun _ => launched db⟩

/-- A system call of the constructor fails.  The error of a removal is ignored. -/
def failMove (o : Opener) : Option Move :=
  match o with
  | cleaning thr trig (_ :: ns) => some (.silent (.opening (.cleaning thr trig ns)))
  | _ => some (.silent (.failed .io))

end Opener

/-! ### The machine -/

/-- The move of the process an action stands for. -/
def Status.move (status : Status) (a : Action) : Option Move :=
  match status, a with
  | .down, .start thr trig =>
      some ⟨none, fun disk => (.opening (.cleaning thr trig (tmpNumbers disk)), [])⟩
  | .failed _, .start thr trig =>
      some ⟨none, fun disk => (.opening (.cleaning thr trig (tmpNumbers disk)), [])⟩
  | .opening o, .opener choice => o.move choice
  | .opening o, .openerFail => o.failMove
  | .opening _, .kill => some (.silent .down)
  | .running p, .call op =>
      match p.writer with
      | .idle => some (.silent (.running { p with writer := .appending op op.encode }))
      | _ => none
  | .running p, .writer count => p.writerMove count
  | .running p, .writerFail late => p.writerFailMove late
  | .running p, .compactor count => p.compactorMove count
  | .running p, .compactorFail late => p.compactorFailMove late
  | .running p, .close => if p.closable then some (.silent .down) else none
  | .running p, .kill => some ⟨none, fun _ => p.terminated⟩
  | _, _ => none

/-- The state after a move. -/
def State.after (s : State) (m : Move) : State :=
  let disk := m.files s.disk
  ⟨disk, (m.next disk).1, s.calls ++ (m.next disk).2⟩

/-- One step of the machine. -/
def step (s : State) (a : Action) : Option State :=
  (s.status.move a).map s.after

/-- An empty directory and no process. -/
def State.init : State :=
  ⟨OrderedMap.empty, .down, []⟩

/-- What happens without failing calls. -/
def Action.noFailure : Action → Bool
  | .openerFail => false
  | .writerFail _ => false
  | .compactorFail _ => false
  | _ => true

/-- The calls are made with keys and values shorter than 2^32 bytes. -/
def Action.InRange : Action → Prop
  | .call op => op.record.InRange
  | _ => True

instance (a : Action) : Decidable a.InRange :=
  match a with
  | .call op => inferInstanceAs (Decidable op.record.InRange)
  | .start _ _ | .opener _ | .openerFail | .writer _ | .writerFail _ | .compactor _
  | .compactorFail _ | .close | .kill => .isTrue trivial

end TinyLsm
