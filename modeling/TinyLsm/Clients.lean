import TinyLsm.Process
import TinyLsm.Reading
import TinyLsm.Library.Linearization
import TinyLsm.Library.SharedMutex

/-!
# Clients

Any number of threads that call one open database, and the mutex they meet at.  `put` and `remove`
hold `mutex_` alone for their whole call, `get` and `scan` share it for theirs, and the compaction
thread takes it for its snapshot (shared), for the number it reserves and for the swap (alone).  A
read is not one step here: `get` looks at one table of `sstables_` after the other and `scan` merges
one after the other, and each of these steps reads the members as they are at that moment.

The steps of a writer and of the compaction thread are those of the process; here a step inside a
critical section also needs the mutex in the mode of that section.
-/

namespace TinyLsm

open Linearization SharedMutex

/-- A call of the interface `KVStore`. -/
inductive Request where
  | write (op : Op)
  | get (key : Bytes)
  | scan (start stop : Bytes)
deriving DecidableEq, Repr

inductive Answer where
  | written
  | value (value : Option Bytes)
  | pairs (pairs : List (Bytes × Bytes))
  | threw
deriving DecidableEq, Repr

/-- How the call holds `mutex_`. -/
def Request.mode : Request → Mode
  | write _ => .alone
  | get _ => .shared
  | scan _ _ => .shared

/-- Keys and values that are written are shorter than 2^32 bytes. -/
def Request.InRange : Request → Prop
  | write op => op.InRange
  | get _ => True
  | scan _ _ => True

instance (r : Request) : Decidable r.InRange :=
  match r with
  | .write op => inferInstanceAs (Decidable op.record.InRange)
  | .get _ => inferInstanceAs (Decidable True)
  | .scan _ _ => inferInstanceAs (Decidable True)

/-- What a call of the abstract map may answer, and the map it leaves.  A call that throws has
written or has not. -/
def Request.Allows (r : Request) (a : Answer) (m m' : Bytes → Option Bytes) : Prop :=
  match r, a with
  | write op, .written => m' = op.apply m
  | write op, .threw => m' = m ∨ m' = op.apply m
  | get key, .value value => value = m key ∧ m' = m
  | scan start stop, .pairs pairs => IsScan m start stop pairs ∧ m' = m
  | _, _ => False

def Outcome.answer : Outcome → Answer
  | returned => .written
  | threw _ => .threw
  | interrupted => .threw

/-! ### Reads -/

/-- Where a thread in `get` or `scan` stands. -/
inductive Read where
  /-- Before the MemTable is searched. -/
  | finding (key : Bytes)
  /-- In the loop of `get`, with this many tables still to be searched. -/
  | searching (key : Bytes) (remaining : ℕ)
  /-- In the loop of `scan`, before the table at this position. -/
  | merging (start stop : Bytes) (next : ℕ) (merged : EntryMap)

namespace Read

/-- The call a read belongs to. -/
def request : Read → Request
  | finding key => .get key
  | searching key _ => .get key
  | merging start stop _ _ => .scan start stop

/-- The next step of a read on the members as they are: where it leaves the read, or its answer.
There is none past the end of `sstables_`. -/
def move (db : Database) : Read → Option (Read ⊕ Answer)
  | finding key =>
      match db.memtable.find key with
      | some entry => some (.inr (.value entry.live))
      | none => some (.inl (.searching key db.sstables.length))
  | searching _ 0 => some (.inr (.value none))
  | searching key (n + 1) =>
      match db.sstables[n]? with
      | none => none
      | some r =>
          match r.find key with
          | .error _ => some (.inr .threw)
          | .ok (some entry) => some (.inr (.value entry.live))
          | .ok none => some (.inl (.searching key n))
  | merging start stop next merged =>
      match db.sstables[next]? with
      | none =>
          some (.inr (.pairs (EntryMap.livePairs
            (merged.overwrite (db.memtable.entries.range start stop)))))
      | some r =>
          match r.scanRaw start stop with
          | .error _ => some (.inr .threw)
          | .ok es => some (.inl (.merging start stop (next + 1) (merged.overwrite es)))

end Read

/-! ### Threads -/

/-- Where a client stands. -/
inductive Client where
  | idle
  /-- Before it has the mutex. -/
  | locking (request : Request)
  | reading (read : Read)
  /-- In `put` or `remove`; the writer of the process says where. -/
  | writing
  | unlocking (mode : Mode) (answer : Answer)
  | returning (answer : Answer)

/-- How the thread holds the mutex. -/
def Client.mode : Client → Mode
  | idle => .free
  | locking _ => .free
  | reading _ => .shared
  | writing => .alone
  | unlocking mode _ => mode
  | returning _ => .free

/-- The mode in which the compaction thread has to hold the mutex for its next step. -/
def Compactor.mode : Compactor → Mode
  | started => .shared
  | allocating _ _ => .alone
  | swapping _ _ => .alone
  | _ => .free

/-- The clients of a process.  The mutex is held by clients and by the compaction thread, which is
`none`. -/
structure Clients (ι : Type*) where
  state : State
  mutex : SharedMutex (Option ι)
  threads : ι → Client
  history : List (Event ι Request Answer)

inductive ClientAction (ι : Type*) where
  | invoke (t : ι) (request : Request)
  | lock (t : ι)
  | read (t : ι)
  | write (t : ι) (count : ℕ)
  | writeFail (t : ι) (late : Bool)
  | unlock (t : ι)
  | respond (t : ι)
  | lockCompactor
  | compactor (count : ℕ)
  | compactorFail (late : Bool)
  | unlockCompactor
  | kill

namespace Clients

variable {ι : Type*}

/-- A process that nobody has called yet. -/
def init (s : State) : Clients ι :=
  ⟨s, .init, fun _ => .idle, []⟩

variable [DecidableEq ι]

/-- The step of the process with a step of the thread in `put` or `remove`, which has its answer when
the call has ended. -/
def written (c : Clients ι) (t : ι) (s : State) : Clients ι :=
  match s.calls.drop c.state.calls.length with
  | [] => { c with state := s }
  | call :: _ =>
      { c with
        state := s
        threads := Function.update c.threads t (.unlocking .alone call.outcome.answer) }

@[simp]
theorem state_written (c : Clients ι) (t : ι) (s : State) :
  (c.written t s).state = s
  := by
  rw [written]
  split
  · rfl
  · rfl

/-- The thread has the mutex. -/
def locked (c : Clients ι) (t : ι) (mutex : SharedMutex (Option ι)) :
    Request → Option (Clients ι)
  | .write op =>
      (TinyLsm.step c.state (.call op)).map (fun s =>
        { c with
          state := s
          mutex := mutex
          threads := Function.update c.threads t .writing })
  | .get key =>
      some { c with
        mutex := mutex
        threads := Function.update c.threads t (.reading (.finding key)) }
  | .scan start stop =>
      some { c with
        mutex := mutex
        threads := Function.update c.threads t
          (.reading (.merging start stop 0 OrderedMap.empty)) }

/-- A step while the process runs. -/
def move (c : Clients ι) (p : Process) : ClientAction ι → Option (Clients ι)
  | .invoke t request =>
      match c.threads t with
      | .idle =>
          some { c with
            threads := Function.update c.threads t (.locking request)
            history := c.history ++ [.invoke t request] }
      | _ => none
  | .lock t =>
      match c.threads t with
      | .locking request =>
          (c.mutex.acquire (some t) request.mode).bind (fun mutex => c.locked t mutex request)
      | _ => none
  | .read t =>
      match c.threads t with
      | .reading read =>
          (read.move p.db).map (fun
            | .inl read' => { c with threads := Function.update c.threads t (.reading read') }
            | .inr answer =>
                { c with threads := Function.update c.threads t (.unlocking .shared answer) })
      | _ => none
  | .write t count =>
      match c.threads t with
      | .writing => (TinyLsm.step c.state (.writer count)).map (c.written t)
      | _ => none
  | .writeFail t late =>
      match c.threads t with
      | .writing => (TinyLsm.step c.state (.writerFail late)).map (c.written t)
      | _ => none
  | .unlock t =>
      match c.threads t with
      | .unlocking mode answer =>
          (c.mutex.release (some t) mode).map (fun mutex =>
            { c with
              mutex := mutex
              threads := Function.update c.threads t (.returning answer) })
      | _ => none
  | .respond t =>
      match c.threads t with
      | .returning answer =>
          some { c with
            threads := Function.update c.threads t .idle
            history := c.history ++ [.respond t answer] }
      | _ => none
  | .lockCompactor =>
      (c.mutex.acquire none p.compactor.mode).map (fun mutex => { c with mutex := mutex })
  | .compactor count =>
      if c.mutex.mode none = p.compactor.mode then
        (TinyLsm.step c.state (.compactor count)).map (fun s => { c with state := s })
      else none
  | .compactorFail late =>
      if c.mutex.mode none = p.compactor.mode then
        (TinyLsm.step c.state (.compactorFail late)).map (fun s => { c with state := s })
      else none
  | .unlockCompactor =>
      if p.compactor.mode = .free then
        (c.mutex.release none (c.mutex.mode none)).map (fun mutex => { c with mutex := mutex })
      else none
  | .kill => (TinyLsm.step c.state .kill).map (fun s => { c with state := s })

/-- One step of the clients and their process; after the end of the process there is none. -/
def step (c : Clients ι) (a : ClientAction ι) : Option (Clients ι) :=
  match c.state.status with
  | .running p => c.move p a
  | _ => none

end Clients

/-- What is written fits the fields of a record. -/
def ClientAction.InRange {ι : Type*} : ClientAction ι → Prop
  | invoke _ request => request.InRange
  | _ => True

instance {ι : Type*} (a : ClientAction ι) : Decidable a.InRange :=
  match a with
  | .invoke _ request => inferInstanceAs (Decidable request.InRange)
  | .lock _ => inferInstanceAs (Decidable True)
  | .read _ => inferInstanceAs (Decidable True)
  | .write _ _ => inferInstanceAs (Decidable True)
  | .writeFail _ _ => inferInstanceAs (Decidable True)
  | .unlock _ => inferInstanceAs (Decidable True)
  | .respond _ => inferInstanceAs (Decidable True)
  | .lockCompactor => inferInstanceAs (Decidable True)
  | .compactor _ => inferInstanceAs (Decidable True)
  | .compactorFail _ => inferInstanceAs (Decidable True)
  | .unlockCompactor => inferInstanceAs (Decidable True)
  | .kill => inferInstanceAs (Decidable True)

end TinyLsm
