import TinyLsm.Clients
import TinyLsm.FailingRuns
import TinyLsm.Refinement

/-!
# Linearizability

The database is a linearizable map.  A read looks at the MemTable and at the tables one after the
other, and a write appends, syncs, updates and flushes, while other clients and the compaction thread
go on; but since each holds `mutex_` in its mode, every call can be taken to happen as a whole at one
moment (`history_linearizable`), whatever system calls fail and however the compaction thread moves
in between.  No client waits for ever for a mutex that nobody gives back (`exists_step_of_pending`).
-/

namespace TinyLsm

open Linearization SharedMutex Transition FileSystem Layers

/-! ### Reads -/

namespace Read

/-- The rest of the loop of `scan`, on members that stay as they are. -/
def scanFrom (db : Database) (start stop : Bytes) (next : ℕ) (merged : EntryMap) :
    Except StorageError (List (Bytes × Bytes)) := do
  let merged ← (db.sstables.drop next).foldlM
    (fun merged sstable => do .ok (merged.overwrite (← sstable.scanRaw start stop))) merged
  .ok (EntryMap.livePairs (merged.overwrite (db.memtable.entries.range start stop)))

/-- What is left of the read gives the answer of the whole call. -/
def Sees (db : Database) : Read → Prop
  | finding _ => True
  | searching key n =>
      n ≤ db.sstables.length
        ∧ Database.getFrom key (db.sstables.take n).reverse = db.get key
  | merging start stop next merged => scanFrom db start stop next merged = db.scan start stop

theorem scanFrom_zero (db : Database) (start stop : Bytes) :
  scanFrom db start stop 0 OrderedMap.empty = db.scan start stop
  := by
  rw [scanFrom, Database.scan, Database.scanMerged, List.drop_zero]
  cases db.sstables.foldlM
      (fun merged sstable => do .ok (merged.overwrite (← sstable.scanRaw start stop)))
      OrderedMap.empty with
  | error e => rfl
  | ok merged => rfl

/-- The members a read depends on. -/
theorem Sees.congr {db db' : Database} {read : Read} (h : read.Sees db)
    (hsst : db'.sstables = db.sstables) (hmem : db'.memtable = db.memtable) :
  read.Sees db'
  := by
  cases read with
  | finding key => trivial
  | searching key n =>
      simp only [Sees, Database.get, hsst, hmem] at h ⊢
      exact h
  | merging start stop next merged =>
      simp only [Sees, scanFrom, Database.scan, Database.scanMerged, hsst, hmem] at h ⊢
      exact h

variable {db : Database} {read read' : Read} {a : Answer}

/-- The table at the position the loop of `get` has reached is the next to be searched. -/
theorem getFrom_take_succ (key : Bytes) {sstables : List SSTableReader} {n : ℕ} {r : SSTableReader}
    (h : sstables[n]? = some r) :
  Database.getFrom key (sstables.take (n + 1)).reverse
    = Database.getFrom key (r :: (sstables.take n).reverse)
  := by
  rw [List.take_add_one, h, Option.toList_some, List.reverse_append, List.reverse_singleton,
    List.singleton_append]

/-- A step of a read leaves the answer of what is left. -/
theorem Sees.move (h : read.Sees db) (hmove : read.move db = some (.inl read')) :
  read'.Sees db ∧ read'.request = read.request
  := by
  cases read with
  | finding key =>
      simp only [Read.move] at hmove
      cases hfind : db.memtable.find key with
      | some entry => simp [hfind] at hmove
      | none =>
          simp only [hfind, Option.some.injEq, Sum.inl.injEq] at hmove
          subst hmove
          refine ⟨⟨le_refl _, ?_⟩, rfl⟩
          rw [List.take_length, Database.get, hfind]
  | searching key n =>
      obtain ⟨hle, hget⟩ := h
      cases n with
      | zero => simp [Read.move] at hmove
      | succ n =>
          simp only [Read.move] at hmove
          cases hr : db.sstables[n]? with
          | none => simp [hr] at hmove
          | some r =>
              rw [getFrom_take_succ key hr, Database.getFrom] at hget
              cases hfind : r.find key with
              | error e => simp [hr, hfind] at hmove
              | ok entry =>
                  cases entry with
                  | some entry => simp [hr, hfind] at hmove
                  | none =>
                      simp only [hr, hfind, Option.some.injEq, Sum.inl.injEq] at hmove
                      subst hmove
                      simp only [hfind, bind, Except.bind] at hget
                      exact ⟨⟨Nat.le_of_succ_le hle, hget⟩, rfl⟩
  | merging start stop next merged =>
      simp only [Sees, scanFrom] at h
      simp only [Read.move] at hmove
      cases hr : db.sstables[next]? with
      | none => simp [hr] at hmove
      | some r =>
          obtain ⟨hlt, hget⟩ := List.getElem?_eq_some_iff.mp hr
          rw [List.drop_eq_getElem_cons hlt, hget, List.foldlM_cons] at h
          cases hscan : r.scanRaw start stop with
          | error e => simp [hr, hscan] at hmove
          | ok es =>
              simp only [hr, hscan, Option.some.injEq, Sum.inl.injEq] at hmove
              subst hmove
              simp only [hscan, bind, Except.bind] at h
              exact ⟨h, rfl⟩

/-- The read has an answer at last, that of the whole call. -/
theorem Sees.answer (h : read.Sees db) (hvalid : ∀ r ∈ db.sstables, r.Valid)
    (hmove : read.move db = some (.inr a)) :
  read.request.Allows a db.view db.view
  := by
  have hkey := Database.get_eq_view hvalid
  cases read with
  | finding key =>
      simp only [Read.move] at hmove
      cases hfind : db.memtable.find key with
      | none => simp [hfind] at hmove
      | some entry =>
          simp only [hfind, Option.some.injEq, Sum.inr.injEq] at hmove
          subst hmove
          refine ⟨?_, rfl⟩
          have hget := hkey key
          simp only [Database.get, hfind, Except.ok.injEq] at hget
          exact hget
  | searching key n =>
      obtain ⟨hle, hget⟩ := h
      rw [hkey] at hget
      cases n with
      | zero =>
          simp only [Read.move, Option.some.injEq, Sum.inr.injEq] at hmove
          subst hmove
          simp only [List.take_zero, List.reverse_nil, Database.getFrom, Except.ok.injEq] at hget
          exact ⟨hget, rfl⟩
      | succ n =>
          simp only [Read.move] at hmove
          cases hr : db.sstables[n]? with
          | none => simp [hr] at hmove
          | some r =>
              rw [getFrom_take_succ key hr, Database.getFrom] at hget
              cases hfind : r.find key with
              | error e => simp [hfind, bind, Except.bind] at hget
              | ok entry =>
                  cases entry with
                  | none => simp [hr, hfind] at hmove
                  | some entry =>
                      simp only [hr, hfind, Option.some.injEq, Sum.inr.injEq] at hmove
                      subst hmove
                      simp only [hfind, bind, Except.bind, Except.ok.injEq] at hget
                      exact ⟨hget, rfl⟩
  | merging start stop next merged =>
      obtain ⟨pairs, hpairs, hscan⟩ := Database.scan_eq_view hvalid start stop
      simp only [Sees, scanFrom, hpairs] at h
      simp only [Read.move] at hmove
      cases hr : db.sstables[next]? with
      | none =>
          rw [List.drop_eq_nil_of_le (List.getElem?_eq_none_iff.mp hr)] at h
          simp only [List.foldlM_nil, pure, Except.pure, bind, Except.bind, Except.ok.injEq] at h
          simp only [hr, Option.some.injEq, Sum.inr.injEq] at hmove
          subst hmove
          rw [h]
          exact ⟨hscan, rfl⟩
      | some r =>
          obtain ⟨hlt, hget⟩ := List.getElem?_eq_some_iff.mp hr
          rw [List.drop_eq_getElem_cons hlt, hget, List.foldlM_cons] at h
          cases hraw : r.scanRaw start stop with
          | error e => simp [hraw, bind, Except.bind] at h
          | ok es => simp [hr, hraw] at hmove

/-- A read never runs past the end of `sstables_`. -/
theorem Sees.exists_move (h : read.Sees db) :
  ∃ x, read.move db = some x
  := by
  cases read with
  | finding key =>
      simp only [Read.move]
      cases db.memtable.find key with
      | some entry => exact ⟨_, rfl⟩
      | none => exact ⟨_, rfl⟩
  | searching key n =>
      cases n with
      | zero => exact ⟨_, rfl⟩
      | succ n =>
          obtain ⟨r, hr⟩ : ∃ r, db.sstables[n]? = some r :=
            ⟨_, List.getElem?_eq_getElem (Nat.lt_of_succ_le h.1)⟩
          simp only [Read.move, hr]
          cases r.find key with
          | error e => exact ⟨_, rfl⟩
          | ok entry =>
              cases entry with
              | some entry => exact ⟨_, rfl⟩
              | none => exact ⟨_, rfl⟩
  | merging start stop next merged =>
      simp only [Read.move]
      cases db.sstables[next]? with
      | none => exact ⟨_, rfl⟩
      | some r =>
          cases hraw : r.scanRaw start stop with
          | error e => exact ⟨.inr .threw, by simp [hraw]⟩
          | ok es => exact ⟨.inl (.merging start stop (next + 1) (merged.overwrite es)), by simp [hraw]⟩

end Read

/-! ### Writers and the compaction thread -/

/-- Where the call in progress has brought the map that it found: the operation is added with the
`fsync`. -/
def Writer.Adds (w : Writer) (m m' : Bytes → Option Bytes) : Prop :=
  match w with
  | idle => m' = m
  | appending _ _ => m' = m
  | applying op => m' = op.apply m
  | flushing op _ => m' = op.apply m
  | resetting op => m' = op.apply m

namespace Process

variable {p q : Process} {disk : DbDisk} {c : Option DbSyscall} {status : Status}
  {ended : List Call} {m m' : Bytes → Option Bytes}

/-- How the call of the writer goes on: it has not ended, or its answer is one the abstract map
allows. -/
def CallGoesOn (p q : Process) (ended : List Call) (m m' m'' : Bytes → Option Bytes) : Prop :=
  (ended = [] ∧ q.writer.operation = p.writer.operation ∧ q.writer ≠ .idle
      ∧ (p.writer.Adds m m' → q.writer.Adds m m''))
    ∨ ∃ op outcome, ended = [⟨op, outcome⟩] ∧ q.writer = .idle ∧ p.writer.operation = some op
      ∧ (p.writer.Adds m m' → (Request.write op).Allows outcome.answer m m'')

theorem WriterStep.callGoesOn (h : p.WriterStep disk c (.running q) ended) :
  CallGoesOn p q ended m m' (applyAll m' p.writer.complete)
  := by
  cases h with
  | @append op written rest hw hne =>
      have hrest : written ++ rest ≠ [] := fun hnil => hne (List.append_eq_nil_iff.mp hnil).1
      left
      rw [hw, Writer.complete_appending hrest]
      exact ⟨rfl, rfl, by simp, id⟩
  | sync hw =>
      left
      rw [hw]
      refine ⟨rfl, rfl, by simp, ?_⟩
      rintro rfl
      rfl
  | @apply op hw hflush =>
      right
      refine ⟨op, .returned, rfl, rfl, by rw [hw]; rfl, ?_⟩
      rw [hw]
      exact id
  | startFlush hw hflush =>
      left
      rw [hw]
      exact ⟨rfl, rfl, by simp, id⟩
  | write hw hfile =>
      left
      rw [hw]
      exact ⟨rfl, rfl, by simp, id⟩
  | rename hw hopen =>
      left
      rw [hw]
      exact ⟨rfl, rfl, by simp, id⟩
  | @reject op e hw hopen =>
      right
      refine ⟨op, .threw true, rfl, rfl, by rw [hw]; rfl, ?_⟩
      rw [hw]
      exact Or.inr
  | @reset op hw =>
      right
      refine ⟨op, .returned, rfl, rfl, by rw [hw]; rfl, ?_⟩
      rw [hw]
      exact id

theorem WriterFail.callGoesOn (h : p.WriterFail c (.running q) ended) :
  CallGoesOn p q ended m m' m'
  := by
  right
  cases h with
  | @append op rest _ hw hc =>
      refine ⟨op, .threw false, rfl, rfl, by rw [hw]; rfl, ?_⟩
      rw [hw]
      exact Or.inl
  | @flush op file _ hw hc =>
      refine ⟨op, .threw true, rfl, rfl, by rw [hw]; rfl, ?_⟩
      rw [hw]
      exact Or.inr
  | @reset op _ hw hc =>
      refine ⟨op, .threw true, rfl, rfl, by rw [hw]; rfl, ?_⟩
      rw [hw]
      exact Or.inr

/-- What a step of the compaction thread leaves to the clients: it changes the tables only in a
section that it holds the mutex alone for. -/
structure SparesClients (p q : Process) : Prop where
  writer : q.writer = p.writer
  memtable : q.db.memtable = p.db.memtable
  sstables : p.compactor.mode = .alone ∨ q.db.sstables = p.db.sstables

theorem SparesClients.refl (p : Process) :
  p.SparesClients p
  := ⟨rfl, rfl, Or.inr rfl⟩

theorem CompactorStep.sparesClients (h : p.CompactorStep disk c (.running q) ended) :
  p.SparesClients q
  := by
  cases h with
  | swap hc hw => exact ⟨rfl, rfl, Or.inl (by rw [hc]; rfl)⟩
  | _ => exact ⟨rfl, rfl, Or.inr rfl⟩

theorem CompactorFail.sparesClients (h : p.CompactorFail c (.running q) ended) :
  p.SparesClients q
  := by
  cases h with
  | unlink hc => exact ⟨rfl, rfl, Or.inr rfl⟩

/-- No critical section of the compaction thread follows another at once. -/
theorem CompactorStep.mode_eq_free (h : p.CompactorStep disk c (.running q) ended) :
  p.compactor.mode = .free ∨ q.compactor.mode = .free
  := by
  cases h with
  | consume hc hreq => exact Or.inl (by rw [hc]; rfl)
  | rename hc hopen => exact Or.inl (by rw [hc]; rfl)
  | merge hc hmerge => exact Or.inl (by rw [hc]; rfl)
  | _ => exact Or.inr rfl

theorem CompactorFail.mode_eq_free (h : p.CompactorFail c (.running q) ended) :
  p.compactor.mode = .free ∨ q.compactor.mode = .free
  := by
  cases h with
  | unlink hc => exact Or.inr rfl

end Process

/-- A step of the writer, whether or not its system call fails. -/
def Action.writes : Action → Bool
  | .writer _ => true
  | .writerFail _ => true
  | _ => false

/-- A step of the compaction thread, whether or not its system call fails. -/
def Action.compacts : Action → Bool
  | .compactor _ => true
  | .compactorFail _ => true
  | _ => false

namespace State

variable {s t : State} {a : Action} {p : Process} {m' : Bytes → Option Bytes}

/-- A call of `put` or `remove` begins. -/
theorem call_cases {op : Op} (hstep : step s (.call op) = some t) :
  ∃ p, s.status = .running p ∧ p.writer = .idle ∧ t.disk = s.disk
    ∧ t.status = .running { p with writer := .appending op op.encode }
  := by
  obtain ⟨c, ended, hmove, hdisk, -⟩ := step_cases hstep rfl
  generalize t.status = status at hmove ⊢
  generalize s.status = status' at hmove ⊢
  cases hmove with
  | call hw => exact ⟨_, rfl, hw, hdisk, rfl⟩

/-- A step of the writer of a running process. -/
theorem callGoesOn (hp : s.status = .running p) (hserving : p.Serving s.disk m')
    (hstep : step s a = some t) (ha : a.writes) :
  ∃ q ended m'', t.status = .running q ∧ q.compactor = p.compactor ∧ t.calls = s.calls ++ ended
    ∧ q.Serving t.disk m'' ∧ ∀ m, p.CallGoesOn q ended m m' m''
  := by
  obtain ⟨c, ended, hmove, hdisk, hcalls⟩ := step_any_cases hstep
  rw [hp] at hmove
  generalize hrun : t.status = status at hmove
  cases hmove with
  | succeeds hmove =>
      cases hmove with
      | writer hwriter =>
          obtain ⟨q, rfl, hcompactor, hserving'⟩ := hserving.writerStep hdisk hwriter
          exact ⟨q, ended, _, rfl, hcompactor, hcalls, hserving', fun m => hwriter.callGoesOn⟩
      | _ => simp [Action.writes] at ha
  | writerFail hfail =>
      obtain ⟨q, rfl, hcompactor, hserving'⟩ := hserving.writerFail hdisk hfail
      exact ⟨q, ended, _, rfl, hcompactor, hcalls, hserving', fun m => hfail.callGoesOn⟩
  | compactorFail hfail => simp [Action.writes] at ha

/-- A step of the compaction thread of a process that goes on. -/
theorem sparesClients {q : Process} (hp : s.status = .running p) (hq : t.status = .running q)
    (hstep : step s a = some t) (ha : a.compacts) :
  p.SparesClients q ∧ (p.compactor.mode = .free ∨ q.compactor.mode = .free)
    ∧ ∀ m', p.Serving s.disk m' → q.Serving t.disk m'
  := by
  obtain ⟨c, ended, hmove, hdisk, -⟩ := step_any_cases hstep
  rw [hp, hq] at hmove
  cases hmove with
  | succeeds hmove =>
      cases hmove with
      | compactor hcompactor =>
          exact ⟨hcompactor.sparesClients, hcompactor.mode_eq_free,
            fun m' hserving => hserving.compactorStep hdisk hcompactor rfl⟩
      | _ => simp [Action.compacts] at ha
  | compactorFail hfail =>
      exact ⟨hfail.sparesClients, hfail.mode_eq_free,
        fun m' hserving => hserving.compactorFail hdisk hfail rfl⟩
  | writerFail hfail => simp [Action.compacts] at ha

end State

/-! ### Clients -/

/-- What is to be said of a client whose call stands at this phase. -/
def Client.Follows (p : Process) : Client → Phase Request Answer → Prop
  | idle, phase => phase = .idle
  | locking request, phase => phase = .pending request ∧ request.InRange
  | reading read, phase => phase = .pending read.request ∧ read.Sees p.db
  | writing, phase => ∃ op, p.writer.operation = some op ∧ phase = .pending (.write op)
  | unlocking mode answer, phase => phase = .answered answer ∧ mode ≠ .free
  | returning answer, phase => phase = .answered answer

namespace Client

variable {p q : Process} {client : Client} {phase : Phase Request Answer}

/-- A client that does not hold the mutex does not depend on the members. -/
theorem Follows.of_free (h : client.Follows p phase) (hmode : client.mode = .free) :
  client.Follows q phase
  := by
  cases client with
  | reading read => simp [mode] at hmode
  | writing => simp [mode] at hmode
  | _ => exact h

theorem Follows.congr (h : client.Follows p phase)
    (hwriter : q.writer.operation = p.writer.operation) (hmem : q.db.memtable = p.db.memtable)
    (hsst : client.mode = .free ∨ q.db.sstables = p.db.sstables) :
  client.Follows q phase
  := by
  cases client with
  | reading read =>
      obtain hmode | hsst := hsst
      · simp [mode] at hmode
      · exact ⟨h.1, h.2.congr hsst hmem⟩
  | writing =>
      simp only [Follows, hwriter] at h ⊢
      exact h
  | _ => exact h

end Client

namespace Clients

variable {ι : Type*} [DecidableEq ι]

/-- The clients, the mutex and the process fit together: who holds the mutex stands where the mutex
is held, and the process serves the map after the calls that have taken effect. -/
structure Coherent (c : Clients ι) (p : Process) (m : Bytes → Option Bytes)
    (phase : ι → Phase Request Answer) : Prop where
  held : ∀ t, c.mutex.mode (some t) = (c.threads t).mode
  critical : c.mutex.mode none = .free ∨ p.compactor.mode = .free
    ∨ c.mutex.mode none = p.compactor.mode
  busy : p.writer = .idle ∨ ∃ t, c.threads t = .writing
  follows : ∀ t, (c.threads t).Follows p (phase t)
  serves : ∃ m', p.Serving c.state.disk m' ∧ p.writer.Adds m m'

/-- The history is one of calls that took effect one at a time, and a process that still runs serves
the map they have led to. -/
def Linear (m₀ : Bytes → Option Bytes) (c : Clients ι) : Prop :=
  ∃ m phase, Linearizes Request.Allows m₀ c.history m phase
    ∧ ∀ p, c.state.status = .running p → c.Coherent p m phase

variable {c c' : Clients ι} {p q : Process} {m m₀ : Bytes → Option Bytes}
  {phase : ι → Phase Request Answer} {t : ι}

/-- While a client shares the mutex, or nobody holds it, no call writes. -/
theorem Coherent.idle (h : c.Coherent p m phase) (hmode : ∀ t, (c.threads t).mode ≠ .alone) :
  p.writer = .idle
  := by
  obtain hidle | ⟨t, ht⟩ := h.busy
  · exact hidle
  · exact absurd (by rw [ht]; rfl) (hmode t)

/-- With a client that holds the mutex alone, no other holds it. -/
theorem Coherent.mode_eq_free (h : c.Coherent p m phase) (ht : (c.threads t).mode = .alone) {u : ι}
    (hne : u ≠ t) :
  (c.threads u).mode = .free
  := by
  rw [← h.held] at ht ⊢
  exact SharedMutex.mode_eq_free ht (by simpa using hne)

/-- While no call is in progress, the process serves the map the calls have led to. -/
theorem Coherent.view_eq (h : c.Coherent p m phase) (hidle : p.writer = .idle) :
  p.db.view = m
  := by
  obtain ⟨m', hserving, hadds⟩ := h.serves
  have hcounted := hserving.counted
  rw [hidle] at hcounted hadds
  exact hcounted.trans hadds

/-- Another position of one client. -/
theorem Coherent.setClient (h : c.Coherent p m phase) {client : Client}
    {phase' : Phase Request Answer} {history : List (Event ι Request Answer)}
    (hmode : client.mode = (c.threads t).mode) (hwriting : c.threads t ≠ .writing)
    (hclient : client.Follows p phase') :
  Coherent { c with threads := Function.update c.threads t client, history := history } p m
    (Function.update phase t phase')
  where
    held := by
      intro u
      dsimp only
      by_cases hu : u = t
      · rw [hu, Function.update_self, hmode, h.held]
      · rw [Function.update_of_ne hu, h.held]
    critical := h.critical
    busy := by
      obtain hidle | ⟨u, hu⟩ := h.busy
      · exact Or.inl hidle
      · right
        use u
        dsimp only
        rw [Function.update_of_ne (by rintro rfl; exact hwriting hu), hu]
    follows := by
      intro u
      dsimp only
      by_cases hu : u = t
      · rw [hu, Function.update_self, Function.update_self]
        exact hclient
      · rw [Function.update_of_ne hu, Function.update_of_ne hu]
        exact h.follows u
    serves := h.serves

/-- A client takes the mutex or gives it back. -/
theorem Coherent.setMutex (h : c.Coherent p m phase) {mutex : SharedMutex (Option ι)}
    {client : Client} {x : Mode} (hmutex : mutex.mode = Function.update c.mutex.mode (some t) x)
    (hmode : client.mode = x) (hwriting : c.threads t ≠ .writing)
    (hclient : client.Follows p (phase t)) :
  Coherent { c with mutex := mutex, threads := Function.update c.threads t client } p m phase
  where
    held := by
      intro u
      dsimp only
      rw [hmutex]
      by_cases hu : u = t
      · rw [hu, Function.update_self, Function.update_self, hmode]
      · rw [Function.update_of_ne hu, Function.update_of_ne (by simpa using hu), h.held]
    critical := by
      dsimp only
      rw [hmutex, Function.update_of_ne (by simp)]
      exact h.critical
    busy := by
      obtain hidle | ⟨u, hu⟩ := h.busy
      · exact Or.inl hidle
      · right
        use u
        dsimp only
        rw [Function.update_of_ne (by rintro rfl; exact hwriting hu), hu]
    follows := by
      intro u
      dsimp only
      by_cases hu : u = t
      · rw [hu, Function.update_self]
        exact hclient
      · rw [Function.update_of_ne hu]
        exact h.follows u
    serves := h.serves

/-- The compaction thread moves, or takes the mutex or gives it back. -/
theorem Coherent.setCompactor (h : c.Coherent p m phase) {s : State}
    {mutex : SharedMutex (Option ι)} {x : Mode}
    (hmutex : mutex.mode = Function.update c.mutex.mode none x) (hspares : p.SparesClients q)
    (hsst : q.db.sstables = p.db.sstables ∨ ∀ t, (c.threads t).mode = .free)
    (hcritical : x = .free ∨ q.compactor.mode = .free ∨ x = q.compactor.mode)
    (hserving : ∀ m', p.Serving c.state.disk m' → q.Serving s.disk m') :
  Coherent { c with state := s, mutex := mutex } q m phase
  where
    held := by
      intro u
      dsimp only
      rw [hmutex, Function.update_of_ne (by simp), h.held]
    critical := by
      dsimp only
      rw [hmutex, Function.update_self]
      exact hcritical
    busy := by
      rw [hspares.writer]
      exact h.busy
    follows := by
      intro u
      apply (h.follows u).congr (by rw [hspares.writer]) hspares.memtable
      obtain hsst | hfree := hsst
      · exact Or.inr hsst
      · exact Or.inl (hfree u)
    serves := by
      obtain ⟨m', hserves, hadds⟩ := h.serves
      refine ⟨m', hserving m' hserves, ?_⟩
      rw [hspares.writer]
      exact hadds

/-! ### Steps -/

/-- A step of the client in `put` or `remove`: its call goes on, or takes effect and ends. -/
theorem Coherent.written {s : State} {a : Action} (h : c.Coherent p m phase)
    (hlin : Linearizes Request.Allows m₀ c.history m phase) (ht : c.threads t = .writing)
    (hp : c.state.status = .running p) (hstep : TinyLsm.step c.state a = some s) (ha : a.writes) :
  (c.written t s).Linear m₀
  := by
  obtain ⟨m', hserving, hadds⟩ := h.serves
  obtain ⟨q, ended, m'', hs, hcompactor, hcalls, hserving', hgoes⟩ :=
    State.callGoesOn hp hserving hstep ha
  have hothers : ∀ u, u ≠ t → (c.threads u).mode = .free := fun u hu =>
    h.mode_eq_free (by rw [ht]; rfl) hu
  have hfollows := h.follows t
  rw [ht] at hfollows
  obtain ⟨op, hop, hpending⟩ := hfollows
  obtain ⟨rfl, hsame, hbusy, hadds'⟩ | ⟨op', outcome, rfl, hidle, hop', hallows⟩ := hgoes m
  · have hwritten : c.written t s = { c with state := s } := by
      simp [Clients.written, hcalls]
    rw [hwritten]
    refine ⟨m, phase, hlin, ?_⟩
    intro q' hq'
    obtain rfl : q = q' := by simpa [hs] using hq'
    refine ⟨h.held, ?_, Or.inr ⟨t, ht⟩, ?_, m'', hserving', hadds' hadds⟩
    · rw [hcompactor]
      exact h.critical
    · intro u
      by_cases hu : u = t
      · subst hu
        dsimp only
        rw [ht]
        exact ⟨op, hsame.trans hop, hpending⟩
      · exact (h.follows u).of_free (hothers u hu)
  · obtain rfl : op = op' := by simpa [hop] using hop'
    have hwritten : c.written t s = { c with
        state := s
        threads := Function.update c.threads t (.unlocking .alone outcome.answer) } := by
      simp [Clients.written, hcalls]
    rw [hwritten]
    refine ⟨m'', _, .effect outcome.answer hlin hpending (hallows hadds), ?_⟩
    intro q' hq'
    obtain rfl : q = q' := by simpa [hs] using hq'
    refine ⟨?_, ?_, Or.inl hidle, ?_, m'', hserving', by rw [hidle]; rfl⟩
    · intro u
      dsimp only
      by_cases hu : u = t
      · rw [hu, Function.update_self, h.held, ht]
        rfl
      · rw [Function.update_of_ne hu, h.held]
    · rw [hcompactor]
      exact h.critical
    · intro u
      dsimp only
      by_cases hu : u = t
      · rw [hu, Function.update_self, Function.update_self]
        exact ⟨rfl, by simp⟩
      · rw [Function.update_of_ne hu, Function.update_of_ne hu]
        exact (h.follows u).of_free (hothers u hu)

/-- A step of the compaction thread, which holds the mutex in the mode that the step needs. -/
theorem Coherent.compacted {s : State} {a : Action} (h : c.Coherent p m phase)
    (hlin : Linearizes Request.Allows m₀ c.history m phase)
    (hheld : c.mutex.mode none = p.compactor.mode) (hp : c.state.status = .running p)
    (hstep : TinyLsm.step c.state a = some s) (ha : a.compacts) :
  Linear m₀ { c with state := s }
  := by
  refine ⟨m, phase, hlin, ?_⟩
  intro q hq
  obtain ⟨hspares, hmode, hserving⟩ := State.sparesClients hp hq hstep ha
  apply h.setCompactor (x := c.mutex.mode none) (Function.update_eq_self _ _).symm hspares _ _
    hserving
  · obtain halone | hsst := hspares.sstables
    · right
      intro t
      rw [← h.held]
      exact SharedMutex.mode_eq_free (hheld.trans halone) (by simp)
    · exact Or.inl hsst
  · obtain hfree | hfree := hmode
    · exact Or.inl (hheld.trans hfree)
    · exact Or.inr (Or.inl hfree)

/-- The compaction thread takes the mutex or gives it back. -/
theorem Coherent.setHolder (h : c.Coherent p m phase) {mutex : SharedMutex (Option ι)} {x : Mode}
    (hmutex : mutex.mode = Function.update c.mutex.mode none x)
    (hcritical : x = .free ∨ p.compactor.mode = .free ∨ x = p.compactor.mode) :
  Coherent { c with mutex := mutex } p m phase
  := h.setCompactor hmutex (.refl p) (Or.inl rfl) hcritical (fun _ h => h)

theorem step_eq_move (hp : c.state.status = .running p) (a : ClientAction ι) :
  c.step a = c.move p a
  := by
  rw [step, hp]

/-- A client takes the mutex: nobody holds it in a way that excludes its call. -/
theorem Coherent.lock (h : c.Coherent p m phase) (hlin : Linearizes Request.Allows m₀ c.history m phase)
    (hp : c.state.status = .running p) (hstep : c.move p (.lock t) = some c') :
  c'.Linear m₀
  := by
  have hfollows := h.follows t
  simp only [move] at hstep
  cases ht : c.threads t with
  | locking request =>
      rw [ht] at hfollows
      obtain ⟨hpending, hin⟩ := hfollows
      simp only [ht] at hstep
      obtain ⟨mutex, hacquire, hlocked⟩ := Option.bind_eq_some_iff.mp hstep
      obtain ⟨hmutex, -, -, hall, -⟩ := SharedMutex.mode_acquire hacquire
      cases request with
      | write op =>
          have hfree : ∀ u, (c.threads u).mode = .free := by
            intro u
            rw [← h.held]
            exact hall rfl _
          simp only [locked] at hlocked
          obtain ⟨s, hs, rfl⟩ := Option.map_eq_some_iff.mp hlocked
          obtain ⟨p', hp', hw, hdisk, hrun⟩ := State.call_cases hs
          obtain rfl := Status.running.inj (hp.symm.trans hp')
          refine ⟨m, phase, hlin, ?_⟩
          rintro q hq
          obtain rfl := Status.running.inj (hrun.symm.trans hq)
          refine ⟨?_, ?_, ?_, ?_, ?_⟩
          · intro u
            dsimp only
            rw [hmutex]
            by_cases hu : u = t
            · rw [hu, Function.update_self, Function.update_self]
              rfl
            · rw [Function.update_of_ne hu, Function.update_of_ne (by simpa using hu), h.held]
          · left
            dsimp only
            rw [hmutex, Function.update_of_ne (by simp)]
            exact hall rfl _
          · exact Or.inr ⟨t, Function.update_self _ _ _⟩
          · intro u
            dsimp only
            by_cases hu : u = t
            · rw [hu, Function.update_self]
              exact ⟨op, rfl, hpending⟩
            · rw [Function.update_of_ne hu]
              exact (h.follows u).of_free (hfree u)
          · obtain ⟨m', hserving, hadds⟩ := h.serves
            rw [hw] at hadds
            rw [hdisk]
            exact ⟨m', hserving.call hw hin, hadds⟩
      | get key =>
          obtain rfl := Option.some.inj hlocked
          refine ⟨m, phase, hlin, ?_⟩
          intro q hq
          obtain rfl := Status.running.inj (hp.symm.trans hq)
          exact h.setMutex hmutex rfl (by simp [ht]) ⟨hpending, trivial⟩
      | scan start stop =>
          obtain rfl := Option.some.inj hlocked
          refine ⟨m, phase, hlin, ?_⟩
          intro q hq
          obtain rfl := Status.running.inj (hp.symm.trans hq)
          refine h.setMutex hmutex rfl (by simp [ht]) ⟨hpending, ?_⟩
          exact Read.scanFrom_zero p.db start stop
  | _ => simp [ht] at hstep

/-- A step of a read: at its last step the call takes effect. -/
theorem Coherent.read (h : c.Coherent p m phase) (hlin : Linearizes Request.Allows m₀ c.history m phase)
    (hp : c.state.status = .running p) (hstep : c.move p (.read t) = some c') :
  c'.Linear m₀
  := by
  have hfollows := h.follows t
  simp only [move] at hstep
  cases ht : c.threads t with
  | reading read =>
      rw [ht] at hfollows
      obtain ⟨hpending, hsees⟩ := hfollows
      simp only [ht] at hstep
      obtain ⟨x, hx, rfl⟩ := Option.map_eq_some_iff.mp hstep
      cases x with
      | inl read' =>
          obtain ⟨hsees', hrequest⟩ := hsees.move hx
          refine ⟨m, Function.update phase t (phase t), ?_, ?_⟩
          · rw [Function.update_eq_self]
            exact hlin
          · intro q hq
            obtain rfl := Status.running.inj (hp.symm.trans hq)
            exact h.setClient (by rw [ht]; rfl) (by simp [ht]) ⟨by rw [hpending, hrequest], hsees'⟩
      | inr answer =>
          have hidle : p.writer = .idle := by
            apply h.idle
            intro u hu
            by_cases hut : u = t
            · simp [hut, ht, Client.mode] at hu
            · have hmode := h.mode_eq_free hu (Ne.symm hut)
              simp [ht, Client.mode] at hmode
          have hview := h.view_eq hidle
          obtain ⟨m', hserving, -⟩ := h.serves
          have hallows := hsees.answer hserving.valid hx
          rw [hview] at hallows
          refine ⟨m, _, .effect answer hlin hpending hallows, ?_⟩
          intro q hq
          obtain rfl := Status.running.inj (hp.symm.trans hq)
          exact h.setClient (by rw [ht]; rfl) (by simp [ht]) ⟨rfl, by simp⟩
  | _ => simp [ht] at hstep

/-- Every step keeps the history linearizable. -/
theorem Linear.step {a : ClientAction ι} (h : c.Linear m₀) (hin : a.InRange)
    (hstep : c.step a = some c') :
  c'.Linear m₀
  := by
  obtain ⟨m, phase, hlin, hcoherent⟩ := h
  cases hstatus : c.state.status with
  | running p =>
      have h := hcoherent p hstatus
      rw [step_eq_move hstatus] at hstep
      cases a with
      | invoke t request =>
          have hfollows := h.follows t
          simp only [move] at hstep
          cases ht : c.threads t with
          | idle =>
              rw [ht] at hfollows
              simp only [ht, Option.some.injEq] at hstep
              subst hstep
              refine ⟨m, _, .invoke request hlin hfollows, ?_⟩
              intro q hq
              obtain rfl := Status.running.inj (hstatus.symm.trans hq)
              exact h.setClient (by rw [ht]; rfl) (by simp [ht]) ⟨rfl, hin⟩
          | _ => simp [ht] at hstep
      | lock t => exact h.lock hlin hstatus hstep
      | read t => exact h.read hlin hstatus hstep
      | write t count =>
          simp only [move] at hstep
          cases ht : c.threads t with
          | writing =>
              simp only [ht] at hstep
              obtain ⟨s, hs, rfl⟩ := Option.map_eq_some_iff.mp hstep
              exact h.written hlin ht hstatus hs rfl
          | _ => simp [ht] at hstep
      | writeFail t late =>
          simp only [move] at hstep
          cases ht : c.threads t with
          | writing =>
              simp only [ht] at hstep
              obtain ⟨s, hs, rfl⟩ := Option.map_eq_some_iff.mp hstep
              exact h.written hlin ht hstatus hs rfl
          | _ => simp [ht] at hstep
      | unlock t =>
          have hfollows := h.follows t
          simp only [move] at hstep
          cases ht : c.threads t with
          | unlocking mode answer =>
              rw [ht] at hfollows
              simp only [ht] at hstep
              obtain ⟨mutex, hrelease, rfl⟩ := Option.map_eq_some_iff.mp hstep
              obtain ⟨hmutex, -⟩ := SharedMutex.mode_release hrelease
              refine ⟨m, phase, hlin, ?_⟩
              intro q hq
              obtain rfl := Status.running.inj (hstatus.symm.trans hq)
              exact h.setMutex hmutex rfl (by simp [ht]) hfollows.1
          | _ => simp [ht] at hstep
      | respond t =>
          have hfollows := h.follows t
          simp only [move] at hstep
          cases ht : c.threads t with
          | returning answer =>
              rw [ht] at hfollows
              simp only [ht, Option.some.injEq] at hstep
              subst hstep
              refine ⟨m, _, .respond hlin hfollows, ?_⟩
              intro q hq
              obtain rfl := Status.running.inj (hstatus.symm.trans hq)
              exact h.setClient (by rw [ht]; rfl) (by simp [ht]) rfl
          | _ => simp [ht] at hstep
      | lockCompactor =>
          obtain ⟨mutex, hacquire, rfl⟩ := Option.map_eq_some_iff.mp hstep
          obtain ⟨hmutex, -⟩ := SharedMutex.mode_acquire hacquire
          refine ⟨m, phase, hlin, ?_⟩
          intro q hq
          obtain rfl := Status.running.inj (hstatus.symm.trans hq)
          exact h.setHolder hmutex (Or.inr (Or.inr rfl))
      | compactor count =>
          simp only [move] at hstep
          split_ifs at hstep with hheld
          obtain ⟨s, hs, rfl⟩ := Option.map_eq_some_iff.mp hstep
          exact h.compacted hlin hheld hstatus hs rfl
      | compactorFail late =>
          simp only [move] at hstep
          split_ifs at hstep with hheld
          obtain ⟨s, hs, rfl⟩ := Option.map_eq_some_iff.mp hstep
          exact h.compacted hlin hheld hstatus hs rfl
      | unlockCompactor =>
          simp only [move] at hstep
          split_ifs at hstep with hfree
          obtain ⟨mutex, hrelease, rfl⟩ := Option.map_eq_some_iff.mp hstep
          obtain ⟨hmutex, -⟩ := SharedMutex.mode_release hrelease
          refine ⟨m, phase, hlin, ?_⟩
          intro q hq
          obtain rfl := Status.running.inj (hstatus.symm.trans hq)
          exact h.setHolder hmutex (Or.inl rfl)
      | kill =>
          obtain ⟨s, hs, rfl⟩ := Option.map_eq_some_iff.mp hstep
          obtain ⟨_, ended, hmove, -⟩ := step_any_cases hs
          refine ⟨m, phase, hlin, ?_⟩
          intro q hq
          rw [hstatus, hq] at hmove
          cases hmove with
          | succeeds hmove => cases hmove
  | _ => simp [Clients.step, hstatus] at hstep

/-- A process that no call is in progress in, before its clients begin. -/
theorem linear_init {s : State} (hs : s.status = .running p) (hserves : s.status.Serves s.disk)
    (hidle : p.writer = .idle) :
  Linear p.db.view (init s : Clients ι)
  := by
  refine ⟨p.db.view, fun _ => .idle, .init, ?_⟩
  intro q hq
  obtain rfl := Status.running.inj (hs.symm.trans hq)
  rw [hs] at hserves
  obtain ⟨-, m, hserving⟩ := hserves
  have hcounted := hserving.counted
  rw [hidle] at hcounted
  refine ⟨?_, Or.inl (SharedMutex.mode_init none), Or.inl hidle, fun _ => rfl, m, hserving, ?_⟩
  · exact fun t => SharedMutex.mode_init (some t)
  · rw [hidle]
    exact hcounted.symm

theorem linear_of_reaches {s : State} (hs : Reaches TinyLsm.step (fun _ a _ => a.InRange) State.init s)
    (hp : s.status = .running p) (hidle : p.writer = .idle)
    (hc : Reaches Clients.step (fun _ a _ => a.InRange) (init s) c) :
  c.Linear p.db.view
  := by
  apply hc.invariant (I := Linear p.db.view)
  · exact linear_init hp (Status.serves_of_reaches hs) hidle
  · exact fun c a c' h hstep hin => h.step hin hstep

end Clients

/-- Any number of clients that call an open database, in any order of their steps, of the steps of the
compaction thread and of failing system calls, see a linearizable map, which at first is the one the
database stands for when the first client begins. -/
theorem history_linearizable {ι : Type*} [DecidableEq ι] {s : State} {p : Process} {c : Clients ι}
    (hs : Reaches step (fun _ a _ => a.InRange) State.init s) (hp : s.status = .running p)
    (hidle : p.writer = .idle)
    (hc : Reaches Clients.step (fun _ a _ => a.InRange) (Clients.init s) c) :
  Linearizable Request.Allows p.db.view c.history
  := by
  obtain ⟨m, phase, hlin, -⟩ := Clients.linear_of_reaches hs hp hidle hc
  exact ⟨m, phase, hlin⟩

/-- A process runs, and no call is in progress. -/
def State.isIdle (s : State) : Bool :=
  match s.status with
  | .running p => p.unlocked
  | _ => false

theorem State.isIdle_iff {s : State} :
  s.isIdle = true ↔ ∃ p, s.status = .running p ∧ p.writer = .idle
  := by
  rw [State.isIdle]
  cases s.status with
  | running p => simp [Process.unlocked_iff]
  | _ => simp

/-- One client writes a key, with a flush, while another waits to read it. -/
def overlappingCalls : List (ClientAction Bool) :=
  [.invoke false (.write (.put [97] [1])), .lock false, .write false 15,
    .invoke true (.get [97]), .write false 0, .write false 0, .write false 0, .write false 52,
    .write false 0, .write false 0, .write false 0, .unlock false, .lock true, .read true,
    .respond false, .read true, .unlock true, .respond true]

theorem history_linearizable_overlapping :
  ∃ s p c, run (guarded step (fun _ a => decide a.InRange)) State.init (launchActions 0 2) = some s
    ∧ s.status = .running p
    ∧ run (guarded Clients.step (fun _ a => decide a.InRange)) (Clients.init s) overlappingCalls
      = some c
    ∧ c.history.getLast? = some (.respond true (.value (some [1])))
    ∧ Linearizable Request.Allows p.db.view c.history
  := by
  have hrun : (run (guarded step (fun _ a => decide a.InRange)) State.init (launchActions 0 2)).any
      (fun s => s.isIdle
        && (run (guarded Clients.step (fun _ a => decide a.InRange)) (Clients.init s)
          overlappingCalls).any
          (fun c => c.history.getLast? = some (.respond true (.value (some [1]))))) = true := by
    decide +kernel
  obtain ⟨s, hs, htest⟩ := exists_of_run hrun
  obtain ⟨hidle, hclients⟩ := Bool.and_eq_true_iff.mp htest
  obtain ⟨p, hp, hw⟩ := State.isIdle_iff.mp hidle
  obtain ⟨c, hc, hlast⟩ := exists_of_run hclients
  refine ⟨s, p, c, hs, hp, hc, of_decide_eq_true hlast, ?_⟩
  apply history_linearizable (Reaches.of_run hs (fun _ _ _ ha => of_decide_eq_true ha)) hp hw
  exact Reaches.of_run hc (fun _ _ _ ha => of_decide_eq_true ha)

end TinyLsm
