import TinyLsm.Recovery

/-!
# The running database

A running database refines the abstract map: in every state of every run, whatever the
interleaving with flushes and compactions, `get` and `scan` answer for the last write of
each key (`running_refines_contents`).
-/

namespace TinyLsm

open Transition

/-- The operations that count so far: those of the calls that have returned, and that of the
call in progress once the MemTable has absorbed it. -/
def State.operations (s : State) : List Op :=
  s.calls.map Call.op ++
    match s.status with
    | .running p => p.writer.applied
    | _ => []

/-- Every call so far has returned. -/
def State.AllReturned (s : State) : Prop :=
  ∀ c ∈ s.calls, c.outcome = .returned

/-- A step that belongs to a flush or to a compaction. -/
def State.Maintains (s : State) (a : Action) : Prop :=
  match s.status, a with
  | .running p, .writer _ =>
      match p.writer with
      | .flushing _ _ => True
      | .resetting _ => True
      | _ => False
  | .running _, .compactor _ => True
  | _, _ => False

/-! ### Calls that return -/

/-- In range, a call that ends returns. -/
theorem Process.Means.returned_writerStep {p : Process} {disk disk' : DbDisk}
    {c : Option DbSyscall} {status : Status} {calls ended : List Call} (h : p.WellFormed disk)
    (hm : p.Means disk calls) (hdisk : disk' = FileSystem.Syscall.execOption c disk)
    (hstep : p.WriterStep disk' c status ended) :
  ∀ call ∈ ended, call.outcome = .returned
  := by
  cases hstep with
  | @reject op e hw hopen =>
      obtain ⟨r, hr⟩ := hm.openSSTable_eq_ok h hw
      rw [hdisk, FileSystem.Syscall.execOption_some, hr] at hopen
      simp at hopen
  | _ => simp

theorem Opener.Step.ended_eq_nil {o : Opener} {disk : DbDisk} {c : Option DbSyscall}
    {status : Status} {ended : List Call} (h : o.Step disk c status ended) :
  ended = []
  := by
  cases h with
  | _ => rfl

/-- While one process runs, every call returns. -/
theorem allReturned_step {s t : State} {a : Action} (h : Sound False s) (hs : s.AllReturned)
    (hstep : step s a = some t) (hok : StepOk False s a) :
  t.AllReturned
  := by
  obtain ⟨hwf, hmeans, -⟩ := h
  obtain ⟨disk, status, calls⟩ := s
  obtain ⟨c, ended, hstatus, hdisk, hcalls⟩ := step_cases hstep hok.noFailure
  have hends := hok.ends
  obtain ⟨disk', status', calls'⟩ := t
  simp only at hwf hmeans hstatus hdisk hcalls
  subst hcalls
  have hended : ∀ call ∈ ended, call.outcome = .returned := by
    cases hstatus with
    | opener hopener => simp [hopener.ended_eq_nil]
    | writer hwriter => exact hmeans.returned_writerStep hwf hdisk hwriter
    | compactor hcompactor =>
        obtain ⟨p', -, -, rfl, -⟩ := hmeans.compactorStep hwf hdisk hcompactor
        simp
    | kill => exact absurd rfl hends
    | _ => simp
  exact List.forall_mem_append.mpr ⟨hs, hended⟩

theorem allReturned_of_reaches {s : State}
    (h : Reaches step (fun s a _ => StepOk False s a) State.init s) :
  s.AllReturned
  := by
  have hboth := h.invariant (I := fun s => Sound False s ∧ s.AllReturned)
    ⟨sound_init False, by simp [State.AllReturned, State.init]⟩
    (fun s a t hs hstep hok =>
      ⟨sound_step hs.1 hstep hok, allReturned_step hs.1 hs.2 hstep hok⟩)
  exact hboth.2

/-! ### The abstract map -/

/-- A running database stands for the operations that count so far. -/
theorem view_eq_contents {s : State}
    (h : Reaches step (fun s a _ => StepOk False s a) State.init s) {p : Process}
    (hp : s.status = .running p) :
  p.db.view = contents s.operations
  := by
  have hsound := sound_of_reaches h (fun s a t hok => hok)
  have hreturned := allReturned_of_reaches h
  have hmeans := hsound.means
  rw [hp] at hmeans
  obtain ⟨ops, hresolves, hview⟩ := hmeans.view
  rw [hview, hresolves.eq_of_returned hreturned, State.operations, hp]

/-- The tables of a sound running process are readers of tables. -/
theorem Sound.valid {ends : Prop} {s : State} (h : Sound ends s) {p : Process}
    (hp : s.status = .running p) :
  ∀ r ∈ p.db.sstables, r.Valid
  := by
  have hwf := h.wellFormed
  have hmeans := h.means
  rw [hp] at hwf hmeans
  exact fun r hr => hmeans.valid r (Process.mem_generations hwf.compactor hr)

/-- The steps of flushes and compactions leave the operations that count. -/
theorem operations_maintain {s t : State} {a : Action} (hstep : step s a = some t)
    (ha : a.noFailure) (hmaintains : s.Maintains a) (hrun : ∃ q, t.status = .running q) :
  t.operations = s.operations
  := by
  obtain ⟨disk, status, calls⟩ := s
  obtain ⟨c, ended, hstatus, -, hcalls⟩ := step_cases hstep ha
  obtain ⟨disk', status', calls'⟩ := t
  obtain ⟨q, hq⟩ := hrun
  simp only at hstatus hcalls hq
  subst hcalls hq
  cases hstatus with
  | opener hopener => exact absurd hmaintains id
  | call hw => exact absurd hmaintains id
  | writer hwriter =>
      simp only [State.Maintains] at hmaintains
      simp only [State.operations]
      cases hwriter with
      | append hw hne => simp [hw] at hmaintains
      | sync hw => simp [hw] at hmaintains
      | apply hw hflush => simp [hw] at hmaintains
      | startFlush hw hflush => simp [hw] at hmaintains
      | write hw hfile => simp [hw, Writer.applied]
      | rename hw hopen => simp [hw, Writer.applied]
      | reject hw hopen => simp [hw, Writer.applied]
      | reset hw => simp [hw, Writer.applied]
  | compactor hcompactor =>
      simp only [State.operations]
      cases hcompactor with
      | _ => simp

/-- Within one open database, in every state of every interleaving of calls with flushes
and with the steps of compactions, `get` returns the value of the last write of the key and
`scan` lists the live pairs of the range in ascending order.  The steps of flushes and
compactions do not change these answers. -/
theorem running_refines_contents {s : State}
    (h : Reaches step (fun s a _ => StepOk False s a) State.init s) {p : Process}
    (hp : s.status = .running p) :
  (∀ key, p.db.get key = .ok (contents s.operations key))
    ∧ (∀ start stop, ∃ pairs, p.db.scan start stop = .ok pairs
      ∧ IsScan (contents s.operations) start stop pairs)
    ∧ ∀ a t, step s a = some t → StepOk False s a → s.Maintains a →
      ∃ q, t.status = .running q ∧ contents t.operations = contents s.operations
        ∧ (∀ key, q.db.get key = p.db.get key)
        ∧ ∀ start stop, q.db.scan start stop = p.db.scan start stop
  := by
  have hsound := sound_of_reaches h (fun s a t hok => hok)
  have hvalid := hsound.valid hp
  have hview := view_eq_contents h hp
  have hget : ∀ key, p.db.get key = .ok (contents s.operations key) := by
    intro key
    rw [Database.get_eq_view hvalid, hview]
  have hscan : ∀ start stop, ∃ pairs, p.db.scan start stop = .ok pairs
      ∧ IsScan (contents s.operations) start stop pairs := by
    intro start stop
    rw [← hview]
    exact Database.scan_eq_view hvalid start stop
  refine ⟨hget, hscan, ?_⟩
  intro a t hstep hok hmaintains
  obtain ⟨q, hq⟩ : ∃ q, t.status = .running q := by
    obtain ⟨c, ended, hstatus, hdisk, -⟩ := step_cases hstep hok.noFailure
    have hwf := hsound.wellFormed
    have hmeans := hsound.means
    rw [hp] at hwf hmeans hstatus
    generalize t.status = status at hstatus
    cases hstatus with
    | writer hwriter =>
        obtain ⟨q, hq, -⟩ := hmeans.writerStep hwf hdisk hwriter
        exact ⟨q, hq⟩
    | compactor hcompactor =>
        obtain ⟨q, hq, -⟩ := hmeans.compactorStep hwf hdisk hcompactor
        exact ⟨q, hq⟩
    | call hw => exact ⟨_, rfl⟩
    | close hw hc => simp [State.Maintains, hp] at hmaintains
    | kill => simp [State.Maintains, hp] at hmaintains
  have hreach : Reaches step (fun s a _ => StepOk False s a) State.init t := .tail a h hstep hok
  have hoperations := operations_maintain hstep hok.noFailure hmaintains ⟨q, hq⟩
  have hsound' := sound_of_reaches hreach (fun s a t hok => hok)
  have hview' := view_eq_contents hreach hq
  have hvalid' := hsound'.valid hq
  refine ⟨q, hq, by rw [hoperations], ?_, ?_⟩
  · intro key
    rw [hget, Database.get_eq_view hvalid', hview', hoperations]
  · intro start stop
    obtain ⟨pairs, hpairs, his⟩ := hscan start stop
    obtain ⟨pairs', hpairs', his'⟩ := Database.scan_eq_view hvalid' start stop
    rw [hview', hoperations] at his'
    rw [hpairs, hpairs', his.unique his']

/-! ### A run -/

/-- The process is launched on an empty directory. -/
def launchActions (flushThresholdBytes : UInt64) (compactionTriggerCount : ℕ) : List Action :=
  [.start flushThresholdBytes compactionTriggerCount, .opener 0, .opener 0, .opener 0]

/-- A call that flushes a table of `size` bytes. -/
def flushActions (op : Op) (size : ℕ) : List Action :=
  [.call op, .writer op.encode.length, .writer 0, .writer 0, .writer 0, .writer size, .writer 0,
    .writer 0, .writer 0]

/-- A compaction of two tables from the reservation of its number on, writing `size` bytes. -/
def compactActions (size : ℕ) : List Action :=
  [.compactor 0, .compactor 0, .compactor size, .compactor 0, .compactor 0, .compactor 0,
    .compactor 0, .compactor 0, .compactor 0, .compactor 0]

/-- Between the snapshot of a compaction and the reservation of its number, a flush writes a
key the compaction has merged. -/
def overtakenRun : List Action :=
  launchActions 0 2 ++ flushActions (.put [97] [1]) 52 ++ flushActions (.put [98] [1]) 52
    ++ [.compactor 0, .compactor 0, .compactor 0] ++ flushActions (.put [97] [2]) 52
    ++ compactActions 67

def State.isRunning (s : State) : Bool :=
  match s.status with
  | .running _ => true
  | _ => false

theorem State.isRunning_iff {s : State} :
  s.isRunning = true ↔ ∃ p, s.status = .running p
  := by
  rw [State.isRunning]
  cases s.status with
  | running p => simp
  | _ => simp

/-- A process runs that passes the test. -/
def State.runs (s : State) (test : Process → Bool) : Bool :=
  match s.status with
  | .running p => test p
  | _ => false

theorem State.runs_iff {s : State} {test : Process → Bool} :
  s.runs test = true ↔ ∃ p, s.status = .running p ∧ test p = true
  := by
  rw [State.runs]
  cases s.status with
  | running p => simp
  | _ => simp

/-- An action in range that neither fails nor ends the process. -/
def Action.undisturbed (a : Action) : Bool :=
  a.noFailure && decide a.InRange && !a.ends

theorem stepOk_of_undisturbed (s : State) {a : Action} (h : a.undisturbed = true) :
  StepOk False s a
  := by
  simp only [Action.undisturbed, Bool.and_eq_true, decide_eq_true_eq, Bool.not_eq_true'] at h
  obtain ⟨⟨hfail, hin⟩, hends⟩ := h
  exact ⟨hfail, hin, False.elim, by simp [hends]⟩

theorem running_refines_contents_overtaken :
  ∃ s p, run (guarded step (fun _ a => a.undisturbed)) State.init overtakenRun = some s
    ∧ s.status = .running p ∧ (∀ key, p.db.get key = .ok (contents s.operations key))
    ∧ ∀ start stop, ∃ pairs, p.db.scan start stop = .ok pairs
      ∧ IsScan (contents s.operations) start stop pairs
  := by
  have hrun : (run (guarded step (fun _ a => a.undisturbed)) State.init overtakenRun).any
      State.isRunning = true := by
    decide +kernel
  obtain ⟨s, hs, hrunning⟩ := exists_of_run hrun
  obtain ⟨p, hp⟩ := State.isRunning_iff.mp hrunning
  have hreach : Reaches step (fun s a _ => StepOk False s a) State.init s :=
    Reaches.of_run hs (fun t _ _ ha => stepOk_of_undisturbed t ha)
  obtain ⟨hget, hscan, -⟩ := running_refines_contents hreach hp
  exact ⟨s, p, hs, hp, hget, hscan⟩

end TinyLsm
