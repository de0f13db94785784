import TinyLsm.Numbering

/-!
# Interrupted compactions

A compaction that a kill interrupts at any point leaves a directory that opens to the
answers from before, also after any number of such interruptions: the old tables that are
left are the newest of those merged (`compaction_crash_safe`).
-/

namespace TinyLsm

open FileSystem Layers Transition

/-! ### Kills during a compaction -/

/-- The compaction thread is between its snapshot and the end of its deletions. -/
def Compactor.inProgress : Compactor → Bool
  | waiting => false
  | started => false
  | finishing => false
  | _ => true

/-- In this state the action does not let a flush rename a table during a compaction. -/
def State.FlushApart (s : State) (a : Action) : Prop :=
  match s.status, a with
  | .running p, .writer _ =>
      ∀ op, p.writer = .flushing op .synced → p.compactor.inProgress = false
  | _, _ => True

theorem State.FlushApart.flushAgrees {s : State} {a : Action} (h : s.FlushApart a) :
  s.FlushAgrees a
  := by
  unfold State.FlushApart at h
  unfold State.FlushAgrees
  split
  · rename_i p count hp
    simp only [hp] at h
    intro op toCompact hw hc
    have hnot := h op hw
    cases hcompactor : p.compactor with
    | merging toCompact' => simp [hcompactor, Compactor.inProgress] at hnot
    | allocating toCompact' merged => simp [hcompactor, Compactor.inProgress] at hnot
    | _ => simp [hcompactor, Compactor.window] at hc
  · trivial

/-- A step in which no system call fails, what is written fits the fields of a record, and no flush
renames a table during a compaction. -/
abbrev Apart (s : State) (a : Action) (_ : State) : Prop :=
  a.noFailure ∧ a.InRange ∧ s.FlushApart a

theorem sound_of_apart {s : State} (h : Reaches step Apart State.init s) :
  Sound True s
  := by
  apply sound_of_reaches h
  rintro s a t ⟨hfail, hin, hapart⟩
  exact ⟨hfail, hin, fun _ => hapart.flushAgrees, fun _ => trivial⟩

theorem State.Quiet.flushApart {s : State} (h : s.Quiet) (a : Action) :
  s.FlushApart a
  := by
  unfold State.FlushApart
  split
  · rename_i p count hp
    intro op hw
    rw [h p hp]
    rfl
  · trivial

/-- The steps of a compaction leave the map and the writer. -/
theorem reaches_compactor {s t : State} {p : Process} (hs : Sound True s)
    (hp : s.status = .running p)
    (h : Reaches step (fun _ a _ => ∃ n, a = .compactor n) s t) :
  Sound True t ∧ ∃ q, t.status = .running q ∧ q.writer = p.writer ∧ q.db.view = p.db.view
  := by
  apply h.invariant (I := fun t => Sound True t ∧ ∃ q, t.status = .running q
    ∧ q.writer = p.writer ∧ q.db.view = p.db.view)
  · exact ⟨hs, p, hp, rfl, rfl⟩
  · rintro u a v ⟨hsound, q, hq, hwriter, hview⟩ hstep ⟨n, rfl⟩
    have hok : StepOk True u (.compactor n) := by
      refine ⟨rfl, trivial, fun _ => ?_, fun _ => trivial⟩
      simp [State.FlushAgrees]
    refine ⟨sound_step hsound hstep hok, ?_⟩
    obtain ⟨c, ended, hstatus, hdisk, -⟩ := step_cases hstep rfl
    have hwf := hsound.wellFormed
    have hmeans := hsound.means
    rw [hq] at hwf hmeans hstatus
    generalize v.status = status at hstatus ⊢
    cases hstatus with
    | compactor hcompactor =>
        obtain ⟨q', rfl, -, -, hview'⟩ := hmeans.compactorStep hwf hdisk hcompactor
        refine ⟨q', rfl, ?_, hview'.trans hview⟩
        rw [← hwriter]
        cases hcompactor with
        | _ => rfl

/-- In every run with keys and values below 2^32 bytes in which no flush happens during a
compaction, and with any number of kills, a kill at any point of a compaction leaves a
directory that opens to the answers from before the compaction; and after a kill at any
point at all it opens to a database that has every call that returned, and of each call a
kill cut short all or nothing. -/
theorem compaction_crash_safe {s : State}
    (h : Reaches step (fun s a _ => a.noFailure ∧ a.InRange ∧ s.FlushApart a) State.init s) :
  (∀ p t u, s.status = .running p → p.writer = .idle →
      Reaches step (fun _ a _ => ∃ n, a = .compactor n) s t → step t .kill = some u →
      ∀ thr trig, ∃ db disk, Database.construct thr trig u.disk = .ok (db, disk)
        ∧ p.db.SameAnswers db)
    ∧ ∀ t, step s .kill = some t → ∀ thr trig,
      ∃ db disk ops, Database.construct thr trig t.disk = .ok (db, disk) ∧ Resolves t.calls ops
        ∧ ∀ key, db.get key = .ok (contents ops key)
  := by
  have hsound : Sound True s := by
    apply sound_of_reaches h
    rintro s a t ⟨hfail, hin, hapart⟩
    exact ⟨hfail, hin, fun _ => hapart.flushAgrees, fun _ => trivial⟩
  constructor
  · intro p t u hp hw hcompaction hkill thr trig
    obtain ⟨hsound', q, hq, hwriter, hview⟩ := reaches_compactor hsound hp hcompaction
    obtain ⟨db, disk, hconstruct, hsame⟩ := hsound'.reopen hq (hwriter.trans hw) thr trig
    rw [(eq_of_kill hkill).1]
    have hvalid := hsound.valid hp
    have hsame' := Database.sameAnswers_of_view hvalid (hsound'.valid hq) hview
    refine ⟨db, disk, hconstruct, ?_, ?_⟩
    · exact fun key => (hsame.1 key).trans (hsame'.1 key)
    · exact fun start stop => (hsame.2 start stop).trans (hsame'.2 start stop)
  · exact fun t hkill => hsound.reopen_killed hkill

/-- The step meets what is asked of it, with no flush during a compaction. -/
def State.apart (s : State) (a : Action) : Bool :=
  a.noFailure && decide a.InRange &&
    match s.status with
    | .running p =>
        match p.writer with
        | .flushing _ _ => !p.compactor.inProgress
        | _ => true
    | _ => true

theorem flushApart_of_apart {s : State} {a : Action} (h : s.apart a = true) :
  a.noFailure ∧ a.InRange ∧ s.FlushApart a
  := by
  simp only [State.apart, Bool.and_eq_true, decide_eq_true_eq] at h
  obtain ⟨⟨hfail, hin⟩, hapart⟩ := h
  refine ⟨hfail, hin, ?_⟩
  unfold State.FlushApart
  split
  · rename_i p count hp
    intro op hw
    simpa [hp, hw] using hapart
  · trivial

/-- A removed key in the newer of two tables, and a compaction of both up to its merge. -/
def mergingRun : List Action :=
  [launchActions 0 2, flushActions (.put [97] [1]) 52, flushActions (.remove [97]) 51,
    [.compactor 0, .compactor 0, .compactor 0]].flatten

theorem compaction_crash_safe_merging :
  ∃ s p t u, run (guarded step State.apart) State.init mergingRun = some s
    ∧ s.status = .running p ∧ step s (.compactor 0) = some t ∧ step t .kill = some u
    ∧ ∃ db disk, Database.construct 0 2 u.disk = .ok (db, disk) ∧ p.db.SameAnswers db
  := by
  have hrun : (run (guarded step State.apart) State.init mergingRun).any
      (fun s => (match s.status with
        | .running p => p.unlocked
        | _ => false)
        && ((step s (.compactor 0)).bind (fun t => step t .kill)).isSome) = true := by
    decide +kernel
  obtain ⟨s, hs, htest⟩ := exists_of_run hrun
  rw [Bool.and_eq_true] at htest
  obtain ⟨hunlocked, hsteps⟩ := htest
  obtain ⟨u, hu⟩ := Option.isSome_iff_exists.mp hsteps
  obtain ⟨t, ht, hkill⟩ := Option.bind_eq_some_iff.mp hu
  have hreach : Reaches step (fun s a _ => a.noFailure ∧ a.InRange ∧ s.FlushApart a)
      State.init s :=
    Reaches.of_run hs (fun _ _ _ ha => flushApart_of_apart ha)
  split at hunlocked
  · rename_i p hp
    have hidle := Process.unlocked_iff.mp hunlocked
    refine ⟨s, p, t, u, hs, hp, ht, hkill, ?_⟩
    exact (compaction_crash_safe hreach).1 p t u hp hidle
      (.tail (.compactor 0) .refl ht ⟨0, rfl⟩) hkill 0 2
  · simp at hunlocked

/-- The process may start a compaction, and its next call flushes. -/
def State.readyToCompact (s : State) : Bool :=
  match s.status with
  | .running p =>
      p.closable && p.db.memtable.entries.entries.isEmpty && p.db.compactionRequested
        && decide (p.db.flushThresholdBytes = 0) && decide (2 ≤ p.db.sstables.length)
  | _ => false

theorem State.readyToCompact_iff {s : State} :
  s.readyToCompact = true ↔ ∃ p, s.status = .running p ∧ (p.writer = .idle ∧ p.compactor = .waiting)
    ∧ p.db.memtable.entries.entries = [] ∧ p.db.compactionRequested = true
    ∧ p.db.flushThresholdBytes = 0 ∧ 2 ≤ p.db.sstables.length
  := by
  rw [readyToCompact]
  cases s.status with
  | running p => simp [Process.closable_iff, and_assoc]
  | _ => simp

/-- A compaction that is requested takes its snapshot. -/
theorem run_snapshot {s : State} {p : Process} (hp : s.status = .running p)
    (hw : p.writer = .idle) (hc : p.compactor = .waiting)
    (hrequested : p.db.compactionRequested = true) (hcount : 2 ≤ p.db.sstables.length) :
  ∃ t, run step s [.compactor 0, .compactor 0] = some t ∧ t.disk = s.disk
    ∧ ∃ q, t.status = .running q ∧ q.compactor.inProgress
  := by
  obtain ⟨disk, status, calls⟩ := s
  simp only at hp
  subst hp
  have hnot : ¬ p.db.sstables.length < 2 := by omega
  simp only [run, step, Status.move, Process.compactorMove, hc, hrequested, State.after,
    Move.files, Move.silent, Process.unlocked, hw, if_neg hnot, if_true, Option.map_some,
    Option.bind_some]
  exact ⟨_, rfl, rfl, _, rfl, rfl⟩

/-- A run without a compaction has no flush during one. -/
theorem reaches_of_quiet {s t : State} {as : List Action} (h : run step s as = some t)
    (hs : s.Quiet) (has : ∀ a ∈ as, a.noFailure = true ∧ a.noCompaction = true) :
  Reaches step (fun s a _ => a.noFailure ∧ s.FlushApart a) s t
  := by
  apply Reaches.of_run_invariant (I := State.Quiet) h hs
  intro u a v ha hu hstep
  obtain ⟨hfail, hcompact⟩ := has a ha
  exact ⟨⟨hfail, hu.flushApart a⟩, quiet_step hu hstep hfail hcompact⟩

/-- Once a key of 2^32 bytes has left a table that is rejected, a kill during the next
compaction leaves a directory that does not open. -/
theorem not_opens_after_kill :
  ¬ ∀ (s t : State) (p : Process),
    Reaches step (fun s a _ => a.noFailure ∧ s.FlushApart a) State.init s →
    s.status = .running p → p.compactor.inProgress → step s .kill = some t →
    ∃ db disk, Database.construct 0 2 t.disk = .ok (db, disk)
  := by
  intro hall
  -- Two tables, and a compaction requested.
  have hrun : (run step State.init [launchActions 0 2, flushActions (.put [97] [1]) 52,
      flushActions (.remove [97]) 51].flatten).any State.readyToCompact = true := by
    decide +kernel
  obtain ⟨s, hs, hready⟩ := exists_of_run hrun
  obtain ⟨p, hp, ⟨hidle, hwaiting⟩, hempty, hrequested, hthreshold, hcount⟩ :=
    State.readyToCompact_iff.mp hready
  -- A key of 2^32 bytes, and a table that is rejected.
  obtain ⟨key, hlen, hkey⟩ := exists_oversize_key
  have hentries : (p.db.memtable.apply (.put key [])).entries.entries
      = [(key, ⟨[], false⟩)] := by
    rw [MemTable.entries_apply]
    change OrderedMap.insertEntry _ _ p.db.memtable.entries.entries = _
    rw [hempty]
    rfl
  obtain ⟨contents, hwrite, hne, hload⟩ := load_oversize hlen hkey hentries
  have hflush : { p.db with memtable := p.db.memtable.apply (.put key []) }.needsFlush
      = true := by
    simp [Database.needsFlush, hthreshold]
  obtain ⟨t, ht, hstatus, hfind⟩ := run_rejected_flush hp hidle hflush hwrite hne (hload _)
  -- The compaction takes its snapshot, and is killed.
  obtain ⟨u, hu, hdisk, q, hq, hprogress⟩ :=
    run_snapshot hstatus rfl hwaiting hrequested hcount
  obtain ⟨v, hv⟩ : ∃ v, step u .kill = some v := by
    simp [step, hq, Status.move]
  have hreach : Reaches step (fun s a _ => a.noFailure ∧ s.FlushApart a) State.init u := by
    apply Reaches.trans (t := s)
    · apply reaches_of_quiet hs
      · rintro p' ⟨⟩
      · decide +kernel
    · apply Reaches.trans (t := t)
      · apply reaches_of_quiet ht
        · intro p' hp'
          rw [hp] at hp'
          obtain rfl := Status.running.inj hp'
          exact hwaiting
        · intro a ha
          simp only [List.mem_cons, List.not_mem_nil, or_false] at ha
          rcases ha with rfl | rfl | rfl | rfl | rfl | rfl | rfl | rfl
          all_goals exact ⟨rfl, rfl⟩
      · apply Reaches.of_run_invariant (I := fun _ => True) hu trivial
        intro v a w ha _ _
        simp only [List.mem_cons, List.not_mem_nil, or_false, or_self] at ha
        subst ha
        exact ⟨⟨rfl, by simp [State.FlushApart]⟩, trivial⟩
  obtain ⟨db, disk, hconstruct⟩ := hall u v q hreach hq hprogress hv
  rw [(eq_of_kill hv).1, hdisk] at hconstruct
  obtain ⟨r, hr⟩ := loadable_of_construct hconstruct _ _ hfind
  rw [hload] at hr
  simp at hr

end TinyLsm
