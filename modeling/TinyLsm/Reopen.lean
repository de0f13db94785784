import TinyLsm.Refinement

/-!
# Reopening

A database that is closed and reopened gives the same answers, provided the tables flushed
between the snapshot of a compaction and the reservation of its number agree with what it
merged (`sameAnswers_of_close`); `overtakenRun` breaks this condition and loses a write.
Without compactions, a database opens after any number of kills at any points and has every
call that returned (`durable_under_kills`).
-/

namespace TinyLsm

open Transition

/-- Two databases answer every lookup and every scan alike. -/
def Database.SameAnswers (db db' : Database) : Prop :=
  (∀ key, db'.get key = db.get key) ∧ ∀ start stop, db'.scan start stop = db.scan start stop

theorem Database.sameAnswers_of_view {db db' : Database} (h : ∀ r ∈ db.sstables, r.Valid)
    (h' : ∀ r ∈ db'.sstables, r.Valid) (hview : db'.view = db.view) :
  db.SameAnswers db'
  := by
  constructor
  · intro key
    rw [get_eq_view h, get_eq_view h', hview]
  · intro start stop
    obtain ⟨pairs, hpairs, his⟩ := scan_eq_view h start stop
    obtain ⟨pairs', hpairs', his'⟩ := scan_eq_view h' start stop
    rw [hview] at his'
    rw [hpairs, hpairs', his.unique his']

/-- The directory of a process between calls opens to a database with the same answers. -/
theorem Sound.reopen {s : State} (h : Sound True s) {p : Process} (hp : s.status = .running p)
    (hw : p.writer = .idle) (thr : UInt64) (trig : ℕ) :
  ∃ db disk, Database.construct thr trig s.disk = .ok (db, disk) ∧ p.db.SameAnswers db
  := by
  have hvalid := h.valid hp
  have hordered := h.ordered trivial p hp
  have hwf := h.wellFormed
  have hmeans := h.means
  rw [hp] at hwf hmeans
  obtain ⟨absorbed, hin, hmem, log, hfind, hlogged⟩ := hmeans.logged
  rw [hw] at hlogged
  have hlog : log = encodeOps (absorbed ++ []) ++ [] := by
    rw [List.append_nil, List.append_nil]
    exact hlogged
  obtain ⟨readers, hrec, hview⟩ := hmeans.recoverable hwf hordered []
    (by simpa using hin) hmem hfind hlog rfl
  obtain ⟨db, disk, hconstruct, hvalid', hview'⟩ := construct_recoverable hrec thr trig
  exact ⟨db, disk, hconstruct, Database.sameAnswers_of_view hvalid hvalid' (hview'.trans hview)⟩

/-- A directory at rest opens to a database that stands for the calls made so far. -/
theorem AtRest.reopen {disk : DbDisk} {calls : List Call} (h : AtRest disk calls) (thr : UInt64)
    (trig : ℕ) :
  ∃ db disk' ops, Database.construct thr trig disk = .ok (db, disk') ∧ Resolves calls ops
    ∧ ∀ key, db.get key = .ok (contents ops key)
  := by
  obtain ⟨readers, absorbed, ops, hrec, hresolves, hview⟩ := h
  obtain ⟨db, disk', hconstruct, hvalid, hview'⟩ := construct_recoverable hrec thr trig
  refine ⟨db, disk', ops, hconstruct, hresolves, ?_⟩
  intro key
  rw [Database.get_eq_view hvalid, hview', hview]

/-- The steps of the constructor, in the order of the listing, lead to where its run leads. -/
theorem reaches_construct {s : State} (hs : s.status = .down) {thr : UInt64} {trig : ℕ}
    {db : Database} {disk : DbDisk} (h : Database.construct thr trig s.disk = .ok (db, disk)) :
  Reaches step (fun _ a _ => a = .start thr trig ∨ a = .opener 0) s
    ⟨disk, .running db.idle, s.calls⟩
  := by
  obtain ⟨disk₀, status, calls⟩ := s
  simp only at hs h
  subst hs
  -- The leftover files go one by one.
  have hclean : ∀ (ns : List ℕ) (d : DbDisk),
      Reaches step (fun _ a _ => a = .start thr trig ∨ a = .opener 0)
        ⟨d, .opening (.cleaning thr trig ns), calls⟩
        ⟨ns.foldl (fun d n => (FileSystem.Syscall.unlink (.tmp n)).exec d) d,
          .opening (.cleaning thr trig []), calls⟩ := by
    intro ns
    induction ns with
    | nil => exact fun d => .refl
    | cons n ns ih =>
        intro d
        apply Reaches.head (.opener 0) _ (Or.inr rfl) (ih _)
        simp [step, Status.move, Opener.move, State.after, Move.files]
  rw [Database.construct] at h
  generalize hd : (tmpNumbers disk₀).foldl
    (fun disk n => (FileSystem.Syscall.unlink (.tmp n)).exec disk) disk₀ = cleaned at h
  cases hdiscover : Database.discover thr trig cleaned with
  | error e => simp [hdiscover, bind, Except.bind] at h
  | ok db₀ =>
      simp only [hdiscover, bind, Except.bind, Except.ok.injEq, Prod.mk.injEq] at h
      obtain ⟨rfl, hdisk⟩ := h
      apply Reaches.head (.start thr trig) _ (Or.inl rfl)
      · apply (hclean (tmpNumbers disk₀) disk₀).trans
        rw [hd]
        apply Reaches.head (.opener 0) (t := ⟨cleaned, .opening (.creatingLog db₀), calls⟩) _
          (Or.inr rfl)
        · apply Reaches.head (.opener 0) (t := ⟨(FileSystem.Syscall.create .walLog).exec cleaned,
            .opening (.replaying db₀), calls⟩) _ (Or.inr rfl)
          · generalize (FileSystem.Syscall.create .walLog).exec cleaned = created at hdisk ⊢
            generalize hlog : (created.find? .walLog).getD [] = log at hdisk ⊢
            split_ifs at hdisk with htorn
            · apply Reaches.head (.opener 0)
                (t := ⟨created, .opening (.truncating (db₀.replay log) (replayLog log).2), calls⟩)
                _ (Or.inr rfl)
              · apply Reaches.head (.opener 0) _ (Or.inr rfl) .refl
                simp [step, Status.move, Opener.move, State.after, Move.files, Opener.launched,
                  hdisk, Database.idle]
              · simp [step, Status.move, Opener.move, State.after, Move.files, Opener.replayed,
                  hlog, htorn]
            · subst hdisk
              apply Reaches.head (.opener 0) _ (Or.inr rfl) .refl
              simp [step, Status.move, Opener.move, State.after, Move.files, Opener.replayed,
                hlog, htorn, Opener.launched, Database.idle]
          · simp [step, Status.move, Opener.move, State.after, Move.files]
        · simp [step, Status.move, Opener.move, State.after, Move.files, Opener.discovering,
            hdiscover]
      · simp [step, Status.move, State.after, Move.files]

/-! ### Closing -/

/-- In every run in which the tables flushed between the snapshot of a compaction and the
reservation of its number agree with what it merged, a database that is closed and reopened
answers as before. -/
theorem sameAnswers_of_close {s t : State}
    (h : Reaches step (fun s a _ => StepOk True s a) State.init s) {p : Process}
    (hp : s.status = .running p) (hclose : step s .close = some t) (thr : UInt64) (trig : ℕ) :
  ∃ db disk, Database.construct thr trig t.disk = .ok (db, disk) ∧ p.db.SameAnswers db
  := by
  have hsound := sound_of_reaches h (fun s a t hok => hok)
  obtain ⟨c, ended, hstatus, hdisk, -⟩ := step_cases hclose rfl
  have hidle : p.writer = .idle ∧ t.disk = s.disk := by
    rw [hp] at hstatus
    generalize t.status = status at hstatus
    cases hstatus with
    | close hw hc => exact ⟨hw, hdisk⟩
  rw [hidle.2]
  exact hsound.reopen hp hidle.1 thr trig

/-- The step meets what is asked, with no compaction between its snapshot and the
reservation of its number. -/
def State.orderly (s : State) (a : Action) : Bool :=
  a.noFailure && decide a.InRange &&
    match s.status with
    | .running p => p.compactor.window.isNone
    | _ => true

theorem stepOk_of_orderly {s : State} {a : Action} (h : s.orderly a = true) :
  StepOk True s a
  := by
  simp only [State.orderly, Bool.and_eq_true, decide_eq_true_eq] at h
  obtain ⟨⟨hfail, hin⟩, hwindow⟩ := h
  refine ⟨hfail, hin, fun _ => ?_, fun _ => trivial⟩
  unfold State.FlushAgrees
  split
  · rename_i p count hp
    intro op toCompact hw hc
    simp [hp, hc] at hwindow
  · trivial

/-- The state can be closed. -/
def State.closes (s : State) : Bool :=
  s.isRunning && (step s .close).isSome

theorem State.closes_iff {s : State} :
  s.closes = true ↔ ∃ p t, s.status = .running p ∧ step s .close = some t
  := by
  rw [State.closes, Bool.and_eq_true, State.isRunning_iff, Option.isSome_iff_exists]
  constructor
  · rintro ⟨⟨p, hp⟩, t, ht⟩
    exact ⟨p, t, hp, ht⟩
  · rintro ⟨p, t, hp, ht⟩
    exact ⟨⟨p, hp⟩, t, ht⟩

theorem sameAnswers_of_close_twoTables :
  ∃ s p t, run (guarded step State.orderly) State.init
        (launchActions 0 3 ++ flushActions (.put [97] [1]) 52 ++ flushActions (.remove [97]) 51)
      = some s ∧ s.status = .running p ∧ step s .close = some t
    ∧ ∃ db disk, Database.construct 0 3 t.disk = .ok (db, disk) ∧ p.db.SameAnswers db
  := by
  have hrun : (run (guarded step State.orderly) State.init (launchActions 0 3
      ++ flushActions (.put [97] [1]) 52 ++ flushActions (.remove [97]) 51)).any State.closes
      = true := by
    decide +kernel
  obtain ⟨s, hs, hcloses⟩ := exists_of_run hrun
  obtain ⟨p, t, hp, ht⟩ := State.closes_iff.mp hcloses
  have hreach : Reaches step (fun s a _ => StepOk True s a) State.init s :=
    Reaches.of_run hs (fun _ _ _ ha => stepOk_of_orderly ha)
  exact ⟨s, p, t, hs, hp, ht, sameAnswers_of_close hreach hp ht 0 3⟩

/-- Closed and reopened, the database loses its last write of the key `a`. -/
def State.losesWrite (s : State) : Bool :=
  match s.status, step s .close with
  | .running p, some t =>
      match Database.construct 0 2 t.disk with
      | .ok (db, _) =>
          p.db.get [97] = .ok (some [2]) ∧ db.get [97] = .ok (some [1])
      | .error _ => false
  | _, _ => false

/-- A flush that overtakes a compaction: the merged table has the larger number, so that
after a reopen its older value of the key hides the newer one. -/
theorem not_sameAnswers_of_overtaken :
  ¬ ∀ (s t : State) (p : Process), Reaches step (fun s a _ => StepOk False s a) State.init s →
    s.status = .running p → step s .close = some t →
    ∃ db disk, Database.construct 0 2 t.disk = .ok (db, disk) ∧ p.db.SameAnswers db
  := by
  intro hall
  have hrun : (run (guarded step (fun _ a => a.undisturbed)) State.init overtakenRun).any
      State.losesWrite = true := by
    decide +kernel
  obtain ⟨s, hs, hloses⟩ := exists_of_run hrun
  have hreach : Reaches step (fun s a _ => StepOk False s a) State.init s :=
    Reaches.of_run hs (fun t _ _ ha => stepOk_of_undisturbed t ha)
  rw [State.losesWrite] at hloses
  split at hloses
  · rename_i p t hp ht
    obtain ⟨db, disk, hconstruct, hsame, -⟩ := hall s t p hreach hp ht
    simp only [hconstruct, decide_eq_true_eq] at hloses
    have hget := hsame [97]
    rw [hloses.1, hloses.2] at hget
    exact absurd hget (by decide)
  · simp at hloses

/-! ### Kills -/

/-- The compaction thread does not move. -/
def Action.noCompaction : Action → Bool
  | .compactor _ => false
  | _ => true

/-- The compaction thread, if there is a process, waits. -/
def State.Quiet (s : State) : Prop :=
  ∀ p, s.status = .running p → p.compactor = .waiting

theorem quiet_step {s t : State} {a : Action} (h : s.Quiet) (hstep : step s a = some t)
    (ha : a.noFailure) (hquiet : a.noCompaction) :
  t.Quiet
  := by
  obtain ⟨disk, status, calls⟩ := s
  obtain ⟨c, ended, hstatus, -, -⟩ := step_cases hstep ha
  intro q hq
  rw [hq] at hstatus
  cases hstatus with
  | opener hopener =>
      cases hopener with
      | replayWhole hlog hle => rfl
      | truncate => rfl
  | @call p op hw =>
      have hwait := h p rfl
      exact hwait
  | @writer p count c status ended hwriter =>
      have hwait := h p rfl
      cases hwriter with
      | _ => exact hwait
  | compactor hcompactor => simp [Action.noCompaction] at hquiet

/-- A kill leaves the files and no process. -/
theorem eq_of_kill {s t : State} (h : step s .kill = some t) :
  t.disk = s.disk ∧ t.status = .down
  := by
  obtain ⟨c, ended, hstatus, hdisk, -⟩ := step_cases h rfl
  generalize s.status = before at hstatus
  generalize t.status = after at hstatus
  cases hstatus with
  | killOpener => exact ⟨hdisk, rfl⟩
  | kill => exact ⟨hdisk, rfl⟩

/-- After a kill at any point, the directory opens to a database that stands for the calls
made so far. -/
theorem Sound.reopen_killed {s t : State} (h : Sound True s) (hkill : step s .kill = some t)
    (thr : UInt64) (trig : ℕ) :
  ∃ db disk ops, Database.construct thr trig t.disk = .ok (db, disk) ∧ Resolves t.calls ops
    ∧ ∀ key, db.get key = .ok (contents ops key)
  := by
  have hok : StepOk True s .kill := by
    refine ⟨rfl, trivial, fun _ => ?_, fun _ => trivial⟩
    simp [State.FlushAgrees]
  have hmeans := (sound_step h hkill hok).means
  rw [(eq_of_kill hkill).2] at hmeans
  exact AtRest.reopen hmeans thr trig

/-- Without compactions, no flush overtakes one. -/
theorem State.Quiet.flushAgrees {s : State} (h : s.Quiet) (a : Action) :
  s.FlushAgrees a
  := by
  unfold State.FlushAgrees
  split
  · rename_i p count hp
    intro op toCompact hw hc
    rw [h p hp] at hc
    simp [Compactor.window] at hc
  · trivial

/-- Without compactions, whatever the number of kills and wherever they fall, no constructor
throws, a running database has every call that returned, in order, and of each call a kill
cut short all or nothing, and so has the database opened after a kill at any point. -/
theorem durable_under_kills {s : State}
    (h : Reaches step (fun _ a _ => a.noFailure ∧ a.InRange ∧ a.noCompaction) State.init s) :
  (∀ e, s.status ≠ .failed e)
    ∧ (∀ p, s.status = .running p → p.writer = .idle →
      ∃ ops, Resolves s.calls ops ∧ ∀ key, p.db.get key = .ok (contents ops key))
    ∧ ∀ t, step s .kill = some t → ∀ thr trig,
      ∃ db disk ops, Database.construct thr trig t.disk = .ok (db, disk) ∧ Resolves t.calls ops
        ∧ ∀ key, db.get key = .ok (contents ops key)
  := by
  have hinv : Sound True s ∧ s.Quiet := by
    apply h.invariant (I := fun s => Sound True s ∧ s.Quiet)
    · exact ⟨sound_init True, by simp [State.Quiet, State.init]⟩
    · rintro s a t ⟨hsound, hquiet⟩ hstep ⟨hfail, hin, hcompact⟩
      have hok : StepOk True s a :=
        ⟨hfail, hin, fun _ => hquiet.flushAgrees a, fun _ => trivial⟩
      exact ⟨sound_step hsound hstep hok, quiet_step hquiet hstep hfail hcompact⟩
  obtain ⟨hsound, hquiet⟩ := hinv
  refine ⟨?_, ?_, ?_⟩
  · intro e he
    have hmeans := hsound.means
    rw [he] at hmeans
    exact hmeans
  · intro p hp hw
    have hmeans := hsound.means
    rw [hp] at hmeans
    obtain ⟨ops, hresolves, hview⟩ := hmeans.view
    rw [hw] at hview
    refine ⟨ops, hresolves, ?_⟩
    intro key
    rw [Database.get_eq_view (hsound.valid hp), hview]
    simp [Writer.applied]
  · exact fun t hkill => hsound.reopen_killed hkill

/-- A kill in the middle of a record, a kill while the constructor truncates the log, a kill
in the middle of a temporary file, and one between a rename and the reset of the log. -/
def killedRun : List Action :=
  [launchActions 0 9, [.call (.put [97] [1]), .writer 5, .kill],
    launchActions 0 9, [.kill], launchActions 0 9, [.opener 0],
    [.call (.put [97] [2]), .writer 15, .writer 0, .writer 0, .writer 0, .writer 20, .kill],
    launchActions 0 9, [.opener 0],
    [.call (.remove [97]), .writer 14, .writer 0, .writer 0, .writer 0, .writer 51, .writer 0,
      .writer 0]].flatten

theorem durable_under_kills_killedRun :
  ∃ s t, run (guarded step (fun _ a => a.noFailure && decide a.InRange && a.noCompaction))
      State.init killedRun = some s ∧ step s .kill = some t
    ∧ ∀ thr trig, ∃ db disk ops, Database.construct thr trig t.disk = .ok (db, disk)
      ∧ Resolves t.calls ops ∧ ∀ key, db.get key = .ok (contents ops key)
  := by
  have hrun : (run (guarded step (fun _ a => a.noFailure && decide a.InRange && a.noCompaction))
      State.init killedRun).any (fun s => (step s .kill).isSome) = true := by
    decide +kernel
  obtain ⟨s, hs, hkill⟩ := exists_of_run hrun
  obtain ⟨t, ht⟩ := Option.isSome_iff_exists.mp hkill
  have hreach : Reaches step (fun _ a _ => a.noFailure ∧ a.InRange ∧ a.noCompaction)
      State.init s := by
    apply Reaches.of_run hs
    intro s a u ha
    simp only [Bool.and_eq_true, decide_eq_true_eq] at ha
    exact ⟨ha.1.1, ha.1.2, ha.2⟩
  exact ⟨s, t, hs, ht, (durable_under_kills hreach).2.2 t ht⟩

end TinyLsm
