import TinyLsm.CompactionCrash
import TinyLsm.FailedFlush
import TinyLsm.Linearizability

/-!
# Sessions

The clients of one process after the other: a process is killed at any point, with any calls in progress,
and the next one opens the directory, which may be killed as well.  What all clients see is durably
linearizable: each call takes effect at one moment, and of the calls that a kill cuts short each has taken
effect or never does (`sessions_durably_linearizable`).
-/

namespace TinyLsm

open FileSystem Transition Linearization

/-! ### The end of a process -/

/-- At whatever point a process ends, its directory stands for the map it serves, with the operation of
a record that is whole. -/
theorem Process.Means.recoverable_serving {p : Process} {disk : DbDisk} {calls : List Call}
    {m : Bytes → Option Bytes} (h : p.WellFormed disk) (hm : p.Means disk calls) (ho : p.Ordered)
    (hserving : p.Serving disk m) :
  ∃ readers absorbed, Recoverable disk readers absorbed
    ∧ recoveredView readers absorbed = applyAll m p.writer.complete
  := by
  obtain ⟨absorbed, hin, hmem, log, hfind, hlogged⟩ := hm.logged
  have hcounted := hserving.counted
  -- Nothing behind the records of the operations absorbed counts.
  have hsame : ∀ tail : Bytes, log = encodeOps absorbed ++ tail → decodeFrame tail = none →
      ∃ readers absorbed, Recoverable disk readers absorbed
        ∧ recoveredView readers absorbed = p.db.view := by
    intro tail hlog htail
    obtain ⟨readers, hrec⟩ := hm.recoverable h ho [] (by simpa using hin) hmem hfind
      (by simpa using hlog) htail
    exact ⟨readers, _, hrec⟩
  -- The record of the call in flight is whole.
  have hnext : ∀ op : Op, op.InRange → log = encodeOps absorbed ++ op.encode →
      ∃ readers absorbed, Recoverable disk readers absorbed
        ∧ recoveredView readers absorbed = op.apply p.db.view := by
    intro op hop hlog
    have hsplit : log = encodeOps (absorbed ++ [op]) ++ [] := by simp [hlog]
    obtain ⟨readers, hrec⟩ := hm.recoverable h ho [op]
      (List.forall_mem_append.mpr ⟨hin, by simpa using hop⟩) hmem hfind hsplit rfl
    exact ⟨readers, _, hrec⟩
  cases hw : p.writer with
  | idle =>
      rw [hw] at hcounted hlogged
      rw [Writer.complete, applyAll_nil, ← hcounted]
      exact hsame [] (by rw [List.append_nil]; exact hlogged) rfl
  | appending op rest =>
      rw [hw] at hcounted hlogged
      obtain ⟨hop, written, hsplit, hlog⟩ := hlogged
      rw [← hcounted.2]
      by_cases hrest : rest = []
      · rw [hrest, List.append_nil] at hsplit
        rw [hrest, Writer.complete, applyAll_singleton]
        exact hnext op hop (by rw [hlog, hsplit])
      · rw [Writer.complete_appending hrest, applyAll_nil]
        exact hsame written hlog (op.decodeFrame_prefix hop hsplit hrest)
  | applying op =>
      rw [hw] at hcounted hlogged
      rw [Writer.complete, applyAll_nil, hcounted.2]
      exact hnext op hlogged.1 hlogged.2
  | flushing op file =>
      rw [hw] at hcounted hlogged
      rw [Writer.complete, applyAll_nil, ← hcounted]
      exact hsame [] (by rw [List.append_nil]; exact hlogged) rfl
  | resetting op =>
      rw [hw] at hcounted hlogged
      rw [Writer.complete, applyAll_nil, ← hcounted]
      exact hsame [] (by rw [List.append_nil]; exact hlogged) rfl

/-- A directory stands for one map. -/
theorem Recoverable.view_unique {disk : DbDisk} {readers readers' : List SSTableReader}
    {absorbed absorbed' : List Op} (h : Recoverable disk readers absorbed)
    (h' : Recoverable disk readers' absorbed') :
  recoveredView readers absorbed = recoveredView readers' absorbed'
  := by
  obtain ⟨db, disk₁, hconstruct, -, hview⟩ := construct_recoverable h 0 0
  obtain ⟨db', disk₂, hconstruct', -, hview'⟩ := construct_recoverable h' 0 0
  rw [hconstruct] at hconstruct'
  obtain ⟨rfl, -⟩ := Prod.mk.inj (Except.ok.inj hconstruct')
  rw [← hview, hview']

/-- The state stands for the map, whatever the calls have been that led to it. -/
def State.StandsFor (s : State) (m : Bytes → Option Bytes) : Prop :=
  ∃ ops, contents ops = m ∧ Sound True { s with calls := finished ops }

/-- The end of a process leaves its map. -/
theorem State.standsFor_of_kill {s t : State} {p : Process} {m : Bytes → Option Bytes}
    (hs : Sound True s) (hp : s.status = .running p) (hserving : p.Serving s.disk m)
    (hkill : TinyLsm.step s .kill = some t) :
  t.status = .down ∧ t.StandsFor (applyAll m p.writer.complete)
  := by
  obtain ⟨hdisk, hdown⟩ := eq_of_kill hkill
  have hsound : Sound True t :=
    sound_step hs hkill ⟨rfl, trivial, fun _ => by simp [State.FlushAgrees], fun _ => trivial⟩
  have hwf := hs.wellFormed
  have hmeans := hs.means
  rw [hp] at hwf hmeans
  obtain ⟨readers, absorbed, hrec, hview⟩ :=
    hmeans.recoverable_serving hwf (hs.ordered trivial p hp) hserving
  have hrest := hsound.means
  rw [hdown] at hrest
  obtain ⟨readers', absorbed', ops, hrec', -, hview'⟩ := hrest
  rw [← hdisk] at hrec
  have hops : contents ops = applyAll m p.writer.complete := by
    rw [← hview', ← hview, hrec'.view_unique hrec]
  refine ⟨hdown, ops, hops, hsound.wellFormed, ?_, ?_⟩
  · change t.status.Means t.disk (finished ops)
    rw [hdown]
    exact atRest_finished_iff.mpr ⟨_, _, hrec', hview'⟩
  · intro _ q hq
    rw [hdown] at hq
    cases hq

/-- No process runs. -/
def Status.Resting (status : Status) : Prop :=
  ∀ p, status ≠ .running p

/-- A step with no process running begins and ends no call, and launches a process between calls. -/
theorem Status.Step.of_resting {disk : DbDisk} {status status' : Status} {a : Action}
    {c : Option DbSyscall} {ended : List Call} (h : Status.Step disk status a c status' ended)
    (hrest : status.Resting) :
  a.InRange ∧ ended = [] ∧ ∀ p, status' = .running p → p.writer = .idle
  := by
  cases h with
  | start => exact ⟨trivial, rfl, by simp⟩
  | restart => exact ⟨trivial, rfl, by simp⟩
  | opener hopener =>
      refine ⟨trivial, hopener.ended_eq_nil, ?_⟩
      cases hopener with
      | replayWhole hlog hle =>
          rintro p ⟨⟩
          rfl
      | truncate =>
          rintro p ⟨⟩
          rfl
      | _ => simp
  | killOpener => exact ⟨trivial, rfl, by simp⟩
  | call hw => exact absurd rfl (hrest _)
  | writer hwriter => exact absurd rfl (hrest _)
  | compactor hcompactor => exact absurd rfl (hrest _)
  | close hw hc => exact absurd rfl (hrest _)
  | kill => exact absurd rfl (hrest _)

/-- The steps of the constructor, and a kill, keep the map the directory stands for. -/
theorem State.StandsFor.step {s t : State} {a : Action} {m : Bytes → Option Bytes}
    (h : s.StandsFor m) (hrest : s.status.Resting) (hstep : TinyLsm.step s a = some t)
    (hfail : a.noFailure) :
  t.StandsFor m ∧ ∀ p, t.status = .running p → p.writer = .idle ∧ p.db.view = m
  := by
  obtain ⟨ops, rfl, hsound⟩ := h
  obtain ⟨move, hmove, rfl⟩ := Option.map_eq_some_iff.mp hstep
  obtain ⟨hin, hended, hlaunched⟩ := (Status.step_of_move hmove hfail s.disk).of_resting hrest
  have hstep' : TinyLsm.step { s with calls := finished ops } a
      = some { s.after move with calls := finished ops } := by
    rw [TinyLsm.step, hmove, Option.map_some, State.after, State.after]
    dsimp only
    rw [hended, List.append_nil]
  have hagrees : State.FlushAgrees { s with calls := finished ops } a := by
    unfold State.FlushAgrees
    split
    · rename_i p count hp
      exact absurd hp (hrest p)
    · trivial
  have hsound' := sound_step hsound hstep' ⟨hfail, hin, fun _ => hagrees, fun _ => trivial⟩
  refine ⟨⟨ops, rfl, hsound'⟩, ?_⟩
  intro p hp
  have hidle := hlaunched p hp
  have happlied : p.writer.applied = [] := by
    rw [hidle]
    rfl
  have hmeans := hsound'.means
  rw [hp] at hmeans
  obtain ⟨ops', hresolves, hview⟩ := hmeans.view
  refine ⟨hidle, ?_⟩
  rw [hview, resolves_finished_iff.mp hresolves, happlied, List.append_nil]

/-! ### Clients of one process after the other -/

/-- The clients of a process, and what was seen of the processes before. -/
structure Sessions (ι : Type*) where
  past : List (List (Event ι Request Answer))
  clients : Clients ι

inductive SessionAction (ι : Type*) where
  /-- The constructor moves, or the process is killed in it. -/
  | process (a : Action)
  | client (a : ClientAction ι)

namespace Sessions

variable {ι : Type*}

/-- An empty directory. -/
def init : Sessions ι :=
  ⟨[], .init State.init⟩

variable [DecidableEq ι]

/-- The clients after a step; with the end of the process, the next ones have seen nothing yet. -/
def after (x : Sessions ι) (c : Clients ι) : Sessions ι :=
  match c.state.status with
  | .running _ => { x with clients := c }
  | _ => ⟨x.past ++ [c.history], .init c.state⟩

/-- One step of the clients and their process, or of the constructor of the next one. -/
def step (x : Sessions ι) : SessionAction ι → Option (Sessions ι)
  | .client a => (x.clients.step a).map x.after
  | .process a =>
      match x.clients.state.status with
      | .running _ => none
      | _ => (TinyLsm.step x.clients.state a).map (fun s => { x with clients := .init s })

end Sessions

/-- What happens without failing calls. -/
def ClientAction.noFailure {ι : Type*} : ClientAction ι → Bool
  | writeFail _ _ => false
  | compactorFail _ => false
  | _ => true

/-- The action does not let a flush rename a table during a compaction. -/
def Clients.FlushApart {ι : Type*} (c : Clients ι) : ClientAction ι → Prop
  | .write _ count => c.state.FlushApart (.writer count)
  | _ => True

/-- What is asked of a step: no system call fails, what is written fits the fields of a record, and no
flush renames a table during a compaction. -/
def Sessions.StepOk {ι : Type*} (x : Sessions ι) : SessionAction ι → Prop
  | .process a => a.noFailure
  | .client a => a.noFailure ∧ a.InRange ∧ x.clients.FlushApart a

/-! ### Runs -/

namespace Clients

variable {ι : Type*} [DecidableEq ι] {c c' : Clients ι} {p : Process} {m m₀ : Bytes → Option Bytes}
  {phase : ι → Phase Request Answer}

/-- What a step of the clients is for the process: no step, or one that ends the process only with a
kill. -/
theorem Coherent.state_step {a : ClientAction ι} (h : c.Coherent p m phase)
    (hp : c.state.status = .running p) (hstep : c.step a = some c') (hfail : a.noFailure)
    (hapart : c.FlushApart a) :
  c'.state = c.state ∨ ∃ b, TinyLsm.step c.state b = some c'.state ∧ Apart c.state b c'.state
    ∧ (b.ends → b = .kill ∧ c'.history = c.history)
  := by
  have hother : ∀ {b : Action}, (∀ count, b ≠ .writer count) → c.state.FlushApart b := by
    intro b hb
    unfold State.FlushApart
    split
    · exact absurd rfl (hb _)
    · trivial
  rw [step_eq_move hp] at hstep
  cases a with
  | invoke t request =>
      simp only [move] at hstep
      split at hstep
      · obtain rfl := Option.some.inj hstep
        exact Or.inl rfl
      · cases hstep
  | lock t =>
      have hfollows := h.follows t
      simp only [move] at hstep
      split at hstep
      · rename_i request ht
        rw [ht] at hfollows
        obtain ⟨mutex, -, hlocked⟩ := Option.bind_eq_some_iff.mp hstep
        cases request with
        | write op =>
            obtain ⟨s, hs, rfl⟩ := Option.map_eq_some_iff.mp hlocked
            exact Or.inr ⟨_, hs, ⟨rfl, hfollows.2, hother (by simp)⟩, by simp [Action.ends]⟩
        | get key =>
            obtain rfl := Option.some.inj hlocked
            exact Or.inl rfl
        | scan start stop =>
            obtain rfl := Option.some.inj hlocked
            exact Or.inl rfl
      · cases hstep
  | read t =>
      simp only [move] at hstep
      split at hstep
      · obtain ⟨x, -, rfl⟩ := Option.map_eq_some_iff.mp hstep
        cases x with
        | inl read => exact Or.inl rfl
        | inr answer => exact Or.inl rfl
      · cases hstep
  | write t count =>
      simp only [move] at hstep
      split at hstep
      · obtain ⟨s, hs, rfl⟩ := Option.map_eq_some_iff.mp hstep
        rw [state_written]
        exact Or.inr ⟨_, hs, ⟨rfl, trivial, hapart⟩, by simp [Action.ends]⟩
      · cases hstep
  | writeFail t late => cases hfail
  | unlock t =>
      simp only [move] at hstep
      split at hstep
      · obtain ⟨mutex, -, rfl⟩ := Option.map_eq_some_iff.mp hstep
        exact Or.inl rfl
      · cases hstep
  | respond t =>
      simp only [move] at hstep
      split at hstep
      · obtain rfl := Option.some.inj hstep
        exact Or.inl rfl
      · cases hstep
  | lockCompactor =>
      obtain ⟨mutex, -, rfl⟩ := Option.map_eq_some_iff.mp hstep
      exact Or.inl rfl
  | compactor count =>
      simp only [move] at hstep
      split_ifs at hstep
      obtain ⟨s, hs, rfl⟩ := Option.map_eq_some_iff.mp hstep
      exact Or.inr ⟨_, hs, ⟨rfl, trivial, hother (by simp)⟩, by simp [Action.ends]⟩
  | compactorFail late => cases hfail
  | unlockCompactor =>
      simp only [move] at hstep
      split_ifs at hstep
      obtain ⟨mutex, -, rfl⟩ := Option.map_eq_some_iff.mp hstep
      exact Or.inl rfl
  | kill =>
      obtain ⟨s, hs, rfl⟩ := Option.map_eq_some_iff.mp hstep
      exact Or.inr ⟨_, hs, ⟨rfl, trivial, hother (by simp)⟩, fun _ => ⟨rfl, rfl⟩⟩

/-- A call that a kill cuts short takes effect with its record. -/
theorem Coherent.cutShort (h : c.Coherent p m phase)
    (hlin : Linearizes Request.Allows m₀ c.history m phase) :
  ∃ m' phase', p.Serving c.state.disk m'
    ∧ Linearizes Request.Allows m₀ c.history (applyAll m' p.writer.complete) phase'
  := by
  obtain ⟨m', hserving, hadds⟩ := h.serves
  -- The call takes effect.
  have heffect : ∀ op, p.writer.operation = some op →
      ∃ phase', Linearizes Request.Allows m₀ c.history (op.apply m) phase' := by
    intro op hop
    obtain hidle | ⟨t, ht⟩ := h.busy
    · rw [hidle] at hop
      cases hop
    · have hfollows := h.follows t
      rw [ht] at hfollows
      obtain ⟨op', hop', hpending⟩ := hfollows
      obtain rfl := Option.some.inj (hop.symm.trans hop')
      have hallows : (Request.write op).Allows .written m (op.apply m) := rfl
      exact ⟨_, .effect .written hlin hpending hallows⟩
  refine ⟨m', ?_⟩
  cases hw : p.writer with
  | idle =>
      rw [hw] at hadds
      obtain rfl : m' = m := hadds
      exact ⟨phase, hserving, hlin⟩
  | appending op rest =>
      rw [hw] at hadds
      obtain rfl : m' = m := hadds
      by_cases hrest : rest = []
      · obtain ⟨phase', hlin'⟩ := heffect op (by rw [hw]; rfl)
        rw [hrest]
        exact ⟨phase', hserving, hlin'⟩
      · rw [Writer.complete_appending hrest]
        exact ⟨phase, hserving, hlin⟩
  | applying op =>
      rw [hw] at hadds
      obtain rfl : m' = op.apply m := hadds
      obtain ⟨phase', hlin'⟩ := heffect op (by rw [hw]; rfl)
      exact ⟨phase', hserving, hlin'⟩
  | flushing op file =>
      rw [hw] at hadds
      obtain rfl : m' = op.apply m := hadds
      obtain ⟨phase', hlin'⟩ := heffect op (by rw [hw]; rfl)
      exact ⟨phase', hserving, hlin'⟩
  | resetting op =>
      rw [hw] at hadds
      obtain rfl : m' = op.apply m := hadds
      obtain ⟨phase', hlin'⟩ := heffect op (by rw [hw]; rfl)
      exact ⟨phase', hserving, hlin'⟩

end Clients

/-- No step ends a sound process but the two that are meant to. -/
theorem Sound.running_step {ends : Prop} {s t : State} {a : Action} {p : Process}
    (h : Sound ends s) (hp : s.status = .running p) (hstep : step s a = some t)
    (hfail : a.noFailure) (hends : ¬ a.ends) :
  ∃ q, t.status = .running q
  := by
  obtain ⟨c, ended, hstatus, hdisk, -⟩ := step_cases hstep hfail
  have hwf := h.wellFormed
  have hmeans := h.means
  rw [hp] at hwf hmeans hstatus
  generalize t.status = status at hstatus ⊢
  cases hstatus with
  | writer hwriter =>
      obtain ⟨q, hq, -⟩ := hmeans.writerStep hwf hdisk hwriter
      exact ⟨q, hq⟩
  | compactor hcompactor =>
      obtain ⟨q, hq, -⟩ := hmeans.compactorStep hwf hdisk hcompactor
      exact ⟨q, hq⟩
  | call hw => exact ⟨_, rfl⟩
  | close hw hc => simp [Action.ends] at hends
  | kill => simp [Action.ends] at hends

namespace Sessions

variable {ι : Type*} [DecidableEq ι] {x y : Sessions ι}

/-- The sessions before have left a map, and the present one goes on from it. -/
structure DurableAt (x : Sessions ι) (m : Bytes → Option Bytes) : Prop where
  reaches : Reaches TinyLsm.step Apart State.init x.clients.state
  past : DurablyLinearizes Request.Allows (fun _ => none) x.past m
  resting : x.clients.state.status.Resting →
    x.clients.state.StandsFor m ∧ x.clients.history = []
  running : ∀ p, x.clients.state.status = .running p → x.clients.Linear m

theorem durableAt_init :
  (init : Sessions ι).DurableAt (fun _ => none)
  where
    reaches := .refl
    past := .init
    resting := by
      intro _
      exact ⟨⟨[], rfl, sound_init True⟩, rfl⟩
    running := by
      intro p hp
      cases hp

/-- A step of the constructor. -/
theorem DurableAt.process {m : Bytes → Option Bytes} {a : Action} {s : State} (h : x.DurableAt m)
    (hrest : x.clients.state.status.Resting) (hstep : TinyLsm.step x.clients.state a = some s)
    (hfail : a.noFailure) :
  ({ x with clients := .init s } : Sessions ι).DurableAt m
  := by
  obtain ⟨hstands, hlaunched⟩ := (h.resting hrest).1.step hrest hstep hfail
  have hapart : x.clients.state.FlushApart a := by
    unfold State.FlushApart
    split
    · rename_i p count hp
      exact absurd hp (hrest p)
    · trivial
  have hin : a.InRange := by
    obtain ⟨move, hmove, -⟩ := Option.map_eq_some_iff.mp hstep
    exact ((Status.step_of_move hmove hfail x.clients.state.disk).of_resting hrest).1
  have hreach : Reaches TinyLsm.step Apart State.init s :=
    .tail a h.reaches hstep ⟨hfail, hin, hapart⟩
  refine ⟨hreach, h.past, fun _ => ⟨hstands, rfl⟩, ?_⟩
  intro p hp
  obtain ⟨hidle, rfl⟩ := hlaunched p hp
  exact Clients.linear_init hp (Status.serves_of_reaches (hreach.mono (fun _ _ _ ha => ha.2.1))) hidle

/-- A step of the clients or of their process. -/
theorem DurableAt.client {m : Bytes → Option Bytes} {a : ClientAction ι} {c : Clients ι} {p : Process}
    (h : x.DurableAt m) (hp : x.clients.state.status = .running p)
    (hstep : x.clients.step a = some c) (hfail : a.noFailure) (hin : a.InRange)
    (hapart : x.clients.FlushApart a) :
  ∃ m', (x.after c).DurableAt m'
  := by
  have hlinear := h.running p hp
  have hlinear' := hlinear.step hin hstep
  obtain ⟨m₁, phase, hlin, hcoherent⟩ := hlinear
  have hsound := sound_of_apart h.reaches
  obtain hsame | ⟨b, hb, hok, hends⟩ := (hcoherent p hp).state_step hp hstep hfail hapart
  · refine ⟨m, ?_⟩
    rw [after, hsame, hp]
    refine ⟨?_, h.past, ?_, fun _ _ => hlinear'⟩
    · dsimp only
      rw [hsame]
      exact h.reaches
    · intro hrest
      dsimp only at hrest
      rw [hsame] at hrest
      exact absurd hp (hrest p)
  · have hreach : Reaches TinyLsm.step Apart State.init c.state := .tail b h.reaches hb hok
    by_cases hend : b.ends
    · -- The process is killed.
      obtain ⟨rfl, hhistory⟩ := hends hend
      obtain ⟨m', phase', hserving, hcut⟩ := (hcoherent p hp).cutShort hlin
      obtain ⟨hdown, hstands⟩ := State.standsFor_of_kill hsound hp hserving hb
      refine ⟨applyAll m' p.writer.complete, ?_⟩
      rw [after, hdown, hhistory]
      refine ⟨hreach, .crash h.past hcut, fun _ => ⟨hstands, rfl⟩, ?_⟩
      intro q hq
      exact absurd (hdown.symm.trans hq) (by simp)
    · obtain ⟨q, hq⟩ := hsound.running_step hp hb hok.1 hend
      refine ⟨m, ?_⟩
      rw [after, hq]
      refine ⟨hreach, h.past, fun hrest => absurd hq (hrest q), fun _ _ => hlinear'⟩

theorem DurableAt.step {m : Bytes → Option Bytes} {a : SessionAction ι} (h : x.DurableAt m)
    (hstep : x.step a = some y) (hok : x.StepOk a) :
  ∃ m', y.DurableAt m'
  := by
  cases a with
  | client a =>
      obtain ⟨c, hc, rfl⟩ := Option.map_eq_some_iff.mp hstep
      obtain ⟨hfail, hin, hapart⟩ := hok
      have hrunning : ∃ p, x.clients.state.status = .running p := by
        rw [Clients.step] at hc
        split at hc
        · exact ⟨_, ‹_›⟩
        · cases hc
      obtain ⟨p, hp⟩ := hrunning
      exact h.client hp hc hfail hin hapart
  | process a =>
      rw [Sessions.step] at hstep
      split at hstep
      · cases hstep
      · rename_i hrest
        obtain ⟨s, hs, rfl⟩ := Option.map_eq_some_iff.mp hstep
        exact ⟨m, h.process hrest hs hok⟩

end Sessions

/-- What any number of clients see of a database, while its processes are killed at any points and the
directory is opened again, is durably linearizable, and the directory can always be opened. -/
theorem sessions_durably_linearizable {ι : Type*} [DecidableEq ι] {x : Sessions ι}
    (h : Reaches Sessions.step (fun x a _ => x.StepOk a) Sessions.init x) :
  (∀ e, x.clients.state.status ≠ .failed e)
    ∧ ∃ m, DurablyLinearizes Request.Allows (fun _ => none) (x.past ++ [x.clients.history]) m
  := by
  obtain ⟨m, hdurable⟩ := h.invariant (I := fun x => ∃ m, x.DurableAt m)
    ⟨_, Sessions.durableAt_init⟩ (fun x a y hx hstep hok => hx.choose_spec.step hstep hok)
  constructor
  · intro e he
    have hmeans := (sound_of_apart hdurable.reaches).means
    rw [he] at hmeans
    exact hmeans
  · by_cases hrest : x.clients.state.status.Resting
    · rw [(hdurable.resting hrest).2]
      exact ⟨m, .crash hdurable.past .init⟩
    · obtain ⟨p, hp⟩ := not_forall_not.mp hrest
      obtain ⟨m', phase, hlin, -⟩ := hdurable.running p hp
      exact ⟨m', .crash hdurable.past hlin⟩

/-- The step meets what is asked of it. -/
def Sessions.stepOk {ι : Type*} (x : Sessions ι) : SessionAction ι → Bool
  | .process a => a.noFailure
  | .client (.write _ count) => x.clients.state.apart (.writer count)
  | .client a => a.noFailure && decide a.InRange

theorem Sessions.stepOk_of_test {ι : Type*} {x : Sessions ι} {a : SessionAction ι}
    (h : x.stepOk a = true) :
  x.StepOk a
  := by
  cases a with
  | process a => exact h
  | client a =>
      cases a with
      | write t count => exact ⟨rfl, trivial, (flushApart_of_apart h).2.2⟩
      | _ =>
          simp only [stepOk, Bool.and_eq_true, decide_eq_true_eq] at h
          exact ⟨h.1, h.2, trivial⟩

/-- A client writes, and the process is killed when the record is written but not synced; the next one
is killed while it opens the directory; another client reads the key from the third. -/
def cutShortCalls : List (SessionAction Bool) :=
  [(launchActions 0 2).map .process,
    [.client (.invoke false (.write (.put [97] [1]))), .client (.lock false),
      .client (.write false 15), .client .kill],
    [.process (.start 0 2), .process (.opener 0), .process .kill],
    (launchActions 0 2).map .process,
    [.client (.invoke true (.get [97])), .client (.lock true), .client (.read true),
      .client (.unlock true), .client (.respond true)]].flatten

theorem sessions_durably_linearizable_cutShort :
  ∃ x, run (guarded Sessions.step Sessions.stepOk) Sessions.init cutShortCalls = some x
    ∧ x.past = [[.invoke false (.write (.put [97] [1]))]]
    ∧ x.clients.history = [.invoke true (.get [97]), .respond true (.value (some [1]))]
    ∧ ∃ m, DurablyLinearizes Request.Allows (fun _ => none) (x.past ++ [x.clients.history]) m
  := by
  have hrun : (run (guarded Sessions.step Sessions.stepOk) Sessions.init cutShortCalls).any
      (fun x => decide (x.past = [[.invoke false (.write (.put [97] [1]))]]
        ∧ x.clients.history = [.invoke true (.get [97]), .respond true (.value (some [1]))])) = true := by
    decide +kernel
  obtain ⟨x, hx, htest⟩ := exists_of_run hrun
  obtain ⟨hpast, hhistory⟩ := of_decide_eq_true htest
  refine ⟨x, hx, hpast, hhistory, ?_⟩
  exact (sessions_durably_linearizable
    (Reaches.of_run hx (fun _ _ _ ha => Sessions.stepOk_of_test ha))).2

end TinyLsm
