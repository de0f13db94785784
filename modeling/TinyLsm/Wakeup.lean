import TinyLsm.Library.Monitor
import TinyLsm.Library.Transition
import Mathlib.Data.Fintype.Basic
import Mathlib.Logic.Function.Basic

/-!
# Waking the compaction thread

`compaction_cv_mutex_`, `compaction_cv_`, the three flags they guard, and the threads that
use them: the compaction thread, writers that call `MaybeTriggerCompaction`, callers of
`WaitForBackgroundCompaction`, and the destructor.  The compaction thread and the callers
wait on one condition variable for different things, and a writer wakes one waiter after it
has released the mutex.  A state is stranded when a compaction is requested, the compaction
thread sleeps, and no thread has a notification left to perform.

There are any number of writers and of callers.  Here the writers run freely; in the program
they also hold `mutex_`, so its runs are among these.
-/

namespace TinyLsm

open Transition

/-- The threads that use the condition variable, with writers `ι` and callers `κ`. -/
inductive Thread (ι κ : Type*) where
  | compaction
  | writer (i : ι)
  | caller (k : κ)
  | destructor
deriving DecidableEq

/-- Where a thread stands that sets a flag under the mutex, releases it, and then notifies. -/
inductive Notifier where
  | outside
  | locking
  | setting
  | unlocking
  | notifying
deriving DecidableEq

/-- Where `CompactionThreadMain` stands. -/
inductive Loop where
  | locking
  /-- At the predicate of the wait, holding the mutex. -/
  | testing
  | waiting
  /-- In `CompactOnce`. -/
  | compacting
  | relocking
  | clearing
  | notifying
  | returned
deriving DecidableEq

/-- Where a thread stands that may call `WaitForBackgroundCompaction`. -/
inductive Caller where
  | outside
  | locking
  /-- At the predicate of the wait, holding the mutex. -/
  | testing
  | waiting
deriving DecidableEq

/-- The monitor, the flags under it, and where the threads stand. -/
structure Signals (ι κ : Type*) where
  monitor : Monitor (Thread ι κ)
  compactionRequested : Bool
  compactionRunning : Bool
  shuttingDown : Bool
  compaction : Loop
  writer : ι → Notifier
  caller : κ → Caller
  destructor : Notifier

/-- A thread moves.  A notification of one comes with the waiter it moves out. -/
inductive Signal (ι κ : Type*) where
  | compaction
  | writer (i : ι) (pick : Option (Thread ι κ))
  | caller (k : κ)
  | destructor (pick : Option (Thread ι κ))
  /-- A waiter wakes without a notification. -/
  | spurious (t : Thread ι κ)

/-- A notification is still to be performed. -/
def Notifier.Pending (n : Notifier) : Prop :=
  n ≠ .outside

/-- Where `compaction_running_` may be set. -/
def Loop.Running : Loop → Prop
  | compacting | relocking | clearing => True
  | _ => False

variable {ι κ : Type*}

namespace Signals

/-- The constructor starts the compaction thread. -/
def init : Signals ι κ where
  monitor := Monitor.init
  compactionRequested := false
  compactionRunning := false
  shuttingDown := false
  compaction := .locking
  writer := fun _ => .outside
  caller := fun _ => .outside
  destructor := .outside

/-- A thread has a notification of one still to perform. -/
def Outstanding (s : Signals ι κ) : Prop :=
  (∃ i, (s.writer i).Pending) ∨ s.destructor.Pending

/-- A compaction is requested, the compaction thread sleeps, and nobody is about to wake it. -/
def Stranded (s : Signals ι κ) : Prop :=
  s.compactionRequested = true ∧ .compaction ∈ s.monitor.waiters ∧ ¬ s.Outstanding

/-- A caller sleeps behind the sleeping compaction thread, and nobody is about to wake one of
the two. -/
def Blocked (s : Signals ι κ) : Prop :=
  (∃ k, .caller k ∈ s.monitor.waiters) ∧ .compaction ∈ s.monitor.waiters ∧ ¬ s.Outstanding

/-- The step is no notification, or another one is outstanding, or the compaction thread does
not sleep on a request, or it is the waiter that is moved out. -/
def Delivers (s : Signals ι κ) : Signal ι κ → Prop
  | .writer i pick =>
      s.writer i = .notifying → (∀ j, j ≠ i → ¬ (s.writer j).Pending) →
        ¬ s.destructor.Pending → s.compactionRequested = true →
        .compaction ∈ s.monitor.waiters → pick = some .compaction
  | .destructor pick =>
      s.destructor = .notifying → (∀ j, ¬ (s.writer j).Pending) →
        s.compactionRequested = true → .compaction ∈ s.monitor.waiters →
        pick = some .compaction
  | _ => True

variable {s t : Signals ι κ}

/-! ### What is known of a thread that waits -/

/-- What holds in every state of a run. -/
structure Coherent (s : Signals ι κ) : Prop where
  sleepers : ∀ u ∈ s.monitor.waiters, u = .compaction ∨ ∃ k, u = .caller k
  sleeping : .compaction ∈ s.monitor.waiters → s.compaction = .waiting
  running : s.compactionRunning = true → s.compaction.Running
  /-- A caller sleeps only while a compaction is requested or runs, until the compaction thread
  has notified. -/
  caller : ∀ k, .caller k ∈ s.monitor.waiters →
    s.compactionRequested = true ∨ s.compactionRunning = true ∨ s.compaction = .notifying

theorem coherent_init :
  Coherent (init : Signals ι κ)
  := by
  constructor
  · intro u h
    simp [init, Monitor.init] at h
  · intro h
    simp [init, Monitor.init] at h
  · intro h
    simp [init] at h
  · intro k h
    simp [init, Monitor.init] at h

theorem Coherent.awake (h : s.Coherent) (hc : s.compaction ≠ .waiting) :
  .compaction ∉ s.monitor.waiters
  := mt h.sleeping hc

/-- Where no waiter joins, no request is taken back, and the compaction thread and
`compaction_running_` stay as they are, the state remains coherent. -/
theorem Coherent.mono (h : s.Coherent)
    (hwaiters : t.monitor.waiters ⊆ s.monitor.waiters)
    (hrequested : s.compactionRequested = true → t.compactionRequested = true)
    (hrunning : t.compactionRunning = s.compactionRunning)
    (hcompaction : t.compaction = s.compaction) :
  t.Coherent
  := by
  constructor
  · exact fun u hu => h.sleepers u (hwaiters hu)
  · intro hmem
    rw [hcompaction]
    exact h.sleeping (hwaiters hmem)
  · intro hrun
    rw [hcompaction]
    exact h.running (hrunning ▸ hrun)
  · intro k hmem
    rw [hrunning, hcompaction]
    exact (h.caller k (hwaiters hmem)).imp_left hrequested

/-- Where the compaction thread is awake and no waiter joins, the state stays coherent when
the flags agree with what the thread does next, and it is not stranded. -/
theorem Coherent.of_awake (h : s.Coherent) (hawake : .compaction ∉ s.monitor.waiters)
    (hwaiters : t.monitor.waiters ⊆ s.monitor.waiters)
    (hrunning : t.compactionRunning = true → t.compaction.Running)
    (hcaller : ∀ k, .caller k ∈ t.monitor.waiters →
      t.compactionRequested = true ∨ t.compactionRunning = true ∨ t.compaction = .notifying) :
  t.Coherent ∧ ¬ t.Stranded
  := by
  have hawake' : .compaction ∉ t.monitor.waiters := fun hmem => hawake (hwaiters hmem)
  constructor
  · exact ⟨fun u hu => h.sleepers u (hwaiters hu), fun hmem => absurd hmem hawake', hrunning,
      hcaller⟩
  · intro hstranded
    exact hawake' hstranded.2.1

/-- A step that leaves the flags, the compaction thread, and the threads that notify as they are,
and also whether the compaction thread sleeps, leaves the state stranded when it was. -/
theorem stranded_congr (hrequested : t.compactionRequested = s.compactionRequested)
    (hsleeps : .compaction ∈ t.monitor.waiters ↔ .compaction ∈ s.monitor.waiters)
    (hwriter : t.writer = s.writer) (hdestructor : t.destructor = s.destructor) :
  t.Stranded ↔ s.Stranded
  := by
  rw [Stranded, Stranded, Outstanding, Outstanding, hrequested, hsleeps, hwriter, hdestructor]

/-- A caller that is blocked behind the compaction thread is waiting for a compaction that is
requested. -/
theorem Coherent.stranded_of_blocked (h : s.Coherent) (hblocked : s.Blocked) :
  s.Stranded
  := by
  obtain ⟨⟨k, hk⟩, hsleeps, hnone⟩ := hblocked
  have hwaiting := h.sleeping hsleeps
  obtain hreq | hrun | hnotifying := h.caller k hk
  · exact ⟨hreq, hsleeps, hnone⟩
  · have hrunning := h.running hrun
    rw [hwaiting] at hrunning
    exact hrunning.elim
  · rw [hwaiting] at hnotifying
    contradiction

end Signals

/-! ### The threads -/

variable [DecidableEq ι] [DecidableEq κ]

/-- The next step of the thread `t`.  The flag is set at `setting`. -/
def Notifier.move (n : Notifier) (m : Monitor (Thread ι κ)) (t : Thread ι κ)
    (pick : Option (Thread ι κ)) : Option (Notifier × Monitor (Thread ι κ)) :=
  match n with
  | outside => some (locking, m)
  | locking => (m.lock t).map (fun m => (setting, m))
  | setting => some (unlocking, m)
  | unlocking => (m.unlock t).map (fun m => (notifying, m))
  | notifying => (m.notifyOne pick).map (fun m => (outside, m))

namespace Signals

/-- `Database::CompactionThreadMain`. -/
def compactionThreadMain (s : Signals ι κ) : Option (Signals ι κ) :=
  match s.compaction with
  | .locking =>
      (s.monitor.lock .compaction).map
        (fun m => { s with monitor := m, compaction := .testing })
  | .testing =>
      if s.compactionRequested || s.shuttingDown then
        (s.monitor.unlock .compaction).map (fun m =>
          if s.shuttingDown then { s with monitor := m, compaction := .returned }
          else
            { s with
              monitor := m, compaction := .compacting,
              compactionRequested := false, compactionRunning := true })
      else
        (s.monitor.wait .compaction).map
          (fun m => { s with monitor := m, compaction := .waiting })
  | .waiting =>
      (s.monitor.resume .compaction).map
        (fun m => { s with monitor := m, compaction := .testing })
  | .compacting => some { s with compaction := .relocking }
  | .relocking =>
      (s.monitor.lock .compaction).map
        (fun m => { s with monitor := m, compaction := .clearing })
  | .clearing =>
      (s.monitor.unlock .compaction).map
        (fun m => { s with monitor := m, compaction := .notifying, compactionRunning := false })
  | .notifying => some { s with monitor := s.monitor.notifyAll, compaction := .locking }
  | .returned => none

/-- `Database::MaybeTriggerCompaction`, once there are enough tables. -/
def maybeTriggerCompaction (s : Signals ι κ) (i : ι) (pick : Option (Thread ι κ)) :
    Option (Signals ι κ) :=
  ((s.writer i).move s.monitor (.writer i) pick).map (fun (n, m) =>
    { s with
      monitor := m, writer := Function.update s.writer i n,
      compactionRequested := s.compactionRequested || s.writer i = .setting })

/-- `Database::WaitForBackgroundCompaction`. -/
def waitForBackgroundCompaction (s : Signals ι κ) (k : κ) : Option (Signals ι κ) :=
  match s.caller k with
  | .outside => some { s with caller := Function.update s.caller k .locking }
  | .locking =>
      (s.monitor.lock (.caller k)).map
        (fun m => { s with monitor := m, caller := Function.update s.caller k .testing })
  | .testing =>
      if !s.compactionRequested && !s.compactionRunning then
        (s.monitor.unlock (.caller k)).map
          (fun m => { s with monitor := m, caller := Function.update s.caller k .outside })
      else
        (s.monitor.wait (.caller k)).map
          (fun m => { s with monitor := m, caller := Function.update s.caller k .waiting })
  | .waiting =>
      (s.monitor.resume (.caller k)).map
        (fun m => { s with monitor := m, caller := Function.update s.caller k .testing })

/-- `Database::~Database`, up to the join. -/
def destroy (s : Signals ι κ) (pick : Option (Thread ι κ)) : Option (Signals ι κ) :=
  if s.destructor = .outside ∧ s.shuttingDown then none
  else
    (s.destructor.move s.monitor .destructor pick).map (fun (n, m) =>
      { s with
        monitor := m, destructor := n,
        shuttingDown := s.shuttingDown || s.destructor = .setting })

def step (s : Signals ι κ) : Signal ι κ → Option (Signals ι κ)
  | .compaction => s.compactionThreadMain
  | .writer i pick => s.maybeTriggerCompaction i pick
  | .caller k => s.waitForBackgroundCompaction k
  | .destructor pick => s.destroy pick
  | .spurious t => (s.monitor.leave t).map (fun m => { s with monitor := m })

end Signals

/-- A move either leaves a notification outstanding and the waiters as they were, or it is the
notification. -/
theorem Notifier.move_cases {n n' : Notifier} {m m' : Monitor (Thread ι κ)} {t : Thread ι κ}
    {pick : Option (Thread ι κ)} (h : n.move m t pick = some (n', m')) :
  (n ≠ .notifying ∧ n'.Pending ∧ m'.waiters = m.waiters)
    ∨ (n = .notifying ∧ n' = .outside ∧ m.notifyOne pick = some m')
  := by
  cases n with
  | outside =>
      obtain ⟨rfl, rfl⟩ := Prod.mk.inj (Option.some.inj h)
      exact .inl ⟨by simp, by simp [Pending], rfl⟩
  | locking =>
      obtain ⟨m₁, hlock, heq⟩ := Option.map_eq_some_iff.mp h
      obtain ⟨rfl, rfl⟩ := Prod.mk.inj heq
      exact .inl ⟨by simp, by simp [Pending], Monitor.waiters_lock hlock⟩
  | setting =>
      obtain ⟨rfl, rfl⟩ := Prod.mk.inj (Option.some.inj h)
      exact .inl ⟨by simp, by simp [Pending], rfl⟩
  | unlocking =>
      obtain ⟨m₁, hunlock, heq⟩ := Option.map_eq_some_iff.mp h
      obtain ⟨rfl, rfl⟩ := Prod.mk.inj heq
      exact .inl ⟨by simp, by simp [Pending], Monitor.waiters_unlock hunlock⟩
  | notifying =>
      obtain ⟨m₁, hnotify, heq⟩ := Option.map_eq_some_iff.mp h
      obtain ⟨rfl, rfl⟩ := Prod.mk.inj heq
      exact .inr ⟨rfl, rfl, hnotify⟩

/-- No thread joins the waiters in a move. -/
theorem Notifier.waiters_move {n n' : Notifier} {m m' : Monitor (Thread ι κ)} {t : Thread ι κ}
    {pick : Option (Thread ι κ)} (h : n.move m t pick = some (n', m')) :
  m'.waiters ⊆ m.waiters
  := by
  obtain ⟨-, -, hwaiters⟩ | ⟨-, -, hnotify⟩ := Notifier.move_cases h
  · rw [hwaiters]
  · intro u hu
    exact ((Monitor.mem_waiters_notifyOne hnotify u).mp hu).1

namespace Signals

variable {s t : Signals ι κ}

/-! ### Steps -/

/-- A step of the compaction thread touches no other thread, and does not leave it asleep on a
request. -/
theorem compactionThreadMain_spec (hs : s.Coherent) (h : s.compactionThreadMain = some t) :
  t.Coherent ∧ ¬ t.Stranded
  := by
  have hrunning := hs.running
  have hcaller := hs.caller
  cases hc : s.compaction with
  | locking =>
      simp only [compactionThreadMain, hc] at h hrunning hcaller
      obtain ⟨m, hlock, rfl⟩ := Option.map_eq_some_iff.mp h
      have hwaiters := Monitor.waiters_lock hlock
      apply hs.of_awake (hs.awake (by simp [hc])) hwaiters.subset
      · exact fun hrun => (hrunning hrun).elim
      · intro k hk
        simpa using hcaller k (hwaiters ▸ hk)
  | testing =>
      simp only [compactionThreadMain, hc] at h hrunning hcaller
      split_ifs at h with htest hdown
      · obtain ⟨m, hunlock, rfl⟩ := Option.map_eq_some_iff.mp h
        have hwaiters := Monitor.waiters_unlock hunlock
        apply hs.of_awake (hs.awake (by simp [hc])) hwaiters.subset
        · exact fun hrun => (hrunning hrun).elim
        · intro k hk
          simpa using hcaller k (hwaiters ▸ hk)
      · obtain ⟨m, hunlock, rfl⟩ := Option.map_eq_some_iff.mp h
        have hwaiters := Monitor.waiters_unlock hunlock
        apply hs.of_awake (hs.awake (by simp [hc])) hwaiters.subset
        · exact fun _ => trivial
        · exact fun _ _ => .inr (.inl rfl)
      · obtain ⟨m, hwait, rfl⟩ := Option.map_eq_some_iff.mp h
        have hwaiters := Monitor.waiters_wait hwait
        have hidle : s.compactionRequested = false := by
          simp only [Bool.or_eq_true, not_or, Bool.not_eq_true] at htest
          exact htest.1
        refine ⟨⟨?_, fun _ => rfl, fun hrun => (hrunning hrun).elim, ?_⟩, ?_⟩
        · intro u hu
          obtain rfl | hu := Finset.mem_insert.mp (hwaiters ▸ hu)
          · exact .inl rfl
          · exact hs.sleepers u hu
        · intro k hk
          have hk' : .caller k ∈ s.monitor.waiters := by
            simpa [hwaiters] using hk
          simpa using hcaller k hk'
        · intro hstranded
          exact absurd hstranded.1 (by simp [hidle])
  | waiting =>
      simp only [compactionThreadMain, hc] at h hrunning hcaller
      obtain ⟨m, hresume, rfl⟩ := Option.map_eq_some_iff.mp h
      obtain ⟨hawake, hwaiters⟩ := Monitor.waiters_resume hresume
      apply hs.of_awake hawake hwaiters.subset
      · exact fun hrun => (hrunning hrun).elim
      · intro k hk
        simpa using hcaller k (hwaiters ▸ hk)
  | compacting =>
      simp only [compactionThreadMain, hc] at h hcaller
      obtain rfl := Option.some.inj h
      refine hs.of_awake (hs.awake (by simp [hc])) (Finset.Subset.refl _)
        (fun _ => trivial) ?_
      intro k hk
      simpa using hcaller k hk
  | relocking =>
      simp only [compactionThreadMain, hc] at h hcaller
      obtain ⟨m, hlock, rfl⟩ := Option.map_eq_some_iff.mp h
      have hwaiters := Monitor.waiters_lock hlock
      apply hs.of_awake (hs.awake (by simp [hc])) hwaiters.subset
      · exact fun _ => trivial
      · intro k hk
        simpa using hcaller k (hwaiters ▸ hk)
  | clearing =>
      simp only [compactionThreadMain, hc] at h
      obtain ⟨m, hunlock, rfl⟩ := Option.map_eq_some_iff.mp h
      have hwaiters := Monitor.waiters_unlock hunlock
      apply hs.of_awake (hs.awake (by simp [hc])) hwaiters.subset
      · intro hrun
        simp at hrun
      · exact fun _ _ => .inr (.inr rfl)
  | notifying =>
      simp only [compactionThreadMain, hc] at h hrunning
      obtain rfl := Option.some.inj h
      apply hs.of_awake (hs.awake (by simp [hc])) (Finset.empty_subset _)
      · exact fun hrun => (hrunning hrun).elim
      · intro k hk
        simp at hk
  | returned =>
      simp only [compactionThreadMain, hc] at h
      contradiction

/-- A step of a caller leaves the flags and the other threads as they are, and whether the
compaction thread sleeps. -/
theorem waitForBackgroundCompaction_spec {k : κ} (hs : s.Coherent)
    (h : s.waitForBackgroundCompaction k = some t) :
  t.Coherent ∧ (t.Stranded ↔ s.Stranded)
  := by
  cases hc : s.caller k with
  | outside =>
      simp only [waitForBackgroundCompaction, hc] at h
      obtain rfl := Option.some.inj h
      exact ⟨hs.mono (Finset.Subset.refl _) id rfl rfl, stranded_congr rfl Iff.rfl rfl rfl⟩
  | locking =>
      simp only [waitForBackgroundCompaction, hc] at h
      obtain ⟨m, hlock, rfl⟩ := Option.map_eq_some_iff.mp h
      have hwaiters := Monitor.waiters_lock hlock
      exact ⟨hs.mono hwaiters.subset id rfl rfl, stranded_congr rfl (by rw [hwaiters]) rfl rfl⟩
  | testing =>
      simp only [waitForBackgroundCompaction, hc] at h
      split_ifs at h with htest
      · obtain ⟨m, hunlock, rfl⟩ := Option.map_eq_some_iff.mp h
        have hwaiters := Monitor.waiters_unlock hunlock
        exact ⟨hs.mono hwaiters.subset id rfl rfl, stranded_congr rfl (by rw [hwaiters]) rfl rfl⟩
      · obtain ⟨m, hwait, rfl⟩ := Option.map_eq_some_iff.mp h
        have hwaiters := Monitor.waiters_wait hwait
        have hsleeps : .compaction ∈ m.waiters ↔ .compaction ∈ s.monitor.waiters := by
          simp [hwaiters]
        constructor
        · refine ⟨?_, fun hmem => hs.sleeping (hsleeps.mp hmem), hs.running, ?_⟩
          · intro u hu
            obtain rfl | hu := Finset.mem_insert.mp (hwaiters ▸ hu)
            · exact .inr ⟨k, rfl⟩
            · exact hs.sleepers u hu
          · -- a caller joins the waiters only when its predicate fails
            intro j _
            have hbusy : s.compactionRequested = true ∨ s.compactionRunning = true := by
              cases hreq : s.compactionRequested with
              | true => exact .inl rfl
              | false => exact .inr (by simpa [hreq] using htest)
            exact hbusy.imp_right .inl
        · exact stranded_congr rfl hsleeps rfl rfl
  | waiting =>
      simp only [waitForBackgroundCompaction, hc] at h
      obtain ⟨m, hresume, rfl⟩ := Option.map_eq_some_iff.mp h
      obtain ⟨-, hwaiters⟩ := Monitor.waiters_resume hresume
      exact ⟨hs.mono hwaiters.subset id rfl rfl, stranded_congr rfl (by rw [hwaiters]) rfl rfl⟩

/-- A step of a writer leaves the state stranded exactly when it is the last outstanding
notification and misses the compaction thread. -/
theorem maybeTriggerCompaction_spec {i : ι} {pick : Option (Thread ι κ)} (hs : s.Coherent)
    (h : s.maybeTriggerCompaction i pick = some t) :
  t.Coherent ∧ (¬ t.Stranded ↔ s.Delivers (.writer i pick))
  := by
  obtain ⟨⟨n, m⟩, hmove, rfl⟩ := Option.map_eq_some_iff.mp h
  constructor
  · apply hs.mono (Notifier.waiters_move hmove)
    · intro hreq
      simp [hreq]
    · rfl
    · rfl
  obtain ⟨hn, hpending, -⟩ | ⟨hn, rfl, hnotify⟩ := Notifier.move_cases hmove
  · constructor
    · intro _ hnotifying
      exact absurd hnotifying hn
    · intro _ hstranded
      apply hstranded.2.2
      left
      use i
      simpa using hpending
  · have hsleeps := Monitor.mem_waiters_notifyOne hnotify Thread.compaction
    constructor
    · intro hawake _ hwriters hdestructor hreq hmem
      by_contra hpick
      apply hawake
      refine ⟨by simp [hreq], hsleeps.mpr ⟨hmem, hpick⟩, ?_⟩
      rintro (⟨j, hj⟩ | hd)
      · by_cases hji : j = i
        · subst hji
          simp [Notifier.Pending] at hj
        · exact hwriters j hji (by simpa [hji] using hj)
      · exact hdestructor hd
    · rintro hdelivers ⟨hreq, hmem, hnone⟩
      obtain ⟨hmem, hpick⟩ := hsleeps.mp hmem
      apply hpick
      apply hdelivers hn
      · intro j hji hj
        exact hnone (.inl ⟨j, by simpa [hji] using hj⟩)
      · exact fun hd => hnone (.inr hd)
      · simpa [hn] using hreq
      · exact hmem

/-- The same for a step of the destructor. -/
theorem destroy_spec {pick : Option (Thread ι κ)} (hs : s.Coherent)
    (h : s.destroy pick = some t) :
  t.Coherent ∧ (¬ t.Stranded ↔ s.Delivers (.destructor pick))
  := by
  rw [destroy] at h
  split_ifs at h
  obtain ⟨⟨n, m⟩, hmove, rfl⟩ := Option.map_eq_some_iff.mp h
  constructor
  · exact hs.mono (Notifier.waiters_move hmove) id rfl rfl
  obtain ⟨hn, hpending, -⟩ | ⟨hn, rfl, hnotify⟩ := Notifier.move_cases hmove
  · constructor
    · intro _ hnotifying
      exact absurd hnotifying hn
    · intro _ hstranded
      exact hstranded.2.2 (.inr hpending)
  · have hsleeps := Monitor.mem_waiters_notifyOne hnotify Thread.compaction
    constructor
    · intro hawake _ hwriters hreq hmem
      by_contra hpick
      apply hawake
      refine ⟨hreq, hsleeps.mpr ⟨hmem, hpick⟩, ?_⟩
      rintro (⟨j, hj⟩ | hd)
      · exact hwriters j hj
      · simp [Notifier.Pending] at hd
    · rintro hdelivers ⟨hreq, hmem, hnone⟩
      obtain ⟨hmem, hpick⟩ := hsleeps.mp hmem
      apply hpick
      apply hdelivers hn
      · exact fun j hj => hnone (.inl ⟨j, hj⟩)
      · exact hreq
      · exact hmem

theorem spurious_spec {u : Thread ι κ} (hs : s.Coherent)
    (h : s.step (.spurious u) = some t) :
  t.Coherent ∧ (t.Stranded → s.Stranded)
  := by
  obtain ⟨m, hleave, rfl⟩ := Option.map_eq_some_iff.mp h
  obtain ⟨-, hwaiters⟩ := Monitor.waiters_leave hleave
  have hsub : m.waiters ⊆ s.monitor.waiters := by
    rw [hwaiters]
    exact Finset.erase_subset _ _
  refine ⟨hs.mono hsub id rfl rfl, ?_⟩
  rintro ⟨hreq, hmem, hnone⟩
  exact ⟨hreq, hsub hmem, hnone⟩

theorem coherent_step {a : Signal ι κ} (hs : s.Coherent) (h : s.step a = some t) :
  t.Coherent
  := by
  cases a with
  | compaction => exact (compactionThreadMain_spec hs h).1
  | writer i pick => exact (maybeTriggerCompaction_spec hs h).1
  | caller k => exact (waitForBackgroundCompaction_spec hs h).1
  | destructor pick => exact (destroy_spec hs h).1
  | spurious u => exact (spurious_spec hs h).1

/-- From a state that is not stranded, a step leads to a stranded one exactly when it does not
deliver a notification. -/
theorem stranded_step_iff {a : Signal ι κ} (hs : s.Coherent) (hawake : ¬ s.Stranded)
    (h : s.step a = some t) :
  ¬ t.Stranded ↔ s.Delivers a
  := by
  cases a with
  | compaction => exact iff_of_true (compactionThreadMain_spec hs h).2 trivial
  | writer i pick => exact (maybeTriggerCompaction_spec hs h).2
  | caller k =>
      exact iff_of_true ((waitForBackgroundCompaction_spec hs h).2.not.mpr hawake) trivial
  | destructor pick => exact (destroy_spec hs h).2
  | spurious u => exact iff_of_true (mt (spurious_spec hs h).2 hawake) trivial

/-! ### Runs -/

theorem coherent_run {as : List (Signal ι κ)} (h : run step init as = some t) :
  t.Coherent
  := run_invariant h coherent_init (fun _ _ _ => coherent_step)

/-- A notification moves out the compaction thread when it sleeps and no caller does. -/
theorem delivers_of_no_caller {a : Signal ι κ} (hs : s.Coherent)
    (hcaller : ∀ k, .caller k ∉ s.monitor.waiters) (h : s.step a = some t) :
  s.Delivers a
  := by
  have hpick : ∀ (pick : Option (Thread ι κ)) (m : Monitor (Thread ι κ)),
      s.monitor.notifyOne pick = some m → .compaction ∈ s.monitor.waiters →
      pick = some .compaction := by
    intro pick m hnotify hmem
    cases pick with
    | none =>
        have hleft := (Monitor.mem_waiters_notifyOne hnotify Thread.compaction).mpr
          ⟨hmem, by simp⟩
        rw [Monitor.notifyOne] at hnotify
        split_ifs at hnotify with hempty
        simp [hempty] at hmem
    | some u =>
        obtain ⟨hu, -⟩ := Monitor.waiters_leave hnotify
        obtain rfl | ⟨k, rfl⟩ := hs.sleepers u hu
        · rfl
        · exact absurd hu (hcaller k)
  cases a with
  | writer i pick =>
      intro hn _ _ _ hmem
      obtain ⟨⟨n, m⟩, hmove, -⟩ := Option.map_eq_some_iff.mp h
      obtain ⟨hne, -⟩ | ⟨-, -, hnotify⟩ := Notifier.move_cases hmove
      · exact absurd hn hne
      · exact hpick pick m hnotify hmem
  | destructor pick =>
      intro hn _ _ hmem
      rw [step, destroy] at h
      split_ifs at h
      obtain ⟨⟨n, m⟩, hmove, -⟩ := Option.map_eq_some_iff.mp h
      obtain ⟨hne, -⟩ | ⟨-, -, hnotify⟩ := Notifier.move_cases hmove
      · exact absurd hn hne
      · exact hpick pick m hnotify hmem
  | _ => trivial

/-- No state of a run is stranded exactly when every step delivers. -/
theorem awake_run_iff {as : List (Signal ι κ)} (h : run step init as = some t) :
  (∀ before after u, as = before ++ after → run step init before = some u →
      u.Coherent ∧ ¬ u.Stranded)
    ↔ ∀ before a after u, as = before ++ a :: after → run step init before = some u →
      u.Delivers a
  := by
  have hinit : (init : Signals ι κ).Coherent ∧ ¬ (init : Signals ι κ).Stranded :=
    ⟨coherent_init, fun hstranded => by simpa [init] using hstranded.1⟩
  have hstep : ∀ (u : Signals ι κ) (a : Signal ι κ) (v : Signals ι κ), u.Coherent ∧ ¬ u.Stranded →
      u.step a = some v → (v.Coherent ∧ ¬ v.Stranded ↔ u.Delivers a) := by
    intro u a v hu hv
    rw [and_iff_right (coherent_step hu.1 hv)]
    exact stranded_step_iff hu.1 hu.2 hv
  exact forall_run_iff (P := fun u => u.Coherent ∧ ¬ u.Stranded) hinit hstep h

/-- While no caller sleeps, no state of a run is stranded. -/
theorem not_stranded_of_no_caller {as : List (Signal ι κ)} (h : run step init as = some t)
    (hcaller : ∀ before after u, as = before ++ after → run step init before = some u →
      ∀ k, .caller k ∉ u.monitor.waiters) :
  ¬ t.Stranded
  := by
  have hdelivers : ∀ before a after u, as = before ++ a :: after →
      run step init before = some u → u.Delivers a := by
    rintro before a after u rfl hu
    rw [run_append, hu, Option.bind_some] at h
    obtain ⟨v, hv, -⟩ := Option.bind_eq_some_iff.mp h
    exact delivers_of_no_caller (coherent_run hu) (hcaller before _ u rfl hu) hv
  exact ((awake_run_iff h).mpr hdelivers as [] t (List.append_nil as).symm h).2

/-- In a run no state is stranded, and no caller sleeps behind the sleeping compaction thread,
exactly when every step delivers. -/
theorem never_stranded_iff {as : List (Signal ι κ)} (h : run step init as = some t) :
  (∀ before after u, as = before ++ after → run step init before = some u →
      ¬ u.Stranded ∧ ¬ u.Blocked)
    ↔ ∀ before a after u, as = before ++ a :: after → run step init before = some u →
      u.Delivers a
  := by
  rw [← awake_run_iff h]
  constructor
  · intro hall before after u heq hu
    exact ⟨coherent_run hu, (hall before after u heq hu).1⟩
  · intro hall before after u heq hu
    obtain ⟨hcoherent, hawake⟩ := hall before after u heq hu
    exact ⟨hawake, mt hcoherent.stranded_of_blocked hawake⟩

/-- A run in which a caller sleeps until the compaction it asked for is done. -/
def deliveringRun : List (Signal Unit Unit) :=
  [.compaction, .compaction, .writer () none, .writer () none, .writer () none, .writer () none,
    .writer () (some .compaction), .caller (), .caller (), .caller (), .compaction, .compaction,
    .compaction, .compaction, .compaction, .compaction, .caller (), .caller ()]

theorem never_stranded_iff_delivering :
  ∃ s : Signals Unit Unit, run step init deliveringRun = some s
    ∧ ((∀ before after u, deliveringRun = before ++ after → run step init before = some u →
        ¬ u.Stranded ∧ ¬ u.Blocked)
      ↔ ∀ before a after u, deliveringRun = before ++ a :: after →
        run step init before = some u → u.Delivers a)
  := by
  have hrun : (run step (init : Signals Unit Unit) deliveringRun).isSome = true := by
    decide +kernel
  obtain ⟨s, hs⟩ := Option.isSome_iff_exists.mp hrun
  exact ⟨s, hs, never_stranded_iff hs⟩

/-! ### A notification that misses -/

instance (n : Notifier) : Decidable n.Pending :=
  inferInstanceAs (Decidable (n ≠ .outside))

instance [Fintype ι] (s : Signals ι κ) : Decidable s.Outstanding :=
  inferInstanceAs (Decidable ((∃ i, (s.writer i).Pending) ∨ s.destructor.Pending))

instance [Fintype ι] (s : Signals ι κ) : Decidable s.Stranded :=
  inferInstanceAs (Decidable (s.compactionRequested = true ∧ .compaction ∈ s.monitor.waiters
    ∧ ¬ s.Outstanding))

instance [Fintype ι] [Fintype κ] (s : Signals ι κ) : Decidable s.Blocked :=
  inferInstanceAs (Decidable ((∃ k, .caller k ∈ s.monitor.waiters)
    ∧ .compaction ∈ s.monitor.waiters ∧ ¬ s.Outstanding))

/-- The compaction thread sleeps, the writer sets the flag and releases the mutex, and a caller
comes and sleeps; the notification moves out the caller, which finds the request and sleeps
again. -/
def missingRun : List (Signal Unit Unit) :=
  [.compaction, .compaction, .writer () none, .writer () none, .writer () none, .writer () none,
    .caller (), .caller (), .caller (), .writer () (some (.caller ())), .caller (), .caller ()]

theorem not_never_stranded :
  ∃ s, run step init missingRun = some s ∧ s.Stranded ∧ s.Blocked
  := by
  have hrun : (run step init missingRun).any (fun s => s.Stranded ∧ s.Blocked) = true := by
    decide +kernel
  obtain ⟨s, hs, htest⟩ := exists_of_run hrun
  exact ⟨s, hs, of_decide_eq_true htest⟩

end Signals

end TinyLsm
