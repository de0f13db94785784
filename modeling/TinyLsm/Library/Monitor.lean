import Mathlib.Data.Finset.Insert
import Mathlib.Data.Finset.Erase

/-!
# Monitors

A mutex with a condition variable.  A thread that waits releases the mutex and joins the
waiters in one step; a notification moves waiters out, and a thread that has been moved out
takes the mutex again before it goes on.  Which waiter a notification of one moves out is
open, and a waiter may also leave without a notification.
-/

/-- A mutex and the waiters of a condition variable. -/
structure Monitor (τ : Type*) where
  holder : Option τ
  waiters : Finset τ

namespace Monitor

variable {τ : Type*}

def init : Monitor τ :=
  ⟨none, ∅⟩

/-- Take the mutex, when it is free. -/
def lock (m : Monitor τ) (t : τ) : Option (Monitor τ) :=
  match m.holder with
  | none => some { m with holder := some t }
  | some _ => none

/-- Move all waiters out. -/
def notifyAll (m : Monitor τ) : Monitor τ :=
  { m with waiters := ∅ }

@[simp]
theorem waiters_notifyAll (m : Monitor τ) :
  m.notifyAll.waiters = ∅
  := rfl

variable {m m' : Monitor τ} {t : τ}

theorem waiters_lock (h : m.lock t = some m') :
  m'.waiters = m.waiters
  := by
  rw [lock] at h
  split at h
  · obtain rfl := Option.some.inj h
    rfl
  · simp at h

variable [DecidableEq τ]

/-- Release the mutex. -/
def unlock (m : Monitor τ) (t : τ) : Option (Monitor τ) :=
  if m.holder = some t then some { m with holder := none } else none

/-- Release the mutex and join the waiters. -/
def wait (m : Monitor τ) (t : τ) : Option (Monitor τ) :=
  if m.holder = some t then some ⟨none, insert t m.waiters⟩ else none

/-- Go on after a wait: the mutex is taken again. -/
def resume (m : Monitor τ) (t : τ) : Option (Monitor τ) :=
  if t ∈ m.waiters then none else m.lock t

/-- A waiter leaves. -/
def leave (m : Monitor τ) (t : τ) : Option (Monitor τ) :=
  if t ∈ m.waiters then some { m with waiters := m.waiters.erase t } else none

/-- Move out the waiter that is picked, or none if nobody waits. -/
def notifyOne (m : Monitor τ) : Option τ → Option (Monitor τ)
  | some t => m.leave t
  | none => if m.waiters = ∅ then some m else none

theorem waiters_unlock (h : m.unlock t = some m') :
  m'.waiters = m.waiters
  := by
  rw [unlock] at h
  split_ifs at h
  obtain rfl := Option.some.inj h
  rfl

theorem waiters_wait (h : m.wait t = some m') :
  m'.waiters = insert t m.waiters
  := by
  rw [wait] at h
  split_ifs at h
  obtain rfl := Option.some.inj h
  rfl

theorem waiters_resume (h : m.resume t = some m') :
  t ∉ m.waiters ∧ m'.waiters = m.waiters
  := by
  rw [resume] at h
  split_ifs at h with hmem
  exact ⟨hmem, waiters_lock h⟩

theorem waiters_leave (h : m.leave t = some m') :
  t ∈ m.waiters ∧ m'.waiters = m.waiters.erase t
  := by
  rw [leave] at h
  split_ifs at h with hmem
  obtain rfl := Option.some.inj h
  exact ⟨hmem, rfl⟩

/-- After a notification a thread waits exactly when it did before and was not picked. -/
theorem mem_waiters_notifyOne {pick : Option τ} (h : m.notifyOne pick = some m') (u : τ) :
  u ∈ m'.waiters ↔ u ∈ m.waiters ∧ pick ≠ some u
  := by
  cases pick with
  | none =>
      rw [notifyOne] at h
      split_ifs at h with hempty
      obtain rfl := Option.some.inj h
      simp [hempty]
  | some t =>
      obtain ⟨-, hwaiters⟩ := waiters_leave h
      rw [hwaiters, Finset.mem_erase, and_comm, ne_eq, ne_eq, Option.some.injEq, eq_comm]

end Monitor
