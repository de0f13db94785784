import Mathlib.Data.Finset.Insert
import Mathlib.Data.Finset.Erase

/-!
# Readers and writers

A mutex that is held by one thread alone or shared by any number.  That a mutex held by one has no
sharers is a field, and what the operations do is said by the way they change the mode in which each
thread holds the mutex.
-/

/-- A mutex with the thread that holds it alone and the threads that share it. -/
structure SharedMutex (τ : Type*) where
  owner : Option τ
  sharers : Finset τ
  exclusive : owner = none ∨ sharers = ∅

namespace SharedMutex

/-- How a thread holds a mutex. -/
inductive Mode where
  | free
  | shared
  | alone
deriving DecidableEq, Repr

variable {τ : Type*}

def init : SharedMutex τ :=
  ⟨none, ∅, Or.inl rfl⟩

variable [DecidableEq τ]

/-- How the thread holds the mutex. -/
def mode (m : SharedMutex τ) (t : τ) : Mode :=
  if m.owner = some t then .alone else if t ∈ m.sharers then .shared else .free

/-- Take the mutex alone, when nobody holds it. -/
def lock (m : SharedMutex τ) (t : τ) : Option (SharedMutex τ) :=
  if m.owner = none ∧ m.sharers = ∅ then some ⟨some t, ∅, Or.inr rfl⟩ else none

/-- Share the mutex, when nobody holds it alone. -/
def lockShared (m : SharedMutex τ) (t : τ) : Option (SharedMutex τ) :=
  if m.owner = none ∧ t ∉ m.sharers then some ⟨none, insert t m.sharers, Or.inl rfl⟩ else none

def unlock (m : SharedMutex τ) (t : τ) : Option (SharedMutex τ) :=
  if m.owner = some t then some ⟨none, m.sharers, Or.inl rfl⟩ else none

def unlockShared (m : SharedMutex τ) (t : τ) : Option (SharedMutex τ) :=
  if m.owner = none ∧ t ∈ m.sharers then some ⟨none, m.sharers.erase t, Or.inl rfl⟩ else none

/-- Take the mutex in a mode. -/
def acquire (m : SharedMutex τ) (t : τ) : Mode → Option (SharedMutex τ)
  | .free => none
  | .shared => m.lockShared t
  | .alone => m.lock t

/-- Give the mutex back. -/
def release (m : SharedMutex τ) (t : τ) : Mode → Option (SharedMutex τ)
  | .free => none
  | .shared => m.unlockShared t
  | .alone => m.unlock t

@[simp]
theorem mode_init (t : τ) :
  (init : SharedMutex τ).mode t = .free
  := by
  simp [mode, init]

variable {m m' : SharedMutex τ} {t u : τ} {x : Mode}

/-- While one thread holds the mutex alone, no other holds it. -/
theorem mode_eq_free (h : m.mode t = .alone) (hne : u ≠ t) :
  m.mode u = .free
  := by
  have howner : m.owner = some t := by
    rw [mode] at h
    split_ifs at h with howner
    exact howner
  have hsharers : m.sharers = ∅ := m.exclusive.resolve_left (by rw [howner]; simp)
  simp [mode, howner, hsharers, hne.symm]

/-- Who takes the mutex holds it from then on; to hold it alone, all others must have given it
back. -/
theorem mode_acquire (h : m.acquire t x = some m') :
  m'.mode = Function.update m.mode t x ∧ x ≠ .free ∧ m.mode t = .free
    ∧ (x = .alone → ∀ u, m.mode u = .free) ∧ ∀ u, m.mode u ≠ .alone
  := by
  cases x with
  | free => simp [acquire] at h
  | shared =>
      simp only [acquire, lockShared] at h
      split_ifs at h with hfree
      obtain rfl := Option.some.inj h
      obtain ⟨howner, hmem⟩ := hfree
      refine ⟨?_, by simp, by simp [mode, howner, hmem], by simp, ?_⟩
      · funext u
        by_cases hu : u = t
        · simp [mode, hu]
        · simp [mode, howner, hu]
      · intro u
        simp only [mode, howner]
        split_ifs <;> simp_all
  | alone =>
      simp only [acquire, lock] at h
      split_ifs at h with hfree
      obtain rfl := Option.some.inj h
      obtain ⟨howner, hsharers⟩ := hfree
      have hall : ∀ u, m.mode u = .free := by
        intro u
        simp [mode, howner, hsharers]
      refine ⟨?_, by simp, hall t, fun _ => hall, fun u => by simp [hall u]⟩
      funext u
      by_cases hu : u = t
      · simp [mode, hu]
      · rw [Function.update_of_ne hu, hall]
        simp [mode, Ne.symm hu]

/-- Who gives the mutex back does not hold it any more. -/
theorem mode_release (h : m.release t x = some m') :
  m'.mode = Function.update m.mode t .free ∧ m.mode t = x
  := by
  cases x with
  | free => simp [release] at h
  | shared =>
      simp only [release, unlockShared] at h
      split_ifs at h with hheld
      obtain rfl := Option.some.inj h
      obtain ⟨howner, hmem⟩ := hheld
      refine ⟨?_, by simp [mode, howner, hmem]⟩
      funext u
      by_cases hu : u = t
      · simp [mode, hu]
      · simp [mode, howner, hu]
  | alone =>
      simp only [release, unlock] at h
      split_ifs at h with howner
      obtain rfl := Option.some.inj h
      have hsharers : m.sharers = ∅ := m.exclusive.resolve_left (by rw [howner]; simp)
      refine ⟨?_, by simp [mode, howner]⟩
      funext u
      by_cases hu : u = t
      · simp [mode, hu, hsharers]
      · simp [mode, howner, hsharers, hu, Ne.symm hu]

/-- A mutex can be given back by who holds it. -/
theorem exists_release (h : m.mode t = x) (hx : x ≠ .free) :
  ∃ m', m.release t x = some m'
  := by
  rw [mode] at h
  split_ifs at h with howner hmem
  · subst h
    simp [release, unlock, howner]
  · subst h
    have hnone : m.owner = none := m.exclusive.resolve_right (Finset.ne_empty_of_mem hmem)
    simp [release, unlockShared, hnone, hmem]
  · exact absurd h.symm hx

/-- A mutex that nobody holds can be taken in any mode. -/
theorem exists_acquire (h : ∀ u, m.mode u = .free) (hx : x ≠ .free) :
  ∃ m', m.acquire t x = some m'
  := by
  have howner : m.owner = none := by
    rw [Option.eq_none_iff_forall_ne_some]
    intro u hu
    have hfree := h u
    simp [mode, hu] at hfree
  have hsharers : m.sharers = ∅ := by
    apply Finset.eq_empty_of_forall_notMem
    intro u hu
    have hfree := h u
    simp [mode, howner, hu] at hfree
  cases x with
  | free => exact absurd rfl hx
  | shared => simp [acquire, lockShared, howner, hsharers]
  | alone => simp [acquire, lock, howner, hsharers]

end SharedMutex
