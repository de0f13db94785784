import Mathlib.Logic.Function.Basic

/-!
# Linearizability

Threads call an object and get answers; what is seen of a run is the list of the calls and the
answers as they come.  Such a history is linearizable when every call can be given one moment
between its beginning and its answer at which it takes effect as a whole, in such a way that the
effects, one after the other, are what the object allows (`Linearizes`).  An object that outlives
crashes has a history for each time between two of them (`DurablyLinearizes`).
-/

namespace Linearization

/-- What is seen of a run: a thread begins a call, or gets its answer. -/
inductive Event (ι κ α : Type*) where
  | invoke (t : ι) (request : κ)
  | respond (t : ι) (answer : α)
deriving DecidableEq, Repr

/-- Where a thread stands: its call is yet to take effect, or has taken effect and is yet to be
answered. -/
inductive Phase (κ α : Type*) where
  | idle
  | pending (request : κ)
  | answered (answer : α)

variable {σ ι κ α : Type*} [DecidableEq ι]

/-- The history comes from calls that took effect one at a time, each between its beginning and its
answer, and led the object from its first state to the present one. -/
inductive Linearizes (spec : κ → α → σ → σ → Prop) (s₀ : σ) :
    List (Event ι κ α) → σ → (ι → Phase κ α) → Prop where
  | init : Linearizes spec s₀ [] s₀ (fun _ => .idle)
  | invoke {h : List (Event ι κ α)} {s : σ} {phase : ι → Phase κ α} {t : ι} (request : κ) :
      Linearizes spec s₀ h s phase → phase t = .idle →
      Linearizes spec s₀ (h ++ [.invoke t request]) s
        (Function.update phase t (.pending request))
  | effect {h : List (Event ι κ α)} {s s' : σ} {phase : ι → Phase κ α} {t : ι} {request : κ}
      (answer : α) :
      Linearizes spec s₀ h s phase → phase t = .pending request → spec request answer s s' →
      Linearizes spec s₀ h s' (Function.update phase t (.answered answer))
  | respond {h : List (Event ι κ α)} {s : σ} {phase : ι → Phase κ α} {t : ι} {answer : α} :
      Linearizes spec s₀ h s phase → phase t = .answered answer →
      Linearizes spec s₀ (h ++ [.respond t answer]) s (Function.update phase t .idle)

/-- The history of a linearizable object. -/
def Linearizable (spec : κ → α → σ → σ → Prop) (s₀ : σ) (h : List (Event ι κ α)) : Prop :=
  ∃ s phase, Linearizes spec s₀ h s phase

/-- Histories that each end with a crash.  Of the calls that a crash cuts short, each has taken effect
or never does. -/
inductive DurablyLinearizes (spec : κ → α → σ → σ → Prop) (s₀ : σ) :
    List (List (Event ι κ α)) → σ → Prop where
  | init : DurablyLinearizes spec s₀ [] s₀
  | crash {hs : List (List (Event ι κ α))} {h : List (Event ι κ α)} {s s' : σ}
      {phase : ι → Phase κ α} :
      DurablyLinearizes spec s₀ hs s → Linearizes spec s h s' phase →
      DurablyLinearizes spec s₀ (hs ++ [h]) s'

end Linearization
