import Mathlib.Data.List.Basic

/-!
# Guarded runs

A system steps from a state by an action; the action resolves whatever is left open, so the
step is a partial function.  `Reaches ok s t` says that some run leads from `s` to `t` all
of whose steps meet the condition `ok` on the state before, the action and the state after.
An invariant is proved once for a step and holds along every run (`Reaches.invariant`).
-/

namespace Transition

variable {σ α : Type*} (step : σ → α → Option σ)

/-- There is a run from one state to the other whose steps meet `ok`. -/
inductive Reaches (ok : σ → α → σ → Prop) (s : σ) : σ → Prop where
  | refl : Reaches ok s s
  | tail {t u : σ} (a : α) : Reaches ok s t → step t a = some u → ok t a u → Reaches ok s u

/-- The state after a list of actions. -/
def run (s : σ) : List α → Option σ
  | [] => some s
  | a :: as => (step s a).bind (fun t => run t as)

variable {step} {ok ok' : σ → α → σ → Prop}

/-- What holds at the start and is preserved by every step that meets the condition holds in
every state reached. -/
theorem Reaches.invariant {I : σ → Prop} {s t : σ} (h : Reaches step ok s t) (hs : I s)
    (hstep : ∀ t a u, I t → step t a = some u → ok t a u → I u) :
  I t
  := by
  induction h with
  | refl => exact hs
  | tail a _ hstep' hok ih => exact hstep _ a _ ih hstep' hok

theorem Reaches.mono {s t : σ} (h : Reaches step ok s t)
    (hok : ∀ t a u, ok t a u → ok' t a u) :
  Reaches step ok' s t
  := by
  induction h with
  | refl => exact .refl
  | tail a _ hstep h ih => exact .tail a ih hstep (hok _ _ _ h)

theorem Reaches.trans {s t u : σ} (hst : Reaches step ok s t) (htu : Reaches step ok t u) :
  Reaches step ok s u
  := by
  induction htu with
  | refl => exact hst
  | tail a _ hstep h ih => exact .tail a ih hstep h

theorem Reaches.head {s t u : σ} (a : α) (hstep : step s a = some t) (h : ok s a t)
    (htu : Reaches step ok t u) :
  Reaches step ok s u
  := Reaches.trans (.tail a .refl hstep h) htu

/-- A relation to the states of another system, in which it can follow every step, leads along every
run. -/
theorem Reaches.simulates {τ β : Type*} {step₂ : τ → β → Option τ} {ok₂ : τ → β → τ → Prop}
    {R : σ → τ → Prop} {s t : σ} {u : τ} (h : Reaches step ok s t) (hs : R s u)
    (hstep : ∀ s a t u, R s u → step s a = some t → ok s a t →
      ∃ v, Reaches step₂ ok₂ u v ∧ R t v) :
  ∃ v, Reaches step₂ ok₂ u v ∧ R t v
  := by
  induction h with
  | refl => exact ⟨u, .refl, hs⟩
  | tail a _ hstep' hok ih =>
      obtain ⟨v, huv, hv⟩ := ih
      obtain ⟨w, hvw, hw⟩ := hstep _ a _ v hv hstep' hok
      exact ⟨w, huv.trans hvw, hw⟩

/-- The system with the steps that fail a test left out. -/
def guarded (step : σ → α → Option σ) (test : σ → α → Bool) (s : σ) (a : α) : Option σ :=
  if test s a then step s a else none

/-- A computed run of the system with a test that implies the condition. -/
theorem Reaches.of_run {test : σ → α → Bool} {s t : σ} {as : List α}
    (h : run (guarded step test) s as = some t) (hok : ∀ s a u, test s a = true → ok s a u) :
  Reaches step ok s t
  := by
  induction as generalizing s with
  | nil =>
      obtain rfl := Option.some.inj h
      exact .refl
  | cons a as ih =>
      obtain ⟨u, hu, h⟩ := Option.bind_eq_some_iff.mp h
      rw [guarded] at hu
      split_ifs at hu with htest
      apply Reaches.head a hu (hok _ _ _ htest)
      exact ih h

/-- A computed run along an invariant that implies the condition. -/
theorem Reaches.of_run_invariant {I : σ → Prop} {s t : σ} {as : List α}
    (h : run step s as = some t) (hs : I s)
    (hstep : ∀ s a u, a ∈ as → I s → step s a = some u → ok s a u ∧ I u) :
  Reaches step ok s t
  := by
  induction as generalizing s with
  | nil =>
      obtain rfl := Option.some.inj h
      exact .refl
  | cons a as ih =>
      obtain ⟨u, hu, h⟩ := Option.bind_eq_some_iff.mp h
      obtain ⟨hok, hI⟩ := hstep s a u List.mem_cons_self hs hu
      apply Reaches.head a hu hok
      exact ih h hI (fun s b u hb => hstep s b u (List.mem_cons_of_mem _ hb))

theorem run_append (s : σ) (as bs : List α) :
  run step s (as ++ bs) = (run step s as).bind (fun t => run step t bs)
  := by
  induction as generalizing s with
  | nil => rfl
  | cons a as ih =>
      simp only [List.cons_append, run, ih, Option.bind_assoc]

/-- What holds at the start and is preserved by every step holds at the end of a run. -/
theorem run_invariant {I : σ → Prop} {s t : σ} {as : List α} (h : run step s as = some t)
    (hs : I s) (hstep : ∀ s a u, I s → step s a = some u → I u) :
  I t
  := by
  induction as generalizing s with
  | nil =>
      obtain rfl := Option.some.inj h
      exact hs
  | cons a as ih =>
      obtain ⟨u, hu, h⟩ := Option.bind_eq_some_iff.mp h
      exact ih h (hstep s a u hs hu)

/-- Where a step from a state with a property leads to such a state exactly when it meets a
condition, all states of a run have the property exactly when all its steps meet the
condition. -/
theorem forall_run_iff {P : σ → Prop} {C : σ → α → Prop} {s t : σ} {as : List α}
    (hs : P s) (hstep : ∀ s a t, P s → step s a = some t → (P t ↔ C s a))
    (h : run step s as = some t) :
  (∀ before after u, as = before ++ after → run step s before = some u → P u)
    ↔ ∀ before a after u, as = before ++ a :: after → run step s before = some u → C u a
  := by
  induction as generalizing s with
  | nil =>
      constructor
      · intro _ before a after u heq
        simp at heq
      · intro _ before after u heq hu
        obtain ⟨rfl, -⟩ := List.nil_eq_append_iff.mp heq
        obtain rfl := Option.some.inj hu
        exact hs
  | cons a as ih =>
      obtain ⟨v, hv, h⟩ := Option.bind_eq_some_iff.mp h
      have hfirst := hstep s a v hs hv
      constructor
      · intro hall before b after u heq hu
        have hPv : P v := hall [a] as v rfl (by simp [run, hv])
        cases before with
        | nil =>
            obtain ⟨rfl, rfl⟩ := List.cons.inj heq
            obtain rfl := Option.some.inj hu
            exact hfirst.mp hPv
        | cons c before =>
            obtain ⟨rfl, rfl⟩ := List.cons.inj heq
            rw [run, hv, Option.bind_some] at hu
            apply (ih hPv h).mp _ before b after u rfl hu
            intro before' after' w heq' hw
            apply hall (a :: before') after' w (by rw [heq', List.cons_append])
            rw [run, hv, Option.bind_some, hw]
      · intro hall before after u heq hu
        have hPv : P v := hfirst.mpr (hall [] a as s rfl rfl)
        cases before with
        | nil =>
            obtain rfl := Option.some.inj hu
            exact hs
        | cons c before =>
            obtain ⟨rfl, rfl⟩ := List.cons.inj heq
            rw [run, hv, Option.bind_some] at hu
            apply (ih hPv h).mpr _ before after u rfl hu
            intro before' b after' w heq' hw
            apply hall (a :: before') b after' w (by rw [heq', List.cons_append])
            rw [run, hv, Option.bind_some, hw]

/-- A computed run whose last state passes a test. -/
theorem exists_of_run {s : σ} {as : List α} {p : σ → Bool} (h : (run step s as).any p = true) :
  ∃ t, run step s as = some t ∧ p t = true
  := by
  cases hrun : run step s as with
  | none => simp [hrun] at h
  | some t =>
      rw [hrun, Option.any_some] at h
      exact ⟨t, rfl, h⟩

end Transition
