import LibEthercat.Lib.Loop

/-!
# A carrier that goes round

A carrier passes stations one behind the other (`Loop.thread`). Each station reads what the carrier
brings at its own places and puts there what it has.

* `thread_frame` — a place that all stations leave free keeps its content.
* `thread_getElem` — what a station does is what it does with the carrier as it arrives.
* `thread_arrives`, `thread_leaves` — at places that the others leave free, a station gets what has
  been sent, and what it puts comes back.
-/

namespace Carrier

open Loop

variable {σ α A V : Type*} {step : σ → α → σ × α} (get : σ → A → V) {free : α → A → Prop}
  {c : σ} {as : List α} {a : A}

/-- A place that every station leaves free. -/
theorem thread_frame (hstep : ∀ c s a, free s a → get (step c s).1 a = get c a)
    (ha : ∀ s ∈ as, free s a) : get (thread step c as).1 a = get c a := by
  induction as generalizing c with
  | nil => rfl
  | cons s as ih =>
    obtain ⟨hs, has⟩ := List.forall_mem_cons.1 ha
    exact (ih has).trans (hstep c s a hs)

theorem length_thread : (thread step c as).2.length = as.length := by
  induction as generalizing c with
  | nil => rfl
  | cons s as ih => exact congrArg (· + 1) ih

/-- The carrier in front of a station. -/
def before (step : σ → α → σ × α) (c : σ) (as : List α) (i : ℕ) : σ := (thread step c (as.take i)).1

theorem thread_getElem {i : ℕ} (hi : i < as.length) :
    (thread step c as).2[i]? = some (step (before step c as i) as[i]).2 := by
  induction as generalizing c i with
  | nil => exact absurd hi (Nat.not_lt_zero i)
  | cons s as ih =>
    cases i with
    | zero => rfl
    | succ i => exact ih (Nat.lt_of_succ_lt_succ hi)

theorem thread_fst {i : ℕ} (hi : i < as.length) :
    (thread step c as).1 =
      (thread step (step (before step c as i) as[i]).1 (as.drop (i + 1))).1 := by
  induction as generalizing c i with
  | nil => exact absurd hi (Nat.not_lt_zero i)
  | cons s as ih =>
    cases i with
    | zero => rfl
    | succ i => exact ih (Nat.lt_of_succ_lt_succ hi)

section
variable (hstep : ∀ c s a, free s a → get (step c s).1 a = get c a) {i : ℕ} (hi : i < as.length)
  (hothers : ∀ j (hj : j < as.length), j ≠ i → free as[j] a)
include hstep hothers

/-- **What arrives.** -/
theorem thread_arrives : get (before step c as i) a = get c a := by
  refine thread_frame get hstep fun s hs => ?_
  obtain ⟨j, hj, rfl⟩ := List.mem_iff_getElem.1 hs
  rw [List.length_take] at hj
  rw [List.getElem_take]
  exact hothers j (by omega) (by omega)

include hi in
/-- **What comes back.** -/
theorem thread_leaves : get (thread step c as).1 a = get (step (before step c as i) as[i]).1 a := by
  rw [thread_fst hi]
  refine thread_frame get hstep fun s hs => ?_
  obtain ⟨j, hj, rfl⟩ := List.mem_iff_getElem.1 hs
  rw [List.length_drop] at hj
  rw [List.getElem_drop]
  exact hothers (i + 1 + j) (by omega) (by omega)

end

end Carrier
