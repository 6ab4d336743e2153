import Mathlib.Data.Sum.Basic
import Mathlib.Data.Nat.Notation

/-!
# Loops that may not end

A pass of a loop either leaves a state for the next pass or ends the loop with a result. `Reaches`
says which states a loop comes to, `Ends` with what it ends, if it does.

* `Ends.unique` — in at most one way.
* `ends_iff_of_reaches` — from a state that it comes to, it ends as from the first one.
* `not_ends_of_inv` — a loop that cannot leave some set of states never ends.
-/

namespace While

variable {S R : Type*}

/-- The result, if `fuel` passes are enough. -/
def run (step : S → S ⊕ R) : ℕ → S → Option R
  | 0, _ => none
  | fuel + 1, s =>
    match step s with
    | .inl t => run step fuel t
    | .inr r => some r

def Ends (step : S → S ⊕ R) (s : S) (r : R) : Prop := ∃ fuel, run step fuel s = some r

inductive Reaches (step : S → S ⊕ R) : S → S → Prop
  | refl (s : S) : Reaches step s s
  | next {s t u : S} : step s = .inl t → Reaches step t u → Reaches step s u

variable {step : S → S ⊕ R} {s t u : S} {r r' : R} {I : S → Prop}

/-! ## One pass -/

theorem ends_of_done (h : step s = .inr r) : Ends step s r' ↔ r = r' := by
  constructor
  · rintro ⟨fuel, hrun⟩
    cases fuel with
    | zero => cases hrun
    | succ fuel =>
      rw [run, h] at hrun
      exact Option.some.inj hrun
  · rintro rfl
    exact ⟨1, by rw [run, h]⟩

theorem ends_of_next (h : step s = .inl t) : Ends step s r ↔ Ends step t r := by
  constructor
  · rintro ⟨fuel, hrun⟩
    cases fuel with
    | zero => cases hrun
    | succ fuel =>
      rw [run, h] at hrun
      exact ⟨fuel, hrun⟩
  · rintro ⟨fuel, hrun⟩
    exact ⟨fuel + 1, by rw [run, h]; exact hrun⟩

theorem ends_congr (h : step s = step t) : Ends step s r ↔ Ends step t r := by
  cases ht : step t with
  | inl u => rw [ends_of_next ht, ends_of_next (h.trans ht)]
  | inr r' => rw [ends_of_done ht, ends_of_done (h.trans ht)]

/-! ## Many passes -/

theorem Reaches.trans (h : Reaches step s t) (h' : Reaches step t u) : Reaches step s u := by
  induction h with
  | refl => exact h'
  | next hs _ ih => exact .next hs (ih h')

theorem Reaches.single (h : step s = .inl t) : Reaches step s t := .next h (.refl t)

theorem ends_iff_of_reaches (h : Reaches step s t) : Ends step s r ↔ Ends step t r := by
  induction h with
  | refl => rfl
  | next hs _ ih => exact (ends_of_next hs).trans ih

/-- A loop that ends comes to a last pass. -/
theorem Ends.exists_last (h : Ends step s r) : ∃ t, Reaches step s t ∧ step t = .inr r := by
  obtain ⟨fuel, hrun⟩ := h
  induction fuel generalizing s with
  | zero => cases hrun
  | succ fuel ih =>
    rw [run] at hrun
    cases hs : step s with
    | inl t =>
      rw [hs] at hrun
      obtain ⟨u, hu, hlast⟩ := ih hrun
      exact ⟨u, .next hs hu, hlast⟩
    | inr r' =>
      rw [hs] at hrun
      cases hrun
      exact ⟨s, .refl s, hs⟩

theorem Ends.unique (h : Ends step s r) (h' : Ends step s r') : r = r' := by
  obtain ⟨t, ht, hlast⟩ := h.exists_last
  exact (ends_of_done hlast).1 ((ends_iff_of_reaches ht).1 h')

/-! ## Invariants -/

theorem Reaches.induction (hstep : ∀ s t, I s → step s = .inl t → I t) (hs : I s)
    (h : Reaches step s t) : I t := by
  induction h with
  | refl => exact hs
  | next hst _ ih => exact ih (hstep _ _ hs hst)

/-- What the passes keep, and the last one turns into something about the result. -/
theorem Ends.induction {Q : R → Prop} (hstep : ∀ s t, I s → step s = .inl t → I t)
    (hlast : ∀ s r, I s → step s = .inr r → Q r) (hs : I s) (h : Ends step s r) : Q r := by
  obtain ⟨t, ht, hr⟩ := h.exists_last
  exact hlast t r (ht.induction hstep hs) hr

/-- **A loop without a way out.** -/
theorem not_ends_of_inv (hstep : ∀ s, I s → ∃ t, step s = .inl t ∧ I t) (hs : I s) :
    ¬ Ends step s r := by
  rintro ⟨fuel, hrun⟩
  induction fuel generalizing s with
  | zero => cases hrun
  | succ fuel ih =>
    obtain ⟨t, ht, hI⟩ := hstep s hs
    rw [run, ht] at hrun
    exact ih hI hrun

end While
