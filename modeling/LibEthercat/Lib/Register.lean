import Mathlib.Data.Option.Basic
import LibEthercat.Lib.Traced

/-!
# A register along a trace

Some events of a trace set a register, and some look at it.

* `Along` — a condition on each event and on what the register holds then.
* `Follows` — the events of a computation see what has been set last, and so does its result.
* `forall_iff_along` — what each event sees, in terms of what has been set before.
-/

namespace Register

variable {ε V α β σ : Type*}

/-- The register behind an event. -/
def next (set : ε → Option V) (v : V) (e : ε) : V := (set e).getD v

/-- The register behind these events. -/
def after (set : ε → Option V) (v : V) (es : List ε) : V := es.foldl (next set) v

/-- The condition holds of each event, with the value that was set last. -/
def Along (set : ε → Option V) (P : ε → V → Prop) : V → List ε → Prop
  | _, [] => True
  | v, e :: es => P e v ∧ Along set P (next set v e) es

variable {set : ε → Option V} {P Q : ε → V → Prop} {v : V} {es fs : List ε}

theorem after_append : after set v (es ++ fs) = after set (after set v es) fs :=
  List.foldl_append

theorem along_append :
    Along set P v (es ++ fs) ↔ Along set P v es ∧ Along set P (after set v es) fs := by
  induction es generalizing v with
  | nil => simp [Along, after]
  | cons e es ih => exact (and_congr_right fun _ => ih).trans and_assoc.symm

/-- **What each event sees.** -/
theorem forall_iff_along {R : ε → Prop} (h : Along set P v es)
    (hiff : ∀ e v, P e v → (R e ↔ Q e v)) : (∀ e ∈ es, R e) ↔ Along set Q v es := by
  induction es generalizing v with
  | nil => exact iff_of_true nofun trivial
  | cons e es ih => exact List.forall_mem_cons.trans (and_congr (hiff e v h.1) (ih h.2))

/-! ## Computations -/

/-- The events see what the register holds, beginning with `v`, and so does the result. -/
structure Follows (set : ε → Option V) (sees : ε → V → Prop) (get : α → V) (v : V)
    (t : Traced ε α) : Prop where
  along : Along set sees v t.events
  result : ∀ a, t.result = some a → get a = after set v t.events

variable {sees : ε → V → Prop} {get : α → V} {get' : β → V} {t : Traced ε α} {f : α → Traced ε β}

theorem Follows.pure {a : α} (h : get a = v) : Follows set sees get v (.pure a) := by
  refine ⟨trivial, ?_⟩
  rintro b ⟨⟩
  exact h

/-- A single event that sees the register, with what comes of it. -/
theorem Follows.single {e : ε} {o : Option α} (he : sees e v)
    (ho : ∀ a, o = some a → get a = next set v e) : Follows set sees get v ⟨[e], o⟩ :=
  ⟨⟨he, trivial⟩, ho⟩

theorem Follows.bind (h : Follows set sees get v t)
    (hf : ∀ a, Follows set sees get' (get a) (f a)) : Follows set sees get' v (t.bind f) := by
  cases ht : t.result with
  | none =>
    rw [Traced.bind_of_none ht]
    exact ⟨h.along, nofun⟩
  | some a =>
    have hrest := hf a
    rw [h.result a ht] at hrest
    rw [Traced.bind_of_some ht]
    refine ⟨along_append.2 ⟨h.along, hrest.along⟩, fun b hb => ?_⟩
    rw [hrest.result b hb, after_append]

/-- A loop. -/
theorem Follows.fold {g : σ → α → Traced ε σ} {get : σ → V}
    (h : ∀ s a, Follows set sees get (get s) (g s a)) (s : σ) (as : List α) :
    Follows set sees get (get s) (.fold g s as) := by
  induction as generalizing s with
  | nil => exact .pure rfl
  | cons a as ih => exact (h s a).bind ih

end Register
