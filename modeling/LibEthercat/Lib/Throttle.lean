import Mathlib.Data.List.TakeWhile
import Mathlib.Tactic.TypeStar

/-!
# A throttle

Requests share one timer. A request that finds it expired is granted, and sets it again; one that
finds it running is held back by whoever has set it.

The requests fall into windows: one that is granted opens a window, which has all requests until
its timer is over.

* `heldOnly_iff_windows` — what holds of those held back, and of those that hold them back, is a
  matter of the windows.
-/

namespace Throttle

variable {κ τ : Type*}

/-- Who makes the request, whether it finds a timer expired, and what it sets the timer to. -/
structure Request (κ τ : Type*) where
  key : κ
  expired : τ → Bool
  timer : τ

/-- The timer, and who has set it. -/
structure State (κ τ : Type*) where
  timer : τ
  setBy : Option κ

inductive Outcome (κ : Type*)
  | granted
  | held (holder : Option κ)
deriving DecidableEq

/-- What becomes of a request. -/
def outcome (s : State κ τ) (r : Request κ τ) : Outcome κ :=
  if r.expired s.timer then .granted else .held s.setBy

def next (s : State κ τ) (r : Request κ τ) : State κ τ :=
  if r.expired s.timer then ⟨r.timer, some r.key⟩ else s

/-- The requests, with what becomes of them. -/
def outcomes : State κ τ → List (Request κ τ) → List (Request κ τ × Outcome κ)
  | _, [] => []
  | s, r :: rs => (r, outcome s r) :: outcomes (next s r) rs

/-- The requests that find this timer running, until the first that does not. -/
def during (timer : τ) (rs : List (Request κ τ)) : List (Request κ τ) :=
  rs.takeWhile fun r => !r.expired timer

/-- The windows, each with the request that opens it and those that fall into it. -/
def windows : τ → List (Request κ τ) → List (Request κ τ × List (Request κ τ))
  | _, [] => []
  | timer, r :: rs =>
    if r.expired timer then (r, during r.timer rs) :: windows r.timer rs else windows timer rs

variable {s : State κ τ} {r : Request κ τ} {rs : List (Request κ τ)} {timer : τ}
  {R : κ → Request κ τ → Prop}

theorem outcome_of_expired (h : r.expired s.timer = true) : outcome s r = .granted := if_pos h

theorem outcome_of_running (h : r.expired s.timer = false) : outcome s r = .held s.setBy := by
  rw [outcome, if_neg (by rw [h]; exact Bool.false_ne_true)]

theorem next_of_expired (h : r.expired s.timer = true) : next s r = ⟨r.timer, some r.key⟩ :=
  if_pos h

theorem next_of_running (h : r.expired s.timer = false) : next s r = s := by
  rw [next, if_neg (by rw [h]; exact Bool.false_ne_true)]

theorem outcomes_append {rs' : List (Request κ τ)} :
    outcomes s (rs ++ rs') = outcomes s rs ++ outcomes (rs.foldl next s) rs' := by
  induction rs generalizing s with
  | nil => rfl
  | cons r rs ih => simp [outcomes, ih]

/-- The relation holds between all that hold back a request, and the request. -/
def HeldOnly (R : κ → Request κ τ → Prop) (s : State κ τ) (rs : List (Request κ τ)) : Prop :=
  ∀ p ∈ outcomes s rs, ∀ k, p.2 = .held (some k) → R k p.1

theorem heldOnly_cons : HeldOnly R s (r :: rs) ↔
    (∀ k, outcome s r = .held (some k) → R k r) ∧ HeldOnly R (next s r) rs :=
  List.forall_mem_cons

/-- **Holding back and windows.** At first the timer may be running already. -/
theorem heldOnly_iff : HeldOnly R s rs ↔
    (∀ k, s.setBy = some k → ∀ r ∈ during s.timer rs, R k r) ∧
      ∀ w ∈ windows s.timer rs, ∀ r ∈ w.2, R w.1.key r := by
  induction rs generalizing s with
  | nil => simp [HeldOnly, outcomes, during, windows]
  | cons r rs ih =>
    rw [heldOnly_cons, ih]
    cases hr : r.expired s.timer with
    | true =>
      rw [outcome_of_expired hr, next_of_expired hr]
      simp [during, windows, hr]
    | false =>
      rw [outcome_of_running hr, next_of_running hr]
      simp [during, windows, hr, forall_and, and_assoc]

/-- A timer that nobody has set. -/
theorem heldOnly_iff_windows (rs : List (Request κ τ)) (h : s.setBy = none) : HeldOnly R s rs ↔
    ∀ w ∈ windows s.timer rs, ∀ r ∈ w.2, R w.1.key r := by
  rw [heldOnly_iff, h]
  simp

end Throttle
