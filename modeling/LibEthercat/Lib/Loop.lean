import Mathlib.Algebra.BigOperators.Group.List.Defs
import Mathlib.Algebra.GroupWithZero.Nat
import Mathlib.Data.List.Forall2
import Mathlib.Order.CompletePartialOrder
import Mathlib.Order.Interval.Set.Disjoint

/-!
# Loops that thread a cursor through a list

A C loop `for (i = 0; i < cnt; ++i) { if (!guard(a[i])) continue; ... }` reads an array, keeps a
few locals that it advances (a *cursor*), and overwrites the entries it does not skip. `thread`
is the loop without the guard, `threadIf` the loop with it.

* `threadIf_filter` — the guarded loop is the plain loop on the entries that pass the guard.
* `threadIf_frame` — the other entries stay as they are.
* `threadIf_number` — a loop that numbers some of the entries.
* `thread_pairwise_disjoint` — when every pass claims addresses between the cursor before and
  the cursor after it, no two passes claim the same address.
-/

namespace Loop

variable {σ α β : Type*}

/-- Run `f` over the list, handing the cursor of each pass to the next. -/
def thread (f : σ → α → σ × β) : σ → List α → σ × List β
  | c, [] => (c, [])
  | c, a :: as =>
    let r := f c a
    let rs := thread f r.1 as
    (rs.1, r.2 :: rs.2)

/-- Run `f` over the entries that satisfy `p`, and `continue` on the others. -/
def threadIf (p : α → Bool) (f : σ → α → σ × α) : σ → List α → σ × List α
  | c, [] => (c, [])
  | c, a :: as =>
    if p a then
      let r := f c a
      let rs := threadIf p f r.1 as
      (rs.1, r.2 :: rs.2)
    else
      let rs := threadIf p f c as
      (rs.1, a :: rs.2)

@[simp] theorem thread_nil (f : σ → α → σ × β) (c : σ) : thread f c [] = (c, []) := rfl

@[simp] theorem thread_cons (f : σ → α → σ × β) (c : σ) (a : α) (as : List α) :
    thread f c (a :: as) =
      ((thread f (f c a).1 as).1, (f c a).2 :: (thread f (f c a).1 as).2) := rfl

theorem mem_thread {f : σ → α → σ × β} {c : σ} {as : List α} {b : β} (hb : b ∈ (thread f c as).2) :
    ∃ c', ∃ a ∈ as, b = (f c' a).2 := by
  induction as generalizing c with
  | nil => exact absurd hb List.not_mem_nil
  | cons a as ih =>
    obtain rfl | hb := List.mem_cons.1 hb
    · exact ⟨c, a, List.mem_cons_self, rfl⟩
    · obtain ⟨c', x, hx, rfl⟩ := ih hb
      exact ⟨c', x, List.mem_cons_of_mem a hx, rfl⟩

/-- What a pass makes of an entry, when it does not depend on the cursor. -/
theorem thread_map {γ : Type*} {f : σ → α → σ × β} {F : β → γ} {G : α → γ}
    (h : ∀ c a, F (f c a).2 = G a) (c : σ) (as : List α) : (thread f c as).2.map F = as.map G := by
  induction as generalizing c with
  | nil => rfl
  | cons a as ih => rw [thread_cons, List.map_cons, List.map_cons, h, ih]

/-! ## The guard -/

section Guard

variable {p : α → Bool} {f : σ → α → σ × α}

/-- A guarded loop does to the entries that pass the guard what the plain loop does to the list
of just these entries, provided a pass does not change the guard. -/
theorem threadIf_filter (hp : ∀ c a, p a = true → p (f c a).2 = true) (c : σ) (as : List α) :
    (threadIf p f c as).1 = (thread f c (as.filter p)).1 ∧
      (threadIf p f c as).2.filter p = (thread f c (as.filter p)).2 := by
  induction as generalizing c with
  | nil => exact ⟨rfl, rfl⟩
  | cons a as ih =>
    cases ha : p a with
    | true =>
      obtain ⟨h1, h2⟩ := ih (f c a).1
      simp [threadIf, ha, hp c a ha, h1, h2]
    | false =>
      obtain ⟨h1, h2⟩ := ih c
      simp [threadIf, ha, h1, h2]

/-- The entries the guard skips are left alone. -/
theorem threadIf_frame (hp : ∀ c a, p a = true → p (f c a).2 = true) (c : σ) (as : List α) :
    (threadIf p f c as).2.filter (fun a => !p a) = as.filter (fun a => !p a) := by
  induction as generalizing c with
  | nil => rfl
  | cons a as ih =>
    cases ha : p a with
    | true => simp [threadIf, ha, hp c a ha, ih]
    | false => simp [threadIf, ha, ih]

/-- A pass relates an entry to what it writes, and so does the loop. -/
theorem threadIf_forall₂ {R : α → α → Prop} (hskip : ∀ a, p a = false → R a a)
    (hpass : ∀ c a, p a = true → R a (f c a).2) (c : σ) (as : List α) :
    List.Forall₂ R as (threadIf p f c as).2 := by
  induction as generalizing c with
  | nil => exact List.Forall₂.nil
  | cons a as ih =>
    cases ha : p a with
    | true => simpa [threadIf, ha] using ⟨hpass c a ha, ih (f c a).1⟩
    | false => simpa [threadIf, ha] using ⟨hskip a ha, ih c⟩

/-- When a second pass over an entry does what the first did, so does a second loop. -/
theorem threadIf_idem (hp : ∀ c a, p a = true → p (f c a).2 = true) {as : List α}
    (h : ∀ c, ∀ a ∈ as, p a = true → f c (f c a).2 = f c a) (c : σ) :
    threadIf p f c (threadIf p f c as).2 = threadIf p f c as := by
  induction as generalizing c with
  | nil => rfl
  | cons a as ih =>
    have ih' := ih fun c b hb => h c b (List.mem_cons_of_mem a hb)
    cases ha : p a with
    | true => simp [threadIf, ha, hp c a ha, h c a List.mem_cons_self ha, ih']
    | false => simp [threadIf, ha, ih']

/-- A cursor that no pass moves. -/
theorem threadIf_pos_eq (pos : σ → ℕ) {as : List α}
    (h : ∀ c, ∀ a ∈ as, p a = true → pos (f c a).1 = pos c) (c : σ) :
    pos (threadIf p f c as).1 = pos c := by
  induction as generalizing c with
  | nil => rfl
  | cons a as ih =>
    have ih' := ih fun c b hb => h c b (List.mem_cons_of_mem a hb)
    cases ha : p a with
    | true => simp [threadIf, ha, ih', h c a List.mem_cons_self ha]
    | false => simp [threadIf, ha, ih']

/-- A cursor that counts the entries with `q` among those that pass the guard. -/
theorem threadIf_count (pos : σ → ℕ) (q : α → Bool)
    (hpos : ∀ c a, p a = true → pos (f c a).1 = pos c + if q a = true then 1 else 0) (c : σ)
    (as : List α) :
    pos (threadIf p f c as).1 = pos c + as.countP fun a => p a && q a := by
  induction as generalizing c with
  | nil => rfl
  | cons a as ih =>
    rw [List.countP_cons]
    cases ha : p a with
    | true =>
      have hstep := hpos c a ha
      simp only [threadIf, ha, if_true, ih, hstep, Bool.true_and]
      omega
    | false => simp [threadIf, ha, ih]

/-- **Consecutive numbers** for the entries with `q`: each is given the count before it. -/
theorem threadIf_number (pos : σ → ℕ) (num : α → ℕ) (q : α → Bool)
    (hp : ∀ c a, p a = true → p (f c a).2 = true)
    (hq : ∀ c a, p a = true → q (f c a).2 = q a)
    (hpos : ∀ c a, p a = true → pos (f c a).1 = pos c + if q a = true then 1 else 0)
    (hnum : ∀ c a, p a = true → q a = true → num (f c a).2 = pos c) (c : σ) (as : List α) :
    ((threadIf p f c as).2.filter fun a => p a && q a).map num =
      List.range' (pos c) (as.countP fun a => p a && q a) := by
  induction as generalizing c with
  | nil => rfl
  | cons a as ih =>
    cases ha : p a with
    | true =>
      have hstep := hpos c a ha
      cases hqa : q a with
      | true =>
        rw [if_pos hqa] at hstep
        simp [threadIf, ha, hp c a ha, hq c a ha, hqa, hnum c a ha hqa, ih, hstep,
          List.range'_succ]
      | false =>
        rw [hqa, if_neg (by decide), Nat.add_zero] at hstep
        simp [threadIf, ha, hp c a ha, hq c a ha, hqa, ih, hstep]
    | false => simp [threadIf, ha, ih]

end Guard

/-! ## Cursors as addresses -/

/-- The cursor never moves back, so the whole loop stays above where it started. -/
theorem thread_le {f : σ → α → σ × β} (pos : σ → ℕ) (h : ∀ c a, pos c ≤ pos (f c a).1) (c : σ)
    (as : List α) : pos c ≤ pos (thread f c as).1 := by
  induction as generalizing c with
  | nil => exact le_rfl
  | cons a as ih => exact (h c a).trans (ih _)

/-- A cursor that every pass moves by an amount that depends on the entry alone. -/
theorem thread_pos_eq {f : σ → α → σ × β} (pos : σ → ℕ) {g : α → ℕ}
    (h : ∀ c a, pos (f c a).1 = pos c + g a) (c : σ) (as : List α) :
    pos (thread f c as).1 = pos c + (as.map g).sum := by
  induction as generalizing c with
  | nil => rfl
  | cons a as ih =>
    have := ih (f c a).1
    have := h c a
    simp only [thread_cons, List.map_cons, List.sum_cons]
    omega

/-- Every pass claims addresses between the cursor before it and the cursor after it; then all
claims lie between the first and the last cursor. -/
theorem thread_subset {f : σ → α → σ × β} (pos : σ → ℕ) (region : β → Set ℕ)
    (hle : ∀ c a, pos c ≤ pos (f c a).1)
    (h : ∀ c a, region (f c a).2 ⊆ Set.Ico (pos c) (pos (f c a).1)) (c : σ) (as : List α) :
    ∀ b ∈ (thread f c as).2, region b ⊆ Set.Ico (pos c) (pos (thread f c as).1) := by
  induction as generalizing c with
  | nil => simp
  | cons a as ih =>
    intro b hb
    rcases List.mem_cons.1 hb with rfl | hb
    · exact (h c a).trans (Set.Ico_subset_Ico_right (thread_le pos hle _ as))
    · exact (ih _ b hb).trans (Set.Ico_subset_Ico_left (hle c a))

/-- **Claims of different passes are disjoint.** -/
theorem thread_pairwise_disjoint {f : σ → α → σ × β} (pos : σ → ℕ) (region : β → Set ℕ)
    (hle : ∀ c a, pos c ≤ pos (f c a).1)
    (h : ∀ c a, region (f c a).2 ⊆ Set.Ico (pos c) (pos (f c a).1)) (c : σ) (as : List α) :
    (thread f c as).2.Pairwise fun b b' => Disjoint (region b) (region b') := by
  induction as generalizing c with
  | nil => exact List.Pairwise.nil
  | cons a as ih =>
    refine List.Pairwise.cons (fun b hb => ?_) (ih _)
    have hb' := thread_subset pos region hle h _ as b hb
    exact Set.disjoint_of_subset (h c a) hb' (Set.Ico_disjoint_Ico_same)

end Loop
