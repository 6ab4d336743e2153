import Mathlib.Algebra.GroupWithZero.Nat
import Mathlib.Data.List.Induction

/-!
# Loops as folds

* `forall_foldl` — a property that every pass keeps under a condition of its own holds after the
  loop when the condition of each pass holds. The condition may look at a part of the state that
  develops by itself; `steps` lists the passes with that part.
* `foldl_keeps` — a part of the state that no pass touches.
* `last_decides` — a property that a pass either settles or leaves alone is settled by the last
  pass that settles it.
* `foldl_once` — a part of the state that a single pass touches.
* `foldl_range_at` — passes that write to a table, each at its own position.
* `foldl_add` — a sum.
* `foldl_push` — a list that takes no more than so many elements.
-/

namespace Folds

variable {σ τ α : Type*}

/-- The passes of a fold, each with the state that it starts from. -/
def steps (f : σ → α → σ) : σ → List α → List (σ × α)
  | _, [] => []
  | s, a :: as => (s, a) :: steps f (f s a) as

@[simp] theorem steps_nil (f : σ → α → σ) (s : σ) : steps f s [] = [] := rfl

@[simp] theorem steps_cons (f : σ → α → σ) (s : σ) (a : α) (as : List α) :
    steps f s (a :: as) = (s, a) :: steps f (f s a) as := rfl

theorem mem_steps_const {s : σ} {as : List α} {p : σ × α} :
    p ∈ steps (fun s _ => s) s as ↔ p.1 = s ∧ p.2 ∈ as := by
  induction as with
  | nil => simp
  | cons a as ih =>
    rw [steps_cons, List.mem_cons, ih, List.mem_cons, Prod.ext_iff]
    exact ⟨fun h => h.elim (fun h => ⟨h.1, .inl h.2⟩) fun h => ⟨h.1, .inr h.2⟩,
      fun h => h.2.imp (fun h' => ⟨h.1, h'⟩) fun h' => ⟨h.1, h'⟩⟩

section Keeps

variable {f : σ → α → σ} {R : σ → Prop}

/-- **A property kept by each pass under a condition.** -/
theorem forall_foldl {m : σ → τ} {g : τ → α → τ} {Q : τ → α → Prop}
    (hm : ∀ s a, m (f s a) = g (m s) a) (hf : ∀ s a, R (f s a) ↔ R s ∧ Q (m s) a) (s : σ)
    (as : List α) : R (as.foldl f s) ↔ R s ∧ ∀ p ∈ steps g (m s) as, Q p.1 p.2 := by
  induction as generalizing s with
  | nil => simp
  | cons a as ih => rw [List.foldl_cons, ih, hf, hm, steps_cons, List.forall_mem_cons, and_assoc]

theorem foldl_keeps {m : σ → τ} (h : ∀ s a, m (f s a) = m s) (s : σ) (as : List α) :
    m (as.foldl f s) = m s := by
  induction as generalizing s with
  | nil => rfl
  | cons a as ih => rw [List.foldl_cons, ih, h]

/-- The condition looks at a part of the state that stays as it is. -/
theorem forall_foldl_const {m : σ → τ} {Q : τ → α → Prop} (hm : ∀ s a, m (f s a) = m s)
    (hf : ∀ s a, R (f s a) ↔ R s ∧ Q (m s) a) (s : σ) (as : List α) :
    R (as.foldl f s) ↔ R s ∧ ∀ a ∈ as, Q (m s) a := by
  rw [forall_foldl (g := fun t _ => t) hm hf]
  refine and_congr_right fun _ => ⟨fun h a ha => h (m s, a) (mem_steps_const.2 ⟨rfl, ha⟩), ?_⟩
  intro h p hp
  rw [(mem_steps_const.1 hp).1]
  exact h p.2 (mem_steps_const.1 hp).2

/-- The condition looks at no state. -/
theorem forall_foldl_each {Q : α → Prop} (hf : ∀ s a, R (f s a) ↔ R s ∧ Q a) (s : σ)
    (as : List α) : R (as.foldl f s) ↔ R s ∧ ∀ a ∈ as, Q a :=
  forall_foldl_const (m := fun _ => ()) (Q := fun _ a => Q a) (fun _ _ => rfl) hf s as

theorem foldl_iff (hf : ∀ s a, R (f s a) ↔ R s) (s : σ) (as : List α) :
    R (as.foldl f s) ↔ R s :=
  iff_of_eq (foldl_keeps (fun s a => propext (hf s a)) s as)

end Keeps

/-! ## The last pass -/

/-- **The last pass that settles it decides.** -/
theorem last_decides {f : σ → α → σ} {P : σ → Prop} {Q : α → Prop} {p : α → Bool}
    (hset : ∀ s a, p a = true → (P (f s a) ↔ Q a)) (hkeep : ∀ s a, p a = false → (P (f s a) ↔ P s))
    (s : σ) (as : List α) :
    P (as.foldl f s) ↔ ((as.filter p).getLast?).elim (P s) Q := by
  induction as using List.reverseRecOn with
  | nil => rfl
  | append_singleton as a ih =>
    rw [List.foldl_append, List.foldl_cons, List.foldl_nil, List.filter_append]
    cases hp : p a with
    | true => simp [hset _ a hp, hp]
    | false => simp [hkeep _ a hp, hp, ih]

/-- Without a pass that touches it, a part of the state stays as it is. -/
theorem foldl_keeps_of_none {f : σ → α → σ} {m : σ → τ} {p : α → Bool}
    (h : ∀ s a, p a = false → m (f s a) = m s) {as : List α} (hp : (as.filter p).getLast? = none)
    (s : σ) : m (as.foldl f s) = m s := by
  rw [List.getLast?_eq_none_iff, List.filter_eq_nil_iff] at hp
  induction as generalizing s with
  | nil => rfl
  | cons a as ih =>
    rw [List.forall_mem_cons] at hp
    rw [List.foldl_cons, ih hp.2, h s a (Bool.not_eq_true _ ▸ hp.1)]

/-- **A single pass touches** a part of the state: the others come before it or behind it. -/
theorem foldl_once {f : σ → α → σ} {m : σ → τ} {p : α → Bool} {as : List α}
    (h : ∀ a ∈ as, p a = false → ∀ s, m (f s a) = m s) (hone : (as.filter p).length ≤ 1) {a : α}
    (ha : a ∈ as) (hp : p a = true) (s : σ) :
    ∃ s', m s' = m s ∧ m (as.foldl f s) = m (f s' a) := by
  obtain ⟨pre, post, rfl⟩ := List.append_of_mem ha
  have hkeeps : ∀ bs : List α, (∀ b ∈ bs, b ∈ pre ++ a :: post ∧ p b = false) → ∀ s,
      m (bs.foldl f s) = m s := by
    intro bs
    induction bs with
    | nil => exact fun _ _ => rfl
    | cons b bs ih =>
      intro hbs s
      obtain ⟨hb, hbs⟩ := List.forall_mem_cons.1 hbs
      rw [List.foldl_cons, ih hbs, h b hb.1 hb.2]
  have hcount : (pre.filter p).length = 0 ∧ (post.filter p).length = 0 := by
    rw [List.filter_append, List.filter_cons_of_pos hp, List.length_append, List.length_cons] at hone
    omega
  have hnone : ∀ {bs : List α}, (bs.filter p).length = 0 → ∀ b ∈ bs, p b = false := by
    intro bs hbs b hb
    have := List.filter_eq_nil_iff.1 (List.length_eq_zero_iff.1 hbs) b hb
    exact Bool.not_eq_true _ ▸ this
  refine ⟨pre.foldl f s, hkeeps pre (fun b hb => ⟨List.mem_append_left _ hb, ?_⟩) s, ?_⟩
  · exact hnone hcount.1 b hb
  · rw [List.foldl_append, List.foldl_cons]
    refine hkeeps post (fun b hb => ⟨?_, hnone hcount.2 b hb⟩) _
    exact List.mem_append_right _ (List.mem_cons_of_mem a hb)

/-! ## Tables -/

/-- **Each pass writes to a position of its own**, from `b` on, if at all. -/
theorem foldl_range_at {f : σ → ℕ → σ} {I : σ → Prop} {g : σ → ℕ → τ} {p : ℕ → Prop}
    [DecidablePred p] {w : ℕ → τ} {b : ℕ} (hI : ∀ s i, I s → I (f s i))
    (hf : ∀ s i j, I s → g (f s i) j = if j = b + i ∧ p i then w i else g s j) {s : σ} (hs : I s)
    (n j : ℕ) : I ((List.range n).foldl f s) ∧ g ((List.range n).foldl f s) j =
      if b ≤ j ∧ j < b + n ∧ p (j - b) then w (j - b) else g s j := by
  induction n with
  | zero => exact ⟨hs, (if_neg fun h => by omega).symm⟩
  | succ n ih =>
    rw [List.range_succ, List.foldl_append, List.foldl_cons, List.foldl_nil]
    refine ⟨hI _ n ih.1, ?_⟩
    rw [hf _ n j ih.1, ih.2]
    by_cases hj : j = b + n
    · have hn : j - b = n := by omega
      rw [hn]
      by_cases hp : p n
      · rw [if_pos ⟨hj, hp⟩, if_pos ⟨by omega, by omega, hp⟩]
      · rw [if_neg fun h => hp h.2, if_neg fun h => hp h.2.2, if_neg fun h => hp h.2.2]
    · rw [if_neg fun h => hj h.1]
      refine if_congr ?_ rfl rfl
      exact and_congr_right fun _ => and_congr_left fun _ => by omega

/-! ## Sums -/

theorem foldl_add (f : α → ℕ) (as : List α) (n : ℕ) :
    as.foldl (fun n a => n + f a) n = n + (as.map f).sum := by
  induction as generalizing n with
  | nil => rfl
  | cons a as ih => rw [List.foldl_cons, ih, List.map_cons, List.sum_cons, Nat.add_assoc]

/-! ## A list of limited length -/

/-- One more element, when there is room. -/
def push (n : ℕ) (l : List α) (a : α) : List α := if l.length < n then l ++ [a] else l

theorem foldl_push {n : ℕ} {l : List α} (as : List α) (h : l.length ≤ n) :
    as.foldl (push n) l = (l ++ as).take n := by
  induction as generalizing l with
  | nil => rw [List.foldl_nil, List.append_nil, List.take_of_length_le h]
  | cons a as ih =>
    rw [List.foldl_cons, push]
    split_ifs with hlt
    · rw [ih (by rw [List.length_append, List.length_singleton]; omega), List.append_assoc,
        List.singleton_append]
    · rw [ih h, List.take_append_of_le_length (by omega), List.take_append_of_le_length (by omega)]

end Folds
