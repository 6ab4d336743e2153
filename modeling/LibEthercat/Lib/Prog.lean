import Mathlib.Data.Nat.Notation
import Mathlib.Logic.Relation
import Mathlib.Tactic.TypeStar

/-!
# Programs that may fail, and may not come to an end

A program starts in a state and ends with a value or an error, and a state. Its loops are cut off
after so many passes as there is fuel, and it `Ends` with an outcome if some fuel is enough for it.

* `Ends.unique` — with at most one.
* `Post` — what holds if it ends; `Total` — that it ends, and what holds then.
* `post_bind`, `total_bind` — the parts of a sequence one after the other.
* `post_loop`, `total_loop` — loops, by an invariant and by a measure.
* `not_ends_loop` — a loop that never gets out of a set of states.
* `ends_untilOk` — a loop that tries until it works.
* `post_bind_logs`, `post_loop_logs` — programs that only add to a log.
-/

universe u v w x

/-- The outcome, if `fuel` passes of each loop are enough. More fuel does not change it. -/
structure Prog (σ : Type u) (ε : Type v) (α : Type w) where
  run : ℕ → σ → Option (Except ε α × σ)
  mono : ∀ {fuel s r}, run fuel s = some r → run (fuel + 1) s = some r

namespace Prog

variable {σ : Type u} {ε φ : Type v} {α : Type w} {β : Type x}

/-! ## The constructs -/

def ret (a : α) : Prog σ ε α := ⟨fun _ s => some (.ok a, s), id⟩

def throw (e : ε) : Prog σ ε α := ⟨fun _ s => some (.error e, s), id⟩

/-- A single action on the state. -/
def act (f : σ → α × σ) : Prog σ ε α := ⟨fun _ s => some (.ok (f s).1, (f s).2), id⟩

/-- What comes after an outcome: an error skips it. -/
def next (k : α → σ → Option (Except ε β × σ)) :
    Option (Except ε α × σ) → Option (Except ε β × σ)
  | none => none
  | some (.error e, t) => some (.error e, t)
  | some (.ok a, t) => k a t

theorem next_eq_some {k : α → σ → Option (Except ε β × σ)} {o : Option (Except ε α × σ)}
    {r : Except ε β × σ} :
    next k o = some r ↔ (∃ e t, o = some (.error e, t) ∧ r = (.error e, t)) ∨
      ∃ a t, o = some (.ok a, t) ∧ k a t = some r := by
  rcases o with _ | ⟨e | a, t⟩
  · simp [next]
  · simp [next, eq_comm, and_assoc]
  · simp [next, and_assoc]

def bind (p : Prog σ ε α) (f : α → Prog σ ε β) : Prog σ ε β where
  run fuel s := next (fun a => (f a).run fuel) (p.run fuel s)
  mono h := by
    rcases next_eq_some.1 h with ⟨e, t, hp, rfl⟩ | ⟨a, t, hp, hf⟩
    · exact next_eq_some.2 (.inl ⟨e, t, p.mono hp, rfl⟩)
    · exact next_eq_some.2 (.inr ⟨a, t, p.mono hp, (f a).mono hf⟩)

instance : Monad (Prog σ ε) where
  pure := ret
  bind := bind

@[simp] theorem bind_eq {β : Type w} (p : Prog σ ε α) (f : α → Prog σ ε β) :
    p >>= f = p.bind f := rfl

@[simp] theorem ret_bind (a : α) (f : α → Prog σ ε β) : (ret a).bind f = f a := rfl

/-- The outcome as a value: the caller looks at it. -/
def attempt (p : Prog σ ε α) : Prog σ φ (Except ε α) where
  run fuel s := (p.run fuel s).map fun r => (.ok r.1, r.2)
  mono h := by
    obtain ⟨r, hp, rfl⟩ := Option.map_eq_some_iff.1 h
    exact Option.map_eq_some_iff.2 ⟨r, p.mono hp, rfl⟩

def loopRun (step : α → Prog σ ε (α ⊕ β)) : ℕ → α → σ → Option (Except ε β × σ)
  | 0, _, _ => none
  | fuel + 1, a, s =>
    next (fun x t => match x with
      | .inl a => loopRun step fuel a t
      | .inr b => some (.ok b, t)) ((step a).run fuel s)

/-- Passes until one of them leaves a value. -/
def loop (step : α → Prog σ ε (α ⊕ β)) (a : α) : Prog σ ε β where
  run fuel s := loopRun step fuel a s
  mono := by
    intro fuel s r h
    induction fuel generalizing a s with
    | zero => cases h
    | succ fuel ih =>
      rw [loopRun] at h ⊢
      rcases next_eq_some.1 h with ⟨e, t, hp, rfl⟩ | ⟨a' | b, t, hp, hf⟩
      · exact next_eq_some.2 (.inl ⟨e, t, (step a).mono hp, rfl⟩)
      · exact next_eq_some.2 (.inr ⟨.inl a', t, (step a).mono hp, ih a' hf⟩)
      · exact next_eq_some.2 (.inr ⟨.inr b, t, (step a).mono hp, hf⟩)

/-- What a loop does after a try: another one if it has failed. -/
def retry : Except ε α → Prog σ φ (Unit ⊕ α)
  | .error _ => ret (.inl ())
  | .ok a => ret (.inr a)

/-- A loop that runs `p` until it succeeds. -/
def untilOk (p : Prog σ ε α) : Prog σ φ α := loop (fun _ => p.attempt.bind retry) ()

/-! ## Outcomes -/

/-- The program ends with this result and state. -/
def Ends (p : Prog σ ε α) (s : σ) (r : Except ε α) (t : σ) : Prop :=
  ∃ fuel, p.run fuel s = some (r, t)

variable {p : Prog σ ε α} {f : α → Prog σ ε β} {step : α → Prog σ ε (α ⊕ β)} {s t u : σ} {a : α}
  {e : ε} {r r' : Except ε α} {Q Q' : Except ε α → σ → Prop} {Qb : Except ε β → σ → Prop}

theorem run_mono {fuel fuel' : ℕ} {o : Except ε α × σ} (hle : fuel ≤ fuel')
    (h : p.run fuel s = some o) : p.run fuel' s = some o := by
  induction hle with
  | refl => exact h
  | step _ ih => exact p.mono ih

theorem Ends.unique (h : p.Ends s r t) (h' : p.Ends s r' u) : r = r' ∧ t = u := by
  obtain ⟨fuel, h⟩ := h
  obtain ⟨fuel', h'⟩ := h'
  have hle := run_mono (fuel.le_max_left fuel') h
  rw [run_mono (fuel.le_max_right fuel') h'] at hle
  cases hle
  exact ⟨rfl, rfl⟩

@[simp] theorem ends_ret : (ret a : Prog σ ε α).Ends s r t ↔ .ok a = r ∧ s = t := by
  simp [Ends, ret]

@[simp] theorem ends_throw : (throw e : Prog σ ε α).Ends s r t ↔ .error e = r ∧ s = t := by
  simp [Ends, throw]

@[simp] theorem ends_act {g : σ → α × σ} :
    (act g : Prog σ ε α).Ends s r t ↔ .ok (g s).1 = r ∧ (g s).2 = t := by
  simp [Ends, act]

theorem ends_bind {r : Except ε β} :
    (p.bind f).Ends s r t ↔ (∃ e, p.Ends s (.error e) t ∧ r = .error e) ∨
      ∃ a u, p.Ends s (.ok a) u ∧ (f a).Ends u r t := by
  constructor
  · rintro ⟨fuel, h⟩
    rcases next_eq_some.1 h with ⟨e, u, hp, hr⟩ | ⟨a, u, hp, hf⟩
    · cases hr
      exact .inl ⟨e, ⟨fuel, hp⟩, rfl⟩
    · exact .inr ⟨a, u, ⟨fuel, hp⟩, ⟨fuel, hf⟩⟩
  · rintro (⟨e, ⟨fuel, hp⟩, rfl⟩ | ⟨a, u, ⟨fuel, hp⟩, ⟨fuel', hf⟩⟩)
    · exact ⟨fuel, next_eq_some.2 (.inl ⟨e, t, hp, rfl⟩)⟩
    · exact ⟨max fuel fuel', next_eq_some.2 (.inr ⟨a, u, run_mono (Nat.le_max_left ..) hp,
        run_mono (Nat.le_max_right ..) hf⟩)⟩

@[simp] theorem ends_attempt {r : Except φ (Except ε α)} :
    (p.attempt : Prog σ φ (Except ε α)).Ends s r t ↔ ∃ o, p.Ends s o t ∧ r = .ok o := by
  constructor
  · rintro ⟨fuel, h⟩
    obtain ⟨⟨o, u⟩, hp, ho⟩ := Option.map_eq_some_iff.1 h
    cases ho
    exact ⟨o, ⟨fuel, hp⟩, rfl⟩
  · rintro ⟨o, ⟨fuel, hp⟩, rfl⟩
    exact ⟨fuel, Option.map_eq_some_iff.2 ⟨(o, t), hp, rfl⟩⟩

/-- The passes from the second on. -/
def again (step : α → Prog σ ε (α ⊕ β)) : α ⊕ β → Prog σ ε β
  | .inl a => loop step a
  | .inr b => ret b

/-- **One pass of a loop.** -/
theorem ends_loop {r : Except ε β} :
    (loop step a).Ends s r t ↔ ((step a).bind (again step)).Ends s r t := by
  rw [ends_bind]
  constructor
  · rintro ⟨fuel, h⟩
    cases fuel with
    | zero => cases h
    | succ fuel =>
      rcases next_eq_some.1 h with ⟨e, u, hp, hr⟩ | ⟨a' | b, u, hp, hf⟩
      · cases hr
        exact .inl ⟨e, ⟨fuel, hp⟩, rfl⟩
      · exact .inr ⟨.inl a', u, ⟨fuel, hp⟩, ⟨fuel, hf⟩⟩
      · exact .inr ⟨.inr b, u, ⟨fuel, hp⟩, ⟨fuel, hf⟩⟩
  · rintro (⟨e, ⟨fuel, hp⟩, rfl⟩ | ⟨a' | b, u, ⟨fuel, hp⟩, ⟨fuel', hf⟩⟩)
    · exact ⟨fuel + 1, next_eq_some.2 (.inl ⟨e, t, hp, rfl⟩)⟩
    · exact ⟨max fuel fuel' + 1, next_eq_some.2 (.inr ⟨.inl a', u,
        run_mono (Nat.le_max_left ..) hp,
        run_mono (p := loop step a') (Nat.le_max_right ..) hf⟩)⟩
    · exact ⟨fuel + 1, next_eq_some.2 (.inr ⟨.inr b, u, hp, hf⟩)⟩

/-! ## What holds if a program ends -/

def Post (p : Prog σ ε α) (s : σ) (Q : Except ε α → σ → Prop) : Prop := ∀ r t, p.Ends s r t → Q r t

/-- What has to hold after a part for the rest to come to `Q`. -/
def After (f : α → Prog σ ε β) (Q : Except ε β → σ → Prop) : Except ε α → σ → Prop
  | .ok a, t => (f a).Post t Q
  | .error e, t => Q (.error e) t

theorem Post.imp (h : p.Post s Q) (himp : ∀ r t, Q r t → Q' r t) : p.Post s Q' :=
  fun r t hends => himp r t (h r t hends)

theorem Post.and (h : p.Post s Q) (h' : p.Post s Q') : p.Post s fun r t => Q r t ∧ Q' r t :=
  fun r t hends => ⟨h r t hends, h' r t hends⟩

@[simp] theorem post_ret : (ret a : Prog σ ε α).Post s Q ↔ Q (.ok a) s := by
  simp [Post]

@[simp] theorem post_throw : (throw e : Prog σ ε α).Post s Q ↔ Q (.error e) s := by
  simp [Post]

@[simp] theorem post_act {g : σ → α × σ} :
    (act g : Prog σ ε α).Post s Q ↔ Q (.ok (g s).1) (g s).2 := by
  simp [Post]

theorem post_bind : (p.bind f).Post s Qb ↔ p.Post s (After f Qb) := by
  constructor
  · rintro h (e | a) u hp
    · exact h (.error e) u (ends_bind.2 (.inl ⟨e, hp, rfl⟩))
    · exact fun r t hf => h r t (ends_bind.2 (.inr ⟨a, u, hp, hf⟩))
  · intro h r t hends
    rcases ends_bind.1 hends with ⟨e, hp, rfl⟩ | ⟨a, u, hp, hf⟩
    · exact h (.error e) t hp
    · exact h (.ok a) u hp r t hf

@[simp] theorem post_attempt {Q : Except φ (Except ε α) → σ → Prop} :
    (p.attempt : Prog σ φ (Except ε α)).Post s Q ↔ p.Post s fun r t => Q (.ok r) t := by
  constructor
  · exact fun h r t hends => h (.ok r) t (ends_attempt.2 ⟨r, hends, rfl⟩)
  · intro h r t hends
    obtain ⟨o, ho, rfl⟩ := ends_attempt.1 hends
    exact h o t ho

theorem post_ite {c : Prop} [Decidable c] {p' : Prog σ ε α} (h : c → p.Post s Q)
    (h' : ¬ c → p'.Post s Q) : (if c then p else p').Post s Q := by
  split
  · exact h ‹_›
  · exact h' ‹_›

/-- What a pass has to leave: the invariant for the next one, or the end. -/
def Pass (I : α → σ → Prop) (Q : Except ε β → σ → Prop) : Except ε (α ⊕ β) → σ → Prop
  | .ok (.inl a), t => I a t
  | .ok (.inr b), t => Q (.ok b) t
  | .error e, t => Q (.error e) t

/-- **A loop with an invariant.** -/
theorem post_loop {I : α → σ → Prop} (hstep : ∀ a s, I a s → (step a).Post s (Pass I Qb))
    (h : I a s) : (loop step a).Post s Qb := by
  rintro r t ⟨fuel, hrun⟩
  induction fuel generalizing a s with
  | zero => cases hrun
  | succ fuel ih =>
    rcases next_eq_some.1 hrun with ⟨e, u, hp, hr⟩ | ⟨a' | b, u, hp, hf⟩
    · cases hr
      exact hstep a s h _ _ ⟨fuel, hp⟩
    · exact ih (hstep a s h _ _ ⟨fuel, hp⟩) hf
    · cases hf
      exact hstep a s h _ _ ⟨fuel, hp⟩

/-! ## That a program ends -/

def Total (p : Prog σ ε α) (s : σ) (Q : Except ε α → σ → Prop) : Prop := ∃ r t, p.Ends s r t ∧ Q r t

def TotalAfter (f : α → Prog σ ε β) (Q : Except ε β → σ → Prop) : Except ε α → σ → Prop
  | .ok a, t => (f a).Total t Q
  | .error e, t => Q (.error e) t

theorem Total.imp (h : p.Total s Q) (himp : ∀ r t, Q r t → Q' r t) : p.Total s Q' := by
  obtain ⟨r, t, hends, hQ⟩ := h
  exact ⟨r, t, hends, himp r t hQ⟩

theorem total_congr (h : ∀ r t, Q r t ↔ Q' r t) : p.Total s Q ↔ p.Total s Q' :=
  ⟨fun hp => hp.imp fun r t => (h r t).1, fun hp => hp.imp fun r t => (h r t).2⟩

theorem Total.post (h : p.Total s Q) : p.Post s Q := by
  obtain ⟨r, t, hends, hQ⟩ := h
  intro r' t' hends'
  obtain ⟨rfl, rfl⟩ := hends.unique hends'
  exact hQ

theorem Total.and_post (h : p.Total s Q) (h' : p.Post s Q') :
    p.Total s fun r t => Q r t ∧ Q' r t := by
  obtain ⟨r, t, hends, hQ⟩ := h
  exact ⟨r, t, hends, hQ, h' r t hends⟩

@[simp] theorem total_ret : (ret a : Prog σ ε α).Total s Q ↔ Q (.ok a) s := by
  simp [Total, and_assoc]

@[simp] theorem total_throw : (throw e : Prog σ ε α).Total s Q ↔ Q (.error e) s := by
  simp [Total, and_assoc]

@[simp] theorem total_act {g : σ → α × σ} :
    (act g : Prog σ ε α).Total s Q ↔ Q (.ok (g s).1) (g s).2 := by
  simp [Total, and_assoc]

theorem total_bind : (p.bind f).Total s Qb ↔ p.Total s (TotalAfter f Qb) := by
  constructor
  · rintro ⟨r, t, hends, hQ⟩
    rcases ends_bind.1 hends with ⟨e, hp, rfl⟩ | ⟨a, u, hp, hf⟩
    · exact ⟨.error e, t, hp, hQ⟩
    · exact ⟨.ok a, u, hp, r, t, hf, hQ⟩
  · rintro ⟨e | a, u, hp, h⟩
    · exact ⟨.error e, u, ends_bind.2 (.inl ⟨e, hp, rfl⟩), h⟩
    · obtain ⟨r, t, hf, hQ⟩ := h
      exact ⟨r, t, ends_bind.2 (.inr ⟨a, u, hp, hf⟩), hQ⟩

@[simp] theorem total_attempt {Q : Except φ (Except ε α) → σ → Prop} :
    (p.attempt : Prog σ φ (Except ε α)).Total s Q ↔ p.Total s fun r t => Q (.ok r) t := by
  constructor
  · rintro ⟨r, t, hends, hQ⟩
    obtain ⟨o, ho, rfl⟩ := ends_attempt.1 hends
    exact ⟨o, t, ho, hQ⟩
  · rintro ⟨o, t, ho, hQ⟩
    exact ⟨.ok o, t, ends_attempt.2 ⟨o, ho, rfl⟩, hQ⟩

theorem total_ite {c : Prop} [Decidable c] {p' : Prog σ ε α} (h : c → p.Total s Q)
    (h' : ¬ c → p'.Total s Q) : (if c then p else p').Total s Q := by
  split
  · exact h ‹_›
  · exact h' ‹_›

theorem total_ite_iff {c : Prop} [Decidable c] {p' : Prog σ ε α} :
    (if c then p else p').Total s Q ↔ (c → p.Total s Q) ∧ (¬ c → p'.Total s Q) := by
  by_cases h : c
  · simp [h]
  · simp [h]

theorem total_loop_iff :
    (loop step a).Total s Qb ↔ (step a).Total s (TotalAfter (again step) Qb) := by
  rw [← total_bind]
  exact exists_congr fun r => exists_congr fun t => and_congr_left fun _ => ends_loop

/-- **A loop with a measure**, which falls with every pass but the last. -/
theorem total_loop {I : α → σ → Prop} (m : α → σ → ℕ)
    (hstep : ∀ a s, I a s →
      (step a).Total s (Pass (fun a' t => I a' t ∧ m a' t < m a s) Qb))
    (h : I a s) : (loop step a).Total s Qb := by
  induction hm : m a s using Nat.strongRecOn generalizing a s with
  | ind n ih =>
    obtain ⟨r, t, hends, hpass⟩ := hstep a s h
    refine total_loop_iff.2 ⟨r, t, hends, ?_⟩
    rcases r with e | a' | b
    · exact hpass
    · exact ih _ (hm ▸ hpass.2) hpass.1 rfl
    · exact total_ret.2 hpass

/-- **A loop without a way out.** -/
theorem not_ends_loop {I : α → σ → Prop} {r : Except ε β}
    (hstep : ∀ a s, I a s → (step a).Post s (Pass I fun _ _ => False)) (h : I a s) :
    ¬ (loop step a).Ends s r t :=
  fun hends => post_loop hstep h r t hends

/-- The program ends, in whatever way. -/
def Halts (p : Prog σ ε α) (s : σ) : Prop := p.Total s fun _ _ => True

theorem Total.halts (h : p.Total s Q) : p.Halts s := h.imp fun _ _ _ => trivial

theorem Halts.total (h : p.Halts s) (hp : p.Post s Q) : p.Total s Q :=
  (h.and_post hp).imp fun _ _ h => h.2

theorem Halts.ret : (ret a : Prog σ ε α).Halts s := total_ret.2 trivial

theorem Halts.throw : (throw e : Prog σ ε α).Halts s := total_throw.2 trivial

theorem Halts.bind (h : p.Halts s) (hf : ∀ a t, p.Ends s (.ok a) t → (f a).Halts t) :
    (p.bind f).Halts s := by
  obtain ⟨r, t, hends, -⟩ := h
  refine total_bind.2 ⟨r, t, hends, ?_⟩
  rcases r with e | a
  · trivial
  · exact hf a t hends

theorem halts_bind : (p.bind f).Halts s ↔
    p.Halts s ∧ ∀ a t, p.Ends s (.ok a) t → (f a).Halts t := by
  refine ⟨fun h => ?_, fun h => h.1.bind h.2⟩
  have hp := total_bind.1 h
  refine ⟨hp.halts, fun a t hends => ?_⟩
  obtain ⟨r, u, hr, hf⟩ := hp
  obtain ⟨rfl, rfl⟩ := hends.unique hr
  exact hf

theorem Halts.ite {c : Prop} [Decidable c] {p' : Prog σ ε α} (h : c → p.Halts s)
    (h' : ¬ c → p'.Halts s) : (if c then p else p').Halts s :=
  total_ite h h'

/-! ## Trying until it works -/

/-- The program fails, and leaves `t`. -/
def Fails (p : Prog σ ε α) (s t : σ) : Prop := ∃ e, p.Ends s (.error e) t

/-- **Trying until it works** ends with the first success, if there is one. -/
theorem ends_untilOk {r : Except φ α} : p.untilOk.Ends s r t ↔
    ∃ u a, Relation.ReflTransGen p.Fails s u ∧ p.Ends u (.ok a) t ∧ r = .ok a := by
  constructor
  · intro hends
    suffices hpost : p.untilOk.Post s fun r t =>
        ∃ u a, Relation.ReflTransGen p.Fails s u ∧ p.Ends u (.ok a) t ∧ r = .ok a from
      hpost r t hends
    refine post_loop (I := fun _ u => Relation.ReflTransGen p.Fails s u) (fun _ u hu => ?_) .refl
    refine post_bind.2 (post_attempt.2 fun o v ho => ?_)
    rcases o with e | a
    · exact post_ret.2 (hu.tail ⟨e, ho⟩)
    · exact post_ret.2 ⟨u, a, hu, ho, rfl⟩
  · rintro ⟨u, a, hfails, hok, rfl⟩
    induction hfails using Relation.ReflTransGen.head_induction_on with
    | refl =>
      refine ends_loop.2 (ends_bind.2 (.inr ⟨.inr a, t, ?_, ends_ret.2 ⟨rfl, rfl⟩⟩))
      exact ends_bind.2 (.inr ⟨.ok a, t, ends_attempt.2 ⟨_, hok, rfl⟩, ends_ret.2 ⟨rfl, rfl⟩⟩)
    | head hfail _ ih =>
      obtain ⟨e, hfail⟩ := hfail
      refine ends_loop.2 (ends_bind.2 (.inr ⟨(.inl ()), _, ?_, ih⟩))
      exact ends_bind.2 (.inr ⟨.error e, _, ends_attempt.2 ⟨_, hfail, rfl⟩, ends_ret.2 ⟨rfl, rfl⟩⟩)

/-! ## Programs with a log -/

section Log

variable {τ : Type*} {log : σ → List τ} {R : Except ε α → List τ → σ → Prop}
  {Rb : Except ε β → List τ → σ → Prop}

/-- The log has become longer, and `R` says by what. -/
def Logs (log : σ → List τ) (s : σ) (R : Except ε α → List τ → σ → Prop) (r : Except ε α) (t : σ) :
    Prop :=
  ∃ l, log t = log s ++ l ∧ R r l t

theorem Logs.imp {R' : Except ε α → List τ → σ → Prop} (h : Logs log s R r t)
    (himp : ∀ l, R r l t → R' r l t) : Logs log s R' r t := by
  obtain ⟨l, hl, hR⟩ := h
  exact ⟨l, hl, himp l hR⟩

theorem logs_iff {l : List τ} (h : log t = log s ++ l) : Logs log s R r t ↔ R r l t := by
  constructor
  · rintro ⟨l', hl', hR⟩
    rwa [List.append_cancel_left (h.symm.trans hl')]
  · exact fun hR => ⟨l, h, hR⟩

/-- **The log of a sequence** is that of its parts. -/
theorem post_bind_logs (h : p.Post s (Logs log s R))
    (hok : ∀ a l t, R (.ok a) l t → (f a).Post t (Logs log t fun r l' u => Rb r (l ++ l') u))
    (herr : ∀ e l t, R (.error e) l t → Rb (.error e) l t) :
    (p.bind f).Post s (Logs log s Rb) := by
  refine post_bind.2 (h.imp fun r t hr => ?_)
  obtain ⟨l, hl, hR⟩ := hr
  rcases r with e | a
  · exact ⟨l, hl, herr e l t hR⟩
  · refine (hok a l t hR).imp fun r' u hu => ?_
    obtain ⟨l', hl', hRb⟩ := hu
    exact ⟨l ++ l', by rw [hl', hl, List.append_assoc], hRb⟩

theorem post_loop_logs {I : α → List τ → σ → Prop}
    (hstep : ∀ a l t, I a l t → (step a).Post t (Logs log t fun r l' u =>
      Pass (fun a' u => I a' (l ++ l') u) (fun r' u => Rb r' (l ++ l') u) r u))
    (h : I a [] s) : (loop step a).Post s (Logs log s Rb) := by
  refine post_loop (I := fun a t => ∃ l, log t = log s ++ l ∧ I a l t) ?_
    ⟨[], (List.append_nil _).symm, h⟩
  rintro b t ⟨l, hl, hI⟩
  refine (hstep b l t hI).imp fun r u hu => ?_
  obtain ⟨l', hl', hpass⟩ := hu
  have hlog : log u = log s ++ (l ++ l') := by rw [hl', hl, List.append_assoc]
  rcases r with e | a' | b'
  · exact ⟨_, hlog, hpass⟩
  · exact ⟨_, hlog, hpass⟩
  · exact ⟨_, hlog, hpass⟩

/-- Everything that comes to the log has the property. -/
def Emits (log : σ → List τ) (P : τ → Prop) (p : Prog σ ε α) : Prop :=
  ∀ s, p.Post s (Logs log s fun _ l _ => ∀ x ∈ l, P x)

variable {P : τ → Prop}

theorem Emits.ret : Emits log P (ret a : Prog σ ε α) := fun _ =>
  post_ret.2 ⟨[], (List.append_nil _).symm, nofun⟩

theorem Emits.throw : Emits log P (throw e : Prog σ ε α) := fun _ =>
  post_throw.2 ⟨[], (List.append_nil _).symm, nofun⟩

/-- An action that leaves the log. -/
theorem Emits.act {g : σ → α × σ} (h : ∀ s, log (g s).2 = log s) :
    Emits log P (act g : Prog σ ε α) := fun s =>
  post_act.2 ⟨[], by rw [h, List.append_nil], nofun⟩

theorem Emits.bind (h : Emits log P p) (hf : ∀ a, Emits log P (f a)) :
    Emits log P (p.bind f) := fun s =>
  post_bind_logs (h s)
    (fun a _ t hl => (hf a t).imp fun _ _ hlogs => hlogs.imp fun _ hl' =>
      List.forall_mem_append.2 ⟨hl, hl'⟩)
    fun _ _ _ hl => hl

theorem Emits.ite {c : Prop} [Decidable c] {p' : Prog σ ε α} (h : Emits log P p)
    (h' : Emits log P p') : Emits log P (if c then p else p') := fun s =>
  post_ite (fun _ => h s) fun _ => h' s

theorem Emits.loop (h : ∀ a, Emits log P (step a)) : Emits log P (loop step a) := fun s => by
  refine post_loop_logs (I := fun _ l _ => ∀ x ∈ l, P x) (fun b l t hl => ?_) nofun
  refine (h b t).imp fun r u hlogs => hlogs.imp fun l' hl' => ?_
  have hall : ∀ x ∈ l ++ l', P x := List.forall_mem_append.2 ⟨hl, hl'⟩
  rcases r with e | b' | c
  · exact hall
  · exact hall
  · exact hall

end Log

/-! ## What a program leaves as it is -/

section Keeps

variable {τ : Type*} {g : σ → τ}

def Keeps (g : σ → τ) (p : Prog σ ε α) : Prop := ∀ s, p.Post s fun _ t => g t = g s

theorem Keeps.ret : Keeps g (ret a : Prog σ ε α) := fun _ => post_ret.2 rfl

theorem Keeps.throw : Keeps g (throw e : Prog σ ε α) := fun _ => post_throw.2 rfl

theorem Keeps.act {h : σ → α × σ} (hg : ∀ s, g (h s).2 = g s) :
    Keeps g (act h : Prog σ ε α) := fun s => post_act.2 (hg s)

theorem Keeps.bind (h : Keeps g p) (hf : ∀ a, Keeps g (f a)) : Keeps g (p.bind f) := fun s =>
  post_bind.2 ((h s).imp fun r t ht => by
    rcases r with e | a
    · exact ht
    · exact (hf a t).imp fun _ _ hu => hu.trans ht)

theorem Keeps.ite {c : Prop} [Decidable c] {p' : Prog σ ε α} (h : Keeps g p) (h' : Keeps g p') :
    Keeps g (if c then p else p') := fun s => post_ite (fun _ => h s) fun _ => h' s

theorem Keeps.loop (h : ∀ a, Keeps g (step a)) : Keeps g (loop step a) := fun s =>
  post_loop (I := fun _ t => g t = g s) (fun b t ht => (h b t).imp fun r u hu => by
    rcases r with e | b' | c
    · exact hu.trans ht
    · exact hu.trans ht
    · exact hu.trans ht) rfl

variable {υ : Type*} {log : σ → List υ} {C : τ → υ → Prop}

/-- It is left as it is, or the log has an entry that can change it. -/
def KeepsUnless (g : σ → τ) (log : σ → List υ) (C : τ → υ → Prop) (p : Prog σ ε α) : Prop :=
  ∀ s, p.Post s (Logs log s fun _ l t => g t = g s ∨ ∃ x ∈ l, C (g s) x)

theorem Keeps.unless {P : υ → Prop} (h : Keeps g p) (he : Emits log P p) :
    KeepsUnless g log C p := by
  intro s
  refine ((h s).and (he s)).imp fun r t ht => ?_
  obtain ⟨hkept, hlogs⟩ := ht
  exact hlogs.imp fun l _ => .inl hkept

theorem KeepsUnless.throw : KeepsUnless g log C (throw e : Prog σ ε α) := fun _ =>
  post_throw.2 ⟨[], (List.append_nil _).symm, .inl rfl⟩

theorem KeepsUnless.bind (h : KeepsUnless g log C p) (hf : ∀ a, KeepsUnless g log C (f a)) :
    KeepsUnless g log C (p.bind f) := by
  intro s
  refine post_bind_logs (h s) (fun a l t ht => (hf a t).imp fun r u hu => ?_) fun _ _ _ ht => ht
  refine hu.imp fun l' hl' => ?_
  rcases ht with hkept | ⟨x, hx, hC⟩
  · rw [hkept] at hl'
    exact hl'.imp_right fun ⟨x, hx, hC⟩ => ⟨x, List.mem_append_right _ hx, hC⟩
  · exact .inr ⟨x, List.mem_append_left _ hx, hC⟩

theorem KeepsUnless.ite {c : Prop} [Decidable c] {p' : Prog σ ε α} (h : KeepsUnless g log C p)
    (h' : KeepsUnless g log C p') : KeepsUnless g log C (if c then p else p') := fun s =>
  post_ite (fun _ => h s) fun _ => h' s

end Keeps

end Prog
