import LibEthercat.Lib.Handoff

/-!
# Threads that hand things on

The threads run programs that are safe. What a thread has is a place of its own, beside the queues,
and every thing is in one place. A step of a thread takes a thing out of a queue, or puts one there
that it has, or leaves all things where they are (`Moved`).

* `Fine.flow`, `Fine.op` — a thread of a safe program goes on with a safe program.
* `Fine.frame` — the other threads do not disturb it.
* `Fine.uses`, `Fine.puts`, `Fine.ended` — it uses, and hands on, what it has, and keeps nothing.
-/

namespace Handoff

open Function (update)
open Places

/-- The names of a thread for the queues, and its own place. -/
structure Env (Q C L : Type*) where
  queue : Q → L
  self : L
  /-- Which of the conditions hold that do not change. -/
  holds : C → Prop
  queue_inj : Function.Injective queue
  queue_ne : ∀ q, queue q ≠ self

section
variable {Q V C E K L R : Type*}

/-- What is known is so. -/
structure Rel (rules : Rules Q V C E K) (env : Env Q C L) (sort : R → K) (content : L → List R)
    (vars : V → Option R) (kn : Knowledge Q V C K) : Prop where
  null : ∀ x, kn.var x = .null → vars x = none
  held : ∀ x k, kn.var x = .held k → ∃ r, vars x = some r ∧ r ∈ content env.self ∧ sort r = k
  queued : ∀ x q, kn.var x = .queued q →
    rules.mine q = true ∧ ∃ r, vars x = some r ∧ r ∈ content (env.queue q)
  hand : ∀ r ∈ content env.self, ∃ x k, kn.var x = .held k ∧ vars x = some r
  alone : ∀ x y k k', kn.var x = .held k → kn.var y = .held k' → vars x = vars y → x = y
  facts : ∀ c ∈ kn.facts, env.holds c

variable {rules : Rules Q V C E K} {env : Env Q C L} {sort : R → K} {all : R → Prop}
  {content content' : L → List R} {vars vars' : V → Option R} {kn : Knowledge Q V C K} {x : V}
  {q : Q} {r : R} {l : L}

/-! ## Places after a step -/

section
variable [DecidableEq L] [DecidableEq R]

/-- What a step of a thread does to the things. -/
inductive Moved (rules : Rules Q V C E K) (env : Env Q C L) (sort : R → K)
    (content content' : L → List R) : Prop
  | same (h : content' = content)
  | taken (q : Q) (r : R) (htakes : rules.takes q = true) (hr : r ∈ content (env.queue q))
      (h : content' = move content (env.queue q) env.self r true)
  | given (q : Q) (r : R) (head : Bool) (hr : r ∈ content env.self) (hsort : sort r = rules.sort q)
      (hneeds : ∀ c ∈ rules.needs q, env.holds c)
      (h : content' = move content env.self (env.queue q) r head)

theorem Moved.placed (h : Moved rules env sort content content') (hplaced : Placed all content) :
    Placed all content' := by
  cases h with
  | same h => rwa [h]
  | taken q r htakes hr h =>
    rw [h]
    exact hplaced.move (env.queue_ne q) hr
  | given q r head hr hsort hneeds h =>
    rw [h]
    exact hplaced.move (env.queue_ne q).symm hr

/-- What is new in a queue. -/
theorem Moved.added (h : Moved rules env sort content content') (hplaced : Placed all content)
    (hl : l ≠ env.self) (hr : r ∈ content' l) :
    r ∈ content l ∨ ∃ q, l = env.queue q ∧ sort r = rules.sort q ∧
      ∀ c ∈ rules.needs q, env.holds c := by
  cases h with
  | same h => exact Or.inl (h ▸ hr)
  | taken q y htakes hy h =>
    rw [h, hplaced.mem_move (env.queue_ne q) hy] at hr
    split_ifs at hr with heq
    · exact absurd hr hl
    · exact Or.inl hr
  | given q y head hy hsort hneeds h =>
    rw [h, hplaced.mem_move (env.queue_ne q).symm hy] at hr
    split_ifs at hr with heq
    · exact Or.inr ⟨q, hr, heq ▸ hsort, hneeds⟩
    · exact Or.inl hr

/-- A queue that the thread does not take from. -/
theorem Moved.kept (h : Moved rules env sort content content') (hplaced : Placed all content)
    (hself : l ≠ env.self) (htakes : ∀ q, rules.takes q = true → env.queue q ≠ l)
    (hr : r ∈ content l) : r ∈ content' l := by
  cases h with
  | same h => exact h ▸ hr
  | taken q y hq hy h =>
    rw [h, hplaced.mem_move (env.queue_ne q) hy]
    split_ifs with heq
    · exact absurd (hplaced.alone _ _ y hy (heq ▸ hr)) (htakes q hq)
    · exact hr
  | given q y head hy hsort hneeds h =>
    rw [h, hplaced.mem_move (env.queue_ne q).symm hy]
    split_ifs with heq
    · exact absurd (hplaced.alone _ _ y (heq ▸ hr) hy) hself
    · exact hr

/-- What somebody else has. -/
theorem Moved.other (h : Moved rules env sort content content') (hself : l ≠ env.self)
    (hqueue : ∀ q, env.queue q ≠ l) : content' l = content l := by
  cases h with
  | same h => rw [h]
  | taken q y hq hy h => rw [h, move_of_ne (hqueue q).symm hself]
  | given q y head hy hsort hneeds h => rw [h, move_of_ne hself (hqueue q).symm]

end

/-! ## What is known after a step -/

theorem Rel.start (hself : content env.self = []) :
    Rel rules env sort content vars Knowledge.start := by
  refine ⟨?_, ?_, ?_, ?_, ?_, ?_⟩
  all_goals simp [Knowledge.start, hself]

theorem Rel.frame (h : Rel rules env sort content vars kn)
    (hself : content' env.self = content env.self)
    (hmine : ∀ q, rules.mine q = true → ∀ r ∈ content (env.queue q), r ∈ content' (env.queue q)) :
    Rel rules env sort content' vars kn where
  null := h.null
  held := by rw [hself]; exact h.held
  queued x q hx := by
    obtain ⟨hq, r, hr, hmem⟩ := h.queued x q hx
    exact ⟨hq, r, hr, hmine q hq r hmem⟩
  hand := by rw [hself]; exact h.hand
  alone := h.alone
  facts := h.facts

theorem Knowledge.not_holds (hx : kn.holds x = false) (k : K) : kn.var x ≠ .held k := by
  intro hk
  simp [Knowledge.holds, hk] at hx

section
variable [DecidableEq V]

/-- The thread lets go of the pointer in a variable, behind which it has nothing. -/
theorem Rel.assign {k : Kind Q K} {v : Option R} (h : Rel rules env sort content vars kn)
    (hx : kn.holds x = false) (hk : k = .null ∧ v = none ∨ k = .stale) :
    Rel rules env sort content (update vars x v) (kn.set x k) := by
  have hheld : ∀ y k', (kn.set x k).var y = .held k' → y ≠ x ∧ kn.var y = .held k' := by
    intro y k' hy
    have hyx : y ≠ x := by
      rintro rfl
      rw [Knowledge.set_self] at hy
      rcases hk with ⟨hk, -⟩ | hk <;> simp [hk] at hy
    exact ⟨hyx, by rwa [Knowledge.set_of_ne _ _ hyx] at hy⟩
  refine ⟨fun y hy => ?_, fun y k' hy => ?_, fun y q hy => ?_, fun r hr => ?_, ?_, h.facts⟩
  · by_cases hyx : y = x
    · subst hyx
      rw [Knowledge.set_self] at hy
      rcases hk with ⟨-, rfl⟩ | hk
      · exact Function.update_self _ _ _
      · simp [hk] at hy
    · rw [Knowledge.set_of_ne _ _ hyx] at hy
      rw [Function.update_of_ne hyx]
      exact h.null y hy
  · obtain ⟨hyx, hy⟩ := hheld y k' hy
    rw [Function.update_of_ne hyx]
    exact h.held y k' hy
  · have hyx : y ≠ x := by
      rintro rfl
      rw [Knowledge.set_self] at hy
      rcases hk with ⟨hk, -⟩ | hk <;> simp [hk] at hy
    rw [Knowledge.set_of_ne _ _ hyx] at hy
    rw [Function.update_of_ne hyx]
    exact h.queued y q hy
  · obtain ⟨y, k', hy, hr⟩ := h.hand r hr
    have hyx : y ≠ x := by
      rintro rfl
      exact Knowledge.not_holds hx k' hy
    exact ⟨y, k', by rwa [Knowledge.set_of_ne _ _ hyx], by rwa [Function.update_of_ne hyx]⟩
  · intro y z k' k'' hy hz heq
    obtain ⟨hyx, hy⟩ := hheld y k' hy
    obtain ⟨hzx, hz⟩ := hheld z k'' hz
    rw [Function.update_of_ne hyx, Function.update_of_ne hzx] at heq
    exact h.alone y z k' k'' hy hz heq

end

theorem Rel.forget [DecidableEq Q] [DecidableEq K] (h : Rel rules env sort content vars kn) (q : Q) :
    Rel rules env sort content vars (kn.forget q) := by
  have hheld : ∀ x k, (kn.forget q).var x = .held k ↔ kn.var x = .held k := by
    intro x k
    simp only [Knowledge.forget]
    split_ifs with hq <;> simp [hq]
  refine ⟨fun x hx => h.null x ?_, fun x k hx => h.held x k ((hheld x k).1 hx), fun x q' hx => ?_,
    fun r hr => ?_, fun x y k k' hx hy => h.alone x y k k' ((hheld x k).1 hx) ((hheld y k').1 hy),
    h.facts⟩
  · simp only [Knowledge.forget] at hx
    split_ifs at hx
    exact hx
  · simp only [Knowledge.forget] at hx
    split_ifs at hx
    exact h.queued x q' hx
  · obtain ⟨x, k, hx, hr⟩ := h.hand r hr
    exact ⟨x, k, (hheld x k).2 hx, hr⟩

/-! ## Operations -/

section
variable [DecidableEq V] [DecidableEq L] [DecidableEq R]

/-- An operation. If there is a choice, `b` says whether something is got. -/
def exec (env : Env Q C L) (b : Bool) (content : L → List R) (vars : V → Option R) :
    Op Q V E → Option ((L → List R) × (V → Option R))
  | .get q x wait =>
    match b, content (env.queue q) with
    | true, r :: _ => some (move content (env.queue q) env.self r true, update vars x (some r))
    | true, [] => none
    | false, rs => if wait ∨ rs = [] then some (content, update vars x none) else none
  | .put q x head =>
    (vars x).map fun r => (move content env.self (env.queue q) r head, vars)
  | .access x => (vars x).map fun _ => (content, vars)
  | .copy x y => some (content, update vars y (vars x))
  | .clear x => some (content, update vars x none)
  | .other _ => some (content, vars)

/-- The thread has what the variable points to. -/
def has (env : Env Q C L) (content : L → List R) (vars : V → Option R) (x : V) : Bool :=
  match vars x with
  | some r => r ∈ content env.self
  | none => false

/-- Something is put into a queue. -/
theorem Rel.give {k : K} {head : Bool} (h : Rel rules env sort content vars kn)
    (hplaced : Placed all content) (hx : kn.var x = .held k) (hr : vars x = some r) :
    Rel rules env sort (move content env.self (env.queue q) r head) vars
      (kn.set x (if rules.mine q then .queued q else .stale)) := by
  obtain ⟨r', hr', hself, -⟩ := h.held x k hx
  obtain rfl : r' = r := Option.some.inj (hr'.symm.trans hr)
  have hmem : ∀ {y : R} {l : L}, y ∈ move content env.self (env.queue q) r' head l ↔
      if y = r' then l = env.queue q else y ∈ content l :=
    hplaced.mem_move (env.queue_ne q).symm hself
  have hheld : ∀ y k', (kn.set x (if rules.mine q then .queued q else .stale)).var y = .held k' →
      y ≠ x ∧ kn.var y = .held k' := by
    intro y k' hy
    have hyx : y ≠ x := by
      rintro rfl
      rw [Knowledge.set_self] at hy
      split_ifs at hy
    exact ⟨hyx, by rwa [Knowledge.set_of_ne _ _ hyx] at hy⟩
  refine ⟨fun y hy => ?_, fun y k' hy => ?_, fun y p hy => ?_, fun y hy => ?_, ?_, h.facts⟩
  · have hyx : y ≠ x := by
      rintro rfl
      rw [Knowledge.set_self] at hy
      split_ifs at hy
    exact h.null y (by rwa [Knowledge.set_of_ne _ _ hyx] at hy)
  · obtain ⟨hyx, hy⟩ := hheld y k' hy
    obtain ⟨z, hz, hzself, hzk⟩ := h.held y k' hy
    have hzr : z ≠ r' := by
      rintro rfl
      exact hyx (h.alone y x k' k hy hx (hz.trans hr.symm))
    exact ⟨z, hz, by rwa [hmem, if_neg hzr], hzk⟩
  · by_cases hyx : y = x
    · subst hyx
      rw [Knowledge.set_self] at hy
      split_ifs at hy with hmine
      obtain rfl : q = p := by simpa using hy
      exact ⟨hmine, r', hr, by rw [hmem, if_pos rfl]⟩
    · rw [Knowledge.set_of_ne _ _ hyx] at hy
      obtain ⟨hmine, z, hz, hqueue⟩ := h.queued y p hy
      have hzr : z ≠ r' := by
        rintro rfl
        exact env.queue_ne p (hplaced.alone _ _ z hqueue hself)
      exact ⟨hmine, z, hz, by rwa [hmem, if_neg hzr]⟩
  · rw [hmem] at hy
    split_ifs at hy with hyr
    · exact absurd hy.symm (env.queue_ne q)
    · obtain ⟨z, k', hz, hzy⟩ := h.hand y hy
      have hzx : z ≠ x := by
        rintro rfl
        exact hyr (Option.some.inj (hzy.symm.trans hr))
      exact ⟨z, k', by rwa [Knowledge.set_of_ne _ _ hzx], hzy⟩
  · intro y z k' k'' hy hz heq
    exact h.alone y z k' k'' (hheld y k' hy).2 (hheld z k'' hz).2 heq

variable [DecidableEq Q] [DecidableEq K]

/-- Something is taken out of a queue, into a variable behind which the thread has nothing. -/
theorem Rel.take (h : Rel rules env sort content vars kn) (hplaced : Placed all content)
    (hx : kn.holds x = false) (hr : r ∈ content (env.queue q)) (hsort : sort r = rules.sort q) :
    Rel rules env sort (move content (env.queue q) env.self r true) (update vars x (some r))
      ((kn.forget q).set x (.held (rules.sort q))) := by
  have hmem : ∀ {y : R} {l : L}, y ∈ move content (env.queue q) env.self r true l ↔
      if y = r then l = env.self else y ∈ content l := hplaced.mem_move (env.queue_ne q) hr
  have hf := h.forget q
  have hnew : ∀ y ∈ content env.self, y ≠ r := by
    rintro y hy rfl
    exact env.queue_ne q (hplaced.alone _ _ y hr hy)
  have hother : ∀ y k, y ≠ x → ((kn.forget q).set x (.held (rules.sort q))).var y = k →
      (kn.forget q).var y = k := fun y k hyx hy => by rwa [Knowledge.set_of_ne _ _ hyx] at hy
  refine ⟨fun y hy => ?_, fun y k hy => ?_, fun y p hy => ?_, fun y hy => ?_, ?_, hf.facts⟩
  · have hyx : y ≠ x := fun heq => by simp [heq] at hy
    rw [Function.update_of_ne hyx]
    exact hf.null y (hother y _ hyx hy)
  · by_cases hyx : y = x
    · subst hyx
      rw [Knowledge.set_self, Kind.held.injEq] at hy
      exact ⟨r, Function.update_self _ _ _, by rw [hmem, if_pos rfl], hsort.trans hy⟩
    · obtain ⟨z, hz, hself, hk⟩ := hf.held y k (hother y _ hyx hy)
      refine ⟨z, by rwa [Function.update_of_ne hyx], ?_, hk⟩
      rwa [hmem, if_neg (hnew z hself)]
  · have hyx : y ≠ x := fun heq => by simp [heq] at hy
    have hyp := hother y _ hyx hy
    have hpq : p ≠ q := by
      rintro rfl
      simp only [Knowledge.forget] at hyp
      split_ifs at hyp with hqueued
      exact hqueued hyp
    obtain ⟨hmine, z, hz, hqueue⟩ := hf.queued y p hyp
    refine ⟨hmine, z, by rwa [Function.update_of_ne hyx], ?_⟩
    have hzr : z ≠ r := by
      rintro rfl
      exact hpq (env.queue_inj (hplaced.alone _ _ z hqueue hr))
    rwa [hmem, if_neg hzr]
  · rw [hmem] at hy
    split_ifs at hy with hyr
    · exact ⟨x, _, Knowledge.set_self _ _ _, by rw [hyr, Function.update_self]⟩
    · obtain ⟨z, k, hz, hzy⟩ := hf.hand y hy
      have hzx : z ≠ x := by
        rintro rfl
        obtain ⟨k, hk⟩ : ∃ k, kn.var z = .held k := by
          simp only [Knowledge.forget] at hz
          split_ifs at hz
          exact ⟨k, hz⟩
        exact Knowledge.not_holds hx k hk
      exact ⟨z, k, by rwa [Knowledge.set_of_ne _ _ hzx], by rwa [Function.update_of_ne hzx]⟩
  · have hne : ∀ y k, y ≠ x → (kn.forget q).var y = .held k → vars y ≠ some r := by
      intro y k hyx hy hyr
      obtain ⟨z, hz, hself, -⟩ := hf.held y k hy
      exact hnew z hself (Option.some.inj (hz.symm.trans hyr))
    intro y z k k' hy hz heq
    by_cases hyx : y = x
    · by_cases hzx : z = x
      · rw [hyx, hzx]
      · rw [hyx, Function.update_self, Function.update_of_ne hzx] at heq
        exact absurd heq.symm (hne z k' hzx (hother z _ hzx hz))
    · by_cases hzx : z = x
      · rw [hzx, Function.update_self, Function.update_of_ne hyx] at heq
        exact absurd heq (hne y k hyx (hother y _ hyx hy))
      · rw [Function.update_of_ne hyx, Function.update_of_ne hzx] at heq
        exact hf.alone y z k k' (hother y _ hyx hy) (hother z _ hzx hz) heq

variable [DecidableEq C]

/-- An operation of which the check has found that it is allowed. -/
theorem Rel.exec {o : Op Q V E} {b : Bool} {kns : List (Knowledge Q V C K)}
    (h : Rel rules env sort content vars kn) (hplaced : Placed all content)
    (hsort : ∀ q, ∀ r ∈ content (env.queue q), sort r = rules.sort q)
    (hnext : rules.opNext kn o = some kns)
    (hdenied : ∀ q x w, o = .get q x w → b = true →
      rules.denied q (has env content vars) = false)
    (hexec : exec env b content vars o = some (content', vars')) :
    Moved rules env sort content content' ∧ ∃ kn' ∈ kns, Rel rules env sort content' vars' kn' := by
  cases o with
  | get q x wait =>
    have hguard : ¬ (!rules.takes q || kn.holds x) = true := by
      intro hguard
      simp [Rules.opNext, hguard] at hnext
    simp only [Rules.opNext, if_neg hguard] at hnext
    obtain rfl := Option.some.inj hnext
    obtain ⟨htakes, hx⟩ : rules.takes q = true ∧ kn.holds x = false := by simpa using hguard
    cases b with
    | false =>
      simp only [Handoff.exec] at hexec
      split_ifs at hexec
      cases hexec
      have hx' : (kn.forget q).holds x = false := (kn.holds_forget q x).trans hx
      exact ⟨.same rfl, _, List.mem_cons_self, (h.forget q).assign hx' (Or.inl ⟨rfl, rfl⟩)⟩
    | true =>
      cases hqueue : content (env.queue q) with
      | nil => simp [Handoff.exec, hqueue] at hexec
      | cons r rest =>
        simp only [Handoff.exec, hqueue] at hexec
        cases hexec
        have hr : r ∈ content (env.queue q) := by simp [hqueue]
        refine ⟨.taken q r htakes hr rfl, _, List.mem_cons_of_mem _ ?_,
          h.take hplaced hx hr (hsort q r hr)⟩
        have hallowed : rules.denied q kn.holds = false := by
          cases hd : rules.denied q kn.holds with
          | false => rfl
          | true =>
            have hmono := rules.denied_mono q kn.holds (has env content vars) ?_ hd
            · rw [hdenied q x wait rfl rfl] at hmono
              cases hmono
            · intro y hy
              cases hk : kn.var y with
              | held k =>
                obtain ⟨z, hz, hself, -⟩ := h.held y k hk
                simp [has, hz, hself]
              | _ => simp [Knowledge.holds, hk] at hy
        simp [hallowed]
  | put q x head =>
    obtain ⟨r, hr, heq⟩ := Option.map_eq_some_iff.1 hexec
    cases heq
    cases hk : kn.var x with
    | null =>
      rw [h.null x hk] at hr
      cases hr
    | held k =>
      have hguard : k = rules.sort q ∧ ∀ c ∈ rules.needs q, c ∈ kn.facts := by
        by_contra hguard
        simp only [Rules.opNext, hk, if_neg hguard] at hnext
        cases hnext
      simp only [Rules.opNext, hk, if_pos hguard] at hnext
      obtain rfl := Option.some.inj hnext
      obtain ⟨rfl, hneeds⟩ := hguard
      obtain ⟨z, hz, hself, hzk⟩ := h.held x _ hk
      obtain rfl : z = r := Option.some.inj (hz.symm.trans hr)
      exact ⟨.given q z head hself hzk (fun c hc => h.facts c (hneeds c hc)) rfl, _,
        List.mem_singleton_self _, h.give hplaced hk hr⟩
    | queued _ | stale => simp [Rules.opNext, hk] at hnext
  | access x =>
    obtain ⟨r, hr, heq⟩ := Option.map_eq_some_iff.1 hexec
    cases heq
    cases hk : kn.var x with
    | null =>
      rw [h.null x hk] at hr
      cases hr
    | held _ | queued _ =>
      simp only [Rules.opNext, hk] at hnext
      obtain rfl := Option.some.inj hnext
      exact ⟨.same rfl, _, List.mem_singleton_self _, h⟩
    | stale => simp [Rules.opNext, hk] at hnext
  | copy x y =>
    cases hexec
    simp only [Rules.opNext] at hnext
    split_ifs at hnext with hy
    obtain rfl := Option.some.inj hnext
    exact ⟨.same rfl, _, List.mem_singleton_self _,
      h.assign (Bool.eq_false_of_not_eq_true hy) (Or.inr rfl)⟩
  | clear x =>
    cases hexec
    simp only [Rules.opNext] at hnext
    split_ifs at hnext with hx
    obtain rfl := Option.some.inj hnext
    exact ⟨.same rfl, _, List.mem_singleton_self _,
      h.assign (Bool.eq_false_of_not_eq_true hx) (Or.inl ⟨rfl, rfl⟩)⟩
  | other e =>
    cases hexec
    simp only [Rules.opNext] at hnext
    split_ifs at hnext
    obtain rfl := Option.some.inj hnext
    exact ⟨.same rfl, _, List.mem_singleton_self _, h⟩

end

section
variable [DecidableEq Q] [DecidableEq V] [DecidableEq C] [DecidableEq K]

/-- Another statement. -/
theorem Rel.flow {s : Stmt Q V C E} {k : List (Stmt Q V C E)} {b : Bool}
    {cs : List (Rules.Config Q V C E K)} (h : Rel rules env sort content vars kn)
    (hs : ∀ o, s ≠ .op o) (hnext : rules.stmtNext kn s k = some cs)
    (htest : ∀ c a d, s = .test c a d → b = true → rules.stable c = true → env.holds c) :
    ∃ kn', (flow (fun x => (vars x).isNone) b s k, kn') ∈ cs ∧
      Rel rules env sort content vars kn' := by
  cases s with
  | op o => exact absurd rfl (hs o)
  | ifNull x a c =>
    refine ⟨kn, ?_, h⟩
    cases hk : kn.var x with
    | null =>
      simp only [Rules.stmtNext, hk] at hnext
      obtain rfl := Option.some.inj hnext
      simp [Handoff.flow, h.null x hk]
    | held k' =>
      obtain ⟨r, hr, -⟩ := h.held x k' hk
      simp only [Rules.stmtNext, hk] at hnext
      obtain rfl := Option.some.inj hnext
      simp [Handoff.flow, hr]
    | queued q =>
      obtain ⟨-, r, hr, -⟩ := h.queued x q hk
      simp only [Rules.stmtNext, hk] at hnext
      obtain rfl := Option.some.inj hnext
      simp [Handoff.flow, hr]
    | stale =>
      simp only [Rules.stmtNext, hk] at hnext
      obtain rfl := Option.some.inj hnext
      cases hx : vars x <;> simp [Handoff.flow, hx]
  | test c a d =>
    obtain rfl := Option.some.inj hnext
    cases b with
    | false => exact ⟨kn, by simp [Handoff.flow], h⟩
    | true =>
      refine ⟨if rules.stable c = true then kn.learn c else kn, by simp [Handoff.flow], ?_⟩
      split_ifs with hstable
      · unfold Knowledge.learn
        split_ifs
        · exact h
        · refine ⟨h.null, h.held, h.queued, h.hand, h.alone, fun c' hc' => ?_⟩
          rcases List.mem_cons.1 hc' with rfl | hc'
          · exact htest c' a d rfl rfl hstable
          · exact h.facts c' hc'
      · exact h
  | again a =>
    obtain rfl := Option.some.inj hnext
    refine ⟨{ kn with facts := [] }, by simp [Handoff.flow], ?_⟩
    exact ⟨h.null, h.held, h.queued, h.hand, h.alone, by simp⟩
  | skip | seq | loop | brk | ret =>
    obtain rfl := Option.some.inj hnext
    exact ⟨kn, by simp [Handoff.flow], h⟩

end

/-! ## Threads of safe programs -/

section
variable [DecidableEq Q] [DecidableEq V] [DecidableEq C] [DecidableEq K] [Fintype V]

/-- A thread that has this to do, with these variables, is at a place in a safe program. -/
def Fine (rules : Rules Q V C E K) (env : Env Q C L) (sort : R → K) (content : L → List R)
    (code : List (Stmt Q V C E)) (vars : V → Option R) : Prop :=
  ∃ kn, Rel rules env sort content vars kn ∧ Safe rules.next (code, kn)

variable {s : Stmt Q V C E} {k : List (Stmt Q V C E)} {b : Bool}

/-- A thread that has nothing starts. -/
theorem Fine.start {code : Stmt Q V C E} (hself : content env.self = [])
    (h : Safe rules.next ([code], Knowledge.start)) :
    Fine rules env sort content [code] vars := ⟨_, .start hself, h⟩

/-- A thread that has nothing to do, and has nothing. -/
theorem Fine.nil (hself : content env.self = []) :
    Fine rules env sort content ([] : List (Stmt Q V C E)) vars := by
  refine ⟨_, .start hself, fun c' hreach => ?_⟩
  have hnext : rules.next (([] : List (Stmt Q V C E)), Knowledge.start) = some [] := by
    simp [Rules.next, Knowledge.holds, Knowledge.start]
  rcases hreach.cases_head with rfl | ⟨d, ⟨l, hl, hd⟩, -⟩
  · rw [hnext]
    exact Option.some_ne_none _
  · rw [hnext] at hl
    obtain rfl := Option.some.inj hl
    cases hd

theorem Fine.frame (h : Fine rules env sort content k vars)
    (hself : content' env.self = content env.self)
    (hmine : ∀ q, rules.mine q = true → ∀ r ∈ content (env.queue q), r ∈ content' (env.queue q)) :
    Fine rules env sort content' k vars := by
  obtain ⟨kn, hrel, hsafe⟩ := h
  exact ⟨kn, hrel.frame hself hmine, hsafe⟩

/-- A thread that has ended has nothing. -/
theorem Fine.ended (h : Fine rules env sort content ([] : List (Stmt Q V C E)) vars) :
    content env.self = [] := by
  obtain ⟨kn, hrel, hsafe⟩ := h
  obtain ⟨l, hl, -⟩ := hsafe.allowed
  simp only [Rules.next] at hl
  split_ifs at hl with hholds
  rw [List.eq_nil_iff_forall_not_mem]
  intro r hr
  obtain ⟨x, kd, hx, -⟩ := hrel.hand r hr
  exact hholds ⟨x, by simp [Knowledge.holds, hx]⟩

theorem Fine.flow (h : Fine rules env sort content (s :: k) vars) (hs : ∀ o, s ≠ .op o)
    (htest : ∀ c a d, s = .test c a d → b = true → rules.stable c = true → env.holds c) :
    Fine rules env sort content (flow (fun x => (vars x).isNone) b s k) vars := by
  obtain ⟨kn, hrel, hsafe⟩ := h
  obtain ⟨cs, hcs, hsafe⟩ := hsafe.allowed
  obtain ⟨kn', hmem, hrel'⟩ := hrel.flow hs hcs htest
  exact ⟨kn', hrel', hsafe _ hmem⟩

/-- What is allowed before an operation. -/
theorem Fine.allowed {o : Op Q V E} (h : Fine rules env sort content (.op o :: k) vars) :
    ∃ kn kns, Rel rules env sort content vars kn ∧ rules.opNext kn o = some kns ∧
      ∀ kn' ∈ kns, Safe rules.next (k, kn') := by
  obtain ⟨kn, hrel, hsafe⟩ := h
  obtain ⟨cs, hcs, hsafe⟩ := hsafe.allowed
  obtain ⟨kns, hkns, rfl⟩ := Option.map_eq_some_iff.1 hcs
  exact ⟨kn, kns, hrel, hkns, fun kn' hkn' => hsafe _ (List.mem_map.2 ⟨kn', hkn', rfl⟩)⟩

/-- A thread uses what it has, or what nobody else takes. -/
theorem Fine.uses (h : Fine rules env sort content (.op (.access x) :: k) vars)
    (hr : vars x = some r) :
    r ∈ content env.self ∨ ∃ q, rules.mine q = true ∧ r ∈ content (env.queue q) := by
  obtain ⟨kn, kns, hrel, hkns, -⟩ := h.allowed
  cases hx : kn.var x with
  | null =>
    rw [hrel.null x hx] at hr
    cases hr
  | held kd =>
    obtain ⟨r', hr', hself, -⟩ := hrel.held x kd hx
    obtain rfl : r' = r := Option.some.inj (hr'.symm.trans hr)
    exact Or.inl hself
  | queued q =>
    obtain ⟨hmine, r', hr', hqueue⟩ := hrel.queued x q hx
    obtain rfl : r' = r := Option.some.inj (hr'.symm.trans hr)
    exact Or.inr ⟨q, hmine, hqueue⟩
  | stale => simp [Rules.opNext, hx] at hkns

/-- A thread puts into a queue what it has. -/
theorem Fine.puts {head : Bool} (h : Fine rules env sort content (.op (.put q x head) :: k) vars)
    (hr : vars x = some r) : r ∈ content env.self := by
  obtain ⟨kn, kns, hrel, hkns, -⟩ := h.allowed
  cases hx : kn.var x with
  | null =>
    rw [hrel.null x hx] at hr
    cases hr
  | held kd =>
    obtain ⟨r', hr', hself, -⟩ := hrel.held x kd hx
    obtain rfl : r' = r := Option.some.inj (hr'.symm.trans hr)
    exact hself
  | queued _ | stale => simp [Rules.opNext, hx] at hkns

theorem Fine.other {e : E} (h : Fine rules env sort content (.op (.other e) :: k) vars) :
    rules.allows e = true ∧ Fine rules env sort content k vars := by
  obtain ⟨kn, kns, hrel, hkns, hsafe⟩ := h.allowed
  simp only [Rules.opNext] at hkns
  split_ifs at hkns with hallows
  obtain rfl := Option.some.inj hkns
  exact ⟨hallows, kn, hrel, hsafe kn (List.mem_singleton_self kn)⟩

variable [DecidableEq L] [DecidableEq R]

theorem Fine.op {o : Op Q V E} (h : Fine rules env sort content (.op o :: k) vars)
    (hplaced : Placed all content)
    (hsort : ∀ q, ∀ r ∈ content (env.queue q), sort r = rules.sort q)
    (hdenied : ∀ q x w, o = .get q x w → b = true →
      rules.denied q (has env content vars) = false)
    (hexec : exec env b content vars o = some (content', vars')) :
    Moved rules env sort content content' ∧ Fine rules env sort content' k vars' := by
  obtain ⟨kn, kns, hrel, hkns, hsafe⟩ := h.allowed
  obtain ⟨hmoved, kn', hmem, hrel'⟩ := hrel.exec hplaced hsort hkns hdenied hexec
  exact ⟨hmoved, kn', hrel', hsafe kn' hmem⟩

end

end

end Handoff
