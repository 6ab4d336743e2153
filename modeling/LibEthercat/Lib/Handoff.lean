import Mathlib.Data.Fintype.Pi
import Mathlib.Logic.Relation
import LibEthercat.Lib.Places

/-!
# Programs that hand things on

Threads take things out of queues, use them and put them into queues again. A thread may use, and
hand on, only what it has; when it ends it must have nothing. Whether it keeps to that depends on
what its variables point to, and not on the other threads, as long as they keep to it as well.

A program is checked by following it with what is known of its variables (`Rules.next`). The
programs are finite, and so is the knowledge, so that all of it can be followed (`Rules.check`), and
a program that has been checked is safe (`Rules.safe_of_check`).
-/

namespace Handoff

open Function (update)
open Places

/-! ## Programs -/

/-- An operation on variables `V` and queues `Q`, or something else, `E`. -/
inductive Op (Q V E : Type*)
  /-- The first of the queue, or nothing, after having waited for it. -/
  | get (q : Q) (x : V) (wait : Bool)
  | put (q : Q) (x : V) (head : Bool)
  | access (x : V)
  /-- `y = x`. -/
  | copy (x y : V)
  | clear (x : V)
  | other (e : E)
deriving DecidableEq

/-- A statement, with conditions `C` that do not depend on the variables. -/
inductive Stmt (Q V C E : Type*)
  | skip
  | op (o : Op Q V E)
  | seq (a b : Stmt Q V C E)
  | ifNull (x : V) (a b : Stmt Q V C E)
  | test (c : C) (a b : Stmt Q V C E)
  | loop (body : Stmt Q V C E)
  /-- The end of the body of a loop. -/
  | again (body : Stmt Q V C E)
  | brk
  | ret
deriving DecidableEq

section
variable {Q V C E : Type*}

def block : List (Stmt Q V C E) → Stmt Q V C E
  | [] => .skip
  | [s] => s
  | s :: rest => .seq s (block rest)

/-- `while (x != NULL)`. -/
def whileSome (x : V) (body : List (Stmt Q V C E)) : Stmt Q V C E :=
  .loop (.ifNull x .brk (block body))

/-- What follows the innermost loop. -/
def afterLoop : List (Stmt Q V C E) → List (Stmt Q V C E)
  | [] => []
  | .again _ :: k => k
  | _ :: k => afterLoop k

/-- What there is to do after a step, `b` being the value of a condition. -/
def flow (isNull : V → Bool) (b : Bool) : Stmt Q V C E → List (Stmt Q V C E) → List (Stmt Q V C E)
  | .skip, k | .op _, k => k
  | .seq a c, k => a :: c :: k
  | .ifNull x a c, k => (if isNull x then a else c) :: k
  | .test _ a c, k => (if b then a else c) :: k
  | .loop a, k | .again a, k => a :: .again a :: k
  | .brk, k => afterLoop k
  | .ret, _ => []

end

/-! ## Knowledge -/

/-- What is known of a variable. -/
inductive Kind (Q K : Type*)
  | null
  /-- The thread has what it points to, a thing of this sort. -/
  | held (k : K)
  /-- What it points to is in a queue that nobody else takes from. -/
  | queued (q : Q)
  | stale
deriving DecidableEq

/-- What is known when a thread is at a statement. -/
structure Knowledge (Q V C K : Type*) where
  var : V → Kind Q K
  /-- Conditions that have been found to hold, since the loop began. -/
  facts : List C

/-- What a program must keep to. -/
structure Rules (Q V C E K : Type*) where
  sort : Q → K
  /-- The thread may take from the queue. -/
  takes : Q → Bool
  /-- Nobody else does. -/
  mine : Q → Bool
  /-- What must hold when it puts something there. -/
  needs : Q → Option C
  /-- The condition does not change. -/
  stable : C → Bool
  /-- The thread gets nothing from the queue, while it has things in these variables. -/
  denied : Q → (V → Bool) → Bool
  denied_mono : ∀ q p p', (∀ x, p x = true → p' x = true) → denied q p = true → denied q p' = true
  /-- What else the thread may do. -/
  allows : E → Bool

section
variable {Q V C E K : Type*}

def Knowledge.holds (kn : Knowledge Q V C K) (x : V) : Bool :=
  match kn.var x with
  | .held _ => true
  | _ => false

/-- Nothing is known of the variables of a program that starts. -/
def Knowledge.start : Knowledge Q V C K := ⟨fun _ => .stale, []⟩

/-- Something may have been taken out of the queue. -/
def Knowledge.forget [DecidableEq Q] [DecidableEq K] (kn : Knowledge Q V C K) (q : Q) :
    Knowledge Q V C K :=
  { kn with var := fun x => if kn.var x = .queued q then .stale else kn.var x }

theorem Knowledge.holds_forget [DecidableEq Q] [DecidableEq K] (kn : Knowledge Q V C K) (q : Q)
    (x : V) : (kn.forget q).holds x = kn.holds x := by
  simp only [holds, forget]
  split_ifs with hq
  · rw [hq]
  · rfl

def Knowledge.learn [DecidableEq C] (kn : Knowledge Q V C K) (c : C) : Knowledge Q V C K :=
  if c ∈ kn.facts then kn else { kn with facts := c :: kn.facts }

variable [DecidableEq V]

def Knowledge.set (kn : Knowledge Q V C K) (x : V) (k : Kind Q K) : Knowledge Q V C K :=
  { kn with var := update kn.var x k }

@[simp] theorem Knowledge.set_self (kn : Knowledge Q V C K) (x : V) (k : Kind Q K) :
    (kn.set x k).var x = k := Function.update_self _ _ _

theorem Knowledge.set_of_ne (kn : Knowledge Q V C K) {x y : V} (k : Kind Q K) (h : y ≠ x) :
    (kn.set x k).var y = kn.var y := Function.update_of_ne h _ _

variable [DecidableEq Q] [DecidableEq C] [DecidableEq K]

instance [Fintype V] : DecidableEq (Knowledge Q V C K) := fun a b =>
  decidable_of_iff (a.var = b.var ∧ a.facts = b.facts) (by cases a; cases b; simp)

namespace Rules

variable (rules : Rules Q V C E K)

/-- What is known after an operation, in every case; nothing if the operation is not allowed. A
null pointer is not followed. -/
def opNext (kn : Knowledge Q V C K) : Op Q V E → Option (List (Knowledge Q V C K))
  | .get q x _ =>
    if !rules.takes q || kn.holds x then none
    else
      let kn' := kn.forget q
      some (kn'.set x .null ::
        if rules.denied q kn.holds then [] else [kn'.set x (.held (rules.sort q))])
  | .put q x _ =>
    match kn.var x with
    | .null => some []
    | .held k =>
      if k = rules.sort q ∧ ∀ c ∈ rules.needs q, c ∈ kn.facts then
        some [kn.set x (if rules.mine q then .queued q else .stale)]
      else none
    | .queued _ | .stale => none
  | .access x =>
    match kn.var x with
    | .null => some []
    | .held _ | .queued _ => some [kn]
    | .stale => none
  | .copy _ y => if kn.holds y then none else some [kn.set y .stale]
  | .clear x => if kn.holds x then none else some [kn.set x .null]
  | .other e => if rules.allows e then some [kn] else none

/-- A thread that has this to do, and what is known. -/
abbrev Config (Q V C E K : Type*) := List (Stmt Q V C E) × Knowledge Q V C K

/-- The same for a statement. -/
def stmtNext (kn : Knowledge Q V C K) (s : Stmt Q V C E) (k : List (Stmt Q V C E)) :
    Option (List (Config Q V C E K)) :=
  match s with
  | .op o => (rules.opNext kn o).map fun l => l.map fun kn' => (k, kn')
  | .ifNull x a c =>
    match kn.var x with
    | .null => some [(a :: k, kn)]
    | .held _ | .queued _ => some [(c :: k, kn)]
    | .stale => some [(a :: k, kn), (c :: k, kn)]
  | .test c a d => some [(a :: k, if rules.stable c then kn.learn c else kn), (d :: k, kn)]
  | .again a => some [(a :: .again a :: k, { kn with facts := [] })]
  | s => some [(flow (fun _ => true) true s k, kn)]

/-- A thread that ends must have nothing. -/
def next [Fintype V] (c : Config Q V C E K) : Option (List (Config Q V C E K)) :=
  match c.1 with
  | [] => if ∃ x, c.2.holds x = true then none else some []
  | s :: k => rules.stmtNext c.2 s k

end Rules

end

/-! ## Following all that can follow -/

section
variable {S : Type*} {next : S → Option (List S)}

/-- Whatever can follow is allowed. -/
def Safe (next : S → Option (List S)) (c : S) : Prop :=
  ∀ c', Relation.ReflTransGen (fun a b => ∃ l, next a = some l ∧ b ∈ l) c c' → next c' ≠ none

theorem Safe.allowed {c : S} (h : Safe next c) : ∃ l, next c = some l ∧ ∀ c' ∈ l, Safe next c' := by
  obtain ⟨l, hl⟩ := Option.ne_none_iff_exists'.1 (h c .refl)
  exact ⟨l, hl, fun c' hc' d hd => h d (.head ⟨l, hl, hc'⟩ hd)⟩

variable [DecidableEq S]

/-- Is all that can follow allowed, and found in so many steps? What is `kept` is followed once. -/
def explore (next : S → Option (List S)) (kept : S → Bool) : ℕ → List S → List S → Bool
  | _, [], _ => true
  | 0, _ :: _, _ => false
  | n + 1, c :: todo, seen =>
    if kept c && c ∈ seen then explore next kept n todo seen
    else
      match next c with
      | none => false
      | some l => explore next kept n (l ++ todo) (if kept c then c :: seen else seen)

/-- What has been followed, up to what had been seen before. -/
theorem explore_closed {kept : S → Bool} {n : ℕ} {todo seen : List S}
    (h : explore next kept n todo seen = true) :
    ∃ all : S → Prop, (∀ c ∈ todo, all c ∨ c ∈ seen) ∧
      ∀ c, all c → ∃ l, next c = some l ∧ ∀ c' ∈ l, all c' ∨ c' ∈ seen := by
  induction n generalizing todo seen with
  | zero =>
    cases todo with
    | nil => exact ⟨fun _ => False, by simp, fun _ hc => hc.elim⟩
    | cons c todo => cases h
  | succ n ih =>
    cases todo with
    | nil => exact ⟨fun _ => False, by simp, fun _ hc => hc.elim⟩
    | cons c todo =>
      simp only [explore] at h
      by_cases hc : (kept c && decide (c ∈ seen)) = true
      · rw [if_pos hc] at h
        obtain ⟨all, htodo, hall⟩ := ih h
        refine ⟨all, fun d hd => ?_, hall⟩
        rcases List.mem_cons.1 hd with rfl | hd
        · rw [Bool.and_eq_true, decide_eq_true_eq] at hc
          exact Or.inr hc.2
        · exact htodo d hd
      · rw [if_neg hc] at h
        cases hl : next c with
        | none =>
          rw [hl] at h
          cases h
        | some l =>
          rw [hl] at h
          obtain ⟨all, htodo, hall⟩ := ih h
          have hseen : ∀ d, all d ∨ d ∈ (if kept c = true then c :: seen else seen) →
              (all d ∨ d = c) ∨ d ∈ seen := by
            intro d hd
            rcases hd with hd | hd
            · exact Or.inl (Or.inl hd)
            · split_ifs at hd
              · rcases List.mem_cons.1 hd with hd | hd
                · exact Or.inl (Or.inr hd)
                · exact Or.inr hd
              · exact Or.inr hd
          refine ⟨fun d => all d ∨ d = c, fun d hd => ?_, fun d hd => ?_⟩
          · rcases List.mem_cons.1 hd with rfl | hd
            · exact Or.inl (Or.inr rfl)
            · exact hseen d (htodo d (List.mem_append_right l hd))
          · rcases hd with hd | rfl
            · obtain ⟨l', hl', hmem⟩ := hall d hd
              exact ⟨l', hl', fun c' hc' => hseen c' (hmem c' hc')⟩
            · exact ⟨l, hl, fun c' hc' => hseen c' (htodo c' (List.mem_append_left todo hc'))⟩

theorem safe_of_explore {kept : S → Bool} {n : ℕ} {todo : List S} {c : S}
    (h : explore next kept n todo [] = true) (hc : c ∈ todo) : Safe next c := by
  obtain ⟨all, htodo, hall⟩ := explore_closed h
  intro c' hreach
  have hmem : all c' := by
    induction hreach with
    | refl => simpa using htodo c hc
    | tail _ hstep ih =>
      obtain ⟨l, hl, hc'⟩ := hstep
      obtain ⟨l', hl', hmem⟩ := hall _ ih
      obtain rfl : l = l' := Option.some.inj (hl.symm.trans hl')
      simpa using hmem _ hc'
  obtain ⟨l, hl, -⟩ := hall c' hmem
  simp [hl]

end

namespace Rules

section
variable {Q V C E K : Type*} [DecidableEq Q] [DecidableEq V] [DecidableEq C] [DecidableEq E]
  [DecidableEq K] [Fintype V]

/-- Where the ways through a program meet. -/
def meets (c : Config Q V C E K) : Bool :=
  match c.1 with
  | .again _ :: _ | .ifNull _ _ _ :: _ | .op (.get _ _ _) :: _ => true
  | _ => false

/-- The program is followed for at most `n` steps. -/
def check (rules : Rules Q V C E K) (n : ℕ) (code : Stmt Q V C E) : Bool :=
  explore rules.next meets n [([code], Knowledge.start)] []

variable {rules : Rules Q V C E K}

theorem safe_of_check {n : ℕ} {code : Stmt Q V C E} (h : rules.check n code = true) :
    Safe rules.next ([code], Knowledge.start) := safe_of_explore h List.mem_cons_self

end

end Rules

end Handoff
