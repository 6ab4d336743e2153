import LibEthercat.Lib.Handoff

/-!
# Objects that are initialised and destroyed

The objects of a group, such as locks, semaphores and queues, are initialised and destroyed while
threads use them. The clients call functions for a group, one at a time; a group has a worker, which
is created under a lock (`key`) and joined before its objects are destroyed. Some functions free
objects (`frees`), and a branch of the others may have to be avoided because it does so, too
(`Cond.avoid`).

What a run has to do is `Sound`, and what is asked of it `Guarded`. A program is followed with what is
known of its thread (`next`), and can be checked so (`Checked`).
-/

namespace Lifecycle

open Function (update)
open Handoff (Stmt flow Safe)

/-! ## Programs -/

inductive Life
  /-- Nobody has initialised it yet. -/
  | fresh
  | live
  | destroyed
deriving DecidableEq

/-- What a thread does with the objects `O`, and with the worker of its group. -/
inductive Act (O : Type*)
  | lock (o : O)
  | unlock (o : O)
  /-- It is waited for, posted, or something is put there or got. -/
  | use (o : O)
  | init (o : O)
  | destroy (o : O)
  | setRunning (running : Bool)
  | create
  | join
deriving DecidableEq

def Act.object {O : Type*} : Act O → Option O
  | .lock o | .unlock o | .use o | .destroy o => some o
  | _ => none

inductive Cond
  /-- It may hold or not. -/
  | data
  /-- What has been set with `Act.setRunning`. -/
  | running
  | avoid
deriving DecidableEq

abbrev Code (O : Type*) := Stmt Empty Empty Cond (Act O)

def act {O : Type*} (a : Act O) : Code O := .op (.other a)

/-- Functions `F`, the worker of a group, and the lock under which it is created. -/
structure Component (O F : Type*) where
  code : F → Code O
  frees : F → Bool
  worker : Code O
  key : O

section
variable {O F : Type*}

/-- The objects that are used, those of the worker if it is created. -/
def objectsOf (w : List O) : Code O → List O
  | .op (.other .create) => w
  | .op (.other a) => a.object.toList
  | .test .avoid _ d => objectsOf w d
  | .seq a d | .ifNull _ a d | .test _ a d => objectsOf w a ++ objectsOf w d
  | .loop a | .again a => objectsOf w a
  | _ => []

def Component.workerObjects (c : Component O F) : List O := objectsOf [] c.worker

def Component.objects (c : Component O F) (f : F) : List O :=
  objectsOf c.workerObjects (c.code f)

end

/-! ## Runs -/

/-- The worker of a group `N`, or a client `K`. -/
inductive Tid (N K : Type*)
  | worker (n : N)
  | client (k : K)
deriving DecidableEq

structure Thread (N O F : Type*) where
  group : N
  /-- What a client has called. -/
  fn : Option F
  code : List (Code O)

structure State (N K O F : Type*) where
  thread : Tid N K → Thread N O F
  life : N × O → Life
  holder : N × O → Option (Tid N K)
  running : N → Bool

inductive Action (N K F : Type*)
  | call (k : K) (n : N) (f : F)
  /-- The thread takes a step; `b` is the value of a condition. -/
  | go (t : Tid N K) (b : Bool)
  | leave (k : K)

section
variable {N K O F : Type*} [DecidableEq N] [DecidableEq K]

namespace State

def setThread (s : State N K O F) (t : Tid N K) (th : Thread N O F) : State N K O F :=
  { s with thread := update s.thread t th }

/-- The thread goes on with `code`. -/
def goOn (s : State N K O F) (t : Tid N K) (code : List (Code O)) : State N K O F :=
  s.setThread t { s.thread t with code := code }

/-- The worker is not there, or has come to its end. -/
def idle (s : State N K O F) (n : N) : Bool := (s.thread (.worker n)).code.isEmpty

/-- May the condition have this value? -/
def tested (s : State N K O F) (n : N) (b : Bool) : Code O → Bool
  | .test .running _ _ => b == s.running n
  | _ => true

variable [DecidableEq O]

def act (c : Component O F) (s : State N K O F) (t : Tid N K) (n : N) :
    Act O → Option (State N K O F)
  | .lock o =>
    if s.holder (n, o) = none then
      some { s with holder := update s.holder (n, o) (some t) }
    else none
  | .unlock o => some { s with holder := update s.holder (n, o) none }
  | .use _ => some s
  | .init o =>
    some { s with life := update s.life (n, o) .live, holder := update s.holder (n, o) none }
  | .destroy o => some { s with life := update s.life (n, o) .destroyed }
  | .setRunning running => some { s with running := update s.running n running }
  | .create => some (s.setThread (.worker n) ⟨n, none, [c.worker]⟩)
  | .join => if s.idle n then some s else none

end State

variable [DecidableEq O]

def step (c : Component O F) (s : State N K O F) : Action N K F → Option (State N K O F)
  | .call k n f =>
    if (s.thread (.client k)).fn = none then
      some (s.setThread (.client k) ⟨n, some f, [c.code f]⟩)
    else none
  | .go t b =>
    match (s.thread t).code with
    | [] => none
    | .op (.other a) :: k => (s.goOn t k).act c t (s.thread t).group a
    | .op _ :: _ => none
    | st :: k =>
      if s.tested (s.thread t).group b st then some (s.goOn t (flow Empty.elim b st k)) else none
  | .leave k =>
    if (s.thread (.client k)).fn ≠ none ∧ (s.thread (.client k)).code.isEmpty then
      some (s.setThread (.client k) { s.thread (.client k) with fn := none })
    else none

/-! ## What is asked of a run, and what it has to do -/

/-- The thread is at an operation on the object. -/
def At (s : State N K O F) (t : Tid N K) (n : N) (o : O) : Prop :=
  (s.thread t).group = n ∧ ∃ a k, (s.thread t).code = act a :: k ∧ a.object = some o

def ActSound (s : State N K O F) (t : Tid N K) (n : N) : Act O → Prop
  | .lock o | .unlock o | .use o => s.life (n, o) ≠ .destroyed
  | .destroy o =>
    s.life (n, o) ≠ .destroyed ∧ s.holder (n, o) = none ∧ ∀ t', t' ≠ t → ¬ At s t' n o
  | _ => True

/-- Nothing is destroyed while a thread holds it or is at an operation on it, and nothing is used
between its destruction and the next initialisation. -/
def Sound (s : State N K O F) : Action N K F → Prop
  | .go t _ => ∀ a k, (s.thread t).code = act a :: k → ActSound s t (s.thread t).group a
  | _ => True

/-- The thread is where a branch is to be avoided. -/
def avoids : List (Code O) → Bool
  | .test .avoid _ _ :: _ => true
  | _ => false

/-- What a step must keep to. -/
def Guarded (c : Component O F) (s : State N K O F) : Action N K F → Prop
  | .call _ n f =>
    (∀ o ∈ c.objects f, s.life (n, o) ≠ .destroyed) ∧
      ∀ k', ∀ f' ∈ (s.thread (.client k')).fn, (s.thread (.client k')).group = n →
        c.frees f = false ∧ c.frees f' = false
  | .go t b => avoids (s.thread t).code = true → b = false
  | .leave _ => True

instance Guarded.decidable [Fintype K] (c : Component O F) (s : State N K O F)
    (x : Action N K F) : Decidable (Guarded c s x) :=
  match x with
  | .call _ _ _ => inferInstanceAs (Decidable (_ ∧ _))
  | .go _ _ => inferInstanceAs (Decidable (_ → _))
  | .leave _ => .isTrue trivial

end

/-! ## Following a program -/

/-- What is known of a thread: what it holds and what it has destroyed; with the key, that the worker
is `idle`, or that `running` has been set (`started`); when it frees the objects, that the worker has
been `joined`, or has yet to be (`pending`). -/
structure View (O : Type*) where
  held : List O
  gone : List O
  idle : Bool
  started : Bool
  joined : Bool
  pending : Bool
deriving DecidableEq

def View.start {O : Type*} : View O := ⟨[], [], false, false, false, false⟩

section
variable {O F : Type*} [DecidableEq O] (c : Component O F) (frees : Bool)

def actNext (v : View O) : Act O → Option (View O)
  | .lock o => if o ∈ v.held ∨ o ∈ v.gone then none else some { v with held := o :: v.held }
  | .unlock o =>
    if o ∈ v.held ∧ o ∉ v.gone then
      some { v with
        held := v.held.filter (· ≠ o)
        idle := v.idle && o ≠ c.key
        started := v.started && o ≠ c.key }
    else none
  | .use o => if o ∈ v.gone then none else some v
  | .init o => if frees ∨ o = c.key ∨ o ∈ v.held then none else some v
  | .destroy o =>
    if frees ∧ o ∉ v.held ∧ o ∉ v.gone ∧ (o ∈ c.workerObjects → v.joined) then
      some { v with gone := o :: v.gone }
    else none
  | .setRunning running =>
    if frees then if running then none else some { v with pending := true }
    else if running ∧ c.key ∈ v.held then some { v with started := true }
    else none
  | .create => if !frees ∧ v.idle ∧ v.started then some { v with idle := false } else none
  | .join => if frees then some { v with joined := true, pending := false } else none

/-- What can follow, if the thread may go on. -/
def next : List (Code O) × View O → Option (List (List (Code O) × View O))
  | ([], v) => if v.held = [] ∧ !v.pending then some [] else none
  | (.op (.other a) :: k, v) => (actNext c frees v a).map fun v' => [(k, v')]
  | (.op _ :: _, _) => none
  | (.test .avoid _ d :: k, v) => some [(d :: k, v)]
  | (.test .running a d :: k, v) =>
    some [(a :: k, v), (d :: k, if !frees ∧ c.key ∈ v.held then { v with idle := true } else v)]
  | (st :: k, v) => some [(flow Empty.elim true st k, v), (flow Empty.elim false st k, v)]

/-- The programs have been followed. -/
structure Checked (c : Component O F) : Prop where
  fn : ∀ f, Safe (next c (c.frees f)) ([c.code f], .start)
  worker : Safe (next c false) ([c.worker], .start)
  workerObjects : ∀ o ∈ objectsOf c.workerObjects c.worker, o ∈ c.workerObjects
  key : c.key ∉ c.workerObjects

end

section
variable {O F : Type*} [DecidableEq O] {c : Component O F} {frees b : Bool} {k : List (Code O)}
  {v : View O} {a : Act O} {st : Code O}

theorem safe_ended (h : Safe (next c frees) ([], v)) : v.held = [] ∧ v.pending = false := by
  obtain ⟨l, hl, -⟩ := h.allowed
  by_contra hnot
  simp [next, hnot] at hl

theorem safe_nil (hheld : v.held = []) (hpending : v.pending = false) :
    Safe (next c frees) ([], v) := by
  have hnext : next c frees ([], v) = some [] := by simp [next, hheld, hpending]
  intro d hd
  rcases hd.cases_head with rfl | ⟨e, ⟨l, hl, he⟩, -⟩
  · simp [hnext]
  · obtain rfl : [] = l := Option.some.inj (hnext.symm.trans hl)
    cases he

theorem safe_act (h : Safe (next c frees) (act a :: k, v)) :
    ∃ v', actNext c frees v a = some v' ∧ Safe (next c frees) (k, v') := by
  obtain ⟨l, hl, hsafe⟩ := h.allowed
  obtain ⟨v', hv', rfl⟩ := Option.map_eq_some_iff.1 hl
  exact ⟨v', hv', hsafe _ (List.mem_singleton_self _)⟩

theorem safe_flow (h : Safe (next c frees) (st :: k, v)) (hst : ∀ o, st ≠ .op o)
    (hb : avoids (st :: k) = true → b = false) :
    ∃ v', Safe (next c frees) (flow Empty.elim b st k, v') ∧ (v' = v ∨
      v' = { v with idle := true } ∧ (frees = false ∧ c.key ∈ v.held) ∧
        (∃ a d, st = .test .running a d) ∧ b = false) := by
  obtain ⟨l, hl, hsafe⟩ := h.allowed
  cases st with
  | op o => exact absurd rfl (hst o)
  | test x a d =>
    cases x with
    | avoid =>
      obtain rfl := hb rfl
      obtain rfl := Option.some.inj hl
      exact ⟨v, hsafe _ (List.mem_singleton_self _), .inl rfl⟩
    | running =>
      obtain rfl := Option.some.inj hl
      cases b with
      | true => exact ⟨v, hsafe _ List.mem_cons_self, .inl rfl⟩
      | false =>
        have hfalse := hsafe _ (List.mem_cons_of_mem _ (List.mem_singleton_self _))
        split_ifs at hfalse with hkey
        · exact ⟨_, hfalse, .inr ⟨rfl, by simpa using hkey, ⟨a, d, rfl⟩, rfl⟩⟩
        · exact ⟨v, hfalse, .inl rfl⟩
    | data =>
      obtain rfl := Option.some.inj hl
      cases b <;> exact ⟨v, hsafe _ (by simp), .inl rfl⟩
  | _ =>
    obtain rfl := Option.some.inj hl
    cases b <;> exact ⟨v, hsafe _ (by simp), .inl rfl⟩

end

/-! ## The objects of a program -/

section
variable {O : Type*} {b : Bool} {k : List (Code O)} {st : Code O} {o : O} {w : List O}

theorem mem_objects_of_cons (h : o ∈ k.flatMap (objectsOf w)) :
    o ∈ (st :: k).flatMap (objectsOf w) := by
  rw [List.flatMap_cons]
  exact List.mem_append_right _ h

theorem mem_objects_act {a : Act O} (h : a.object = some o) :
    o ∈ (act a :: k).flatMap (objectsOf w) := by
  rw [List.flatMap_cons]
  refine List.mem_append_left _ ?_
  cases a <;> simp_all [act, objectsOf, Act.object]

theorem mem_afterLoop (h : o ∈ (Handoff.afterLoop k).flatMap (objectsOf w)) :
    o ∈ k.flatMap (objectsOf w) := by
  induction k with
  | nil => exact h
  | cons st k ih =>
    rw [List.flatMap_cons, List.mem_append]
    cases st with
    | again a => exact .inr h
    | _ => exact .inr (ih h)

theorem mem_flow (hb : avoids (st :: k) = true → b = false)
    (h : o ∈ (flow Empty.elim b st k).flatMap (objectsOf w)) :
    o ∈ (st :: k).flatMap (objectsOf w) := by
  rw [List.flatMap_cons, List.mem_append]
  cases st with
  | skip | op _ => exact .inr h
  | brk => exact .inr (mem_afterLoop h)
  | ret => cases h
  | ifNull x a d => exact x.elim
  | seq a d | loop a | again a =>
    simp only [flow, List.flatMap_cons, List.mem_append] at h
    simp only [objectsOf, List.mem_append]
    tauto
  | test x a d =>
    rw [flow, List.flatMap_cons, List.mem_append] at h
    refine h.imp_left fun h => ?_
    cases x with
    | avoid =>
      obtain rfl := hb rfl
      exact h
    | data | running => cases b <;> simp_all [objectsOf]

end

end Lifecycle
