import Mathlib.Algebra.BigOperators.Group.Finset.Piecewise
import Mathlib.Data.Fintype.Option
import LibEthercat.Lib.Places
import LibEthercat.Lib.Runs

/-!
# The messages of the asynchronous loop

Any number of threads take messages out of the avail queue and put them into the exec queue; the
thread of the loop takes them from there, executes them, and puts them back. A queue has a lock, and
a semaphore that is waited for, with a timeout, before the lock is taken, and posted with the lock.
A call in a callback that the thread of the loop runs while it executes a message counts as one of
another thread.

**Theorem (`messages_conserved`).** In every run each message is in one of the queues or in the
hands of one thread, the messages are executed in the order in which they have been scheduled, and
while nothing is put into a queue its semaphore and the threads that have waited for it count it.
-/

namespace LibEthercat.Async

open Function (update)
open Places (Placed add move)

def EC_ASYNC_MESSAGE_LOOP_COUNT : ℕ := 100

/-- `EC_MSG_CHECK_*` -/
inductive MsgId
  | checkGroup
  | checkSlave
  | checkAll
  | checkDcsoffset
deriving DecidableEq

structure Msg where
  id : MsgId
  payload : UInt32
deriving DecidableEq

inductive Queue
  | avail
  | exec
deriving DecidableEq

structure MsgPool where
  queue : List ℕ
  availCnt : ℕ
  /-- A put has the lock, between the insertion and the post. -/
  lock : Bool

/-- The semaphore has been taken. -/
def MsgPool.wait (p : MsgPool) : MsgPool := { p with availCnt := p.availCnt - 1 }

def MsgPool.remove (p : MsgPool) (rest : List ℕ) : MsgPool := { p with queue := rest }

/-- `ec_async_loop_put` up to the post. -/
def MsgPool.insertTail (p : MsgPool) (e : ℕ) : MsgPool :=
  { p with queue := p.queue ++ [e], lock := true }

/-- The rest of `ec_async_loop_put`. -/
def MsgPool.post (p : MsgPool) : MsgPool := { p with availCnt := p.availCnt + 1, lock := false }

/-! ## Threads -/

/-- A call that gets a message and puts it. -/
inductive Work
  /-- `ec_async_check_group`, called by `ec_async_check_all` if there is a group to go on with. -/
  | group (gid : UInt16) (next : Option ℕ)
  | dcsoffset (value : UInt32)
  /-- `ec_async_loop_step` -/
  | step
deriving DecidableEq

/-- Where the message comes from. -/
def Work.source : Work → Queue
  | .step => .exec
  | _ => .avail

def Work.target : Work → Queue
  | .step => .avail
  | _ => .exec

/-- Where a thread is. -/
inductive Pc
  | idle
  /-- `ec_async_check_all`, before the group `i`. -/
  | checkAll (i : ℕ)
  /-- `ec_async_check_group`, before it looks at the timer. -/
  | timer (gid : UInt16) (next : Option ℕ)
  /-- `ec_async_loop_get`, before the wait. -/
  | wait (w : Work)
  | waited (w : Work)
  /-- It has the message `e`. -/
  | has (w : Work) (e : ℕ)
  /-- The message has been set, or executed. -/
  | ready (w : Work) (e : ℕ)
  /-- `ec_async_loop_put`, after the insertion. -/
  | posting (w : Work)
deriving DecidableEq

/-- Behind `ec_async_check_group`. -/
def afterGroup : Option ℕ → Pc
  | some i => .checkAll i
  | none => .idle

def Work.after : Work → Pc
  | .group _ next => afterGroup next
  | _ => .idle

/-- The messages in the hands of a thread. -/
def Pc.hands : Pc → List ℕ
  | .has _ e | .ready _ e => [e]
  | _ => []

/-- What the semaphore of a queue no longer counts, or does not count yet: the message for a thread
that has waited, and the one that has just been inserted. -/
def Pc.uncounted (q : Queue) : Pc → ℕ
  | .waited w => if w.source = q then 1 else 0
  | .posting w => if w.target = q then 1 else 0
  | _ => 0

/-- It has waited for the semaphore of the queue, and has not taken the message. -/
def Pc.waitedFor (q : Queue) : Pc → Bool
  | .waited w => w.source = q
  | _ => false

/-- The call under way is one of the loop, or of the other threads. -/
def Pc.loop? : Pc → Option Bool
  | .idle => none
  | .checkAll _ | .timer _ _ => some false
  | .wait w | .waited w | .has w _ | .ready w _ | .posting w => some (w = .step)

/-! ## Steps -/

/-- The thread `none` is that of the loop. -/
structure State (T : Type*) where
  pool : Queue → MsgPool
  msg : ℕ → Msg
  threads : Option T → Pc
  /-- What has been put into the exec queue, and what has been executed. -/
  scheduled : List (ℕ × Msg)
  executed : List (ℕ × Msg)

/-- `ec_async_loop_create` -/
def created (T : Type*) : State T where
  pool
    | .avail => ⟨List.range EC_ASYNC_MESSAGE_LOOP_COUNT, EC_ASYNC_MESSAGE_LOOP_COUNT, false⟩
    | .exec => ⟨[], 0, false⟩
  msg _ := ⟨.checkGroup, 0⟩
  threads _ := .idle
  scheduled := []
  executed := []

inductive Action
  | checkAll
  | checkGroup (gid : UInt16)
  | checkDcsoffset (value : UInt32)
  | loopStep
  /-- `i < pd_group_cnt`, or not. -/
  | next (more : Bool)
  /-- `osal_timer_expired(&next_check_group)` returns `OSAL_OK`, or not. -/
  | timer (ok : Bool)
  | wait
  | timeout
  | take
  /-- Set the message, or execute it. -/
  | handle
  | insert
  | post
deriving DecidableEq

section
variable {T : Type*} [DecidableEq T]

def State.go (s : State T) (t : Option T) (pc : Pc) : State T :=
  { s with threads := update s.threads t pc }

def State.setPool (s : State T) (q : Queue) (p : MsgPool) : State T :=
  { s with pool := update s.pool q p }

def State.handle (s : State T) (e : ℕ) : Work → State T
  | .group gid _ => { s with msg := update s.msg e ⟨.checkGroup, gid.toUInt32⟩ }
  | .dcsoffset value => { s with msg := update s.msg e ⟨.checkDcsoffset, value⟩ }
  | .step => { s with executed := s.executed ++ [(e, s.msg e)] }

/-- The locked part of `ec_async_loop_get`. -/
def State.take (s : State T) (t : Option T) (w : Work) : State T :=
  match (s.pool w.source).queue with
  | [] => s.go t w.after
  | e :: rest => (s.setPool w.source ((s.pool w.source).remove rest)).go t (.has w e)

/-- A message in the exec queue has been scheduled. -/
def State.schedule (s : State T) (e : ℕ) (w : Work) : State T :=
  { s with scheduled := if w.target = .exec then s.scheduled ++ [(e, s.msg e)] else s.scheduled }

def State.insert (s : State T) (t : Option T) (w : Work) (e : ℕ) : State T :=
  ((s.schedule e w).setPool w.target ((s.pool w.target).insertTail e)).go t (.posting w)

/-- A step of the thread `t`. -/
def threadStep (s : State T) (t : Option T) (a : Action) : Option (State T) :=
  match s.threads t, a with
  | .idle, .checkAll => if t.isSome then some (s.go t (.checkAll 0)) else none
  | .idle, .checkGroup gid => if t.isSome then some (s.go t (.timer gid none)) else none
  | .idle, .checkDcsoffset value =>
    if t.isSome then some (s.go t (.wait (.dcsoffset value))) else none
  | .idle, .loopStep => if t.isSome then none else some (s.go t (.wait .step))
  | .checkAll i, .next more =>
    some (s.go t (if more then .timer (UInt16.ofNat i) (some (i + 1)) else .idle))
  | .timer gid next, .timer ok =>
    some (s.go t (if ok then afterGroup next else .wait (.group gid next)))
  | .wait w, .wait =>
    if 0 < (s.pool w.source).availCnt then
      some ((s.setPool w.source (s.pool w.source).wait).go t (.waited w))
    else none
  | .wait w, .timeout => some (s.go t w.after)
  | .waited w, .take => if (s.pool w.source).lock then none else some (s.take t w)
  | .has w e, .handle => some ((s.handle e w).go t (.ready w e))
  | .ready w e, .insert => if (s.pool w.target).lock then none else some (s.insert t w e)
  | .posting w, .post =>
    some ((s.setPool w.target (s.pool w.target).post).go t w.after)
  | _, _ => none

def step (s : State T) (a : Option T × Action) : Option (State T) := threadStep s a.1 a.2

/-! ## What a step can do -/

/-- A place in the code without a message and outside of the semaphores. -/
def Pc.Bare (pc : Pc) : Prop := pc.hands = [] ∧ ∀ q, pc.uncounted q = 0

/-- The effects that a step of a thread can have. -/
inductive Change (s : State T) (t : Option T) : State T → Prop
  | go {pc : Pc} (hfrom : (s.threads t).Bare) (hto : pc.Bare)
      (hloop : ∀ b ∈ pc.loop?, b = t.isNone) : Change s t (s.go t pc)
  | wait {w : Work} (hpc : s.threads t = .wait w) (hcnt : 0 < (s.pool w.source).availCnt) :
      Change s t ((s.setPool w.source (s.pool w.source).wait).go t (.waited w))
  | miss {w : Work} (hpc : s.threads t = .waited w) (hqueue : (s.pool w.source).queue = []) :
      Change s t (s.go t w.after)
  | take {w : Work} {e : ℕ} {rest : List ℕ} (hpc : s.threads t = .waited w)
      (hqueue : (s.pool w.source).queue = e :: rest) :
      Change s t ((s.setPool w.source ((s.pool w.source).remove rest)).go t (.has w e))
  | handle {w : Work} {e : ℕ} (hpc : s.threads t = .has w e) :
      Change s t ((s.handle e w).go t (.ready w e))
  | insert {w : Work} {e : ℕ} (hpc : s.threads t = .ready w e) : Change s t (s.insert t w e)
  | post {w : Work} (hpc : s.threads t = .posting w) :
      Change s t ((s.setPool w.target (s.pool w.target).post).go t w.after)

theorem bare_afterGroup (next : Option ℕ) : (afterGroup next).Bare := by
  cases next <;> exact ⟨rfl, fun _ => rfl⟩

theorem bare_after (w : Work) : w.after.Bare := by
  cases w with
  | group gid next => exact bare_afterGroup next
  | dcsoffset value => exact ⟨rfl, fun _ => rfl⟩
  | step => exact ⟨rfl, fun _ => rfl⟩

theorem loop?_afterGroup (next : Option ℕ) : ∀ b ∈ (afterGroup next).loop?, b = false := by
  cases next <;> simp [afterGroup, Pc.loop?]

theorem loop?_after (w : Work) : ∀ b ∈ w.after.loop?, b = decide (w = .step) := by
  cases w with
  | group gid next => exact loop?_afterGroup next
  | dcsoffset value => simp [Work.after, Pc.loop?]
  | step => simp [Work.after, Pc.loop?]

/-- Only the thread of the loop executes messages, and it does nothing else. -/
def Roles (s : State T) : Prop := ∀ t, ∀ b ∈ (s.threads t).loop?, b = t.isNone

/-- A call begins. -/
theorem Change.call {s : State T} {t : Option T} {pc : Pc} (hpc : s.threads t = .idle)
    (hto : pc.Bare) (hloop : pc.loop? = some t.isNone) : Change s t (s.go t pc) := by
  refine .go (by rw [hpc]; exact ⟨rfl, fun _ => rfl⟩) hto fun b hb => ?_
  exact Option.some.inj (hb.symm.trans hloop)

theorem change_of_idle {s s' : State T} {t : Option T} {a : Action} (hpc : s.threads t = .idle)
    (h : threadStep s t a = some s') : Change s t s' := by
  unfold threadStep at h
  cases a with
  | checkAll | checkGroup gid | checkDcsoffset value =>
    simp only [hpc] at h
    split_ifs at h with ht
    obtain rfl := Option.some.inj h
    exact .call hpc ⟨rfl, fun _ => rfl⟩ (congrArg some (Option.isNone_eq_false_iff.2 ht).symm)
  | loopStep =>
    simp only [hpc] at h
    split_ifs at h with ht
    obtain rfl := Option.some.inj h
    exact .call hpc ⟨rfl, fun _ => rfl⟩
      (congrArg some (Option.isSome_eq_false_iff.1 (Bool.eq_false_iff.2 ht)).symm)
  | _ =>
    simp only [hpc] at h
    cases h

/-- The step of a thread is one of the changes. -/
theorem change_of_step {s s' : State T} {t : Option T} {a : Action} (hroles : Roles s)
    (h : threadStep s t a = some s') : Change s t s' := by
  have hrole := hroles t
  unfold threadStep at h
  cases hpc : s.threads t with
  | idle => exact change_of_idle hpc h
  | checkAll i =>
    cases a with
    | next more =>
      simp only [hpc] at h
      obtain rfl := Option.some.inj h
      rw [hpc] at hrole
      refine .go (by rw [hpc]; exact ⟨rfl, fun _ => rfl⟩) ?_ ?_
      · cases more <;> exact ⟨rfl, fun _ => rfl⟩
      · cases more
        · simp [Pc.loop?]
        · exact hrole
    | _ => simp [hpc] at h
  | timer gid next =>
    cases a with
    | timer ok =>
      simp only [hpc] at h
      obtain rfl := Option.some.inj h
      rw [hpc] at hrole
      refine .go (by rw [hpc]; exact ⟨rfl, fun _ => rfl⟩) ?_ ?_
      · cases ok
        · exact ⟨rfl, fun _ => rfl⟩
        · exact bare_afterGroup next
      · have ht : false = t.isNone := hrole false rfl
        cases ok
        · exact fun b hb => (Option.some.inj hb).symm.trans ht
        · exact fun b hb => (loop?_afterGroup next b hb).trans ht
    | _ => simp [hpc] at h
  | wait w =>
    cases a with
    | wait =>
      simp only [hpc] at h
      split_ifs at h with hcnt
      obtain rfl := Option.some.inj h
      exact .wait hpc hcnt
    | timeout =>
      simp only [hpc] at h
      obtain rfl := Option.some.inj h
      rw [hpc] at hrole
      exact .go (by rw [hpc]; exact ⟨rfl, fun _ => rfl⟩) (bare_after w)
        fun b hb => (loop?_after w b hb).trans (hrole _ rfl)
    | _ => simp [hpc] at h
  | waited w =>
    cases a with
    | take =>
      simp only [hpc] at h
      split_ifs at h
      obtain rfl := Option.some.inj h
      unfold State.take
      split
      case h_1 hqueue => exact .miss hpc hqueue
      case h_2 e rest hqueue => exact .take hpc hqueue
    | _ => simp [hpc] at h
  | has w e =>
    cases a with
    | handle =>
      simp only [hpc] at h
      obtain rfl := Option.some.inj h
      exact .handle hpc
    | _ => simp [hpc] at h
  | ready w e =>
    cases a with
    | insert =>
      simp only [hpc] at h
      split_ifs at h
      obtain rfl := Option.some.inj h
      exact .insert hpc
    | _ => simp [hpc] at h
  | posting w =>
    cases a with
    | post =>
      simp only [hpc] at h
      obtain rfl := Option.some.inj h
      exact .post hpc
    | _ => simp [hpc] at h

end

/-! ## Where the messages are -/

section
variable {T : Type*} {s : State T} {q : Queue} {p : MsgPool} {w : Work} {e : ℕ}

/-- The queues, and the hands of the threads. -/
def content (s : State T) : Queue ⊕ Option T → List ℕ
  | .inl q => (s.pool q).queue
  | .inr t => (s.threads t).hands

@[simp] theorem setPool_pool : (s.setPool q p).pool = update s.pool q p := rfl

@[simp] theorem setPool_threads : (s.setPool q p).threads = s.threads := rfl

@[simp] theorem setPool_msg : (s.setPool q p).msg = s.msg := rfl

@[simp] theorem setPool_scheduled : (s.setPool q p).scheduled = s.scheduled := rfl

@[simp] theorem setPool_executed : (s.setPool q p).executed = s.executed := rfl

@[simp] theorem schedule_pool : (s.schedule e w).pool = s.pool := rfl

@[simp] theorem schedule_threads : (s.schedule e w).threads = s.threads := rfl

@[simp] theorem schedule_msg : (s.schedule e w).msg = s.msg := rfl

@[simp] theorem schedule_executed : (s.schedule e w).executed = s.executed := rfl

@[simp] theorem handle_pool : (s.handle e w).pool = s.pool := by cases w <;> rfl

@[simp] theorem handle_threads : (s.handle e w).threads = s.threads := by cases w <;> rfl

@[simp] theorem handle_scheduled : (s.handle e w).scheduled = s.scheduled := by cases w <;> rfl

theorem content_setPool (h : p.queue = (s.pool q).queue) : content (s.setPool q p) = content s := by
  funext l
  cases l with
  | inl q' =>
    show (update s.pool q p q').queue = (s.pool q').queue
    by_cases hq : q' = q
    · rw [hq, Function.update_self, h]
    · rw [Function.update_of_ne hq]
  | inr t' => rfl

theorem content_handle : content (s.handle e w) = content s := by
  funext l
  cases l with
  | inl q => rw [content, handle_pool, content]
  | inr t => rw [content, handle_threads, content]

end

section
variable {T : Type*} [DecidableEq T] {s s' : State T} {t t' : Option T} {pc : Pc} {q : Queue}
  {p : MsgPool} {w : Work} {e : ℕ}

@[simp] theorem go_pool : (s.go t pc).pool = s.pool := rfl

@[simp] theorem go_msg : (s.go t pc).msg = s.msg := rfl

@[simp] theorem go_threads : (s.go t pc).threads = update s.threads t pc := rfl

@[simp] theorem go_scheduled : (s.go t pc).scheduled = s.scheduled := rfl

@[simp] theorem go_executed : (s.go t pc).executed = s.executed := rfl

/-- A thread goes on with what it has in its hands. -/
theorem content_go (h : pc.hands = (s.threads t).hands) : content (s.go t pc) = content s := by
  funext l
  cases l with
  | inl q => rfl
  | inr t' =>
    show (update s.threads t pc t').hands = (s.threads t').hands
    by_cases ht : t' = t
    · rw [ht, Function.update_self, h]
    · rw [Function.update_of_ne ht]

theorem content_take {rest : List ℕ} (hqueue : (s.pool q).queue = e :: rest)
    (hhands : (s.threads t).hands = []) (hpc : pc.hands = [e]) (hp : p.queue = rest) :
    content ((s.setPool q p).go t pc) = move (content s) (.inl q) (.inr t) e false := by
  funext l
  cases l with
  | inl q' =>
    show (update s.pool q p q').queue = _
    by_cases hq : q' = q
    · rw [hq, Places.move_from Sum.inl_ne_inr, Function.update_self, hp]
      show rest = (s.pool q).queue.erase e
      rw [hqueue, List.erase_cons_head]
    · rw [Places.move_of_ne (by simp [hq]) Sum.inl_ne_inr, Function.update_of_ne hq]
      rfl
  | inr t' =>
    show (update s.threads t pc t').hands = _
    by_cases ht : t' = t
    · rw [ht, Places.move_to, Function.update_self, hpc]
      show [e] = (s.threads t).hands ++ [e]
      rw [hhands, List.nil_append]
    · rw [Places.move_of_ne Sum.inr_ne_inl (by simp [ht]), Function.update_of_ne ht]
      rfl

theorem content_insert (hhands : (s.threads t).hands = [e]) :
    content (s.insert t w e) = move (content s) (.inr t) (.inl w.target) e false := by
  funext l
  cases l with
  | inl q =>
    show (update s.pool w.target _ q).queue = _
    by_cases hq : q = w.target
    · rw [hq, Places.move_to, Function.update_self]
      rfl
    · rw [Places.move_of_ne Sum.inl_ne_inr (by simp [hq]), Function.update_of_ne hq]
      rfl
  | inr t' =>
    show (update s.threads t (.posting w) t').hands = _
    by_cases ht : t' = t
    · rw [ht, Places.move_from Sum.inr_ne_inl, Function.update_self]
      show [] = (s.threads t).hands.erase e
      rw [hhands, List.erase_cons_head]
    · rw [Places.move_of_ne (by simp [ht]) Sum.inr_ne_inl, Function.update_of_ne ht]
      rfl

/-- The messages stay placed. -/
theorem Change.placed (h : Change s t s')
    (hplaced : Placed (· < EC_ASYNC_MESSAGE_LOOP_COUNT) (content s)) :
    Placed (· < EC_ASYNC_MESSAGE_LOOP_COUNT) (content s') := by
  cases h with
  | go hfrom hto => rwa [content_go (hto.1.trans hfrom.1.symm)]
  | wait hpc => rwa [content_go (by rw [setPool_threads, hpc]; rfl), content_setPool (by rfl)]
  | miss hpc => rwa [content_go (by rw [hpc]; exact (bare_after _).1)]
  | take hpc hqueue =>
    rw [content_take hqueue (by rw [hpc]; rfl) rfl rfl]
    exact hplaced.move Sum.inl_ne_inr (by rw [content, hqueue]; exact List.mem_cons_self)
  | handle hpc =>
    rwa [content_go (by rw [handle_threads, hpc]; rfl), content_handle]
  | insert hpc =>
    have hhands : (s.threads t).hands = [_] := congrArg Pc.hands hpc
    rw [content_insert hhands]
    exact hplaced.move Sum.inr_ne_inl (by rw [content, hhands]; exact List.mem_singleton_self _)
  | post hpc =>
    rwa [content_go (by rw [setPool_threads, hpc]; exact (bare_after _).1), content_setPool (by rfl)]

theorem roles_update (hroles : Roles s) (hthreads : s'.threads = update s.threads t pc)
    (hpc : ∀ b ∈ pc.loop?, b = t.isNone) : Roles s' := by
  intro t'
  rw [hthreads]
  by_cases ht : t' = t
  · rw [ht, Function.update_self]
    exact hpc
  · rw [Function.update_of_ne ht]
    exact hroles t'

theorem Change.roles (h : Change s t s') (hroles : Roles s) : Roles s' := by
  have hrole := hroles t
  cases h with
  | go hfrom hto hloop => exact roles_update hroles rfl hloop
  | wait hpc =>
    rw [hpc] at hrole
    exact roles_update hroles rfl hrole
  | miss hpc =>
    rw [hpc] at hrole
    exact roles_update hroles rfl fun b hb => (loop?_after _ b hb).trans (hrole _ rfl)
  | take hpc =>
    rw [hpc] at hrole
    exact roles_update hroles rfl hrole
  | @handle w e hpc =>
    have hthreads : ((s.handle e w).go t (.ready w e)).threads =
        update s.threads t (.ready w e) := by rw [go_threads, handle_threads]
    rw [hpc] at hrole
    exact roles_update hroles hthreads hrole
  | insert hpc =>
    rw [hpc] at hrole
    exact roles_update hroles rfl hrole
  | post hpc =>
    rw [hpc] at hrole
    exact roles_update hroles rfl fun b hb => (loop?_after _ b hb).trans (hrole _ rfl)

/-! ## What the semaphores count -/

variable [Fintype T]

/-- The semaphore and the threads in the calls count the queue. -/
def Counts (s : State T) : Prop :=
  ∀ q, (s.pool q).availCnt + ∑ t, (s.threads t).uncounted q = (s.pool q).queue.length

theorem sum_uncounted_update (f : Option T → Pc) (t : Option T) (pc : Pc) (q : Queue) :
    ∑ t', (update f t pc t').uncounted q + (f t).uncounted q =
      ∑ t', (f t').uncounted q + pc.uncounted q := by
  have hnew : ∀ t', (update f t pc t').uncounted q =
      update (fun t' => (f t').uncounted q) t (pc.uncounted q) t' := by
    intro t'
    by_cases ht : t' = t
    · rw [ht, Function.update_self, Function.update_self]
    · rw [Function.update_of_ne ht, Function.update_of_ne ht]
  rw [Finset.sum_congr rfl fun t' _ => hnew t', Finset.sum_update_of_mem (Finset.mem_univ t),
    Finset.sdiff_singleton_eq_erase, Nat.add_assoc, Finset.sum_erase_add _ _ (Finset.mem_univ t),
    Nat.add_comm]

/-- One thread has moved on, and one queue has changed. -/
theorem counts_update (hcounts : Counts s) (hpool : s'.pool = update s.pool q p)
    (hthreads : s'.threads = update s.threads t pc)
    (hother : ∀ q', q' ≠ q → pc.uncounted q' = (s.threads t).uncounted q')
    (hq : p.availCnt + pc.uncounted q + (s.pool q).queue.length =
      (s.pool q).availCnt + (s.threads t).uncounted q + p.queue.length) : Counts s' := by
  intro q'
  have hsum := sum_uncounted_update s.threads t pc q'
  have hold := hcounts q'
  rw [hpool, hthreads]
  by_cases hne : q' = q
  · subst hne
    rw [Function.update_self]
    omega
  · rw [Function.update_of_ne hne]
    rw [hother q' hne] at hsum
    omega

/-- A thread that has waited finds a message. -/
theorem Counts.queue_ne_nil (hcounts : Counts s) (hpc : s.threads t = .waited w) :
    (s.pool w.source).queue ≠ [] := by
  intro hqueue
  have hsum := sum_uncounted_update s.threads t .idle w.source
  have hq := hcounts w.source
  have hone : (Pc.waited w).uncounted w.source = 1 := if_pos rfl
  rw [hpc, hone] at hsum
  rw [hqueue, List.length_nil] at hq
  have hidle : Pc.idle.uncounted w.source = 0 := rfl
  omega

theorem Change.counts (h : Change s t s') (hcounts : Counts s) : Counts s' := by
  cases h with
  | @go pc hfrom hto hloop =>
    refine counts_update (q := .avail) hcounts (Function.update_eq_self _ _).symm rfl ?_ ?_
    · intro q _
      rw [hfrom.2, hto.2]
    · rw [hfrom.2, hto.2, go_pool]
  | @wait w hpc hcnt =>
    refine counts_update hcounts rfl rfl ?_ ?_
    · intro q hq
      rw [hpc]
      exact if_neg (Ne.symm hq)
    · have hone : (Pc.waited w).uncounted w.source = 1 := if_pos rfl
      have hzero : (Pc.wait w).uncounted w.source = 0 := rfl
      rw [hpc, hone, hzero, MsgPool.wait]
      dsimp only
      omega
  | miss hpc hqueue => exact absurd hqueue (hcounts.queue_ne_nil hpc)
  | @take w e rest hpc hqueue =>
    refine counts_update hcounts rfl rfl ?_ ?_
    · intro q hq
      rw [hpc]
      exact (if_neg (Ne.symm hq)).symm
    · have hone : (Pc.waited w).uncounted w.source = 1 := if_pos rfl
      have hzero : (Pc.has w e).uncounted w.source = 0 := rfl
      rw [hpc, hone, hzero, hqueue, MsgPool.remove, List.length_cons]
      dsimp only
      omega
  | @handle w e hpc =>
    have hthreads : ((s.handle e w).go t (.ready w e)).threads =
        update s.threads t (.ready w e) := by rw [go_threads, handle_threads]
    refine counts_update (q := .avail) hcounts
      (by rw [go_pool, handle_pool, Function.update_eq_self]) hthreads ?_ ?_
    · intro q _
      rw [hpc]
      rfl
    · rw [hpc]
      rfl
  | @insert w e hpc =>
    refine counts_update (q := w.target) hcounts rfl rfl ?_ ?_
    · intro q hq
      rw [hpc]
      exact if_neg (Ne.symm hq)
    · have hone : (Pc.posting w).uncounted w.target = 1 := if_pos rfl
      have hzero : (Pc.ready w e).uncounted w.target = 0 := rfl
      rw [hpc, hone, hzero, MsgPool.insertTail, List.length_append, List.length_singleton]
      dsimp only
      omega
  | @post w hpc =>
    refine counts_update hcounts rfl rfl ?_ ?_
    · intro q hq
      rw [hpc, (bare_after w).2]
      exact (if_neg (Ne.symm hq)).symm
    · have hone : (Pc.posting w).uncounted w.target = 1 := if_pos rfl
      rw [hpc, hone, (bare_after w).2, MsgPool.post]

end

/-! ## The order of execution -/

/-- The message that the thread of the loop has taken and not executed. -/
def Pc.unexecuted : Pc → List ℕ
  | .has .step e => [e]
  | _ => []

theorem Pc.unexecuted_of_bare {pc : Pc} (h : pc.hands = []) : pc.unexecuted = [] := by
  cases pc with
  | has w e => cases h
  | _ => rfl

theorem Pc.mem_hands_of_unexecuted {pc : Pc} {e : ℕ} (h : e ∈ pc.unexecuted) : e ∈ pc.hands := by
  cases pc with
  | has w e' =>
    cases w with
    | step => exact h
    | _ => cases h
  | _ => cases h

section
variable {T : Type*} {s s' : State T}

/-- What has been scheduled has been executed, or will be next, or is in the queue. -/
def Ordered (s : State T) : Prop :=
  s.scheduled = s.executed ++
    ((s.threads none).unexecuted ++ (s.pool .exec).queue).map fun e => (e, s.msg e)

/-- Nothing that matters for the order has changed. -/
theorem Ordered.keep (hordered : Ordered s) (hscheduled : s'.scheduled = s.scheduled)
    (hexecuted : s'.executed = s.executed) (hmsg : s'.msg = s.msg)
    (hqueue : (s'.pool .exec).queue = (s.pool .exec).queue)
    (hthreads : (s'.threads none).unexecuted = (s.threads none).unexecuted) : Ordered s' := by
  unfold Ordered
  rw [hscheduled, hexecuted, hmsg, hqueue, hthreads]
  exact hordered

/-- A call that sets a message only changes that. -/
theorem handle_of_ne_step {w : Work} {e : ℕ} (h : w ≠ .step) :
    ∃ m, s.handle e w = { s with msg := update s.msg e m } := by
  cases w with
  | step => exact absurd rfl h
  | group gid next => exact ⟨_, rfl⟩
  | dcsoffset value => exact ⟨_, rfl⟩

end

section
variable {T : Type*} [DecidableEq T] {s s' : State T} {t : Option T}

theorem unexecuted_update {f : Option T → Pc} {pc : Pc} (h : pc.unexecuted = (f t).unexecuted) :
    (update f t pc none).unexecuted = (f none).unexecuted := by
  by_cases ht : none = t
  · rw [← ht, Function.update_self, h, ht]
  · rw [Function.update_of_ne ht]

theorem queue_update {f : Queue → MsgPool} {q q' : Queue} {p : MsgPool}
    (h : p.queue = (f q).queue) : (update f q p q').queue = (f q').queue := by
  by_cases hq : q' = q
  · rw [hq, Function.update_self, h]
  · rw [Function.update_of_ne hq]

/-- A call of a thread other than that of the loop. -/
theorem Work.of_ne_step {w : Work} (h : w ≠ .step) : w.source = .avail ∧ w.target = .exec := by
  cases w with
  | step => exact absurd rfl h
  | _ => exact ⟨rfl, rfl⟩

theorem Pc.unexecuted_has {w : Work} {e : ℕ} (h : w ≠ .step) : (Pc.has w e).unexecuted = [] := by
  cases w with
  | step => exact absurd rfl h
  | _ => rfl

theorem Change.ordered (h : Change s t s') (hroles : Roles s)
    (hplaced : Placed (· < EC_ASYNC_MESSAGE_LOOP_COUNT) (content s)) (hordered : Ordered s) :
    Ordered s' := by
  have hrole := hroles t
  cases h with
  | @go pc hfrom hto hloop =>
    refine hordered.keep rfl rfl rfl rfl (unexecuted_update ?_)
    rw [Pc.unexecuted_of_bare hfrom.1, Pc.unexecuted_of_bare hto.1]
  | @wait w hpc hcnt =>
    refine hordered.keep rfl rfl rfl (queue_update (by rfl)) (unexecuted_update ?_)
    rw [setPool_threads, hpc]
    rfl
  | @miss w hpc hqueue =>
    refine hordered.keep rfl rfl rfl rfl (unexecuted_update ?_)
    rw [hpc, Pc.unexecuted_of_bare (bare_after w).1]
    rfl
  | @take w e rest hpc hqueue =>
    rw [hpc] at hrole
    have hw := hrole _ rfl
    by_cases hstep : w = .step
    · subst hstep
      obtain rfl : t = none := Option.isNone_iff_eq_none.1 hw.symm
      unfold Ordered at hordered ⊢
      rw [hpc, show (s.pool .exec).queue = e :: rest from hqueue] at hordered
      rw [go_scheduled, setPool_scheduled, hordered]
      rfl
    · refine hordered.keep rfl rfl rfl ?_ (unexecuted_update ?_)
      · rw [go_pool, setPool_pool, (Work.of_ne_step hstep).1, Function.update_of_ne (by simp)]
      · rw [Pc.unexecuted_has hstep, setPool_threads, hpc]
        rfl
  | @handle w e hpc =>
    have hhands : e ∈ content s (.inr t) := by
      rw [content, hpc]
      exact List.mem_singleton_self e
    rw [hpc] at hrole
    have hw := hrole _ rfl
    by_cases hstep : w = .step
    · subst hstep
      obtain rfl : t = none := Option.isNone_iff_eq_none.1 hw.symm
      unfold Ordered at hordered ⊢
      rw [hpc] at hordered
      rw [go_scheduled, handle_scheduled, hordered, go_threads, Function.update_self]
      simp [State.handle, Pc.unexecuted]
    · have ht : t ≠ none := by
        rintro rfl
        exact hstep (of_decide_eq_true hw)
      obtain ⟨m, hm⟩ := handle_of_ne_step (s := s) (e := e) hstep
      have hthreads : (update s.threads t (.ready w e) none).unexecuted =
          (s.threads none).unexecuted := by rw [Function.update_of_ne ht.symm]
      -- The message is in the hands of the thread, and not among those to be executed.
      have hother : ∀ x ∈ (s.threads none).unexecuted ++ (s.pool .exec).queue, x ≠ e := by
        rintro x hx rfl
        rcases List.mem_append.1 hx with hx | hx
        · have := hplaced.alone (.inr none) (.inr t) x (Pc.mem_hands_of_unexecuted hx) hhands
          exact ht (Sum.inr_injective this).symm
        · exact absurd (hplaced.alone (.inl .exec) (.inr t) x hx hhands) Sum.inl_ne_inr
      have hmap : ((s.threads none).unexecuted ++ (s.pool .exec).queue).map
          (fun x => (x, update s.msg e m x)) =
          ((s.threads none).unexecuted ++ (s.pool .exec).queue).map fun x => (x, s.msg x) :=
        List.map_congr_left fun x hx => by rw [Function.update_of_ne (hother x hx)]
      rw [hm]
      unfold Ordered at hordered ⊢
      rw [go_threads, hthreads]
      exact hordered.trans (congrArg (s.executed ++ ·) hmap.symm)
  | @insert w e hpc =>
    rw [hpc] at hrole
    have hw := hrole _ rfl
    by_cases hstep : w = .step
    · subst hstep
      refine hordered.keep rfl rfl rfl (by rfl) (unexecuted_update ?_)
      rw [setPool_threads, schedule_threads, hpc]
      rfl
    · have htarget := (Work.of_ne_step hstep).2
      have hthreads : (update s.threads t (.posting w) none).unexecuted =
          (s.threads none).unexecuted := unexecuted_update (by rw [hpc]; rfl)
      have hqueue : ((s.insert t w e).pool .exec).queue = (s.pool .exec).queue ++ [e] := by
        unfold State.insert
        rw [go_pool, setPool_pool, htarget, Function.update_self]
        rfl
      have hscheduled : (s.insert t w e).scheduled = s.scheduled ++ [(e, s.msg e)] := if_pos htarget
      have hmsg : (s.insert t w e).msg = s.msg := rfl
      have hexecuted : (s.insert t w e).executed = s.executed := rfl
      have hpcs : (s.insert t w e).threads = update s.threads t (.posting w) := rfl
      unfold Ordered at hordered ⊢
      rw [hscheduled, hqueue, hmsg, hexecuted, hpcs, hthreads, hordered]
      simp only [List.map_append, List.map_cons, List.map_nil, List.append_assoc]
  | @post w hpc =>
    refine hordered.keep rfl rfl rfl (queue_update (by rfl)) (unexecuted_update ?_)
    rw [setPool_threads, hpc, Pc.unexecuted_of_bare (bare_after w).1]
    rfl

end

/-! ## Every run -/

theorem content_created {T : Type*} {l : Queue ⊕ Option T} {e : ℕ}
    (h : e ∈ content (created T) l) : l = .inl .avail := by
  obtain (_ | _) | t := l
  · rfl
  · cases h
  · cases h

section
variable {T : Type*} [Fintype T]

/-- What holds in every state of a run. -/
structure Inv (s : State T) : Prop where
  roles : Roles s
  placed : Placed (· < EC_ASYNC_MESSAGE_LOOP_COUNT) (content s)
  counts : Counts s
  ordered : Ordered s

theorem inv_created : Inv (created T) where
  roles _ _ hb := by cases hb
  placed := {
    nodup := by
      rintro ((_ | _) | t)
      · exact List.nodup_range
      · exact List.nodup_nil
      · exact List.nodup_nil
    place := fun e he => ⟨.inl .avail, List.mem_range.2 he⟩
    all := by
      rintro ((_ | _) | t) e he
      · exact List.mem_range.1 he
      · cases he
      · cases he
    alone := fun l l' e he he' => (content_created he).trans (content_created he').symm }
  counts q := by cases q <;> simp [created, Pc.uncounted]
  ordered := rfl

/-- A put into the queue is in progress. -/
def PutInProgress (s : State T) (q : Queue) : Prop :=
  ∃ t w, s.threads t = .posting w ∧ w.target = q

/-- The threads that have waited for the semaphore of the queue and have no message yet. -/
def waiting (s : State T) (q : Queue) : Finset (Option T) :=
  Finset.univ.filter fun t => (s.threads t).waitedFor q = true

/-- Each message is in one place, and only once; they are executed in the order in which they have
been scheduled; and the semaphores count the queues. -/
structure Conserved (s : State T) : Prop where
  placed : ∀ e < EC_ASYNC_MESSAGE_LOOP_COUNT, ∃! l, e ∈ content s l
  once : ∀ l, (content s l).Nodup
  order : s.executed <+: s.scheduled
  counted : ∀ q, ¬ PutInProgress s q →
    (s.pool q).availCnt + (waiting s q).card = (s.pool q).queue.length

theorem uncounted_of_not_posting {pc : Pc} {q : Queue} (h : ∀ w, pc = .posting w → w.target ≠ q) :
    pc.uncounted q = if pc.waitedFor q = true then 1 else 0 := by
  cases pc with
  | waited w => simp [Pc.uncounted, Pc.waitedFor]
  | posting w => simp [Pc.uncounted, Pc.waitedFor, h w rfl]
  | _ => rfl

theorem Inv.conserved {s : State T} (h : Inv s) : Conserved s where
  placed _ he := h.placed.existsUnique he
  once := h.placed.nodup
  order := by
    rw [h.ordered]
    exact List.prefix_append _ _
  counted q hput := by
    rw [← h.counts q, waiting, Finset.card_filter]
    congr 1
    refine Finset.sum_congr rfl fun t _ => ?_
    exact (uncounted_of_not_posting fun w hpc hw => hput ⟨t, w, hpc, hw⟩).symm

variable [DecidableEq T]

theorem Inv.step {s s' : State T} {a : Option T × Action} (h : Inv s) (hstep : step s a = some s') :
    Inv s' := by
  have hchange : Change s a.1 s' := change_of_step h.roles hstep
  exact ⟨hchange.roles h.roles, hchange.placed h.placed, hchange.counts h.counts,
    hchange.ordered h.roles h.placed h.ordered⟩

/-- A thread that has waited gets a message. -/
def Yields (s : State T) (a : Option T × Action) : Prop :=
  a.2 = .take → ∀ s', step s a = some s' → ∃ w e, s'.threads a.1 = .has w e

theorem Inv.yields {s : State T} (h : Inv s) (a : Option T × Action) : Yields s a := by
  obtain ⟨t, a⟩ := a
  rintro rfl s' hstep
  unfold Async.step threadStep at hstep
  cases hpc : s.threads t with
  | waited w =>
    simp only [hpc] at hstep
    split_ifs at hstep
    obtain rfl := Option.some.inj hstep
    unfold State.take
    cases hqueue : (s.pool w.source).queue with
    | nil => exact absurd hqueue (h.counts.queue_ne_nil hpc)
    | cons e rest => exact ⟨w, e, Function.update_self ..⟩
  | _ =>
    simp only [hpc] at hstep
    cases hstep

/-- **The messages are conserved** in every run, and a wait that succeeds yields one. -/
theorem messages_conserved {acts : List (Option T × Action)} {s : State T}
    (hrun : Runs.run step (created T) acts = some s) :
    Conserved s ∧ Runs.RunOk step Yields (created T) acts :=
  ⟨(Runs.run_induction (fun _ _ _ h hstep => h.step hstep) inv_created hrun).conserved,
    Runs.runOk_of_inv (fun _ _ _ h hstep => h.step hstep) (fun _ a h => h.yields a) inv_created⟩

end

/-- A group is scheduled while the thread of the loop waits, and executed. -/
def groupRun : List (Option Unit × Action) :=
  [(none, .loopStep), (some (), .checkGroup 3), (some (), .timer false), (some (), .wait),
    (some (), .take), (some (), .handle), (some (), .insert), (some (), .post), (none, .wait),
    (none, .take), (none, .handle), (none, .insert), (none, .post)]

theorem messages_conserved_group : ∃ s, Runs.run step (created Unit) groupRun = some s ∧
    Conserved s ∧ Runs.RunOk step Yields (created Unit) groupRun ∧
    s.executed = [(0, ⟨.checkGroup, 3⟩)] := by
  have hmap : (Runs.run step (created Unit) groupRun).map State.executed =
      some [(0, ⟨.checkGroup, 3⟩)] := by decide +kernel
  obtain ⟨s, hs, hexecuted⟩ := Option.map_eq_some_iff.1 hmap
  exact ⟨s, hs, (messages_conserved hs).1, (messages_conserved hs).2, hexecuted⟩

end LibEthercat.Async
