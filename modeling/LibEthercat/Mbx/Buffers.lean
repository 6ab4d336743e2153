import LibEthercat.Lib.Runs
import LibEthercat.Lib.Threads
import LibEthercat.Mbx.Programs

/-!
# Where the mailbox buffers are

A buffer is in a free pool, in a queue, or in the hand of the thread that took it out of one. Every
slave has a thread that handles its mailbox; any number of clients call the functions of
`Mbx.Programs`, for any slave. A run is any order of their steps. The locks are left out, as they only
forbid orders, but for `transition_mutex`: `ec_mbx_init` and `ec_mbx_deinit` of a slave are not called
at the same time.
-/

namespace LibEthercat.Mbx.Buffers

open Function (update)
open Handoff (Stmt Rules Env exec flow has)
open Places

/-! ## Functions -/

inductive Fn
  | coeSdoRead
  | coeSdoWriteExpedited
  | coeSdoWriteNormal
  | coeOdlistRead
  | coeSdoDescRead
  | coeSdoEntryDescRead
  | soeRead
  | soeWrite
  | foeRead
  | foeWrite
  | eoeSetIpParameter
  | eoeSendFrame
  | mbxGatewayHandle
  | mbxInit
  | mbxDeinit
deriving DecidableEq

def Fn.code : Fn → Code
  | .coeSdoRead => Buffers.coeSdoRead
  | .coeSdoWriteExpedited => Buffers.coeSdoWriteExpedited
  | .coeSdoWriteNormal => Buffers.coeSdoWriteNormal
  | .coeOdlistRead => Buffers.coeOdlistRead
  | .coeSdoDescRead => Buffers.coeSdoDescRead
  | .coeSdoEntryDescRead => Buffers.coeSdoEntryDescRead
  | .soeRead => Buffers.soeRead
  | .soeWrite => Buffers.soeWrite
  | .foeRead => Buffers.foeRead
  | .foeWrite => Buffers.foeWrite
  | .eoeSetIpParameter => Buffers.eoeSetIpParameter
  | .eoeSendFrame => Buffers.eoeSendFrame
  | .mbxGatewayHandle => Buffers.mbxGatewayHandle
  | .mbxInit => Buffers.mbxInit
  | .mbxDeinit => Buffers.mbxDeinit

/-- It is called under `transition_mutex`. -/
def Fn.transition (f : Fn) : Bool := f = .mbxInit || f = .mbxDeinit

/-! ## Buffers and places -/

inductive Dir
  | recv
  | send
deriving DecidableEq

/-- An entry of `mbx_mp_recv_free_entries` or `mbx_mp_send_free_entries`. -/
structure Buf where
  dir : Dir
  idx : ℕ
deriving DecidableEq

def Queue.dir : Queue → Dir
  | .sendFree | .sendQueued => .send
  | _ => .recv

/-- Which protocol the slave supports, if there are messages in this queue. -/
def Queue.protocol : Queue → Option Queue
  | .coe => some .coe
  | .soe => some .soe
  | .foe => some .foe
  | .eoe | .response => some .eoe
  | _ => none

inductive Tid
  | handler (slave : ℕ)
  | client (k : ℕ)
deriving DecidableEq

def Tid.isHandler : Tid → Bool
  | .handler _ => true
  | .client _ => false

inductive Place
  | pool (slave : Option ℕ) (q : Queue)
  | hand (t : Tid)
deriving DecidableEq

/-- What a function that is called for the slave means by a pool. -/
def place (slave : ℕ) (q : Queue) : Place :=
  match q with
  | .recvFree | .sendFree | .gateway => .pool none q
  | _ => .pool (some slave) q

theorem place_inj {n n' : ℕ} {q q' : Queue} (h : place n q = place n' q') : q = q' := by
  cases q <;> cases q' <;> cases h <;> rfl

theorem slave_of_place {n n' : ℕ} {q : Queue} (hq : q.protocol ≠ none)
    (h : place n q = place n' q) : n = n' := by
  cases q <;> cases h <;> first | rfl | exact absurd rfl hq

theorem place_ne_hand (n : ℕ) (q : Queue) (t : Tid) : place n q ≠ .hand t := by
  cases q <;> simp [place]

/-- The pool that the buffer belongs to. -/
def Buf.free (b : Buf) : Place :=
  .pool none (match b.dir with | .recv => .recvFree | .send => .sendFree)

/-! ## Steps -/

structure Thread where
  slave : ℕ
  /-- What a client has called. -/
  fn : Option Fn
  code : List Code
  vars : Var → Option Buf

structure State where
  content : Place → List Buf
  thread : Tid → Thread
  /-- `handler_running` -/
  running : ℕ → Bool
  /-- The client that has `transition_mutex`. -/
  transition : ℕ → Option ℕ

inductive Action
  /-- The client calls the function. What was in its variables is there before they are assigned. -/
  | call (k slave : ℕ) (f : Fn)
  /-- The thread takes a step; `b` is the value of a condition, or says that a buffer is got. -/
  | run (t : Tid) (b : Bool)
  /-- The function returns. -/
  | leave (k : ℕ)
deriving DecidableEq

/-- `LEC_MAX_MBX_ENTRIES` buffers of each kind, after `ec_open`. -/
def init (cnt : ℕ) : State where
  content
    | .pool none .recvFree => (List.range cnt).map (Buf.mk .recv)
    | .pool none .sendFree => (List.range cnt).map (Buf.mk .send)
    | _ => []
  thread
    | .handler n => ⟨n, none, [], fun _ => none⟩
    | .client _ => ⟨0, none, [], fun _ => none⟩
  running _ := false
  transition _ := none

namespace State

def setThread (s : State) (t : Tid) (th : Thread) : State :=
  { s with thread := update s.thread t th }

@[simp] theorem setThread_content (s : State) (t : Tid) (th : Thread) :
    (s.setThread t th).content = s.content := rfl

@[simp] theorem setThread_running (s : State) (t : Tid) (th : Thread) :
    (s.setThread t th).running = s.running := rfl

@[simp] theorem setThread_transition (s : State) (t : Tid) (th : Thread) :
    (s.setThread t th).transition = s.transition := rfl

@[simp] theorem setThread_self (s : State) (t : Tid) (th : Thread) :
    (s.setThread t th).thread t = th := Function.update_self _ _ _

@[simp] theorem setThread_of_ne (s : State) {t t' : Tid} (th : Thread) (h : t' ≠ t) :
    (s.setThread t th).thread t' = s.thread t' := Function.update_of_ne h _ _

/-- The thread of the slave's mailbox is not there, or has come to its end. -/
def idle (s : State) (slave : ℕ) : Bool := (s.thread (.handler slave)).code.isEmpty

/-- May the condition have this value? -/
def tested (s : State) (supports : ℕ → Queue → Bool) (slave : ℕ) (b : Bool) : Cond → Bool
  | .data => true
  | .running => b == s.running slave
  | .supports q => b == supports slave q

def effect (s : State) (slave : ℕ) : Effect → Option State
  | .setRunning running => some { s with running := update s.running slave running }
  | .create =>
    some (s.setThread (.handler slave) { s.thread (.handler slave) with code := [mbxHandler] })
  | .join => if s.idle slave then some s else none
  | .poolOpen q | .poolClose q => some { s with content := update s.content (place slave q) [] }

end State

section
variable (supports : ℕ → Queue → Bool)

def env (t : Tid) (slave : ℕ) : Env Queue Cond Place where
  queue := place slave
  self := .hand t
  holds c := ∃ q, c = .supports q ∧ supports slave q = true
  queue_inj _ _ h := place_inj h
  queue_ne q := place_ne_hand slave q t

def step (s : State) : Action → Option State
  | .call k slave f =>
    let th := s.thread (.client k)
    if th.fn = none ∧ (f.transition = true → s.transition slave = none) then
      some { s.setThread (.client k) { th with slave := slave, fn := some f, code := [f.code] } with
        transition :=
          if f.transition then update s.transition slave (some k) else s.transition }
    else none
  | .run t b =>
    let th := s.thread t
    match th.code with
    | [] => none
    | .op (.other e) :: k => (s.setThread t { th with code := k }).effect th.slave e
    | .op o :: k =>
      (exec (env supports t th.slave) b s.content th.vars o).map fun (content, vars) =>
        { s.setThread t { th with code := k, vars := vars } with content := content }
    | .test c a d :: k =>
      if s.tested supports th.slave b c then
        some (s.setThread t { th with code := (if b then a else d) :: k })
      else none
    | st :: k =>
      some (s.setThread t { th with code := flow (fun x => (th.vars x).isNone) b st k })
  | .leave k =>
    let th := s.thread (.client k)
    match th.fn with
    | none => none
    | some f =>
      if th.code.isEmpty then
        some { s.setThread (.client k) { th with fn := none } with
          transition := if f.transition then update s.transition th.slave none else s.transition }
      else none

/-- The queue that is opened or closed next. -/
def resets : List Code → Option Queue
  | .op (.other (.poolOpen q)) :: _ | .op (.other (.poolClose q)) :: _ => some q
  | _ => none

/-- The queue from which the thread gets a buffer next. -/
def gets : List Code → Option Queue
  | .op (.get q _ _) :: _ => some q
  | _ => none

/-- Nothing is queued when a queue is closed, or opened again. `ec_soe_read` does not get a message,
and `ec_foe_read` no buffer for an acknowledgement. -/
def ThreadOk (content : Place → List Buf) (t : Tid) (th : Thread) (b : Bool) : Prop :=
  (∀ q ∈ resets th.code, content (place th.slave q) = []) ∧
    (b = true → ∀ q ∈ gets th.code, ¬ (th.fn = some .soeRead ∧ q = .soe) ∧
      ¬ (th.fn = some .foeRead ∧ q = .sendFree ∧
        has (env supports t th.slave) content th.vars .recv = true))

instance (content : Place → List Buf) (t : Tid) (th : Thread) (b : Bool) :
    Decidable (ThreadOk supports content t th b) := inferInstanceAs (Decidable (_ ∧ _))

def StepOk (s : State) : Action → Prop
  | .run t b => ThreadOk supports s.content t (s.thread t) b
  | _ => True

instance (s : State) : ∀ a, Decidable (StepOk supports s a)
  | .run t b => inferInstanceAs (Decidable (ThreadOk supports s.content t (s.thread t) b))
  | .call _ _ _ | .leave _ => .isTrue trivial

variable {supports} in
/-- What a step of a thread is. -/
theorem run_cases {s s' : State} {t : Tid} {b : Bool} (h : step supports s (.run t b) = some s') :
    (∃ e k, (s.thread t).code = .op (.other e) :: k ∧
      (s.setThread t { s.thread t with code := k }).effect (s.thread t).slave e = some s') ∨
    (∃ o k content vars, (s.thread t).code = .op o :: k ∧ (∀ e, o ≠ .other e) ∧
      exec (env supports t (s.thread t).slave) b s.content (s.thread t).vars o =
        some (content, vars) ∧
      s' = { s.setThread t { s.thread t with code := k, vars := vars } with content := content }) ∨
    (∃ st k, (s.thread t).code = st :: k ∧ (∀ o, st ≠ .op o) ∧
      (∀ c a d, st = .test c a d → s.tested supports (s.thread t).slave b c = true) ∧
      s' = s.setThread t { s.thread t with
        code := flow (fun x => ((s.thread t).vars x).isNone) b st k }) := by
  cases hcode : (s.thread t).code with
  | nil => simp [step, hcode] at h
  | cons st k =>
    cases st with
    | op o =>
      cases o with
      | other e => exact Or.inl ⟨e, k, rfl, by simpa [step, hcode] using h⟩
      | _ =>
        simp only [step, hcode, Option.map_eq_some_iff] at h
        obtain ⟨⟨content, vars⟩, hexec, rfl⟩ := h
        exact Or.inr (Or.inl ⟨_, k, content, vars, rfl, (fun e he => by cases he), hexec, rfl⟩)
    | test c a d =>
      have htested : s.tested supports (s.thread t).slave b c = true := by
        by_contra hnot
        simp [step, hcode, hnot] at h
      simp only [step, hcode, if_pos htested] at h
      refine Or.inr (Or.inr ⟨_, k, rfl, (fun o ho => by cases ho), ?_, (Option.some.inj h).symm⟩)
      intro c' a' d' hst
      cases hst
      exact htested
    | _ =>
      simp only [step, hcode] at h
      exact Or.inr (Or.inr ⟨_, k, rfl, (fun o ho => by cases ho), (fun c a d hst => by cases hst),
        (Option.some.inj h).symm⟩)

/-! ## Conservation -/

/-- Every buffer is in one place, and no thread puts, or uses, what it does not have. What the handler
has put into the queue for EoE fragments is read by itself once more, as nobody else takes from there. -/
structure Conserved (cnt : ℕ) (s : State) : Prop where
  unique : ∀ b : Buf, b.idx < cnt → ∃! l, b ∈ s.content l
  nodup : ∀ l, (s.content l).Nodup
  dir : ∀ n q, ∀ b ∈ s.content (place n q), b.dir = q.dir
  puts : ∀ t q x head k b, (s.thread t).code = .op (.put q x head) :: k →
    (s.thread t).vars x = some b → b ∈ s.content (.hand t)
  uses : ∀ t x k b, (s.thread t).code = .op (.access x) :: k → (s.thread t).vars x = some b →
    b ∈ s.content (.hand t) ∨ ∃ n, t = .handler n ∧ b ∈ s.content (place n .eoe)
  /-- A function that returns keeps nothing. -/
  ended : ∀ t, (s.thread t).code = [] → s.content (.hand t) = []
  /-- Queues that are not closed by `ec_mbx_deinit`. -/
  unsupported : ∀ n q p, q.protocol = some p → supports n p = false →
    s.content (place n q) = []

/-- What was in a queue is back in the free pools when the queue has been closed. -/
def Returned (s : State) (a : Action) (s' : State) : Prop :=
  ∀ t b q k buf, a = .run t b → (s.thread t).code = .op (.other (.poolClose q)) :: k →
    buf ∈ s.content (place (s.thread t).slave q) → buf ∈ s'.content buf.free

end

end LibEthercat.Mbx.Buffers
