import LibEthercat.Gateway.Model
import LibEthercat.Lib.Runs

/-!
# Whose reply an answer is

The replies of all slaves to gateway requests wait in one pool, `mbx_gw_recv_pool`. One thread
handles the requests of all clients, one after the other; it waits for the first message in the pool
and takes it for the reply to its request. When the wait ends without a message, the request is
still with the slave, and its reply is put into the pool later.

A run is any order of requests, replies, lost messages, and ends of waits.

**Theorem (`gateway_answers`).** Every answer is made of the reply of the addressed slave to this
very request, as long as no late reply is in the pool when a request is sent, and none comes to the
empty pool while another request waits (`Timely`). From the first step that does not meet this, the
next message taken is a wrong answer.
-/

namespace LibEthercat.Gateway

open LibEthercat.Coe CoeMaster Runs

/-! ## States and steps -/

/-- A message in `mbx_gw_recv_pool`, with the slave that has sent it and the request it replies
to. -/
structure Received where
  slave : ℕ
  request : ℕ
  message : Message

/-- The request that `ec_mbx_gateway_handle` waits for, with its buffer. -/
structure Waiting where
  address : ℕ
  request : ℕ
  buf : Mem

/-- What has been answered with a message of the pool. -/
structure Answered where
  address : ℕ
  request : ℕ
  received : Received
  buf : Mem

structure State where
  /-- `mbx_gw_recv_pool` -/
  recvPool : List Received
  /-- The slaves with requests that they have not replied to. -/
  pending : List (ℕ × ℕ)
  waiting : Option Waiting
  /-- The number of the next request. -/
  next : ℕ
  answered : List Answered

def init : State := ⟨[], [], none, 0, []⟩

inductive Action
  /-- `ec_mbx_gateway_handle` up to the wait. -/
  | request (buf : Mem) (sendFree : Bool) (counter : ℕ)
  /-- The handler of a slave has read its reply. -/
  | reply (slave request : ℕ) (message : Message)
  | lose (slave request : ℕ)
  /-- The wait ends with the first message of the pool. -/
  | take
  /-- The wait ends without one. -/
  | timeout

/-- A request that is sent to a slave, or is over at once. -/
def sendStep (pec : Master) (s : State) (buf : Mem) (sendFree : Bool) (counter : ℕ) : State :=
  if address (mbxMessage buf) = 0 then s
  else
    match sendRequest pec sendFree counter buf with
    | none => s
    | some (slave, sent) =>
      { s with
        pending := (slave, s.next) :: s.pending
        waiting := some ⟨address (mbxMessage buf), s.next, sent⟩
        next := s.next + 1 }

/-- `ec_mbx_do_handle`: what is not for the gateway is put into the pool of its protocol. -/
def enqueue (s : State) (r : Received) : State :=
  if isGateway r.message then { s with recvPool := s.recvPool ++ [r] } else s

def step (pec : Master) (s : State) : Action → Option State
  | .request buf sendFree counter =>
    match s.waiting with
    | none => some (sendStep pec s buf sendFree counter)
    | some _ => none
  | .reply slave request message =>
    if (slave, request) ∈ s.pending then
      some (enqueue { s with pending := s.pending.erase (slave, request) } ⟨slave, request, message⟩)
    else none
  | .lose slave request =>
    if (slave, request) ∈ s.pending then
      some { s with pending := s.pending.erase (slave, request) }
    else none
  | .take =>
    match s.waiting, s.recvPool with
    | some w, r :: rest =>
      some { s with
        recvPool := rest
        waiting := none
        answered := ⟨w.address, w.request, r, takeReply w.buf r.message⟩ :: s.answered }
    | _, _ => none
  | .timeout =>
    match s.waiting, s.recvPool with
    | some _, [] => some { s with waiting := none }
    | _, _ => none

/-! ## Right answers -/

/-- The message is a reply by a slave with this address to this request. -/
structure Received.IsReply (pec : Master) (r : Received) (address request : ℕ) : Prop where
  slave : (pec.slaves r.slave).fixedAddress.toNat = address
  request : r.request = request

/-- Every answer is made of the reply to its request. -/
def AnswersRight (pec : Master) (s : State) : Prop :=
  ∀ a ∈ s.answered, a.received.IsReply pec a.address a.request

/-- No late reply is taken for another one: the pool is empty when a request is sent, and what comes
to the empty pool during a wait is a reply to the request that waits. -/
def Timely (pec : Master) (s : State) : Action → Prop
  | .request buf sendFree counter =>
    address (mbxMessage buf) ≠ 0 → (sendRequest pec sendFree counter buf).isSome → s.recvPool = []
  | .reply _ request message =>
    ∀ w, s.waiting = some w → s.recvPool = [] → isGateway message = true → request = w.request
  | _ => True

/-- Numbers of requests stand for one request and one slave. -/
structure Numbered (pec : Master) (s : State) : Prop where
  pool : ∀ r ∈ s.recvPool, r.request < s.next
  pending : ∀ p ∈ s.pending, p.2 < s.next
  waiting : ∀ w, s.waiting = some w → w.request < s.next
  poolSlave : ∀ w, s.waiting = some w → ∀ r ∈ s.recvPool, r.request = w.request →
    (pec.slaves r.slave).fixedAddress.toNat = w.address
  pendingSlave : ∀ w, s.waiting = some w → ∀ p ∈ s.pending, p.2 = w.request →
    (pec.slaves p.1).fixedAddress.toNat = w.address

/-- What holds as long as replies are timely: a message that waits for the request is its reply. -/
structure Inv (pec : Master) (s : State) : Prop where
  numbered : Numbered pec s
  right : AnswersRight pec s
  first : ∀ w, s.waiting = some w → ∀ r, s.recvPool.head? = some r → r.request = w.request

variable {pec : Master} {s s' : State}

/-! ## What a step does -/

theorem findSlave_address {a slave : ℕ} (h : findSlave pec a = some slave) :
    (pec.slaves slave).fixedAddress.toNat = a := by
  simpa using List.find?_some h

/-- A request is over at once, or waits with a slave that has its address. -/
theorem sendStep_cases (pec : Master) (s : State) (buf : Mem) (sendFree : Bool) (counter : ℕ) :
    sendStep pec s buf sendFree counter = s ∨
      ∃ slave sent, address (mbxMessage buf) ≠ 0 ∧
        sendRequest pec sendFree counter buf = some (slave, sent) ∧
        (pec.slaves slave).fixedAddress.toNat = address (mbxMessage buf) ∧
        sendStep pec s buf sendFree counter =
          { s with
            pending := (slave, s.next) :: s.pending
            waiting := some ⟨address (mbxMessage buf), s.next, sent⟩
            next := s.next + 1 } := by
  unfold sendStep
  by_cases ha : address (mbxMessage buf) = 0
  · exact Or.inl (if_pos ha)
  · rw [if_neg ha]
    cases hsend : sendRequest pec sendFree counter buf with
    | none => exact Or.inl rfl
    | some sent =>
      obtain ⟨slave, sent⟩ := sent
      refine Or.inr ⟨slave, sent, ha, rfl, ?_, rfl⟩
      rw [sendRequest] at hsend
      split at hsend
      · cases hsend
      · next hslave =>
        split_ifs at hsend
        cases hsend
        exact findSlave_address hslave

/-- A step sends a request or not, takes a message away from a slave, and puts it into the pool or
not, takes the first message of the pool, or gives up. -/
theorem step_cases {a : Action} (h : step pec s a = some s') :
    s' = s ∨
    (∃ buf sendFree counter slave sent, a = .request buf sendFree counter ∧ s.waiting = none ∧
      address (mbxMessage buf) ≠ 0 ∧
      sendRequest pec sendFree counter buf = some (slave, sent) ∧
      (pec.slaves slave).fixedAddress.toNat = address (mbxMessage buf) ∧
      s' = { s with
        pending := (slave, s.next) :: s.pending
        waiting := some ⟨address (mbxMessage buf), s.next, sent⟩
        next := s.next + 1 }) ∨
    (∃ p, p ∈ s.pending ∧ s' = { s with pending := s.pending.erase p }) ∨
    (∃ slave request message, a = .reply slave request message ∧ (slave, request) ∈ s.pending ∧
      isGateway message = true ∧
      s' = { s with
        pending := s.pending.erase (slave, request)
        recvPool := s.recvPool ++ [⟨slave, request, message⟩] }) ∨
    (∃ w r rest, a = .take ∧ s.waiting = some w ∧ s.recvPool = r :: rest ∧
      s' = { s with
        recvPool := rest
        waiting := none
        answered := ⟨w.address, w.request, r, takeReply w.buf r.message⟩ :: s.answered }) ∨
    (∃ w, a = .timeout ∧ s.waiting = some w ∧ s.recvPool = [] ∧
      s' = { s with waiting := none }) := by
  cases a with
  | request buf sendFree counter =>
    simp only [step] at h
    cases hw : s.waiting with
    | some w => simp [hw] at h
    | none =>
      simp only [hw, Option.some.injEq] at h
      rcases sendStep_cases pec s buf sendFree counter with heq | ⟨slave, sent, ha, hsend, hs, heq⟩
      · exact Or.inl (h.symm.trans heq)
      · exact Or.inr (Or.inl ⟨buf, sendFree, counter, slave, sent, rfl, rfl, ha, hsend, hs,
          h.symm.trans heq⟩)
  | reply slave request message =>
    simp only [step, enqueue] at h
    split_ifs at h with hp hg
    · exact Or.inr (Or.inr (Or.inr (Or.inl ⟨slave, request, message, rfl, hp, hg,
        (Option.some.inj h).symm⟩)))
    · exact Or.inr (Or.inr (Or.inl ⟨_, hp, (Option.some.inj h).symm⟩))
  | lose slave request =>
    simp only [step] at h
    split_ifs at h with hp
    exact Or.inr (Or.inr (Or.inl ⟨_, hp, (Option.some.inj h).symm⟩))
  | take =>
    simp only [step] at h
    split at h
    · next w r rest hw hpool =>
      exact Or.inr (Or.inr (Or.inr (Or.inr (Or.inl ⟨w, r, rest, rfl, hw, hpool,
        (Option.some.inj h).symm⟩))))
    · cases h
  | timeout =>
    simp only [step] at h
    split at h
    · next w hw hpool =>
      exact Or.inr (Or.inr (Or.inr (Or.inr (Or.inr ⟨w, rfl, hw, hpool,
        (Option.some.inj h).symm⟩))))
    · cases h

/-! ## Invariants -/

theorem numbered_init (pec : Master) : Numbered pec init := by
  constructor <;> simp [init]

/-- The numbers stay in order, timely or not. -/
theorem numbered_step {a : Action} (h : Numbered pec s) (hstep : step pec s a = some s') :
    Numbered pec s' := by
  rcases step_cases hstep with rfl | ⟨buf, _, _, slave, sent, -, hw, -, -, hslave, rfl⟩ |
    ⟨p, hp, rfl⟩ | ⟨slave, request, message, -, hp, -, rfl⟩ | ⟨w, r, rest, -, hw, hpool, rfl⟩ |
    ⟨w, -, hw, hpool, rfl⟩
  · exact h
  · -- a new number for a new request
    refine ⟨fun r hr => Nat.lt_succ_of_lt (h.pool r hr), fun p hp => ?_, fun w hw => ?_,
      fun w hw r hr heq => ?_, fun w hw p hp heq => ?_⟩
    · rcases List.mem_cons.1 hp with rfl | hp
      · exact Nat.lt_succ_self _
      · exact Nat.lt_succ_of_lt (h.pending p hp)
    · cases hw
      exact Nat.lt_succ_self _
    · cases hw
      exact absurd heq (Nat.ne_of_lt (h.pool r hr))
    · cases hw
      rcases List.mem_cons.1 hp with rfl | hp
      · exact hslave
      · exact absurd heq (Nat.ne_of_lt (h.pending p hp))
  · exact ⟨h.pool, fun q hq => h.pending q (List.mem_of_mem_erase hq), h.waiting, h.poolSlave,
      fun w hw q hq => h.pendingSlave w hw q (List.mem_of_mem_erase hq)⟩
  · -- a message comes into the pool
    refine ⟨fun r hr => ?_, fun q hq => h.pending q (List.mem_of_mem_erase hq), h.waiting,
      fun w hw r hr heq => ?_, fun w hw q hq => h.pendingSlave w hw q (List.mem_of_mem_erase hq)⟩
    · rcases List.mem_append.1 hr with hr | hr
      · exact h.pool r hr
      · cases List.mem_singleton.1 hr
        exact h.pending _ hp
    · rcases List.mem_append.1 hr with hr | hr
      · exact h.poolSlave w hw r hr heq
      · cases List.mem_singleton.1 hr
        exact h.pendingSlave w hw _ hp heq
  · have hrest : ∀ x ∈ rest, x ∈ s.recvPool := fun x hx => hpool ▸ List.mem_cons_of_mem r hx
    exact ⟨fun x hx => h.pool x (hrest x hx), h.pending, nofun,
      nofun, nofun⟩
  · exact ⟨h.pool, h.pending, nofun, nofun, nofun⟩

theorem inv_init (pec : Master) : Inv pec init :=
  ⟨numbered_init pec, by simp [AnswersRight, init], by simp [init]⟩

/-- **A timely step** keeps the first message of the pool a reply to the request that waits. -/
theorem inv_step {a : Action} (h : Inv pec s) (hok : Timely pec s a)
    (hstep : step pec s a = some s') : Inv pec s' := by
  have hnum := numbered_step h.numbered hstep
  rcases step_cases hstep with rfl | ⟨buf, sendFree, counter, slave, sent, rfl, hw, ha, hsend, -,
    rfl⟩ | ⟨p, hp, rfl⟩ | ⟨slave, request, message, rfl, hp, hg, rfl⟩ |
    ⟨w, r, rest, -, hw, hpool, rfl⟩ | ⟨w, -, hw, hpool, rfl⟩
  · exact h
  · -- the pool is empty
    have hempty : s.recvPool = [] := hok ha (by rw [hsend]; rfl)
    exact ⟨hnum, h.right, fun w hw r hr => by simp [hempty] at hr⟩
  · exact ⟨hnum, h.right, h.first⟩
  · refine ⟨hnum, h.right, fun w hw r hr => ?_⟩
    cases hpool : s.recvPool with
    | nil =>
      simp only [hpool, List.nil_append, List.head?_cons, Option.some.injEq] at hr
      rw [← hr]
      exact hok w hw hpool hg
    | cons x xs =>
      apply h.first w hw
      simpa [hpool] using hr
  · -- the first message is taken
    have hfirst : r.request = w.request := h.first w hw r (by rw [hpool]; rfl)
    refine ⟨hnum, fun a ha => ?_, nofun⟩
    rcases List.mem_cons.1 ha with rfl | ha
    · exact ⟨h.numbered.poolSlave w hw r (by rw [hpool]; exact List.mem_cons_self) hfirst, hfirst⟩
    · exact h.right a ha
  · exact ⟨hnum, h.right, nofun⟩

/-- **A step that is not timely** is one behind which the next message that is taken is a wrong
answer. -/
theorem wrong_of_not_timely {a : Action} (h : Inv pec s) (hok : ¬Timely pec s a)
    (hstep : step pec s a = some s') :
    ∃ t, step pec s' .take = some t ∧ ¬AnswersRight pec t := by
  have htake : ∀ {w r rest}, s'.waiting = some w → s'.recvPool = r :: rest →
      r.request ≠ w.request → ∃ t, step pec s' .take = some t ∧ ¬AnswersRight pec t := by
    intro w r rest hw hpool hne
    refine ⟨{ s' with
        recvPool := rest
        waiting := none
        answered := ⟨w.address, w.request, r, takeReply w.buf r.message⟩ :: s'.answered }, ?_,
      fun hright => hne ?_⟩
    · simp only [step, hw, hpool]
    · exact (hright _ List.mem_cons_self).request
  cases a with
  | request buf sendFree counter =>
    simp only [Timely, not_forall] at hok
    obtain ⟨ha, hsome, hpool⟩ := hok
    obtain ⟨⟨slave, sent⟩, hsend⟩ := Option.isSome_iff_exists.1 hsome
    obtain ⟨r, rest, hpool⟩ := List.exists_cons_of_ne_nil hpool
    simp only [step] at hstep
    split at hstep
    · simp only [sendStep, if_neg ha, hsend, Option.some.injEq] at hstep
      subst hstep
      have hlt := h.numbered.pool r (by rw [hpool]; exact List.mem_cons_self)
      exact htake rfl hpool (Nat.ne_of_lt hlt)
    · cases hstep
  | reply slave request message =>
    simp only [Timely, not_forall] at hok
    obtain ⟨w, hw, hpool, hg, hne⟩ := hok
    simp only [step, enqueue] at hstep
    split_ifs at hstep
    cases hstep
    exact htake hw (by rw [hpool]; rfl) hne
  | lose => exact absurd trivial hok
  | take => exact absurd trivial hok
  | timeout => exact absurd trivial hok

/-- **Whose reply an answer is**, in every run with timely replies; and where they first are not, the
next message that is taken is a wrong answer. -/
theorem gateway_answers (pec : Master) (as : List Action) (s : State)
    (hok : RunOk (step pec) (Timely pec) init as) (hrun : run (step pec) init as = some s) :
    AnswersRight pec s ∧
      ∀ a s', step pec s a = some s' → ¬Timely pec s a →
        ∃ t, step pec s' .take = some t ∧ ¬AnswersRight pec t := by
  have hinv : Inv pec s := runOk_induction (fun _ _ _ => inv_step) (inv_init pec) hok hrun
  exact ⟨hinv.right, fun a s' hstep hnot => wrong_of_not_timely hinv hnot hstep⟩

/-- A message with this address in its mailbox header. -/
def messageFor (a : UInt16) : Message := fun i =>
  [0, 0, UInt8.ofNat a.toNat, UInt8.ofNat (a.toNat / 2 ^ 8)].getD i 0

/-- A request with this address, which stands behind the EtherCAT header. -/
def requestFor (a : UInt16) : Mem := fun i => messageFor a (i - 2)

/-- The reply of slave 1002 comes during the wait. -/
def promptReply : List Action :=
  [.request (requestFor 1002) true 1, .reply 1 0 (messageFor 0x83EA), .take]

theorem gateway_answers_prompt : ∃ s,
    run (step (masterOf [1001, 1002])) init promptReply = some s ∧ s.answered.length = 1 ∧
      AnswersRight (masterOf [1001, 1002]) s := by
  refine ⟨_, rfl, rfl, (gateway_answers (masterOf [1001, 1002]) promptReply _ ?_ rfl).1⟩
  refine .cons (fun _ _ => rfl) rfl (.cons ?_ rfl (.cons trivial rfl trivial))
  intro w hw _ _
  cases hw
  rfl

/-- The reply of slave 1001 comes behind the wait, and then there is a request to slave 1002. -/
def lateReply : List Action :=
  [.request (requestFor 1001) true 1, .timeout, .reply 0 0 (messageFor 0x83E9),
    .request (requestFor 1002) true 2, .take]

/-- The late reply is the answer to the second request. -/
theorem gateway_answers_late : ∃ s,
    run (step (masterOf [1001, 1002])) init lateReply = some s ∧
      ¬AnswersRight (masterOf [1001, 1002]) s := by
  refine ⟨_, rfl, fun hright => ?_⟩
  exact absurd (hright _ List.mem_cons_self).request (by decide)

end LibEthercat.Gateway
