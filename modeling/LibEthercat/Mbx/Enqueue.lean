import LibEthercat.Coe.Sdo

/-!
# What the mailbox handler waits for while it delivers a message

The handler of a slave calls `ec_coe_enqueue` and `ec_eoe_enqueue` with the messages it has received.
An emergency is stored under `coe.lock`, and a CoE call has that lock from its request to its answer,
which the same handler delivers. When the last fragment of an Ethernet frame is there, the handler
itself takes the fragments out of the queue again, and waits for those that are missing. The locks
of the pools and `sync_mutex` are left out: nobody waits for a message while he has one of them.

**Theorem (`waits_run`).** The handler waits neither for a lock whose owner waits for a message nor
for a fragment, if an emergency meets only calls that the messages in the queue bring out of their
wait (`Served`). A call that needs another message has the handler wait for itself (`not_served`),
and for good, if that call is `ec_coe_odlist_read` with fragments to come (`odlist_deadlock`).
-/

namespace LibEthercat.Mbx.Enqueue

open LibEthercat.Coe (Message Ready Ret service u16)

/-! ## Messages -/

def address (m : Message) : ℕ := u16 m 2

def mbxType (m : Message) : ℕ := (m 5).toNat % 2 ^ 4

def EC_MBX_EOE : ℕ := 2

def EC_MBX_COE : ℕ := 3

def EC_COE_EMERGENCY : ℕ := 1

def EC_COE_SDOINFO : ℕ := 8

/-- `sdo_info_hdr.opcode`. -/
def opcode (m : Message) : ℕ := (m 8).toNat % 2 ^ 7

def EC_COE_SDO_INFO_GET_OBJECT_DESC_RESP : ℕ := 4

def EC_COE_SDO_INFO_GET_ENTRY_DESC_RESP : ℕ := 6

def EC_COE_SDO_INFO_ERROR_REQUEST : ℕ := 7

/-- `sdo_info_hdr.fragments_left`. -/
def fragmentsLeft (m : Message) : ℕ := u16 m 10

/-- `eoe_hdr.frame_type`. -/
def frameType (m : Message) : ℕ := (m 6).toNat % 2 ^ 4

def EOE_FRAME_TYPE_SET_IP_ADDRESS_RESPONSE : ℕ := 3

/-- `eoe_hdr.last_fragment`. -/
def lastFragment (m : Message) : Bool := (m 7).toNat % 2 ≠ 0

/-- `eoe_hdr.fragment_number`. -/
def fragmentNumber (m : Message) : ℕ := u16 m 8 % 2 ^ 6

/-! ## Calls with `coe.lock` -/

inductive Request
  | read (index : UInt16) (subIndex : UInt8) (len : ℕ)
  | write (index : UInt16) (subIndex : UInt8) (complete : Bool) (len : ℕ)
  | odlist
  /-- `ec_coe_sdo_desc_read`, or `ec_coe_sdo_entry_desc_read`. -/
  | desc (entry : Bool)
  | emergencyGetNext

/-- A call that has the lock, with what it takes to see when it ends. -/
inductive Call
  | sdo (c : Coe.Sdo.Call)
  | odlist (fragLeft : ℕ)
  | desc (entry : Bool) (ret : Ret)
  | done

def Call.start (smLen : ℕ) (ready : Ready) : Request → Call
  | .read index subIndex len => .sdo (.start smLen ready (.read index subIndex len))
  | .write index subIndex complete len =>
    .sdo (.start smLen ready (.write index subIndex complete len))
  | .odlist => if ready.error.isSome then .done else .odlist 0
  | .desc entry =>
    if ready.error.isSome then .done else .desc entry (if entry then .mailboxRead else .ok)
  | .emergencyGetNext => .done

/-- The call is in `ec_coe_wait`. -/
def Call.waiting : Call → Bool
  | sdo c => c.phase.waiting
  | odlist _ | desc _ _ => true
  | done => false

/-- It sends the next segment of a download. -/
def Call.sending : Call → Bool
  | sdo c => (c.phase matches .segments _ _ _)
  | _ => false

/-- It unlocks next. -/
def Call.over : Call → Bool
  | sdo c => (c.phase matches .done _)
  | done => true
  | _ => false

/-- What a description makes of a message. -/
def descAnswer (entry : Bool) (ret : Ret) (m : Message) : Ret :=
  let response :=
    if entry then EC_COE_SDO_INFO_GET_ENTRY_DESC_RESP else EC_COE_SDO_INFO_GET_OBJECT_DESC_RESP
  if service m = EC_COE_SDOINFO then
    if opcode m = response then .ok
    else if opcode m = EC_COE_SDO_INFO_ERROR_REQUEST then .mailboxAbort
    else ret
  else .mailboxRead

/-- `ec_coe_wait` has returned a message. -/
def Call.take (m : Message) : Call → Call
  | sdo c => .sdo (c.take m)
  | odlist _ => if fragmentsLeft m ≠ 0 then .odlist (fragmentsLeft m) else .done
  | desc entry ret =>
    let ret := descAnswer entry ret m
    if ret = .ok ∨ ret = .mailboxAbort then .done else .desc entry ret
  | done => .done

/-- `ec_coe_wait` has returned nothing. -/
def Call.timeout : Call → Call
  | sdo c => .sdo c.timeout
  | odlist fragLeft => if fragLeft ≠ 0 then .odlist fragLeft else .done
  | desc _ _ | done => .done

def Call.next (buffer : Bool) : Call → Call
  | sdo c => .sdo (c.next buffer)
  | c => c

/-! ## Steps -/

/-- Where the handler is. -/
inductive Handler
  | idle
  /-- `ec_coe_emergency_enqueue` locks `coe.lock`. -/
  | emergency (m : Message)
  /-- `ec_eoe_process_recv` has been called. -/
  | process
  /-- It is in `ec_eoe_wait`, with the first fragments of a frame. -/
  | fragments

/-- A call that has `eoe.lock`. -/
inductive EoeCall
  /-- `ec_eoe_set_ip_parameter` waits for a response. -/
  | setIp
  /-- `ec_eoe_send_frame` waits for `send_sync`. -/
  | send
  | done
deriving DecidableEq

structure State where
  /-- `coe.recv_pool` -/
  coeRecv : List Message
  /-- Who has `coe.lock`. -/
  call : Option Call
  /-- `eoe.recv_pool` -/
  eoeRecv : List Message
  /-- `eoe.response_pool` -/
  responses : List Message
  /-- `eoe.send_sync` -/
  sendSync : ℕ
  /-- Who has `eoe.lock`. -/
  eoeCall : Option EoeCall
  handler : Handler

def init : State := ⟨[], none, [], [], 0, none, .idle⟩

inductive Action
  /-- The handler has received a message. -/
  | receive (m : Message)
  /-- It has written an EoE fragment, and calls `ec_eoe_send_sync`. -/
  | written
  /-- It locks `coe.lock`, stores the emergency and unlocks. -/
  | lockEmergency
  /-- `ec_eoe_process_recv` up to its first wait. `frame` if there is a free Ethernet frame. -/
  | process (frame : Bool)
  | takeFragment
  | fragmentTimeout
  | start (ready : Ready) (request : Request)
  | take
  | timeout
  | next (buffer : Bool)
  | leave
  /-- An EoE call locks `eoe.lock`, and fails, or waits: `send` for `send_sync`. -/
  | eoeStart (ready send : Bool)
  | eoeResponse
  | eoeTimeout
  /-- `more` if there are fragments to send. -/
  | eoeSync (more : Bool)
  | eoeLeave

/-- Is this the next step? -/
def enabled (s : State) : Action → Bool
  | .receive _ | .written => (s.handler matches .idle)
  | .lockEmergency => (s.handler matches .emergency _) ∧ s.call.isNone
  | .process _ => (s.handler matches .process)
  | .takeFragment => (s.handler matches .fragments) ∧ s.eoeRecv ≠ []
  | .fragmentTimeout => (s.handler matches .fragments)
  | .start _ _ => s.call.isNone
  | .take => s.call.any Call.waiting ∧ s.coeRecv ≠ []
  | .timeout => s.call.any Call.waiting
  | .next _ => s.call.any Call.sending
  | .leave => s.call.any Call.over
  | .eoeStart _ _ => s.eoeCall.isNone
  | .eoeResponse => s.eoeCall = some .setIp ∧ s.responses ≠ []
  | .eoeTimeout => s.eoeCall = some .setIp
  | .eoeSync _ => s.eoeCall = some .send ∧ 0 < s.sendSync
  | .eoeLeave => s.eoeCall = some .done

/-- The protocols that the slave supports. -/
structure Support where
  coe : Bool
  eoe : Bool

def coeEnqueue (s : State) (m : Message) : State :=
  if service m = EC_COE_EMERGENCY then { s with handler := .emergency m }
  else if 1 ≤ service m ∧ service m ≤ 8 then { s with coeRecv := s.coeRecv ++ [m] }
  else s

def eoeEnqueue (s : State) (m : Message) : State :=
  if frameType m = EOE_FRAME_TYPE_SET_IP_ADDRESS_RESPONSE then
    { s with responses := s.responses ++ [m] }
  else
    { s with
      eoeRecv := s.eoeRecv ++ [m]
      handler := if lastFragment m then .process else .idle }

/-- `ec_mbx_do_handle`, with a message of these protocols. The other ones have queues of their
own. -/
def mbxReceive (support : Support) (s : State) (m : Message) : State :=
  -- a message for the mailbox gateway
  if address m / 2 ^ 15 % 2 = 1 then s
  else if mbxType m = EC_MBX_COE ∧ support.coe then coeEnqueue s m
  else if mbxType m = EC_MBX_EOE ∧ support.eoe then eoeEnqueue s m
  else s

/-- The first fragment of a frame is taken, or what comes instead of it is dropped; it goes on as
long as there is something in the queue. -/
def eoeProcessRecv (s : State) (frame : Bool) : State :=
  match s.eoeRecv with
  | [] => { s with handler := .idle }
  | m :: rest =>
    let s := { s with eoeRecv := rest }
    if !frame then { s with handler := .idle }
    else if fragmentNumber m ≠ 0 then { s with handler := .process }
    else if lastFragment m then { s with handler := .process }
    else { s with handler := .fragments }

def effect (support : Support) (smLen : ℕ) (s : State) : Action → State
  | .receive m => mbxReceive support s m
  | .written => { s with sendSync := s.sendSync + 1 }
  | .lockEmergency => { s with handler := .idle }
  | .process frame => eoeProcessRecv s frame
  | .takeFragment =>
    match s.eoeRecv with
    | [] => s
    | m :: rest =>
      { s with eoeRecv := rest, handler := if lastFragment m then .process else .fragments }
  | .fragmentTimeout => { s with handler := .process }
  | .start ready request => { s with call := some (.start smLen ready request) }
  | .take =>
    match s.coeRecv with
    | [] => s
    | m :: rest => { s with call := s.call.map (Call.take m), coeRecv := rest }
  | .timeout => { s with call := s.call.map Call.timeout }
  | .next buffer => { s with call := s.call.map (Call.next buffer) }
  | .leave => { s with call := none }
  | .eoeStart ready send =>
    { s with eoeCall := some (if !ready then .done else if send then .send else .setIp) }
  | .eoeResponse => { s with eoeCall := some .done, responses := s.responses.tail }
  | .eoeTimeout => { s with eoeCall := some .done }
  | .eoeSync more =>
    { s with eoeCall := some (if more then .send else .done), sendSync := s.sendSync - 1 }
  | .eoeLeave => { s with eoeCall := none }

def step (support : Support) (smLen : ℕ) (s : State) (a : Action) : Option State :=
  if enabled s a then some (effect support smLen s a) else none

theorem step_eq_some {support : Support} {smLen : ℕ} {s s' : State} {a : Action} :
    step support smLen s a = some s' ↔ enabled s a = true ∧ s' = effect support smLen s a := by
  unfold step
  by_cases h : enabled s a = true
  · simp [h, eq_comm]
  · simp [h]

/-! ## Property and condition -/

/-- The handler waits for `coe.lock`, and the call that has it waits for a message. -/
def WaitsForLock (s : State) : Prop :=
  (∃ m, s.handler = .emergency m) ∧ (∃ c, s.call = some c ∧ c.waiting = true) ∧ s.coeRecv = []

/-- The handler waits for a fragment, and none is there. -/
def WaitsForFragment (s : State) : Prop := s.handler = .fragments ∧ s.eoeRecv = []

/-- The handler waits for what only the handler can deliver. -/
def WaitsOnItself (s : State) : Prop := WaitsForLock s ∨ WaitsForFragment s

/-- These messages bring the call out of its wait. -/
def Served : List Message → Call → Prop
  | [], c => c.waiting = false
  | m :: rest, c => c.waiting = true → Served rest (c.take m)

/-- The handler locks `coe.lock` for this message. -/
def Emergency (support : Support) (m : Message) : Prop :=
  address m / 2 ^ 15 % 2 ≠ 1 ∧ mbxType m = EC_MBX_COE ∧ support.coe = true ∧
    service m = EC_COE_EMERGENCY

/-- A call that has `coe.lock` while the handler has an emergency needs no other messages than those
in the queue: when the emergency comes, or when the call begins to wait. -/
def EmergencyOk (support : Support) (smLen : ℕ) (s : State) : Action → Prop
  | .receive m => Emergency support m → ∀ c, s.call = some c → Served s.coeRecv c
  | .start ready request => (∃ m, s.handler = .emergency m) →
      Served s.coeRecv (.start smLen ready request)
  | .next buffer => (∃ m, s.handler = .emergency m) →
      ∀ c, s.call = some c → Served s.coeRecv (c.next buffer)
  | _ => True

section
variable {support : Support} {smLen : ℕ} {s s' : State} {a : Action} {c : Call} {m : Message}
  {queue rest : List Message}

/-! ## Calls that are served -/

theorem served_of_not_waiting (h : c.waiting = false) : Served queue c := by
  cases queue with
  | nil => exact h
  | cons m rest => exact fun hwait => absurd (h.symm.trans hwait) (by simp)

theorem Call.sending_not_waiting (h : c.sending = true) : c.waiting = false := by
  cases c with
  | sdo c => cases hphase : c.phase <;> simp_all [sending, waiting, Coe.Sdo.Phase.waiting]
  | odlist | desc | done => cases h

theorem Call.over_not_waiting (h : c.over = true) : c.waiting = false := by
  cases c with
  | sdo c => cases hphase : c.phase <;> simp_all [Call.over, Call.waiting, Coe.Sdo.Phase.waiting]
  | done => rfl
  | odlist | desc => cases h

/-- Only the object list is waited for once more. -/
theorem Call.timeout_waiting (h : c.timeout.waiting = true) : c.timeout = c := by
  cases c with
  | sdo c =>
    obtain ⟨request, phase, seen⟩ := c
    cases phase <;> simp_all [timeout, waiting, Coe.Sdo.Call.timeout, Coe.Sdo.Phase.waiting]
  | odlist fragLeft =>
    simp only [timeout] at h ⊢
    split_ifs at h ⊢
    · rfl
    · cases h
  | desc | done => cases h

/-! ## The invariant -/

/-- The last fragment of a frame is at the end of the queue. -/
def EndsFrame (queue : List Message) : Prop := ∃ m, queue.getLast? = some m ∧ lastFragment m = true

theorem EndsFrame.ne_nil (h : EndsFrame queue) : queue ≠ [] := by
  obtain ⟨m, hm, -⟩ := h
  exact fun hnil => by simp [hnil] at hm

theorem endsFrame_append (h : lastFragment m = true) : EndsFrame (queue ++ [m]) :=
  ⟨m, List.getLast?_concat, h⟩

/-- Behind a fragment that is not the last one, there are others. -/
theorem EndsFrame.tail (h : EndsFrame (m :: rest)) : lastFragment m = true ∧ rest = [] ∨
    EndsFrame rest := by
  obtain ⟨x, hx, hlast⟩ := h
  cases rest with
  | nil =>
    obtain rfl : m = x := by simpa using hx
    exact Or.inl ⟨hlast, rfl⟩
  | cons y rest => exact Or.inr ⟨x, by simpa using hx, hlast⟩

/-- The invariant of the fragments: while the handler takes them, the last fragment of a frame is at
the end. -/
structure FragmentInv (s : State) : Prop where
  process : s.handler = .process → s.eoeRecv = [] ∨ EndsFrame s.eoeRecv
  fragments : s.handler = .fragments → EndsFrame s.eoeRecv

/-- The invariant of the lock. -/
def LockInv (s : State) : Prop :=
  (∃ m, s.handler = .emergency m) → ∀ c, s.call = some c → Served s.coeRecv c

theorem fragmentInv_of_idle (h : s.handler = .idle) : FragmentInv s :=
  ⟨fun hp => by simp [h] at hp, fun hf => by simp [h] at hf⟩

theorem fragmentInv_receive (h : s.handler = .idle) : FragmentInv (mbxReceive support s m) := by
  unfold mbxReceive
  split_ifs
  · exact fragmentInv_of_idle h
  · unfold coeEnqueue
    split_ifs
    · constructor <;> intro hhandler <;> cases hhandler
    · exact fragmentInv_of_idle h
    · exact fragmentInv_of_idle h
  · unfold eoeEnqueue
    split_ifs with hresponse hlast
    · exact fragmentInv_of_idle h
    · exact ⟨fun _ => Or.inr (endsFrame_append hlast), fun hf => by cases hf⟩
    · exact fragmentInv_of_idle rfl
  · exact fragmentInv_of_idle h

theorem fragmentInv_process {frame : Bool} (h : s.eoeRecv = [] ∨ EndsFrame s.eoeRecv) :
    FragmentInv (eoeProcessRecv s frame) := by
  unfold eoeProcessRecv
  cases hqueue : s.eoeRecv with
  | nil => exact fragmentInv_of_idle rfl
  | cons m rest =>
    rw [hqueue] at h
    have htail : lastFragment m = true ∧ rest = [] ∨ EndsFrame rest :=
      (h.resolve_left (List.cons_ne_nil m rest)).tail
    have hgoes : rest = [] ∨ EndsFrame rest := htail.imp_left And.right
    dsimp only
    split_ifs with hframe hfirst hlast
    · exact fragmentInv_of_idle rfl
    · exact ⟨fun _ => hgoes, fun hf => by cases hf⟩
    · exact ⟨fun _ => hgoes, fun hf => by cases hf⟩
    · exact ⟨fun hp => (by cases hp), fun _ => htail.resolve_left fun hm => hlast hm.1⟩

theorem fragmentInv_step (h : FragmentInv s) (hstep : step support smLen s a = some s') :
    FragmentInv s' := by
  obtain ⟨hen, rfl⟩ := step_eq_some.1 hstep
  cases a with
  | receive m =>
    cases hidle : s.handler with
    | idle => exact fragmentInv_receive hidle
    | _ => simp [enabled, hidle] at hen
  | lockEmergency => exact fragmentInv_of_idle rfl
  | process frame =>
    cases hprocess : s.handler with
    | process => exact fragmentInv_process (h.process hprocess)
    | _ => simp [enabled, hprocess] at hen
  | takeFragment =>
    cases hfragments : s.handler with
    | fragments =>
      have hends := h.fragments hfragments
      cases hqueue : s.eoeRecv with
      | nil => exact absurd hqueue hends.ne_nil
      | cons m rest =>
        rw [hqueue] at hends
        simp only [effect, hqueue]
        cases hlast : lastFragment m with
        | true => exact ⟨fun _ => hends.tail.imp_left And.right, fun hf => by cases hf⟩
        | false =>
          exact ⟨fun hp => (by cases hp), fun _ => hends.tail.resolve_left (by simp [hlast])⟩
    | _ => simp [enabled, hfragments] at hen
  | fragmentTimeout =>
    cases hfragments : s.handler with
    | fragments => exact ⟨fun _ => Or.inr (h.fragments hfragments), fun hf => by cases hf⟩
    | _ => simp [enabled, hfragments] at hen
  | take =>
    cases hqueue : s.coeRecv <;> simp only [effect, hqueue] <;> exact ⟨h.process, h.fragments⟩
  | written | start | timeout | next | leave | eoeStart | eoeResponse | eoeTimeout | eoeSync |
    eoeLeave => exact ⟨h.process, h.fragments⟩

/-- The handler finds the fragments that it waits for. -/
theorem fragmentInv_run {acts : List Action}
    (hrun : Runs.run (step support smLen) init acts = some s) : FragmentInv s :=
  Runs.run_induction (fun _ _ _ h hstep => fragmentInv_step h hstep) (fragmentInv_of_idle rfl) hrun

theorem lockInv_of_idle (h : ∀ m, s.handler ≠ .emergency m) : LockInv s :=
  fun ⟨m, hm⟩ => absurd hm (h m)

theorem lockInv_receive (h : s.handler = .idle)
    (hok : Emergency support m → ∀ c, s.call = some c → Served s.coeRecv c) :
    LockInv (mbxReceive support s m) := by
  have hidle : ∀ x, s.handler ≠ .emergency x := by simp [h]
  unfold mbxReceive
  split_ifs with hgateway hcoe
  · exact lockInv_of_idle hidle
  · unfold coeEnqueue
    split_ifs with hservice
    · exact fun _ => hok ⟨hgateway, hcoe.1, hcoe.2, hservice⟩
    · exact lockInv_of_idle hidle
    · exact lockInv_of_idle hidle
  · unfold eoeEnqueue
    split_ifs
    · exact lockInv_of_idle hidle
    · exact lockInv_of_idle (by simp)
    · exact lockInv_of_idle (by simp)
  · exact lockInv_of_idle hidle

theorem eoeProcessRecv_ne_emergency {frame : Bool} :
    (eoeProcessRecv s frame).handler ≠ .emergency m := by
  unfold eoeProcessRecv
  cases s.eoeRecv with
  | nil => simp
  | cons x rest =>
    dsimp only
    split_ifs <;> simp

theorem lockInv_step (h : LockInv s) (hok : EmergencyOk support smLen s a)
    (hstep : step support smLen s a = some s') : LockInv s' := by
  obtain ⟨hen, rfl⟩ := step_eq_some.1 hstep
  cases a with
  | receive m =>
    cases hidle : s.handler with
    | idle => exact lockInv_receive hidle hok
    | _ => simp [enabled, hidle] at hen
  | lockEmergency | fragmentTimeout => exact lockInv_of_idle (by simp [effect])
  | process frame => exact lockInv_of_idle fun m => eoeProcessRecv_ne_emergency
  | takeFragment =>
    cases hqueue : s.eoeRecv with
    | nil => simp [enabled, hqueue] at hen
    | cons x rest =>
      refine lockInv_of_idle fun m => ?_
      simp only [effect, hqueue]
      split_ifs <;> simp
  | start ready request =>
    rintro hhandler c hc
    obtain rfl : Call.start smLen ready request = c := Option.some.inj hc
    exact hok hhandler
  | take =>
    obtain ⟨hwait, hne⟩ := of_decide_eq_true hen
    cases hqueue : s.coeRecv with
    | nil => exact absurd hqueue hne
    | cons m rest =>
      simp only [effect, hqueue]
      intro hhandler c' hc'
      obtain ⟨c, hc, rfl⟩ := Option.map_eq_some_iff.1 hc'
      have hserved := h hhandler c hc
      rw [hqueue] at hserved
      rw [hc] at hwait
      exact hserved hwait
  | timeout =>
    intro hhandler c' hc'
    obtain ⟨c, hc, rfl⟩ := Option.map_eq_some_iff.1 hc'
    cases hwait : c.timeout.waiting with
    | false => exact served_of_not_waiting hwait
    | true =>
      rw [Call.timeout_waiting hwait]
      exact h hhandler c hc
  | next buffer =>
    intro hhandler c' hc'
    obtain ⟨c, hc, rfl⟩ := Option.map_eq_some_iff.1 hc'
    exact hok hhandler c hc
  | leave => exact fun _ c hc => by cases hc
  | written | eoeStart | eoeResponse | eoeTimeout | eoeSync | eoeLeave => exact h

/-- **The handler does not wait for itself**, in any order of calls and messages, if every emergency
meets a call that is served. -/
theorem waits_run {acts : List Action}
    (hok : Runs.RunOk (step support smLen) (EmergencyOk support smLen) init acts)
    (hrun : Runs.run (step support smLen) init acts = some s) : ¬ WaitsOnItself s := by
  have hlock : LockInv s := Runs.runOk_induction (fun _ _ _ h hok hstep => lockInv_step h hok hstep)
    (lockInv_of_idle (by simp [init])) hok hrun
  intro hwaits
  rcases hwaits with ⟨hhandler, ⟨c, hc, hwait⟩, hqueue⟩ | ⟨hfragments, hqueue⟩
  · have hserved := hlock hhandler c hc
    rw [hqueue] at hserved
    exact absurd (hserved.symm.trans hwait) (by simp)
  · exact ((fragmentInv_run hrun).fragments hfragments).ne_nil hqueue

/-! ## What the condition leaves out -/

/-- No other thread lets the handler go, unless the call gives up. -/
theorem waitsForLock_step (h : WaitsForLock s) (htimeout : a ≠ .timeout)
    (hstep : step support smLen s a = some s') : WaitsForLock s' := by
  obtain ⟨hen, rfl⟩ := step_eq_some.1 hstep
  obtain ⟨⟨m, hm⟩, ⟨c, hc, hwait⟩, hqueue⟩ := h
  have hany : ∀ {p : Call → Bool}, s.call.any p = true → p c = true := by simp [hc]
  cases a with
  | receive | written | process | fragmentTimeout => simp [enabled, hm] at hen
  | takeFragment => simp [enabled, hm] at hen
  | lockEmergency | start => simp [enabled, hc] at hen
  | take => simp [enabled, hqueue] at hen
  | timeout => exact absurd rfl htimeout
  | next buffer =>
    have hidle := Call.sending_not_waiting (hany hen)
    exact absurd (hidle.symm.trans hwait) (by simp)
  | leave =>
    have hidle := Call.over_not_waiting (hany hen)
    exact absurd (hidle.symm.trans hwait) (by simp)
  | eoeStart | eoeResponse | eoeTimeout | eoeSync | eoeLeave =>
    exact ⟨⟨m, hm⟩, ⟨c, hc, hwait⟩, hqueue⟩

/-- An emergency that meets a call that is not served: when the call has taken what there is, the
handler waits for itself. -/
theorem not_served (hhandler : s.handler = .emergency m) (hcall : s.call = some c)
    (h : ¬ Served s.coeRecv c) :
    ∃ acts s', Runs.run (step support smLen) s acts = some s' ∧ WaitsForLock s' := by
  generalize hqueue : s.coeRecv = queue at h
  induction queue generalizing s c with
  | nil =>
    have hwait : c.waiting = true := by simpa [Served] using h
    exact ⟨[], s, rfl, ⟨m, hhandler⟩, ⟨c, hcall, hwait⟩, hqueue⟩
  | cons x rest ih =>
    obtain ⟨hwait, hrest⟩ : c.waiting = true ∧ ¬ Served rest (c.take x) := by
      simpa [Served] using h
    have hen : enabled s .take = true := by simp [enabled, hcall, hwait, hqueue]
    have htake : effect support smLen s .take =
        { s with call := some (c.take x), coeRecv := rest } := by simp [effect, hqueue, hcall]
    obtain ⟨acts, s', hrun, hwaits⟩ :=
      ih (s := { s with call := some (c.take x), coeRecv := rest }) hhandler rfl rfl hrest
    have hstep := step_eq_some.2 ⟨hen, htake.symm⟩
    exact ⟨.take :: acts, s', Runs.run_cons_eq_some.2 ⟨_, hstep, hrun⟩, hwaits⟩

/-- The object list has fragments to come, and the handler has an emergency. -/
def OdlistWaits (s : State) : Prop :=
  (∃ m, s.handler = .emergency m) ∧ (∃ n, n ≠ 0 ∧ s.call = some (.odlist n)) ∧ s.coeRecv = []

theorem OdlistWaits.waitsForLock (h : OdlistWaits s) : WaitsForLock s := by
  obtain ⟨hhandler, ⟨n, -, hcall⟩, hqueue⟩ := h
  exact ⟨hhandler, ⟨_, hcall, rfl⟩, hqueue⟩

theorem odlistWaits_step (h : OdlistWaits s) (hstep : step support smLen s a = some s') :
    OdlistWaits s' := by
  obtain ⟨hen, rfl⟩ := step_eq_some.1 hstep
  obtain ⟨⟨m, hm⟩, ⟨n, hn, hcall⟩, hqueue⟩ := h
  cases a with
  | receive | written | process | fragmentTimeout => simp [enabled, hm] at hen
  | takeFragment => simp [enabled, hm] at hen
  | lockEmergency | start => simp [enabled, hcall] at hen
  | take => simp [enabled, hqueue] at hen
  | next | leave => simp [enabled, hcall, Call.sending, Call.over] at hen
  | timeout =>
    refine ⟨⟨m, hm⟩, ⟨n, hn, ?_⟩, hqueue⟩
    simp [effect, hcall, Call.timeout, hn]
  | eoeStart | eoeResponse | eoeTimeout | eoeSync | eoeLeave =>
    exact ⟨⟨m, hm⟩, ⟨n, hn, hcall⟩, hqueue⟩

/-- `ec_coe_odlist_read` does not give up while there are fragments to come: the handler of the slave
never goes on. -/
theorem odlist_deadlock {acts : List Action} (h : OdlistWaits s)
    (hrun : Runs.run (step support smLen) s acts = some s') : WaitsForLock s' :=
  (Runs.run_induction (fun _ _ _ h hstep => odlistWaits_step h hstep) h hrun).waitsForLock

end

def message (bytes : List UInt8) : Message := fun i => bytes.getD i 0

/-- An emergency. -/
def emergency : Message := message [10, 0, 0, 0, 0, 3, 0, 0x10]

/-- Two fragments of an Ethernet frame. -/
def eoeFragments : Message × Message :=
  (message [36, 0, 0, 0, 0, 2, 0, 0, 0x80], message [36, 0, 0, 0, 0, 2, 0, 1, 0x41])

/-- An emergency comes between the answer and the call that waits for it, and then a frame. -/
def servedRun : List Action :=
  [.start .all (.read 0x1018 1 8), .receive Coe.eightBytes, .receive emergency, .take, .leave,
    .lockEmergency, .receive eoeFragments.1, .receive eoeFragments.2, .process true]

theorem waits_servedRun :
    ∃ s, Runs.run (step ⟨true, true⟩ 128) init servedRun = some s ∧ s.handler = .fragments ∧
      ¬ WaitsOnItself s := by
  have hok : Runs.RunOk (step ⟨true, true⟩ 128) (EmergencyOk ⟨true, true⟩ 128) init servedRun := by
    refine .cons (fun ⟨m, hm⟩ => by cases hm) rfl (.cons (fun hemergency => ?_) rfl ?_)
    · exact absurd hemergency.2.2.2 (by decide)
    · refine .cons (fun _ c hc => ?_) rfl (.cons trivial rfl (.cons trivial rfl ?_))
      · obtain rfl := Option.some.inj hc
        exact fun _ => rfl
      · refine .cons trivial rfl (.cons (fun hemergency => ?_) rfl (.cons (fun hemergency => ?_) rfl
          (.cons trivial rfl trivial)))
        · exact absurd hemergency.2.1 (by decide)
        · exact absurd hemergency.2.1 (by decide)
  exact ⟨_, rfl, rfl, waits_run hok rfl⟩

/-- The first fragment of the object list, with one to come. -/
def odlistFragment : Message := message [128, 0, 0, 0, 0, 3, 0, 0x80, 0x82, 0, 1, 0]

/-- An emergency comes before the second fragment. -/
def odlistRun : List Action :=
  [.start .all .odlist, .receive odlistFragment, .take, .receive emergency]

theorem odlist_waits :
    ¬ ∀ support smLen acts s, Runs.run (step support smLen) init acts = some s →
      ¬ WaitsOnItself s := by
  intro hall
  refine hall ⟨true, true⟩ 128 odlistRun _ rfl (Or.inl ⟨⟨emergency, rfl⟩, ?_, rfl⟩)
  exact ⟨.odlist 1, rfl, rfl⟩

end LibEthercat.Mbx.Enqueue
