import LibEthercat.Lib.Runs
import LibEthercat.Coe.SdoRead

/-!
# Answers and requests

The CoE clients of a slave take turns: `coe.lock` is held from the request to the answer. The
answers are put into `coe.recv_pool` by the mailbox handler, and taken out by whoever waits; the
queue stays when a call has ended. A run is any order of requests, received messages and waits that
yield a message or none.

**Theorem (`answered_run`).** A call that returns `EC_OK` has taken the answer to its own request, if
a response that is there when it starts, or comes while it waits, is one (`AnswerOk`). Nobody looks:
an answer that comes after its call has ended is taken by the next one (`late_not_answered`).
-/

namespace LibEthercat.Coe.Sdo

/-! ## Calls -/

inductive Request
  /-- `ec_coe_sdo_read`, into a buffer of `len` bytes. -/
  | read (index : UInt16) (subIndex : UInt8) (len : ℕ)
  /-- `ec_coe_sdo_write` of `len` bytes. -/
  | write (index : UInt16) (subIndex : UInt8) (complete : Bool) (len : ℕ)
  /-- Another function that holds the lock and takes messages: the dictionary and its descriptions. -/
  | info
deriving DecidableEq

/-- Where a call is, with what it would return. -/
inductive Phase
  | read (c : SdoRead)
  | expedited (ret : Ret)
  /-- `ec_coe_sdo_write_normal` waits for the first answer, with `rest` bytes to go in segments. -/
  | first (ret : Ret) (rest seg : ℕ)
  /-- At the loop over the segments. -/
  | segments (ret : Ret) (rest seg : ℕ)
  /-- It waits for the answer to a segment. -/
  | segment (ret : Ret) (rest seg : ℕ)
  | info
  | done (ret : Ret)

/-- A call that has the lock; `seen` are the messages that it has taken for the answer to its
request: the ones it has copied data from, or the first response to a download. -/
structure Call where
  request : Request
  phase : Phase
  seen : List Message

/-- The call waits for the answer to its request. -/
def Phase.awaiting : Phase → Bool
  | read _ | expedited _ | first _ _ _ => true
  | segments _ _ _ | segment _ _ _ | info | done _ => false

/-- The call is in `ec_coe_wait`. -/
def Phase.waiting : Phase → Bool
  | read _ | expedited _ | first _ _ _ | segment _ _ _ | info => true
  | segments _ _ _ | done _ => false

/-- What a download makes of a message. -/
def sdoWriteAnswer (m : Message) : Ret :=
  match answer m with
  | .abort => .mailboxAbort
  | .response => .ok
  | .unexpected => .mailboxRead

/-- A call that has locked and sent its request. `smLen` is the length of the mailbox. -/
def Call.start (smLen : ℕ) (ready : Ready) (request : Request) : Call :=
  match ready.error with
  | some ret => ⟨request, .done ret, []⟩
  | none =>
    match request with
    | .read _ _ len => ⟨request, .read ⟨.mailboxTimeout, len, 0, []⟩, []⟩
    | .write _ _ complete len =>
      if len ≤ 4 ∧ complete = false then ⟨request, .expedited .mailboxTimeout, []⟩
      else
        -- `slv->sm[0].len - 0x10u`
        let maxLen := (smLen + 2 ^ 32 - 0x10) % 2 ^ 32
        let seg := if len > maxLen then maxLen else len
        ⟨request, .first .mailboxTimeout (len - seg) seg, []⟩
    | .info => ⟨request, .info, []⟩

/-- The message that `ec_coe_wait` has returned. -/
def Call.take (c : Call) (m : Message) : Call :=
  match c.phase with
  | .read r =>
    let r := sdoReadAnswer r m
    if r.ret = .ok ∨ r.ret = .mailboxAbort then
      { c with phase := .done r.ret, seen := r.copies.map Copy.message }
    else { c with phase := .read r }
  | .expedited _ =>
    match sdoWriteAnswer m with
    | .ok => { c with phase := .done .ok, seen := [m] }
    | .mailboxAbort => { c with phase := .done .mailboxAbort }
    | ret => { c with phase := .expedited ret }
  | .first _ rest seg =>
    match sdoWriteAnswer m with
    -- a segment has a shorter header: `EC_SDO_NORMAL_HDR_LEN - EC_SDO_SEG_HDR_LEN`
    | .ok => { c with phase := .segments .ok rest (seg + 7), seen := [m] }
    | .mailboxAbort => { c with phase := .done .mailboxAbort }
    | ret => { c with phase := .first ret rest seg }
  | .segment _ rest seg =>
    match sdoWriteAnswer m with
    | .mailboxRead => { c with phase := .segment .mailboxRead rest seg }
    | ret => { c with phase := .segments ret rest seg }
  | .segments _ _ _ | .info | .done _ => c

/-- `ec_coe_wait` has returned nothing. -/
def Call.timeout (c : Call) : Call :=
  match c.phase with
  | .read r => { c with phase := .done r.ret }
  | .expedited ret | .first ret _ _ => { c with phase := .done ret }
  | .segment ret rest seg => { c with phase := .segments ret rest seg }
  | .info => { c with phase := .done .ok }
  | .segments _ _ _ | .done _ => c

/-- `while (rest_len != 0u)`: the next segment, if there is a send buffer. -/
def Call.next (c : Call) (buffer : Bool) : Call :=
  match c.phase with
  | .segments ret rest seg =>
    if rest = 0 then { c with phase := .done ret }
    else if buffer then
      let seg := if rest < seg then rest else seg
      { c with phase := .segment .mailboxTimeout (rest - seg) seg }
    else { c with phase := .done .mailboxOutOfSendBuffers }
  | _ => c

/-! ## Steps -/

structure State where
  /-- `coe.recv_pool` -/
  recvPool : List Message
  /-- Who has `coe.lock`. -/
  call : Option Call
  /-- The calls that have returned. -/
  returned : List Call

def init : State := ⟨[], none, []⟩

inductive Action
  /-- `ec_coe_enqueue`, on the mailbox handler. -/
  | receive (m : Message)
  | start (ready : Ready) (request : Request)
  /-- The wait of the call yields a message. -/
  | take
  /-- The wait of the call yields nothing. -/
  | timeout
  | next (buffer : Bool)
  /-- The call unlocks and returns. -/
  | leave

/-- Is this the next step? -/
def enabled (s : State) : Action → Bool
  | .receive _ => true
  | .start _ _ => s.call.isNone
  | .take => s.call.any (fun c => c.phase.waiting) ∧ s.recvPool ≠ []
  | .timeout => s.call.any fun c => c.phase.waiting
  | .next _ => s.call.any fun c => (c.phase matches .segments _ _ _)
  | .leave => s.call.any fun c => (c.phase matches .done _)

/-- Messages with another service do not get into the queue: emergencies are stored elsewhere, the
others are returned. -/
def coeEnqueue (s : State) (m : Message) : State :=
  if service m = 1 then s
  else if 1 ≤ service m ∧ service m ≤ 8 then { s with recvPool := s.recvPool ++ [m] }
  else s

def effect (smLen : ℕ) (s : State) : Action → State
  | .receive m => coeEnqueue s m
  | .start ready request => { s with call := some (.start smLen ready request) }
  | .take =>
    match s.call, s.recvPool with
    | some c, m :: rest => { s with call := some (c.take m), recvPool := rest }
    | _, _ => s
  | .timeout => { s with call := s.call.map Call.timeout }
  | .next buffer => { s with call := s.call.map fun c => c.next buffer }
  | .leave => { s with call := none, returned := s.returned ++ s.call.toList }

def step (smLen : ℕ) (s : State) (a : Action) : Option State :=
  if enabled s a then some (effect smLen s a) else none

theorem step_eq_some {smLen : ℕ} {s s' : State} {a : Action} :
    step smLen s a = some s' ↔ enabled s a = true ∧ s' = effect smLen s a := by
  unfold step
  by_cases h : enabled s a = true
  · simp [h, eq_comm]
  · simp [h]

/-! ## Property and condition -/

/-- The message is the response to this request. -/
def Answers (m : Message) : Request → Prop
  -- an upload response has the command 2, a download response 3
  | .read i sub _ => service m = EC_COE_SDORES ∧ command m = 2 ∧ index m = i.toNat ∧
      subIndex m = sub.toNat
  | .write i sub _ _ => service m = EC_COE_SDORES ∧ command m = 3 ∧ index m = i.toNat ∧
      subIndex m = sub.toNat
  | .info => True

/-- A call that has returned `EC_OK` has taken one message for its answer, and it is. -/
def Call.Answered (c : Call) : Prop :=
  c.phase = .done .ok → c.request ≠ .info → ∃ m, c.seen = [m] ∧ Answers m c.request

def Answered (s : State) : Prop := ∀ c ∈ s.returned, c.Answered

/-- Every response that is in the queue when a call begins to wait for its answer, or gets there
while it does, is the answer. -/
def AnswerOk (s : State) : Action → Prop
  | .receive m => ∀ c, s.call = some c → c.phase.awaiting = true → answer m = .response →
      Answers m c.request
  | .start ready request => ready.error = none → ∀ m ∈ s.recvPool, answer m = .response →
      Answers m request
  | .take | .timeout | .next _ | .leave => True

/-! ## A call takes its own answer -/

section
variable {smLen : ℕ} {s s' : State} {c : Call} {m : Message}

/-- What a call would return, if it returned now. -/
def Phase.ret : Phase → Ret
  | read r => r.ret
  | expedited ret | first ret _ _ | segments ret _ _ | segment ret _ _ | done ret => ret
  | info => .ok

/-- The call has its answer, and sends segments. -/
def Phase.sending : Phase → Bool
  | segments _ _ _ | segment _ _ _ => true
  | read _ | expedited _ | first _ _ _ | info | done _ => false

/-- What is known of a call, with this queue: while it waits for its answer it has failed so far,
and all responses in the queue are its answer; from then on it has its answer. -/
structure Fine (queue : List Message) (c : Call) : Prop where
  awaiting : c.phase.awaiting = true → c.phase.ret ≠ .ok ∧
    ∀ m ∈ queue, answer m = .response → Answers m c.request
  copies : ∀ r, c.phase = .read r → r.copies = []
  sending : c.phase.sending = true → ∃ m, c.seen = [m] ∧ Answers m c.request
  info : c.phase = .info → c.request = .info
  done : c.Answered

/-- The invariant. -/
structure Inv (s : State) : Prop where
  call : ∀ c, s.call = some c → Fine s.recvPool c
  returned : Answered s

theorem Fine.mono {queue queue' : List Message} (h : Fine queue c)
    (hqueue : c.phase.awaiting = true → ∀ m ∈ queue', answer m = .response → m ∈ queue ∨
      Answers m c.request) : Fine queue' c := by
  obtain ⟨hawaiting, hcopies, hsending, hinfo, hdone⟩ := h
  refine ⟨fun hwait => ⟨(hawaiting hwait).1, fun m hm hresp => ?_⟩, hcopies, hsending, hinfo, hdone⟩
  rcases hqueue hwait m hm hresp with hold | hans
  · exact (hawaiting hwait).2 m hold hresp
  · exact hans

/-- A call that waits for its answer. -/
theorem Fine.of_awaiting {queue : List Message} (hphase : c.phase.awaiting = true)
    (hret : c.phase.ret ≠ .ok) (hcopies : ∀ r, c.phase = .read r → r.copies = [])
    (hqueue : ∀ m ∈ queue, answer m = .response → Answers m c.request) : Fine queue c := by
  refine ⟨fun _ => ⟨hret, hqueue⟩, hcopies, fun h => ?_, fun h => ?_, fun h => ?_⟩
  · cases hp : c.phase <;> simp_all [Phase.awaiting, Phase.sending]
  · rw [h] at hphase
    cases hphase
  · rw [h] at hphase
    cases hphase

theorem Fine.of_failed {queue : List Message} {ret : Ret} (hphase : c.phase = .done ret)
    (hret : ret ≠ .ok) : Fine queue c := by
  constructor <;> simp [hphase, hret, Phase.awaiting, Phase.sending, Call.Answered]

/-- A call that has its answer. -/
theorem Fine.of_answered {queue : List Message} (hseen : c.seen = [m]) (h : Answers m c.request)
    (hphase : c.phase.sending = true ∨ ∃ ret, c.phase = .done ret) : Fine queue c := by
  refine ⟨fun hawait => ?_, fun r hr => ?_, fun _ => ⟨m, hseen, h⟩, fun hinfo => ?_,
    fun _ _ => ⟨m, hseen, h⟩⟩
  · rcases hphase with hsend | ⟨ret, hdone⟩
    · cases hp : c.phase <;> simp_all [Phase.awaiting, Phase.sending]
    · rw [hdone] at hawait
      cases hawait
  · rcases hphase with hsend | ⟨ret, hdone⟩
    · rw [hr] at hsend
      cases hsend
    · rw [hr] at hdone
      cases hdone
  · rcases hphase with hsend | ⟨ret, hdone⟩
    · rw [hinfo] at hsend
      cases hsend
    · rw [hinfo] at hdone
      cases hdone

theorem fine_start {ready : Ready} {request : Request} {queue : List Message}
    (hok : ready.error = none → ∀ m ∈ queue, answer m = .response → Answers m request) :
    Fine queue (.start smLen ready request) := by
  unfold Call.start
  cases herror : ready.error with
  | some ret => exact Fine.of_failed rfl (Ready.error_ne_ok herror)
  | none =>
    cases request with
    | read i sub len =>
      refine Fine.of_awaiting rfl (by simp [Phase.ret]) (fun r hr => ?_) (hok herror)
      cases hr
      rfl
    | write i sub complete len =>
      dsimp only
      split_ifs <;> exact Fine.of_awaiting rfl (by simp [Phase.ret]) (by simp) (hok herror)
    | info => constructor <;> simp [Phase.awaiting, Phase.sending, Call.Answered]

/-- A response that is taken is the answer. -/
theorem fine_take {rest : List Message} (h : Fine (m :: rest) c) (hwait : c.phase.waiting = true) :
    Fine rest (c.take m) := by
  obtain ⟨request, phase, seen⟩ := c
  have hrest : phase.awaiting = true → ∀ x ∈ rest, answer x = .response → Answers x request :=
    fun hawait x hx => (h.awaiting hawait).2 x (List.mem_cons_of_mem m hx)
  have hfirst : phase.awaiting = true → answer m = .response → Answers m request :=
    fun hawait => (h.awaiting hawait).2 m List.mem_cons_self
  cases phase with
  | read r =>
    have hcopies : r.copies = [] := h.copies r rfl
    cases hm : answer m with
    | abort =>
      have hround : (sdoReadAnswer r m).ret = .mailboxAbort := by simp [sdoReadAnswer, hm]
      have hphase : (Call.take ⟨request, .read r, seen⟩ m).phase = .done .mailboxAbort := by
        simp [Call.take, hround]
      exact Fine.of_failed hphase (by simp)
    | response =>
      by_cases hlt : r.len < dataSize m
      · have hround : sdoReadAnswer r m = ⟨.mailboxBufferTooSmall, dataSize m, 0, r.copies⟩ := by
          simp [sdoReadAnswer, hm, hlt]
        simp only [Call.take, hround, reduceCtorEq, or_self, if_false]
        refine Fine.of_awaiting rfl (by simp [Phase.ret]) (fun r' hr' => ?_) (hrest rfl)
        cases hr'
        exact hcopies
      · have hround : sdoReadAnswer r m =
            ⟨.ok, dataSize m, 0, [⟨m, dataOffset m, dataSize m⟩]⟩ := by
          simp [sdoReadAnswer, hm, hlt, hcopies]
        simp only [Call.take, hround, true_or, if_true]
        exact Fine.of_answered rfl (hfirst rfl hm) (Or.inr ⟨_, rfl⟩)
    | unexpected =>
      have hround : sdoReadAnswer r m = { r with ret := .mailboxRead } := by
        simp [sdoReadAnswer, hm]
      simp only [Call.take, hround, reduceCtorEq, or_self, if_false]
      refine Fine.of_awaiting rfl (by simp [Phase.ret]) (fun r' hr' => ?_) (hrest rfl)
      cases hr'
      exact hcopies
  | expedited ret =>
    cases hm : answer m with
    | abort =>
      have hphase : (Call.take ⟨request, .expedited ret, seen⟩ m).phase = .done .mailboxAbort := by
        simp [Call.take, sdoWriteAnswer, hm]
      exact Fine.of_failed hphase (by simp)
    | response =>
      simp only [Call.take, sdoWriteAnswer, hm]
      exact Fine.of_answered rfl (hfirst rfl hm) (Or.inr ⟨_, rfl⟩)
    | unexpected =>
      simp only [Call.take, sdoWriteAnswer, hm]
      exact Fine.of_awaiting rfl (by simp [Phase.ret]) (by simp) (hrest rfl)
  | first ret restLen seg =>
    cases hm : answer m with
    | abort =>
      have hphase : (Call.take ⟨request, .first ret restLen seg, seen⟩ m).phase = .done .mailboxAbort := by
        simp [Call.take, sdoWriteAnswer, hm]
      exact Fine.of_failed hphase (by simp)
    | response =>
      simp only [Call.take, sdoWriteAnswer, hm]
      exact Fine.of_answered rfl (hfirst rfl hm) (Or.inl rfl)
    | unexpected =>
      simp only [Call.take, sdoWriteAnswer, hm]
      exact Fine.of_awaiting rfl (by simp [Phase.ret]) (by simp) (hrest rfl)
  | segment ret restLen seg =>
    obtain ⟨x, hx, hans⟩ := h.sending rfl
    cases hm : answer m <;> simp only [Call.take, sdoWriteAnswer, hm] <;>
      exact Fine.of_answered hx hans (Or.inl rfl)
  | info =>
    constructor <;> simp [Call.take, Phase.awaiting, Phase.sending, Call.Answered, h.info rfl]
  | segments | done => cases hwait

theorem fine_timeout {queue : List Message} (h : Fine queue c) : Fine queue c.timeout := by
  obtain ⟨request, phase, seen⟩ := c
  cases phase with
  | read | expedited | first => exact Fine.of_failed rfl (h.awaiting rfl).1
  | segment =>
    obtain ⟨x, hx, hans⟩ := h.sending rfl
    exact Fine.of_answered hx hans (Or.inl rfl)
  | info =>
    constructor <;> simp [Call.timeout, Phase.awaiting, Phase.sending, Call.Answered, h.info rfl]
  | segments | done => exact h

theorem fine_next {queue : List Message} {buffer : Bool} (h : Fine queue c) :
    Fine queue (c.next buffer) := by
  obtain ⟨request, phase, seen⟩ := c
  cases phase with
  | segments ret rest seg =>
    obtain ⟨x, hx, hans⟩ := h.sending rfl
    simp only [Call.next]
    by_cases hrest : rest = 0
    · rw [if_pos hrest]
      exact Fine.of_answered hx hans (Or.inr ⟨_, rfl⟩)
    · rw [if_neg hrest]
      cases buffer with
      | true => exact Fine.of_answered hx hans (Or.inl rfl)
      | false => exact Fine.of_failed rfl (by simp)
  | read | expedited | first | segment | info | done => exact h

theorem inv_step {a : Action} (h : Inv s) (hok : AnswerOk s a) (hstep : step smLen s a = some s') :
    Inv s' := by
  obtain ⟨hen, rfl⟩ := step_eq_some.1 hstep
  obtain ⟨hcall, hreturned⟩ := h
  cases a with
  | receive m =>
    show Inv (coeEnqueue s m)
    unfold coeEnqueue
    split_ifs
    · exact ⟨hcall, hreturned⟩
    · refine ⟨fun c hc => (hcall c hc).mono fun hawait x hx hresp => ?_, hreturned⟩
      rcases List.mem_append.1 hx with hx | hx
      · exact Or.inl hx
      · obtain rfl := List.mem_singleton.1 hx
        exact Or.inr (hok c hc hawait hresp)
    · exact ⟨hcall, hreturned⟩
  | start ready request =>
    refine ⟨fun c hc => ?_, hreturned⟩
    cases hc
    exact fine_start hok
  | take =>
    obtain ⟨hwait, hne⟩ := of_decide_eq_true hen
    cases hc : s.call with
    | none =>
      rw [hc] at hwait
      cases hwait
    | some c =>
      cases hq : s.recvPool with
      | nil => exact absurd hq hne
      | cons m rest =>
        rw [hc] at hwait
        simp only [effect, hc, hq]
        refine ⟨fun c' hc' => ?_, hreturned⟩
        cases hc'
        exact fine_take (hq ▸ hcall c hc) hwait
  | timeout =>
    refine ⟨fun c hc => ?_, hreturned⟩
    obtain ⟨c', hc', rfl⟩ := Option.map_eq_some_iff.1 hc
    exact fine_timeout (hcall c' hc')
  | next buffer =>
    refine ⟨fun c hc => ?_, hreturned⟩
    obtain ⟨c', hc', rfl⟩ := Option.map_eq_some_iff.1 hc
    exact fine_next (hcall c' hc')
  | leave =>
    refine ⟨fun c hc => (by cases hc), fun c hc => ?_⟩
    rcases List.mem_append.1 hc with hc | hc
    · exact hreturned c hc
    · exact (hcall c (Option.mem_toList.1 hc)).done

theorem inv_init : Inv init := by
  refine ⟨fun c hc => ?_, fun c hc => ?_⟩
  · cases hc
  · simp [init] at hc

/-- **A call takes its own answer**, in any order of calls and messages. -/
theorem answered_run {acts : List Action} (hok : Runs.RunOk (step smLen) AnswerOk init acts)
    (hrun : Runs.run (step smLen) init acts = some s) : Answered s :=
  (Runs.runOk_induction (fun _ _ _ h hok hstep => inv_step h hok hstep) inv_init hok hrun).returned

end

/-- Object 0x1018:1 is read, with its answer. -/
def readRun : List Action :=
  [.start .all (.read 0x1018 1 8), .receive eightBytes, .take, .leave]

theorem answered_readRun :
    ∃ s, Runs.run (step 128) init readRun = some s ∧ s.returned.length = 1 ∧ Answered s := by
  have hok : Runs.RunOk (step 128) AnswerOk init readRun := by
    refine .cons (fun _ m hm => ?_) rfl (.cons (fun c hc _ _ => ?_) rfl
      (.cons trivial rfl (.cons trivial rfl trivial)))
    · simp [init] at hm
    · cases hc
      show _ ∧ _ ∧ _ ∧ _
      decide
  exact ⟨_, rfl, rfl, answered_run hok rfl⟩

/-- The answer comes when the call has given up, and object 0x1000:0 is read next. -/
def lateRun : List Action :=
  [.start .all (.read 0x1018 1 8), .timeout, .leave, .receive eightBytes,
    .start .all (.read 0x1000 0 8), .take, .leave]

theorem late_not_answered :
    ¬ ∀ smLen acts s, Runs.run (step smLen) init acts = some s → Answered s := by
  intro hall
  have hanswered := hall 128 lateRun _ rfl
    ⟨.read 0x1000 0 8, .done .ok, [eightBytes]⟩
    (List.mem_append_right _ (List.mem_singleton.2 rfl)) rfl (by simp)
  obtain ⟨m, hm, -, -, hindex, -⟩ := hanswered
  obtain rfl : eightBytes = m := by simpa using hm
  revert hindex
  decide

end LibEthercat.Coe.Sdo
