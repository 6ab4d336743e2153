import LibEthercat.Lib.Runs

/-!
# What the mailbox handler is told to send

Messages for a slave are put into `message_pool_send_queued`; then, under `sync_mutex`, the flag
`MBX_HANDLER_FLAGS_SEND` is set and `sync_sem` is posted. The semaphore is binary, and one flag
stands for all messages. The handler takes all flags at once, and at most one message.

A run is any order of the steps of the handler of one slave and of any number of clients, cut where
another thread can come in between. What is received does not touch the queue or the flag.

**Theorem (`scheduled_run`).** When the handler is about to wait, a message in the queue has its
flag, and is written after the next wake-up, provided that the handler takes the flag of no more
than the message that it takes, and does not come to wait between the two steps of a client
(`Single`). Of two messages behind one flag, the second waits for a timeout (`second_not_scheduled`).
-/

namespace LibEthercat.Mbx.Handler

/-! ## Steps -/

/-- `handler_flags`. -/
structure Flags where
  recv : Bool
  send : Bool
deriving DecidableEq

/-- Where the handler is. -/
inductive Pc
  /-- At the head of the loop; if it is running, it waits next. -/
  | loop
  | waiting
  | timedOut
  /-- `ec_mbx_do_handle` has been called. -/
  | handle
  | taken (flags : Flags)
  /-- Whatever there is to be received has been received. -/
  | received (send : Bool)
  /-- It writes an entry, and has so many attempts left. -/
  | writing (e retryCnt : ℕ)
  /-- `ec_mbx_enqueue_head` has put back the entry. -/
  | requeued
  /-- At the end of `ec_mbx_do_handle`. -/
  | handled
  | stopped
deriving DecidableEq

structure State where
  /-- `message_pool_send_queued` -/
  queued : List ℕ
  flags : Flags
  /-- `sync_sem` -/
  sem : Bool
  /-- `handler_running` -/
  running : Bool
  pc : Pc
  /-- The clients that have put an entry into the queue, and lock `sync_mutex` next. -/
  signalling : List ℕ

/-- `ec_mbx_init`, which does not set the flags. -/
def init (flags : Flags) : State where
  queued := []
  flags := flags
  sem := false
  running := true
  pc := .loop
  signalling := []

inductive Action
  /-- `ec_mbx_enqueue_head`, or `ec_mbx_enqueue_tail`, up to the lock. -/
  | put (t e : ℕ) (head : Bool)
  /-- The rest of it. -/
  | signal (t : ℕ)
  /-- `ec_mbx_sched_read`, on a client or in the handler. -/
  | schedRead
  /-- `ec_mbx_deinit` tells the handler to stop. -/
  | deinit
  | wait
  | wake
  | timeout
  /-- The wait has failed for another reason. -/
  | waitFailed
  /-- The flags after a timeout. `poll` if the slave is in PREOP or lower, or has no `sm_state`. -/
  | setFlags (poll : Bool)
  | takeFlags
  | receive
  | send
  /-- One `ec_mbx_send`. -/
  | write (ok : Bool)
  | requeue
  | signalRequeued
  /-- `ec_mbx_do_handle` returns. -/
  | leave
  | stop
deriving DecidableEq

/-- Is this the next step? -/
def enabled (s : State) : Action → Bool
  | .put t _ _ => t ∉ s.signalling
  | .signal t => t ∈ s.signalling
  | .schedRead | .deinit => true
  | .wait => s.pc = .loop ∧ s.running
  | .wake => s.pc = .waiting ∧ s.sem
  | .timeout | .waitFailed => s.pc = .waiting
  | .setFlags _ => s.pc = .timedOut
  | .takeFlags => s.pc = .handle
  | .receive => (s.pc matches .taken _)
  | .send => (s.pc matches .received _)
  | .write _ => (s.pc matches .writing _ (_ + 1))
  | .requeue => (s.pc matches .writing _ 0)
  | .signalRequeued => s.pc = .requeued
  | .leave => s.pc = .handled
  | .stop => s.pc = .loop ∧ ¬ s.running

/-- `pool_put`, or `pool_put_head`. -/
def poolPut (queued : List ℕ) (e : ℕ) (head : Bool) : List ℕ :=
  if head then e :: queued else queued ++ [e]

/-- `EC_OK` ends the attempts. -/
def mbxSend (ok : Bool) : Pc → Pc
  | .writing e (n + 1) => if ok then .handled else .writing e n
  | pc => pc

def effect (s : State) : Action → State
  | .put t e head => { s with queued := poolPut s.queued e head, signalling := t :: s.signalling }
  | .signal t =>
    { s with flags.send := true, sem := true, signalling := s.signalling.erase t }
  | .schedRead => { s with flags.recv := true, sem := true }
  | .deinit => { s with running := false }
  | .wait => { s with pc := .waiting }
  | .wake => { s with sem := false, pc := .handle }
  | .timeout => { s with pc := .timedOut }
  | .waitFailed => { s with pc := .loop }
  | .setFlags poll => { s with flags := ⟨s.flags.recv || poll, true⟩, pc := .handle }
  | .takeFlags => { s with flags := ⟨false, false⟩, pc := .taken s.flags }
  | .receive =>
    match s.pc with
    | .taken flags => { s with pc := .received flags.send }
    | _ => s
  | .send =>
    match s.pc, s.queued with
    | .received true, e :: rest => { s with queued := rest, pc := .writing e 10 }
    | _, _ => { s with pc := .handled }
  | .write ok => { s with pc := mbxSend ok s.pc }
  | .requeue =>
    match s.pc with
    | .writing e _ => { s with queued := poolPut s.queued e true, pc := .requeued }
    | _ => s
  | .signalRequeued => { s with flags.send := true, sem := true, pc := .handled }
  | .leave => { s with pc := .loop }
  | .stop => { s with pc := .stopped }

def step (s : State) (a : Action) : Option State := if enabled s a then some (effect s a) else none

theorem step_eq_some {s s' : State} {a : Action} :
    step s a = some s' ↔ enabled s a = true ∧ s' = effect s a := by
  unfold step
  by_cases h : enabled s a = true
  · simp [h, eq_comm]
  · simp [h]

/-! ## Property and condition -/

def AboutToWait (s : State) : Prop := s.pc = .loop ∧ s.running = true

/-- The semaphore has been posted, or has not in time. -/
def Action.wakes : Action → Bool
  | wake | timeout => true
  | _ => false

/-- In every run from here, the handler does not come back from a wake-up before it has taken an
entry to write. -/
def WritesNext (s : State) : Prop :=
  ∀ acts s', Runs.run step s acts = some s' → (∃ a ∈ acts, a.wakes = true) → s'.pc = .loop →
    ∃ pre post t e, acts = pre ++ post ∧ Runs.run step s pre = some t ∧ t.pc = .writing e 10

/-- When the handler is about to wait, what is queued is flagged. -/
def Scheduled (s : State) : Prop :=
  AboutToWait s → s.queued ≠ [] → s.flags.send = true ∧ WritesNext s

/-- One flag for one entry: the entry that the handler takes is the only one, or the flag has been
set again, or will be by a client. No client is between the queue and the flag when the handler is
about to wait. -/
def Single (s : State) : Action → Prop
  | .send => s.pc = .received true →
      s.queued.length ≤ 1 ∨ s.flags.send = true ∨ s.signalling ≠ []
  | .leave | .waitFailed => s.signalling = []
  | .put _ _ _ => ¬ AboutToWait s
  | _ => True

/-! ## The flag -/

/-- The handler has taken the flag, and no entry yet, or it sets it next. -/
def Pc.sends : Pc → Bool
  | taken flags => flags.send
  | received send => send
  | requeued => true
  | _ => false

/-- The invariant. -/
structure Inv (s : State) : Prop where
  queued : s.queued ≠ [] → s.flags.send = true ∨ s.signalling ≠ [] ∨ s.pc.sends = true
  loop : AboutToWait s → s.signalling = []

theorem inv_init (flags : Flags) : Inv (init flags) :=
  ⟨fun h => absurd rfl h, fun _ => rfl⟩

section
variable {s s' : State} {a : Action}

/-- The handler goes on, and leaves the queue and the flag alone. -/
theorem Inv.move (h : Inv s) (hqueued : s'.queued = s.queued)
    (hsend : s'.flags.send = s.flags.send) (hsignalling : s'.signalling = s.signalling)
    (hpc : s.pc.sends = true → s'.pc.sends = true)
    (hloop : AboutToWait s' → s.signalling = []) : Inv s' := by
  refine ⟨fun hne => ?_, fun hwait => hsignalling.trans (hloop hwait)⟩
  rw [hqueued] at hne
  rw [hsend, hsignalling]
  exact (h.queued hne).imp_right (Or.imp_right hpc)

/-- The handler takes an entry, or finds none. -/
theorem inv_send {send : Bool} (h : Inv s) (hok : Single s .send) (hpc : s.pc = .received send) :
    Inv (effect s .send) := by
  have hidle : ∀ {queued : List ℕ}, (queued ≠ [] → s.flags.send = true ∨ s.signalling ≠ []) →
      ∀ {pc : Pc}, pc ≠ .loop → Inv { s with queued := queued, pc := pc } := fun hq _ hne =>
    ⟨fun hqueued => (hq hqueued).imp_right Or.inl, fun hwait => absurd hwait.1 hne⟩
  cases send with
  | false =>
    have hq : s.queued ≠ [] → s.flags.send = true ∨ s.signalling ≠ [] := fun hne => by
      simpa [hpc, Pc.sends] using h.queued hne
    have heffect : effect s .send = { s with queued := s.queued, pc := .handled } := by
      simp [effect, hpc]
    rw [heffect]
    exact hidle hq (by simp)
  | true =>
    cases hqueued : s.queued with
    | nil =>
      have heffect : effect s .send = { s with queued := [], pc := .handled } := by
        simp [effect, hpc, hqueued]
      rw [heffect]
      exact hidle (fun hne => absurd rfl hne) (by simp)
    | cons e rest =>
      have heffect : effect s .send = { s with queued := rest, pc := .writing e 10 } := by
        simp [effect, hpc, hqueued]
      rw [heffect]
      refine hidle (fun hne => ?_) (by simp)
      rcases hok hpc with hlength | hok
      · rw [hqueued, List.length_cons] at hlength
        exact absurd (List.length_eq_zero_iff.1 (by omega)) hne
      · exact hok

theorem inv_step (h : Inv s) (hok : Single s a) (hstep : step s a = some s') : Inv s' := by
  obtain ⟨hen, rfl⟩ := step_eq_some.1 hstep
  cases a with
  | put t e head => exact ⟨fun _ => Or.inr (Or.inl (by simp [effect])), fun h => absurd h hok⟩
  | signal t =>
    refine ⟨fun _ => Or.inl rfl, fun hwait => ?_⟩
    have hnil : s.signalling = [] := h.loop hwait
    simp [effect, hnil]
  | schedRead => exact h.move rfl rfl rfl id h.loop
  | deinit => exact h.move rfl rfl rfl id fun hwait => by cases hwait.2
  | wait | wake | stop =>
    obtain ⟨hpc, -⟩ := of_decide_eq_true hen
    exact h.move rfl rfl rfl (by simp [hpc, Pc.sends]) fun hwait => by cases hwait.1
  | timeout =>
    have hpc : s.pc = .waiting := of_decide_eq_true hen
    exact h.move rfl rfl rfl (by simp [hpc, Pc.sends]) fun hwait => by cases hwait.1
  | waitFailed =>
    have hpc : s.pc = .waiting := of_decide_eq_true hen
    exact h.move rfl rfl rfl (by simp [hpc, Pc.sends]) fun _ => hok
  | leave =>
    have hpc : s.pc = .handled := of_decide_eq_true hen
    exact h.move rfl rfl rfl (by simp [hpc, Pc.sends]) fun _ => hok
  | setFlags poll | signalRequeued => exact ⟨fun _ => Or.inl rfl, fun hwait => by cases hwait.1⟩
  | takeFlags =>
    have hpc : s.pc = .handle := of_decide_eq_true hen
    refine ⟨fun hne => ?_, fun hwait => by cases hwait.1⟩
    rcases h.queued hne with hsend | hsignal | hsends
    · exact Or.inr (Or.inr hsend)
    · exact Or.inr (Or.inl hsignal)
    · simp [hpc, Pc.sends] at hsends
  | receive =>
    cases hpc : s.pc with
    | taken flags =>
      simp only [effect, hpc]
      exact h.move rfl rfl rfl (by simp [hpc, Pc.sends]) fun hwait => by cases hwait.1
    | _ => simp [enabled, hpc] at hen
  | send =>
    cases hpc : s.pc with
    | received send => exact inv_send h hok hpc
    | _ => simp [enabled, hpc] at hen
  | write ok =>
    cases hpc : s.pc with
    | writing e n =>
      refine h.move rfl rfl rfl (by simp [hpc, Pc.sends]) fun hwait => ?_
      have hloop : mbxSend ok s.pc = .loop := hwait.1
      cases n <;> cases ok <;> simp [hpc, mbxSend] at hloop
    | _ => simp [enabled, hpc] at hen
  | requeue =>
    cases hpc : s.pc with
    | writing e n =>
      simp only [effect, hpc]
      exact ⟨fun _ => Or.inr (Or.inr rfl), fun hwait => by cases hwait.1⟩
    | _ => simp [enabled, hpc] at hen

/-! ## The next wake-up -/

/-- The handler has been woken, and has not come to the queue yet. -/
def Pc.awake : Pc → Bool
  | timedOut | handle | taken _ | received _ => true
  | _ => false

/-- From here the handler comes to the queue with the flag, if `send` is the flag now. -/
def Pc.due (send : Bool) : Pc → Bool
  | loop | waiting | handle => send
  | timedOut => true
  | taken flags => flags.send
  | received send => send
  | _ => false

/-- An entry is queued, and the handler will take one. -/
structure Due (s : State) : Prop where
  queued : s.queued ≠ []
  pc : s.pc.due s.flags.send = true

theorem poolPut_ne_nil (queued : List ℕ) (e : ℕ) (head : Bool) : poolPut queued e head ≠ [] := by
  cases head <;> simp [poolPut]

theorem Pc.due_true {pc : Pc} (h : pc.due false = true) : pc.due true = true := by
  cases pc <;> first | exact h | rfl

theorem due_step (h : Due s) (hstep : step s a = some s') :
    (∃ e, s'.pc = .writing e 10) ∨ s'.pc = .stopped ∨
      Due s' ∧ (s.pc.awake = true ∨ a.wakes = true → s'.pc.awake = true) := by
  obtain ⟨hen, rfl⟩ := step_eq_some.1 hstep
  obtain ⟨hqueued, hpc⟩ := h
  cases a with
  | put t e head =>
    have hne := poolPut_ne_nil s.queued e head
    exact Or.inr (Or.inr ⟨⟨hne, hpc⟩, fun h => h.resolve_right (by simp [Action.wakes])⟩)
  | signal t =>
    refine Or.inr (Or.inr ⟨⟨hqueued, ?_⟩, fun h => h.resolve_right (by simp [Action.wakes])⟩)
    show s.pc.due true = true
    cases hsend : s.flags.send with
    | true => rwa [hsend] at hpc
    | false => exact Pc.due_true (hsend ▸ hpc)
  | schedRead | deinit =>
    exact Or.inr (Or.inr ⟨⟨hqueued, hpc⟩, fun h => h.resolve_right (by simp [Action.wakes])⟩)
  | wait =>
    obtain ⟨hloop, -⟩ := of_decide_eq_true hen
    rw [hloop] at hpc
    exact Or.inr (Or.inr ⟨⟨hqueued, hpc⟩, fun h => by simp [hloop, Pc.awake, Action.wakes] at h⟩)
  | wake =>
    obtain ⟨hwait, -⟩ := of_decide_eq_true hen
    rw [hwait] at hpc
    exact Or.inr (Or.inr ⟨⟨hqueued, hpc⟩, fun _ => rfl⟩)
  | timeout => exact Or.inr (Or.inr ⟨⟨hqueued, rfl⟩, fun _ => rfl⟩)
  | waitFailed =>
    have hwait : s.pc = .waiting := of_decide_eq_true hen
    rw [hwait] at hpc
    exact Or.inr (Or.inr ⟨⟨hqueued, hpc⟩, fun h => by simp [hwait, Pc.awake, Action.wakes] at h⟩)
  | setFlags poll => exact Or.inr (Or.inr ⟨⟨hqueued, rfl⟩, fun _ => rfl⟩)
  | takeFlags =>
    have hhandle : s.pc = .handle := of_decide_eq_true hen
    rw [hhandle] at hpc
    exact Or.inr (Or.inr ⟨⟨hqueued, hpc⟩, fun _ => rfl⟩)
  | receive =>
    cases htaken : s.pc with
    | taken flags =>
      rw [htaken] at hpc
      simp only [effect, htaken]
      exact Or.inr (Or.inr ⟨⟨hqueued, hpc⟩, fun _ => rfl⟩)
    | _ => simp [enabled, htaken] at hen
  | send =>
    cases hreceived : s.pc with
    | received send =>
      obtain rfl : send = true := by simpa [hreceived, Pc.due] using hpc
      obtain ⟨e, rest, hcons⟩ := List.exists_cons_of_ne_nil hqueued
      exact Or.inl ⟨e, by simp [effect, hreceived, hcons]⟩
    | _ => simp [enabled, hreceived] at hen
  | stop => exact Or.inr (Or.inl rfl)
  | leave | signalRequeued =>
    rw [of_decide_eq_true hen] at hpc
    cases hpc
  | write ok | requeue => cases hpc' : s.pc <;> simp [enabled, hpc', Pc.due] at hen hpc

theorem stopped_step (h : s.pc = .stopped) (hstep : step s a = some s') : s'.pc = .stopped := by
  obtain ⟨hen, rfl⟩ := step_eq_some.1 hstep
  cases a with
  | put | signal | schedRead | deinit => exact h
  | stop => rfl
  | _ => simp [enabled, h] at hen

theorem stopped_run {acts : List Action} (h : s.pc = .stopped)
    (hrun : Runs.run step s acts = some s') : s'.pc = .stopped :=
  Runs.run_induction (fun _ _ _ h hstep => stopped_step h hstep) h hrun

theorem due_run {acts : List Action} (h : Due s) (hrun : Runs.run step s acts = some s') :
    (∃ pre post t e, acts = pre ++ post ∧ Runs.run step s pre = some t ∧ t.pc = .writing e 10) ∨
      s'.pc = .stopped ∨
      (s.pc.awake = true ∨ (∃ a ∈ acts, a.wakes = true) → s'.pc.awake = true) := by
  induction acts generalizing s with
  | nil =>
    cases hrun
    refine Or.inr (Or.inr fun h => ?_)
    simpa using h
  | cons a acts ih =>
    obtain ⟨t, ht, hrest⟩ := Runs.run_cons_eq_some.1 hrun
    rcases due_step h ht with ⟨e, he⟩ | hstopped | ⟨hdue, hawake⟩
    · exact Or.inl ⟨[a], acts, t, e, rfl, by simp [Runs.run, ht], he⟩
    · exact Or.inr (Or.inl (stopped_run hstopped hrest))
    · rcases ih hdue hrest with ⟨pre, post, u, e, hacts, hu, he⟩ | hstopped | hlater
      · refine Or.inl ⟨a :: pre, post, u, e, by rw [hacts, List.cons_append], ?_, he⟩
        simpa [Runs.run, ht] using hu
      · exact Or.inr (Or.inl hstopped)
      · refine Or.inr (Or.inr fun h => hlater ?_)
        simp only [List.mem_cons, exists_eq_or_imp] at h
        rcases h with h | h | h
        · exact Or.inl (hawake (Or.inl h))
        · exact Or.inl (hawake (Or.inr h))
        · exact Or.inr h

theorem writesNext_of_due (h : Due s) : WritesNext s := by
  intro acts s' hrun hwakes hloop
  rcases due_run h hrun with hwritten | hstopped | hawake
  · exact hwritten
  · rw [hloop] at hstopped
    cases hstopped
  · have hpc := hawake (Or.inr hwakes)
    rw [hloop] at hpc
    cases hpc

theorem scheduled_of_inv (h : Inv s) : Scheduled s := by
  intro hwait hne
  have hsend : s.flags.send = true := by
    rcases h.queued hne with hsend | hsignalling | hsends
    · exact hsend
    · exact absurd (h.loop hwait) hsignalling
    · rw [hwait.1] at hsends
      cases hsends
  exact ⟨hsend, writesNext_of_due ⟨hne, by rw [hwait.1]; exact hsend⟩⟩

/-- **Nothing that is queued is forgotten**, in any order of steps, if one flag stands for one
entry. -/
theorem scheduled_run {flags : Flags} {acts : List Action}
    (hok : Runs.RunOk step Single (init flags) acts)
    (hrun : Runs.run step (init flags) acts = some s) : Scheduled s :=
  scheduled_of_inv <| Runs.runOk_induction (fun _ _ _ h hok hstep => inv_step h hok hstep)
    (inv_init flags) hok hrun

end

/-- The handler comes to wait with one entry in the queue, which could not be written. -/
def requeueRun : List Action :=
  [.wait, .put 0 7 false, .signal 0, .wake, .takeFlags, .receive, .send] ++
    List.replicate 10 (.write false) ++ [.requeue, .signalRequeued, .leave]

theorem scheduled_requeueRun :
    ∃ s, Runs.run step (init ⟨false, false⟩) requeueRun = some s ∧ AboutToWait s ∧
      s.queued = [7] ∧ Scheduled s := by
  have hok : Runs.RunOk step Single (init ⟨false, false⟩) requeueRun := by
    refine .cons trivial rfl (.cons (fun h => by cases h.1) rfl (.cons trivial rfl ?_))
    refine .cons trivial rfl (.cons trivial rfl (.cons trivial rfl ?_))
    refine .cons (fun _ => Or.inl (by decide)) rfl ?_
    refine .cons trivial rfl (.cons trivial rfl (.cons trivial rfl (.cons trivial rfl ?_)))
    refine .cons trivial rfl (.cons trivial rfl (.cons trivial rfl (.cons trivial rfl ?_)))
    refine .cons trivial rfl (.cons trivial rfl ?_)
    exact .cons trivial rfl (.cons trivial rfl (.cons rfl rfl trivial))
  exact ⟨_, rfl, ⟨rfl, rfl⟩, rfl, scheduled_run hok rfl⟩

/-- Two clients put an entry into the queue while the handler waits. It writes one of them. -/
def secondRun : List Action :=
  [.wait, .put 0 7 false, .signal 0, .put 1 8 false, .signal 1, .wake, .takeFlags, .receive, .send,
    .write true, .leave]

/-- The second entry has no flag any more. -/
theorem second_not_scheduled :
    ¬ ∀ flags acts s, Runs.run step (init flags) acts = some s → Scheduled s := by
  intro hall
  obtain ⟨hsend, -⟩ := hall ⟨false, false⟩ secondRun _ rfl ⟨rfl, rfl⟩ (List.cons_ne_nil 8 [])
  cases hsend

end LibEthercat.Mbx.Handler
