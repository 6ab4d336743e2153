import LibEthercat.Slave.Requests

/-!
# The state machine of a slave

The other end of `ec_slave_state_transition`: a slave with its state machine, which goes from one
state to another only where that is foreseen, and only if it is asked to. It need not do what it is
asked for, and datagrams may get lost on either way. `Served` says which answers of the bus a call
may get from such a slave, and what state it leaves it in.

* `Path` — requests that are allowed one after the other. The switch asks along such a path,
  whatever state it finds (`execution_path`).
* `transition_lawful` — so the slave is never asked for what it may not be asked for in its state.
* `transition_ok` — a call that succeeds leaves it at the end of the path.
-/

namespace LibEthercat.SlaveState

open Walk (Step walk)

/-! ## The slave -/

/-- The states of the application layer. -/
inductive AlState
  | init | preop | boot | safeop | op
deriving DecidableEq

namespace AlState

def code : AlState → UInt16
  | init => EC_STATE_INIT
  | preop => EC_STATE_PREOP
  | boot => EC_STATE_BOOT
  | safeop => EC_STATE_SAFEOP
  | op => EC_STATE_OP

/-- Where a slave may be asked to go: one state up, any number of states down, from INIT to BOOT and
back. -/
def mayGo : AlState → AlState → Bool
  | _, init => true
  | init, preop | init, boot => true
  | preop, preop | preop, safeop => true
  | boot, boot => true
  | safeop, preop | safeop, safeop | safeop, op => true
  | op, preop | op, safeop | op, op => true
  | _, _ => false

theorem mayGo_self (a : AlState) : a.mayGo a := by cases a <;> rfl

theorem code_inj {a b : AlState} (h : a.code = b.code) : a = b := by
  revert h
  cases a <;> cases b <;> decide

theorem code_ne_zero (a : AlState) : a.code ≠ 0 := by cases a <;> decide

end AlState

/-- A request is allowed in the state that it finds. -/
def Allowed (p : AlState × UInt16) : Prop :=
  ∃ y : AlState, p.2 &&& EC_STATE_MASK = y.code ∧ p.1.mayGo y

/-- A slave, with the requests that it has been sent, and the state that each of them has found. -/
structure Device where
  al : AlState
  asked : List (AlState × UInt16)

namespace Device

/-- It has never been asked for anything that is not allowed. -/
def Lawful (d : Device) : Prop := ∀ p ∈ d.asked, Allowed p

/-- A request comes, and is granted or not. One that gets lost counts as one that is not granted. -/
structure Takes (x : UInt16) (d d' : Device) : Prop where
  asked : d'.asked = d.asked ++ [(d.al, x)]
  al : d'.al = d.al ∨ d.al.mayGo d'.al ∧ x &&& EC_STATE_MASK = d'.al.code

end Device

/-! ## What the bus gives -/

/-- The AL status, if there is one, is that of a slave in this state, which may show an error. -/
def Status.Shows (b : Status) (a : AlState) : Prop :=
  ∀ v, b.alStat = .value v → v = a.code ∨ v = a.code ||| EC_STATE_ERROR

/-- The requested state is seen in this round. -/
def Attempt.sees (x : UInt16) (a : Attempt) : Bool := a.write && a.status.alStat == .value x

/-- A round with a slave. A reset leaves it in its state. -/
structure Attempt.Served (x : UInt16) (a : Attempt) (d d' : Device) : Prop where
  takes : d.Takes x d'
  shows_al : a.write = true → a.status.Shows d'.al

/-- The rounds with a slave. -/
def RoundsServed (x : UInt16) : Attempt → List Attempt → Device → Device → Prop
  | a, [], d, d' => a.Served x d d'
  | a, a' :: more, d, d' =>
    if a.sees x then a.Served x d d' else ∃ e, a.Served x d e ∧ RoundsServed x a' more e d'

/-- A call of `ec_slave_set_state` for a state, with a slave. -/
def Request.Served (x : UInt16) (b : Request) (d d' : Device) : Prop :=
  ∃ e, d.Takes x e ∧ if b.write then RoundsServed x b.first b.more e d' else d' = e

/-- What the switch of a transition does, one thing after the other. -/
inductive Call
  | request (x : UInt16) (b : Request)
  | check (ok : Bool)

def Call.step : Call → Step UInt16
  | .request x b => b.step x
  | .check ok => Walk.check ok

def Call.isRequest : Call → Bool
  | .request _ _ => true
  | .check _ => false

/-- The requests of the switch, with the answers to them. -/
def Execution.calls (b : Execution) (x : UInt16) (useEoe : Bool) : StateTransition → List Call
  | .boot2Preop | .boot2Safeop | .boot2Op => []
  | .init2Boot => [.request EC_STATE_BOOT b.initToPreop, .check (!useEoe || b.eoe = .ok)]
  | .init2Preop => [.request EC_STATE_PREOP b.initToPreop, .check (!useEoe || b.eoe = .ok)]
  | .init2Safeop =>
    [.request EC_STATE_PREOP b.initToPreop, .check (!useEoe || b.eoe = .ok),
      .check (b.dcSync ≠ .cyclicLoop), .request EC_STATE_SAFEOP b.preopToSafeop]
  | .init2Op =>
    [.request EC_STATE_PREOP b.initToPreop, .check (!useEoe || b.eoe = .ok),
      .check (b.dcSync ≠ .cyclicLoop), .request EC_STATE_SAFEOP b.preopToSafeop,
      .request EC_STATE_OP b.safeopToOp]
  | .preop2Safeop =>
    [.check (b.dcSync ≠ .cyclicLoop), .request EC_STATE_SAFEOP b.preopToSafeop]
  | .preop2Op =>
    [.check (b.dcSync ≠ .cyclicLoop), .request EC_STATE_SAFEOP b.preopToSafeop,
      .request EC_STATE_OP b.safeopToOp]
  | .safeop2Op => [.request EC_STATE_OP b.safeopToOp]
  | .op2Safeop => [.request x b.opDown]
  | .op2Preop => [.request x b.opDown, .request x b.toInit]
  | .safeop2Preop => [.request x b.toInit]
  | .op2Init | .safeop2Init | .preop2Init =>
    [.request x b.toInit, .request x b.unknownToInit, .request x b.same]
  | .unknown2Init => [.request x b.unknownToInit, .request x b.same]
  | .boot2Init | .init2Init | .preop2Preop | .safeop2Safeop | .op2Op => [.request x b.same]
  | .other => [.request EC_STATE_INIT b.same]

theorem calls_steps {b : Execution} {x : UInt16} {useEoe : Bool} (t : StateTransition) :
    (b.calls x useEoe t).map Call.step = b.steps x useEoe t := by cases t <;> rfl

def Call.Served : Call → Device → Device → Prop
  | .request x b, d, d' => b.Served x d d'
  | .check _, d, d' => d' = d

/-- What fails comes last. -/
def CallsServed : List Call → Device → Device → Prop
  | [], d, d' => d' = d
  | c :: cs, d, d' => ∃ e, c.Served d e ∧ if c.step.ok then CallsServed cs e d' else d' = e

/-- What is read before the switch. -/
structure Entry.Shows (b : Entry) (a : AlState) : Prop where
  status : b.status.Shows a
  again : b.again.Shows a
  reset : b.reset.Shows a
  resets : ∀ r ∈ b.resets, r.Shows a

/-- **A call of `ec_slave_state_transition` with a slave.** -/
structure Transition.Served (x : UInt16) (useEoe : Bool) (b : Transition) (d d' : Device) :
    Prop where
  entry : b.entry.Shows d.al
  none : b.entry.found = none → d' = d
  some : ∀ act, b.entry.found = some act →
    CallsServed (b.execution.calls x useEoe (.ofStates act x)) d d'

/-! ## A request -/

section
variable {d d' : Device} {a y : AlState} {x : UInt16}

theorem code_mask (y : AlState) : y.code &&& EC_STATE_MASK = y.code := by cases y <;> decide

theorem takes_step (hmay : a.mayGo y) (hal : d.al = a ∨ d.al = y) (h : d.Takes y.code d') :
    (d'.al = a ∨ d'.al = y) ∧ (d.Lawful → d'.Lawful) := by
  have hallowed : d.al.mayGo y := by
    rcases hal with rfl | rfl
    · exact hmay
    · exact d.al.mayGo_self
  constructor
  · rcases h.al with hsame | ⟨-, hcode⟩
    · rwa [hsame]
    · rw [code_mask] at hcode
      exact Or.inr (AlState.code_inj hcode).symm
  · intro hd p hp
    rw [h.asked, List.mem_append, List.mem_singleton] at hp
    rcases hp with hp | rfl
    · exact hd p hp
    · exact ⟨y, code_mask y, hallowed⟩

/-- A state without an error is seen only if it is there. -/
theorem Status.Shows.eq {b : Status} (h : b.Shows a) (hv : b.alStat = .value y.code) : a = y := by
  have hv := h _ hv
  revert hv
  cases a <;> cases y <;> decide

theorem Attempt.Served.al_eq {r : Attempt} (h : r.Served y.code d d') (hsees : r.sees y.code) :
    d'.al = y := by
  obtain ⟨hw, hv⟩ := Bool.and_eq_true_iff.1 hsees
  exact (h.shows_al hw).eq (beq_iff_eq.1 hv)

theorem rounds_step {r : Attempt} (more : List Attempt) (hmay : a.mayGo y)
    (hal : d.al = a ∨ d.al = y) (h : RoundsServed y.code r more d d') :
    ((d'.al = a ∨ d'.al = y) ∧ (d.Lawful → d'.Lawful)) ∧
      (((r :: more).any fun r => r.sees y.code) = true → d'.al = y) := by
  induction more generalizing r d with
  | nil =>
    refine ⟨takes_step hmay hal h.takes, fun hany => h.al_eq ?_⟩
    simpa using hany
  | cons r' more ih =>
    rw [RoundsServed] at h
    by_cases hsees : r.sees y.code
    · rw [if_pos hsees] at h
      exact ⟨takes_step hmay hal h.takes, fun _ => h.al_eq hsees⟩
    · rw [if_neg hsees] at h
      obtain ⟨e, hround, hrest⟩ := h
      obtain ⟨hal', hlaw⟩ := takes_step hmay hal hround.takes
      obtain ⟨⟨hend, hlaw'⟩, hseen⟩ := ih hal' hrest
      refine ⟨⟨hend, fun hd => hlaw' (hlaw hd)⟩, fun hany => hseen ?_⟩
      rw [List.any_cons, Bool.or_eq_true] at hany
      exact hany.resolve_left hsees

theorem code_reset (y : AlState) : y.code &&& EC_STATE_RESET = 0 := by cases y <;> decide

/-- **A request** that is allowed leads to the requested state if it succeeds. -/
theorem request_step {b : Request} (hmay : d.al.mayGo y) (h : b.Served y.code d d') :
    (d.Lawful → d'.Lawful) ∧ ((b.step y.code).ok = true → d'.al = y) := by
  obtain ⟨e, htakes, hrest⟩ := h
  obtain ⟨hal, hlaw⟩ := takes_step hmay (Or.inl rfl) htakes
  by_cases hw : b.write
  · rw [if_pos hw] at hrest
    obtain ⟨⟨-, hlaw'⟩, hseen⟩ := rounds_step b.more hmay hal hrest
    refine ⟨fun hd => hlaw' (hlaw hd), fun hok => hseen ?_⟩
    rw [Request.step] at hok
    simp only [hw, code_reset, bne_self_eq_false, Bool.false_or, Bool.true_and,
      Bool.and_eq_true] at hok
    exact hok.1
  · rw [if_neg hw] at hrest
    refine ⟨hrest ▸ hlaw, fun hok => absurd ?_ hw⟩
    exact (Bool.and_eq_true_iff.1 hok).1

end

/-! ## Paths -/

/-- Requests that are allowed one after the other, from one state to another. -/
inductive Path : AlState → List Call → AlState → Prop
  | nil (a : AlState) : Path a [] a
  | check {a e : AlState} {cs : List Call} (ok : Bool) (h : Path a cs e) :
      Path a (.check ok :: cs) e
  | request {a e : AlState} {cs : List Call} (y : AlState) (b : Request) (hmay : a.mayGo y)
      (h : Path y cs e) : Path a (.request y.code b :: cs) e

/-- Where a transition leads from a state. Nothing leads out of BOOT but INIT, and a slave is
brought to BOOT from INIT only; if it is there, or higher, it is brought to INIT instead. -/
def AlState.reach : AlState → AlState → AlState
  | init, y => y
  | boot, init | boot, boot => init
  | boot, _ => boot
  | _, boot => init
  | _, y => y

section
variable {d d' : Device} {a e y : AlState} {cs : List Call} {v : UInt16}

/-- **Along a path** nothing is asked for that is not allowed, and if all succeeds the end is
reached.
-/
theorem path_served (hpath : Path a cs e) (hal : d.al = a) (h : CallsServed cs d d') :
    (d.Lawful → d'.Lawful) ∧ ((∀ c ∈ cs, c.step.ok = true) → d'.al = e) := by
  induction hpath generalizing d with
  | nil a => exact ⟨fun hd => h ▸ hd, fun _ => h ▸ hal⟩
  | check ok _ ih =>
    obtain ⟨d₁, rfl, hrest⟩ := h
    cases ok with
    | true =>
      obtain ⟨hlaw, hend⟩ := ih hal hrest
      exact ⟨hlaw, fun hok => hend fun c hc => hok c (List.mem_cons_of_mem _ hc)⟩
    | false =>
      refine ⟨fun hd => ?_, fun hok => ?_⟩
      · rwa [show d' = d₁ from hrest]
      · cases hok _ List.mem_cons_self
  | request y b hmay _ ih =>
    obtain ⟨d₁, hserved, hrest⟩ := h
    obtain ⟨hlaw, hgoal⟩ := request_step (hal ▸ hmay) hserved
    by_cases hok : (b.step y.code).ok = true
    · rw [Call.step, if_pos hok] at hrest
      obtain ⟨hlaw', hend⟩ := ih (hgoal hok) hrest
      exact ⟨fun hd => hlaw' (hlaw hd),
        fun hall => hend fun c hc => hall c (List.mem_cons_of_mem _ hc)⟩
    · rw [Call.step, if_neg hok] at hrest
      exact ⟨hrest ▸ hlaw, fun hall => absurd (hall _ List.mem_cons_self) hok⟩

theorem Path.eq_of_silent (hpath : Path a cs e) (h : cs.any Call.isRequest = false) : a = e := by
  induction hpath with
  | nil a => rfl
  | check ok _ ih => exact ih (by simpa [Call.isRequest] using h)
  | request => simp [Call.isRequest] at h

/-- The last request of a path is the one for its end. -/
theorem path_walk (hpath : Path a cs e) (hok : ∀ c ∈ cs, c.step.ok = true) :
    walk (cs.map Call.step) v = (true, if cs.any Call.isRequest then e.code else v) := by
  induction hpath generalizing v with
  | nil a => rfl
  | check ok _ ih =>
    rw [List.map_cons, Walk.walk_cons_of_ok (hok _ List.mem_cons_self),
      ih fun c hc => hok c (List.mem_cons_of_mem _ hc)]
    rfl
  | @request a e cs y b hmay hrest ih =>
    have hb : (b.step y.code).ok = true := hok _ List.mem_cons_self
    have hw : b.write = true := (Bool.and_eq_true_iff.1 hb).1
    rw [List.map_cons, Walk.walk_cons_of_ok (hok _ List.mem_cons_self),
      ih fun c hc => hok c (List.mem_cons_of_mem _ hc)]
    rw [List.any_cons, Call.isRequest, Bool.true_or, if_pos rfl]
    by_cases hany : cs.any Call.isRequest = true
    · rw [if_pos hany]
    · have hend := hrest.eq_of_silent (Bool.eq_false_of_not_eq_true hany)
      rw [if_neg hany, ← hend]
      simp [Call.step, Request.step, hw, code_reset]

/-- A state that is requested, or none, as in a record that has been cleared. -/
def goalCode : Option AlState → UInt16
  | none => EC_STATE_UNKNOWN
  | some y => y.code

theorem path_goal (hpath : Path a cs e) (hv : ∃ g, v = goalCode g) :
    ∃ g, (walk (cs.map Call.step) v).2 = goalCode g := by
  induction hpath generalizing v with
  | nil a => exact hv
  | check ok _ ih =>
    cases ok with
    | true => exact ih hv
    | false => exact hv
  | request y b _ _ ih =>
    have hvalue : ∃ g, (b.step y.code).value.getD v = goalCode g := by
      rw [Request.step]
      split_ifs
      · exact ⟨some y, rfl⟩
      · exact hv
    cases hok : (b.step y.code).ok with
    | true =>
      rw [List.map_cons, Call.step, Walk.walk_cons_of_ok hok]
      exact ih hvalue
    | false =>
      rw [List.map_cons, Call.step, Walk.walk_cons_of_not_ok hok]
      exact hvalue

theorem Path.single (y : AlState) (b : Request) (h : a.mayGo y) : Path a [.request y.code b] y :=
  .request y b h (.nil y)

/-- The transition for two states. -/
def AlState.transition : AlState → AlState → StateTransition
  | init, init => .init2Init
  | init, preop => .init2Preop
  | init, boot => .init2Boot
  | init, safeop => .init2Safeop
  | init, op => .init2Op
  | preop, init => .preop2Init
  | preop, preop => .preop2Preop
  | preop, safeop => .preop2Safeop
  | preop, op => .preop2Op
  | boot, init => .boot2Init
  | boot, preop => .boot2Preop
  | boot, safeop => .boot2Safeop
  | boot, op => .boot2Op
  | safeop, init => .safeop2Init
  | safeop, preop => .safeop2Preop
  | safeop, safeop => .safeop2Safeop
  | safeop, op => .safeop2Op
  | op, init => .op2Init
  | op, preop => .op2Preop
  | op, safeop => .op2Safeop
  | op, op => .op2Op
  | _, boot => .other

theorem ofStates_code (a y : AlState) : .ofStates a.code y.code = a.transition y := by
  cases a <;> cases y <;> decide

theorem state_path {b : Execution} {useEoe : Bool} (a y : AlState) :
    Path a (b.calls y.code useEoe (a.transition y)) (a.reach y) := by
  cases a with
  | init =>
    cases y with
    | init => exact .single .init _ rfl
    | preop => exact .request .preop _ rfl (.check _ (.nil _))
    | boot => exact .request .boot _ rfl (.check _ (.nil _))
    | safeop => exact .request .preop _ rfl (.check _ (.check _ (.single .safeop _ rfl)))
    | op =>
      exact .request .preop _ rfl
        (.check _ (.check _ (.request .safeop _ rfl (.single .op _ rfl))))
  | preop =>
    cases y with
    | init => exact .request .init _ rfl (.request .init _ rfl (.single .init _ rfl))
    | preop => exact .single .preop _ rfl
    | boot => exact .single .init _ rfl
    | safeop => exact .check _ (.single .safeop _ rfl)
    | op => exact .check _ (.request .safeop _ rfl (.single .op _ rfl))
  | boot =>
    cases y with
    | init | boot => exact .single .init _ rfl
    | preop | safeop | op => exact .nil _
  | safeop =>
    cases y with
    | init => exact .request .init _ rfl (.request .init _ rfl (.single .init _ rfl))
    | preop => exact .single .preop _ rfl
    | boot => exact .single .init _ rfl
    | safeop => exact .single .safeop _ rfl
    | op => exact .single .op _ rfl
  | op =>
    cases y with
    | init => exact .request .init _ rfl (.request .init _ rfl (.single .init _ rfl))
    | preop => exact .request .preop _ rfl (.single .preop _ rfl)
    | boot => exact .single .init _ rfl
    | safeop => exact .single .safeop _ rfl
    | op => exact .single .op _ rfl

/-- Where a transition leads that is requested for this state. -/
def AlState.lead (a : AlState) : Option AlState → AlState
  | none => .init
  | some y => a.reach y

/-- Nothing is asked for. -/
def AlState.stays : AlState → Option AlState → Bool
  | .boot, some .preop | .boot, some .safeop | .boot, some .op => true
  | _, _ => false

/-- **The switch** asks along a path, from the state that is shown. -/
theorem execution_path (b : Execution) (useEoe : Bool) (a : AlState) (g : Option AlState) :
    Path a (b.calls (goalCode g) useEoe (.ofStates a.code (goalCode g))) (a.lead g) := by
  cases g with
  | none =>
    have hother : StateTransition.ofStates a.code EC_STATE_UNKNOWN = .other := by
      cases a <;> decide
    have hmay : a.mayGo .init := by cases a <;> rfl
    rw [goalCode, hother]
    exact .single .init _ hmay
  | some y =>
    rw [goalCode, ofStates_code]
    exact state_path a y

theorem calls_isRequest {b : Execution} {useEoe : Bool} (a : AlState) (g : Option AlState) :
    (b.calls (goalCode g) useEoe (.ofStates a.code (goalCode g))).any Call.isRequest =
      !a.stays g := by
  cases g with
  | none =>
    have hother : StateTransition.ofStates a.code EC_STATE_UNKNOWN = .other := by
      cases a <;> decide
    rw [goalCode, hother]
    cases a <;> rfl
  | some y =>
    rw [goalCode, ofStates_code]
    cases a <;> cases y <;> rfl

end

/-! ## A transition -/

section
variable {d d' : Device} {a y : AlState} {x act : UInt16} {useEoe : Bool}

theorem ofStates_error (x : UInt16) :
    StateTransition.ofStates (a.code ||| EC_STATE_ERROR) x = .ofStates a.code x := by
  have hmask : (a.code ||| EC_STATE_ERROR) &&& EC_STATE_MASK = a.code &&& EC_STATE_MASK := by
    cases a <;> decide
  rw [StateTransition.ofStates, hmask, StateTransition.ofStates]

/-- The AL status of a slave in this state. -/
def IsStatus (a : AlState) (v : UInt16) : Prop := v = a.code ∨ v = a.code ||| EC_STATE_ERROR

theorem answer_isStatus {b : Status} {g : Got} (h : b.Shows a) (hg : b.answer = some g) :
    IsStatus a g.state := by
  rw [Status.answer] at hg
  split_ifs at hg with hok
  cases hg
  cases hstat : b.alStat with
  | error | unanswered => simp [Status.got, hstat] at hok
  | value v =>
    have hstate : (b.got true).state = v := by
      rw [Status.got, hstat]
      dsimp only
      split_ifs
      · cases b.alStatCode <;> rfl
      · rfl
    exact hstate ▸ h v hstat

theorem clean_isStatus {b : Status} {v : UInt16} (h : b.Shows a) (hv : b.clean = some v) :
    IsStatus a v := by
  obtain ⟨g, hg, hclean⟩ := Option.bind_eq_some_iff.1 hv
  split_ifs at hclean
  cases hclean
  exact answer_isStatus h hg

/-- The transition begins from the state of the slave. -/
theorem found_isStatus {b : Entry} (h : b.Shows a) (hf : b.found = some act) : IsStatus a act := by
  obtain ⟨g, hg, hrest⟩ := Option.bind_eq_some_iff.1 hf
  have hgot : IsStatus a g.state := by
    rcases (Option.orElse_eq_some ..).1 hg with hstatus | ⟨-, hagain⟩
    · exact answer_isStatus h.status hstatus
    · split_ifs at hagain
      exact answer_isStatus h.again hagain
  split_ifs at hrest with herr hlate
  · obtain ⟨r, hr, hclean⟩ := List.exists_of_findSome?_eq_some hrest
    refine clean_isStatus ?_ hclean
    rcases List.mem_cons.1 hr with rfl | hr
    · exact h.reset
    · exact h.resets r hr
  · cases hrest
    exact hgot

theorem transition_calls {b : Transition} (h : b.Served x useEoe d d')
    (hf : b.entry.found = some act) :
    CallsServed (b.execution.calls x useEoe (.ofStates d.al.code x)) d d' := by
  have hcalls := h.some act hf
  rcases found_isStatus h.entry hf with rfl | rfl
  · exact hcalls
  · rwa [ofStates_error] at hcalls

/-- **A transition asks for nothing that is not allowed**, whatever comes of its requests. -/
theorem transition_lawful {b : Transition} {g : Option AlState}
    (h : b.Served (goalCode g) useEoe d d') (hd : d.Lawful) : d'.Lawful := by
  cases hf : b.entry.found with
  | none => exact h.none hf ▸ hd
  | some act => exact (path_served (execution_path _ _ d.al g) rfl (transition_calls h hf)).1 hd

/-- **A transition that succeeds** leaves the slave where it leads, and that in `expected_state`. -/
theorem transition_ok {b : Transition} {g : Option AlState} {s : Slave}
    (h : b.Served (goalCode g) s.useEoe d d') (hok : (stateTransition (goalCode g) b s).1 = .ok) :
    d'.al = d.al.lead g ∧ (stateTransition (goalCode g) b s).2.expectedState =
      if d.al.stays g then s.expectedState else (d.al.lead g).code := by
  have hwalk := (stateTransition_walks (x := goalCode g) (s := s) (b := b)).walk
  rw [hok, decide_eq_true rfl] at hwalk
  cases hf : b.entry.found with
  | none => simp [Transition.steps, hf, Walk.walk] at hwalk
  | some act =>
    have hsteps : b.steps (goalCode g) s.useEoe =
        (b.execution.calls (goalCode g) s.useEoe
          (.ofStates d.al.code (goalCode g))).map Call.step := by
      rw [Transition.steps, hf, calls_steps]
      rcases found_isStatus h.entry hf with rfl | rfl
      · rfl
      · dsimp only
        rw [ofStates_error]
    rw [hsteps] at hwalk
    have hpath := execution_path b.execution s.useEoe d.al g
    have hall := Walk.ok_of_walk (congrArg Prod.fst hwalk)
    rw [List.forall_mem_map] at hall
    refine ⟨(path_served hpath rfl (transition_calls h hf)).2 hall, ?_⟩
    have hlast := congrArg Prod.snd ((path_walk hpath hall).symm.trans hwalk)
    rw [calls_isRequest] at hlast
    exact hlast.symm.trans (by cases d.al.stays g <;> rfl)

/-- What is left in `expected_state` is always a state that can be requested, or none. -/
theorem transition_goal {b : Transition} {g g' : Option AlState} {s : Slave}
    (hentry : b.entry.Shows d.al) (hs : s.expectedState = goalCode g') :
    ∃ g', (stateTransition (goalCode g) b s).2.expectedState = goalCode g' := by
  have hwalk := (stateTransition_walks (x := goalCode g) (s := s) (b := b)).walk
  cases hf : b.entry.found with
  | none =>
    rw [Transition.steps, hf] at hwalk
    exact ⟨g', (congrArg Prod.snd hwalk).symm.trans hs⟩
  | some act =>
    obtain ⟨g', hg⟩ := path_goal (v := s.expectedState)
      (execution_path b.execution s.useEoe d.al g) ⟨g', hs⟩
    refine ⟨g', (congrArg Prod.snd hwalk).symm.trans (Eq.trans ?_ hg)⟩
    rw [Transition.steps, hf, calls_steps]
    rcases found_isStatus hentry hf with rfl | rfl
    · rfl
    · dsimp only
      rw [ofStates_error]

/-- A slave that has been sent a request, which it has granted, and then once more. -/
def Device.granted (d : Device) (y : AlState) : Device :=
  ⟨y, d.asked ++ [(d.al, y.code)] ++ [(y, y.code)]⟩

end

end LibEthercat.SlaveState
