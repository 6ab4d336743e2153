import Mathlib.Data.Nat.Notation

/-!
# The state of a slave

`ec_slave_get_state`, `ec_slave_set_state` and `ec_slave_state_transition`, with what they leave in
the record of the slave. What comes back from the bus, and whether a timer has expired, is given for
each datagram and each round of a loop, so that any step may fail or time out.
-/

namespace LibEthercat.SlaveState

def EC_STATE_UNKNOWN : UInt16 := 0x0000
def EC_STATE_INIT : UInt16 := 0x0001
def EC_STATE_PREOP : UInt16 := 0x0002
def EC_STATE_BOOT : UInt16 := 0x0003
def EC_STATE_SAFEOP : UInt16 := 0x0004
def EC_STATE_OP : UInt16 := 0x0008
def EC_STATE_MASK : UInt16 := 0x000F
def EC_STATE_ERROR : UInt16 := 0x0010
def EC_STATE_RESET : UInt16 := 0x0010

/-- Return values, as far as they are told apart. -/
inductive Ret
  | ok
  | slaveNotResponding
  | slaveStateSwitch
  | cyclicLoop
  | other
deriving DecidableEq

/-- What these functions use of `ec_slave_t`. -/
structure Slave where
  actState : UInt16
  expectedState : UInt16
  transitionActive : Bool
  useEoe : Bool
deriving DecidableEq

/-! ## Reading the state -/

/-- A datagram that reads a register: `ec_transceive` fails, nobody answers, or there is a value. -/
inductive Read
  | error
  | unanswered
  | value (v : UInt16)
deriving DecidableEq

/-- The AL status and the AL status code. -/
structure Status where
  alStat : Read
  alStatCode : Read

/-- What `ec_slave_get_state` gives. -/
structure Got where
  ret : Ret
  state : UInt16
  alStatusCode : UInt16

def Status.got (b : Status) (withCode : Bool) : Got :=
  match b.alStat with
  | .error | .unanswered => ⟨.slaveNotResponding, EC_STATE_UNKNOWN, 0⟩
  | .value v =>
    if withCode && v &&& 0x10 != 0 then
      match b.alStatCode with
      | .error => ⟨.other, v, 0⟩
      | .unanswered => ⟨.ok, v, 0⟩
      | .value c => ⟨.ok, v, c⟩
    else ⟨.ok, v, 0⟩

def Slave.setActState (s : Slave) : Read → Slave
  | .error | .unanswered => s
  | .value v => { s with actState := v }

/-- `ec_slave_get_state`. The AL status code is read for those who want it. -/
def getState (b : Status) (withCode : Bool) (s : Slave) : Got × Slave :=
  (b.got withCode, s.setActState b.alStat)

/-! ## Requesting a state -/

/-- A round of the loop of `ec_slave_set_state`: whether the request has been sent, and what is read
afterwards. -/
structure Attempt where
  write : Bool
  status : Status

/-- A call of `ec_slave_set_state`: whether the first datagram is sent, the rounds until the
timeout, and whether it comes after them. -/
structure Request where
  write : Bool
  first : Attempt
  more : List Attempt
  late : Bool

/-- The variables of the loop. -/
structure Switching where
  actState : UInt16
  ret : Ret
  slave : Slave

/-- A slave that refuses the request is reset, which changes nothing in its record. -/
def attempt (a : Attempt) (v : Switching) : Switching :=
  if a.write then
    let g := getState a.status false v.slave
    ⟨g.1.state, g.1.ret, g.2⟩
  else v

/-- The loop, and whether it has timed out. -/
def attempts (x : UInt16) (first : Attempt) : List Attempt → Switching → Switching × Bool
  | [], v => (attempt first v, (attempt first v).actState != x)
  | a :: more, v =>
    if (attempt first v).actState = x then (attempt first v, false)
    else attempts x a more (attempt first v)

/-- `ec_slave_set_state`. -/
def setState (x : UInt16) (b : Request) (s : Slave) : Ret × Slave :=
  if !b.write then (.slaveNotResponding, s)
  else if x &&& EC_STATE_RESET != 0 then
    -- the request is repeated until the error is gone; the slave's record is not used
    (.ok, s)
  else
    let v := attempts x b.first b.more
      ⟨0, .ok, { s with transitionActive := true, expectedState := x }⟩
    let ret := if v.2 || b.late then .slaveNotResponding else v.1.ret
    if ret = .ok then
      (if v.1.actState = x then .ok else .slaveStateSwitch,
        { v.1.slave with actState := v.1.actState, transitionActive := false })
    else (ret, { v.1.slave with transitionActive := false })

/-! ## The requests of a transition -/

/-- The transitions that `ec_slave_state_transition` knows. -/
inductive StateTransition
  | boot2Preop | boot2Safeop | boot2Op
  | init2Boot | init2Preop | init2Safeop | init2Op
  | preop2Safeop | preop2Op
  | safeop2Op
  | op2Safeop | op2Preop
  | op2Init | safeop2Preop | safeop2Init | preop2Init
  | unknown2Init
  | boot2Init | init2Init
  | preop2Preop | safeop2Safeop | op2Op
  | other
deriving DecidableEq

def StateTransition.ofCode : ℕ → StateTransition
  | 0x0302 => .boot2Preop
  | 0x0304 => .boot2Safeop
  | 0x0308 => .boot2Op
  | 0x0103 => .init2Boot
  | 0x0102 => .init2Preop
  | 0x0104 => .init2Safeop
  | 0x0108 => .init2Op
  | 0x0204 => .preop2Safeop
  | 0x0208 => .preop2Op
  | 0x0408 => .safeop2Op
  | 0x0804 => .op2Safeop
  | 0x0802 => .op2Preop
  | 0x0801 => .op2Init
  | 0x0402 => .safeop2Preop
  | 0x0401 => .safeop2Init
  | 0x0201 => .preop2Init
  | 0x0001 => .unknown2Init
  | 0x0301 => .boot2Init
  | 0x0101 => .init2Init
  | 0x0202 => .preop2Preop
  | 0x0404 => .safeop2Safeop
  | 0x0808 => .op2Op
  | _ => .other

/-- From the actual state to the requested one. -/
def StateTransition.ofStates (act x : UInt16) : StateTransition :=
  .ofCode (((act &&& EC_STATE_MASK) <<< 8) ||| (x &&& EC_STATE_MASK)).toNat

/-- The bus while a transition is executed. -/
structure Execution where
  /-- `ec_eoe_set_ip_parameter` -/
  eoe : Ret
  /-- `ec_dc_sync` -/
  dcSync : Ret
  /-- The requests of the cases of the switch, in their order. -/
  initToPreop : Request
  preopToSafeop : Request
  safeopToOp : Request
  opDown : Request
  toInit : Request
  unknownToInit : Request
  same : Request

/-- `SAFEOP_2_OP` -/
def safeopToOp (b : Execution) (s : Slave) : Ret × Slave := setState EC_STATE_OP b.safeopToOp s

/-- `PREOP_2_SAFEOP` and `PREOP_2_OP`, which goes on to OP. -/
def preopToSafeop (t : StateTransition) (b : Execution) (s : Slave) : Ret × Slave :=
  if b.dcSync = .cyclicLoop then (b.dcSync, s)
  else
    let r := setState EC_STATE_SAFEOP b.preopToSafeop s
    if r.1 ≠ .ok ∨ t = .init2Safeop ∨ t = .preop2Safeop then r else safeopToOp b r.2

/-- `INIT_2_BOOT` and the others from INIT, which go on to SAFEOP. -/
def initToPreop (t : StateTransition) (b : Execution) (s : Slave) : Ret × Slave :=
  let r := setState (if t = .init2Boot then EC_STATE_BOOT else EC_STATE_PREOP) b.initToPreop s
  let ret := if r.1 = .ok ∧ s.useEoe then b.eoe else r.1
  if ret ≠ .ok ∨ t = .init2Preop ∨ t = .init2Boot then (ret, r.2) else preopToSafeop t b r.2

/-- `PREOP_2_PREOP` and the like. -/
def sameState (x : UInt16) (b : Execution) (s : Slave) : Ret × Slave := setState x b.same s

/-- `BOOT_2_INIT` and `INIT_2_INIT` free the resources of the slave and read its registers and its
EEPROM again. -/
def initToInit (x : UInt16) (b : Execution) (s : Slave) : Ret × Slave := sameState x b s

/-- `UNKNOWN_2_INIT` -/
def unknownToInit (x : UInt16) (b : Execution) (s : Slave) : Ret × Slave :=
  let r := setState x b.unknownToInit s
  if r.1 ≠ .ok then r else initToInit x b r.2

/-- `OP_2_INIT`, `SAFEOP_2_PREOP`, `SAFEOP_2_INIT` and `PREOP_2_INIT`. -/
def toInit (t : StateTransition) (x : UInt16) (b : Execution) (s : Slave) : Ret × Slave :=
  let r := setState x b.toInit s
  if r.1 ≠ .ok ∨ t = .op2Preop ∨ t = .safeop2Preop then r else unknownToInit x b r.2

/-- `OP_2_SAFEOP` and `OP_2_PREOP`. -/
def opDown (t : StateTransition) (x : UInt16) (b : Execution) (s : Slave) : Ret × Slave :=
  let r := setState x b.opDown s
  if r.1 ≠ .ok ∨ t = .op2Safeop then r else toInit t x b r.2

/-- The switch over the transition. -/
def execute (t : StateTransition) (x : UInt16) (b : Execution) (s : Slave) : Ret × Slave :=
  match t with
  | .boot2Preop | .boot2Safeop | .boot2Op => (.ok, s)
  | .init2Boot | .init2Preop | .init2Safeop | .init2Op => initToPreop t b s
  | .preop2Safeop | .preop2Op => preopToSafeop t b s
  | .safeop2Op => safeopToOp b s
  | .op2Safeop | .op2Preop => opDown t x b s
  | .op2Init | .safeop2Preop | .safeop2Init | .preop2Init => toInit t x b s
  | .unknown2Init => unknownToInit x b s
  | .boot2Init | .init2Init => initToInit x b s
  | .preop2Preop | .safeop2Safeop | .op2Op => sameState x b s
  | .other => setState EC_STATE_INIT b.same s

/-! ## The transition -/

/-- The bus until the switch: the state of the slave, again when its fixed address has been written
anew, and the rounds in which an error is reset. -/
structure Entry where
  status : Status
  address : Bool
  again : Status
  reset : Status
  resets : List Status
  late : Bool

/-- The loop that resets an error: the state at last, and whether it has timed out. -/
def resetError (b : Status) : List Status → Slave → (UInt16 × Bool) × Slave
  | [], s =>
    let g := getState b true s
    ((g.1.state, g.1.ret != .ok || g.1.state &&& EC_STATE_ERROR != 0), g.2)
  | b' :: more, s =>
    let g := getState b true s
    if g.1.ret = .ok ∧ g.1.state &&& EC_STATE_ERROR = 0 then ((g.1.state, false), g.2)
    else resetError b' more g.2

/-- The state of the slave, if need be after its fixed address has been written. -/
def readState (b : Entry) (s : Slave) : Got × Slave :=
  let g := getState b.status true s
  if g.1.ret = .ok then g
  else if b.address then getState b.again true g.2
  else ({ g.1 with ret := .slaveNotResponding }, g.2)

/-- What is done before the switch, with the actual state. -/
def enter (b : Entry) (s : Slave) : (Ret × UInt16) × Slave :=
  let g := readState b s
  if g.1.ret = .ok ∧ g.1.state &&& EC_STATE_ERROR ≠ 0 ∧ g.1.alStatusCode ≠ 0 then
    let r := resetError b.reset b.resets g.2
    ((if r.1.2 || b.late then .slaveNotResponding else .ok, r.1.1), r.2)
  else ((g.1.ret, g.1.state), g.2)

/-- The bus during a transition. -/
structure Transition where
  entry : Entry
  execution : Execution

/-- `ec_slave_state_transition`. -/
def stateTransition (x : UInt16) (b : Transition) (s : Slave) : Ret × Slave :=
  let e := enter b.entry s
  if e.1.1 = .ok then execute (.ofStates e.1.2 x) x b.execution e.2 else (e.1.1, e.2)

/-- A slave that is in `act` and reaches whatever it is asked for. -/
def willing (act x : UInt16) : Transition :=
  let answer (v : UInt16) : Status := ⟨.value v, .value 0⟩
  let grant (v : UInt16) : Request := ⟨true, ⟨true, answer v⟩, [], false⟩
  ⟨⟨answer act, true, answer act, answer act, [], false⟩,
    ⟨.ok, .ok, grant EC_STATE_PREOP, grant EC_STATE_SAFEOP, grant EC_STATE_OP, grant x, grant x,
      grant x, grant x⟩⟩

end LibEthercat.SlaveState
