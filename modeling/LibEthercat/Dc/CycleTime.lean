import LibEthercat.Dc.Divisions
import LibEthercat.Lib.Register
import LibEthercat.Slave.State

/-!
# The cycle time in runs of calls

`ec_dc_config` and `ec_dc_sync` are called on the way to SAFEOP, and divide by the cycle time. It is
what `ec_configure_dc` was called with last; `ec_open` does not set it, and neither does any other
call.

**Theorem (`no_zero_division_iff`).** In a run of calls no division is by zero, just if the timer of
the last `ec_configure_dc` is not zero at each call of these two that comes to its division; without
one, what was in the memory given to `ec_open` counts.
-/

namespace LibEthercat.Dc

open SlaveState (Execution StateTransition Transition enter setState EC_STATE_INIT EC_STATE_PREOP
  EC_STATE_BOOT EC_STATE_SAFEOP EC_STATE_OP EC_STATE_MASK EC_STATE_UNKNOWN)
open Register (Along Follows)

/-! ## The master -/

/-- What a slave is configured with (`slv->dc`). -/
structure DcSettings where
  activationReg : BitVec 32
  cycleTime0 : BitVec 32
  cycleTime1 : BitVec 32
  cycleShift : BitVec 32

/-- The master; a slave is assigned if its `assigned_pd_group` is not `-1`. -/
structure Master extends CycleMaster where
  masterState : UInt16
  assigned : ℕ → Bool
  settings : ℕ → DcSettings

/-- A table of slaves, as the bus or the user makes it. -/
structure Slaves where
  slaves : ℕ → DcSlave
  slaveCnt : ℕ
  assigned : ℕ → Bool
  settings : ℕ → DcSettings

def Master.withSlaves (m : Master) (x : Slaves) : Master :=
  { m with slaves := x.slaves, slaveCnt := x.slaveCnt, assigned := x.assigned,
           settings := x.settings }

/-- The calls that matter for the cycle time, in the order in which they are made, each with the
master it finds. -/
inductive DcCall
  | configureDc (timer : BitVec 64)
  | dcConfig (m : CycleMaster) (b : ConfigBus)
  | dcSync (m : CycleMaster) (slave : ℕ) (active : BitVec 8)
      (cycleTime0 cycleTime1 cycleShift : BitVec 32) (t : DcTimes)

/-- What is done in a call. -/
def DcCall.events (refDelay : BitVec 64 → ℤ) : DcCall → List SyncEvent
  | .configureDc _ => []
  | .dcConfig m b => (ecDcConfigTraced refDelay b m).events
  | .dcSync m slave active cycleTime0 cycleTime1 cycleShift t =>
    (ecDcSync m slave active cycleTime0 cycleTime1 cycleShift t).events

section
variable (refDelay : BitVec 64 → ℤ)

def callDcConfig (b : ConfigBus) (m : Master) : Traced DcCall Master :=
  ⟨[.dcConfig m.toCycleMaster b], (ecDcConfigTraced refDelay b m.toCycleMaster).result.map
    fun r => { m with toCycleMaster := r }⟩

def callDcSync (slave : ℕ) (active : BitVec 8) (cycleTime0 cycleTime1 cycleShift : BitVec 32)
    (t : DcTimes) (m : Master) : Traced DcCall Master :=
  ⟨[.dcSync m.toCycleMaster slave active cycleTime0 cycleTime1 cycleShift t],
    (ecDcSync m.toCycleMaster slave active cycleTime0 cycleTime1 cycleShift t).result.map
      fun _ => m⟩

/-! ## The transition of a slave -/

/-- The switch of `ec_slave_state_transition` comes to `ec_dc_sync`. -/
def reachesDcSync (t : StateTransition) (b : Execution) (s : SlaveState.Slave) : Bool :=
  match t with
  | .init2Safeop | .init2Op =>
    let r := setState EC_STATE_PREOP b.initToPreop s
    (if r.1 = .ok ∧ s.useEoe then b.eoe else r.1) = .ok
  | .preop2Safeop | .preop2Op => true
  | _ => false

/-- The bus during the transition of a slave, its record, and what has been read of its registers
when the transition is over. -/
structure TransitionBus where
  bus : Transition
  slave : SlaveState.Slave
  times : DcTimes
  after : DcSlave

/-- The clocks are configured, if they are used, and switched off otherwise. -/
def configureClocks (slave : ℕ) (t : DcTimes) (m : Master) : Traced DcCall Master :=
  let x := m.settings slave
  if m.haveDc ∧ (m.slaves slave).useDc ≠ 0 then
    let cycleTime0 := if x.cycleTime0 = 0 then m.mainCycleInterval.setWidth 32 else x.cycleTime0
    callDcSync slave (x.activationReg.setWidth 8) cycleTime0 x.cycleTime1 x.cycleShift t
      { m with settings := Function.update m.settings slave { x with cycleTime0 } }
  else callDcSync slave 0 0 0 0 t m

/-- `ec_slave_state_transition`, as far as the clocks are concerned. -/
def slaveTransition (x : UInt16) (b : TransitionBus) (slave : ℕ) (m : Master) :
    Traced DcCall Master :=
  let e := enter b.bus.entry b.slave
  let clocks : Traced DcCall Master :=
    if e.1.1 = .ok ∧ reachesDcSync (.ofStates e.1.2 x) b.bus.execution e.2 then
      configureClocks slave b.times m
    else .pure m
  clocks.bind fun m => .pure { m with slaves := Function.update m.slaves slave b.after }

/-- `ec_state_transition_loop`. With `threaded_startup` the transitions are made by threads of their
own, which does not change what they do. -/
def stateTransitionLoop (x : UInt16) (withGroup : Bool) (b : ℕ → TransitionBus) (m : Master) :
    Traced DcCall Master :=
  Traced.fold (fun m slave =>
    if !withGroup || m.assigned slave then slaveTransition x (b slave) slave m else .pure m) m
    (List.range m.slaveCnt)

/-! ## The user -/

/-- What a user may call at any time, also from the callback of `ec_set_state`. There it does not
call `ec_set_state` once more, nor `ec_open` or `ec_close`. -/
inductive UserCall
  | configureDc (timer : BitVec 64) (mode : DcMode)
  | setDcConfig (slave : ℕ) (useDc : ℤ) (x : DcSettings)
  | dcConfig (b : ConfigBus)
  | dcSync (slave : ℕ) (active : BitVec 8) (cycleTime0 cycleTime1 cycleShift : BitVec 32)
      (t : DcTimes)
  | slaveStateTransition (x : UInt16) (slave : ℕ) (b : TransitionBus)
  /-- Any other call leaves the cycle time and the state of the master alone. -/
  | other (x : Slaves)

def userCall (m : Master) : UserCall → Traced DcCall Master
  | .configureDc timer mode =>
    ⟨[.configureDc timer], some { m with mainCycleInterval := timer, mode := mode }⟩
  | .setDcConfig slave useDc x =>
    .pure { m with
      slaves := Function.update m.slaves slave { m.slaves slave with useDc := useDc }
      settings := Function.update m.settings slave x }
  | .dcConfig b => callDcConfig refDelay b m
  | .dcSync slave active cycleTime0 cycleTime1 cycleShift t =>
    callDcSync slave active cycleTime0 cycleTime1 cycleShift t m
  | .slaveStateTransition x slave b => slaveTransition x b slave m
  | .other x => .pure (m.withSlaves x)

/-! ## `ec_set_state` -/

/-- The loops of `ec_set_state`. -/
inductive StateLoop
  | unknownToInit | toInit | toPreop | toSafeop | toOp
  | downToSafeop | downToPreop | downToInit | rescanned | toBoot
deriving DecidableEq

/-- The bus during a call of `ec_set_state`, and what the user calls from the callback for a state.
-/
structure SetStateBus where
  callback : UInt16 → List UserCall
  loops : StateLoop → ℕ → TransitionBus
  scan : Slaves
  config : ConfigBus

/-- `user_cb_state_transition`. -/
def userCallback (x : UInt16) (b : SetStateBus) (m : Master) : Traced DcCall Master :=
  Traced.fold (userCall refDelay) m (b.callback x)

/-- OP, with the state that has been requested. -/
def toOp (x : UInt16) (b : SetStateBus) (m : Master) : Traced DcCall Master :=
  (userCallback refDelay EC_STATE_OP b m).bind fun m =>
  (stateTransitionLoop EC_STATE_OP true (b.loops .toOp) m).bind fun m =>
  .pure { m with masterState := x }

/-- SAFEOP and what follows. The logical mapping does not use the clocks. -/
def toSafeop (x : UInt16) (b : SetStateBus) (m : Master) : Traced DcCall Master :=
  (userCallback refDelay EC_STATE_SAFEOP b m).bind fun m =>
  (callDcConfig refDelay b.config m).bind fun m =>
  (stateTransitionLoop EC_STATE_SAFEOP true (b.loops .toSafeop) m).bind fun m =>
  if x = EC_STATE_SAFEOP then .pure { m with masterState := x } else toOp refDelay x b m

def toPreop (x : UInt16) (b : SetStateBus) (m : Master) : Traced DcCall Master :=
  (userCallback refDelay EC_STATE_PREOP b m).bind fun m =>
  (stateTransitionLoop EC_STATE_PREOP false (b.loops .toPreop) m).bind fun m =>
  if x = EC_STATE_PREOP then .pure { m with masterState := x } else toSafeop refDelay x b m

/-- INIT, with a scan of the bus. Without a slave the master keeps its state. -/
def toInit (x : UInt16) (b : SetStateBus) (m : Master) : Traced DcCall Master :=
  (userCallback refDelay EC_STATE_INIT b m).bind fun m =>
  (stateTransitionLoop EC_STATE_INIT false (b.loops .unknownToInit) m).bind fun m =>
  let m := m.withSlaves b.scan
  if m.slaveCnt = 0 then .pure m
  else
    (stateTransitionLoop EC_STATE_INIT false (b.loops .toInit) m).bind fun m =>
    if x = EC_STATE_INIT then .pure { m with masterState := x } else toPreop refDelay x b m

def toBoot (x : UInt16) (b : SetStateBus) (m : Master) : Traced DcCall Master :=
  (stateTransitionLoop EC_STATE_BOOT false (b.loops .toBoot) m).bind fun m =>
  .pure { m with masterState := x }

def downToInit (x : UInt16) (b : SetStateBus) (m : Master) : Traced DcCall Master :=
  (userCallback refDelay EC_STATE_INIT b m).bind fun m =>
  (stateTransitionLoop EC_STATE_INIT false (b.loops .downToInit) m).bind fun m =>
  (stateTransitionLoop EC_STATE_INIT false (b.loops .rescanned)
    ({ m with masterState := EC_STATE_INIT }.withSlaves b.scan)).bind fun m =>
  if x = EC_STATE_INIT then .pure { m with masterState := x } else toBoot x b m

/-- PREOP, where the clocks of the master are reset. -/
def downToPreop (x : UInt16) (b : SetStateBus) (m : Master) : Traced DcCall Master :=
  (userCallback refDelay EC_STATE_PREOP b m).bind fun m =>
  (stateTransitionLoop EC_STATE_PREOP false (b.loops .downToPreop) m).bind fun m =>
  let m := { m with rtcTime := 0 }
  if x = EC_STATE_PREOP then .pure { m with masterState := x }
  else downToInit refDelay x b { m with masterState := EC_STATE_PREOP }

def downToSafeop (x : UInt16) (b : SetStateBus) (m : Master) : Traced DcCall Master :=
  (userCallback refDelay EC_STATE_SAFEOP b m).bind fun m =>
  (stateTransitionLoop EC_STATE_SAFEOP false (b.loops .downToSafeop) m).bind fun m =>
  if x = EC_STATE_SAFEOP then .pure { m with masterState := x }
  else downToPreop refDelay x b { m with masterState := EC_STATE_SAFEOP }

/-- `ec_set_state`. -/
def ecSetState (x : UInt16) (b : SetStateBus) (m : Master) : Traced DcCall Master :=
  match (((m.masterState &&& EC_STATE_MASK) <<< 8) ||| (x &&& EC_STATE_MASK)).toNat with
  | 0x0301 | 0x0302 | 0x0304 | 0x0308 | 0x0101 | 0x0001 | 0x0002 | 0x0004 | 0x0008 =>
    toInit refDelay x b m
  | 0x0108 | 0x0104 | 0x0102 | 0x0202 => toPreop refDelay x b m
  | 0x0204 | 0x0208 | 0x0404 => toSafeop refDelay x b m
  | 0x0408 | 0x0808 => toOp refDelay x b m
  | 0x0803 | 0x0801 | 0x0802 | 0x0804 => downToSafeop refDelay x b m
  | 0x0403 | 0x0401 | 0x0402 => downToPreop refDelay x b m
  | 0x0203 | 0x0201 => downToInit refDelay x b m
  | 0x0103 | 0x0303 => toBoot x b m
  | _ => .pure { m with masterState := x }

/-! ## Calls -/

/-- `ec_open` that gets its indices. -/
def Master.opened (m : Master) : Master :=
  { m with masterState := EC_STATE_UNKNOWN, slaveCnt := 0, haveDc := false, rtcTime := 0 }

inductive ApiCall
  /-- `ec_open`, with the result of `ec_index_init`. -/
  | openMaster (ok : Bool)
  | close (b : SetStateBus)
  | setState (x : UInt16) (b : SetStateBus)
  | user (c : UserCall)

def apiCall (m : Master) : ApiCall → Traced DcCall Master
  | .openMaster ok => .pure (if ok then m.opened else m)
  | .close b => (ecSetState refDelay EC_STATE_INIT b m).bind fun m => .pure { m with slaveCnt := 0 }
  | .setState x b => ecSetState refDelay x b m
  | .user c => userCall refDelay m c

/-- A run of calls behind `ec_open`, which is given this memory. -/
def apiRun (memory : Master) (ok : Bool) (calls : List ApiCall) : Traced DcCall Master :=
  Traced.fold (apiCall refDelay) memory (.openMaster ok :: calls)

end

/-! ## What the calls find -/

/-- What the timer has been set to, for the calls that come after. -/
def DcCall.timer? : DcCall → Option (BitVec 64)
  | .configureDc timer => some timer
  | _ => none

/-- The cycle time that the call finds. -/
def DcCall.Finds : DcCall → BitVec 64 → Prop
  | .configureDc _, _ => True
  | .dcConfig m _, timer => m.mainCycleInterval = timer
  | .dcSync m _ _ _ _ _ _, timer => m.mainCycleInterval = timer

/-- The cycle time is always that of the last `ec_configure_dc`. -/
abbrev KeepsTimer (timer : BitVec 64) (t : Traced DcCall Master) : Prop :=
  Follows DcCall.timer? DcCall.Finds (fun m : Master => m.mainCycleInterval) timer t

section
variable {refDelay : BitVec 64 → ℤ} {m : Master} {x : UInt16} {slave : ℕ}

theorem callDcConfig_timed (b : ConfigBus) :
    KeepsTimer m.mainCycleInterval (callDcConfig refDelay b m) := by
  refine .single rfl fun m' hm' => ?_
  obtain ⟨r, hr, rfl⟩ := Option.map_eq_some_iff.1 hm'
  rw [ecDcConfigTraced_result hr]
  rfl

theorem callDcSync_timed {timer : BitVec 64} (h : m.mainCycleInterval = timer)
    (active : BitVec 8) (cycleTime0 cycleTime1 cycleShift : BitVec 32) (t : DcTimes) :
    KeepsTimer timer (callDcSync slave active cycleTime0 cycleTime1 cycleShift t m) := by
  refine .single h fun m' hm' => ?_
  obtain ⟨-, -, rfl⟩ := Option.map_eq_some_iff.1 hm'
  exact h

theorem configureClocks_timed (t : DcTimes) :
    KeepsTimer m.mainCycleInterval (configureClocks slave t m) := by
  unfold configureClocks
  dsimp only
  by_cases hdc : m.haveDc ∧ (m.slaves slave).useDc ≠ 0
  · rw [if_pos hdc]
    exact callDcSync_timed (by rfl) ..
  · rw [if_neg hdc]
    exact callDcSync_timed rfl ..

theorem slaveTransition_timed (b : TransitionBus) :
    KeepsTimer m.mainCycleInterval (slaveTransition x b slave m) := by
  unfold slaveTransition
  refine (?_ : KeepsTimer m.mainCycleInterval _).bind fun _ => .pure rfl
  split_ifs
  · exact configureClocks_timed b.times
  · exact .pure rfl

theorem stateTransitionLoop_timed (withGroup : Bool) (b : ℕ → TransitionBus) :
    KeepsTimer m.mainCycleInterval (stateTransitionLoop x withGroup b m) := by
  refine Follows.fold (fun m slave => ?_) m _
  split_ifs
  · exact slaveTransition_timed (b slave)
  · exact .pure rfl

theorem userCall_timed (c : UserCall) :
    KeepsTimer m.mainCycleInterval (userCall refDelay m c) := by
  cases c with
  | configureDc timer mode =>
    refine .single trivial ?_
    rintro m' ⟨⟩
    rfl
  | setDcConfig slave useDc x => exact .pure rfl
  | dcConfig b => exact callDcConfig_timed b
  | dcSync => exact callDcSync_timed rfl ..
  | slaveStateTransition x slave b => exact slaveTransition_timed b
  | other x => exact .pure rfl

theorem userCallback_timed (b : SetStateBus) :
    KeepsTimer m.mainCycleInterval (userCallback refDelay x b m) :=
  Follows.fold (fun _ c => userCall_timed c) m _

/-! ### The parts of `ec_set_state` -/

variable (x) (b : SetStateBus)

theorem toOp_timed : KeepsTimer m.mainCycleInterval (toOp refDelay x b m) :=
  (userCallback_timed b).bind fun _ => (stateTransitionLoop_timed ..).bind fun _ =>
    .pure rfl

theorem toSafeop_timed : KeepsTimer m.mainCycleInterval (toSafeop refDelay x b m) := by
  refine (userCallback_timed b).bind fun _ => (callDcConfig_timed b.config).bind fun _ =>
    (stateTransitionLoop_timed ..).bind fun _ => ?_
  split_ifs
  · exact .pure rfl
  · exact toOp_timed x b

theorem toPreop_timed : KeepsTimer m.mainCycleInterval (toPreop refDelay x b m) := by
  refine (userCallback_timed b).bind fun _ => (stateTransitionLoop_timed ..).bind fun _ => ?_
  split_ifs
  · exact .pure rfl
  · exact toSafeop_timed x b

theorem toInit_timed : KeepsTimer m.mainCycleInterval (toInit refDelay x b m) := by
  refine (userCallback_timed b).bind fun _ => (stateTransitionLoop_timed ..).bind fun m => ?_
  dsimp only
  split
  · exact .pure rfl
  · refine (stateTransitionLoop_timed (m := m.withSlaves b.scan) ..).bind fun _ => ?_
    split_ifs
    · exact .pure rfl
    · exact toPreop_timed x b

theorem toBoot_timed : KeepsTimer m.mainCycleInterval (toBoot x b m) :=
  (stateTransitionLoop_timed ..).bind fun _ => .pure rfl

theorem downToInit_timed : KeepsTimer m.mainCycleInterval (downToInit refDelay x b m) := by
  refine (userCallback_timed b).bind fun _ => (stateTransitionLoop_timed ..).bind fun m =>
    (stateTransitionLoop_timed (m := { m with masterState := EC_STATE_INIT }.withSlaves b.scan)
      ..).bind fun _ => ?_
  split_ifs
  · exact .pure rfl
  · exact toBoot_timed x b

theorem downToPreop_timed : KeepsTimer m.mainCycleInterval (downToPreop refDelay x b m) := by
  refine (userCallback_timed b).bind fun _ => (stateTransitionLoop_timed ..).bind fun m => ?_
  split_ifs
  · exact .pure rfl
  · exact downToInit_timed (m := { m with rtcTime := 0, masterState := EC_STATE_PREOP }) x b

theorem downToSafeop_timed : KeepsTimer m.mainCycleInterval (downToSafeop refDelay x b m) := by
  refine (userCallback_timed b).bind fun _ => (stateTransitionLoop_timed ..).bind fun m => ?_
  split_ifs
  · exact .pure rfl
  · exact downToPreop_timed (m := { m with masterState := EC_STATE_SAFEOP }) x b

theorem ecSetState_timed : KeepsTimer m.mainCycleInterval (ecSetState refDelay x b m) := by
  unfold ecSetState
  split
  any_goals with_reducible exact toInit_timed x b
  any_goals with_reducible exact toPreop_timed x b
  any_goals with_reducible exact toSafeop_timed x b
  any_goals with_reducible exact toOp_timed x b
  any_goals with_reducible exact downToSafeop_timed x b
  any_goals with_reducible exact downToPreop_timed x b
  any_goals with_reducible exact downToInit_timed x b
  any_goals with_reducible exact toBoot_timed x b
  exact .pure rfl

end

/-! ## Divisions by zero -/

section
variable {refDelay : BitVec 64 → ℤ} {m memory : Master} {ok : Bool} {calls : List ApiCall}
  {c : DcCall} {timer : BitVec 64}

theorem apiCall_timed (c : ApiCall) : KeepsTimer m.mainCycleInterval (apiCall refDelay m c) := by
  cases c with
  | openMaster ok => exact .pure (by cases ok <;> rfl)
  | close b => exact (ecSetState_timed ..).bind fun _ => .pure rfl
  | setState x b => exact ecSetState_timed x b
  | user c => exact userCall_timed c

/-- **The cycle time in a run.** -/
theorem apiRun_timed : KeepsTimer memory.mainCycleInterval (apiRun refDelay memory ok calls) :=
  Follows.fold (fun _ c => apiCall_timed c) memory _

/-- A call that comes to a division: the bus has a slave that uses distributed clocks, or the slave
supports them. -/
def DcCall.Divides : DcCall → Prop
  | .configureDc _ => False
  | .dcConfig m _ => ∃ i < m.slaveCnt, (m.slaves i).active = true
  | .dcSync m slave active _ _ _ t => SyncDivides m slave active t

/-- No call divides by zero. -/
def NoZeroDivision (refDelay : BitVec 64 → ℤ) (cs : List DcCall) : Prop :=
  ∀ c ∈ cs, ∀ e ∈ c.events refDelay, e.Defined

/-- The timer that was configured last, or what was in the memory at first, is not zero at the calls
that come to a division. -/
def TimerSet (memory : BitVec 64) (cs : List DcCall) : Prop :=
  Along DcCall.timer? (fun c timer => c.Divides → timer ≠ 0) memory cs

/-- What a call needs, in terms of the timer it finds. -/
theorem events_defined_iff (h : c.Finds timer) :
    (∀ e ∈ c.events refDelay, e.Defined) ↔ (c.Divides → timer ≠ 0) := by
  cases c with
  | configureDc t => exact iff_of_true nofun nofun
  | dcConfig m b =>
    obtain rfl : m.mainCycleInterval = timer := h
    exact all_ecDcConfigTraced
  | dcSync m slave active cycleTime0 cycleTime1 cycleShift t =>
    obtain rfl : m.mainCycleInterval = timer := h
    exact all_ecDcSync

/-- **No division by zero**, in a run of calls behind `ec_open`. -/
theorem no_zero_division_iff (refDelay : BitVec 64 → ℤ) (memory : Master) (ok : Bool)
    (calls : List ApiCall) :
    NoZeroDivision refDelay (apiRun refDelay memory ok calls).events ↔
      TimerSet memory.mainCycleInterval (apiRun refDelay memory ok calls).events :=
  Register.forall_iff_along apiRun_timed.along fun _ _ => events_defined_iff

end

/-- Cleared memory. -/
def clearedMaster : Master where
  slaves _ := ⟨0, 0, 0, 0, 0, 0, 0, 0, 0, 0, 0, 0, fun _ => 0, 0, 0, 0, 0⟩
  slaveCnt := 0
  mode := .masterClock
  haveDc := false
  have64bit := false
  masterAddress := 0
  next := 0
  rtcTime := 0
  packetDuration := 0
  mainCycleInterval := 0
  masterState := 0
  assigned _ := false
  settings _ := ⟨0, 0, 0, 0⟩

/-- A slave that supports distributed clocks, as a scan leaves it, and with its features. -/
def clockSlave (features : UInt16) : DcSlave :=
  ⟨1000, 0x11, features, 0b01, -1, 0, 0, 0, 1, 0, 0, 0, fun _ => 0, 0, 0, 0, 0⟩

/-- A bus with one such slave, on the way to OP. -/
def clockBus : SetStateBus where
  callback _ := []
  loops l _ :=
    ⟨SlaveState.willing EC_STATE_INIT (if l = .toInit then EC_STATE_INIT else EC_STATE_PREOP),
      ⟨0, 0, false, false⟩, ⟨0, [], 0⟩, clockSlave 0x000C⟩
  scan := ⟨fun _ => clockSlave 0, 1, fun _ => false, fun _ => ⟨0, 0, 0, 0⟩⟩
  config := ⟨⟨fun _ => none, fun _ => none⟩, 0, fun _ => 5000000000⟩

/-- Without `ec_configure_dc`, the first way to OP divides by zero. -/
theorem zero_division_unconfigured :
    ¬ NoZeroDivision (fun _ => 0)
      (apiRun (fun _ => 0) clearedMaster true [.setState EC_STATE_OP clockBus]).events := by
  have hzero : ((apiRun (fun _ => 0) clearedMaster true
      [.setState EC_STATE_OP clockBus]).events.any fun c =>
        (c.events fun _ => 0).any fun e => e = .divide 0) = true := by
    decide +kernel
  intro hall
  obtain ⟨c, hc, he⟩ := List.any_eq_true.1 hzero
  obtain ⟨e, he, heq⟩ := List.any_eq_true.1 he
  exact hall c hc e he (of_decide_eq_true heq)

end LibEthercat.Dc
