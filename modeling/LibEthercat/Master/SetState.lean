import LibEthercat.Dc.CycleTime

/-!
# The switch of `ec_set_state`

What `ec_set_state` does from one state to another, as a list of what is done one after the other
(`setStateCode`). The cases of the switch fall through, so each list goes on with that of the next
case. `ecSetState_eq` says that the function with its distributed clocks runs this list.
-/

namespace LibEthercat.Master

open SlaveState
open Dc (StateLoop DcCall SetStateBus ConfigBus stateTransitionLoop userCallback callDcConfig)

/-! ## The code -/

/-- What is done in the cases. -/
inductive Instr
  | callback (x : UInt16)
  | loop (l : StateLoop) (x : UInt16) (withGroup : Bool)
  | scan
  /-- Without a slave, that is all. -/
  | stopIfEmpty
  /-- `ec_dc_config`, `ec_prepare_state_transition_loop` and the logical mapping. -/
  | configure
  /-- The times in `pec->dc` are cleared. -/
  | resetClocks
  | setMaster (x : UInt16)

def opCode (x : UInt16) : List Instr :=
  [.callback EC_STATE_OP, .loop .toOp EC_STATE_OP true, .setMaster x]

def safeopCode (x : UInt16) : List Instr :=
  [.callback EC_STATE_SAFEOP, .configure, .loop .toSafeop EC_STATE_SAFEOP true] ++
    if x = EC_STATE_SAFEOP then [.setMaster x] else opCode x

def preopCode (x : UInt16) : List Instr :=
  [.callback EC_STATE_PREOP, .loop .toPreop EC_STATE_PREOP false] ++
    if x = EC_STATE_PREOP then [.setMaster x] else safeopCode x

def initCode (x : UInt16) : List Instr :=
  [.callback EC_STATE_INIT, .loop .unknownToInit EC_STATE_INIT false, .scan, .stopIfEmpty,
    .loop .toInit EC_STATE_INIT false] ++
    if x = EC_STATE_INIT then [.setMaster x] else preopCode x

def bootCode (x : UInt16) : List Instr := [.loop .toBoot EC_STATE_BOOT false, .setMaster x]

def downToInitCode (x : UInt16) : List Instr :=
  [.callback EC_STATE_INIT, .loop .downToInit EC_STATE_INIT false, .setMaster EC_STATE_INIT, .scan,
    .loop .rescanned EC_STATE_INIT false] ++
    if x = EC_STATE_INIT then [.setMaster x] else bootCode x

def downToPreopCode (x : UInt16) : List Instr :=
  [.callback EC_STATE_PREOP, .loop .downToPreop EC_STATE_PREOP false, .resetClocks] ++
    if x = EC_STATE_PREOP then [.setMaster x] else .setMaster EC_STATE_PREOP :: downToInitCode x

def downToSafeopCode (x : UInt16) : List Instr :=
  [.callback EC_STATE_SAFEOP, .loop .downToSafeop EC_STATE_SAFEOP false] ++
    if x = EC_STATE_SAFEOP then [.setMaster x] else .setMaster EC_STATE_SAFEOP :: downToPreopCode x

/-- The switch. A transition that it does not know, such as `UNKNOWN_2_BOOT`, only sets the state of
the master. -/
def setStateCode (masterState x : UInt16) : List Instr :=
  match (((masterState &&& EC_STATE_MASK) <<< 8) ||| (x &&& EC_STATE_MASK)).toNat with
  | 0x0301 | 0x0302 | 0x0304 | 0x0308 | 0x0101 | 0x0001 | 0x0002 | 0x0004 | 0x0008 => initCode x
  | 0x0108 | 0x0104 | 0x0102 | 0x0202 => preopCode x
  | 0x0204 | 0x0208 | 0x0404 => safeopCode x
  | 0x0408 | 0x0808 => opCode x
  | 0x0803 | 0x0801 | 0x0802 | 0x0804 => downToSafeopCode x
  | 0x0403 | 0x0401 | 0x0402 => downToPreopCode x
  | 0x0203 | 0x0201 => downToInitCode x
  | 0x0103 | 0x0303 => bootCode x
  | _ => [.setMaster x]

/-! ## With the distributed clocks -/

section
variable (refDelay : BitVec 64 → ℤ) (b : SetStateBus)

/-- What is done for the clocks, or with the state of the master. -/
def Instr.traced : Instr → Dc.Master → Traced DcCall Dc.Master
  | .callback x, m => userCallback refDelay x b m
  | .loop l x withGroup, m => stateTransitionLoop x withGroup (b.loops l) m
  | .scan, m => .pure (m.withSlaves b.scan)
  | .stopIfEmpty, m => .pure m
  | .configure, m => callDcConfig refDelay b.config m
  | .resetClocks, m => .pure { m with rtcTime := 0 }
  | .setMaster x, m => .pure { m with masterState := x }

def tracedCode : List Instr → Dc.Master → Traced DcCall Dc.Master
  | [], m => .pure m
  | .stopIfEmpty :: is, m => if m.slaveCnt = 0 then .pure m else tracedCode is m
  | i :: is, m => (i.traced refDelay b m).bind (tracedCode is)

theorem toOp_eq (x : UInt16) : Dc.toOp refDelay x b = tracedCode refDelay b (opCode x) := rfl

theorem toSafeop_eq (x : UInt16) :
    Dc.toSafeop refDelay x b = tracedCode refDelay b (safeopCode x) := by
  funext m
  unfold Dc.toSafeop safeopCode
  rw [toOp_eq]
  split_ifs <;> rfl

theorem toPreop_eq (x : UInt16) :
    Dc.toPreop refDelay x b = tracedCode refDelay b (preopCode x) := by
  funext m
  unfold Dc.toPreop preopCode
  rw [toSafeop_eq]
  split_ifs <;> rfl

theorem toInit_eq (x : UInt16) :
    Dc.toInit refDelay x b = tracedCode refDelay b (initCode x) := by
  funext m
  unfold Dc.toInit initCode
  rw [toPreop_eq]
  split_ifs <;> rfl

theorem toBoot_eq (x : UInt16) : Dc.toBoot x b = tracedCode refDelay b (bootCode x) := rfl

theorem downToInit_eq (x : UInt16) :
    Dc.downToInit refDelay x b = tracedCode refDelay b (downToInitCode x) := by
  funext m
  unfold Dc.downToInit downToInitCode
  rw [toBoot_eq refDelay]
  split_ifs <;> rfl

theorem downToPreop_eq (x : UInt16) :
    Dc.downToPreop refDelay x b = tracedCode refDelay b (downToPreopCode x) := by
  funext m
  unfold Dc.downToPreop downToPreopCode
  rw [downToInit_eq]
  split_ifs <;> rfl

theorem downToSafeop_eq (x : UInt16) :
    Dc.downToSafeop refDelay x b = tracedCode refDelay b (downToSafeopCode x) := by
  funext m
  unfold Dc.downToSafeop downToSafeopCode
  rw [downToPreop_eq]
  split_ifs <;> rfl

/-- **`ec_set_state` runs the list.** -/
theorem ecSetState_eq (x : UInt16) (m : Dc.Master) :
    Dc.ecSetState refDelay x b m = tracedCode refDelay b (setStateCode m.masterState x) m := by
  unfold Dc.ecSetState setStateCode
  generalize (((m.masterState &&& EC_STATE_MASK) <<< 8) ||| (x &&& EC_STATE_MASK)).toNat = n
  simp only [toOp_eq, toSafeop_eq, toPreop_eq, toInit_eq, toBoot_eq refDelay, downToInit_eq,
    downToPreop_eq, downToSafeop_eq]
  split
  case h_30 =>
    -- a transition that one switch does not know is not known to the other
    simp only [*, tracedCode]
    rfl
  all_goals rfl

end

end LibEthercat.Master
