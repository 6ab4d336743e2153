import Mathlib.Data.Int.ModEq
import LibEthercat.Dc.Config
import LibEthercat.Lib.Traced

/-!
# `ec_dc_sync`

The first SYNC0 pulse of a slave is due about a second after the time of the master clock, rounded
down to a multiple of the cycle time, with the shift of the slave on top (`dc.c`). The expression is
computed in 64 bits without a sign, the shift being extended with its sign, and stored to a number
with a sign.

**Theorem (`dc_sync_in_phase`).** Slaves that are configured at different times still fire in phase:
their start times differ by their shifts, modulo the cycle time.
-/

namespace LibEthercat.Dc

def EC_REG_DCSYSTIME : UInt16 := 0x0910
def EC_REG_DCCUC : UInt16 := 0x0980
def EC_REG_DCSYNCACT : UInt16 := 0x0981
def EC_REG_DCSTART0 : UInt16 := 0x0990
def EC_REG_DCCYCLE0 : UInt16 := 0x09A0
def EC_REG_DCCYCLE1 : UInt16 := 0x09A4

def ONE_SEC : BitVec 64 := 1000000000

/-- The master with its cycle time, a number with a sign. -/
structure CycleMaster extends DcMaster where
  mainCycleInterval : BitVec 64

/-! ## The function -/

/-- What the function does on its way. -/
inductive SyncEvent
  | fpwr (adr reg : UInt16) (bits : ℕ) (data : BitVec bits)
  | fprd (adr reg : UInt16)
  | divide (divisor : BitVec 64)
deriving DecidableEq

/-- Return values. -/
inductive SyncRet
  | ok
  | slaveNotFound
  | unavailable
  | cyclicLoop
deriving DecidableEq

/-- What `pec->dc.dc_time` reads: at first, in each pass of the loop that waits for it until the
timer expires, and in the calculation. -/
structure DcTimes where
  first : BitVec 64
  passes : List (BitVec 64)
  last : BitVec 64

/-- The second to wait for the cyclic loop is over. -/
def DcTimes.timeout (t : DcTimes) : Bool := t.first = 0 && t.passes.all (· = 0)

def fpwr (adr reg : UInt16) {bits : ℕ} (data : BitVec bits) : Traced SyncEvent Unit :=
  .event (.fpwr adr reg bits data)

def fprd (adr reg : UInt16) : Traced SyncEvent Unit := .event (.fprd adr reg)

/-- A division by 0 does not come to an end. -/
def divide (a d : BitVec 64) : Traced SyncEvent (BitVec 64) :=
  ⟨[.divide d], if d = 0 then none else some (a / d)⟩

/-- `dc_start`, from the quotient. -/
def startTime (q interval : BitVec 64) (cycleShift : BitVec 32) : BitVec 64 :=
  q * interval + cycleShift.signExtend 64 + ONE_SEC

/-- The requests, with the calculation in between. -/
def program (adr : UInt16) (interval : BitVec 64) (active : BitVec 8)
    (cycleTime0 cycleTime1 cycleShift : BitVec 32) (dcTime : BitVec 64) :
    Traced SyncEvent SyncRet :=
  (fpwr adr EC_REG_DCSYNCACT 0#8).bind fun _ =>
  (fpwr adr EC_REG_DCCUC 0#8).bind fun _ =>
  (fprd adr EC_REG_DCSYSTIME).bind fun _ =>
  (divide dcTime interval).bind fun q =>
  (fpwr adr EC_REG_DCSTART0 (startTime q interval cycleShift)).bind fun _ =>
  (fpwr adr EC_REG_DCCYCLE0 cycleTime0).bind fun _ =>
  (fpwr adr EC_REG_DCCYCLE1 cycleTime1).bind fun _ =>
  (fpwr adr EC_REG_DCSYNCACT active).bind fun _ =>
  .pure .ok

theorem program_of_ne {adr : UInt16} {interval dcTime : BitVec 64} {active : BitVec 8}
    {cycleTime0 cycleTime1 cycleShift : BitVec 32} (h : interval ≠ 0) :
    program adr interval active cycleTime0 cycleTime1 cycleShift dcTime =
      ⟨[.fpwr adr EC_REG_DCSYNCACT 8 0, .fpwr adr EC_REG_DCCUC 8 0, .fprd adr EC_REG_DCSYSTIME,
        .divide interval,
        .fpwr adr EC_REG_DCSTART0 64 (startTime (dcTime / interval) interval cycleShift),
        .fpwr adr EC_REG_DCCYCLE0 32 cycleTime0, .fpwr adr EC_REG_DCCYCLE1 32 cycleTime1,
        .fpwr adr EC_REG_DCSYNCACT 8 active], some .ok⟩ := by
  rw [program, divide, if_neg h]
  rfl

theorem program_of_zero {adr : UInt16} {dcTime : BitVec 64} {active : BitVec 8}
    {cycleTime0 cycleTime1 cycleShift : BitVec 32} :
    program adr 0 active cycleTime0 cycleTime1 cycleShift dcTime =
      ⟨[.fpwr adr EC_REG_DCSYNCACT 8 0, .fpwr adr EC_REG_DCCUC 8 0, .fprd adr EC_REG_DCSYSTIME,
        .divide 0], none⟩ := rfl

/-- `ec_dc_sync`. -/
def ecDcSync (m : CycleMaster) (slave : ℕ) (active : BitVec 8)
    (cycleTime0 cycleTime1 cycleShift : BitVec 32) (t : DcTimes) : Traced SyncEvent SyncRet :=
  if m.slaveCnt ≤ slave then .pure .slaveNotFound
  else if (m.slaves slave).features &&& EC_REG_ESCSUP_DC_SUPP = 0 then .pure .unavailable
  else if active ≠ 0 ∧ t.timeout then .pure .cyclicLoop
  else
    program (m.slaves slave).fixedAddress m.mainCycleInterval active cycleTime0 cycleTime1
      cycleShift t.last

/-- The start times that are programmed. -/
def startTimes (events : List SyncEvent) : List (BitVec 64) :=
  events.filterMap fun
    | .fpwr _ reg _ data => if reg = EC_REG_DCSTART0 then some (data.setWidth 64) else none
    | _ => none

/-! ## The start time -/

/-- The start time fits into a number of 64 bits with a sign. -/
def NoOverflow (dcTime interval : BitVec 64) (cycleShift : BitVec 32) : Prop :=
  ((dcTime.toNat / interval.toNat * interval.toNat : ℕ) : ℤ) + cycleShift.toInt + 1000000000 <
    2 ^ 63

instance (dcTime interval : BitVec 64) (cycleShift : BitVec 32) :
    Decidable (NoOverflow dcTime interval cycleShift) := inferInstanceAs (Decidable (_ < _))

section
variable {dcTime interval : BitVec 64} {cycleShift : BitVec 32}

/-- **The start time is exact.** -/
theorem startTime_toInt (h : NoOverflow dcTime interval cycleShift) :
    (startTime (dcTime / interval) interval cycleShift).toInt =
      ((dcTime.toNat / interval.toNat * interval.toNat : ℕ) : ℤ) + cycleShift.toInt +
        1000000000 := by
  have hle : dcTime.toNat / interval.toNat * interval.toNat < 2 ^ 64 :=
    (Nat.div_mul_le_self ..).trans_lt dcTime.isLt
  have hfloor : (dcTime / interval * interval).toInt =
      ((dcTime.toNat / interval.toNat * interval.toNat : ℕ) : ℤ).bmod (2 ^ 64) := by
    rw [BitVec.toInt_eq_toNat_bmod, BitVec.toNat_mul, BitVec.toNat_udiv, Nat.mod_eq_of_lt hle]
  have hsec : ONE_SEC.toInt = 1000000000 := by decide
  have hshift := BitVec.toInt_lt (x := cycleShift)
  have hshift' := BitVec.le_toInt (x := cycleShift)
  unfold NoOverflow at h
  rw [startTime, BitVec.toInt_add, BitVec.toInt_add, hfloor,
    BitVec.toInt_signExtend_of_le (by decide), hsec, Int.bmod_add_bmod, add_assoc,
    Int.bmod_add_bmod, ← add_assoc]
  exact Int.bmod_eq_of_le (by omega) (by omega)

/-- A positive number has the same value with and without a sign. -/
theorem toNat_of_pos (hpos : 0 < interval.toInt) : (interval.toNat : ℤ) = interval.toInt := by
  rw [BitVec.toInt_eq_toNat_cond] at hpos ⊢
  have hlt := interval.isLt
  split_ifs at hpos ⊢ <;> omega

/-- It is that shift away from a multiple of the cycle time, but for the second. -/
theorem startTime_modEq (hpos : 0 < interval.toInt) (h : NoOverflow dcTime interval cycleShift) :
    (startTime (dcTime / interval) interval cycleShift).toInt ≡ cycleShift.toInt + 1000000000
      [ZMOD interval.toInt] := by
  rw [startTime_toInt h, Nat.cast_mul, toNat_of_pos hpos, add_assoc]
  exact Int.mul_add_emod_self_right ..

/-- It lies ahead, less than a cycle earlier than a second and the shift. -/
theorem lt_startTime (hpos : 0 < interval.toInt) (h : NoOverflow dcTime interval cycleShift) :
    (dcTime.toNat : ℤ) + 1000000000 - interval.toInt + cycleShift.toInt <
      (startTime (dcTime / interval) interval cycleShift).toInt := by
  have hinterval := toNat_of_pos hpos
  have hfloor : dcTime.toNat < dcTime.toNat / interval.toNat * interval.toNat + interval.toNat :=
    Nat.lt_div_mul_add (by omega)
  rw [startTime_toInt h]
  omega

end

/-! ## Configured slaves -/

section
variable {m m' : CycleMaster} {slave slave' : ℕ} {active active' : BitVec 8}
  {cycleTime0 cycleTime1 cycleShift cycleTime0' cycleTime1' cycleShift' : BitVec 32}
  {t t' : DcTimes}

/-- A slave that has been configured has been given one start time. -/
theorem ecDcSync_ok
    (h : (ecDcSync m slave active cycleTime0 cycleTime1 cycleShift t).result = some .ok) :
    startTimes (ecDcSync m slave active cycleTime0 cycleTime1 cycleShift t).events =
      [startTime (t.last / m.mainCycleInterval) m.mainCycleInterval cycleShift] := by
  unfold ecDcSync at h ⊢
  split_ifs at h ⊢
  · cases h
  · cases h
  · cases h
  by_cases hzero : m.mainCycleInterval = 0
  · rw [hzero, program_of_zero] at h
    cases h
  · rw [program_of_ne hzero]
    simp [startTimes, EC_REG_DCSYNCACT, EC_REG_DCCUC, EC_REG_DCSTART0, EC_REG_DCCYCLE0,
      EC_REG_DCCYCLE1]

/-- **Any two slaves fire in phase**, and each of them lies ahead. -/
theorem dc_sync_in_phase (m m' : CycleMaster) (hpos : 0 < m.mainCycleInterval.toInt)
    (hsame : m'.mainCycleInterval = m.mainCycleInterval)
    (hfit : NoOverflow t.last m.mainCycleInterval cycleShift)
    (hfit' : NoOverflow t'.last m.mainCycleInterval cycleShift')
    (hok : (ecDcSync m slave active cycleTime0 cycleTime1 cycleShift t).result = some .ok)
    (hok' : (ecDcSync m' slave' active' cycleTime0' cycleTime1' cycleShift' t').result =
      some .ok) :
    ∃ dcStart dcStart' : BitVec 64,
      startTimes (ecDcSync m slave active cycleTime0 cycleTime1 cycleShift t).events =
        [dcStart] ∧
      startTimes (ecDcSync m' slave' active' cycleTime0' cycleTime1' cycleShift' t').events =
        [dcStart'] ∧
      dcStart.toInt - dcStart'.toInt ≡ cycleShift.toInt - cycleShift'.toInt
        [ZMOD m.mainCycleInterval.toInt] ∧
      (t.last.toNat : ℤ) + 1000000000 - m.mainCycleInterval.toInt + cycleShift.toInt <
        dcStart.toInt ∧
      (t'.last.toNat : ℤ) + 1000000000 - m.mainCycleInterval.toInt + cycleShift'.toInt <
        dcStart'.toInt := by
  refine ⟨_, _, ecDcSync_ok hok, ecDcSync_ok hok', ?_, lt_startTime hpos hfit, ?_⟩
  · rw [hsame, ← add_sub_add_right_eq_sub cycleShift.toInt _ 1000000000]
    exact (startTime_modEq hpos hfit).sub (startTime_modEq hpos hfit')
  · rw [hsame]
    exact lt_startTime hpos hfit'

/-- A cycle of a millisecond, and two slaves with a clock. -/
def cycleMaster : CycleMaster where
  slaves i :=
    ⟨1000 + i.toUInt16, 0x1100, 0x000C, 0b11, i - 1, 0, 0, 0, 1, 0, 0, 0, fun _ => 0, 0, 0, 0, 0⟩
  slaveCnt := 2
  mode := .refClock
  haveDc := true
  have64bit := true
  masterAddress := 1000
  next := 0
  rtcTime := 0
  packetDuration := 0
  mainCycleInterval := 1000000

/-- The shift of the first is negative, the second is configured later. -/
theorem dc_sync_in_phase_two :
    ∃ dcStart dcStart' : BitVec 64,
      startTimes (ecDcSync cycleMaster 0 1 1000000 0 (-250000) ⟨7, [], 5300000007⟩).events =
        [dcStart] ∧
      startTimes (ecDcSync cycleMaster 1 1 1000000 0 400000 ⟨0, [0, 9], 9712345678⟩).events =
        [dcStart'] ∧
      dcStart.toInt - dcStart'.toInt ≡ -250000 - 400000 [ZMOD 1000000] ∧
      5300000007 + 1000000000 - 1000000 + -250000 < dcStart.toInt ∧
      9712345678 + 1000000000 - 1000000 + 400000 < dcStart'.toInt :=
  dc_sync_in_phase cycleMaster cycleMaster (by decide) rfl (by decide) (by decide)
    (by decide) (by decide)

end

end LibEthercat.Dc
