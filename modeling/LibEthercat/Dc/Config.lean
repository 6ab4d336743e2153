import Mathlib.Algebra.Group.Int.Defs
import Mathlib.Logic.Function.Basic
import LibEthercat.Dc.Time
import LibEthercat.Lib.Folds

/-!
# `ec_dc_config`

The slaves are visited in the order of their numbers (`dc.c`). One that uses distributed clocks is
linked to the one before it, its latched port times give its entry port, and the times of the slave
above it give its propagation delay. Which port of that slave it is attached to is not known; the
next port of it that no slave has taken yet is taken.

A request that fails is logged and nothing else: `check_ret` does not return.
-/

namespace LibEthercat.Dc

/-! ## Ports -/

/-- `(ports & (1u << port)) != 0u`. -/
def hasPort (ports : BitVec 8) (port : ℕ) : Bool := ports &&& (1#8 <<< port) ≠ 0

/-- `ports & ~(1u << port)`. -/
def clearPort (ports : BitVec 8) (port : ℕ) : BitVec 8 := ports &&& ~~~(1#8 <<< port)

def forwardPortOrder (port : ℕ) : List ℕ :=
  match port with
  | 0 => [3, 1, 2, 0]
  | 1 => [2, 0, 3, 1]
  | 2 => [0, 3, 1, 2]
  | _ => [1, 2, 0, 3]

def reversePortOrder (port : ℕ) : List ℕ :=
  match port with
  | 0 => [2, 1, 3, 0]
  | 1 => [3, 0, 2, 1]
  | 2 => [1, 3, 0, 2]
  | _ => [0, 2, 1, 3]

/-- `get_previous_active_port`: only the first three ports of the order are tried. -/
def getPreviousActivePort (activePorts : BitVec 8) (port : ℕ) : ℕ :=
  (((reversePortOrder port).take 3).find? (hasPort activePorts)).getD port

/-- `get_and_consume_next_available_port`: the port, and the ports that are left. -/
def getAndConsumeNextAvailablePort (availablePorts : BitVec 8) (port : ℕ) : ℕ × BitVec 8 :=
  match (forwardPortOrder port).find? (hasPort availablePorts) with
  | some p => (p, clearPort availablePorts p)
  | none => (port, availablePorts)

/-! ## Slaves -/

/-- A slave, as far as the function is concerned. The port times are unsigned, the delays are signed
numbers of 32 bits. -/
structure DcSlave where
  fixedAddress : UInt16
  type : UInt16
  features : UInt16
  activePorts : BitVec 8
  parent : ℤ
  entryPort : ℤ
  portOnParent : ℤ
  pdelay : ℤ
  useDc : ℤ
  next : ℤ
  prev : ℤ
  availablePorts : BitVec 8
  receiveTimes : ℕ → BitVec 32
  tDelayChilds : ℤ
  tDelayWithChilds : ℤ
  tDelaySlave : ℤ
  tDelayParentPrevious : ℤ

def EC_REG_ESCSUP_DC_SUPP : UInt16 := 0x0004
def EC_REG_ESCSUP_DC_RANGE : UInt16 := 0x0008

/-- The slave supports distributed clocks, and they are to be used. -/
def DcSlave.active (slv : DcSlave) : Bool :=
  slv.useDc ≠ 0 && slv.features &&& EC_REG_ESCSUP_DC_SUPP ≠ 0

/-- All but the links and the ports that are free. -/
def DcSlave.own (slv : DcSlave) : DcSlave := { slv with next := 0, prev := 0, availablePorts := 0 }

theorem DcSlave.eq_of_own {τ : Type} (g : DcSlave → τ) {slv slv' : DcSlave}
    (h : slv.own = slv'.own) (hg : ∀ slv : DcSlave, g slv.own = g slv) : g slv = g slv' := by
  rw [← hg, h, hg]

/-- What a slave has from its own times. -/
def DcSlave.sensed (slv : DcSlave) : ℤ × (ℕ → BitVec 32) × ℤ :=
  (slv.entryPort, slv.receiveTimes, slv.tDelayChilds)

/-- What says where a slave is attached and whether its clock is used. -/
def DcSlave.wiring (slv : DcSlave) : Bool × ℤ × BitVec 8 × UInt16 :=
  (slv.active, slv.parent, slv.activePorts, slv.type)

theorem DcSlave.wiring_eq {slv slv' : DcSlave} : slv.wiring = slv'.wiring ↔
    slv.active = slv'.active ∧ slv.parent = slv'.parent ∧ slv.activePorts = slv'.activePorts ∧
      slv.type = slv'.type := by
  simp only [wiring, Prod.mk.injEq]

/-- Without an active port the entry port stays `-1`; the source reads beside the array then. -/
def DcSlave.time (slv : DcSlave) (port : ℤ) : BitVec 32 := slv.receiveTimes port.toNat

/-- At first every active port is free. -/
def DcSlave.freePorts (slv : DcSlave) : DcSlave := { slv with availablePorts := slv.activePorts }

def DcSlave.notUsed (slv : DcSlave) : DcSlave :=
  { slv with useDc := 0, receiveTimes := fun _ => 0 }

theorem DcSlave.wiring_notUsed {slv : DcSlave} (h : ¬ slv.active = true) :
    slv.notUsed.wiring = slv.wiring := by
  have hactive : slv.notUsed.active = slv.active := by
    rw [Bool.not_eq_true] at h
    rw [h]
    rfl
  rw [wiring, hactive]
  rfl

/-- The port with the smallest time is the entry port; `ports` are those still to be looked at. -/
def findEntryPort (activePorts : BitVec 8) (times : ℕ → BitVec 32) : ℤ → List ℕ → ℤ
  | entry, [] => entry
  | entry, i :: ports =>
    if hasPort activePorts i ∧ (entry = -1 ∨ times i < times entry.toNat) then
      findEntryPort activePorts times i ports
    else findEntryPort activePorts times entry ports

/-- What the requests bring: a latched time for each port of a slave, if the request succeeds, and
after a slave of the type `0x1200` has been reversed, a second one. -/
structure Latches where
  first : ℕ → Option (ℕ → BitVec 32)
  second : ℕ → Option (ℕ → BitVec 32)

/-- Read the port times, and find the entry port; it is not free for another slave. -/
def DcSlave.latch (slv : DcSlave) (first second : Option (ℕ → BitVec 32)) : DcSlave :=
  let times := first.getD slv.receiveTimes
  let entry := findEntryPort slv.activePorts times (-1) [0, 1, 2, 3]
  { slv with
    entryPort := entry
    receiveTimes := if entry ≠ 0 ∧ slv.type = 0x1200 then second.getD times else times
    availablePorts := clearPort slv.availablePorts entry.toNat }

/-- The master, with the parts of `pec->dc` that the function sets. -/
structure DcMaster where
  slaves : ℕ → DcSlave
  slaveCnt : ℕ
  mode : DcMode
  haveDc : Bool
  have64bit : Bool
  masterAddress : UInt16
  next : ℤ
  rtcTime : BitVec 64
  packetDuration : BitVec 64

namespace DcMaster

def modify (m : DcMaster) (i : ℕ) (f : DcSlave → DcSlave) : DcMaster :=
  { m with slaves := Function.update m.slaves i (f (m.slaves i)) }

/-- `have_dc`, `prev` and the links; `prev` is the last slave that has been linked. -/
def link (m : DcMaster) (prev : ℤ) (slave : ℕ) : DcMaster :=
  if m.haveDc then
    (m.modify prev.toNat fun slv => { slv with next := slave }).modify slave
      fun slv => { slv with prev := prev }
  else
    { m with
      haveDc := true
      have64bit := (m.slaves slave).features &&& EC_REG_ESCSUP_DC_RANGE ≠ 0
      masterAddress := (m.slaves slave).fixedAddress
      rtcTime := 0
      next := slave }.modify slave fun slv => { slv with prev := -1 }

/-- The walk to the next slave above that has its clock active, at most `fuel` slaves up. -/
def dcParent (slaves : ℕ → DcSlave) : ℕ → ℤ → ℤ
  | 0, parent => parent
  | fuel + 1, parent =>
    if parent < 0 then parent
    else if (slaves parent.toNat).active then parent
    else dcParent slaves fuel (slaves parent.toNat).parent

/-- A parent has a smaller number, so that the walk takes at most as many steps as there are slaves
before. -/
def parentOf (m : DcMaster) (slave : ℕ) : ℤ := dcParent m.slaves slave (m.slaves slave).parent

end DcMaster

/-! ## Delays -/

/-- `t_diff`. -/
def tDiff : ℤ := 20

/-- What is left of a number in a signed one of 32 bits. -/
def toInt32 (z : ℤ) : ℤ := z.bmod (2 ^ 32)

theorem toInt32_of_lt {z : ℤ} (hz : 0 ≤ z) (hlt : z < 2 ^ 31) : toInt32 z = z :=
  Int.bmod_eq_of_le (by omega) (by omega)

/-- Only the 32 bits of a summand matter. -/
theorem toInt32_add_congr {x y : ℤ} (h : toInt32 x = toInt32 y) (z : ℤ) :
    toInt32 (x + z) = toInt32 (y + z) := (Int.bmod_add_cancel_right z).2 h

@[simp] theorem toInt32_toInt32 (z : ℤ) : toInt32 (toInt32 z) = toInt32 z := Int.bmod_bmod

/-- The time from the entry port to the last port that is connected. -/
def DcSlave.delayChilds (slv : DcSlave) : DcSlave :=
  let last := getPreviousActivePort slv.activePorts slv.entryPort.toNat
  { slv with tDelayChilds := (slv.time last - slv.time slv.entryPort).toInt }

/-- The delays of a slave that is attached to the slave `up` at this port. -/
def DcSlave.delays (slv up : DcSlave) (port : ℕ) : DcSlave :=
  let previous := getPreviousActivePort up.activePorts port
  let withChilds := toInt32 (toInt32 ((up.time port).toInt - (up.time previous).toInt)).natAbs
  let own : ℤ := ((toInt32 (withChilds - slv.tDelayChilds + tDiff)).tdiv 2).natAbs
  let parentPrevious := (up.time previous - up.time up.entryPort).toInt
  { slv with
    portOnParent := port
    tDelayWithChilds := withChilds
    tDelaySlave := own
    tDelayParentPrevious := parentPrevious
    pdelay :=
      if slv.entryPort = 0 then toInt32 (up.pdelay + parentPrevious + own)
      else
        let entry := toInt32 ((slv.time slv.entryPort).toInt - (slv.time 0).toInt + tDiff)
        toInt32 (up.pdelay + (toInt32 entry.natAbs).tdiv 2) }

/-- The port of a slave that the next one below it takes, and the ports that are left. -/
def DcSlave.taken (up : DcSlave) : ℕ × BitVec 8 :=
  getAndConsumeNextAvailablePort up.availablePorts up.entryPort.toNat

/-- The values that the slave takes from its own times. -/
def DcSlave.measured (slv : DcSlave) (ans : Latches) (slave : ℕ) : DcSlave :=
  (slv.latch (ans.first slave) (ans.second slave)).delayChilds

@[simp] theorem DcSlave.delays_portOnParent (slv up : DcSlave) (port : ℕ) :
    (slv.delays up port).portOnParent = port := rfl

@[simp] theorem DcSlave.delays_tDelayParentPrevious (slv up : DcSlave) (port : ℕ) :
    (slv.delays up port).tDelayParentPrevious =
      (up.time (getPreviousActivePort up.activePorts port) - up.time up.entryPort).toInt := rfl

namespace DcMaster

/-- The slave takes the next port of the one above it. Without one, in one mode, the delay is a part
of the packet duration, computed in floating point. -/
def attach (m : DcMaster) (refDelay : BitVec 64 → ℤ) (slave : ℕ) : DcMaster :=
  let parent := m.parentOf slave
  if 0 ≤ parent then
    let up := m.slaves parent.toNat
    (m.modify parent.toNat fun slv => { slv with availablePorts := up.taken.2 }).modify slave
      fun slv => slv.delays up up.taken.1
  else if m.mode = .masterAsRefClock then
    let childs := (m.slaves m.next.toNat).tDelayChilds
    m.modify slave fun slv =>
      { slv with pdelay := refDelay (m.packetDuration - BitVec.ofInt 64 childs) }
  else m

/-! ## The loop -/

/-- A slave whose clock is used; `prev` is the one before it. -/
def configActive (ans : Latches) (refDelay : BitVec 64 → ℤ) (m : DcMaster) (prev : ℤ)
    (slave : ℕ) : DcMaster :=
  let m := m.link prev slave
  let m := m.modify slave fun slv => slv.measured ans slave
  m.attach refDelay slave

/-- A pass of the loop; with the master goes `prev`. -/
def configSlave (ans : Latches) (refDelay : BitVec 64 → ℤ) (st : DcMaster × ℤ) (slave : ℕ) :
    DcMaster × ℤ :=
  let m := st.1.modify slave DcSlave.freePorts
  if (m.slaves slave).active then (m.configActive ans refDelay st.2 slave, slave)
  else (m.modify slave DcSlave.notUsed, st.2)

/-- What is set before the loop. -/
def start (m : DcMaster) (duration : BitVec 64) : DcMaster :=
  { m with haveDc := false, have64bit := true, masterAddress := 0, packetDuration := duration }

def configRange (ans : Latches) (refDelay : BitVec 64 → ℤ) (st : DcMaster × ℤ)
    (slaves : List ℕ) : DcMaster × ℤ :=
  slaves.foldl (configSlave ans refDelay) st

/-- `ec_dc_config`; `duration` is the measured packet duration. -/
def ecDcConfig (ans : Latches) (refDelay : BitVec 64 → ℤ) (duration : BitVec 64) (m : DcMaster) :
    DcMaster :=
  (configRange ans refDelay (m.start duration, -1) (List.range m.slaveCnt)).1

/-! ## What a pass changes -/

variable {ans : Latches} {refDelay : BitVec 64 → ℤ} {m : DcMaster} {st : DcMaster × ℤ}
  {i slave : ℕ} {f : DcSlave → DcSlave}

@[simp] theorem modify_same : (m.modify i f).slaves i = f (m.slaves i) := Function.update_self ..

@[simp] theorem modify_of_ne {j : ℕ} (h : j ≠ i) : (m.modify i f).slaves j = m.slaves j :=
  Function.update_of_ne h ..

@[simp] theorem modify_slaveCnt : (m.modify i f).slaveCnt = m.slaveCnt := rfl
@[simp] theorem modify_next : (m.modify i f).next = m.next := rfl
@[simp] theorem modify_haveDc : (m.modify i f).haveDc = m.haveDc := rfl

theorem modify_keeps {τ : Type} (g : DcSlave → τ) (h : g (f (m.slaves i)) = g (m.slaves i))
    (j : ℕ) : g ((m.modify i f).slaves j) = g (m.slaves j) := by
  by_cases hj : j = i
  · subst hj
    rw [modify_same, h]
  · rw [modify_of_ne hj]

theorem link_own (prev : ℤ) (i : ℕ) :
    ((m.link prev slave).slaves i).own = (m.slaves i).own := by
  unfold link
  split_ifs
  · rw [modify_keeps DcSlave.own rfl, modify_keeps DcSlave.own rfl]
  · rw [modify_keeps DcSlave.own rfl]

theorem link_wiring (prev : ℤ) (i : ℕ) :
    ((m.link prev slave).slaves i).wiring = (m.slaves i).wiring := by
  have h : ((m.link prev slave).slaves i).own.wiring = (m.slaves i).own.wiring := by rw [link_own]
  exact h

theorem link_availablePorts (prev : ℤ) (i : ℕ) :
    ((m.link prev slave).slaves i).availablePorts = (m.slaves i).availablePorts := by
  unfold link
  split_ifs
  · rw [modify_keeps DcSlave.availablePorts rfl, modify_keeps DcSlave.availablePorts rfl]
  · rw [modify_keeps DcSlave.availablePorts rfl]

theorem attach_own_of_ne (hi : i ≠ slave) :
    ((m.attach refDelay slave).slaves i).own = (m.slaves i).own := by
  unfold attach
  dsimp only
  split_ifs
  · rw [modify_of_ne hi, modify_keeps DcSlave.own rfl]
  · rw [modify_of_ne hi]
  · rfl

theorem link_slaveCnt (prev : ℤ) : (m.link prev slave).slaveCnt = m.slaveCnt := by
  unfold link
  split_ifs <;> rfl

theorem attach_slaveCnt : (m.attach refDelay slave).slaveCnt = m.slaveCnt := by
  unfold attach
  dsimp only
  split_ifs <;> rfl

theorem configSlave_slaveCnt :
    (configSlave ans refDelay st slave).1.slaveCnt = st.1.slaveCnt := by
  unfold configSlave
  dsimp only
  split_ifs
  · rw [configActive, attach_slaveCnt, modify_slaveCnt, link_slaveCnt, modify_slaveCnt]
  · rfl

theorem configSlave_own_of_ne (hi : i ≠ slave) :
    ((configSlave ans refDelay st slave).1.slaves i).own = (st.1.slaves i).own := by
  unfold configSlave
  dsimp only
  split_ifs
  · rw [configActive, attach_own_of_ne hi, modify_of_ne hi, link_own, modify_of_ne hi]
  · rw [modify_of_ne hi, modify_of_ne hi]

/-! ## What no pass changes -/

theorem attach_wiring (i : ℕ) :
    ((m.attach refDelay slave).slaves i).wiring = (m.slaves i).wiring := by
  unfold attach
  dsimp only
  split_ifs
  · rw [modify_keeps DcSlave.wiring rfl, modify_keeps DcSlave.wiring rfl]
  · rw [modify_keeps DcSlave.wiring rfl]
  · rfl

theorem configSlave_wiring (i : ℕ) :
    ((configSlave ans refDelay st slave).1.slaves i).wiring = (st.1.slaves i).wiring := by
  unfold configSlave
  dsimp only
  split_ifs with h
  · rw [configActive, attach_wiring, modify_keeps DcSlave.wiring rfl,
      link_wiring, modify_keeps DcSlave.wiring rfl]
  · rw [modify_keeps DcSlave.wiring (DcSlave.wiring_notUsed h), modify_keeps DcSlave.wiring rfl]

theorem dcParent_congr {slaves slaves' : ℕ → DcSlave}
    (h : ∀ i, (slaves i).wiring = (slaves' i).wiring) (fuel : ℕ) (parent : ℤ) :
    dcParent slaves fuel parent = dcParent slaves' fuel parent := by
  induction fuel generalizing parent with
  | zero => rfl
  | succ fuel ih =>
    obtain ⟨hactive, hparent⟩ := DcSlave.wiring_eq.1 (h parent.toNat)
    rw [dcParent, dcParent, hactive, hparent.1, ih]

theorem parentOf_congr {m m' : DcMaster} (h : ∀ i, (m.slaves i).wiring = (m'.slaves i).wiring)
    (slave : ℕ) : m.parentOf slave = m'.parentOf slave := by
  rw [parentOf, parentOf, (DcSlave.wiring_eq.1 (h slave)).2.1, dcParent_congr h]

/-! ## The pass of a slave itself -/

theorem delays_congr {slv slv' up up' : DcSlave} (h : slv.own = slv'.own) (hup : up.own = up'.own)
    (port : ℕ) : (slv.delays up port).own = (slv'.delays up' port).own := by
  have hdelays : (slv.own.delays up.own port).own = (slv'.own.delays up'.own port).own := by
    rw [h, hup]
  exact hdelays

/-- The state in which a slave takes its port. -/
def latched (ans : Latches) (st : DcMaster × ℤ) (slave : ℕ) : DcMaster :=
  ((st.1.modify slave DcSlave.freePorts).link st.2 slave).modify slave
    fun slv => slv.measured ans slave

theorem configSlave_active (h : (st.1.slaves slave).active = true) :
    configSlave ans refDelay st slave =
      ((latched ans st slave).attach refDelay slave, (slave : ℤ)) := by
  have hfree : ((st.1.modify slave DcSlave.freePorts).slaves slave).active = true := by
    rw [modify_same]
    exact h
  unfold configSlave
  dsimp only
  rw [if_pos hfree]
  rfl

theorem configSlave_inactive (h : (st.1.slaves slave).active = false) :
    configSlave ans refDelay st slave =
      ((st.1.modify slave DcSlave.freePorts).modify slave DcSlave.notUsed, st.2) := by
  have hfree : ((st.1.modify slave DcSlave.freePorts).slaves slave).active = false := by
    rw [modify_same]
    exact h
  unfold configSlave
  dsimp only
  rw [if_neg (by rw [hfree]; exact Bool.false_ne_true)]

theorem latched_wiring (i : ℕ) :
    ((latched ans st slave).slaves i).wiring = (st.1.slaves i).wiring := by
  rw [latched, modify_keeps DcSlave.wiring rfl, link_wiring, modify_keeps DcSlave.wiring rfl]

/-- The other slaves are as they were, but for their links. -/
theorem latched_of_ne (ans : Latches) (st : DcMaster × ℤ) (hi : i ≠ slave) :
    ((latched ans st slave).slaves i).own = (st.1.slaves i).own ∧
      ((latched ans st slave).slaves i).availablePorts = (st.1.slaves i).availablePorts := by
  rw [latched, modify_of_ne hi, link_own, link_availablePorts, modify_of_ne hi]
  exact ⟨rfl, rfl⟩

/-- What is measured does not depend on the links. -/
theorem measured_congr {slv slv' : DcSlave} (h : slv.own = slv'.own) :
    (slv.measured ans slave).own = (slv'.measured ans slave).own := by
  have hmeasured : (slv.own.measured ans slave).own = (slv'.own.measured ans slave).own := by rw [h]
  exact hmeasured

theorem latched_self (ans : Latches) (st : DcMaster × ℤ) (slave : ℕ) :
    ((latched ans st slave).slaves slave).own = ((st.1.slaves slave).measured ans slave).own := by
  rw [latched, modify_same]
  apply measured_congr
  rw [link_own, modify_same]
  rfl

theorem latched_self_availablePorts :
    ((latched ans st slave).slaves slave).availablePorts =
      clearPort (st.1.slaves slave).activePorts
        ((st.1.slaves slave).measured ans slave).entryPort.toNat := by
  have hown : (((st.1.modify slave DcSlave.freePorts).link st.2 slave).slaves slave).own =
      (st.1.slaves slave).own := by
    rw [link_own, modify_same]
    rfl
  have havail :
      (((st.1.modify slave DcSlave.freePorts).link st.2 slave).slaves slave).availablePorts =
        (st.1.slaves slave).activePorts := by
    rw [link_availablePorts, modify_same]
    rfl
  rw [latched, modify_same, ← DcSlave.eq_of_own (fun slv => (slv.measured ans slave).entryPort) hown
    fun _ => rfl, ← havail]
  rfl

/-! ## Taking a port -/

theorem parentOf_latched : (latched ans st slave).parentOf slave = st.1.parentOf slave :=
  parentOf_congr latched_wiring slave

variable {p : ℕ}

/-- A slave with an active one above it, which is another one. -/
theorem configSlave_below (h : (st.1.slaves slave).active = true)
    (hparent : st.1.parentOf slave = p) (hne : p ≠ slave) :
    ((configSlave ans refDelay st slave).1.slaves slave).own =
        (((st.1.slaves slave).measured ans slave).delays (st.1.slaves p)
          (st.1.slaves p).taken.1).own ∧
      ((configSlave ans refDelay st slave).1.slaves p).availablePorts =
        (st.1.slaves p).taken.2 := by
  obtain ⟨hown, havail⟩ := latched_of_ne ans st hne
  have htaken : ((latched ans st slave).slaves p).taken = (st.1.slaves p).taken := by
    rw [DcSlave.taken, DcSlave.taken, havail, DcSlave.eq_of_own DcSlave.entryPort hown fun _ => rfl]
  rw [configSlave_active h, attach, parentOf_latched, hparent]
  dsimp only
  rw [if_pos (Int.natCast_nonneg p), Int.toNat_natCast, modify_same, modify_of_ne hne, modify_same,
    modify_of_ne hne.symm, htaken]
  exact ⟨delays_congr (latched_self ans st slave) hown _, rfl⟩

/-- In all cases the slave has the values that it takes from its own times. -/
theorem configSlave_measured (h : (st.1.slaves slave).active = true) :
    ((configSlave ans refDelay st slave).1.slaves slave).sensed =
      ((st.1.slaves slave).measured ans slave).sensed := by
  have hself := DcSlave.eq_of_own DcSlave.sensed (latched_self ans st slave) fun _ => rfl
  rw [configSlave_active h, attach]
  dsimp only
  split_ifs
  · rw [modify_same]
    exact (modify_keeps DcSlave.sensed rfl _).trans hself
  · rw [modify_same]
    exact hself
  · exact hself

/-- Its own ports stay free, but for the entry port. -/
theorem configSlave_freePorts (h : (st.1.slaves slave).active = true)
    (hparent : st.1.parentOf slave ≠ slave) :
    ((configSlave ans refDelay st slave).1.slaves slave).availablePorts =
      clearPort (st.1.slaves slave).activePorts
        ((st.1.slaves slave).measured ans slave).entryPort.toNat := by
  rw [configSlave_active h, attach, parentOf_latched]
  dsimp only
  split_ifs with hpos
  · rw [modify_same]
    show (DcSlave.availablePorts _) = _
    rw [modify_of_ne (by omega)]
    exact latched_self_availablePorts
  · rw [modify_same]
    exact latched_self_availablePorts
  · exact latched_self_availablePorts

/-- Another slave keeps its free ports, if it is not the one above. -/
theorem configSlave_availablePorts (hi : i ≠ slave)
    (h : (st.1.slaves slave).active = true → st.1.parentOf slave ≠ i) :
    ((configSlave ans refDelay st slave).1.slaves i).availablePorts =
      (st.1.slaves i).availablePorts := by
  cases hactive : (st.1.slaves slave).active with
  | false => rw [configSlave_inactive hactive, modify_of_ne hi, modify_of_ne hi]
  | true =>
    have hne := h hactive
    rw [configSlave_active hactive, attach, parentOf_latched]
    dsimp only
    split_ifs with hpos
    · rw [modify_of_ne hi, modify_of_ne (by omega), (latched_of_ne ans st hi).2]
    · rw [modify_of_ne hi, (latched_of_ne ans st hi).2]
    · exact (latched_of_ne ans st hi).2

/-! ## The whole loop -/

theorem configRange_wiring (l : List ℕ) (i : ℕ) :
    ((configRange ans refDelay st l).1.slaves i).wiring = (st.1.slaves i).wiring := by
  induction l generalizing st with
  | nil => rfl
  | cons slave l ih =>
    have hrest :
        ((configRange ans refDelay (configSlave ans refDelay st slave) l).1.slaves i).wiring =
          ((configSlave ans refDelay st slave).1.slaves i).wiring := ih
    exact hrest.trans (configSlave_wiring i)

theorem configRange_slaveCnt (l : List ℕ) :
    (configRange ans refDelay st l).1.slaveCnt = st.1.slaveCnt :=
  Folds.foldl_keeps (m := fun st : DcMaster × ℤ => st.1.slaveCnt)
    (fun _ _ => configSlave_slaveCnt) st l

theorem configRange_own {l : List ℕ} (hi : i ∉ l) :
    ((configRange ans refDelay st l).1.slaves i).own = (st.1.slaves i).own := by
  induction l generalizing st with
  | nil => rfl
  | cons slave l ih =>
    obtain ⟨hne, hl⟩ := not_or.1 (mt List.mem_cons.2 hi)
    exact (ih hl).trans (configSlave_own_of_ne hne)

variable {duration : BitVec 64}

/-- The state of the loop before the pass of a slave. -/
def before (ans : Latches) (refDelay : BitVec 64 → ℤ) (duration : BitVec 64) (m : DcMaster)
    (slave : ℕ) : DcMaster × ℤ :=
  configRange ans refDelay (m.start duration, -1) (List.range slave)

theorem before_succ (slave : ℕ) : before ans refDelay duration m (slave + 1) =
    configSlave ans refDelay (before ans refDelay duration m slave) slave := by
  rw [before, List.range_succ, configRange, List.foldl_append]
  rfl

theorem before_wiring (slave i : ℕ) :
    ((before ans refDelay duration m slave).1.slaves i).wiring = (m.slaves i).wiring :=
  configRange_wiring _ i

theorem parentOf_before (slave : ℕ) :
    (before ans refDelay duration m slave).1.parentOf slave = m.parentOf slave :=
  parentOf_congr (before_wiring slave) slave

theorem before_active (slave i : ℕ) :
    ((before ans refDelay duration m slave).1.slaves i).active = (m.slaves i).active :=
  (DcSlave.wiring_eq.1 (before_wiring slave i)).1

/-- A slave is as its own pass left it, up to its links and its free ports. -/
theorem before_own {n : ℕ} (h : slave < n) :
    ((before ans refDelay duration m n).1.slaves slave).own =
      ((before ans refDelay duration m (slave + 1)).1.slaves slave).own := by
  induction n, (show slave + 1 ≤ n from h) using Nat.le_induction with
  | base => rfl
  | succ n hn ih => rw [before_succ, configSlave_own_of_ne (by omega), ih hn]

/-- Before its pass a slave is as it was. -/
theorem before_own_self (slave : ℕ) :
    ((before ans refDelay duration m slave).1.slaves slave).own = (m.slaves slave).own :=
  configRange_own (by simp)

theorem ecDcConfig_eq : ecDcConfig ans refDelay duration m =
    (before ans refDelay duration m m.slaveCnt).1 := rfl

variable (ans refDelay duration)

theorem ecDcConfig_wiring (m : DcMaster) (i : ℕ) :
    ((ecDcConfig ans refDelay duration m).slaves i).wiring = (m.slaves i).wiring :=
  before_wiring _ i

@[simp] theorem ecDcConfig_slaveCnt (m : DcMaster) :
    (ecDcConfig ans refDelay duration m).slaveCnt = m.slaveCnt := configRange_slaveCnt _

/-- What a slave has from its own times in the end. -/
theorem ecDcConfig_sensed (h : slave < m.slaveCnt) (hactive : (m.slaves slave).active = true) :
    ((ecDcConfig ans refDelay duration m).slaves slave).sensed =
      ((m.slaves slave).measured ans slave).sensed := by
  rw [ecDcConfig_eq, DcSlave.eq_of_own DcSlave.sensed (before_own h) fun _ => rfl, before_succ,
    configSlave_measured ((before_active slave slave).trans hactive)]
  exact DcSlave.eq_of_own (fun slv => (slv.measured ans slave).sensed) (before_own_self slave)
    fun _ => rfl

/-- The slaves before have been finished when a slave takes its port. -/
theorem before_own_of_lt (h : slave ≤ m.slaveCnt) (hlt : p < slave) :
    ((before ans refDelay duration m slave).1.slaves p).own =
      ((ecDcConfig ans refDelay duration m).slaves p).own := by
  rw [ecDcConfig_eq, before_own hlt, before_own (Nat.lt_of_lt_of_le hlt h)]

/-- And what it has from the one above it. -/
theorem ecDcConfig_below (h : slave < m.slaveCnt) (hactive : (m.slaves slave).active = true)
    (hparent : m.parentOf slave = p) (hlt : p < slave) :
    ((ecDcConfig ans refDelay duration m).slaves slave).own =
      (((m.slaves slave).measured ans slave).delays ((ecDcConfig ans refDelay duration m).slaves p)
        ((before ans refDelay duration m slave).1.slaves p).taken.1).own := by
  have hup := before_own_of_lt ans refDelay duration (Nat.le_of_lt h) hlt
  rw [ecDcConfig_eq, before_own h, before_succ,
    (configSlave_below ((before_active slave slave).trans hactive)
      ((parentOf_before slave).trans hparent) (by omega)).1]
  exact delays_congr (measured_congr (before_own_self slave)) hup _

/-! ## The walk to the slave above -/

/-- Every slave is attached to one with a smaller number, or to the master. -/
def Ordered (m : DcMaster) : Prop := ∀ i : ℕ, (m.slaves i).parent < i

theorem dcParent_lt (h : m.Ordered) {fuel : ℕ} {parent : ℤ} (hparent : parent < slave) :
    dcParent m.slaves fuel parent < slave := by
  induction fuel generalizing parent with
  | zero => exact hparent
  | succ fuel ih =>
    rw [dcParent]
    split_ifs
    · exact hparent
    · exact hparent
    · have := h parent.toNat
      exact ih (by omega)

theorem parentOf_lt (h : m.Ordered) (slave : ℕ) : m.parentOf slave < slave :=
  dcParent_lt h (h slave)

/-- The walk ends at the master or at a slave with an active clock. -/
theorem dcParent_spec (h : m.Ordered) {fuel : ℕ} {parent : ℤ} (hparent : parent < fuel) :
    dcParent m.slaves fuel parent < 0 ∨
      (m.slaves (dcParent m.slaves fuel parent).toNat).active = true := by
  induction fuel generalizing parent with
  | zero => exact .inl hparent
  | succ fuel ih =>
    rw [dcParent]
    split_ifs with hneg hactive
    · exact .inl hneg
    · exact .inr hactive
    · have := h parent.toNat
      exact ih (by omega)

end DcMaster

end LibEthercat.Dc
