import Mathlib.Tactic.IntervalCases
import LibEthercat.Dc.Config

/-!
# The entry port and the delays

The port times are readings of a clock of 32 bits that runs freely and wraps every 4.3 seconds. The
delays are differences of two of them, taken modulo `2^32` and stored to a signed number, so that a
wrap between the two does no harm. The entry port is the one whose reading is the smallest, compared
as it is.

**Theorem (`entry_port_first_iff`).** The entry port of every slave is the port of first arrival,
and the delays are the elapsed times, just if the clock of no slave wraps between its active ports.
-/

namespace LibEthercat.Dc

/-! ## The smallest reading -/

/-- The smallest reading among these ports is that of the entry port; without a port there is
none. -/
def Chosen (ports : ℕ → Prop) (times : ℕ → BitVec 32) (entry : ℤ) : Prop :=
  (entry = -1 ∧ ∀ i, ¬ ports i) ∨
    ∃ p : ℕ, entry = p ∧ ports p ∧ ∀ i, ports i → times p ≤ times i

variable {activePorts : BitVec 8} {times : ℕ → BitVec 32} {entry : ℤ} {ports : ℕ → Prop} {i : ℕ}

/-- A smaller reading replaces the one that has been chosen. -/
theorem Chosen.replace (h : Chosen ports times entry)
    (hi : entry = -1 ∨ times i < times entry.toNat) :
    Chosen (fun j => ports j ∨ j = i) times i := by
  refine .inr ⟨i, rfl, .inr rfl, fun j hj => ?_⟩
  obtain hj | rfl := hj
  · obtain ⟨-, hnone⟩ | ⟨p, rfl, hp, hmin⟩ := h
    · exact absurd hj (hnone j)
    · have hlt : times i < times p := by
        obtain hneg | hlt := hi
        · omega
        · exact hlt
      have hle := hmin j hj
      rw [BitVec.lt_def] at hlt
      rw [BitVec.le_def] at hle ⊢
      omega
  · exact BitVec.le_refl _

/-- One that is not smaller does not. -/
theorem Chosen.keep (h : Chosen ports times entry)
    (hi : ¬ (entry = -1 ∨ times i < times entry.toNat)) :
    Chosen (fun j => ports j ∨ j = i) times entry := by
  obtain ⟨hneg, hle⟩ := not_or.1 hi
  obtain ⟨rfl, -⟩ | ⟨p, rfl, hp, hmin⟩ := h
  · exact absurd rfl hneg
  · refine .inr ⟨p, rfl, .inl hp, fun j hj => ?_⟩
    obtain hj | rfl := hj
    · exact hmin j hj
    · exact BitVec.not_lt.1 hle

theorem findEntryPort_chosen (activePorts : BitVec 8) (h : Chosen ports times entry)
    (l : List ℕ) :
    Chosen (fun j => ports j ∨ (j ∈ l ∧ hasPort activePorts j = true)) times
      (findEntryPort activePorts times entry l) := by
  induction l generalizing ports entry with
  | nil => simpa [findEntryPort] using h
  | cons i l ih =>
    rw [findEntryPort]
    by_cases hactive : hasPort activePorts i = true
    · have hset : (fun j => (ports j ∨ j = i) ∨ (j ∈ l ∧ hasPort activePorts j = true)) =
          fun j => ports j ∨ (j ∈ i :: l ∧ hasPort activePorts j = true) := by
        funext j
        by_cases hj : j = i <;> simp [hj, hactive]
      rw [← hset]
      by_cases hlt : entry = -1 ∨ times i < times entry.toNat
      · rw [if_pos ⟨hactive, hlt⟩]
        exact ih (h.replace hlt)
      · rw [if_neg fun hc => hlt hc.2]
        exact ih (h.keep hlt)
    · have hset : (fun j => ports j ∨ (j ∈ l ∧ hasPort activePorts j = true)) =
          fun j => ports j ∨ (j ∈ i :: l ∧ hasPort activePorts j = true) := by
        funext j
        by_cases hj : j = i <;> simp [hj, hactive]
      rw [if_neg fun hc => hactive hc.1, ← hset]
      exact ih h

/-- One of the ports is active. -/
def SomePort (activePorts : BitVec 8) : Prop := ∃ i < 4, hasPort activePorts i = true

/-- **The entry port is an active one with the smallest reading.** -/
theorem findEntryPort_spec (times : ℕ → BitVec 32) (h : SomePort activePorts) :
    ∃ p : ℕ, findEntryPort activePorts times (-1) [0, 1, 2, 3] = p ∧ p < 4 ∧
      hasPort activePorts p = true ∧
      ∀ i < 4, hasPort activePorts i = true → times p ≤ times i := by
  have hnone : Chosen (fun _ => False) times (-1) := .inl ⟨rfl, fun _ => id⟩
  have hmem : ∀ i, i ∈ [0, 1, 2, 3] ↔ i < 4 := by
    intro i
    simp only [List.mem_cons, List.not_mem_nil, or_false]
    omega
  obtain ⟨i, hi, hactive⟩ := h
  obtain ⟨-, hempty⟩ | ⟨p, hp, hport, hmin⟩ := findEntryPort_chosen activePorts hnone [0, 1, 2, 3]
  · exact absurd (.inr ⟨(hmem i).2 hi, hactive⟩) (hempty i)
  · obtain ⟨hmemp, hpactive⟩ := hport.resolve_left id
    exact ⟨p, hp, (hmem p).1 hmemp, hpactive, fun j hj hja => hmin j (.inr ⟨(hmem j).2 hj, hja⟩)⟩

/-- With no smaller reading at another port it is port 0. -/
theorem findEntryPort_zero (hzero : hasPort activePorts 0 = true)
    (hmin : ∀ i < 4, hasPort activePorts i = true → ¬ times i < times 0) :
    findEntryPort activePorts times (-1) [0, 1, 2, 3] = 0 := by
  have hskip : ∀ i < 4, ¬ (hasPort activePorts i = true ∧
      (((0 : ℕ) : ℤ) = -1 ∨ times i < times ((0 : ℕ) : ℤ).toNat)) := by
    rintro i hi ⟨hport, hneg | hlt⟩
    · exact absurd hneg (by decide)
    · exact hmin i hi hport hlt
  rw [findEntryPort, if_pos ⟨hzero, .inl rfl⟩, findEntryPort, if_neg (hskip 1 (by decide)),
    findEntryPort, if_neg (hskip 2 (by decide)), findEntryPort, if_neg (hskip 3 (by decide)),
    findEntryPort]
  rfl

/-! ## Ports that are active -/

/-- The port before is an active one, as all the others are tried. -/
theorem hasPort_previous {port : ℕ} (h : SomePort activePorts) (hport : port < 4) :
    getPreviousActivePort activePorts port < 4 ∧
      hasPort activePorts (getPreviousActivePort activePorts port) = true := by
  obtain ⟨i, hi, hactive⟩ := h
  rw [getPreviousActivePort]
  cases hfind : ((reversePortOrder port).take 3).find? (hasPort activePorts) with
  | some p =>
    refine ⟨?_, List.find?_some hfind⟩
    have hmem := List.mem_of_mem_take (List.mem_of_find?_eq_some hfind)
    revert hmem
    clear hfind
    interval_cases port <;> simp [reversePortOrder] <;> omega
  | none =>
    refine ⟨hport, ?_⟩
    have hne : ∀ j ∈ (reversePortOrder port).take 3, ¬ hasPort activePorts j = true :=
      List.find?_eq_none.1 hfind
    have hi : i = port := by
      by_contra hc
      refine hne i ?_ hactive
      clear hfind hne hactive
      interval_cases port <;> interval_cases i <;> simp_all [reversePortOrder]
    rwa [Option.getD_none, ← hi]

theorem taken_lt {up : DcSlave} {p : ℕ} (h : up.entryPort = p) (hp : p < 4) : up.taken.1 < 4 := by
  rw [DcSlave.taken, getAndConsumeNextAvailablePort, h, Int.toNat_natCast]
  cases hfind : (forwardPortOrder p).find? (hasPort up.availablePorts) with
  | none => exact hp
  | some q =>
    have hmem := List.mem_of_find?_eq_some hfind
    revert hmem
    clear hfind
    dsimp only
    interval_cases p <;> simp [forwardPortOrder] <;> omega

/-! ## True times -/

/-- What the clock shows at the times `t`. -/
def latch (t : ℕ → ℕ) (i : ℕ) : BitVec 32 := BitVec.ofNat 32 (t i)

theorem toNat_latch (t : ℕ → ℕ) (i : ℕ) : (latch t i).toNat = t i % 2 ^ 32 := rfl

/-- The times of the active ports lie within less than half of the range. -/
def Close (activePorts : BitVec 8) (t : ℕ → ℕ) : Prop :=
  ∀ i < 4, ∀ j < 4, hasPort activePorts i = true → hasPort activePorts j = true →
    t i < t j + 2 ^ 31

/-- The clock does not wrap between the active ports. -/
def NoWrap (activePorts : BitVec 8) (t : ℕ → ℕ) : Prop :=
  ∀ i < 4, ∀ j < 4, hasPort activePorts i = true → hasPort activePorts j = true →
    t i / 2 ^ 32 = t j / 2 ^ 32

/-- At this port the frame arrives first. -/
def First (activePorts : BitVec 8) (t : ℕ → ℕ) (entry : ℤ) : Prop :=
  ∃ p : ℕ, entry = p ∧ p < 4 ∧ hasPort activePorts p = true ∧
    ∀ i < 4, hasPort activePorts i = true → t p ≤ t i

variable {t : ℕ → ℕ}

/-- **The smallest reading is the first arrival just if nothing wraps.** -/
theorem first_iff (h : SomePort activePorts) (hclose : Close activePorts t) :
    First activePorts t (findEntryPort activePorts (latch t) (-1) [0, 1, 2, 3]) ↔
      NoWrap activePorts t := by
  obtain ⟨p, hp, hlt, hactive, hmin⟩ := findEntryPort_spec (latch t) h
  simp only [BitVec.le_def, toNat_latch] at hmin
  rw [hp]
  constructor
  · rintro ⟨q, hq, -, -, hfirst⟩ i hi j hj hai haj
    obtain rfl : p = q := Int.ofNat.inj hq
    -- All times are in the round of the first one.
    have hround : ∀ k < 4, hasPort activePorts k = true → t k / 2 ^ 32 = t p / 2 ^ 32 := by
      intro k hk hak
      have := hmin k hk hak
      have := hfirst k hk hak
      have := hclose k hk p hlt hak hactive
      omega
    rw [hround i hi hai, hround j hj haj]
  · intro hwrap
    refine ⟨p, rfl, hlt, hactive, fun i hi hai => ?_⟩
    have := hmin i hi hai
    have := hwrap i hi p hlt hai hactive
    omega

/-- **A difference of two readings is the elapsed time**, whether the clock wraps or not. -/
theorem toInt_latch_sub {i j : ℕ} (h : t i < t j + 2 ^ 31) (h' : t j < t i + 2 ^ 31) :
    (latch t i - latch t j).toInt = (t i : ℤ) - t j := by
  rw [toInt_sub_eq, toNat_latch, toNat_latch]
  split_ifs <;> omega

/-! ## A slave -/

/-- What is measured of a slave, from its two latches. -/
theorem measured_eq (slv : DcSlave) {ans : Latches} {slave : ℕ} {t t' : ℕ → ℕ}
    (hfirst : ans.first slave = some (latch t)) (hsecond : ans.second slave = some (latch t')) :
    (slv.measured ans slave).entryPort =
        findEntryPort slv.activePorts (latch t) (-1) [0, 1, 2, 3] ∧
      (slv.measured ans slave).receiveTimes =
        if (slv.measured ans slave).entryPort ≠ 0 ∧ slv.type = 0x1200 then latch t'
        else latch t := by
  simp only [DcSlave.measured, DcSlave.delayChilds, DcSlave.latch, hfirst, hsecond,
    Option.getD_some]
  exact ⟨trivial, trivial⟩

/-! ## The configuration -/

/-- The requests bring what the clocks of the slaves show: at the times `t`, and at `t'` if a slave
is latched again. -/
structure Timed (ans : Latches) (m : DcMaster) (t t' : ℕ → ℕ → ℕ) : Prop where
  ordered : m.Ordered
  somePort : ∀ s, (m.slaves s).active = true → SomePort (m.slaves s).activePorts
  first : ∀ s, (m.slaves s).active = true → ans.first s = some (latch (t s))
  second : ∀ s, (m.slaves s).active = true → ans.second s = some (latch (t' s))
  close : ∀ s, (m.slaves s).active = true → Close (m.slaves s).activePorts (t s)
  close' : ∀ s, (m.slaves s).active = true → Close (m.slaves s).activePorts (t' s)

/-- The true times behind the readings that a slave has in the end: one that has been reversed is
latched again. -/
def trueTimes (m : DcMaster) (t t' : ℕ → ℕ → ℕ) (s : ℕ) : ℕ → ℕ :=
  if (m.slaves s).entryPort ≠ 0 ∧ (m.slaves s).type = 0x1200 then t' s else t s

/-- The time from the entry port of a slave to the active port before another of its ports. -/
def elapsedTo (m : DcMaster) (t t' : ℕ → ℕ → ℕ) (s : ℕ) (port : ℤ) : ℤ :=
  (trueTimes m t t' s (getPreviousActivePort (m.slaves s).activePorts port.toNat) : ℤ) -
    trueTimes m t t' s (m.slaves s).entryPort.toNat

/-- The entry port of a slave is the port of first arrival, and the delays are the true times. -/
structure Right (m : DcMaster) (t t' : ℕ → ℕ → ℕ) (s : ℕ) : Prop where
  entry : First (m.slaves s).activePorts (t s) (m.slaves s).entryPort
  childs : (m.slaves s).tDelayChilds = elapsedTo m t t' s (m.slaves s).entryPort
  parentPrevious : ∀ p : ℕ, m.parentOf s = p →
    (m.slaves s).tDelayParentPrevious = elapsedTo m t t' p (m.slaves s).portOnParent

namespace DcMaster

variable {ans : Latches} {refDelay : BitVec 64 → ℤ} {duration : BitVec 64} {m : DcMaster}
  {t t' : ℕ → ℕ → ℕ} {s p : ℕ}

/-- A slave after the configuration: it is attached as before, and has the readings of its clock. -/
structure Configured (m m' : DcMaster) (t t' : ℕ → ℕ → ℕ) (s : ℕ) : Prop where
  activePorts : (m'.slaves s).activePorts = (m.slaves s).activePorts
  entryPort : (m'.slaves s).entryPort =
    findEntryPort (m.slaves s).activePorts (latch (t s)) (-1) [0, 1, 2, 3]
  receiveTimes : (m'.slaves s).receiveTimes = latch (trueTimes m' t t' s)
  tDelayChilds : (m'.slaves s).tDelayChilds =
    ((m'.slaves s).time
      (getPreviousActivePort (m'.slaves s).activePorts (m'.slaves s).entryPort.toNat) -
      (m'.slaves s).time (m'.slaves s).entryPort).toInt

theorem ecDcConfig_configured (h : Timed ans m t t') (hlt : s < m.slaveCnt)
    (hactive : (m.slaves s).active = true) :
    Configured m (ecDcConfig ans refDelay duration m) t t' s := by
  obtain ⟨hentry, htimes⟩ :=
    measured_eq (m.slaves s) (h.first s hactive) (h.second s hactive)
  have hsensed := ecDcConfig_sensed ans refDelay duration hlt hactive
  simp only [DcSlave.sensed, Prod.mk.injEq] at hsensed
  obtain ⟨hentry', htimes', hchilds'⟩ := hsensed
  obtain ⟨-, -, hports, htype⟩ :=
    DcSlave.wiring_eq.1 (ecDcConfig_wiring ans refDelay duration m s)
  refine ⟨hports, hentry'.trans hentry, ?_, ?_⟩
  · rw [htimes', htimes, trueTimes, htype, hentry']
    split_ifs <;> rfl
  · rw [hchilds', hports, hentry', DcSlave.time, DcSlave.time, htimes']
    rfl

/-- The difference of two readings of a slave, one of them at its entry port. -/
theorem Configured.toInt_sub {m' : DcMaster} (hc : Configured m m' t t' s) (h : Timed ans m t t')
    (hactive : (m.slaves s).active = true) (port : ℤ) (hport : port.toNat < 4) :
    ((m'.slaves s).time (getPreviousActivePort (m'.slaves s).activePorts port.toNat) -
      (m'.slaves s).time (m'.slaves s).entryPort).toInt = elapsedTo m' t t' s port := by
  have hsome := h.somePort s hactive
  obtain ⟨hlt, hprev⟩ := hasPort_previous hsome hport
  obtain ⟨p, hp, hplt, hpactive, -⟩ := findEntryPort_spec (latch (t s)) hsome
  have hclose : Close (m.slaves s).activePorts (trueTimes m' t t' s) := by
    unfold trueTimes
    split_ifs
    · exact h.close' s hactive
    · exact h.close s hactive
  rw [elapsedTo, DcSlave.time, DcSlave.time, hc.receiveTimes, hc.activePorts, hc.entryPort, hp,
    Int.toNat_natCast, Int.toNat_natCast]
  exact toInt_latch_sub (hclose _ hlt _ hplt hprev hpactive) (hclose _ hplt _ hlt hpactive hprev)

theorem Configured.entryPort_lt {m' : DcMaster} (hc : Configured m m' t t' s)
    (h : Timed ans m t t') (hactive : (m.slaves s).active = true) :
    ∃ p : ℕ, (m'.slaves s).entryPort = p ∧ p < 4 := by
  obtain ⟨p, hp, hplt, -⟩ := findEntryPort_spec (latch (t s)) (h.somePort s hactive)
  exact ⟨p, hc.entryPort.trans hp, hplt⟩

/-- **The first port and the delays.** -/
theorem entry_port_first_iff (h : Timed ans m t t') (hlt : s < m.slaveCnt)
    (hactive : (m.slaves s).active = true) :
    Right (ecDcConfig ans refDelay duration m) t t' s ↔
      NoWrap (m.slaves s).activePorts (t s) := by
  have hc : Configured m (ecDcConfig ans refDelay duration m) t t' s :=
    ecDcConfig_configured h hlt hactive
  have hfirst : First ((ecDcConfig ans refDelay duration m).slaves s).activePorts (t s)
      ((ecDcConfig ans refDelay duration m).slaves s).entryPort ↔
        NoWrap (m.slaves s).activePorts (t s) := by
    rw [hc.activePorts, hc.entryPort]
    exact first_iff (h.somePort s hactive) (h.close s hactive)
  refine ⟨fun hright => hfirst.1 hright.entry, fun hwrap => ⟨hfirst.2 hwrap, ?_, ?_⟩⟩
  · obtain ⟨p, hp, hplt⟩ := hc.entryPort_lt h hactive
    rw [hc.tDelayChilds]
    exact hc.toInt_sub h hactive _ (by rw [hp]; exact hplt)
  · intro p hparent
    have hparent' : m.parentOf s = p :=
      (parentOf_congr (ecDcConfig_wiring ans refDelay duration m) s).symm.trans hparent
    have hps : p < s := by
      have := parentOf_lt h.ordered s
      omega
    have hpactive : (m.slaves p).active = true := by
      have hspec := dcParent_spec h.ordered (h.ordered s)
      rw [← parentOf, hparent'] at hspec
      exact hspec.resolve_left (by omega)
    have hcp : Configured m (ecDcConfig ans refDelay duration m) t t' p :=
      ecDcConfig_configured h (by omega) hpactive
    obtain ⟨q, hq, hqlt⟩ := hcp.entryPort_lt h hpactive
    have hport : ((((before ans refDelay duration m s).1.slaves p).taken.1 : ℕ) : ℤ).toNat < 4 :=
      taken_lt ((DcSlave.eq_of_own DcSlave.entryPort
        (before_own_of_lt ans refDelay duration (Nat.le_of_lt hlt) hps) fun _ => rfl).trans hq) hqlt
    have hbelow := ecDcConfig_below ans refDelay duration hlt hactive hparent' hps
    have hsub := hcp.toInt_sub h hpactive _ hport
    rw [DcSlave.eq_of_own DcSlave.tDelayParentPrevious hbelow fun _ => rfl,
      DcSlave.eq_of_own DcSlave.portOnParent hbelow fun _ => rfl, DcSlave.delays_portOnParent,
      DcSlave.delays_tDelayParentPrevious]
    rw [Int.toNat_natCast] at hsub
    exact hsub

/-- A slave at the master, with another one behind its port 1. -/
def lineSlave : DcSlave :=
  ⟨0x1000, 0x1100, 0x000C, 0b11, -1, 0, 0, 0, 1, 0, 0, 0, fun _ => 0, 0, 0, 0, 0⟩

def lineMaster : DcMaster :=
  ⟨fun _ => lineSlave, 1, .refClock, false, false, 0, 0, 0, 0⟩

/-- The frame comes to port 0 at the first time, and back to port 1 at the second. -/
def lineTimes (first second : ℕ) (_ i : ℕ) : ℕ := if i = 0 then first else second

def lineLatches (first second : ℕ) : Latches :=
  ⟨fun s => some (latch (lineTimes first second s)),
    fun s => some (latch (lineTimes first second s))⟩

theorem timed_line {first second : ℕ} (h : first < second + 2 ^ 31) (h' : second < first + 2 ^ 31) :
    Timed (lineLatches first second) lineMaster (lineTimes first second)
      (lineTimes first second) := by
  have hclose : Close lineSlave.activePorts (lineTimes first second 0) := by
    intro i _ j _ _ _
    unfold lineTimes
    split_ifs <;> omega
  have hsome : SomePort lineSlave.activePorts := ⟨0, by decide, by decide⟩
  exact ⟨fun i => show (-1 : ℤ) < i by omega, fun _ _ => hsome, fun _ _ => rfl, fun _ _ => rfl,
    fun _ _ => hclose, fun _ _ => hclose⟩

/-- A microsecond behind the slave, away from the wrap. -/
theorem entry_port_first_line :
    Right (ecDcConfig (lineLatches 5000 6000) (fun _ => 0) 0 lineMaster) (lineTimes 5000 6000)
      (lineTimes 5000 6000) 0 :=
  (entry_port_first_iff (timed_line (by decide) (by decide)) (by decide) (by decide)).2
    (by unfold NoWrap; decide)

/-- The clock wraps while the frame is behind the slave, and port 1 becomes the entry port. -/
theorem entry_port_after_wrap :
    Timed (lineLatches (2 ^ 32 - 10) (2 ^ 32 + 990)) lineMaster
      (lineTimes (2 ^ 32 - 10) (2 ^ 32 + 990)) (lineTimes (2 ^ 32 - 10) (2 ^ 32 + 990)) ∧
    ((ecDcConfig (lineLatches (2 ^ 32 - 10) (2 ^ 32 + 990)) (fun _ => 0) 0
      lineMaster).slaves 0).entryPort = 1 ∧
    ¬ First lineSlave.activePorts (lineTimes (2 ^ 32 - 10) (2 ^ 32 + 990) 0) 1 := by
  refine ⟨timed_line (by decide) (by decide), by decide, ?_⟩
  rintro ⟨p, hp, -, -, hfirst⟩
  obtain rfl : 1 = p := Int.ofNat.inj hp
  exact absurd (hfirst 0 (by decide) (by decide)) (by decide)

end DcMaster

end LibEthercat.Dc
