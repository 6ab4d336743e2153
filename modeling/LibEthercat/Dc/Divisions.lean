import LibEthercat.Dc.Sync

/-!
# Divisions by the cycle time

`ec_dc_config` divides by `main_cycle_interval` when it comes to the slave with the master clock,
and `ec_dc_sync` for every slave that supports distributed clocks, also to switch them off.

* `all_ecDcConfigTraced`, `all_ecDcSync` — what they divide by is not zero, just if the cycle time
  is not zero when they come to the division.
-/

namespace LibEthercat.Dc

/-! ## The division in `ec_dc_config` -/

/-- The bus and the clock during a call. -/
structure ConfigBus where
  ans : Latches
  duration : BitVec 64
  /-- `osal_timer_gettime_nsec` in the pass of a slave. -/
  now : ℕ → BitVec 64

/-- The offsets are stored in the pass of the slave with the master clock. -/
def storeOffsets (interval now : BitVec 64) (m : DcMaster) (slave : ℕ) :
    Traced SyncEvent Unit :=
  if m.masterAddress = (m.slaves slave).fixedAddress then
    (divide now interval).bind fun _ => .pure ()
  else .pure ()

/-- A pass of the loop, with the division. -/
def configPass (refDelay : BitVec 64 → ℤ) (b : ConfigBus) (interval : BitVec 64)
    (st : DcMaster × ℤ) (slave : ℕ) : Traced SyncEvent (DcMaster × ℤ) :=
  let st' := DcMaster.configSlave b.ans refDelay st slave
  if (st.1.slaves slave).active then
    (storeOffsets interval (b.now slave) (DcMaster.latched b.ans st slave) slave).bind fun _ =>
      .pure st'
  else .pure st'

/-- `ec_dc_config`. -/
def ecDcConfigTraced (refDelay : BitVec 64 → ℤ) (b : ConfigBus) (m : CycleMaster) :
    Traced SyncEvent CycleMaster :=
  (Traced.fold (configPass refDelay b m.mainCycleInterval) (m.start b.duration, -1)
    (List.range m.slaveCnt)).bind fun st => .pure { m with toDcMaster := st.1 }

/-- A division by zero is not defined. -/
def SyncEvent.Defined (e : SyncEvent) : Prop := e ≠ .divide 0

section
variable {refDelay : BitVec 64 → ℤ} {b : ConfigBus} {interval : BitVec 64} {st : DcMaster × ℤ}
  {slave : ℕ}

theorem defined_divide {d : BitVec 64} : (SyncEvent.divide d).Defined ↔ d ≠ 0 := by
  simp [SyncEvent.Defined]

theorem all_divide {a : BitVec 64} :
    (divide a interval).All SyncEvent.Defined ↔ interval ≠ 0 := by
  simp [divide, Traced.All, defined_divide]

theorem all_storeOffsets {now : BitVec 64} {m : DcMaster} :
    (storeOffsets interval now m slave).All SyncEvent.Defined ↔
      (m.masterAddress = (m.slaves slave).fixedAddress → interval ≠ 0) := by
  unfold storeOffsets
  split_ifs with h
  · simp [Traced.all_bind, all_divide, h]
  · simp [h]

theorem configPass_inactive (h : (st.1.slaves slave).active = false) :
    configPass refDelay b interval st slave =
      .pure (DcMaster.configSlave b.ans refDelay st slave) := by
  rw [configPass, if_neg (by rw [h]; exact Bool.false_ne_true)]

theorem all_configPass (h : (st.1.slaves slave).active = true) :
    (configPass refDelay b interval st slave).All SyncEvent.Defined ↔
      ((DcMaster.latched b.ans st slave).masterAddress =
        ((DcMaster.latched b.ans st slave).slaves slave).fixedAddress → interval ≠ 0) := by
  rw [configPass, if_pos h, Traced.all_bind, all_storeOffsets]
  simp

/-- The first slave with a clock has the master clock. -/
theorem latched_first (h : st.1.haveDc = false) :
    (DcMaster.latched b.ans st slave).masterAddress =
      ((DcMaster.latched b.ans st slave).slaves slave).fixedAddress := by
  simp [DcMaster.latched, DcMaster.link, DcMaster.modify, h, DcSlave.measured, DcSlave.latch,
    DcSlave.delayChilds, DcSlave.freePorts]

theorem all_configPass_of_ne (h : interval ≠ 0) :
    (configPass refDelay b interval st slave).All SyncEvent.Defined := by
  cases hactive : (st.1.slaves slave).active with
  | false =>
    rw [configPass_inactive hactive]
    exact Traced.all_pure.2 trivial
  | true => exact (all_configPass hactive).2 fun _ => h

theorem configSlave_isActive (i : ℕ) :
    ((DcMaster.configSlave b.ans refDelay st slave).1.slaves i).active =
      (st.1.slaves i).active :=
  (DcSlave.wiring_eq.1 (DcMaster.configSlave_wiring i)).1

/-- **The division in the loop.** It is made if there is a slave with a clock. -/
theorem all_configRange {l : List ℕ} (h : st.1.haveDc = false) :
    (Traced.fold (configPass refDelay b interval) st l).All SyncEvent.Defined ↔
      ((∃ i ∈ l, (st.1.slaves i).active = true) → interval ≠ 0) := by
  induction l generalizing st with
  | nil => simp [Traced.fold]
  | cons i l ih =>
    cases hactive : (st.1.slaves i).active with
    | true =>
      constructor
      · intro hall _
        rw [Traced.fold, Traced.all_bind] at hall
        exact (all_configPass hactive).1 hall.1 (latched_first h)
      · intro hne
        have hinterval := hne ⟨i, List.mem_cons_self, hactive⟩
        exact Traced.all_fold_of (fun _ _ _ => all_configPass_of_ne hinterval) st
    | false =>
      have hdc : (DcMaster.configSlave b.ans refDelay st i).1.haveDc = false := by
        rw [DcMaster.configSlave_inactive hactive]
        exact h
      rw [Traced.fold, configPass_inactive hactive, Traced.pure_bind, ih hdc]
      simp [configSlave_isActive, hactive]

/-- **The divisions of `ec_dc_config`.** -/
theorem all_ecDcConfigTraced {m : CycleMaster} :
    (ecDcConfigTraced refDelay b m).All SyncEvent.Defined ↔
      ((∃ i < m.slaveCnt, (m.slaves i).active = true) → m.mainCycleInterval ≠ 0) := by
  rw [ecDcConfigTraced, Traced.all_bind, all_configRange rfl]
  simp [DcMaster.start]

/-- It is `ec_dc_config` as before, if it comes to an end. -/
theorem fold_configPass {l : List ℕ} {st' : DcMaster × ℤ}
    (h : (Traced.fold (configPass refDelay b interval) st l).result = some st') :
    st' = DcMaster.configRange b.ans refDelay st l := by
  induction l generalizing st with
  | nil =>
    cases h
    rfl
  | cons i l ih =>
    obtain ⟨u, hu, hrest⟩ := Traced.bind_result_eq_some.1 h
    have hpass : u = DcMaster.configSlave b.ans refDelay st i := by
      unfold configPass at hu
      split_ifs at hu
      · obtain ⟨-, -, hu⟩ := Traced.bind_result_eq_some.1 hu
        exact (Option.some.inj hu).symm
      · exact (Option.some.inj hu).symm
    rw [ih hrest, hpass]
    rfl

theorem ecDcConfigTraced_result {m m' : CycleMaster}
    (h : (ecDcConfigTraced refDelay b m).result = some m') :
    m' = { m with toDcMaster := DcMaster.ecDcConfig b.ans refDelay b.duration m.toDcMaster } := by
  obtain ⟨st, hst, hm⟩ := Traced.bind_result_eq_some.1 h
  rw [← Option.some.inj hm, fold_configPass hst]
  rfl

end

/-! ## The division in `ec_dc_sync` -/

section
variable {m : CycleMaster} {slave : ℕ} {active : BitVec 8} {t : DcTimes}
  {cycleTime0 cycleTime1 cycleShift : BitVec 32}

/-- The function comes to its division: the slave supports distributed clocks, and the master clock
runs, if it has to. -/
def SyncDivides (m : CycleMaster) (slave : ℕ) (active : BitVec 8) (t : DcTimes) : Prop :=
  slave < m.slaveCnt ∧ (m.slaves slave).features &&& EC_REG_ESCSUP_DC_SUPP ≠ 0 ∧
    ¬ (active ≠ 0 ∧ t.timeout = true)

/-- **The division of `ec_dc_sync`.** -/
theorem all_ecDcSync :
    (ecDcSync m slave active cycleTime0 cycleTime1 cycleShift t).All SyncEvent.Defined ↔
      (SyncDivides m slave active t → m.mainCycleInterval ≠ 0) := by
  unfold ecDcSync SyncDivides
  split_ifs with hslave hsupp htime
  · exact iff_of_true (Traced.all_pure.2 trivial) fun hd => absurd hd.1 (by omega)
  · exact iff_of_true (Traced.all_pure.2 trivial) fun hd => absurd hsupp hd.2.1
  · exact iff_of_true (Traced.all_pure.2 trivial) fun hd => absurd htime hd.2.2
  · have hdivides : slave < m.slaveCnt ∧ (m.slaves slave).features &&& EC_REG_ESCSUP_DC_SUPP ≠ 0 ∧
        ¬ (active ≠ 0 ∧ t.timeout = true) := ⟨by omega, hsupp, htime⟩
    rw [forall_prop_of_true hdivides]
    by_cases hzero : m.mainCycleInterval = 0
    · rw [hzero, program_of_zero]
      simp [Traced.All, SyncEvent.Defined]
    · rw [program_of_ne hzero]
      simp [Traced.All, SyncEvent.Defined]

end

end LibEthercat.Dc
