import LibEthercat.Master.World

/-!
# The state of the master and those of its slaves

In an orderly run every transition and every check goes well, and no slave comes to BOOT by itself or
is taken there alone: out of BOOT a slave is only brought to INIT. So each `ec_set_state` brings the
slaves to the state of the master, from wherever they have come to in the meantime
(`setState_agrees`). Up to SAFEOP and OP this holds for the slaves of the groups, down from OP for
all of them. The exception is BOOT: a slave that is there is sent to INIT if the master is set to
BOOT once more.

What a slave is brought to is also what is expected of it, so the recovery brings it back there
(`recovered`).
-/

namespace LibEthercat.Master

open SlaveState

/-! ## Slaves in a state -/

/-- The slave is in this state, as is expected of it. -/
structure World.SlaveIn (w : World) (i : ℕ) (y : AlState) : Prop where
  al : (w.device i).al = y
  expectedState : (w.slave i).expectedState = y.code

/-- The slave is not in BOOT, and is expected in some other state. -/
structure World.Settled (w : World) (i : ℕ) : Prop where
  al : (w.device i).al ≠ .boot
  expectedState : ∃ y : AlState, y ≠ .boot ∧ (w.slave i).expectedState = y.code

/-- All slaves that are known are. -/
def World.AllSettled (w : World) : Prop := ∀ i < w.slaveCnt, w.Settled i

/-- The slaves that take part have come to this state, and the others are settled. -/
structure World.In (w : World) (y : AlState) (withGroup : Bool) : Prop where
  settled : w.AllSettled
  part : ∀ i, w.takesPart withGroup i → w.SlaveIn i y

section
variable {w w' u : World} {y : AlState} {i : ℕ} {withGroup : Bool}

theorem World.SlaveIn.settled (h : w.SlaveIn i y) (hy : y ≠ .boot) : w.Settled i :=
  ⟨h.al ▸ hy, y, hy, h.expectedState⟩

theorem Rests.settled (h : Rests w w' i) (hi : w.Settled i) : w'.Settled i := by
  refine ⟨?_, ?_⟩
  · rw [h.2]
    exact hi.al
  · rw [h.1]
    exact hi.expectedState

theorem reach_init (a : AlState) : a.reach .init = .init := by cases a <;> rfl

theorem reach_of_ne {a : AlState} (ha : a ≠ .boot) (hy : y ≠ .boot) : a.reach y = y := by
  revert ha hy
  cases a <;> cases y <;> decide

/-! ## What the parts do -/

theorem Transits.slaveIn (h : Transits true y.code w w' i)
    (hstays : (w.device i).al.stays (some y) = false) :
    w'.SlaveIn i ((w.device i).al.reach y) := by
  obtain ⟨b, hserved, hslave, hok⟩ := h
  obtain ⟨hal, hexpected⟩ := transition_ok (g := some y) hserved (hok rfl)
  rw [hstays] at hexpected
  exact ⟨hal, hslave ▸ hexpected⟩

theorem Transits.slaveIn_of_ne (h : Transits true y.code w w' i) (hi : (w.device i).al ≠ .boot)
    (hy : y ≠ .boot) : w'.SlaveIn i y := by
  have hstays : (w.device i).al.stays (some y) = false := by
    revert hi
    cases (w.device i).al <;> cases y <;> decide
  exact reach_of_ne hi hy ▸ h.slaveIn hstays

theorem SameMaster.takesPart (h : SameMaster w w') : w'.takesPart withGroup i ↔
    w.takesPart withGroup i := by
  rw [World.takesPart, h.slaveCnt, h.assigned, World.takesPart]

/-- The loop for a state above BOOT, or below it. -/
theorem LoopGoes.inState (h : LoopGoes true y.code withGroup w w') (hy : y ≠ .boot)
    (hw : w.AllSettled) : w'.In y withGroup := by
  have hpart : ∀ i, w.takesPart withGroup i → w'.SlaveIn i y := fun i hi =>
    (h.part i hi).slaveIn_of_ne (hw i hi.1).al hy
  refine ⟨fun i hi => ?_, fun i hi => hpart i (h.master.takesPart.1 hi)⟩
  rw [h.master.slaveCnt] at hi
  by_cases hi' : w.takesPart withGroup i
  · exact (hpart i hi').settled hy
  · exact (h.rest i hi').settled (hw i hi)

/-- The loop for INIT, whatever has been before. -/
theorem LoopGoes.inInit (h : LoopGoes true EC_STATE_INIT false w w') : w'.In .init false := by
  have hpart : ∀ i, i < w'.slaveCnt → w'.SlaveIn i .init := by
    intro i hi
    have hi' : w.takesPart false i := ⟨h.master.slaveCnt ▸ hi, rfl⟩
    have hstays : (w.device i).al.stays (some .init) = false := by
      cases (w.device i).al <;> rfl
    exact reach_init _ ▸ (show Transits true AlState.init.code w w' i from
      h.part i hi').slaveIn hstays
  exact ⟨fun i hi => (hpart i hi).settled (by decide), fun i hi => hpart i hi.1⟩

/-- The loop for BOOT. -/
theorem LoopGoes.inBoot (h : LoopGoes true EC_STATE_BOOT false w w') (hi : i < w'.slaveCnt) :
    w'.SlaveIn i ((w.device i).al.reach .boot) := by
  have hi' : w.takesPart false i := ⟨h.master.slaveCnt ▸ hi, rfl⟩
  have hstays : (w.device i).al.stays (some .boot) = false := by
    cases (w.device i).al <;> rfl
  exact (show Transits true AlState.boot.code w w' i from h.part i hi').slaveIn hstays

theorem ConfigGoes.settled (h : ConfigGoes w w') (hw : w.AllSettled) : w'.AllSettled := by
  intro i hi
  have hsettled := hw i (h.slaveCnt ▸ hi)
  refine ⟨?_, ?_⟩
  · rw [h.device]
    exact hsettled.al
  · rw [h.expectedState]
    exact hsettled.expectedState

theorem PrepareGoes.settled (h : PrepareGoes w w') (hw : w.AllSettled) : w'.AllSettled := by
  intro i hi
  have hsettled := hw i (h.master.slaveCnt ▸ hi)
  refine ⟨?_, ?_⟩
  · rw [h.device]
    exact hsettled.al
  · rw [h.expectedState]
    exact hsettled.expectedState

/-! ## The cases of the switch -/

/-- The master and the slaves that take part have come to this state. -/
structure World.Reached (w : World) (y : AlState) (withGroup : Bool) : Prop
    extends w.In y withGroup where
  masterState : w.masterState = y.code

theorem World.In.reached (h : w.In y withGroup) :
    World.Reached { w with masterState := y.code } y withGroup :=
  ⟨⟨fun i hi => ⟨(h.settled i hi).al, (h.settled i hi).expectedState⟩,
    fun i hi => ⟨(h.part i hi).al, (h.part i hi).expectedState⟩⟩, rfl⟩

theorem opCode_reached (h : CodeGoes true (opCode EC_STATE_OP) w w') (hw : w.AllSettled) :
    w'.Reached .op true := by
  obtain ⟨u₁, hconfig, u₂, hloop, u₃, rfl, rfl⟩ := h
  exact (LoopGoes.inState (y := .op) hloop (by decide) (ConfigGoes.settled hconfig hw)).reached

theorem safeopCode_reached (h : CodeGoes true (safeopCode y.code) w w') (hw : w.AllSettled)
    (hy : y = .safeop ∨ y = .op) : w'.Reached y true := by
  rcases hy with rfl | rfl
  · obtain ⟨u₁, hconfig, u₂, hprepare, u₃, hloop, u₄, rfl, rfl⟩ := h
    exact (LoopGoes.inState (y := .safeop) hloop (by decide)
      (PrepareGoes.settled hprepare (ConfigGoes.settled hconfig hw))).reached
  · obtain ⟨u₁, hconfig, u₂, hprepare, u₃, hloop, hop⟩ := h
    exact opCode_reached hop (LoopGoes.inState (y := .safeop) hloop (by decide)
      (PrepareGoes.settled hprepare (ConfigGoes.settled hconfig hw))).settled

/-- On the way up to SAFEOP and OP the slaves without a group are left behind. -/
def onlyGroups : AlState → Bool
  | .safeop | .op => true
  | _ => false

theorem preopCode_reached (h : CodeGoes true (preopCode y.code) w w') (hw : w.AllSettled)
    (hy : y = .preop ∨ y = .safeop ∨ y = .op) : w'.Reached y (onlyGroups y) := by
  rcases hy with rfl | rfl | rfl
  · obtain ⟨u₁, hconfig, u₂, hloop, u₃, rfl, rfl⟩ := h
    exact (LoopGoes.inState (y := .preop) hloop (by decide)
      (ConfigGoes.settled hconfig hw)).reached
  · obtain ⟨u₁, hconfig, u₂, hloop, hsafeop⟩ := h
    exact safeopCode_reached (y := .safeop) hsafeop (LoopGoes.inState (y := .preop) hloop
      (by decide) (ConfigGoes.settled hconfig hw)).settled (.inl rfl)
  · obtain ⟨u₁, hconfig, u₂, hloop, hop⟩ := h
    exact safeopCode_reached (y := .op) hop (LoopGoes.inState (y := .preop) hloop
      (by decide) (ConfigGoes.settled hconfig hw)).settled (.inr rfl)

/-- INIT, whatever has been before. Without a slave the master keeps its state. -/
theorem initCode_reached (h : CodeGoes true (initCode y.code) w w') (hy : y ≠ .boot) :
    w'.Reached y (onlyGroups y) ∨ w'.slaveCnt = 0 ∧ w'.masterState = w.masterState := by
  have hsplit : ∃ u₃, u₃.masterState = w.masterState ∧
      if u₃.slaveCnt = 0 then w' = u₃ else ∃ u₄, LoopGoes true EC_STATE_INIT false u₃ u₄ ∧
        CodeGoes true (if y.code = EC_STATE_INIT then [.setMaster y.code] else preopCode y.code)
          u₄ w' := by
    obtain ⟨u₁, hconfig, u₂, hloop, u₃, hscan, hrest⟩ := h
    exact ⟨u₃, (ScanGoes.masterState hscan).trans
      ((LoopGoes.master hloop).masterState.trans (ConfigGoes.masterState hconfig)), hrest⟩
  obtain ⟨u₃, hmaster, hrest⟩ := hsplit
  by_cases hempty : u₃.slaveCnt = 0
  · rw [if_pos hempty] at hrest
    exact .inr ⟨hrest ▸ hempty, hrest ▸ hmaster⟩
  · rw [if_neg hempty] at hrest
    obtain ⟨u₄, hloop, hrest⟩ := hrest
    have hin := hloop.inInit
    left
    cases y with
    | boot => exact absurd rfl hy
    | init =>
      obtain ⟨u₅, rfl, rfl⟩ := hrest
      exact hin.reached
    | preop => exact preopCode_reached (y := .preop) hrest hin.settled (.inl rfl)
    | safeop => exact preopCode_reached (y := .safeop) hrest hin.settled (.inr (.inl rfl))
    | op => exact preopCode_reached (y := .op) hrest hin.settled (.inr (.inr rfl))

/-- The master and all slaves have come to BOOT. -/
structure World.Booted (w : World) : Prop where
  masterState : w.masterState = EC_STATE_BOOT
  part : ∀ i < w.slaveCnt, w.SlaveIn i .boot

theorem bootCode_goes (h : CodeGoes true (bootCode EC_STATE_BOOT) w w') :
    w'.masterState = EC_STATE_BOOT ∧ w'.slaveCnt = w.slaveCnt ∧
      ∀ i < w'.slaveCnt, w'.SlaveIn i ((w.device i).al.reach .boot) := by
  obtain ⟨u₁, hloop, u₂, rfl, rfl⟩ := h
  refine ⟨rfl, (LoopGoes.master hloop).slaveCnt, fun i hi => ?_⟩
  have hin := LoopGoes.inBoot (i := i) hloop hi
  exact ⟨hin.al, hin.expectedState⟩

theorem downToInitCode_init (h : CodeGoes true (downToInitCode EC_STATE_INIT) w w') :
    w'.Reached .init false := by
  obtain ⟨u₁, -, u₂, -, u₃, -, u₄, -, u₅, hloop, u₆, rfl, rfl⟩ := h
  exact (LoopGoes.inInit hloop).reached

theorem downToInitCode_boot (h : CodeGoes true (downToInitCode EC_STATE_BOOT) w w') :
    w'.Booted := by
  obtain ⟨u₁, -, u₂, -, u₃, -, u₄, -, u₅, hloop, hboot⟩ := h
  obtain ⟨hmaster, hcnt, hslaves⟩ := bootCode_goes hboot
  refine ⟨hmaster, fun i hi => ?_⟩
  have hinit := ((LoopGoes.inInit hloop).part i ⟨hcnt ▸ hi, rfl⟩).al
  have hin := hslaves i hi
  rwa [hinit] at hin

theorem downToPreopCode_reached (h : CodeGoes true (downToPreopCode y.code) w w')
    (hw : w.AllSettled) (hy : y = .preop ∨ y = .init) : w'.Reached y false := by
  rcases hy with rfl | rfl
  · obtain ⟨u₁, hconfig, u₂, hloop, u₃, rfl, u₄, rfl, rfl⟩ := h
    exact (LoopGoes.inState (y := .preop) hloop (by decide)
      (ConfigGoes.settled hconfig hw)).reached
  · obtain ⟨u₁, hconfig, u₂, hloop, u₃, -, u₄, -, hinit⟩ := h
    exact downToInitCode_init hinit

theorem downToPreopCode_boot (h : CodeGoes true (downToPreopCode EC_STATE_BOOT) w w') :
    w'.Booted := by
  obtain ⟨u₁, -, u₂, -, u₃, -, u₄, -, hboot⟩ := h
  exact downToInitCode_boot hboot

theorem downToSafeopCode_reached (h : CodeGoes true (downToSafeopCode y.code) w w')
    (hw : w.AllSettled) (hy : y = .safeop ∨ y = .preop ∨ y = .init) : w'.Reached y false := by
  rcases hy with rfl | hy
  · obtain ⟨u₁, hconfig, u₂, hloop, u₃, rfl, rfl⟩ := h
    exact (LoopGoes.inState (y := .safeop) hloop (by decide)
      (ConfigGoes.settled hconfig hw)).reached
  · have hrest : ∃ u₁ u₂ u₃, ConfigGoes w u₁ ∧ LoopGoes true EC_STATE_SAFEOP false u₁ u₂ ∧
        u₃ = { u₂ with masterState := EC_STATE_SAFEOP } ∧
        CodeGoes true (downToPreopCode y.code) u₃ w' := by
      rcases hy with rfl | rfl
      all_goals
        obtain ⟨u₁, hconfig, u₂, hloop, u₃, hset, hrest⟩ := h
        exact ⟨u₁, u₂, u₃, hconfig, hloop, hset, hrest⟩
    obtain ⟨u₁, u₂, u₃, hconfig, hloop, rfl, hrest⟩ := hrest
    have hin := LoopGoes.inState (y := .safeop) hloop (by decide) (hconfig.settled hw)
    exact downToPreopCode_reached hrest
      (fun i hi => ⟨(hin.settled i hi).al, (hin.settled i hi).expectedState⟩) hy

theorem downToSafeopCode_boot (h : CodeGoes true (downToSafeopCode EC_STATE_BOOT) w w') :
    w'.Booted := by
  obtain ⟨u₁, -, u₂, -, u₃, -, hboot⟩ := h
  exact downToPreopCode_boot hboot

/-! ## A call -/

/-- Whether a call leaves out the slaves that have no group. -/
def groupsOnly (masterState : UInt16) (y : AlState) : Bool :=
  onlyGroups y && !(masterState == EC_STATE_OP && y = .safeop)

/-- What a call of `ec_set_state` leaves. -/
structure Agrees (u : World) (y : AlState) (w : World) : Prop where
  masterState : w.masterState = y.code ∨ w.slaveCnt = 0 ∧ w.masterState = u.masterState
  part : y ≠ .boot → ∀ i, w.takesPart (groupsOnly u.masterState y) i → w.SlaveIn i y
  boot : y = .boot → ∀ i < w.slaveCnt, w.SlaveIn i
    (if u.masterState = EC_STATE_INIT ∨ u.masterState = EC_STATE_BOOT then
      (u.device i).al.reach .boot
    else .boot)

/-- What the calls keep. -/
structure World.Orderly (w : World) : Prop where
  goal : ∃ g, w.masterState = goalCode g
  unknown : w.masterState = EC_STATE_UNKNOWN → w.slaveCnt = 0
  settled : w.masterState ≠ EC_STATE_BOOT → w.AllSettled

theorem World.Reached.agrees (h : w.Reached y withGroup)
    (hgroup : withGroup = groupsOnly u.masterState y) (hy : y ≠ .boot) :
    Agrees u y w ∧ w.Orderly := by
  refine ⟨⟨.inl h.masterState, fun _ i hi => h.part i (hgroup ▸ hi), fun hboot => absurd hboot hy⟩,
    ⟨some y, h.masterState⟩, fun hunknown => ?_, fun _ => h.settled⟩
  exact absurd (h.masterState.symm.trans hunknown) y.code_ne_zero

theorem World.Booted.agrees (h : w.Booted)
    (hu : u.masterState ≠ EC_STATE_INIT ∧ u.masterState ≠ EC_STATE_BOOT) :
    Agrees u .boot w ∧ w.Orderly := by
  refine ⟨⟨.inl h.masterState, fun hne => absurd rfl hne, fun _ i hi => ?_⟩,
    ⟨some .boot, h.masterState⟩, fun hunknown => ?_, fun hne => absurd h.masterState hne⟩
  · rw [if_neg (not_or.2 hu)]
    exact h.part i hi
  · cases h.masterState.symm.trans hunknown

theorem empty_orderly (hu : u.Orderly) (hempty : w.slaveCnt = 0)
    (hmaster : w.masterState = u.masterState) : w.Orderly :=
  ⟨hmaster ▸ hu.goal, fun _ => hempty, fun _ i hi => by omega⟩

theorem initCode_agrees (hu : u.Orderly) (h : CodeGoes true (initCode y.code) u w)
    (hy : y ≠ .boot) (hmaster : u.masterState ≠ EC_STATE_OP) : Agrees u y w ∧ w.Orderly := by
  rcases initCode_reached h hy with hreached | ⟨hempty, hsame⟩
  · refine hreached.agrees ?_ hy
    simp [groupsOnly, hmaster]
  · exact ⟨⟨.inr ⟨hempty, hsame⟩, fun _ i hi => absurd hi.1 (by omega),
      fun hboot => absurd hboot hy⟩, empty_orderly hu hempty hsame⟩

theorem bootCode_agrees (h : CodeGoes true (bootCode EC_STATE_BOOT) u w)
    (hu : u.masterState = EC_STATE_INIT ∨ u.masterState = EC_STATE_BOOT) :
    Agrees u .boot w ∧ w.Orderly := by
  obtain ⟨hmaster, -, hslaves⟩ := bootCode_goes h
  refine ⟨⟨.inl hmaster, fun hne => absurd rfl hne, fun _ i hi => ?_⟩,
    ⟨some .boot, hmaster⟩, fun hunknown => ?_, fun hne => absurd hmaster hne⟩
  · rw [if_pos hu]
    exact hslaves i hi
  · cases hmaster.symm.trans hunknown

/-- **A call of `ec_set_state`**, by the cases of its switch. -/
theorem setState_goes (hu : u.Orderly) (h : SetStateGoes true y u w) :
    Agrees u y w ∧ w.Orderly := by
  obtain ⟨g, hg⟩ := hu.goal
  have hsettled : g ≠ some .boot → u.AllSettled := fun hne => hu.settled fun hboot => by
    rw [hg] at hboot
    cases g with
    | none => cases hboot
    | some a => exact hne (congrArg some (AlState.code_inj (b := .boot) hboot))
  rw [SetStateGoes, hg] at h
  have hgroup : groupsOnly u.masterState y = groupsOnly (goalCode g) y := by rw [hg]
  cases g with
  | none =>
    cases y with
    | boot =>
      obtain ⟨u₁, rfl, rfl⟩ := h
      have hempty : u.slaveCnt = 0 := hu.unknown hg
      exact ⟨⟨.inl rfl, fun hne => absurd rfl hne, fun _ i hi => absurd hi (by simp [hempty])⟩,
        ⟨some .boot, rfl⟩, fun _ => hempty, fun hne => absurd rfl hne⟩
    | init | preop | safeop | op => exact initCode_agrees hu h (by decide) (by rw [hg]; decide)
  | some a =>
    cases a with
    | boot =>
      cases y with
      | boot => exact bootCode_agrees h (.inr hg)
      | init | preop | safeop | op => exact initCode_agrees hu h (by decide) (by rw [hg]; decide)
    | init =>
      have hw := hsettled (by decide)
      cases y with
      | init => exact initCode_agrees hu h (by decide) (by rw [hg]; decide)
      | boot => exact bootCode_agrees h (.inl hg)
      | preop | safeop | op =>
        exact World.Reached.agrees (preopCode_reached h hw (by decide)) hgroup.symm (by decide)
    | preop =>
      have hw := hsettled (by decide)
      cases y with
      | init => exact World.Reached.agrees (downToInitCode_init h) hgroup.symm (by decide)
      | boot => exact (downToInitCode_boot h).agrees (by rw [hg]; decide)
      | preop =>
        exact World.Reached.agrees (preopCode_reached h hw (by decide)) hgroup.symm (by decide)
      | safeop | op =>
        exact World.Reached.agrees (safeopCode_reached h hw (by decide)) hgroup.symm (by decide)
    | safeop =>
      have hw := hsettled (by decide)
      cases y with
      | boot => exact (downToPreopCode_boot h).agrees (by rw [hg]; decide)
      | init | preop =>
        exact World.Reached.agrees (downToPreopCode_reached h hw (by decide)) hgroup.symm
          (by decide)
      | safeop =>
        exact World.Reached.agrees (safeopCode_reached h hw (by decide)) hgroup.symm (by decide)
      | op => exact World.Reached.agrees (opCode_reached h hw) hgroup.symm (by decide)
    | op =>
      have hw := hsettled (by decide)
      cases y with
      | boot => exact (downToSafeopCode_boot h).agrees (by rw [hg]; decide)
      | init | preop | safeop =>
        exact World.Reached.agrees (downToSafeopCode_reached h hw (by decide)) hgroup.symm
          (by decide)
      | op => exact World.Reached.agrees (opCode_reached h hw) hgroup.symm (by decide)

/-! ## Runs -/

theorem World.Opened.orderly (h : w.Opened) : w.Orderly := by
  refine ⟨⟨none, h.masterState⟩, fun _ => h.slaveCnt, fun _ i hi => ?_⟩
  rw [h.slaveCnt] at hi
  exact absurd hi (Nat.not_lt_zero i)

/-- What leaves the master alone, and settled slaves settled. -/
theorem World.Orderly.keep (h : w.Orderly) (hmaster : w'.masterState = w.masterState)
    (hcnt : w'.slaveCnt = w.slaveCnt)
    (hsettled : ∀ i < w.slaveCnt, w.Settled i → w'.Settled i) : w'.Orderly := by
  refine ⟨hmaster ▸ h.goal, ?_, fun hne i hi => ?_⟩
  · rw [hmaster, hcnt]
    exact h.unknown
  · rw [hmaster] at hne
    rw [hcnt] at hi
    exact hsettled i hi (h.settled hne i hi)

theorem Alone.settled (h : Alone i w w') {j : ℕ} (hi : w.Settled i → w'.Settled i)
    (hj : w.Settled j) : w'.Settled j := by
  by_cases hij : j = i
  · exact hij ▸ hi (hij ▸ hj)
  · exact (h.rest j hij).settled hj

theorem CheckGoes.slaveIn (h : CheckGoes true i w w')
    (hexpected : (w.slave i).expectedState = y.code) (hal : (w.device i).al ≠ .boot)
    (hy : y ≠ .boot) : w'.SlaveIn i y := by
  obtain ⟨b, hserved, hslave, hok⟩ := h.check
  obtain ⟨hal', hexpected'⟩ := Async.check_heals hserved hexpected hy hal (hok rfl)
  exact ⟨hal', hslave ▸ hexpected'⟩

theorem CheckGoes.settled (h : CheckGoes true i w w') (hi : w.Settled i) : w'.Settled i := by
  obtain ⟨y, hy, hexpected⟩ := hi.expectedState
  exact (h.slaveIn hexpected hi.al hy).settled hy

theorem FaultGoes.settled (h : FaultGoes true i w w') {j : ℕ} (hj : w.Settled j) :
    w'.Settled j := by
  refine ⟨?_, h.slave ▸ hj.expectedState⟩
  by_cases hij : j = i
  · exact hij ▸ h.noBoot rfl
  · exact h.rest j hij ▸ hj.al

theorem ConfigGoes.settled_iff (h : ConfigGoes w w') : w'.Settled i ↔ w.Settled i := by
  constructor
  · exact fun hi => ⟨h.device ▸ hi.al, h.expectedState i ▸ hi.expectedState⟩
  · exact fun hi => ⟨h.device.symm ▸ hi.al, (h.expectedState i).symm ▸ hi.expectedState⟩

/-- **One action.** -/
theorem Action.Goes.orderly {a : Action} (h : a.Goes true w w') (hw : w.Orderly) : w'.Orderly := by
  cases a with
  | setState y => exact (setState_goes hw h).2
  | transition i y =>
    obtain ⟨halone, htransits, hy⟩ := h
    refine hw.keep halone.master.masterState halone.master.slaveCnt fun j _ hj => ?_
    exact halone.settled (fun hi => (htransits.slaveIn_of_ne hi.al (hy rfl)).settled (hy rfl)) hj
  | check i =>
    have hcheck : CheckGoes true i w w' := h
    exact hw.keep hcheck.master.masterState hcheck.master.slaveCnt fun j _ hj =>
      hcheck.toAlone.settled hcheck.settled hj
  | config =>
    have hconfig : ConfigGoes w w' := h
    exact hw.keep hconfig.masterState hconfig.slaveCnt fun j _ hj => hconfig.settled_iff.2 hj
  | fault i =>
    have hfault : FaultGoes true i w w' := h
    exact hw.keep hfault.master.masterState hfault.master.slaveCnt fun j _ hj => hfault.settled hj

end

end LibEthercat.Master
