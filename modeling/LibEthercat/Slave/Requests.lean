import Mathlib.Data.Nat.Bitwise
import LibEthercat.Lib.Walk
import LibEthercat.Slave.State

/-!
# The requests of a transition

A transition asks for one state after the other and stops at the first that the slave does not
reach. Each request that is sent is left in `expected_state`. So what is there afterwards is the
last request that has been sent (`stateTransition_walks`, with `Walk.walk_snd`).
-/

namespace LibEthercat.SlaveState

open Walk (Step walk check Final)

/-! ## A request -/

/-- The slave is seen in the requested state in one of the rounds. -/
def Request.reached (x : UInt16) (b : Request) : Bool :=
  (b.first :: b.more).any fun a => a.write && a.status.alStat == .value x

/-- The request is sent, and left in `expected_state`. -/
def Request.step (x : UInt16) (b : Request) : Step UInt16 where
  value := if b.write && x &&& EC_STATE_RESET == 0 then some x else none
  ok := b.write && (x &&& EC_STATE_RESET != 0 || b.reached x && !b.late)

section
variable {s : Slave} {x : UInt16} {a : Attempt} {b : Request} {v : Switching}

@[simp] theorem setActState_expectedState {r : Read} :
    (s.setActState r).expectedState = s.expectedState := by cases r <;> rfl

@[simp] theorem setActState_useEoe {r : Read} : (s.setActState r).useEoe = s.useEoe := by
  cases r <;> rfl

@[simp] theorem attempt_expectedState :
    (attempt a v).slave.expectedState = v.slave.expectedState := by
  rw [attempt]
  split_ifs <;> simp [getState]

@[simp] theorem attempt_useEoe : (attempt a v).slave.useEoe = v.slave.useEoe := by
  rw [attempt]
  split_ifs <;> simp [getState]

theorem attempts_slave (more : List Attempt) :
    (attempts x a more v).1.slave.expectedState = v.slave.expectedState ∧
      (attempts x a more v).1.slave.useEoe = v.slave.useEoe := by
  induction more generalizing a v with
  | nil => simp [attempts]
  | cons a' more ih =>
    rw [attempts]
    split_ifs
    · simp
    · simpa using ih (a := a') (v := attempt a v)

/-- A state other than `EC_STATE_UNKNOWN` is seen only in an answer. -/
theorem attempt_actState_eq (hx : x ≠ 0) (hv : v.actState ≠ x) :
    (attempt a v).actState = x ↔ (a.write && a.status.alStat == .value x) = true := by
  cases hw : a.write with
  | false => simpa [attempt, hw] using hv
  | true =>
    cases hr : a.status.alStat <;>
      simp [attempt, hw, getState, Status.got, hr, EC_STATE_UNKNOWN, hx.symm]

theorem attempt_ret (h : (a.write && a.status.alStat == .value x) = true) :
    (attempt a v).ret = .ok := by
  obtain ⟨hw, hr⟩ := Bool.and_eq_true_iff.1 h
  simp [attempt, hw, getState, Status.got, beq_iff_eq.1 hr]

/-- **The rounds.** The loop times out unless the state is seen. -/
theorem attempts_seen (more : List Attempt) (hx : x ≠ 0) (hv : v.actState ≠ x) :
    ((attempts x a more v).2 = false ↔
      ((a :: more).any fun a => a.write && a.status.alStat == .value x) = true) ∧
    ((attempts x a more v).2 = false →
      (attempts x a more v).1.actState = x ∧ (attempts x a more v).1.ret = .ok) := by
  have hseen := attempt_actState_eq (a := a) hx hv
  induction more generalizing a v with
  | nil =>
    refine ⟨?_, fun h => ?_⟩
    · simp [attempts, hseen]
    · have hact : (attempt a v).actState = x := by simpa [attempts] using h
      exact ⟨hact, attempt_ret (hseen.1 hact)⟩
  | cons a' more ih =>
    rw [attempts]
    split_ifs with hact
    · refine ⟨?_, fun _ => ⟨hact, attempt_ret (hseen.1 hact)⟩⟩
      rw [List.any_cons, hseen.1 hact]
      simp
    · have hnot : (a.write && a.status.alStat == .value x) = false := by
        rw [← Bool.not_eq_true, ← hseen]
        exact hact
      rw [List.any_cons, hnot, Bool.false_or]
      exact ih hact (attempt_actState_eq hx hact)

/-- What a call leaves, as a walk of `expected_state`. -/
structure Walks (s : Slave) (k : List (Step UInt16)) (r : Ret × Slave) : Prop where
  walk : walk k s.expectedState = (decide (r.1 = .ok), r.2.expectedState)
  useEoe : r.2.useEoe = s.useEoe

theorem setState_walks (hx : x ≠ 0) : Walks s [b.step x] (setState x b s) := by
  cases hw : b.write with
  | false =>
    refine ⟨?_, ?_⟩ <;> simp [setState, Walk.walk, Request.step, hw]
  | true =>
    by_cases hreset : x &&& EC_STATE_RESET = 0
    · obtain ⟨hslave, huse⟩ := attempts_slave (x := x) (a := b.first)
        (v := ⟨0, .ok, { s with transitionActive := true, expectedState := x }⟩) b.more
      obtain ⟨hseen, hok⟩ := attempts_seen (a := b.first)
        (v := ⟨0, .ok, { s with transitionActive := true, expectedState := x }⟩) b.more hx hx.symm
      have hreached : b.reached x = !(attempts x b.first b.more
          ⟨0, .ok, { s with transitionActive := true, expectedState := x }⟩).2 := by
        rw [Bool.eq_iff_iff, Bool.not_eq_true', hseen, Request.reached]
      rw [setState]
      generalize attempts x b.first b.more
        ⟨0, .ok, { s with transitionActive := true, expectedState := x }⟩ = v at *
      cases htime : v.2 with
      | true => refine ⟨?_, ?_⟩ <;> simp [Walk.walk, Request.step, *]
      | false =>
        obtain ⟨hact, hret⟩ := hok htime
        cases hlate : b.late <;> refine ⟨?_, ?_⟩ <;>
          simp [Walk.walk, Request.step, *]
    · refine ⟨?_, ?_⟩ <;> simp [setState, Walk.walk, Request.step, hw, hreset]

end

/-! ## The requests of the switch -/

/-- What a transition asks for, in this order. The settings of EoE and the distributed clocks may
stop it in between. -/
def Execution.steps (b : Execution) (x : UInt16) (useEoe : Bool) :
    StateTransition → List (Step UInt16)
  | .boot2Preop | .boot2Safeop | .boot2Op => []
  | .init2Boot => [b.initToPreop.step EC_STATE_BOOT, check (!useEoe || b.eoe = .ok)]
  | .init2Preop => [b.initToPreop.step EC_STATE_PREOP, check (!useEoe || b.eoe = .ok)]
  | .init2Safeop =>
    [b.initToPreop.step EC_STATE_PREOP, check (!useEoe || b.eoe = .ok),
      check (b.dcSync ≠ .cyclicLoop), b.preopToSafeop.step EC_STATE_SAFEOP]
  | .init2Op =>
    [b.initToPreop.step EC_STATE_PREOP, check (!useEoe || b.eoe = .ok),
      check (b.dcSync ≠ .cyclicLoop), b.preopToSafeop.step EC_STATE_SAFEOP,
      b.safeopToOp.step EC_STATE_OP]
  | .preop2Safeop => [check (b.dcSync ≠ .cyclicLoop), b.preopToSafeop.step EC_STATE_SAFEOP]
  | .preop2Op =>
    [check (b.dcSync ≠ .cyclicLoop), b.preopToSafeop.step EC_STATE_SAFEOP,
      b.safeopToOp.step EC_STATE_OP]
  | .safeop2Op => [b.safeopToOp.step EC_STATE_OP]
  | .op2Safeop => [b.opDown.step x]
  | .op2Preop => [b.opDown.step x, b.toInit.step x]
  | .safeop2Preop => [b.toInit.step x]
  | .op2Init | .safeop2Init | .preop2Init =>
    [b.toInit.step x, b.unknownToInit.step x, b.same.step x]
  | .unknown2Init => [b.unknownToInit.step x, b.same.step x]
  | .boot2Init | .init2Init | .preop2Preop | .safeop2Safeop | .op2Op => [b.same.step x]
  | .other => [b.same.step EC_STATE_INIT]

section
variable {s : Slave} {x : UInt16} {t : StateTransition} {b : Execution} {j k : List (Step UInt16)}
  {r r' : Ret × Slave}

theorem Walks.nil : Walks s [] (.ok, s) := ⟨rfl, rfl⟩

/-- What follows a part of the transition, unless that part fails or the transition ends there. -/
theorem Walks.andThen {p : Prop} [Decidable p] (h : Walks s j r) (h' : Walks r.2 k r') :
    Walks s (j ++ if p then [] else k) (if r.1 ≠ .ok ∨ p then r else r') := by
  by_cases hp : p
  · simpa [hp] using h
  · simp only [hp, if_false, or_false]
    by_cases hok : r.1 = .ok
    · rw [if_neg (not_not.2 hok)]
      refine ⟨?_, h'.useEoe.trans h.useEoe⟩
      rw [Walk.walk_append, h.walk, if_pos (decide_eq_true hok), h'.walk]
    · rw [if_pos hok]
      refine ⟨?_, h.useEoe⟩
      rw [Walk.walk_append, h.walk, if_neg (by simpa using hok)]

theorem safeopToOp_walks : Walks s [b.safeopToOp.step EC_STATE_OP] (safeopToOp b s) :=
  setState_walks (by decide)

theorem Walks.check_true (h : Walks s k r) : Walks s (check true :: k) r :=
  ⟨(Walk.walk_cons_of_ok rfl).trans h.walk, h.useEoe⟩

theorem Walks.check_false {ret : Ret} (hret : ret ≠ .ok) : Walks s (check false :: k) (ret, s) :=
  ⟨by simp [Walk.walk, hret], rfl⟩

theorem preopToSafeop_walks : Walks s
    (check (b.dcSync ≠ .cyclicLoop) :: b.preopToSafeop.step EC_STATE_SAFEOP ::
      if t = .init2Safeop ∨ t = .preop2Safeop then [] else [b.safeopToOp.step EC_STATE_OP])
    (preopToSafeop t b s) := by
  by_cases hdc : b.dcSync = .cyclicLoop
  · simpa [preopToSafeop, hdc] using Walks.check_false (by decide)
  · simp only [preopToSafeop, hdc, if_false, ne_eq, not_false_eq_true, decide_true]
    apply Walks.check_true
    exact (setState_walks (by decide)).andThen safeopToOp_walks

/-- The settings of EoE replace what the request has returned, when it has gone well. -/
theorem Walks.andEoe {st : Step UInt16} {e : Ret} (h : Walks s [st] r) :
    Walks s [st, check (!s.useEoe || e = .ok)]
      (if r.1 = .ok ∧ s.useEoe then e else r.1, r.2) := by
  refine ⟨?_, h.useEoe⟩
  rw [← List.singleton_append, Walk.walk_append, h.walk]
  by_cases hr : r.1 = .ok
  · cases hu : s.useEoe <;> by_cases he : e = .ok <;> simp [Walk.walk, hr, he]
  · simp [hr]

theorem initToPreop_walks : Walks s
    (b.initToPreop.step (if t = .init2Boot then EC_STATE_BOOT else EC_STATE_PREOP) ::
      check (!s.useEoe || b.eoe = .ok) ::
      if t = .init2Preop ∨ t = .init2Boot then []
      else check (b.dcSync ≠ .cyclicLoop) :: b.preopToSafeop.step EC_STATE_SAFEOP ::
        if t = .init2Safeop ∨ t = .preop2Safeop then [] else [b.safeopToOp.step EC_STATE_OP])
    (initToPreop t b s) := by
  have hx : (if t = .init2Boot then EC_STATE_BOOT else EC_STATE_PREOP) ≠ 0 := by
    split_ifs <;> decide
  have hset := (setState_walks (s := s) (b := b.initToPreop) hx).andEoe (e := b.eoe)
  exact hset.andThen (p := t = .init2Preop ∨ t = .init2Boot)
    (preopToSafeop_walks (t := t) (b := b))

theorem initToInit_walks (hx : x ≠ 0) : Walks s [b.same.step x] (initToInit x b s) :=
  setState_walks hx

theorem unknownToInit_walks (hx : x ≠ 0) :
    Walks s [b.unknownToInit.step x, b.same.step x] (unknownToInit x b s) :=
  by
  simpa [unknownToInit] using
    (setState_walks (b := b.unknownToInit) hx).andThen (p := False) (initToInit_walks hx)

theorem toInit_walks (hx : x ≠ 0) : Walks s
    (b.toInit.step x :: if t = .op2Preop ∨ t = .safeop2Preop then []
      else [b.unknownToInit.step x, b.same.step x]) (toInit t x b s) :=
  (setState_walks hx).andThen (unknownToInit_walks hx)

theorem opDown_walks (hx : x ≠ 0) : Walks s
    (b.opDown.step x :: if t = .op2Safeop then []
      else b.toInit.step x :: if t = .op2Preop ∨ t = .safeop2Preop then []
        else [b.unknownToInit.step x, b.same.step x]) (opDown t x b s) :=
  (setState_walks hx).andThen (toInit_walks hx)

theorem ofCode_eq_other {n : ℕ} (h : n % 256 = 0) : StateTransition.ofCode n = .other := by
  unfold StateTransition.ofCode
  split <;> first | rfl | omega

theorem ne_zero_of_ofStates {act : UInt16} (h : StateTransition.ofStates act x ≠ .other) :
    x ≠ 0 := by
  rintro rfl
  apply h
  apply ofCode_eq_other
  simp [Nat.shiftLeft_eq]

/-- **The switch.** -/
theorem execute_walks (hx : t ≠ .other → x ≠ 0) :
    Walks s (b.steps x s.useEoe t) (execute t x b s) := by
  cases t with
  | boot2Preop | boot2Safeop | boot2Op => exact .nil
  | init2Boot => exact initToPreop_walks (t := .init2Boot)
  | init2Preop => exact initToPreop_walks (t := .init2Preop)
  | init2Safeop => exact initToPreop_walks (t := .init2Safeop)
  | init2Op => exact initToPreop_walks (t := .init2Op)
  | preop2Safeop => exact preopToSafeop_walks (t := .preop2Safeop)
  | preop2Op => exact preopToSafeop_walks (t := .preop2Op)
  | safeop2Op => exact safeopToOp_walks
  | op2Safeop => exact opDown_walks (t := .op2Safeop) (hx (by decide))
  | op2Preop => exact opDown_walks (t := .op2Preop) (hx (by decide))
  | op2Init => exact toInit_walks (t := .op2Init) (hx (by decide))
  | safeop2Preop => exact toInit_walks (t := .safeop2Preop) (hx (by decide))
  | safeop2Init => exact toInit_walks (t := .safeop2Init) (hx (by decide))
  | preop2Init => exact toInit_walks (t := .preop2Init) (hx (by decide))
  | unknown2Init => exact unknownToInit_walks (hx (by decide))
  | boot2Init | init2Init | preop2Preop | safeop2Safeop | op2Op =>
    exact setState_walks (hx (by decide))
  | other => exact setState_walks (by decide)

end

/-! ## The requests of a call -/

/-- An answer with the AL status, and with its code in case of an error. -/
def Status.answer (b : Status) : Option Got :=
  if (b.got true).ret = .ok then some (b.got true) else none

/-- An answer without an error. -/
def Status.clean (b : Status) : Option UInt16 :=
  b.answer.bind fun g => if g.state &&& EC_STATE_ERROR = 0 then some g.state else none

/-- The state that the transition begins from, if the slave answers and its error can be reset. -/
def Entry.found (b : Entry) : Option UInt16 :=
  (b.status.answer <|> if b.address then b.again.answer else none).bind fun g =>
    if g.state &&& EC_STATE_ERROR ≠ 0 ∧ g.alStatusCode ≠ 0 then
      if b.late then none else (b.reset :: b.resets).findSome? Status.clean
    else some g.state

/-- What a call asks for, in this order. -/
def Transition.steps (b : Transition) (x : UInt16) (useEoe : Bool) : List (Step UInt16) :=
  match b.entry.found with
  | none => [check false]
  | some act => b.execution.steps x useEoe (.ofStates act x)

section
variable {s : Slave} {x : UInt16} {b : Status} {more : List Status}

theorem answer_of_ok (h : (b.got true).ret = .ok) : b.answer = some (b.got true) := if_pos h

theorem answer_of_not_ok (h : (b.got true).ret ≠ .ok) : b.answer = none := if_neg h

theorem clean_eq : b.clean =
    if (b.got true).ret = .ok ∧ (b.got true).state &&& EC_STATE_ERROR = 0 then
      some (b.got true).state else none := by
  by_cases hok : (b.got true).ret = .ok
  · simp [Status.clean, answer_of_ok hok, hok]
  · simp [Status.clean, answer_of_not_ok hok, hok]

/-- The loop ends in time with the first answer without an error. -/
theorem resetError_fst :
    (b :: more).findSome? Status.clean =
      if (resetError b more s).1.2 then none else some (resetError b more s).1.1 := by
  induction more generalizing b s with
  | nil =>
    by_cases hok : (b.got true).ret = .ok <;>
      by_cases herr : (b.got true).state &&& EC_STATE_ERROR = 0 <;>
        simp [resetError, getState, clean_eq, hok, herr]
  | cons b' more ih =>
    rw [List.findSome?_cons, clean_eq, resetError]
    by_cases hclean : (b.got true).ret = .ok ∧ (b.got true).state &&& EC_STATE_ERROR = 0
    · simp [getState, hclean]
    · simpa only [getState, hclean, if_false] using ih (b := b')

theorem resetError_snd (more : List Status) :
    (resetError b more s).2.expectedState = s.expectedState ∧
      (resetError b more s).2.useEoe = s.useEoe := by
  induction more generalizing b s with
  | nil => simp [resetError, getState]
  | cons b' more ih =>
    rw [resetError]
    split_ifs
    · simp [getState]
    · simpa [getState] using ih (b := b') (s := (getState b true s).2)

end

section
variable {s : Slave} {x : UInt16}

theorem readState_snd {b : Entry} :
    (readState b s).2.expectedState = s.expectedState ∧ (readState b s).2.useEoe = s.useEoe := by
  rw [readState]
  split_ifs <;> simp [getState]

theorem readState_fst {b : Entry} :
    (b.status.answer <|> if b.address then b.again.answer else none) =
      if (readState b s).1.ret = .ok then some (readState b s).1 else none := by
  rw [readState]
  by_cases hok : (b.status.got true).ret = .ok
  · simp [getState, answer_of_ok hok, hok]
  · by_cases haddr : b.address
    · simp [getState, Status.answer, hok, haddr]
    · simp [getState, answer_of_not_ok hok, hok, haddr]

theorem enter_snd {b : Entry} :
    (enter b s).2.expectedState = s.expectedState ∧ (enter b s).2.useEoe = s.useEoe := by
  obtain ⟨hexpected, huse⟩ := readState_snd (s := s) (b := b)
  rw [enter]
  split_ifs
  · obtain ⟨hexpected', huse'⟩ :=
      resetError_snd (b := b.reset) (s := (readState b s).2) b.resets
    exact ⟨hexpected'.trans hexpected, huse'.trans huse⟩
  · exact ⟨hexpected, huse⟩

theorem enter_fst {b : Entry} :
    b.found = if (enter b s).1.1 = .ok then some (enter b s).1.2 else none := by
  rw [Entry.found, readState_fst (s := s), enter]
  by_cases hok : (readState b s).1.ret = .ok
  · by_cases herr : (readState b s).1.state &&& EC_STATE_ERROR ≠ 0 ∧
        (readState b s).1.alStatusCode ≠ 0
    · simp only [hok, herr, if_true, Option.bind_some, ne_eq, not_false_eq_true, and_self,
        resetError_fst (s := (readState b s).2)]
      cases hlate : b.late <;>
        cases htime : (resetError b.reset b.resets (readState b s).2).1.2 <;> simp
    · simp [hok, herr]
  · simp [hok]

/-- **A transition.** -/
theorem stateTransition_walks {b : Transition} :
    Walks s (b.steps x s.useEoe) (stateTransition x b s) := by
  obtain ⟨hexpected, huse⟩ := enter_snd (s := s) (b := b.entry)
  have hfound := enter_fst (s := s) (b := b.entry)
  rw [Transition.steps, stateTransition]
  by_cases hok : (enter b.entry s).1.1 = .ok
  · rw [if_pos hok] at hfound
    have hexec := execute_walks (s := (enter b.entry s).2) (b := b.execution)
      (t := .ofStates (enter b.entry s).1.2 x) ne_zero_of_ofStates
    simp only [hfound, hok, if_true]
    exact ⟨by rw [← hexpected, ← huse]; exact hexec.walk, hexec.useEoe.trans huse⟩
  · rw [if_neg hok] at hfound
    simp only [hfound, hok, if_false]
    exact ⟨by simp [Walk.walk, hok, hexpected], huse⟩

end

/-! ## What is asked for at most -/

/-- The state that a transition leads to. -/
def StateTransition.target : StateTransition → UInt16
  | .init2Boot => EC_STATE_BOOT
  | .init2Preop | .boot2Preop | .op2Preop | .safeop2Preop | .preop2Preop => EC_STATE_PREOP
  | .init2Safeop | .boot2Safeop | .preop2Safeop | .op2Safeop | .safeop2Safeop => EC_STATE_SAFEOP
  | .init2Op | .boot2Op | .preop2Op | .safeop2Op | .op2Op => EC_STATE_OP
  | .op2Init | .safeop2Init | .preop2Init | .unknown2Init | .boot2Init | .init2Init =>
    EC_STATE_INIT
  | .other => EC_STATE_UNKNOWN

section
variable {act x y : UInt16} {st : Step UInt16} {useEoe : Bool}

theorem ofCode_target_le {n : ℕ} : (StateTransition.ofCode n).target.toNat ≤ n % 16 := by
  unfold StateTransition.ofCode
  split <;> first | exact Nat.zero_le _ | decide

/-- The last digit of a transition is the requested state. -/
theorem code_mod (act x : UInt16) :
    (((act &&& EC_STATE_MASK) <<< 8) ||| (x &&& EC_STATE_MASK)).toNat % 16 = x.toNat % 16 := by
  have hshift : (act.toNat &&& 15) <<< 8 % 65536 % 2 ^ 4 = 0 := by
    rw [Nat.shiftLeft_eq]
    omega
  have hmask : (x.toNat &&& 15) % 2 ^ 4 = x.toNat % 2 ^ 4 := by
    rw [Nat.and_two_pow_sub_one_eq_mod x.toNat 4]
    omega
  have hor := Nat.or_mod_two_pow (a := (act.toNat &&& 15) <<< 8 % 65536) (b := x.toNat &&& 15)
    (n := 4)
  rw [hshift, hmask, Nat.zero_or] at hor
  simpa [EC_STATE_MASK] using hor

theorem ofStates_target_le (act x : UInt16) : (StateTransition.ofStates act x).target ≤ x := by
  rw [UInt16.le_iff_toNat_le]
  exact Nat.le_trans ofCode_target_le
    (Nat.le_trans (Nat.le_of_eq (code_mod act x)) (Nat.mod_le _ _))

theorem step_value {b : Request} (h : (b.step x).value = some y) : y = x := by
  simp only [Request.step] at h
  split_ifs at h
  exact (Option.some.inj h).symm

/-- A request on the way to `x`, which may be for INIT at worst. -/
def AtMost (x y : UInt16) : Prop := y ≠ EC_STATE_UNKNOWN ∧ (y ≤ x ∨ y = EC_STATE_INIT)

theorem AtMost.eq_init (h : AtMost EC_STATE_INIT y) : y = EC_STATE_INIT := by
  obtain ⟨hne, hle | rfl⟩ := h
  · have hle' : y.toNat ≤ 1 := UInt16.le_iff_toNat_le.1 hle
    have hne' : y.toNat ≠ 0 := fun h => hne (UInt16.toNat_inj.1 h)
    exact UInt16.toNat_inj.1 (show y.toNat = 1 by omega)
  · rfl

theorem AtMost.mono {e : UInt16} (h : AtMost x y) (hx : x ≤ e) : AtMost e y :=
  ⟨h.1, h.2.imp_left fun hle => UInt16.le_trans hle hx⟩

theorem AtMost.trans {e : UInt16} (h : AtMost x y) (hx : AtMost e x) : AtMost e y := by
  obtain ⟨-, hle | rfl⟩ := hx
  · exact h.mono hle
  · exact ⟨h.1, .inr h.eq_init⟩

/-- What is asked for before the goal. -/
theorem AtMost.ne {e : UInt16} (h : AtMost x y) (hinit : EC_STATE_INIT < e) (hx : x < e) :
    y ≠ e := by
  rintro rfl
  rcases h.2 with hle | rfl
  · exact UInt16.lt_irrefl _ (UInt16.lt_of_le_of_lt hle hx)
  · exact UInt16.lt_irrefl _ hinit

theorem Execution.steps_le {b : Execution} (hst : st ∈ b.steps x useEoe (.ofStates act x))
    (h : st.value = some y) : AtMost x y := by
  have htarget := ofStates_target_le act x
  generalize StateTransition.ofStates act x = t at hst htarget
  have hself : ∀ {b : Request}, st = b.step x → EC_STATE_UNKNOWN < t.target →
      AtMost x y := by
    rintro b rfl ht
    obtain rfl := step_value h
    exact ⟨(UInt16.ne_of_lt (UInt16.lt_of_lt_of_le ht htarget)).symm, .inl (UInt16.le_refl _)⟩
  have hconst : ∀ {b : Request} {c : UInt16}, st = b.step c → c ≠ EC_STATE_UNKNOWN →
      c ≤ t.target ∨ c = EC_STATE_INIT → AtMost x y := by
    rintro b c rfl hne hc
    obtain rfl := step_value h
    exact ⟨hne, hc.imp_left fun hle => UInt16.le_trans hle htarget⟩
  have hcheck : ∀ {ok : Bool}, st ≠ check ok := by
    rintro ok rfl
    cases h
  cases t <;>
    simp only [Execution.steps, List.mem_cons, List.not_mem_nil, or_false, hcheck, false_or] at hst
  all_goals
    rcases hst with rfl | rfl | rfl | rfl <;>
      first | exact hself rfl (by decide) | exact hconst rfl (by decide) (by decide)

theorem Transition.steps_le {b : Transition} (hst : st ∈ b.steps x useEoe)
    (h : st.value = some y) : AtMost x y := by
  rw [Transition.steps] at hst
  cases hfound : b.entry.found with
  | none =>
    rw [hfound, List.mem_singleton] at hst
    rw [hst] at h
    cases h
  | some act =>
    rw [hfound] at hst
    exact Execution.steps_le hst h

/-- The state that is asked for comes last. -/
theorem Execution.steps_final {b : Execution} :
    Final x (b.steps x useEoe (.ofStates act x)) := by
  have htarget := ofStates_target_le act x
  generalize StateTransition.ofStates act x = t at htarget
  have hne : ∀ {b : Request} {c : UInt16}, c < t.target → (b.step c).value ≠ some x := by
    intro b c hc h
    have hlt := UInt16.lt_of_lt_of_le hc htarget
    rw [step_value h] at hlt
    exact UInt16.lt_irrefl _ hlt
  have hself : ∀ {k : List (Step UInt16)}, (∀ st ∈ k, ∃ b : Request, st = b.step x) →
      Final x k := by
    refine fun hk => Final.of_forall fun st hst y hy => ?_
    obtain ⟨b, rfl⟩ := hk st hst
    exact step_value hy
  cases t with
  | boot2Preop | boot2Safeop | boot2Op => exact .nil
  | init2Boot | init2Preop => exact .cons_silent (by simp)
  | init2Safeop => exact .cons (hne (by decide)) (.check (.check .singleton))
  | init2Op =>
    exact .cons (hne (by decide)) (.check (.check (.cons (hne (by decide)) .singleton)))
  | preop2Safeop => exact .check .singleton
  | preop2Op => exact .check (.cons (hne (by decide)) .singleton)
  | safeop2Op | other => exact .singleton
  | _ => exact hself (by simp [Execution.steps])

theorem Transition.steps_final {b : Transition} : Final x (b.steps x useEoe) := by
  rw [Transition.steps]
  cases b.entry.found with
  | none => exact .singleton
  | some act => exact Execution.steps_final

end

end LibEthercat.SlaveState
