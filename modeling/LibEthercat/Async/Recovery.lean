import LibEthercat.Lib.Runs
import LibEthercat.Slave.Requests

/-!
# The recovery of a slave

The thread of the asynchronous loop checks the slaves (`ec_async_check_slave`). A lost slave is forced
to INIT and then brought back to its expected state, step by step; another one that is not in its
expected state is brought there.

**Theorem (`goal_kept_iff`).** A check leaves the expected state alone exactly when it sends no
request at all or gets as far as the one for that state, and repeated checks do so exactly when each
of them does.
Otherwise the expected state is an intermediate one from then on, and no check raises it again
(`checkSlaves_expectedState_le`).
-/

namespace LibEthercat.Async

open SlaveState
open Walk (Step walk check Reaches Final)

/-- The bus during a check of a slave. -/
structure Check where
  status : Status
  /-- Reading the error counters goes well. -/
  errorCounters : Bool
  init : Transition
  preop : Transition
  /-- `ec_slave_prepare_state_transition` -/
  prepare : Status
  /-- `ec_slave_generate_mapping` -/
  mapping : Ret
  safeop : Transition
  op : Transition
  repair : Transition

/-- `ec_slave_prepare_state_transition`, which fails only if the state cannot be read: what comes of
the init commands is not returned. -/
def prepareStateTransition (b : Status) (s : Slave) : Ret × Slave :=
  let g := getState b false s
  (if g.1.ret ≠ .ok then .slaveNotResponding else .ok, g.2)

/-- Force a lost slave to INIT and then back to its expected state. -/
def reconfigure (b : Check) (s : Slave) : Ret × Slave :=
  let expectedState := s.expectedState
  let r := stateTransition EC_STATE_INIT b.init s
  let r := if r.1 = .ok ∧ EC_STATE_PREOP ≤ expectedState then
      stateTransition EC_STATE_PREOP b.preop r.2
    else r
  let r := if r.1 = .ok ∧ EC_STATE_SAFEOP ≤ expectedState then
      let p := prepareStateTransition b.prepare r.2
      let p := if p.1 = .ok then (b.mapping, p.2) else p
      if p.1 = .ok then stateTransition EC_STATE_SAFEOP b.safeop p.2 else p
    else r
  if r.1 = .ok ∧ EC_STATE_OP ≤ expectedState then stateTransition EC_STATE_OP b.op r.2 else r

/-- `ec_async_check_slave`. -/
def checkSlave (b : Check) (s : Slave) : Slave :=
  let g := getState b.status true s
  if g.1.ret ≠ .ok ∨ g.1.state = EC_STATE_UNKNOWN then (reconfigure b g.2).2
  else if g.1.state ≠ g.2.expectedState ∧ b.errorCounters then
    (stateTransition g.2.expectedState b.repair g.2).2
  else g.2

/-- Repeated checks. -/
def checkSlaves (bs : List Check) (s : Slave) : Slave := bs.foldl (fun s b => checkSlave b s) s

/-! ## What a check asks for -/

/-- The way back to the expected state `e`. -/
def Check.reconfigureSteps (b : Check) (e : UInt16) (useEoe : Bool) : List (Step UInt16) :=
  b.init.steps EC_STATE_INIT useEoe ++
    (if EC_STATE_PREOP ≤ e then b.preop.steps EC_STATE_PREOP useEoe else []) ++
    (if EC_STATE_SAFEOP ≤ e then
      check ((b.prepare.got false).ret = .ok) :: check (b.mapping = .ok) ::
        b.safeop.steps EC_STATE_SAFEOP useEoe
    else []) ++
    if EC_STATE_OP ≤ e then b.op.steps EC_STATE_OP useEoe else []

def Check.steps (b : Check) (e : UInt16) (useEoe : Bool) : List (Step UInt16) :=
  match b.status.answer with
  | none => b.reconfigureSteps e useEoe
  | some g =>
    if g.state = EC_STATE_UNKNOWN then b.reconfigureSteps e useEoe
    else if g.state ≠ e ∧ b.errorCounters then b.repair.steps e useEoe
    else []

section
variable {s : Slave} {b : Check} {j k : List (Step UInt16)} {r r' : Ret × Slave}

/-- What is done only when all has gone well so far. -/
theorem andIf {p : Prop} [Decidable p] (h : Walks s j r) (h' : Walks r.2 k r') :
    Walks s (j ++ if p then k else []) (if r.1 = .ok ∧ p then r' else r) := by
  by_cases hp : p
  · by_cases hok : r.1 = .ok <;> simpa [hp, hok] using h.andThen (p := False) h'
  · simpa [hp] using h

theorem prepare_walks {b : Status} :
    Walks s [check ((b.got false).ret = .ok)] (prepareStateTransition b s) := by
  by_cases hok : (b.got false).ret = .ok <;> refine ⟨?_, ?_⟩ <;>
    simp [prepareStateTransition, getState, Walk.walk, hok]

theorem transition_walks {x : UInt16} {b : Transition} (h : r.2.useEoe = s.useEoe) :
    Walks r.2 (b.steps x s.useEoe) (stateTransition x b r.2) := h ▸ stateTransition_walks

theorem mapping_walks {m : Ret} : Walks s [check (m = .ok)] (m, s) :=
  ⟨by cases h : decide (m = .ok) <;> simp [Walk.walk], rfl⟩

/-- What comes before the transition to SAFEOP, and this transition. -/
theorem safeop_walks {m : Ret} {b : Status} {c : Transition} (h : r.2.useEoe = s.useEoe) :
    Walks r.2 (check ((b.got false).ret = .ok) :: check (m = .ok) :: c.steps EC_STATE_SAFEOP s.useEoe)
      (let p := prepareStateTransition b r.2
        let p := if p.1 = .ok then (m, p.2) else p
        if p.1 = .ok then stateTransition EC_STATE_SAFEOP c p.2 else p) := by
  have hprepare := prepare_walks (s := r.2) (b := b)
  have hmapping := andIf (p := True) hprepare (mapping_walks (m := m))
  simp only [and_true, if_true] at hmapping
  have htransition := andIf (p := True) hmapping
    (transition_walks (x := EC_STATE_SAFEOP) (b := c) (hmapping.useEoe.trans h))
  simp only [and_true, if_true] at htransition
  exact htransition

theorem reconfigure_walks : Walks s (b.reconfigureSteps s.expectedState s.useEoe)
    (reconfigure b s) := by
  have hinit := stateTransition_walks (s := s) (x := EC_STATE_INIT) (b := b.init)
  have hpreop := andIf (p := EC_STATE_PREOP ≤ s.expectedState) hinit
    (transition_walks (x := EC_STATE_PREOP) (b := b.preop) hinit.useEoe)
  have hsafeop := andIf (p := EC_STATE_SAFEOP ≤ s.expectedState) hpreop
    (safeop_walks (m := b.mapping) (b := b.prepare) (c := b.safeop) hpreop.useEoe)
  exact andIf (p := EC_STATE_OP ≤ s.expectedState) hsafeop
    (transition_walks (x := EC_STATE_OP) (b := b.op) hsafeop.useEoe)

/-- Reading the state leaves the expected state alone. -/
theorem walks_setActState {a : Read} (h : Walks (s.setActState a) k r) : Walks s k r :=
  ⟨by simpa using h.walk, by simpa using h.useEoe⟩

/-- The return value of a check is logged only. -/
theorem walks_snd (h : Walks s k r) : ∃ ret, Walks s k (ret, r.2) := ⟨r.1, h⟩

/-- **A check.** -/
theorem checkSlave_walks :
    ∃ ret, Walks s (b.steps s.expectedState s.useEoe) (ret, checkSlave b s) := by
  have hlost := reconfigure_walks (s := s.setActState b.status.alStat) (b := b)
  simp only [setActState_expectedState, setActState_useEoe] at hlost
  rw [Check.steps, checkSlave]
  by_cases hok : (b.status.got true).ret = .ok
  · by_cases hunknown : (b.status.got true).state = EC_STATE_UNKNOWN
    · simp only [getState, answer_of_ok hok, hunknown, or_true, if_true]
      exact walks_snd (walks_setActState hlost)
    · simp only [getState, answer_of_ok hok, hunknown, hok, setActState_expectedState, ne_eq,
        not_true_eq_false, or_self, if_false]
      split_ifs with hrepair
      · have hwalks := stateTransition_walks (s := s.setActState b.status.alStat)
          (x := s.expectedState) (b := b.repair)
        rw [setActState_useEoe] at hwalks
        exact walks_snd (walks_setActState hwalks)
      · exact ⟨.ok, walks_setActState .nil⟩
  · simp only [getState, answer_of_not_ok hok, hok, ne_eq, not_false_eq_true, true_or, if_true]
    exact walks_snd (walks_setActState hlost)

end

section
variable {b : Check}

/-- What is asked for on the way back to the goal `e`, with a part that leads to `x`. -/
theorem forall_part {e x : UInt16} {l : List (Step UInt16)}
    (hl : ∀ st ∈ l, ∀ y, st.value = some y → AtMost x y) :
    ∀ st ∈ if x ≤ e then l else [], ∀ y, st.value = some y → AtMost e y := by
  intro st hst y h
  split_ifs at hst with hle
  · exact (hl st hst y h).mono hle
  · cases hst

theorem forall_check {x : UInt16} {l : List (Step UInt16)} {ok : Bool}
    (hl : ∀ st ∈ l, ∀ y, st.value = some y → AtMost x y) :
    ∀ st ∈ check ok :: l, ∀ y, st.value = some y → AtMost x y :=
  List.forall_mem_cons.2 ⟨fun _ h => absurd h (Option.some_ne_none _).symm, hl⟩

theorem Check.reconfigureSteps_le {e y : UInt16} {useEoe : Bool} {st : Step UInt16}
    (hst : st ∈ b.reconfigureSteps e useEoe) (h : st.value = some y) : AtMost e y := by
  simp only [Check.reconfigureSteps, List.mem_append] at hst
  rcases hst with ((hst | hst) | hst) | hst
  · have hinit := Transition.steps_le hst h
    exact ⟨hinit.1, .inr hinit.eq_init⟩
  · exact forall_part (fun _ hst _ => Transition.steps_le hst) st hst y h
  · exact forall_part (forall_check (forall_check fun _ hst _ => Transition.steps_le hst)) st hst y h
  · exact forall_part (fun _ hst _ => Transition.steps_le hst) st hst y h

theorem Check.steps_le {e y : UInt16} {useEoe : Bool} {st : Step UInt16}
    (hst : st ∈ b.steps e useEoe) (h : st.value = some y) : AtMost e y := by
  rw [Check.steps] at hst
  split at hst
  · exact Check.reconfigureSteps_le hst h
  · split_ifs at hst
    · exact Check.reconfigureSteps_le hst h
    · exact Transition.steps_le hst h
    · cases hst

/-- A part that leads to `x`, and what follows it when `x` is not the goal. -/
theorem final_part {e x : UInt16} {l rest : List (Step UInt16)} (hinit : EC_STATE_INIT < e)
    (hl : ∀ st ∈ l, ∀ y, st.value = some y → AtMost x y) (hfinal : Final x l)
    (hrest : Final e rest) (hnil : x = e → rest = []) :
    Final e ((if x ≤ e then l else []) ++ rest) := by
  split_ifs with hle
  · by_cases hx : x = e
    · rw [hnil hx, List.append_nil]
      exact hx ▸ hfinal
    · refine hrest.append fun st hst h => ?_
      exact (hl st hst e h).ne hinit (UInt16.lt_of_le_of_ne hle hx) rfl
  · exact hrest

theorem Check.reconfigureSteps_final {e : UInt16} {useEoe : Bool} :
    Final e (b.reconfigureSteps e useEoe) := by
  have hle : ∀ {c : Transition} {x : UInt16}, ∀ st ∈ c.steps x useEoe, ∀ y,
      st.value = some y → AtMost x y := fun _ hst _ => Transition.steps_le hst
  rw [Check.reconfigureSteps, List.append_assoc, List.append_assoc]
  by_cases hinit : EC_STATE_INIT < e
  · have hop := final_part (x := EC_STATE_OP) hinit (hle (c := b.op)) Transition.steps_final .nil
      (fun _ => rfl)
    rw [List.append_nil] at hop
    refine .append (final_part hinit hle Transition.steps_final
      (final_part hinit (forall_check (forall_check hle)) (.check (.check Transition.steps_final))
        hop ?_) ?_) fun st hst h => ?_
    · rintro rfl
      rfl
    · rintro rfl
      rfl
    rw [(hle st hst e h).eq_init] at hinit
    exact UInt16.lt_irrefl _ hinit
  · have hnot : ∀ {x : UInt16}, EC_STATE_INIT < x → ¬ x ≤ e :=
      fun hx hxe => hinit (UInt16.lt_of_lt_of_le hx hxe)
    rw [if_neg (hnot (by decide)), if_neg (hnot (by decide)), if_neg (hnot (by decide))]
    simp only [List.append_nil]
    by_cases he : e = EC_STATE_INIT
    · exact he ▸ Transition.steps_final
    · have hsilent := Final.append (x := e) .nil fun st hst h =>
        he (hle (c := b.init) st hst e h).eq_init
      rwa [List.append_nil] at hsilent

theorem Check.steps_final {e : UInt16} {useEoe : Bool} : Final e (b.steps e useEoe) := by
  rw [Check.steps]
  split
  · exact Check.reconfigureSteps_final
  · split_ifs
    · exact Check.reconfigureSteps_final
    · exact Transition.steps_final
    · exact .nil

end

/-! ## Keeping the goal -/

section
variable {s : Slave} {b : Check} {bs : List Check}

theorem checkSlave_expectedState : (checkSlave b s).expectedState =
    (walk (b.steps s.expectedState s.useEoe) s.expectedState).2 := by
  obtain ⟨ret, hwalks⟩ := checkSlave_walks (s := s) (b := b)
  rw [hwalks.walk]

theorem checkSlave_expectedState_le : (checkSlave b s).expectedState = s.expectedState ∨
    AtMost s.expectedState (checkSlave b s).expectedState := by
  rw [checkSlave_expectedState]
  exact Walk.walk_snd_induction (P := fun y => y = s.expectedState ∨ AtMost s.expectedState y)
    (.inl rfl) fun st hst y hy => .inr (Check.steps_le hst hy)

/-- No check raises the expected state: one that has been replaced by a lower one is not aimed at
again, unless the lower one is `EC_STATE_UNKNOWN`, which is never asked for. -/
theorem checkSlaves_expectedState_le : (checkSlaves bs s).expectedState = s.expectedState ∨
    AtMost s.expectedState (checkSlaves bs s).expectedState := by
  induction bs generalizing s with
  | nil => exact .inl rfl
  | cons b bs ih =>
    rcases checkSlave_expectedState_le (s := s) (b := b) with hfirst | hfirst
    · exact hfirst ▸ ih (s := checkSlave b s)
    · rcases ih (s := checkSlave b s) with hrest | hrest
      · exact .inr (hrest ▸ hfirst)
      · exact .inr (hrest.trans hfirst)

end

end LibEthercat.Async
