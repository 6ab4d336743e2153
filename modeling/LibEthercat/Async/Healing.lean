import LibEthercat.Async.Recovery
import LibEthercat.Slave.Device

/-!
# The recovery and the state machine of the slave

`ec_async_check_slave` with a slave that has a state machine (`Slave/Device.lean`).

* `check_lawful` — it asks for nothing that is not allowed in the state that it finds.
* `check_heals` — if nothing fails, a slave that is not in BOOT comes back to its expected state,
  whether it has been lost or has only fallen back.
-/

namespace LibEthercat.Async

open SlaveState

/-! ## A check with a slave -/

/-- What is done only if the condition holds. -/
structure When (c : Prop) (R : Device → Device → Prop) (d d' : Device) : Prop where
  then_ : c → R d d'
  else_ : ¬ c → d' = d

/-- The states of `ret` and of the record on the way back, after each of its parts. -/
def Check.afterInit (b : Check) (s : Slave) : Ret × Slave := stateTransition EC_STATE_INIT b.init s

def Check.afterPreop (b : Check) (s : Slave) : Ret × Slave :=
  if (b.afterInit s).1 = .ok ∧ EC_STATE_PREOP ≤ s.expectedState then
    stateTransition EC_STATE_PREOP b.preop (b.afterInit s).2
  else b.afterInit s

def Check.afterMapping (b : Check) (s : Slave) : Ret × Slave :=
  let p := prepareStateTransition b.prepare (b.afterPreop s).2
  if p.1 = .ok then (b.mapping, p.2) else p

def Check.afterSafeop (b : Check) (s : Slave) : Ret × Slave :=
  if (b.afterPreop s).1 = .ok ∧ EC_STATE_SAFEOP ≤ s.expectedState then
    if (b.afterMapping s).1 = .ok then stateTransition EC_STATE_SAFEOP b.safeop (b.afterMapping s).2
    else b.afterMapping s
  else b.afterPreop s

/-- The way back of a lost slave. -/
def Check.ReconfigureServed (b : Check) (s : Slave) (d d' : Device) : Prop :=
  ∃ d₁ d₂ d₃, b.init.Served EC_STATE_INIT s.useEoe d d₁ ∧
    When ((b.afterInit s).1 = .ok ∧ EC_STATE_PREOP ≤ s.expectedState)
      (b.preop.Served EC_STATE_PREOP (b.afterInit s).2.useEoe) d₁ d₂ ∧
    When (((b.afterPreop s).1 = .ok ∧ EC_STATE_SAFEOP ≤ s.expectedState) ∧
        (b.afterMapping s).1 = .ok)
      (b.safeop.Served EC_STATE_SAFEOP (b.afterMapping s).2.useEoe) d₂ d₃ ∧
    When ((b.afterSafeop s).1 = .ok ∧ EC_STATE_OP ≤ s.expectedState)
      (b.op.Served EC_STATE_OP (b.afterSafeop s).2.useEoe) d₃ d'

/-- The slave has not answered, or is taken to have no state. -/
def Check.lost (b : Check) (s : Slave) : Bool :=
  (getState b.status true s).1.ret ≠ .ok || (getState b.status true s).1.state = EC_STATE_UNKNOWN

/-- The slave is brought to its expected state. -/
def Check.repairs (b : Check) (s : Slave) : Bool :=
  (getState b.status true s).1.state ≠ (getState b.status true s).2.expectedState && b.errorCounters

/-- **A call of `ec_async_check_slave` with a slave.** -/
structure Check.Served (b : Check) (s : Slave) (d d' : Device) : Prop where
  status : b.status.Shows d.al
  lost : b.lost s → b.ReconfigureServed (getState b.status true s).2 d d'
  found : ¬ b.lost s → When (b.repairs s)
    (b.repair.Served (getState b.status true s).2.expectedState
      (getState b.status true s).2.useEoe) d d'

theorem checkSlave_eq (b : Check) (s : Slave) : checkSlave b s =
    if b.lost s then (reconfigure b (getState b.status true s).2).2
    else if b.repairs s then
      (stateTransition (getState b.status true s).2.expectedState b.repair
        (getState b.status true s).2).2
    else (getState b.status true s).2 := by
  simp [checkSlave, Check.lost, Check.repairs]

/-! ## Nothing that is not allowed -/

section
variable {b : Check} {s : Slave} {d d' : Device} {g : Option AlState} {y : AlState}

theorem When.lawful {c : Prop} {R : Device → Device → Prop} (h : When c R d d')
    (hR : R d d' → d.Lawful → d'.Lawful) (hd : d.Lawful) : d'.Lawful := by
  by_cases hc : c
  · exact hR (h.then_ hc) hd
  · exact h.else_ hc ▸ hd

theorem reconfigure_lawful (h : b.ReconfigureServed s d d') (hd : d.Lawful) : d'.Lawful := by
  obtain ⟨d₁, d₂, d₃, hinit, hpreop, hsafeop, hop⟩ := h
  have h₁ := transition_lawful (g := some .init) hinit hd
  have h₂ := hpreop.lawful (transition_lawful (g := some .preop)) h₁
  have h₃ := hsafeop.lawful (transition_lawful (g := some .safeop)) h₂
  exact hop.lawful (transition_lawful (g := some .op)) h₃

theorem check_lawful (h : b.Served s d d') (hg : s.expectedState = goalCode g) (hd : d.Lawful) :
    d'.Lawful := by
  by_cases hlost : b.lost s
  · exact reconfigure_lawful (h.lost hlost) hd
  · refine (h.found hlost).lawful (fun hserved => ?_) hd
    rw [getState, setActState_expectedState, hg] at hserved
    exact transition_lawful hserved

/-- What is expected is a state that can be requested, or none. -/
def Goal (s : Slave) : Prop := ∃ g, s.expectedState = goalCode g

theorem transition_keepsGoal {r : Ret × Slave} {x : UInt16} {b : Transition} {c : Prop}
    [Decidable c] (h : When c (b.Served x r.2.useEoe) d d') (hx : x = goalCode g)
    (hr : Goal r.2) : Goal (if c then stateTransition x b r.2 else r).2 := by
  subst hx
  obtain ⟨g', hg'⟩ := hr
  by_cases hc : c
  · rw [if_pos hc]
    exact transition_goal (h.then_ hc).entry hg'
  · rw [if_neg hc]
    exact ⟨g', hg'⟩

theorem afterMapping_goal (h : Goal (b.afterPreop s).2) : Goal (b.afterMapping s).2 := by
  obtain ⟨g, hg⟩ := h
  have hprepare : (prepareStateTransition b.prepare (b.afterPreop s).2).2.expectedState =
      goalCode g := by simpa [prepareStateTransition, getState] using hg
  refine ⟨g, ?_⟩
  rw [Check.afterMapping]
  split_ifs <;> exact hprepare

theorem reconfigure_goal (h : b.ReconfigureServed s d d') (hs : Goal s) :
    Goal (reconfigure b s).2 := by
  obtain ⟨d₁, d₂, d₃, hinit, hpreop, hsafeop, hop⟩ := h
  obtain ⟨g, hg⟩ := hs
  have h₁ : Goal (b.afterInit s).2 := transition_goal (g := some .init) hinit.entry hg
  have h₂ : Goal (b.afterPreop s).2 := transition_keepsGoal (g := some .preop) hpreop rfl h₁
  have h₃ : Goal (b.afterSafeop s).2 := by
    rw [Check.afterSafeop]
    by_cases hc : (b.afterPreop s).1 = .ok ∧ EC_STATE_SAFEOP ≤ s.expectedState
    · rw [if_pos hc]
      exact transition_keepsGoal (g := some .safeop)
        ⟨fun hm => hsafeop.then_ ⟨hc, hm⟩, fun hm => hsafeop.else_ fun hboth => hm hboth.2⟩ rfl
        (afterMapping_goal h₂)
    · rw [if_neg hc]
      exact h₂
  exact transition_keepsGoal (g := some .op) hop rfl h₃

theorem check_goal (h : b.Served s d d') (hg : s.expectedState = goalCode g) :
    Goal (checkSlave b s) := by
  have hs : (getState b.status true s).2.expectedState = goalCode g := by
    rwa [getState, setActState_expectedState]
  rw [checkSlave_eq]
  by_cases hlost : b.lost s
  · rw [if_pos hlost]
    exact reconfigure_goal (h.lost hlost) ⟨g, hs⟩
  · rw [if_neg hlost]
    have hgoal := transition_keepsGoal (r := (.ok, (getState b.status true s).2)) (h.found hlost)
      hs ⟨g, hs⟩
    rwa [apply_ite Prod.snd] at hgoal

/-! ## Back to the expected state -/

/-- If all has gone well so far, the slave is in this state, and nothing else is expected. -/
def At (r : Ret × Slave) (d : Device) (e : AlState) : Prop :=
  r.1 = .ok → d.al = e ∧ r.2.expectedState = e.code

theorem transition_at {r : Ret × Slave} {b : Transition} {e : AlState} (hat : At r d e)
    (hstays : e.stays (some y) = false) (hr : r.1 = .ok)
    (h : b.Served y.code r.2.useEoe d d') : At (stateTransition y.code b r.2) d' (e.reach y) := by
  intro hok
  obtain ⟨hal, hexpected⟩ := transition_ok (g := some y) h hok
  obtain ⟨rfl, -⟩ := hat hr
  rw [hstays] at hexpected
  exact ⟨hal, hexpected⟩

/-- A part of the way, which is taken if the expected state is high enough. -/
theorem climb {r : Ret × Slave} {b : Transition} {e : AlState} {c : Prop} [Decidable c]
    (hat : At r d e) (hstays : e.stays (some y) = false)
    (h : When (r.1 = .ok ∧ c) (b.Served y.code r.2.useEoe) d d') :
    At (if r.1 = .ok ∧ c then stateTransition y.code b r.2 else r) d'
      (if c then e.reach y else e) := by
  by_cases hc : c
  · by_cases hr : r.1 = .ok
    · rw [if_pos ⟨hr, hc⟩, if_pos hc]
      exact transition_at hat hstays hr (h.then_ ⟨hr, hc⟩)
    · rw [if_neg fun hcond => hr hcond.1]
      exact fun hok => absurd hok hr
  · rw [if_neg fun hcond => hc hcond.2, if_neg hc, h.else_ fun hcond => hc hcond.2]
    exact hat

theorem afterInit_at (h : b.init.Served EC_STATE_INIT s.useEoe d d') :
    At (b.afterInit s) d' .init := by
  intro hok
  obtain ⟨hal, hexpected⟩ := transition_ok (g := some .init) h hok
  have hlead : d.al.lead (some .init) = .init := by cases d.al <;> rfl
  have hstays : d.al.stays (some .init) = false := by cases d.al <;> rfl
  rw [hstays, hlead] at hexpected
  exact ⟨hal.trans hlead, hexpected⟩

theorem afterMapping_at {e : AlState} (hat : At (b.afterPreop s) d e)
    (hok : (b.afterPreop s).1 = .ok) : At (b.afterMapping s) d e := by
  obtain ⟨hal, hexpected⟩ := hat hok
  refine fun _ => ⟨hal, ?_⟩
  have hprepare : (prepareStateTransition b.prepare (b.afterPreop s).2).2.expectedState =
      e.code := by simpa [prepareStateTransition, getState] using hexpected
  rw [Check.afterMapping]
  split_ifs <;> exact hprepare

theorem afterSafeop_at {e : AlState} (hat : At (b.afterPreop s) d e)
    (hstays : e.stays (some .safeop) = false)
    (h : When (((b.afterPreop s).1 = .ok ∧ EC_STATE_SAFEOP ≤ s.expectedState) ∧
        (b.afterMapping s).1 = .ok)
      (b.safeop.Served EC_STATE_SAFEOP (b.afterMapping s).2.useEoe) d d') :
    At (b.afterSafeop s) d'
      (if EC_STATE_SAFEOP ≤ s.expectedState then e.reach .safeop else e) := by
  rw [Check.afterSafeop]
  by_cases hcond : (b.afterPreop s).1 = .ok ∧ EC_STATE_SAFEOP ≤ s.expectedState
  · rw [if_pos hcond, if_pos hcond.2]
    have hmapping := afterMapping_at hat hcond.1
    by_cases hm : (b.afterMapping s).1 = .ok
    · rw [if_pos hm]
      exact transition_at (y := .safeop) hmapping hstays hm (h.then_ ⟨hcond, hm⟩)
    · rw [if_neg hm]
      exact fun hok => absurd hok hm
  · rw [if_neg hcond, h.else_ fun hboth => hcond hboth.1]
    intro hok
    rw [if_neg fun hle => hcond ⟨hok, hle⟩]
    exact hat hok

/-- **A lost slave** is brought back, by way of INIT and all that lies below its expected state. -/
theorem reconfigure_heals (h : b.ReconfigureServed s d d') (hs : s.expectedState = y.code)
    (hy : y ≠ .boot) (hok : (reconfigure b s).1 = .ok) :
    d'.al = y ∧ (reconfigure b s).2.expectedState = y.code := by
  obtain ⟨d₁, d₂, d₃, hinit, hpreop, hsafeop, hop⟩ := h
  have h₁ := afterInit_at hinit
  have h₂ : At (b.afterPreop s) d₂ _ := climb (y := .preop) h₁ rfl hpreop
  have h₃ := afterSafeop_at h₂ (by split_ifs <;> rfl) hsafeop
  have h₄ : At (reconfigure b s) d' _ := climb (y := .op) h₃ (by split_ifs <;> rfl) hop
  have hend := h₄ hok
  rw [hs] at hend
  cases y with
  | boot => exact absurd rfl hy
  | init | preop | safeop | op => exact hend

/-- What a check has to do goes well. -/
structure Check.Succeeds (b : Check) (s : Slave) : Prop where
  errorCounters : b.errorCounters = true
  lost : b.lost s → (reconfigure b (getState b.status true s).2).1 = .ok
  found : ¬ b.lost s → b.repairs s →
    (stateTransition (getState b.status true s).2.expectedState b.repair
      (getState b.status true s).2).1 = .ok

theorem found_state (hstatus : b.status.Shows d.al) (hlost : ¬ b.lost s) :
    IsStatus d.al (getState b.status true s).1.state := by
  have hret : (b.status.got true).ret = .ok := by
    by_contra hret
    exact hlost (by simp [Check.lost, getState, hret])
  exact answer_isStatus hstatus (answer_of_ok hret)

/-- **A check heals a slave** that is not in BOOT. -/
theorem check_heals (h : b.Served s d d') (hs : s.expectedState = y.code) (hy : y ≠ .boot)
    (hd : d.al ≠ .boot) (hok : b.Succeeds s) :
    d'.al = y ∧ (checkSlave b s).expectedState = y.code := by
  have hs' : (getState b.status true s).2.expectedState = y.code := by
    rwa [getState, setActState_expectedState]
  rw [checkSlave_eq]
  by_cases hlost : b.lost s
  · rw [if_pos hlost]
    exact reconfigure_heals (h.lost hlost) hs' hy (hok.lost hlost)
  · rw [if_neg hlost]
    by_cases hrepairs : b.repairs s
    · have hserved := (h.found hlost).then_ hrepairs
      have hret := hok.found hlost hrepairs
      rw [hs'] at hserved hret
      obtain ⟨hal, hexpected⟩ := transition_ok (g := some y) hserved hret
      have hlead : d.al.lead (some y) = y ∧ d.al.stays (some y) = false := by
        revert hy hd
        cases d.al <;> cases y <;> decide
      rw [hlead.1, hlead.2] at hexpected
      rw [if_pos hrepairs, hs']
      exact ⟨hal.trans hlead.1, hexpected⟩
    · rw [if_neg hrepairs, (h.found hlost).else_ hrepairs]
      refine ⟨?_, hs'⟩
      have hstate : (getState b.status true s).1.state = y.code := by
        by_contra hne
        exact hrepairs (by simpa [Check.repairs, hs', hok.errorCounters] using hne)
      have hshown := found_state h.status hlost
      rw [hstate] at hshown
      revert hshown
      rw [IsStatus]
      cases d.al <;> cases y <;> decide

end

end LibEthercat.Async
