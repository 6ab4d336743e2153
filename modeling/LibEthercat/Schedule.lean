import Mathlib.Data.List.Basic
import Mathlib.Data.Int.Basic

/-!
# The schedule of the groups

`ec_send_process_data` counts its calls for each group of process data and sends the group when its
counter is a multiple of its divisor. The macros for the application read the same counter.

**Theorem (`group_schedule`).** As long as no send fails, the `n`-th call sends the groups whose
divisor divides `n`.
-/

namespace LibEthercat.Schedule

/-! ## The functions -/

def EC_OK : ℤ := 0

/-- An `ec_pd_group_t`. -/
structure EcPdGroup where
  divisor : Int32
  divisorCnt : Int32
deriving DecidableEq, Repr

/-- `ec_create_pd_groups`, or `none` where its assertion fails. `pd_group_cnt` has 16 bits. -/
def ecCreatePdGroups (lecMaxGroups : ℕ) (pdGroupCnt : UInt32) : Option (List EcPdGroup) :=
  if pdGroupCnt.toNat < lecMaxGroups then
    some (List.replicate pdGroupCnt.toUInt16.toNat ⟨1, 0⟩)
  else none

/-- `ec_configure_pd_group` -/
def ecConfigurePdGroup (pdGroups : List EcPdGroup) (group : UInt16) (clockDivisor : Int32) :
    Option (List EcPdGroup) :=
  if group.toNat < pdGroups.length then
    some (pdGroups.modify group.toNat fun pd =>
      if 0 < clockDivisor then { pd with divisor := clockDivisor } else pd)
  else none

/-- `++pd->divisor_cnt` -/
def EcPdGroup.count (pd : EcPdGroup) : EcPdGroup := { pd with divisorCnt := pd.divisorCnt + 1 }

/-- What a call leaves behind, and the groups it has executed `ec_send_process_data_group` for. -/
structure Call where
  pdGroups : List EcPdGroup
  executed : List ℕ
  ret : ℤ
deriving DecidableEq, Repr

/-- The loop of `ec_send_process_data` from group `i` on; `send` is what
`ec_send_process_data_group` returns for each group. -/
def sendFrom (send : ℕ → ℤ) (i : ℕ) : List EcPdGroup → Call
  | [] => ⟨[], [], EC_OK⟩
  | pd :: pds =>
    let pd := pd.count
    if pd.divisorCnt % pd.divisor = 0 then
      let pd := { pd with divisorCnt := 0 }
      if send i ≠ EC_OK then
        ⟨pd :: pds, [i], send i⟩
      else
        let rest := sendFrom send (i + 1) pds
        ⟨pd :: rest.pdGroups, i :: rest.executed, rest.ret⟩
    else
      let rest := sendFrom send (i + 1) pds
      ⟨pd :: rest.pdGroups, rest.executed, rest.ret⟩

/-- `ec_send_process_data` -/
def ecSendProcessData (send : ℕ → ℤ) (pdGroups : List EcPdGroup) : Call := sendFrom send 0 pdGroups

/-- `ec_group_will_be_sent` -/
def ecGroupWillBeSent (pdGroups : List EcPdGroup) (group : ℕ) : Bool :=
  pdGroups[group]?.any fun pd => (pd.divisorCnt + 1) % pd.divisor == 0

/-- `ec_group_was_sent` -/
def ecGroupWasSent (pdGroups : List EcPdGroup) (group : ℕ) : Bool :=
  pdGroups[group]?.any fun pd => pd.divisorCnt == 0

/-! ## Runs -/

/-- The calls of `ec_configure_pd_group` behind `ec_create_pd_groups`. -/
def configured (lecMaxGroups : ℕ) (pdGroupCnt : UInt32) (configs : List (UInt16 × Int32)) :
    Option (List EcPdGroup) :=
  configs.foldlM (fun pdGroups c => ecConfigurePdGroup pdGroups c.1 c.2)
    =<< ecCreatePdGroups lecMaxGroups pdGroupCnt

/-- The divisor of a group: the last one it was configured with that is positive. -/
def divisorOf (configs : List (UInt16 × Int32)) (group : ℕ) : ℕ :=
  configs.foldl (fun d c => if c.1.toNat = group ∧ 0 < c.2 then c.2.toInt.toNat else d) 1

/-- The groups before each call; `sends` is what the sends of each call return. -/
def before (sends : ℕ → ℕ → ℤ) (pdGroups : List EcPdGroup) : ℕ → List EcPdGroup
  | 0 => pdGroups
  | n + 1 => (ecSendProcessData (sends n) (before sends pdGroups n)).pdGroups

/-- The calls, counted from 0. -/
def call (sends : ℕ → ℕ → ℤ) (pdGroups : List EcPdGroup) (n : ℕ) : Call :=
  ecSendProcessData (sends n) (before sends pdGroups n)

/-! ## The counter of a group -/

/-- The group after `n` counts, with the divisor `d`. -/
structure InPhase (n d : ℕ) (pd : EcPdGroup) : Prop where
  pos : 0 < d
  divisor : pd.divisor.toInt = d
  divisorCnt : pd.divisorCnt.toInt = (n % d : ℕ)

section
variable {n d i : ℕ} {pd : EcPdGroup} {pds : List EcPdGroup} {ds : ℕ → ℕ} {send : ℕ → ℤ}

/-- The counter does not overflow: it is less than the divisor. -/
theorem InPhase.count_divisorCnt (h : InPhase n d pd) :
    pd.count.divisorCnt.toInt = (n % d + 1 : ℕ) := by
  have hlt : n % d < d := Nat.mod_lt _ h.pos
  have hle := pd.divisor.toInt_lt
  rw [h.divisor] at hle
  rw [EcPdGroup.count, Int32.toInt_add, h.divisorCnt]
  exact Int.bmod_eq_of_le (by simp; omega) (by simp; omega)

/-- **The test** finds the multiples of the divisor. -/
theorem InPhase.mod_eq_zero_iff (h : InPhase n d pd) :
    pd.count.divisorCnt % pd.count.divisor = 0 ↔ d ∣ n + 1 := by
  have hmod : (n % d + 1) % d = (n + 1) % d := Nat.mod_add_mod n d 1
  rw [← Int32.toInt_inj, Int32.toInt_mod, h.count_divisorCnt, EcPdGroup.count, h.divisor,
    Int32.toInt_zero, ← Int.ofNat_tmod, Int.natCast_eq_zero, hmod, Nat.dvd_iff_mod_eq_zero]

theorem add_one_mod (hd : 0 < d) (h : ¬ d ∣ n + 1) : (n + 1) % d = n % d + 1 := by
  have hlt : n % d < d := Nat.mod_lt _ hd
  have hne : n % d + 1 ≠ d := by
    intro heq
    refine h (Nat.dvd_of_mod_eq_zero ?_)
    rw [← Nat.mod_add_mod, heq, Nat.mod_self]
  rw [← Nat.mod_add_mod, Nat.mod_eq_of_lt (by omega)]

theorem InPhase.reset (h : InPhase n d pd) (hdvd : d ∣ n + 1) :
    InPhase (n + 1) d { pd.count with divisorCnt := 0 } where
  pos := h.pos
  divisor := h.divisor
  divisorCnt := by
    rw [Nat.mod_eq_zero_of_dvd hdvd]
    rfl

theorem InPhase.count (h : InPhase n d pd) (hdvd : ¬ d ∣ n + 1) : InPhase (n + 1) d pd.count where
  pos := h.pos
  divisor := h.divisor
  divisorCnt := by rw [h.count_divisorCnt, add_one_mod h.pos hdvd]

theorem InPhase.divisorCnt_eq_zero_iff (h : InPhase n d pd) : pd.divisorCnt = 0 ↔ d ∣ n := by
  rw [← Int32.toInt_inj, h.divisorCnt, Int32.toInt_zero, Int.natCast_eq_zero,
    Nat.dvd_iff_mod_eq_zero]

theorem InPhase.divisor_ne_zero (h : InPhase n d pd) : pd.divisor ≠ 0 := by
  have hpos := h.pos
  rw [ne_eq, ← Int32.toInt_inj, h.divisor, Int32.toInt_zero]
  omega

/-! ## A call -/

/-- Each group is in the phase of its own divisor; the first one has number `i`. -/
def AllInPhase (n i : ℕ) (ds : ℕ → ℕ) (pds : List EcPdGroup) : Prop :=
  ∀ j (h : j < pds.length), InPhase n (ds (i + j)) pds[j]

theorem allInPhase_nil : AllInPhase n i ds [] := nofun

theorem allInPhase_cons :
    AllInPhase n i ds (pd :: pds) ↔ InPhase n (ds i) pd ∧ AllInPhase n (i + 1) ds pds := by
  constructor
  · intro h
    refine ⟨h 0 (Nat.succ_pos _), fun j hj => ?_⟩
    rw [Nat.add_right_comm]
    exact h (j + 1) (Nat.succ_lt_succ hj)
  · rintro ⟨hhead, htail⟩ j hj
    cases j with
    | zero => exact hhead
    | succ j =>
      rw [← Nat.add_assoc, Nat.add_right_comm]
      exact htail j (Nat.lt_of_succ_lt_succ hj)

/-- **A call whose sends succeed** is one count of each group. -/
theorem sendFrom_allInPhase (h : AllInPhase n i ds pds) (hret : (sendFrom send i pds).ret = EC_OK) :
    (sendFrom send i pds).executed = (List.range' i pds.length).filter (ds · ∣ n + 1) ∧
      AllInPhase (n + 1) i ds (sendFrom send i pds).pdGroups := by
  induction pds generalizing i with
  | nil => exact ⟨rfl, allInPhase_nil⟩
  | cons pd pds ih =>
    obtain ⟨hpd, hpds⟩ := allInPhase_cons.1 h
    rw [List.length_cons, List.range'_succ]
    by_cases hdvd : ds i ∣ n + 1
    · rw [List.filter_cons_of_pos (by simpa using hdvd)]
      rw [sendFrom, if_pos (hpd.mod_eq_zero_iff.2 hdvd)] at hret ⊢
      by_cases hsend : send i ≠ EC_OK
      · rw [if_pos hsend] at hret
        exact absurd hret hsend
      · rw [if_neg hsend] at hret ⊢
        obtain ⟨hexecuted, hphase⟩ := ih hpds hret
        exact ⟨congrArg (i :: ·) hexecuted, allInPhase_cons.2 ⟨hpd.reset hdvd, hphase⟩⟩
    · rw [List.filter_cons_of_neg (by simpa using hdvd)]
      rw [sendFrom, if_neg (mt hpd.mod_eq_zero_iff.1 hdvd)] at hret ⊢
      obtain ⟨hexecuted, hphase⟩ := ih hpds hret
      exact ⟨hexecuted, allInPhase_cons.2 ⟨hpd.count hdvd, hphase⟩⟩

theorem sendFrom_divisor :
    (sendFrom send i pds).pdGroups.map (·.divisor) = pds.map (·.divisor) := by
  fun_induction sendFrom send i pds with
  | case1 => rfl
  | case2 => rfl
  | case3 i pd pds _ _ _ _ rest ih => exact congrArg (pd.divisor :: ·) ih
  | case4 i pd pds _ _ rest ih => exact congrArg (pd.divisor :: ·) ih

/-! ## The configuration -/

theorem ecCreatePdGroups_allInPhase {lecMaxGroups : ℕ} {pdGroupCnt : UInt32}
    (h : ecCreatePdGroups lecMaxGroups pdGroupCnt = some pds) :
    AllInPhase 0 0 (fun _ => 1) pds := by
  obtain ⟨-, hpds⟩ := Option.ite_none_right_eq_some.1 h
  obtain rfl := Option.some.inj hpds
  intro j hj
  rw [List.getElem_replicate]
  exact ⟨Nat.one_pos, rfl, rfl⟩

/-- What `ec_configure_pd_group` makes of the divisors. -/
def setDivisor (c : UInt16 × Int32) (ds : ℕ → ℕ) (group : ℕ) : ℕ :=
  if c.1.toNat = group ∧ 0 < c.2 then c.2.toInt.toNat else ds group

theorem ecConfigurePdGroup_allInPhase {c : UInt16 × Int32} {pds' : List EcPdGroup}
    (h : AllInPhase 0 0 ds pds) (hc : ecConfigurePdGroup pds c.1 c.2 = some pds') :
    AllInPhase 0 0 (setDivisor c ds) pds' := by
  obtain ⟨-, hpds⟩ := Option.ite_none_right_eq_some.1 hc
  obtain rfl := Option.some.inj hpds
  intro j hj
  rw [List.length_modify] at hj
  obtain ⟨hpos, hdivisor, hcnt⟩ := h j hj
  rw [Nat.zero_add] at hpos hdivisor ⊢
  rw [List.getElem_modify, setDivisor]
  by_cases hgroup : c.1.toNat = j
  · rw [if_pos hgroup]
    by_cases hc : 0 < c.2
    · rw [if_pos hc, if_pos ⟨hgroup, hc⟩]
      have hpositive : 0 < c.2.toInt := Int32.lt_iff_toInt_lt.1 hc
      exact ⟨by omega, by dsimp only; omega, by rw [hcnt, Nat.zero_mod, Nat.zero_mod]⟩
    · rw [if_neg hc, if_neg fun h => hc h.2]
      exact ⟨hpos, hdivisor, hcnt⟩
  · rw [if_neg hgroup, if_neg fun h => hgroup h.1]
    exact ⟨hpos, hdivisor, hcnt⟩

theorem foldlM_allInPhase {configs : List (UInt16 × Int32)} {pds' : List EcPdGroup}
    (h : AllInPhase 0 0 ds pds)
    (hconfigs : configs.foldlM (fun pds c => ecConfigurePdGroup pds c.1 c.2) pds = some pds') :
    AllInPhase 0 0 (fun group =>
      configs.foldl (fun d c => setDivisor c (fun _ => d) group) (ds group)) pds' := by
  induction configs generalizing pds ds with
  | nil =>
    obtain rfl := Option.some.inj hconfigs
    exact h
  | cons c configs ih =>
    obtain ⟨next, hnext, hrest⟩ := Option.bind_eq_some_iff.1 hconfigs
    exact ih (ecConfigurePdGroup_allInPhase h hnext) hrest

theorem configured_allInPhase {lecMaxGroups : ℕ} {pdGroupCnt : UInt32}
    {configs : List (UInt16 × Int32)} (h : configured lecMaxGroups pdGroupCnt configs = some pds) :
    AllInPhase 0 0 (divisorOf configs) pds := by
  obtain ⟨created, hcreate, hconfigs⟩ := Option.bind_eq_some_iff.1 h
  exact foldlM_allInPhase (ecCreatePdGroups_allInPhase hcreate) hconfigs

/-! ## The run -/

variable {sends : ℕ → ℕ → ℤ}

/-- **A run whose sends succeed** counts each group once a call. -/
theorem before_allInPhase (h : AllInPhase 0 0 ds pds)
    (hrets : ∀ k < n, (call sends pds k).ret = EC_OK) : AllInPhase n 0 ds (before sends pds n) := by
  induction n with
  | zero => exact h
  | succ n ih =>
    exact (sendFrom_allInPhase (ih fun k hk => hrets k (Nat.lt_succ_of_lt hk))
      (hrets n (Nat.lt_succ_self n))).2

theorem before_divisor : (before sends pds n).map (·.divisor) = pds.map (·.divisor) := by
  induction n with
  | zero => rfl
  | succ n ih => exact sendFrom_divisor.trans ih

theorem length_before : (before sends pds n).length = pds.length := by
  have hdivisor : (before sends pds n).map (·.divisor) = pds.map (·.divisor) := before_divisor
  simpa only [List.length_map] using congrArg List.length hdivisor

/-! ## The macros -/

theorem AllInPhase.any_iff {p : EcPdGroup → Bool} {k : ℕ} (h : AllInPhase n 0 ds pds)
    (hp : ∀ d pd, InPhase n d pd → (p pd = true ↔ d ∣ k)) (group : ℕ) :
    pds[group]?.any p = true ↔ group < pds.length ∧ ds group ∣ k := by
  by_cases hgroup : group < pds.length
  · have hphase := h group hgroup
    rw [Nat.zero_add] at hphase
    rw [List.getElem?_eq_getElem hgroup, Option.any_some, hp _ _ hphase]
    exact (and_iff_right hgroup).symm
  · rw [List.getElem?_eq_none (Nat.le_of_not_lt hgroup)]
    exact iff_of_false Bool.false_ne_true fun h => hgroup h.1

theorem ecGroupWillBeSent_iff (h : AllInPhase n 0 ds pds) (group : ℕ) :
    ecGroupWillBeSent pds group = true ↔ group < pds.length ∧ ds group ∣ n + 1 :=
  h.any_iff (fun _ _ hpd => beq_iff_eq.trans hpd.mod_eq_zero_iff) group

theorem ecGroupWasSent_iff (h : AllInPhase n 0 ds pds) (group : ℕ) :
    ecGroupWasSent pds group = true ↔ group < pds.length ∧ ds group ∣ n :=
  h.any_iff (fun _ _ hpd => beq_iff_eq.trans hpd.divisorCnt_eq_zero_iff) group

end

/-- **The group schedule.** The divisor is never zero; and as long as no send fails, a call sends
each group whose divisor divides its number, which the macros tell before it and after it. -/
theorem group_schedule {lecMaxGroups : ℕ} {pdGroupCnt : UInt32} {configs : List (UInt16 × Int32)}
    {pdGroups : List EcPdGroup} (h : configured lecMaxGroups pdGroupCnt configs = some pdGroups)
    (sends : ℕ → ℕ → ℤ) (n : ℕ) :
    (∀ pd ∈ before sends pdGroups n, pd.divisor ≠ 0) ∧
      ((∀ k ≤ n, (call sends pdGroups k).ret = EC_OK) →
        (call sends pdGroups n).executed =
            (List.range pdGroups.length).filter (divisorOf configs · ∣ n + 1) ∧
          ∀ group, (ecGroupWillBeSent (before sends pdGroups n) group = true ↔
              group ∈ (call sends pdGroups n).executed) ∧
            (ecGroupWasSent (call sends pdGroups n).pdGroups group = true ↔
              group ∈ (call sends pdGroups n).executed)) := by
  have hphase := configured_allInPhase h
  constructor
  · intro pd hpd
    have hmem := List.mem_map_of_mem (f := (·.divisor)) hpd
    rw [before_divisor] at hmem
    obtain ⟨pd', hpd', heq⟩ := List.mem_map.1 hmem
    obtain ⟨j, hj, rfl⟩ := List.getElem_of_mem hpd'
    exact heq ▸ (hphase j hj).divisor_ne_zero
  · intro hrets
    have hready := before_allInPhase hphase fun k hk => hrets k (Nat.le_of_lt hk)
    have hafter : AllInPhase (n + 1) 0 (divisorOf configs) (before sends pdGroups (n + 1)) :=
      before_allInPhase hphase fun k hk => hrets k (Nat.le_of_lt_succ hk)
    have hexecuted := (sendFrom_allInPhase hready (hrets n le_rfl)).1
    rw [length_before, ← List.range_eq_range'] at hexecuted
    have hmem : ∀ group, group ∈ (call sends pdGroups n).executed ↔
        group < pdGroups.length ∧ divisorOf configs group ∣ n + 1 := by
      intro group
      rw [call, ecSendProcessData, hexecuted, List.mem_filter, List.mem_range, decide_eq_true_iff]
    refine ⟨hexecuted, fun group => ⟨?_, ?_⟩⟩
    · rw [ecGroupWillBeSent_iff hready, hmem, length_before]
    · have hlength : (before sends pdGroups (n + 1)).length = pdGroups.length := length_before
      rw [hmem, ← hlength]
      exact ecGroupWasSent_iff hafter group

/-- Every third and every single call: -1 is no divisor. -/
theorem group_schedule_third :
    (call (fun _ _ => EC_OK) [⟨3, 0⟩, ⟨1, 0⟩] 2).executed =
      (List.range 2).filter (divisorOf [(0, 3), (1, -1)] · ∣ 2 + 1) := by
  have hgroups : configured 8 2 [(0, 3), (1, -1)] = some [⟨3, 0⟩, ⟨1, 0⟩] := by decide
  exact ((group_schedule hgroups (fun _ _ => EC_OK) 2).2 (by decide)).1

example : (List.range 6).map (fun n => (call (fun _ _ => EC_OK) [⟨3, 0⟩, ⟨2, 0⟩] n).executed) =
    [[], [1], [0], [1], [], [0, 1]] := by decide

end LibEthercat.Schedule
