import LibEthercat.Mapping.Groups

/-!
# Mapping a group again

`ec_set_state` maps the groups on every way to SAFEOP. Neither mapping function sets the lengths
of a slave's process data to zero first, so every run adds the mapped bytes once more.

* `setState_remapped` — what a mapping adds to the lengths of every slave.
* `setState_idem` — a group in which nothing gets mapped is a fixed point after the first run.
* `remap_iff` — these are the only groups that are mapped the same way again.
-/

namespace LibEthercat

/-! ## What a run adds -/

/-- The lengths of a slave of the group grow by the bytes that are mapped. -/
structure Remapped (group : ℕ) (slv slv' : EcSlave) : Prop where
  config : slv.SameConfig slv'
  len : ∀ d, (slv'.side d).len =
    (slv.side d).len + if slv.inGroup group then winLen d slv.mapped else 0

theorem SlaveMapped.remapped {slv slv' : EcSlave} {ptr log : Bool → ℕ}
    (h : SlaveMapped slv ptr log slv') {group : ℕ} (hg : slv.inGroup group = true) :
    Remapped group slv slv' where
  config := h.config
  len d := by rw [h.len, if_pos hg]

theorem Remapped.skip {group : ℕ} {slv : EcSlave} (hg : slv.inGroup group = false) :
    Remapped group slv slv where
  config := EcSlave.SameConfig.refl slv
  len d := by simp [hg]

/-- **Every run of the mapping adds the mapped bytes** to what the slaves have. -/
theorem setState_remapped (group : ℕ) (pd : EcPdGroup) (slaves : List EcSlave) :
    List.Forall₂ (Remapped group) slaves (ecSetStateMapping group pd slaves).2 := by
  rw [ecSetStateMapping]
  split_ifs
  · exact Loop.threadIf_forall₂ (fun _ => Remapped.skip)
      (fun c slv => (Overlapping.mapSlave_slaveMapped _ c slv).remapped) _ _
  · exact Loop.threadIf_forall₂ (fun _ => Remapped.skip)
      (fun c slv => (Separate.mapSlave_slaveMapped _ c slv).remapped) _ _

/-- A slave has mapped bytes in one of the directions unless it has nothing mapped. -/
theorem mapped_eq_nil_of_winLen {slv : EcSlave} (h : ∀ d, winLen d slv.mapped = 0) :
    slv.mapped = [] := by
  cases hm : slv.mapped with
  | nil => rfl
  | cons w ws =>
    have hmem : w ∈ place (fun _ => 0) slv.pdSm :=
      List.mem_of_mem_take (hm ▸ List.mem_cons_self : w ∈ slv.mapped)
    have hpos := place_len_pos _ _ w hmem
    have hzero := h w.isOutput
    rw [hm, winLen_cons, if_pos rfl] at hzero
    omega

/-! ## A slave without mapped process data -/

section

variable {ω : Type} (m : SmLoop ω)

/-- Sync managers that are empty, or come when no FMMU is left, do not change the slave. -/
theorem foldl_mapSm_unmapped {l : SmLocals ω} {slv : EcSlave} {sms : List EcSlaveSm}
    (h : (∀ sm ∈ sms, sm.isEmpty = true) ∨ slv.fmmu.length ≤ l.fmmuNext) :
    (sms.foldl (mapSm m) (l, slv)).2 = slv := by
  induction sms generalizing l with
  | nil => rfl
  | cons sm sms ih =>
    rw [List.foldl_cons]
    cases he : sm.isEmpty with
    | true =>
      rw [mapSm_empty he]
      exact ih (h.imp_left fun h' x hx => h' x (List.mem_cons_of_mem sm hx))
    | false =>
      have hfull : slv.fmmu.length ≤ l.fmmuNext := h.resolve_left fun h' => by
        rw [h' sm List.mem_cons_self] at he
        cases he
      have hst := mapSm_step (m := m) he l slv
      have hslv : (mapSm m (l, slv) sm).2 = slv := by
        simp only [mapSm, he, mapOutputSm, mapInputSm, Nat.not_lt.2 hfull, if_false]
        split_ifs <;> rfl
      rw [← Prod.eta (mapSm m (l, slv) sm), hslv]
      exact ih (Or.inr (by rw [hst.fmmuNext]; omega))

theorem mapSms_unmapped {l : SmLocals ω} {slv : EcSlave} (hl : l.fmmuNext = 0)
    (h : slv.mapped = []) : (mapSms m l slv).2 = slv := by
  refine foldl_mapSm_unmapped m ?_
  rw [hl]
  rcases List.take_eq_nil_iff.1 h with h0 | hplace
  · exact Or.inr h0.le
  · have hcount := place_length (fun _ => 0) slv.pdSm
    rw [hplace] at hcount
    exact Or.inl fun sm hsm => by simpa using List.countP_eq_zero.1 hcount.symm sm hsm

end

theorem mapMbxState_idem (logMbxState bitlen fmmuNext : ℕ) (slv : EcSlave) :
    mapMbxState logMbxState bitlen fmmuNext (mapMbxState logMbxState bitlen fmmuNext slv).2 =
      mapMbxState logMbxState bitlen fmmuNext slv := by
  by_cases h1 : slv.mbxSupported = 0
  · simp [mapMbxState, h1]
  · by_cases h2 : fmmuNext < slv.fmmu.length
    · simp [mapMbxState, h1, h2, List.modify_modify_eq, Function.comp_def,
        EcSlaveFmmu.mapMbxState]
    · simp [mapMbxState, h1, h2]

/-- A second pass over a slave with nothing mapped does what the first did. -/
theorem Overlapping.mapSlave_idem (logMbxState : ℕ) (c : Overlapping.Locals) {slv : EcSlave}
    (h : slv.mapped = []) :
    mapSlave logMbxState c (mapSlave logMbxState c slv).2 = mapSlave logMbxState c slv := by
  have hconfig := mapSlave_config logMbxState c slv
  have hlocals := mapSms_locals_congr (smLoop c) (smLocals c) slv hconfig
  have h1 : (mapSms (smLoop c) (smLocals c) slv).2 = slv := mapSms_unmapped _ rfl h
  have h2 : (mapSms (smLoop c) (smLocals c) (mapSlave logMbxState c slv).2).2 =
      (mapSlave logMbxState c slv).2 := mapSms_unmapped _ rfl (hconfig.mapped.trans h)
  have hmbx := mapMbxState_idem logMbxState c.mbxStateBitlen
    (mapSms (smLoop c) (smLocals c) slv).1.fmmuNext slv
  rw [mapSlave, h2, hlocals]
  simp only [mapSlave, h1, hmbx]

theorem Separate.mapSlave_idem (logMbxState : ℕ) (c : Separate.Locals) {slv : EcSlave}
    (h : slv.mapped = []) :
    mapSlave logMbxState c (mapSlave logMbxState c slv).2 = mapSlave logMbxState c slv := by
  have hconfig := mapSlave_config logMbxState c slv
  have hlocals := mapSms_locals_congr smLoop (smLocals c) slv hconfig
  have h1 : (mapSms smLoop (smLocals c) slv).2 = slv := mapSms_unmapped _ rfl h
  have h2 : (mapSms smLoop (smLocals c) (mapSlave logMbxState c slv).2).2 =
      (mapSlave logMbxState c slv).2 := mapSms_unmapped _ rfl (hconfig.mapped.trans h)
  have hmbx := mapMbxState_idem logMbxState c.mbxStateBitlen
    (mapSms smLoop (smLocals c) slv).1.fmmuNext slv
  rw [mapSlave, h2, hlocals]
  simp only [mapSlave, h1, hmbx]

/-! ## A group without mapped process data -/

/-- No slave of the group has a sync manager with process data and an FMMU for it. -/
def NothingMapped (group : ℕ) (slaves : List EcSlave) : Prop :=
  ∀ slv ∈ slaves, slv.inGroup group = true → slv.mapped = []

namespace Overlapping

/-- The group and the slaves after the loop. -/
def finish (pd : EcPdGroup) (len : ℕ) (r : Locals × List EcSlave) : EcPdGroup × List EcSlave :=
  ({ pd with
     pdoutLen := len
     pdinLen := len
     pdLrwLen := len
     logLen := max len len
     wkcExpectedLrw := r.1.wkcExpectedLrw
     wkcExpectedMbxState := r.1.wkcExpectedMbxState
     logMbxStateLen := (r.1.mbxStateBitlen + 7) / 8 }, r.2)

theorem mapping_eq (group : ℕ) (pd : EcPdGroup) (slaves : List EcSlave) :
    ecCreateLogicalMappingOverlapping group pd slaves = finish pd (groupLen group slaves)
      (Loop.threadIf (EcSlave.inGroup group) (mapSlave pd.logMbxState) (start group pd slaves)
        slaves) := rfl

theorem mapping_idem {group : ℕ} {slaves : List EcSlave} (h : NothingMapped group slaves)
    (pd : EcPdGroup) :
    ecCreateLogicalMappingOverlapping group
        (ecCreateLogicalMappingOverlapping group pd slaves).1
        (ecCreateLogicalMappingOverlapping group pd slaves).2 =
      ecCreateLogicalMappingOverlapping group pd slaves := by
  have hlen := groupLen_congr group (overlapping_groupMapping.config group pd slaves)
  have hloop := Loop.threadIf_idem (fun c slv => mapSlave_inGroup pd.logMbxState c slv group)
    (fun c slv hs hg => mapSlave_idem pd.logMbxState c (h slv hs hg)) (start group pd slaves)
  have hstart : start group (ecCreateLogicalMappingOverlapping group pd slaves).1
      (ecCreateLogicalMappingOverlapping group pd slaves).2 = start group pd slaves := by
    simp only [start, hlen]
    rfl
  rw [mapping_eq, hlen, hstart]
  exact congrArg (finish pd (groupLen group slaves)) hloop

end Overlapping

namespace Separate

/-- The group and the slaves after the loop. -/
def finish (pd : EcPdGroup) (pdoutLen pdinLen : ℕ) (r : Locals × List EcSlave) :
    EcPdGroup × List EcSlave :=
  ({ pd with
     pdoutLen := pdoutLen
     pdinLen := pdinLen
     logLen := pdoutLen + pdinLen
     wkcExpectedLrd := r.1.wkcExpectedLrd
     wkcExpectedLwr := r.1.wkcExpectedLwr
     wkcExpectedLrw := r.1.wkcExpectedLrw
     wkcExpectedMbxState := r.1.wkcExpectedMbxState
     logMbxStateLen := (r.1.mbxStateBitlen + 7) / 8 }, r.2)

theorem mapping_eq (group : ℕ) (pd : EcPdGroup) (slaves : List EcSlave) :
    ecCreateLogicalMapping group pd slaves =
      finish pd (groupOutLen group slaves) (groupInLen group slaves)
        (Loop.threadIf (EcSlave.inGroup group) (mapSlave pd.logMbxState) (start group pd slaves)
          slaves) := rfl

/-- A slave with nothing mapped does not count. -/
theorem mapSlave_lwr (logMbxState : ℕ) (c : Locals) {slv : EcSlave} (h : slv.mapped = []) :
    (mapSlave logMbxState c slv).1.wkcExpectedLwr = c.wkcExpectedLwr := by
  have hwkc := (mapSms_mapped smLoop (smLocals c) slv).wkc
  have htake : (place (smLocals c).log slv.pdSm).take (slv.fmmu.length - (smLocals c).fmmuNext) =
      slv.mapped.map (shiftWindow (smLocals c).log) := take_place _ slv
  rw [htake, h] at hwkc
  have hzero : (mapSms smLoop (smLocals c) slv).1.wkc.lwr = 0 := by
    rw [hwkc]
    rfl
  exact congrArg (c.wkcExpectedLwr + ·) hzero

theorem mapping_idem {group : ℕ} {slaves : List EcSlave} (h : NothingMapped group slaves)
    (pd : EcPdGroup) :
    ecCreateLogicalMapping group (ecCreateLogicalMapping group pd slaves).1
        (ecCreateLogicalMapping group pd slaves).2 =
      ecCreateLogicalMapping group pd slaves := by
  have hout := groupOutLen_congr group (separate_groupMapping.config group pd slaves)
  have hin := groupInLen_congr group (separate_groupMapping.config group pd slaves)
  have hloop := Loop.threadIf_idem (fun c slv => mapSlave_inGroup pd.logMbxState c slv group)
    (fun c slv hs hg => mapSlave_idem pd.logMbxState c (h slv hs hg)) (start group pd slaves)
  -- `wkc_expected_lwr` starts from what the first run has left, which is what it started from
  have hlwr : (ecCreateLogicalMapping group pd slaves).1.wkcExpectedLwr = pd.wkcExpectedLwr :=
    Loop.threadIf_pos_eq Locals.wkcExpectedLwr
      (fun c slv hs hg => mapSlave_lwr pd.logMbxState c (h slv hs hg)) (start group pd slaves)
  have hstart : start group (ecCreateLogicalMapping group pd slaves).1
      (ecCreateLogicalMapping group pd slaves).2 = start group pd slaves := by
    simp only [start, hout, hlwr]
    rfl
  rw [mapping_eq, hout, hin, hstart]
  exact congrArg (finish pd (groupOutLen group slaves) (groupInLen group slaves)) hloop

end Separate

theorem chooseMode_congr (group : ℕ) (pd : EcPdGroup) {slaves slaves' : List EcSlave}
    (h : List.Forall₂ EcSlave.SameConfig slaves slaves') :
    pd.chooseMode group slaves' = pd.chooseMode group slaves := by
  have hany : (slaves'.any fun slv => slv.inGroup group &&
      (slv.features &&& ecRegEscsupNotSuppLrw == ecRegEscsupNotSuppLrw)) =
      slaves.any fun slv => slv.inGroup group &&
        (slv.features &&& ecRegEscsupNotSuppLrw == ecRegEscsupNotSuppLrw) := by
    induction h with
    | nil => rfl
    | cons hslv _ ih => simp only [List.any_cons, hslv.inGroup, hslv.features, ih]
  rw [EcPdGroup.chooseMode, hany]
  rfl

/-- The modes once chosen are chosen again. -/
theorem chooseMode_eq_self {group : ℕ} {pd pd' : EcPdGroup} {slaves : List EcSlave}
    (hlrw : pd'.useLrw = (pd.chooseMode group slaves).useLrw)
    (hover : pd'.overlapping = (pd.chooseMode group slaves).overlapping) :
    pd'.chooseMode group slaves = pd' := by
  have hlrw' : (pd'.chooseMode group slaves).useLrw = pd'.useLrw := by
    simp only [EcPdGroup.chooseMode] at hlrw ⊢
    split_ifs at hlrw ⊢ with hany
    · exact hlrw.symm
    · rfl
  have hover' : (pd'.chooseMode group slaves).overlapping = pd'.overlapping := by
    simp only [EcPdGroup.chooseMode] at hlrw hover ⊢
    split_ifs at hlrw hover ⊢ <;> simp_all
  calc pd'.chooseMode group slaves
      = { pd' with useLrw := (pd'.chooseMode group slaves).useLrw,
                   overlapping := (pd'.chooseMode group slaves).overlapping } := rfl
    _ = pd' := by rw [hlrw', hover']

/-- **A group in which nothing gets mapped** stays as the first mapping leaves it. -/
theorem setState_idem {group : ℕ} {slaves : List EcSlave} (h : NothingMapped group slaves)
    (pd : EcPdGroup) :
    ecSetStateMapping group (ecSetStateMapping group pd slaves).1
        (ecSetStateMapping group pd slaves).2 =
      ecSetStateMapping group pd slaves := by
  have hconfig := setState_groupMapping.config group pd slaves
  have hlrw : (ecSetStateMapping group pd slaves).1.useLrw =
      (pd.chooseMode group slaves).useLrw := by
    rw [ecSetStateMapping]
    split_ifs <;> rfl
  have hover : (ecSetStateMapping group pd slaves).1.overlapping =
      (pd.chooseMode group slaves).overlapping := by
    rw [ecSetStateMapping]
    split_ifs <;> rfl
  have hmode : (ecSetStateMapping group pd slaves).1.chooseMode group
      (ecSetStateMapping group pd slaves).2 = (ecSetStateMapping group pd slaves).1 := by
    rw [chooseMode_congr group _ hconfig]
    exact chooseMode_eq_self hlrw hover
  rw [ecSetStateMapping, hmode, hover, ecSetStateMapping]
  split_ifs
  · exact Overlapping.mapping_idem h (pd.chooseMode group slaves)
  · exact Separate.mapping_idem h (pd.chooseMode group slaves)

/-! ## Running the mapping again -/

/-- What the mapping of a group settles. -/
structure MappingResult where
  slaves : List (List EcSlaveFmmu × EcPd × EcPd)
  logLen : ℕ
  pdoutLen : ℕ
  pdinLen : ℕ
  pdLrwLen : ℕ
  logMbxStateLen : ℕ
  wkcExpectedLrw : ℕ
  wkcExpectedLrd : ℕ
  wkcExpectedLwr : ℕ
  wkcExpectedMbxState : ℕ
  deriving DecidableEq

def EcPdGroup.result (pd : EcPdGroup) (slaves : List EcSlave) : MappingResult where
  slaves := slaves.map fun slv => (slv.fmmu, slv.pdin, slv.pdout)
  logLen := pd.logLen
  pdoutLen := pd.pdoutLen
  pdinLen := pd.pdinLen
  pdLrwLen := pd.pdLrwLen
  logMbxStateLen := pd.logMbxStateLen
  wkcExpectedLrw := pd.wkcExpectedLrw
  wkcExpectedLrd := pd.wkcExpectedLrd
  wkcExpectedLwr := pd.wkcExpectedLwr
  wkcExpectedMbxState := pd.wkcExpectedMbxState

/-- The state of a group after `n` ways to SAFEOP. -/
def remap (group n : ℕ) (pd : EcPdGroup) (slaves : List EcSlave) : EcPdGroup × List EcSlave :=
  (fun s => ecSetStateMapping group s.1 s.2)^[n] (pd, slaves)

theorem remap_succ (group n : ℕ) (pd : EcPdGroup) (slaves : List EcSlave) :
    remap group (n + 1) pd slaves =
      ecSetStateMapping group (remap group n pd slaves).1 (remap group n pd slaves).2 :=
  Function.iterate_succ_apply' _ n _

/-- A second run that leaves all lengths alone has had nothing to map. -/
theorem nothingMapped_of_remapped {group : ℕ} {slaves slaves' : List EcSlave}
    (h : List.Forall₂ (Remapped group) slaves slaves')
    (heq : (slaves'.map fun slv => (slv.fmmu, slv.pdin, slv.pdout)) =
      slaves.map fun slv => (slv.fmmu, slv.pdin, slv.pdout)) : NothingMapped group slaves := by
  induction h with
  | nil => exact fun _ hs => absurd hs List.not_mem_nil
  | @cons slv slv' _ _ hslv _ ih =>
    simp only [List.map_cons, List.cons.injEq, Prod.mk.injEq] at heq
    obtain ⟨⟨-, hin, hout⟩, hrest⟩ := heq
    intro x hx hg
    rcases List.mem_cons.1 hx with rfl | hx
    · refine mapped_eq_nil_of_winLen fun d => ?_
      have hlen := hslv.len d
      have hside : slv'.side d = x.side d := by cases d <;> assumption
      rw [hside, if_pos hg] at hlen
      omega
    · exact ih hrest x hx hg

theorem NothingMapped.congr {group : ℕ} {slaves slaves' : List EcSlave}
    (h : List.Forall₂ EcSlave.SameConfig slaves slaves') (h' : NothingMapped group slaves') :
    NothingMapped group slaves := by
  induction h with
  | nil => exact fun _ hs => absurd hs List.not_mem_nil
  | @cons slv slv' _ _ hslv _ ih =>
    intro x hx hg
    rcases List.mem_cons.1 hx with rfl | hx
    · rw [← hslv.mapped]
      exact h' slv' List.mem_cons_self (by rwa [hslv.inGroup])
    · exact ih (fun y hy => h' y (List.mem_cons_of_mem slv' hy)) x hx hg

/-- **Which groups are mapped the same way again**: those in which nothing is mapped. -/
theorem remap_iff (group : ℕ) (pd : EcPdGroup) (slaves : List EcSlave) :
    (∀ n, (remap group (n + 1) pd slaves).1.result (remap group (n + 1) pd slaves).2 =
        (remap group 1 pd slaves).1.result (remap group 1 pd slaves).2) ↔
      NothingMapped group slaves := by
  constructor
  · intro h
    have hslaves := congrArg MappingResult.slaves (h 1)
    have hsecond := setState_remapped group (remap group 1 pd slaves).1 (remap group 1 pd slaves).2
    rw [← remap_succ] at hsecond
    have hfirst : List.Forall₂ EcSlave.SameConfig slaves (remap group 1 pd slaves).2 :=
      setState_groupMapping.config group pd slaves
    exact (nothingMapped_of_remapped hsecond hslaves).congr hfirst
  · intro h n
    have hfix : ∀ n, remap group (n + 1) pd slaves = remap group 1 pd slaves := by
      intro n
      induction n with
      | zero => rfl
      | succ n ih =>
        rw [remap_succ, ih]
        exact setState_idem h pd
    rw [hfix]

/-- One slave with four bytes of outputs: after the second run its outputs are eight bytes. -/
theorem remap_differs_one_output :
    (remap 0 2 (EcPdGroup.zero.create 0) [.scanned 0 0 [⟨0x1000, 4, 4⟩] 1]).1.result
        (remap 0 2 (EcPdGroup.zero.create 0) [.scanned 0 0 [⟨0x1000, 4, 4⟩] 1]).2 ≠
      (remap 0 1 (EcPdGroup.zero.create 0) [.scanned 0 0 [⟨0x1000, 4, 4⟩] 1]).1.result
        (remap 0 1 (EcPdGroup.zero.create 0) [.scanned 0 0 [⟨0x1000, 4, 4⟩] 1]).2 := by
  decide

end LibEthercat
