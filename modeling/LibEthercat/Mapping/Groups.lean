import LibEthercat.Mapping.Overlapping
import LibEthercat.Mapping.Separate

/-!
# The groups of the master

Mapping one group leaves the slaves of the others alone, and the windows of a group lie at the
logical address `ec_create_pd_groups` gave it. So the groups keep out of each other's way, in
whatever order and how often they are mapped.

* `GroupMapping` — what both mapping functions, and the choice `ec_set_state` makes between
  them, have in common.
* `GroupMapping.mapped_foldl` — the windows of every group mapped so far, after any run of mappings.
* `setStateMapping_disjoint` — the windows of two groups do not meet.
-/

namespace LibEthercat

/-! ## What a mapping function leaves alone -/

/-- The bytes of all sync managers of a group. -/
def groupBytes (group : ℕ) (slaves : List EcSlave) : ℕ :=
  Separate.groupOutLen group slaves + Separate.groupInLen group slaves

/-- A function that maps a group: it writes to the slaves of this group only, and only what is
not configuration. -/
structure GroupMapping (f : ℕ → EcPdGroup → List EcSlave → EcPdGroup × List EcSlave) : Prop where
  log : ∀ group pd slaves, (f group pd slaves).1.log = pd.log
  config : ∀ group pd slaves, List.Forall₂ EcSlave.SameConfig slaves (f group pd slaves).2
  others : ∀ group group' pd slaves, group' ≠ group →
    (f group pd slaves).2.filter (EcSlave.inGroup group') =
      slaves.filter (EcSlave.inGroup group')
  inside : ∀ group pd slaves, ∀ slv ∈ (f group pd slaves).2.filter (EcSlave.inGroup group),
    ∀ w ∈ slv.pdWindows, w.region ⊆ Set.Ico pd.log (pd.log + groupBytes group slaves)

theorem inGroup_unique {group group' : ℕ} (hne : group' ≠ group) {slv : EcSlave}
    (h : slv.inGroup group' = true) : slv.inGroup group = false := by
  simp only [EcSlave.inGroup, beq_iff_eq, beq_eq_false_iff_ne] at h ⊢
  omega

/-- A guarded loop over the slaves of one group leaves those of another group alone. -/
theorem threadIf_others {σ : Type} {f : σ → EcSlave → σ × EcSlave}
    (hf : ∀ c (slv : EcSlave), slv.SameConfig (f c slv).2) {group group' : ℕ} (hne : group' ≠ group) (c : σ)
    (slaves : List EcSlave) :
    (Loop.threadIf (EcSlave.inGroup group) f c slaves).2.filter (EcSlave.inGroup group') =
      slaves.filter (EcSlave.inGroup group') := by
  have hsub : ∀ as : List EcSlave, as.filter (EcSlave.inGroup group') =
      (as.filter fun slv => !slv.inGroup group).filter (EcSlave.inGroup group') := by
    intro as
    rw [List.filter_filter]
    refine List.filter_congr fun slv _ => ?_
    cases h : slv.inGroup group' with
    | false => rfl
    | true => simp [inGroup_unique hne h]
  rw [hsub, Loop.threadIf_frame (fun c slv h => by rwa [(hf c slv).inGroup]), ← hsub]

theorem overlapping_le_groupBytes (group : ℕ) (slaves : List EcSlave) :
    Overlapping.groupLen group slaves ≤ groupBytes group slaves := by
  rw [Overlapping.groupLen, groupBytes, Separate.groupOutLen, Separate.groupInLen]
  induction slaves.filter (EcSlave.inGroup group) with
  | nil => exact le_rfl
  | cons slv slvs ih =>
    simp only [List.map_cons, List.sum_cons, Overlapping.slaveLen]
    omega

theorem overlapping_groupMapping : GroupMapping ecCreateLogicalMappingOverlapping where
  log _ _ _ := rfl
  config _ pd _ := Loop.threadIf_forall₂ (fun slv _ => .refl slv)
    (fun c slv _ => Overlapping.mapSlave_config pd.logMbxState c slv) _ _
  others _ _ pd _ hne := threadIf_others (Overlapping.mapSlave_config pd.logMbxState) hne _ _
  inside group pd slaves slv hs w hw :=
    (Overlapping.pdWindows_inside group pd slaves slv hs w hw).trans
      (Set.Ico_subset_Ico_right
        (Nat.add_le_add_left (overlapping_le_groupBytes group slaves) pd.log))

theorem separate_groupMapping : GroupMapping ecCreateLogicalMapping where
  log _ _ _ := rfl
  config _ pd _ := Loop.threadIf_forall₂ (fun slv _ => .refl slv)
    (fun c slv _ => Separate.mapSlave_config pd.logMbxState c slv) _ _
  others _ _ pd _ hne := threadIf_others (Separate.mapSlave_config pd.logMbxState) hne _ _
  inside group pd slaves slv hs w hw := by
    have hmem := mem_flatMap_dirWindows hs hw
    cases ho : w.isOutput with
    | true =>
      rw [ho] at hmem
      refine ((Separate.outputs_packed group pd slaves).region_subset w hmem).trans ?_
      exact Set.Ico_subset_Ico_right (by rw [groupBytes]; omega)
    | false =>
      rw [ho] at hmem
      refine ((Separate.inputs_packed group pd slaves).region_subset w hmem).trans ?_
      exact Set.Ico_subset_Ico_left (Nat.le_add_right _ _)

/-- The mapping in `ec_set_state` is one of the two. -/
theorem setState_groupMapping : GroupMapping ecSetStateMapping where
  log group pd slaves := by
    rw [ecSetStateMapping]
    split_ifs <;> rfl
  config group pd slaves := by
    rw [ecSetStateMapping]
    split_ifs
    · exact overlapping_groupMapping.config group _ slaves
    · exact separate_groupMapping.config group _ slaves
  others group group' pd slaves hne := by
    rw [ecSetStateMapping]
    split_ifs
    · exact overlapping_groupMapping.others group group' _ slaves hne
    · exact separate_groupMapping.others group group' _ slaves hne
  inside group pd slaves := by
    rw [ecSetStateMapping]
    split_ifs
    · exact overlapping_groupMapping.inside group _ slaves
    · exact separate_groupMapping.inside group _ slaves

/-! ## Runs of mappings -/

/-- The addresses of all process data FMMUs of a group. -/
def Ec.groupRegion (group : ℕ) (pec : Ec) : Set ℕ :=
  Window.regions ((pec.slaves.filter (EcSlave.inGroup group)).flatMap EcSlave.pdWindows)

/-- A sum over the slaves of a group does not change when only their mapping does. -/
theorem sum_inGroup_congr (group : ℕ) {len : EcSlave → ℕ}
    (hlen : ∀ slv slv', slv.SameConfig slv' → len slv' = len slv) {slaves slaves' : List EcSlave}
    (h : List.Forall₂ EcSlave.SameConfig slaves slaves') :
    ((slaves'.filter (EcSlave.inGroup group)).map len).sum =
      ((slaves.filter (EcSlave.inGroup group)).map len).sum := by
  induction h with
  | nil => rfl
  | @cons slv slv' _ _ hslv _ ih =>
    cases hg : slv.inGroup group with
    | true =>
      simp only [List.filter_cons, hslv.inGroup, hg, if_true, List.map_cons, List.sum_cons,
        hlen slv slv' hslv, ih]
    | false => simpa [List.filter_cons, hslv.inGroup, hg] using ih

theorem groupOutLen_congr (group : ℕ) {slaves slaves' : List EcSlave}
    (h : List.Forall₂ EcSlave.SameConfig slaves slaves') :
    Separate.groupOutLen group slaves' = Separate.groupOutLen group slaves :=
  sum_inGroup_congr group (fun _ _ h => by rw [h.pdSm]) h

theorem groupInLen_congr (group : ℕ) {slaves slaves' : List EcSlave}
    (h : List.Forall₂ EcSlave.SameConfig slaves slaves') :
    Separate.groupInLen group slaves' = Separate.groupInLen group slaves :=
  sum_inGroup_congr group (fun _ _ h => by rw [h.pdSm]) h

theorem groupLen_congr (group : ℕ) {slaves slaves' : List EcSlave}
    (h : List.Forall₂ EcSlave.SameConfig slaves slaves') :
    Overlapping.groupLen group slaves' = Overlapping.groupLen group slaves :=
  sum_inGroup_congr group
    (fun _ _ h => by rw [Overlapping.slaveLen, Overlapping.slaveLen, h.pdSm]) h

theorem groupBytes_congr (group : ℕ) {slaves slaves' : List EcSlave}
    (h : List.Forall₂ EcSlave.SameConfig slaves slaves') :
    groupBytes group slaves' = groupBytes group slaves := by
  rw [groupBytes, groupBytes, groupOutLen_congr group h, groupInLen_congr group h]

/-- The state after some groups of `pec₀` have been mapped. -/
structure Mapped (pec₀ : Ec) (done : Set ℕ) (pec : Ec) : Prop where
  config : List.Forall₂ EcSlave.SameConfig pec₀.slaves pec.slaves
  log : pec.pdGroups.map EcPdGroup.log = pec₀.pdGroups.map EcPdGroup.log
  inside : ∀ group ∈ done, ∀ pd, pec₀.pdGroups[group]? = some pd →
    pec.groupRegion group ⊆ Set.Ico pd.log (pd.log + groupBytes group pec₀.slaves)

theorem Mapped.init (pec₀ : Ec) : Mapped pec₀ ∅ pec₀ where
  config := List.forall₂_same.2 fun slv _ => EcSlave.SameConfig.refl slv
  log := rfl
  inside := fun _ h => absurd h (Set.notMem_empty _)

theorem forall₂_trans {slaves slaves' slaves'' : List EcSlave}
    (h : List.Forall₂ EcSlave.SameConfig slaves slaves')
    (h' : List.Forall₂ EcSlave.SameConfig slaves' slaves'') :
    List.Forall₂ EcSlave.SameConfig slaves slaves'' := by
  induction h generalizing slaves'' with
  | nil => exact h'
  | cons hslv _ ih =>
    obtain ⟨slv, slvs, hslv', hslvs, rfl⟩ := List.forall₂_cons_left_iff.1 h'
    exact .cons (hslv.trans hslv') (ih hslvs)

theorem list_set_self {α : Type*} {as : List α} {i : ℕ} {a : α} (h : as[i]? = some a) :
    as.set i a = as := by
  obtain ⟨hi, rfl⟩ := List.getElem?_eq_some_iff.1 h
  exact List.set_getElem_self hi

section Runs

variable {f : ℕ → EcPdGroup → List EcSlave → EcPdGroup × List EcSlave} {pec₀ pec : Ec}
  {done : Set ℕ}

/-- Mapping one more group. -/
theorem GroupMapping.mapped_onGroup (hf : GroupMapping f) (h : Mapped pec₀ done pec)
    (group : ℕ) : Mapped pec₀ (insert group done) (Ec.onGroup f pec group) := by
  have hlog : ∀ g : ℕ, (pec.pdGroups[g]?).map EcPdGroup.log =
      (pec₀.pdGroups[g]?).map EcPdGroup.log := fun g => by
    rw [← List.getElem?_map, ← List.getElem?_map, h.log]
  cases hpd : pec.pdGroups[group]? with
  | none =>
    have hpd₀ : pec₀.pdGroups[group]? = none := by
      have := hlog group
      rw [hpd] at this
      exact Option.map_eq_none_iff.1 this.symm
    rw [Ec.onGroup, hpd]
    refine { config := h.config, log := h.log, inside := fun g hg pd hpd' => ?_ }
    rcases Set.mem_insert_iff.1 hg with rfl | hg
    · rw [hpd₀] at hpd'
      cases hpd'
    · exact h.inside g hg pd hpd'
  | some pd =>
    have hon : Ec.onGroup f pec group =
        { slaves := (f group pd pec.slaves).2,
          pdGroups := pec.pdGroups.set group (f group pd pec.slaves).1 } := by
      rw [Ec.onGroup, hpd]
    rw [hon]
    refine { config := ?_, log := ?_, inside := fun g hg pd' hpd' => ?_ }
    · exact forall₂_trans h.config (hf.config group pd pec.slaves)
    · have hself : (pec.pdGroups.map EcPdGroup.log)[group]? = some pd.log := by
        rw [List.getElem?_map, hpd]
        rfl
      rw [List.map_set, hf.log, ← h.log]
      exact list_set_self hself
    · by_cases hgg : g = group
      · subst hgg
        have hpdlog : pd.log = pd'.log := by
          have := hlog g
          rw [hpd, hpd'] at this
          exact Option.some.inj this
        rw [← hpdlog, ← groupBytes_congr g h.config, Ec.groupRegion, Window.regions_subset_iff]
        intro w hw
        obtain ⟨slv, hslv, hw⟩ := List.mem_flatMap.1 hw
        exact hf.inside g pd pec.slaves slv hslv w hw
      · have hmem := Set.mem_of_mem_insert_of_ne hg hgg
        rw [Ec.groupRegion, hf.others group g pd pec.slaves hgg]
        exact h.inside g hmem pd' hpd'

/-- **Any run of mappings**: every group mapped in it keeps inside its window. -/
theorem GroupMapping.mapped_foldl (hf : GroupMapping f) (h : Mapped pec₀ done pec)
    (groups : List ℕ) :
    Mapped pec₀ (done ∪ {g | g ∈ groups}) (groups.foldl (Ec.onGroup f) pec) := by
  induction groups generalizing done pec with
  | nil => simpa using h
  | cons g gs ih =>
    have hset : done ∪ {x | x ∈ g :: gs} = insert g done ∪ {x | x ∈ gs} := by
      ext x
      simp only [Set.mem_union, Set.mem_ofPred_eq, List.mem_cons, Set.mem_insert_iff]
      tauto
    rw [hset]
    exact ih (hf.mapped_onGroup h g)

end Runs

/-! ## Windows of different groups -/

theorem ecCreatePdGroups_log {pec : Ec} {arr : List EcPdGroup} {pdGroupCnt group : ℕ}
    {pd : EcPdGroup} (h : (ecCreatePdGroups pec arr pdGroupCnt).pdGroups[group]? = some pd) :
    pd.log = 0x10000 * (group + 1) := by
  rw [ecCreatePdGroups, List.getElem?_mapIdx] at h
  obtain ⟨pd', -, rfl⟩ := Option.map_eq_some_iff.1 h
  rfl

/-- **The windows of two groups do not meet**, whatever mapping function is used, in whatever
order and how often, as long as no group has more process data than its buffer holds. -/
theorem GroupMapping.groupRegion_disjoint
    {f : ℕ → EcPdGroup → List EcSlave → EcPdGroup × List EcSlave} (hf : GroupMapping f) (pec : Ec)
    (arr : List EcPdGroup) (pdGroupCnt : ℕ)
    (htotal : ∀ group, groupBytes group pec.slaves ≤ lecMaxPdlen) {groups : List ℕ} {g g' : ℕ}
    (hg : g ∈ groups) (hg' : g' ∈ groups)
    (hcnt : g < (ecCreatePdGroups pec arr pdGroupCnt).pdGroups.length)
    (hcnt' : g' < (ecCreatePdGroups pec arr pdGroupCnt).pdGroups.length) (hne : g ≠ g') :
    Disjoint
      ((groups.foldl (Ec.onGroup f) (ecCreatePdGroups pec arr pdGroupCnt)).groupRegion g)
      ((groups.foldl (Ec.onGroup f) (ecCreatePdGroups pec arr pdGroupCnt)).groupRegion g') := by
  have hrun := hf.mapped_foldl (Mapped.init (ecCreatePdGroups pec arr pdGroupCnt)) groups
  have hin : ∀ x ∈ groups, x < (ecCreatePdGroups pec arr pdGroupCnt).pdGroups.length →
      (groups.foldl (Ec.onGroup f) (ecCreatePdGroups pec arr pdGroupCnt)).groupRegion x ⊆
        Set.Ico (0x10000 * (x + 1)) (0x10000 * (x + 1) + lecMaxPdlen) := by
    intro x hx hlt
    have hpd := List.getElem?_eq_getElem hlt
    have hsub := hrun.inside x (Or.inr hx) _ hpd
    rw [ecCreatePdGroups_log hpd] at hsub
    exact hsub.trans (Set.Ico_subset_Ico_right (Nat.add_le_add_left (htotal x) _))
  refine Set.disjoint_of_subset (hin g hg hcnt) (hin g' hg' hcnt') ?_
  rw [Set.disjoint_left]
  rintro a ⟨h1, h2⟩ ⟨h3, h4⟩
  simp only [lecMaxPdlen] at h2 h4
  omega

/-- The loop over the groups in `ec_set_state` keeps all groups apart. -/
theorem setStateMapping_disjoint (pec : Ec) (arr : List EcPdGroup) (pdGroupCnt : ℕ)
    (htotal : ∀ group, groupBytes group pec.slaves ≤ lecMaxPdlen) {g g' : ℕ}
    (hcnt : g < (ecCreatePdGroups pec arr pdGroupCnt).pdGroups.length)
    (hcnt' : g' < (ecCreatePdGroups pec arr pdGroupCnt).pdGroups.length) (hne : g ≠ g') :
    Disjoint ((ecCreatePdGroups pec arr pdGroupCnt).setStateMapping.groupRegion g)
      ((ecCreatePdGroups pec arr pdGroupCnt).setStateMapping.groupRegion g') :=
  setState_groupMapping.groupRegion_disjoint pec arr pdGroupCnt htotal (List.mem_range.2 hcnt)
    (List.mem_range.2 hcnt') hcnt hcnt' hne

/-- **The mapping without overlap is a partition**, of the window of each group into an output
and an input part, and of the logical address space into the windows of the groups. -/
theorem separate_partition (slaves : List EcSlave)
    (hlen : ∀ slv ∈ slaves, slv.pdout.len = 0 ∧ slv.pdin.len = 0)
    (htotal : ∀ group, Separate.groupOutLen group slaves + Separate.groupInLen group slaves ≤
      lecMaxPdlen) :
    (∀ group pd, Partitioned group (ecCreateLogicalMapping group pd slaves).1
      (ecCreateLogicalMapping group pd slaves).2) ∧
    ∀ (arr : List EcPdGroup) (pdGroupCnt : ℕ) (groups : List ℕ),
      ∀ g ∈ groups, ∀ g' ∈ groups,
        g < (ecCreatePdGroups ⟨slaves, []⟩ arr pdGroupCnt).pdGroups.length →
        g' < (ecCreatePdGroups ⟨slaves, []⟩ arr pdGroupCnt).pdGroups.length → g ≠ g' →
        Disjoint
          ((groups.foldl (Ec.onGroup ecCreateLogicalMapping)
            (ecCreatePdGroups ⟨slaves, []⟩ arr pdGroupCnt)).groupRegion g)
          ((groups.foldl (Ec.onGroup ecCreateLogicalMapping)
            (ecCreatePdGroups ⟨slaves, []⟩ arr pdGroupCnt)).groupRegion g') := by
  constructor
  · exact fun group pd => separate_partitioned group pd slaves fun slv hs _ => hlen slv hs
  · intro arr pdGroupCnt groups g hg g' hg' hcnt hcnt' hne
    exact separate_groupMapping.groupRegion_disjoint ⟨slaves, []⟩ arr pdGroupCnt htotal hg hg'
      hcnt hcnt' hne

/-- A slave with outputs and inputs in group 0 and one with inputs in group 1. -/
def slavesOfTwoGroups : List EcSlave :=
  [.scanned 0 0 [⟨0x1000, 4, 4⟩, ⟨0x1100, 6, 0⟩] 2, .scanned 1 0 [⟨0x1000, 2, 0⟩] 1]

theorem separate_partition_two_groups :
    Partitioned 0 (ecCreateLogicalMapping 0 (EcPdGroup.zero.create 0) slavesOfTwoGroups).1
        (ecCreateLogicalMapping 0 (EcPdGroup.zero.create 0) slavesOfTwoGroups).2 ∧
      Disjoint
        (([0, 1].foldl (Ec.onGroup ecCreateLogicalMapping)
          (ecCreatePdGroups ⟨slavesOfTwoGroups, []⟩ (List.replicate 8 .zero) 2)).groupRegion 0)
        (([0, 1].foldl (Ec.onGroup ecCreateLogicalMapping)
          (ecCreatePdGroups ⟨slavesOfTwoGroups, []⟩ (List.replicate 8 .zero) 2)).groupRegion 1) := by
  have htotal : ∀ group, Separate.groupOutLen group slavesOfTwoGroups +
      Separate.groupInLen group slavesOfTwoGroups ≤ lecMaxPdlen := by
    rintro (_ | _ | group)
    · decide
    · decide
    · have hnone : slavesOfTwoGroups.filter (EcSlave.inGroup (group + 2)) = [] := by
        simp [slavesOfTwoGroups, EcSlave.inGroup, EcSlave.scanned]
        omega
      simp [Separate.groupOutLen, Separate.groupInLen, hnone]
  have h := separate_partition slavesOfTwoGroups (by decide) htotal
  exact ⟨h.1 0 (EcPdGroup.zero.create 0), h.2 (List.replicate 8 .zero) 2 [0, 1] 0 (by decide) 1
    (by decide) (by decide) (by decide) (by decide)⟩

end LibEthercat
