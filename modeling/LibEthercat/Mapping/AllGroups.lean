import LibEthercat.Mapping.Exchange
import LibEthercat.Mapping.Remap

/-!
# All groups after `ec_set_state`

The loop over the groups maps one after the other. Each finds its slaves as they have been, and
leaves those of the others alone. So in the end every group is as if it were alone (`Alone`,
`setStateMapping_alone`), and the groups of a master that is configured well can all be exchanged
(`Configured.ready`).
-/

namespace LibEthercat

/-! ## The slaves of a group -/

section
variable {group : ℕ} {pd : EcPdGroup} {slaves slaves' : List EcSlave}

theorem Overlapping.mapping_filter (group : ℕ) (pd : EcPdGroup) (slaves : List EcSlave) :
    (ecCreateLogicalMappingOverlapping group pd slaves).1 =
      (finish pd (groupLen group slaves) (Loop.thread (mapSlave pd.logMbxState)
        (start group pd slaves) (slaves.filter (EcSlave.inGroup group)))).1 := by
  rw [mapping_eq, finish, finish, (Loop.threadIf_filter
    (fun c slv => mapSlave_inGroup pd.logMbxState c slv group) _ slaves).1]

theorem Separate.mapping_filter (group : ℕ) (pd : EcPdGroup) (slaves : List EcSlave) :
    (ecCreateLogicalMapping group pd slaves).1 =
      (finish pd (groupOutLen group slaves) (groupInLen group slaves)
        (Loop.thread (mapSlave pd.logMbxState) (start group pd slaves)
          (slaves.filter (EcSlave.inGroup group)))).1 := by
  rw [mapping_eq, finish, finish, (Loop.threadIf_filter
    (fun c slv => mapSlave_inGroup pd.logMbxState c slv group) _ slaves).1]

theorem chooseMode_filter (group : ℕ) (pd : EcPdGroup)
    (h : slaves'.filter (EcSlave.inGroup group) = slaves.filter (EcSlave.inGroup group)) :
    pd.chooseMode group slaves' = pd.chooseMode group slaves := by
  have hany (ss : List EcSlave) : (ss.any fun slv => slv.inGroup group &&
      (slv.features &&& ecRegEscsupNotSuppLrw == ecRegEscsupNotSuppLrw)) =
      (ss.filter (EcSlave.inGroup group)).any fun slv =>
        slv.features &&& ecRegEscsupNotSuppLrw == ecRegEscsupNotSuppLrw := by
    rw [List.any_filter]
  rw [EcPdGroup.chooseMode, EcPdGroup.chooseMode, hany, hany, h]

/-- **The mapping looks at the slaves of its group only.** -/
theorem setState_filter (pd : EcPdGroup)
    (h : slaves'.filter (EcSlave.inGroup group) = slaves.filter (EcSlave.inGroup group)) :
    (ecSetStateMapping group pd slaves').1 = (ecSetStateMapping group pd slaves).1 ∧
      (ecSetStateMapping group pd slaves').2.filter (EcSlave.inGroup group) =
        (ecSetStateMapping group pd slaves).2.filter (EcSlave.inGroup group) := by
  rw [ecSetStateMapping, ecSetStateMapping, chooseMode_filter group pd h]
  generalize pd.chooseMode group slaves = pd
  split_ifs
  · rw [Overlapping.mapping_filter, Overlapping.mapping_filter, Overlapping.slaves_inGroup,
      Overlapping.slaves_inGroup, Overlapping.start, Overlapping.start, Overlapping.groupLen,
      Overlapping.groupLen, h]
    exact ⟨rfl, rfl⟩
  · rw [Separate.mapping_filter, Separate.mapping_filter, Separate.slaves_inGroup,
      Separate.slaves_inGroup, Separate.start, Separate.start, Separate.groupOutLen,
      Separate.groupOutLen, Separate.groupInLen, Separate.groupInLen, h]
    exact ⟨rfl, rfl⟩

/-- A slave that is not in the group is not touched. -/
theorem setState_skips (group : ℕ) (pd : EcPdGroup) (slaves : List EcSlave) :
    List.Forall₂ (fun slv slv' => slv.inGroup group = false → slv' = slv) slaves
      (ecSetStateMapping group pd slaves).2 := by
  have hpass : ∀ {σ : Type} {f : σ → EcSlave → σ × EcSlave} (c : σ), List.Forall₂
      (fun slv slv' => slv.inGroup group = false → slv' = slv) slaves
      (Loop.threadIf (EcSlave.inGroup group) f c slaves).2 := fun c =>
    Loop.threadIf_forall₂ (fun _ _ _ => rfl) (fun _ slv hg hn => absurd hg (by simp [hn])) c slaves
  rw [ecSetStateMapping]
  split_ifs
  · exact hpass (f := Overlapping.mapSlave _) (Overlapping.start group _ slaves)
  · exact hpass (f := Separate.mapSlave _) (Separate.start group _ slaves)

end

theorem forall₂_comp {α : Type*} {R S T : α → α → Prop} {as bs cs : List α}
    (hcomp : ∀ a b c, R a b → S b c → T a c) (h : List.Forall₂ R as bs)
    (h' : List.Forall₂ S bs cs) : List.Forall₂ T as cs := by
  induction h generalizing cs with
  | nil =>
    cases h'
    exact .nil
  | cons hr _ ih =>
    obtain ⟨c, cs, hs, hrest, rfl⟩ := List.forall₂_cons_left_iff.1 h'
    exact .cons (hcomp _ _ _ hr hs) (ih hrest)

/-! ## One group after the other -/

/-- Groups below `n` are mapped as if they were alone, the others are as before. -/
structure Alone (pec : Ec) (n : ℕ) (pec' : Ec) : Prop where
  length : pec'.pdGroups.length = pec.pdGroups.length
  groups : ∀ g pd, pec.pdGroups[g]? = some pd → pec'.pdGroups[g]? = some
    (if g < n then (ecSetStateMapping g pd pec.slaves).1 else pd)
  slaves : ∀ g pd, pec.pdGroups[g]? = some pd → pec'.slaves.filter (EcSlave.inGroup g) =
    (if g < n then (ecSetStateMapping g pd pec.slaves).2 else pec.slaves).filter (EcSlave.inGroup g)
  config : List.Forall₂ EcSlave.SameConfig pec.slaves pec'.slaves
  skipped : List.Forall₂ (fun slv slv' => (∀ g < n, slv.inGroup g = false) → slv' = slv)
    pec.slaves pec'.slaves

theorem Alone.zero (pec : Ec) : Alone pec 0 pec := by
  refine ⟨rfl, fun g pd h => by simpa using h, fun g pd _ => by simp, ?_, ?_⟩
  · exact List.forall₂_same.2 fun slv _ => .refl slv
  · exact List.forall₂_same.2 fun _ _ _ => rfl

theorem Alone.succ {pec pec' : Ec} {n : ℕ} (h : Alone pec n pec') (hn : n < pec.pdGroups.length) :
    Alone pec (n + 1) (Ec.onGroup ecSetStateMapping pec' n) := by
  have hpd := List.getElem?_eq_getElem hn
  generalize pec.pdGroups[n] = pd at hpd
  have hpd' : pec'.pdGroups[n]? = some pd := by
    rw [h.groups n pd hpd, if_neg (Nat.lt_irrefl n)]
  have hfilter : pec'.slaves.filter (EcSlave.inGroup n) =
      pec.slaves.filter (EcSlave.inGroup n) := by
    rw [h.slaves n pd hpd, if_neg (Nat.lt_irrefl n)]
  obtain ⟨hgroup, hslaves⟩ := setState_filter pd hfilter
  rw [Ec.onGroup, hpd']
  refine ⟨by rw [List.length_set, h.length], fun g pd' hg => ?_, fun g pd' hg => ?_, ?_, ?_⟩
  · by_cases hgn : g = n
    · subst hgn
      rw [hpd] at hg
      cases hg
      rw [List.getElem?_set_self (by rw [h.length]; exact hn), hgroup, if_pos (Nat.lt_succ_self g)]
    · rw [List.getElem?_set_ne (Ne.symm hgn), h.groups g pd' hg]
      simp only [Nat.lt_succ_iff_lt_or_eq, hgn, or_false]
  · by_cases hgn : g = n
    · subst hgn
      rw [hpd] at hg
      cases hg
      rw [hslaves, if_pos (Nat.lt_succ_self g)]
    · dsimp only
      rw [setState_groupMapping.others n g pd pec'.slaves hgn, h.slaves g pd' hg]
      simp only [Nat.lt_succ_iff_lt_or_eq, hgn, or_false]
  · exact forall₂_trans h.config (setState_groupMapping.config n pd pec'.slaves)
  · refine forall₂_comp (fun a b c hab hbc hout => ?_) h.skipped
      (setState_skips n pd pec'.slaves)
    have hb := hab fun g hg => hout g (Nat.lt_succ_of_lt hg)
    rw [hb] at hbc
    exact hbc (hout n (Nat.lt_succ_self n))

/-- **Every group is mapped as if it were alone.** -/
theorem setStateMapping_alone (pec : Ec) : Alone pec pec.pdGroups.length pec.setStateMapping := by
  have hrun : ∀ n ≤ pec.pdGroups.length,
      Alone pec n ((List.range n).foldl (Ec.onGroup ecSetStateMapping) pec) := by
    intro n
    induction n with
    | zero => exact fun _ => .zero pec
    | succ n ih =>
      intro hn
      rw [List.range_succ, List.foldl_append]
      exact (ih (Nat.le_of_succ_le hn)).succ hn
  exact hrun _ le_rfl

/-! ## Inputs that are counted -/

theorem Separate.mapSlave_lrd (logMbxState : ℕ) (c : Separate.Locals) (slv : EcSlave) :
    (mapSlave logMbxState c slv).1.wkcExpectedLrd = c.wkcExpectedLrd + slv.mappedCount false := by
  have h : (mapSms smLoop (smLocals c) slv).1.wkc =
      ⟨slv.mappedCount false, slv.mappedCount true⟩ := by
    have hzero : (smLocals c).wkc = ⟨0, 0⟩ := rfl
    rw [mapSms_wkc _ _ _ rfl, hzero, foldl_count_separate]
    simp [EcSlave.mappedCount]
  have hsum : (mapSlave logMbxState c slv).1.wkcExpectedLrd = c.wkcExpectedLrd +
      (mapSms smLoop (smLocals c) slv).1.wkc.lrd := rfl
  rw [hsum, h]

/-- The mapping without overlap expects 1 from an LRD for every mapped input sync manager. -/
theorem separate_lrd (group : ℕ) (pd : EcPdGroup) (slaves : List EcSlave) :
    (ecCreateLogicalMapping group pd slaves).1.wkcExpectedLrd =
      ((slaves.filter (EcSlave.inGroup group)).map (EcSlave.mappedCount false)).sum := by
  rw [Separate.mapping_filter]
  exact (Loop.thread_pos_eq Separate.Locals.wkcExpectedLrd (Separate.mapSlave_lrd pd.logMbxState) _
    _).trans (Nat.zero_add _)

/-- With one input sync manager for each slave at most, that is what the bus returns. -/
theorem separate_lrd_bus {group : ℕ} (pd : EcPdGroup) {slaves : List EcSlave}
    (hcount : ∀ slv ∈ slaves, slv.inGroup group = true → slv.mappedCount false ≤ 1) :
    (ecCreateLogicalMapping group pd slaves).1.wkcExpectedLrd =
      (((ecCreateLogicalMapping group pd slaves).2.filter (EcSlave.inGroup group)).map
        (EcSlave.increment 0)).sum := by
  have hincrement : ∀ c slv, ((Separate.mapSlave pd.logMbxState c slv).2).increment 0 =
      if slv.mappedCount false ≠ 0 then 1 else 0 := by
    intro c slv
    have hlen := (Separate.mapSlave_slaveMapped pd.logMbxState c slv).dirWindows_length false
    rw [EcSlave.increment, if_neg (by decide), ← hlen]
    simp only [ne_eq, List.length_eq_zero_iff]
  rw [separate_lrd, Separate.slaves_inGroup, Loop.thread_map hincrement]
  refine congrArg List.sum (List.map_congr_left fun slv hslv => ?_)
  have hmem := List.mem_filter.1 hslv
  have hle := hcount slv hmem.1 hmem.2
  split_ifs <;> omega

/-! ## What can be exchanged -/

/-- The mapping of a group is one that can be exchanged: the image, or a datagram, holds it, no
slave in front of another is short of FMMUs, and without overlap there are outputs or inputs only.
-/
def CanExchange (group : ℕ) (pd : EcPdGroup) (slaves : List EcSlave) : Prop :=
  if (pd.chooseMode group slaves).overlapping ≠ 0 then
    2 * Overlapping.groupLen group slaves ≤ lecMaxPdlen ∧ FmmusSuffice group slaves
  else
    pdOverhead + groupBytes group slaves ≤ lecMaxPoolDataSize ∧
      (Separate.groupOutLen group slaves = 0 ∨ Separate.groupInLen group slaves = 0) ∧
      (pd.skipPdOnWkcMismatch ≠ 0 →
        ∀ slv ∈ slaves, slv.inGroup group = true → ∀ d, slv.mappedCount d ≤ 1)

/-- A master after `ec_create_pd_groups` and the scan: the windows of its groups, slaves with
cleared FMMUs, whose sync managers have memory of their own, and groups that can be exchanged. -/
structure Configured (pec : Ec) : Prop where
  groupCnt : pec.pdGroups.length ≤ lecMaxGroups
  groups : ∀ g pd, pec.pdGroups[g]? = some pd → pd.log = 0x10000 * (g + 1) ∧
    pd.logMbxState = 0x9000000 + g * 1000 ∧ (pd.useLrw = 0 ∨ pd.useLrw = 1)
  fresh : ∀ slv ∈ pec.slaves, ∀ f ∈ slv.fmmu, f.Fresh
  unmapped : ∀ slv ∈ pec.slaves, slv.pdout.len = 0 ∧ slv.pdin.len = 0
  areas : ∀ slv ∈ pec.slaves, slv.sites.Pairwise fun sm sm' => Disjoint sm.area sm'.area
  canExchange : ∀ g pd, pec.pdGroups[g]? = some pd → CanExchange g pd pec.slaves

section
variable {pec : Ec} {g : ℕ} {pd : EcPdGroup}

theorem Configured.cleared (h : Configured pec) : Cleared g pec.slaves :=
  ⟨fun slv hs _ => h.unmapped slv hs, fun slv hs _ => h.fresh slv hs⟩

theorem Configured.exchangeable (h : Configured pec) (hpd : pec.pdGroups[g]? = some pd) :
    Exchangeable g (ecSetStateMapping g pd pec.slaves).1 (ecSetStateMapping g pd pec.slaves).2 := by
  have hmode := setState_modes g pd pec.slaves (h.groups g pd hpd).2.2
  have hcan := h.canExchange g pd hpd
  rw [CanExchange] at hcan
  rw [ecSetStateMapping] at hmode ⊢
  have huse : (pd.chooseMode g pec.slaves).overlapping ≠ 0 →
      (pd.chooseMode g pec.slaves).useLrw = 1 := by
    intro hover
    rw [if_pos hover] at hmode
    obtain ⟨huse, -⟩ | ⟨-, hzero, -⟩ := hmode
    · exact huse
    · exact absurd hzero hover
  have hskip : (pd.chooseMode g pec.slaves).skipPdOnWkcMismatch = pd.skipPdOnWkcMismatch := rfl
  generalize pd.chooseMode g pec.slaves = pd' at *
  split_ifs at hcan hmode ⊢ with hover
  · obtain ⟨hlen, hfmmus⟩ := hcan
    have hlog : (ecCreateLogicalMappingOverlapping g pd' pec.slaves).1.logLen =
        Overlapping.groupLen g pec.slaves := Nat.max_self _
    refine ⟨overlapping_wired h.cleared hover hfmmus, hmode, ?_, ?_, .inl hover, fun _ => ?_⟩
    · show Overlapping.groupLen g pec.slaves + Overlapping.groupLen g pec.slaves ≤ lecMaxPdlen
      omega
    · rw [hlog]
      simp only [lecMaxPdlen] at hlen
      omega
    · have hlrw : (ecCreateLogicalMappingOverlapping g pd' pec.slaves).1.useLrw = 1 := huse hover
      have hincrement : EcSlave.increment 1 = EcSlave.lrwIncrement := funext fun _ => if_pos rfl
      rw [EcPdGroup.wkcExpected, hlrw, if_neg (by decide), overlapping_lrw, hincrement]
      exact (busLrwWkc_overlapping g pd' pec.slaves).symm
  · obtain ⟨hfits, hone, hcount⟩ := hcan
    have hzero : pd'.overlapping = 0 := not_not.1 hover
    have hlog : (ecCreateLogicalMapping g pd' pec.slaves).1.logLen = groupBytes g pec.slaves := rfl
    simp only [pdOverhead, ecDatagramHdrLength, ecWkcSize, lecMaxPoolDataSize] at hfits
    refine ⟨separate_wired h.cleared hzero, hmode, ?_, ?_, .inr hone, fun hskipped => ?_⟩
    · show groupBytes g pec.slaves ≤ lecMaxPdlen
      simp only [lecMaxPdlen]
      omega
    · rw [hlog]
      omega
    · have hcount := hcount (hskip ▸ hskipped)
      have huse : (ecCreateLogicalMapping g pd' pec.slaves).1.useLrw = 0 ∨
          (ecCreateLogicalMapping g pd' pec.slaves).1.useLrw = 1 := by
        obtain ⟨-, hne, -⟩ | ⟨huse, -⟩ := hmode
        · exact absurd hzero hne
        · exact huse
      obtain huse | huse := huse
      · rw [EcPdGroup.wkcExpected, huse, if_pos rfl]
        exact separate_lrd_bus pd' fun slv hs hg => hcount slv hs hg false
      · have hincrement : EcSlave.increment 1 = EcSlave.lrwIncrement := funext fun _ => if_pos rfl
        rw [EcPdGroup.wkcExpected, huse, if_neg (by decide), hincrement]
        exact ((wkcExpectedLrw_iff g pd' pec.slaves).2 hcount).2.1

/-! ## The bus around a group -/

theorem exists_of_forall₂ {α : Type*} {R : α → α → Prop} {as bs : List α} (h : List.Forall₂ R as bs)
    {b : α} (hb : b ∈ bs) : ∃ a ∈ as, R a b := by
  obtain ⟨i, hi, rfl⟩ := List.mem_iff_getElem.1 hb
  have hi' : i < as.length := h.length_eq ▸ hi
  exact ⟨as[i], List.getElem_mem hi', h.get hi' hi⟩

theorem EcSlave.SameConfig.sites {slv slv' : EcSlave} (h : slv.SameConfig slv') :
    slv'.sites = slv.sites := by
  rw [EcSlave.sites, EcSlave.sites, EcSlave.usedSm, EcSlave.usedSm, h.pdSm, h.fmmu_length]

theorem Exchangeable.congr {slaves slaves' : List EcSlave}
    (hfilter : slaves'.filter (EcSlave.inGroup g) = slaves.filter (EcSlave.inGroup g))
    (h : Exchangeable g pd slaves) : Exchangeable g pd slaves' where
  wired := by rw [hfilter]; exact h.wired
  outputs := by rw [hfilter]; exact h.outputs
  inputs := by rw [hfilter]; exact h.inputs
  apart := by rw [hfilter]; exact h.apart
  outputWindows := by rw [hfilter]; exact h.outputWindows
  inputWindows := by rw [hfilter]; exact h.inputWindows
  mode := h.mode
  image := h.image
  len := h.len
  received := h.received
  wkc := by rw [hfilter]; exact h.wkc

theorem setState_logMbxState (group : ℕ) (pd : EcPdGroup) (slaves : List EcSlave) :
    (ecSetStateMapping group pd slaves).1.logMbxState = pd.logMbxState := by
  rw [ecSetStateMapping]
  split_ifs <;> rfl

/-- The addresses of a group that can be exchanged. -/
theorem Exchangeable.window {slaves : List EcSlave} (h : Exchangeable g pd slaves) {slv : EcSlave}
    (hslv : slv ∈ slaves.filter (EcSlave.inGroup g)) {f : EcSlaveFmmu} (hf : f ∈ slv.pdFmmus)
    {a : ℕ} (ha : f.Covers a) : pd.log ≤ a ∧ a < pd.log + pd.logLen := by
  obtain ⟨hlow, hhigh, hout, -⟩ := h.addr
  have hwindow (d : Bool) (hd : f.writes = d) := (h.wired slv hslv).dirWindow hf hd
  cases hd : f.writes with
  | true =>
    have haddr := h.outputWindows slv hslv f.window (hwindow true hd) ha
    exact ⟨haddr.1, haddr.2.trans_le (by omega)⟩
  | false =>
    have haddr := h.inputWindows slv hslv f.window (hwindow false hd) ha
    exact ⟨hlow.trans haddr.1, haddr.2.trans_le hhigh⟩

/-- **Every group of the mapped master** is ready to be exchanged. -/
theorem Configured.ready (h : Configured pec) :
    ∀ g pd', pec.setStateMapping.pdGroups[g]? = some pd' →
      Ready g pd' pec.setStateMapping.slaves := by
  have halone := setStateMapping_alone pec
  generalize pec.setStateMapping = pec' at halone ⊢
  -- a group by itself
  have hgroup : ∀ g pd', pec'.pdGroups[g]? = some pd' → g < pec.pdGroups.length ∧
      Exchangeable g pd' pec'.slaves ∧ pd'.log = 0x10000 * (g + 1) ∧
        pd'.logMbxState = 0x9000000 + g * 1000 := by
    intro g pd' hpd'
    obtain ⟨hlt, -⟩ := List.getElem?_eq_some_iff.1 hpd'
    rw [halone.length] at hlt
    have hpd := List.getElem?_eq_getElem hlt
    generalize pec.pdGroups[g] = pd at hpd
    have hmapped := halone.groups g pd hpd
    rw [if_pos hlt, hpd', Option.some_inj] at hmapped
    have hfilter := halone.slaves g pd hpd
    rw [if_pos hlt] at hfilter
    obtain ⟨hlog, hmbx, -⟩ := h.groups g pd hpd
    rw [hmapped]
    exact ⟨hlt, (h.exchangeable hpd).congr hfilter,
      (setState_groupMapping.log g pd pec.slaves).trans hlog,
      (setState_logMbxState g pd pec.slaves).trans hmbx⟩
  have hcnt := h.groupCnt
  simp only [lecMaxGroups] at hcnt
  intro g pd' hpd'
  obtain ⟨hlt, hexch, hlog, hmbx⟩ := hgroup g pd' hpd'
  have hlen := hexch.len
  refine { hexch with far := by omega, foreign := fun slv' hslv' hnot f hf => ?_,
                      areas := fun slv' hslv' => ?_ }
  · by_cases hother : ∃ g₂ < pec.pdGroups.length, slv'.inGroup g₂ = true
    · -- a slave of another group
      obtain ⟨g₂, hlt₂, hin⟩ := hother
      have hne : g₂ ≠ g := by
        rintro rfl
        exact absurd hin (by simp [hnot])
      have hlt₂' : g₂ < pec'.pdGroups.length := by rwa [halone.length]
      obtain ⟨-, hexch₂, hlog₂, hmbx₂⟩ := hgroup g₂ _ (List.getElem?_eq_getElem hlt₂')
      have hmem : slv' ∈ pec'.slaves.filter (EcSlave.inGroup g₂) := List.mem_filter.2 ⟨hslv', hin⟩
      have hwired := hexch₂.wired slv' hmem
      have hlen₂ := hexch₂.len
      refine ⟨hwired.stops hf, fun hw hon => (hwired.writes_byteWise hf hw hon).2,
        fun hon a hle hlt' hcov => ?_⟩
      obtain hpdf | hotherf := mem_fmmu_iff.1 hf
      · have hrange := hexch₂.window hmem hpdf hcov
        omega
      · have hfar := ((hwired.others f hotherf).2 hon).2
        have hcov' := hcov.1
        omega
    · -- a slave of no group
      obtain ⟨i, hi, rfl⟩ := List.mem_iff_getElem.1 hslv'
      have hi' : i < pec.slaves.length := halone.config.length_eq ▸ hi
      have hsame : pec'.slaves[i] = pec.slaves[i] := halone.skipped.get hi' hi fun g₂ hlt₂ => by
        have hconfig : pec.slaves[i].SameConfig pec'.slaves[i] := halone.config.get hi' hi
        rw [← Bool.not_eq_true]
        exact fun hin => hother ⟨g₂, hlt₂, hconfig.inGroup g₂ ▸ hin⟩
      rw [hsame] at hf
      have hfresh := h.fresh _ (List.getElem_mem hi') f hf
      have hoff : ¬ f.isOn = true := by simp [hfresh.isOn]
      refine ⟨?_, fun _ hon => absurd hon hoff, fun hon => absurd hon hoff⟩
      rw [hfresh.logBitStop]
      decide
  · obtain ⟨slv, hslv, hconfig⟩ := exists_of_forall₂ halone.config (List.mem_filter.1 hslv').1
    rw [hconfig.sites]
    exact h.areas slv hslv

end

end LibEthercat
