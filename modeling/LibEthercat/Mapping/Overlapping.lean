import LibEthercat.Mapping.Slave

/-!
# The overlapping mapping

`ec_create_logical_mapping_overlapping` keeps two cursors: `log_base`, which every slave moves by
the longer of its outputs and inputs, and the pointers into `pd[]`, which it moves by the longer
of its *mapped* outputs and inputs. The windows of different slaves never meet, whatever the
slaves look like. The pointers keep up with the windows exactly as long as no slave that is short
of FMMUs has made the first cursor move further than the second.

* `mapSlave_slaveMapped`, `mapSlave_logBase`, `mapSlave_ptr` — one slave.
* `ptrMatches_thread_iff` — the pointers of a whole group, from cursors that may be apart.
* `overlapping_coherent_iff` — the mapping of a group.
-/

namespace LibEthercat

namespace Overlapping

/-- The pointers in both directions. -/
def Locals.ptr (c : Locals) : Bool → ℕ
  | true => c.pdout
  | false => c.pdin

/-- The bytes of a slave that get an FMMU, in the longer direction. -/
def mappedLen (slv : EcSlave) : ℕ := max (winLen true slv.mapped) (winLen false slv.mapped)

theorem smLocals_ptr (c : Locals) : (smLocals c).ptr = c.ptr := by
  funext d
  cases d <;> rfl

theorem smLocals_log (c : Locals) : (smLocals c).log = fun _ => c.logBase := by
  funext d
  cases d <;> rfl

/-! ## One slave -/

section Slave

variable (logMbxState : ℕ) (c : Locals) (slv : EcSlave)

theorem mapSlave_slaveMapped :
    SlaveMapped slv c.ptr (fun _ => c.logBase) (mapSlave logMbxState c slv).2 := by
  have h := slave_mapped (smLoop c) (smLocals c) slv rfl logMbxState c.mbxStateBitlen
  rwa [smLocals_ptr, smLocals_log] at h

theorem mapSlave_config : slv.SameConfig (mapSlave logMbxState c slv).2 :=
  (mapSlave_slaveMapped logMbxState c slv).config

theorem mapSlave_inGroup (group : ℕ) (h : slv.inGroup group = true) :
    (mapSlave logMbxState c slv).2.inGroup group = true := by
  rwa [(mapSlave_config logMbxState c slv).inGroup]

/-- The logical cursor moves by all bytes of the slave. -/
theorem mapSlave_logBase :
    (mapSlave logMbxState c slv).1.logBase = c.logBase + slaveLen slv := by
  have h := mapSms_mapped (smLoop c) (smLocals c) slv
  have hout : (mapSms (smLoop c) (smLocals c) slv).1.logBaseOut = c.logBase + outLen slv.pdSm := by
    rw [← smLen_true]
    exact h.log true
  have hin : (mapSms (smLoop c) (smLocals c) slv).1.logBaseIn = c.logBase + inLen slv.pdSm := by
    rw [← smLen_false]
    exact h.log false
  have hmax : (mapSlave logMbxState c slv).1.logBase =
      max (mapSms (smLoop c) (smLocals c) slv).1.logBaseIn
        (mapSms (smLoop c) (smLocals c) slv).1.logBaseOut := rfl
  rw [hmax, hout, hin, slaveLen]
  omega

/-- The pointers move by the bytes the slave has mapped. -/
theorem mapSlave_ptr (hout : slv.pdout.len = 0) (hin : slv.pdin.len = 0) (d : Bool) :
    (mapSlave logMbxState c slv).1.ptr d = c.ptr d + mappedLen slv := by
  have h := mapSlave_slaveMapped logMbxState c slv
  have hadv : max (mapSlave logMbxState c slv).2.pdin.len (mapSlave logMbxState c slv).2.pdout.len
      = mappedLen slv := by
    have h1 : (mapSlave logMbxState c slv).2.pdout.len = slv.pdout.len + winLen true slv.mapped :=
      h.len true
    have h2 : (mapSlave logMbxState c slv).2.pdin.len = slv.pdin.len + winLen false slv.mapped :=
      h.len false
    rw [h1, h2, hout, hin, mappedLen]
    omega
  cases d with
  | true => exact congrArg (c.pdout + ·) hadv
  | false => exact congrArg (c.pdin + ·) hadv

/-- Both directions of a slave stay between the logical cursors around it. -/
theorem mapSlave_packed (d : Bool) :
    Window.Packed c.logBase (mapSlave logMbxState c slv).1.logBase
      ((mapSlave logMbxState c slv).2.dirWindows d) := by
  have h := (mapSlave_slaveMapped logMbxState c slv).packed d
  have hle : c.logBase + smLen d slv.pdSm ≤ (mapSlave logMbxState c slv).1.logBase := by
    rw [mapSlave_logBase, slaveLen, ← smLen_true, ← smLen_false]
    cases d <;> omega
  exact h.mono le_rfl hle

end Slave

/-! ## The slaves of the group -/

theorem mappedLen_le (slv : EcSlave) : mappedLen slv ≤ slaveLen slv := by
  have h1 := winLen_mapped_le true slv
  have h2 := winLen_mapped_le false slv
  rw [smLen_true] at h1
  rw [smLen_false] at h2
  rw [mappedLen, slaveLen]
  omega

/-- In front of a slave the pointers may be `δ` bytes behind the windows; then the slave's own
pointers are right only if it has nothing mapped or `δ` is zero. -/
theorem mapSlave_ptrMatches_iff (logMbxState : ℕ) {c : Locals} {slv : EcSlave}
    (hout : slv.pdout.len = 0) (hin : slv.pdin.len = 0) {l p δ : ℕ}
    (hlog : c.logBase = l + c.pdout + δ) (hpd : c.pdin = p + c.pdout) :
    (mapSlave logMbxState c slv).2.PtrMatches true 0 l ∧
        (mapSlave logMbxState c slv).2.PtrMatches false p l ↔ (slv.mapped ≠ [] → δ = 0) := by
  have h := mapSlave_slaveMapped logMbxState c slv
  have hlog' : c.logBase = l + (c.pdout + δ) := by omega
  have ho : (mapSlave logMbxState c slv).2.PtrMatches true 0 l ↔ _ :=
    h.ptrMatches_iff true hout (Nat.zero_add c.pdout).symm hlog'
  have hi : (mapSlave logMbxState c slv).2.PtrMatches false p l ↔ _ :=
    h.ptrMatches_iff false hin hpd hlog'
  rw [ho, hi, mapped_ne_nil_iff, or_imp]
  exact and_congr (imp_congr_right fun _ => by omega) (imp_congr_right fun _ => by omega)

/-- **The pointers of the slaves of a group**, from cursors that are `δ` bytes apart: they are
right when the cursors meet in front of every slave that has something mapped. -/
theorem ptrMatches_thread_iff (logMbxState : ℕ) {l p δ : ℕ} {c : Locals} {slvs : List EcSlave}
    (hlen : ∀ slv ∈ slvs, slv.pdout.len = 0 ∧ slv.pdin.len = 0)
    (hlog : c.logBase = l + c.pdout + δ) (hpd : c.pdin = p + c.pdout) :
    (∀ slv ∈ (Loop.thread (mapSlave logMbxState) c slvs).2,
        slv.PtrMatches true 0 l ∧ slv.PtrMatches false p l) ↔
      (∀ slv ∈ slvs, slv.mapped ≠ [] → δ = 0) ∧
        slvs.Pairwise fun a b => b.mapped ≠ [] → mappedLen a = slaveLen a := by
  induction slvs generalizing c δ with
  | nil => simp
  | cons a as ih =>
    obtain ⟨hout, hin⟩ := hlen a List.mem_cons_self
    have hle := mappedLen_le a
    have hbase := mapSlave_logBase logMbxState c a
    have hptr := mapSlave_ptr logMbxState c a hout hin
    have hpo : (mapSlave logMbxState c a).1.pdout = c.pdout + mappedLen a := hptr true
    have hpi : (mapSlave logMbxState c a).1.pdin = c.pdin + mappedLen a := hptr false
    -- behind `a` the cursors are further apart by the bytes of `a` that are not mapped
    obtain ⟨δ', hδ⟩ : ∃ δ', δ' = δ + (slaveLen a - mappedLen a) := ⟨_, rfl⟩
    have hlog' : (mapSlave logMbxState c a).1.logBase =
        l + (mapSlave logMbxState c a).1.pdout + δ' := by omega
    have hpd' : (mapSlave logMbxState c a).1.pdin = p + (mapSlave logMbxState c a).1.pdout := by
      omega
    have ih' := ih (fun slv h => hlen slv (List.mem_cons_of_mem a h)) hlog' hpd'
    have hzero : δ' = 0 ↔ δ = 0 ∧ mappedLen a = slaveLen a := by omega
    have hrest : (∀ slv ∈ as, slv.mapped ≠ [] → δ' = 0) ↔
        (∀ slv ∈ as, slv.mapped ≠ [] → δ = 0) ∧
          ∀ slv ∈ as, slv.mapped ≠ [] → mappedLen a = slaveLen a := by
      simp only [hzero]
      exact ⟨fun h => ⟨fun slv hs hm => (h slv hs hm).1, fun slv hs hm => (h slv hs hm).2⟩,
        fun h slv hs hm => ⟨h.1 slv hs hm, h.2 slv hs hm⟩⟩
    rw [Loop.thread_cons, List.forall_mem_cons, ih',
      mapSlave_ptrMatches_iff logMbxState hout hin hlog hpd, hrest, List.forall_mem_cons,
      List.pairwise_cons, and_assoc, and_assoc]

end Overlapping

/-- The process image and the logical address window of a group tell the same story. -/
structure Coherent (group : ℕ) (pd : EcPdGroup) (slaves : List EcSlave) : Prop where
  pdout : ∀ slv ∈ slaves.filter (EcSlave.inGroup group), slv.PtrMatches true 0 pd.log
  pdin : ∀ slv ∈ slaves.filter (EcSlave.inGroup group), slv.PtrMatches false pd.pdoutLen pd.log
  disjoint : ∀ d, (slaves.filter (EcSlave.inGroup group)).Pairwise fun s s' =>
    Disjoint (s.dirRegion d) (s'.dirRegion d)
  inside : ∀ slv ∈ slaves.filter (EcSlave.inGroup group), ∀ w ∈ slv.pdWindows,
    w.region ⊆ Set.Ico pd.log (pd.log + pd.logLen)

/-- A slave of the group that is followed by one with mapped process data has its longer
direction mapped in full. -/
def FmmusSuffice (group : ℕ) (slaves : List EcSlave) : Prop :=
  (slaves.filter (EcSlave.inGroup group)).Pairwise fun a b =>
    b.mapped ≠ [] → Overlapping.mappedLen a = Overlapping.slaveLen a

/-! ## The mapping of the group -/

namespace Overlapping

variable (group : ℕ) (pd : EcPdGroup) (slaves : List EcSlave)

/-- The locals in front of the loop over the slaves. -/
def start : Locals :=
  { pdout := 0, pdin := groupLen group slaves, logBase := pd.log, mbxStateBitlen := 0,
    wkcExpectedLrw := 0, wkcExpectedMbxState := 0 }

/-- The slaves of the group after the mapping: the loop without its guard. -/
theorem slaves_inGroup :
    (ecCreateLogicalMappingOverlapping group pd slaves).2.filter (EcSlave.inGroup group) =
      (Loop.thread (mapSlave pd.logMbxState) (start group pd slaves)
        (slaves.filter (EcSlave.inGroup group))).2 :=
  (Loop.threadIf_filter (fun c slv => mapSlave_inGroup pd.logMbxState c slv group) _ slaves).2

theorem le_mapSlave_logBase (c : Locals) (slv : EcSlave) :
    c.logBase ≤ (mapSlave pd.logMbxState c slv).1.logBase := by
  rw [mapSlave_logBase]
  exact Nat.le_add_right _ _

theorem mapSlave_dirRegion (d : Bool) (c : Locals) (slv : EcSlave) :
    (mapSlave pd.logMbxState c slv).2.dirRegion d ⊆
      Set.Ico c.logBase (mapSlave pd.logMbxState c slv).1.logBase :=
  (mapSlave_packed pd.logMbxState c slv d).regions_subset

/-- The windows of one direction of different slaves do not meet. -/
theorem dirRegion_disjoint (d : Bool) :
    ((ecCreateLogicalMappingOverlapping group pd slaves).2.filter
      (EcSlave.inGroup group)).Pairwise fun s s' => Disjoint (s.dirRegion d) (s'.dirRegion d) := by
  rw [slaves_inGroup]
  exact Loop.thread_pairwise_disjoint Locals.logBase (EcSlave.dirRegion d) (le_mapSlave_logBase pd)
    (mapSlave_dirRegion pd d) _ _

/-- All windows lie in the window of the group. -/
theorem pdWindows_inside :
    ∀ slv ∈ (ecCreateLogicalMappingOverlapping group pd slaves).2.filter (EcSlave.inGroup group),
      ∀ w ∈ slv.pdWindows, w.region ⊆ Set.Ico pd.log (pd.log + groupLen group slaves) := by
  rw [slaves_inGroup, groupLen]
  intro slv hslv w hw
  have hend := Loop.thread_pos_eq Locals.logBase (mapSlave_logBase pd.logMbxState)
    (start group pd slaves) (slaves.filter (EcSlave.inGroup group))
  have hsub := Loop.thread_subset Locals.logBase (EcSlave.dirRegion w.isOutput) (le_mapSlave_logBase pd)
    (mapSlave_dirRegion pd w.isOutput) (start group pd slaves) _ slv hslv
  rw [hend] at hsub
  exact (Window.region_subset_regions (List.mem_filter.2 ⟨hw, by simp⟩)).trans hsub

end Overlapping

/-- **When the overlapping mapping is coherent.** The windows always are; the pointers of a group
are right if and only if no slave that comes in front of a mapped one is short of FMMUs in its
longer direction. -/
theorem overlapping_coherent_iff (group : ℕ) (pd : EcPdGroup) (slaves : List EcSlave)
    (hlen : ∀ slv ∈ slaves, slv.inGroup group = true → slv.pdout.len = 0 ∧ slv.pdin.len = 0) :
    Coherent group (ecCreateLogicalMappingOverlapping group pd slaves).1
        (ecCreateLogicalMappingOverlapping group pd slaves).2 ↔
      FmmusSuffice group slaves := by
  have hlen' : ∀ slv ∈ slaves.filter (EcSlave.inGroup group),
      slv.pdout.len = 0 ∧ slv.pdin.len = 0 := fun slv h =>
    hlen slv (List.mem_filter.1 h).1 (List.mem_filter.1 h).2
  have hlog : (Overlapping.start group pd slaves).logBase =
      pd.log + (Overlapping.start group pd slaves).pdout + 0 := rfl
  have hpd : (Overlapping.start group pd slaves).pdin =
      Overlapping.groupLen group slaves + (Overlapping.start group pd slaves).pdout := rfl
  have hptr := Overlapping.ptrMatches_thread_iff pd.logMbxState hlen' hlog hpd
  rw [← Overlapping.slaves_inGroup] at hptr
  constructor
  · intro h
    exact (hptr.1 fun slv hs => ⟨h.pdout slv hs, h.pdin slv hs⟩).2
  · intro h
    have hall := hptr.2 ⟨fun _ _ _ => rfl, h⟩
    refine { pdout := fun slv hs => (hall slv hs).1, pdin := fun slv hs => (hall slv hs).2,
             disjoint := Overlapping.dirRegion_disjoint group pd slaves, inside := ?_ }
    have hmax : (ecCreateLogicalMappingOverlapping group pd slaves).1.logLen =
        Overlapping.groupLen group slaves := Nat.max_self _
    rw [hmax]
    exact Overlapping.pdWindows_inside group pd slaves

/-- A slave with two output sync managers of four bytes, and a slave with outputs behind it. -/
def twoSlaves (fmmuCh : ℕ) : List EcSlave :=
  [.scanned 0 0 [⟨0x1000, 4, 4⟩, ⟨0x1100, 4, 4⟩] fmmuCh, .scanned 0 0 [⟨0x1000, 2, 4⟩] 1]

theorem overlapping_coherent_two_fmmus :
    Coherent 0 (ecCreateLogicalMappingOverlapping 0 (EcPdGroup.zero.create 0) (twoSlaves 2)).1
      (ecCreateLogicalMappingOverlapping 0 (EcPdGroup.zero.create 0) (twoSlaves 2)).2 :=
  (overlapping_coherent_iff 0 (EcPdGroup.zero.create 0) (twoSlaves 2) (by decide)).2
    (by unfold FmmusSuffice; decide)

/-- With one FMMU for the two sync managers of the first slave, the outputs of the second slave
are at byte 4 of the process data, but at byte 8 of the window. -/
theorem overlapping_incoherent_one_fmmu :
    (∀ slv ∈ twoSlaves 1, slv.pdout.len = 0 ∧ slv.pdin.len = 0) ∧
      ¬ Coherent 0
        (ecCreateLogicalMappingOverlapping 0 (EcPdGroup.zero.create 0) (twoSlaves 1)).1
        (ecCreateLogicalMappingOverlapping 0 (EcPdGroup.zero.create 0) (twoSlaves 1)).2 := by
  refine ⟨by decide, fun h => ?_⟩
  have hsecond : { EcSlave.scanned 0 0 [⟨0x1000, 2, 4⟩] 1 with
      fmmu := [⟨0x10008, 2, 0, 7, 0x1000, 0, 2, 1⟩], pdout := ⟨some 4, 2⟩ } ∈
      (ecCreateLogicalMappingOverlapping 0 (EcPdGroup.zero.create 0) (twoSlaves 1)).2.filter
        (EcSlave.inGroup 0) := by decide
  obtain ⟨o, ho, ha⟩ := h.pdout _ hsecond 0x10008 (by decide)
  have ho4 : 4 = 0 + o := Option.some.inj ho
  have ha8 : 0x10008 = 0x10000 + o := ha
  omega

end LibEthercat
