import LibEthercat.Mapping.Slave

/-!
# The mapping without overlap

`ec_create_logical_mapping` keeps a pointer and a logical address for each direction and moves
both by every sync manager, mapped or not. So the distance between pointer and address is the
same all the way, and outputs and inputs fill two adjacent windows.

* `mapSlave_slaveMapped`, `mapSlave_log`, `mapSlave_ptr` — one slave.
* `dirWindows_packed` — the windows of a direction, of all slaves of the group, one after the
  other.
* `separate_partitioned` — the mapping of a group.
-/

namespace LibEthercat

namespace Separate

/-- The pointers in both directions. -/
def Locals.ptr (c : Locals) : Bool → ℕ
  | true => c.pdout
  | false => c.pdin

/-- The logical addresses in both directions. -/
def Locals.log (c : Locals) : Bool → ℕ
  | true => c.logBaseOut
  | false => c.logBaseIn

theorem smLocals_ptr (c : Locals) : (smLocals c).ptr = c.ptr := by
  funext d
  cases d <;> rfl

theorem smLocals_log (c : Locals) : (smLocals c).log = c.log := by
  funext d
  cases d <;> rfl

/-! ## One slave -/

section Slave

variable (logMbxState : ℕ) (c : Locals) (slv : EcSlave)

theorem mapSlave_slaveMapped :
    SlaveMapped slv c.ptr c.log (mapSlave logMbxState c slv).2 := by
  have h := slave_mapped smLoop (smLocals c) slv rfl logMbxState c.mbxStateBitlen
  rwa [smLocals_ptr, smLocals_log] at h

theorem mapSlave_config : slv.SameConfig (mapSlave logMbxState c slv).2 :=
  (mapSlave_slaveMapped logMbxState c slv).config

theorem mapSlave_inGroup (group : ℕ) (h : slv.inGroup group = true) :
    (mapSlave logMbxState c slv).2.inGroup group = true := by
  rwa [(mapSlave_config logMbxState c slv).inGroup]

/-- The logical addresses move by all bytes of the slave. -/
theorem mapSlave_log (d : Bool) :
    (mapSlave logMbxState c slv).1.log d = c.log d + smLen d slv.pdSm := by
  have h := (mapSms_mapped smLoop (smLocals c) slv).log d
  rw [smLocals_log] at h
  rw [← h]
  cases d <;> rfl

/-- The pointers move by all bytes of the slave. -/
theorem mapSlave_ptr (d : Bool) :
    (mapSlave logMbxState c slv).1.ptr d = c.ptr d + smLen d slv.pdSm := by
  have h := (mapSms_mapped smLoop (smLocals c) slv).ptr d
  rw [smLocals_ptr] at h
  rw [← h]
  cases d <;> rfl

/-- The windows of a direction stay between the logical addresses around the slave. -/
theorem mapSlave_packed (d : Bool) :
    Window.Packed (c.log d) ((mapSlave logMbxState c slv).1.log d)
      ((mapSlave logMbxState c slv).2.dirWindows d) := by
  rw [mapSlave_log]
  exact (mapSlave_slaveMapped logMbxState c slv).packed d

end Slave

/-! ## The slaves of the group -/

theorem groupOutLen_eq (group : ℕ) (slaves : List EcSlave) : groupOutLen group slaves =
    ((slaves.filter (EcSlave.inGroup group)).map fun slv => smLen true slv.pdSm).sum := by
  simp only [groupOutLen, smLen_true]

theorem groupInLen_eq (group : ℕ) (slaves : List EcSlave) : groupInLen group slaves =
    ((slaves.filter (EcSlave.inGroup group)).map fun slv => smLen false slv.pdSm).sum := by
  simp only [groupInLen, smLen_false]

/-- The pointers of the slaves match their windows when the cursors do. -/
theorem ptrMatches_thread (logMbxState : ℕ) {l : ℕ} {c : Locals} {slvs : List EcSlave}
    (hlen : ∀ slv ∈ slvs, ∀ d, (slv.side d).len = 0) (hc : ∀ d, c.log d = l + c.ptr d) :
    ∀ slv ∈ (Loop.thread (mapSlave logMbxState) c slvs).2, ∀ d, slv.PtrMatches d 0 l := by
  induction slvs generalizing c with
  | nil => simp
  | cons a as ih =>
    have hnext : ∀ d, (mapSlave logMbxState c a).1.log d =
        l + (mapSlave logMbxState c a).1.ptr d := fun d => by
      rw [mapSlave_log, mapSlave_ptr, hc, Nat.add_assoc]
    have hrest := ih (fun slv h => hlen slv (List.mem_cons_of_mem a h)) hnext
    refine List.forall_mem_cons.2 ⟨fun d => ?_, hrest⟩
    exact ((mapSlave_slaveMapped logMbxState c a).ptrMatches_iff d (hlen a List.mem_cons_self d)
      (Nat.zero_add (c.ptr d)).symm (hc d)).2 fun _ => rfl

end Separate

/-- The windows of a group split its window in an output and an input part. -/
structure Partitioned (group : ℕ) (pd : EcPdGroup) (slaves : List EcSlave) : Prop where
  disjoint : ((slaves.filter (EcSlave.inGroup group)).flatMap EcSlave.pdWindows).Pairwise
    fun w w' => Disjoint w.region w'.region
  outputs : ∀ slv ∈ slaves.filter (EcSlave.inGroup group), ∀ w ∈ slv.pdWindows,
    w.isOutput = true → w.region ⊆ Set.Ico pd.log (pd.log + pd.pdoutLen)
  inputs : ∀ slv ∈ slaves.filter (EcSlave.inGroup group), ∀ w ∈ slv.pdWindows,
    w.isOutput = false → w.region ⊆ Set.Ico (pd.log + pd.pdoutLen) (pd.log + pd.logLen)
  pointers : ∀ slv ∈ slaves.filter (EcSlave.inGroup group), ∀ d, slv.PtrMatches d 0 pd.log

namespace Separate

variable (group : ℕ) (pd : EcPdGroup) (slaves : List EcSlave)

/-- The locals in front of the loop over the slaves. -/
def start : Locals :=
  { pdout := 0, pdin := groupOutLen group slaves, logBaseOut := pd.log,
    logBaseIn := pd.log + groupOutLen group slaves, mbxStateBitlen := 0, wkcExpectedLrd := 0,
    wkcExpectedLwr := pd.wkcExpectedLwr, wkcExpectedLrw := 0, wkcExpectedMbxState := 0 }

/-- The slaves of the group after the mapping: the loop without its guard. -/
theorem slaves_inGroup :
    (ecCreateLogicalMapping group pd slaves).2.filter (EcSlave.inGroup group) =
      (Loop.thread (mapSlave pd.logMbxState) (start group pd slaves)
        (slaves.filter (EcSlave.inGroup group))).2 :=
  (Loop.threadIf_filter (fun c slv => mapSlave_inGroup pd.logMbxState c slv group) _ slaves).2

/-- **The windows of a direction**, of all slaves of the group, lie one after the other. -/
theorem dirWindows_packed (d : Bool) :
    Window.Packed ((start group pd slaves).log d)
      ((start group pd slaves).log d +
        ((slaves.filter (EcSlave.inGroup group)).map fun slv => smLen d slv.pdSm).sum)
      (((ecCreateLogicalMapping group pd slaves).2.filter
        (EcSlave.inGroup group)).flatMap (EcSlave.dirWindows d)) := by
  have h := Window.thread_packed (fun c => Locals.log c d) (EcSlave.dirWindows d)
    (fun c slv => mapSlave_packed pd.logMbxState c slv d) (start group pd slaves)
    (slaves.filter (EcSlave.inGroup group))
  rwa [Loop.thread_pos_eq (fun c => Locals.log c d)
    (fun c slv => mapSlave_log pd.logMbxState c slv d), ← slaves_inGroup] at h

theorem outputs_packed :
    Window.Packed pd.log (pd.log + groupOutLen group slaves)
      (((ecCreateLogicalMapping group pd slaves).2.filter
        (EcSlave.inGroup group)).flatMap (EcSlave.dirWindows true)) := by
  rw [groupOutLen_eq]
  exact dirWindows_packed group pd slaves true

theorem inputs_packed :
    Window.Packed (pd.log + groupOutLen group slaves)
      (pd.log + (groupOutLen group slaves + groupInLen group slaves))
      (((ecCreateLogicalMapping group pd slaves).2.filter
        (EcSlave.inGroup group)).flatMap (EcSlave.dirWindows false)) := by
  rw [← Nat.add_assoc, groupInLen_eq]
  exact dirWindows_packed group pd slaves false

end Separate

theorem filter_flatMap_pdWindows (d : Bool) (slaves : List EcSlave) :
    (slaves.flatMap EcSlave.pdWindows).filter (fun w => w.isOutput == d) =
      slaves.flatMap (EcSlave.dirWindows d) :=
  List.filter_flatMap

theorem mem_flatMap_dirWindows {slaves : List EcSlave} {slv : EcSlave} {w : Window}
    (hs : slv ∈ slaves) (hw : w ∈ slv.pdWindows) :
    w ∈ slaves.flatMap (EcSlave.dirWindows w.isOutput) :=
  List.mem_flatMap.2 ⟨slv, hs, List.mem_filter.2 ⟨hw, by simp⟩⟩

/-- **The mapping of a group is a partition** of its window. -/
theorem separate_partitioned (group : ℕ) (pd : EcPdGroup) (slaves : List EcSlave)
    (hlen : ∀ slv ∈ slaves, slv.inGroup group = true → slv.pdout.len = 0 ∧ slv.pdin.len = 0) :
    Partitioned group (ecCreateLogicalMapping group pd slaves).1
      (ecCreateLogicalMapping group pd slaves).2 := by
  have hout := Separate.outputs_packed group pd slaves
  have hin := Separate.inputs_packed group pd slaves
  refine { disjoint := ?_, outputs := ?_, inputs := ?_, pointers := ?_ }
  · rw [← filter_flatMap_pdWindows] at hout hin
    exact Window.pairwise_disjoint_of_split hout hin
  · intro slv hs w hw ho
    have hmem := mem_flatMap_dirWindows hs hw
    rw [ho] at hmem
    exact hout.region_subset w hmem
  · intro slv hs w hw ho
    have hmem := mem_flatMap_dirWindows hs hw
    rw [ho] at hmem
    exact hin.region_subset w hmem
  · rw [Separate.slaves_inGroup]
    refine Separate.ptrMatches_thread pd.logMbxState (fun slv hs d => ?_) fun d => ?_
    · obtain ⟨h1, h2⟩ := hlen slv (List.mem_filter.1 hs).1 (List.mem_filter.1 hs).2
      cases d
      · exact h2
      · exact h1
    · cases d <;> rfl

end LibEthercat
