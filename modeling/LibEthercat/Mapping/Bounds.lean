import LibEthercat.Mapping.WorkingCounter

/-!
# No mapping overflows

The model counts in natural numbers where the source has 16-bit working counters and 32-bit
logical addresses. With the table sizes of the source, a mapping stays inside both.

* `groupBytes_le`, `mapping_log_lt` — logical addresses.
* `mapping_wkc_lt` — expected working counters.
-/

namespace LibEthercat

/-- The slaves fit the tables of the master and of the slaves. -/
structure WithinTables (slaves : List EcSlave) : Prop where
  slaveCnt : slaves.length ≤ lecMaxSlaves
  smCh : ∀ slv ∈ slaves, slv.sm.length ≤ lecMaxSlaveSm

theorem sum_map_le {α : Type*} {f : α → ℕ} {b : ℕ} {as : List α} (h : ∀ a ∈ as, f a ≤ b) :
    (as.map f).sum ≤ as.length * b := by
  induction as with
  | nil => simp
  | cons a as ih =>
    have ha := h a List.mem_cons_self
    have has := ih fun x hx => h x (List.mem_cons_of_mem a hx)
    rw [List.map_cons, List.sum_cons, List.length_cons, Nat.succ_mul]
    omega

/-- A bound for every slave gives one for the group. -/
theorem WithinTables.sum_le {slaves : List EcSlave} (h : WithinTables slaves) (group : ℕ)
    {len : EcSlave → ℕ} {b : ℕ} (hlen : ∀ slv ∈ slaves, len slv ≤ b) :
    ((slaves.filter (EcSlave.inGroup group)).map len).sum ≤ lecMaxSlaves * b := by
  have hfilter : (slaves.filter (EcSlave.inGroup group)).length ≤ lecMaxSlaves :=
    (List.length_filter_le _ _).trans h.slaveCnt
  refine (sum_map_le fun slv hs => hlen slv (List.mem_filter.1 hs).1).trans ?_
  exact Nat.mul_le_mul_right b hfilter

theorem smLen_true_add_false_le (sms : List EcSlaveSm) :
    smLen true sms + smLen false sms ≤ sms.length * 65535 := by
  induction sms with
  | nil => simp
  | cons sm sms ih =>
    have hlt := sm.len.toNat_lt
    rw [smLen_cons, smLen_cons, List.length_cons]
    cases sm.isOutput <;> simp only [reduceCtorEq, if_true, if_false] <;> omega

theorem WithinTables.pdSm_length {slaves : List EcSlave} (h : WithinTables slaves) {slv : EcSlave}
    (hs : slv ∈ slaves) : slv.pdSm.length ≤ lecMaxSlaveSm := by
  rw [EcSlave.pdSm, List.length_drop]
  exact (Nat.sub_le _ _).trans (h.smCh slv hs)

theorem groupBytes_eq (group : ℕ) (slaves : List EcSlave) : groupBytes group slaves =
    ((slaves.filter (EcSlave.inGroup group)).map fun slv =>
      smLen true slv.pdSm + smLen false slv.pdSm).sum := by
  rw [groupBytes, Separate.groupOutLen_eq, Separate.groupInLen_eq]
  induction slaves.filter (EcSlave.inGroup group) with
  | nil => rfl
  | cons slv slvs ih =>
    simp only [List.map_cons, List.sum_cons]
    omega

theorem groupBytes_le {slaves : List EcSlave} (h : WithinTables slaves) (group : ℕ) :
    groupBytes group slaves ≤ lecMaxSlaves * (lecMaxSlaveSm * 65535) := by
  rw [groupBytes_eq]
  refine h.sum_le group fun slv hs => (smLen_true_add_false_le _).trans ?_
  exact Nat.mul_le_mul_right _ (h.pdSm_length hs)

/-- No logical address of a group passes 32 bits. -/
theorem mapping_log_lt {slaves : List EcSlave} (h : WithinTables slaves) (group : ℕ)
    {pd : EcPdGroup} (hlog : pd.log ≤ 0x10000 * lecMaxGroups) :
    pd.log + groupBytes group slaves < 2 ^ 32 := by
  have hbytes := groupBytes_le h group
  simp only [lecMaxGroups, lecMaxSlaves, lecMaxSlaveSm] at hlog hbytes
  omega

theorem mappedCount_add_le (slv : EcSlave) :
    slv.mappedCount false + 2 * slv.mappedCount true ≤ 2 * slv.pdSm.length := by
  have hsplit : slv.mappedCount true + slv.mappedCount false = slv.mapped.length := by
    rw [List.length_eq_countP_add_countP fun w : Window => w.isOutput == true]
    congr 1
    exact List.countP_congr fun w _ => by cases w.isOutput <;> simp
  have hlen : slv.mapped.length ≤ slv.pdSm.length := by
    rw [EcSlave.mapped, List.length_take, place_length]
    exact (Nat.min_le_right _ _).trans List.countP_le_length
  omega

/-- No expected working counter of LRW passes 16 bits. -/
theorem mapping_wkc_lt {slaves : List EcSlave} (h : WithinTables slaves) (group : ℕ)
    (pd : EcPdGroup) :
    (ecCreateLogicalMappingOverlapping group pd slaves).1.wkcExpectedLrw < 2 ^ 16 ∧
      (ecCreateLogicalMapping group pd slaves).1.wkcExpectedLrw < 2 ^ 16 := by
  have hslave : ∀ slv ∈ slaves, slv.mappedCount false + 2 * slv.mappedCount true ≤ 16 := by
    intro slv hs
    have hlen := h.pdSm_length hs
    have hcount := mappedCount_add_le slv
    simp only [lecMaxSlaveSm] at hlen
    omega
  have hover := h.sum_le group fun slv hs => (mappedIncrement_le slv).trans (hslave slv hs)
  have hsep := h.sum_le group hslave
  rw [overlapping_lrw, separate_lrw]
  simp only [lecMaxSlaves] at hover hsep
  constructor <;> omega

end LibEthercat
