import Mathlib.Algebra.Order.BigOperators.Group.List
import Mathlib.Algebra.Order.Group.Nat
import LibEthercat.Mapping.Groups

/-!
# The expected working counter of LRW

A slave that is addressed by an LRW adds 2 to the working counter if it takes outputs and 1 if it
gives inputs, however many FMMUs it uses for either. The overlapping mapping counts just that.
The mapping without overlap counts sync managers.

* `overlapping_lrw` — the overlapping mapping expects what the bus returns.
* `separate_lrw` — the other one expects 2 for every mapped output and 1 for every mapped input.
* `wkcExpectedLrw_iff` — so both are right, and agree, when no slave of the group has two of a
  kind.
-/

namespace LibEthercat

/-! ## The bus -/

/-- What a slave adds to the working counter of an LRW over the window of its group. -/
def EcSlave.lrwIncrement (slv : EcSlave) : ℕ :=
  (if slv.dirWindows true ≠ [] then 2 else 0) + (if slv.dirWindows false ≠ [] then 1 else 0)

/-- The working counter with which the LRW comes back. -/
def busLrwWkc (group : ℕ) (slaves : List EcSlave) : ℕ :=
  ((slaves.filter (EcSlave.inGroup group)).map EcSlave.lrwIncrement).sum

/-- How many mapped sync managers of one direction a slave has. -/
def EcSlave.mappedCount (d : Bool) (slv : EcSlave) : ℕ :=
  slv.mapped.countP fun w => w.isOutput == d

/-- The increment by what the mapping has to put into FMMUs. -/
def EcSlave.mappedIncrement (slv : EcSlave) : ℕ :=
  (if slv.mappedCount true ≠ 0 then 2 else 0) + (if slv.mappedCount false ≠ 0 then 1 else 0)

theorem SlaveMapped.dirWindows_length {slv slv' : EcSlave} {ptr log : Bool → ℕ}
    (h : SlaveMapped slv ptr log slv') (d : Bool) :
    (slv'.dirWindows d).length = slv.mappedCount d := by
  rw [EcSlave.dirWindows, h.windows, ← List.countP_eq_length_filter, List.countP_map]
  rfl

theorem SlaveMapped.lrwIncrement {slv slv' : EcSlave} {ptr log : Bool → ℕ}
    (h : SlaveMapped slv ptr log slv') : slv'.lrwIncrement = slv.mappedIncrement := by
  simp only [EcSlave.lrwIncrement, EcSlave.mappedIncrement, ← h.dirWindows_length, ne_eq,
    List.length_eq_zero_iff]

/-! ## What the two functions count -/

/-- Bit 1 for outputs, bit 0 for inputs. -/
def wkcBits (o i : Bool) : ℕ := (if o then 2 else 0) + (if i then 1 else 0)

theorem foldl_count_overlapping (c : Overlapping.Locals) (ws : List Window) (o i : Bool) :
    ws.foldl (Overlapping.smLoop c).count (wkcBits o i) =
      wkcBits (o || ws.any fun w => w.isOutput == true) (i || ws.any fun w => w.isOutput == false)
    := by
  induction ws generalizing o i with
  | nil => simp
  | cons w ws ih =>
    have hstep : (Overlapping.smLoop c).count (wkcBits o i) w =
        wkcBits (o || (w.isOutput == true)) (i || (w.isOutput == false)) := by
      cases h : w.isOutput <;> cases o <;> cases i <;>
        simp [SmLoop.count, Overlapping.smLoop, h, wkcBits]
    rw [List.foldl_cons, hstep, ih, List.any_cons, List.any_cons, Bool.or_assoc, Bool.or_assoc]

theorem foldl_count_separate (ws : List Window) (wkc : Separate.Wkc) :
    ws.foldl Separate.smLoop.count wkc =
      ⟨wkc.lrd + ws.countP (fun w => w.isOutput == false),
        wkc.lwr + ws.countP (fun w => w.isOutput == true)⟩ := by
  induction ws generalizing wkc with
  | nil => rfl
  | cons w ws ih =>
    rw [List.foldl_cons, ih]
    cases h : w.isOutput <;>
      simp [SmLoop.count, Separate.smLoop, h, Nat.add_assoc, Nat.add_comm 1]

theorem any_eq_mappedCount (d : Bool) (slv : EcSlave) :
    (slv.mapped.any fun w => w.isOutput == d) = decide (slv.mappedCount d ≠ 0) := by
  rw [EcSlave.mappedCount, Bool.eq_iff_iff, List.any_eq_true, decide_eq_true_iff,
    ← Nat.pos_iff_ne_zero, List.countP_pos_iff]

section Slave

variable {ω : Type} (m : SmLoop ω) (l : SmLocals ω) (slv : EcSlave)

theorem mapSms_wkc (hl : l.fmmuNext = 0) :
    (mapSms m l slv).1.wkc = slv.mapped.foldl m.count l.wkc := by
  rw [(mapSms_mapped m l slv).wkc, hl, Nat.sub_zero, take_place, foldl_count_shiftWindow]

end Slave

theorem Overlapping.mapSlave_lrw (logMbxState : ℕ) (c : Overlapping.Locals) (slv : EcSlave) :
    (mapSlave logMbxState c slv).1.wkcExpectedLrw = c.wkcExpectedLrw + slv.mappedIncrement := by
  have h : (mapSms (smLoop c) (smLocals c) slv).1.wkc = slv.mappedIncrement := by
    have hzero : (smLocals c).wkc = wkcBits false false := rfl
    rw [mapSms_wkc _ _ _ rfl, hzero, foldl_count_overlapping, any_eq_mappedCount,
      any_eq_mappedCount]
    simp [wkcBits, EcSlave.mappedIncrement]
  exact congrArg (c.wkcExpectedLrw + ·) h

theorem Separate.mapSlave_lrw (logMbxState : ℕ) (c : Separate.Locals) (slv : EcSlave) :
    (mapSlave logMbxState c slv).1.wkcExpectedLrw =
      c.wkcExpectedLrw + (slv.mappedCount false + 2 * slv.mappedCount true) := by
  have h : (mapSms smLoop (smLocals c) slv).1.wkc =
      ⟨slv.mappedCount false, slv.mappedCount true⟩ := by
    have hzero : (smLocals c).wkc = ⟨0, 0⟩ := rfl
    rw [mapSms_wkc _ _ _ rfl, hzero, foldl_count_separate]
    simp [EcSlave.mappedCount]
  have hsum : (mapSlave logMbxState c slv).1.wkcExpectedLrw = c.wkcExpectedLrw +
      ((mapSms smLoop (smLocals c) slv).1.wkc.lrd +
        2 * (mapSms smLoop (smLocals c) slv).1.wkc.lwr) := rfl
  rw [hsum, h]

/-! ## The group -/

/-- The slaves of the group by what the mapping has to put into FMMUs. -/
theorem thread_lrwIncrement {σ : Type} {f : σ → EcSlave → σ × EcSlave}
    (hf : ∀ c slv, (f c slv).2.lrwIncrement = slv.mappedIncrement) (c : σ)
    (slvs : List EcSlave) :
    ((Loop.thread f c slvs).2.map EcSlave.lrwIncrement).sum =
      (slvs.map EcSlave.mappedIncrement).sum := by
  induction slvs generalizing c with
  | nil => rfl
  | cons slv slvs ih => simp only [Loop.thread_cons, List.map_cons, List.sum_cons, hf, ih]

section Group

variable (group : ℕ) (pd : EcPdGroup) (slaves : List EcSlave)

theorem busLrwWkc_overlapping :
    busLrwWkc group (ecCreateLogicalMappingOverlapping group pd slaves).2 =
      ((slaves.filter (EcSlave.inGroup group)).map EcSlave.mappedIncrement).sum := by
  rw [busLrwWkc, Overlapping.slaves_inGroup]
  exact thread_lrwIncrement
    (fun c slv => (Overlapping.mapSlave_slaveMapped pd.logMbxState c slv).lrwIncrement) _ _

theorem busLrwWkc_separate :
    busLrwWkc group (ecCreateLogicalMapping group pd slaves).2 =
      ((slaves.filter (EcSlave.inGroup group)).map EcSlave.mappedIncrement).sum := by
  rw [busLrwWkc, Separate.slaves_inGroup]
  exact thread_lrwIncrement
    (fun c slv => (Separate.mapSlave_slaveMapped pd.logMbxState c slv).lrwIncrement) _ _

/-- **The overlapping mapping expects what the bus returns.** -/
theorem overlapping_lrw :
    (ecCreateLogicalMappingOverlapping group pd slaves).1.wkcExpectedLrw =
      ((slaves.filter (EcSlave.inGroup group)).map EcSlave.mappedIncrement).sum := by
  have hloop := (Loop.threadIf_filter
    (fun c slv => Overlapping.mapSlave_inGroup pd.logMbxState c slv group)
    (Overlapping.start group pd slaves) slaves).1
  have hsum := Loop.thread_pos_eq Overlapping.Locals.wkcExpectedLrw
    (Overlapping.mapSlave_lrw pd.logMbxState) (Overlapping.start group pd slaves)
    (slaves.filter (EcSlave.inGroup group))
  rw [← hloop] at hsum
  exact hsum.trans (Nat.zero_add _)

/-- **The mapping without overlap expects more**: 2 for every mapped output sync manager and 1
for every mapped input sync manager. -/
theorem separate_lrw :
    (ecCreateLogicalMapping group pd slaves).1.wkcExpectedLrw =
      ((slaves.filter (EcSlave.inGroup group)).map fun slv =>
        slv.mappedCount false + 2 * slv.mappedCount true).sum := by
  have hloop := (Loop.threadIf_filter
    (fun c slv => Separate.mapSlave_inGroup pd.logMbxState c slv group)
    (Separate.start group pd slaves) slaves).1
  have hsum := Loop.thread_pos_eq Separate.Locals.wkcExpectedLrw
    (Separate.mapSlave_lrw pd.logMbxState) (Separate.start group pd slaves)
    (slaves.filter (EcSlave.inGroup group))
  rw [← hloop] at hsum
  exact hsum.trans (Nat.zero_add _)

end Group

theorem mappedIncrement_le (slv : EcSlave) :
    slv.mappedIncrement ≤ slv.mappedCount false + 2 * slv.mappedCount true := by
  rw [EcSlave.mappedIncrement]
  split_ifs <;> omega

theorem mappedIncrement_eq_iff (slv : EcSlave) :
    slv.mappedCount false + 2 * slv.mappedCount true = slv.mappedIncrement ↔
      ∀ d, slv.mappedCount d ≤ 1 := by
  have hd : (∀ d, slv.mappedCount d ≤ 1) ↔
      slv.mappedCount false ≤ 1 ∧ slv.mappedCount true ≤ 1 := Bool.forall_bool
  rw [hd, EcSlave.mappedIncrement]
  split_ifs <;> omega

/-- Two sums of which one is larger entry by entry are equal when all entries are. -/
theorem sum_eq_sum_iff {α : Type*} {f g : α → ℕ} (hle : ∀ a, g a ≤ f a) (as : List α) :
    (as.map f).sum = (as.map g).sum ↔ ∀ a ∈ as, f a = g a := by
  induction as with
  | nil => simp
  | cons a as ih =>
    have hsum : (as.map g).sum ≤ (as.map f).sum := List.sum_le_sum fun b _ => hle b
    have ha := hle a
    rw [List.map_cons, List.map_cons, List.sum_cons, List.sum_cons, List.forall_mem_cons, ← ih]
    omega

/-- **When the working counters are right.** Both mapping functions expect what the bus returns,
and so the same, if and only if no slave of the group has two mapped sync managers of the same
direction. -/
theorem wkcExpectedLrw_iff (group : ℕ) (pd : EcPdGroup) (slaves : List EcSlave) :
    ((ecCreateLogicalMappingOverlapping group pd slaves).1.wkcExpectedLrw =
        busLrwWkc group (ecCreateLogicalMappingOverlapping group pd slaves).2 ∧
      (ecCreateLogicalMapping group pd slaves).1.wkcExpectedLrw =
        busLrwWkc group (ecCreateLogicalMapping group pd slaves).2 ∧
      (ecCreateLogicalMapping group pd slaves).1.wkcExpectedLrw =
        (ecCreateLogicalMappingOverlapping group pd slaves).1.wkcExpectedLrw) ↔
      ∀ slv ∈ slaves, slv.inGroup group = true → ∀ d, slv.mappedCount d ≤ 1 := by
  have hsum := sum_eq_sum_iff mappedIncrement_le (slaves.filter (EcSlave.inGroup group))
  rw [overlapping_lrw, separate_lrw, busLrwWkc_overlapping, busLrwWkc_separate, hsum]
  simp only [mappedIncrement_eq_iff, List.mem_filter, true_and, and_self, and_imp]

/-- One slave with two outputs: the mapping without overlap expects 4, the bus returns 2. -/
theorem wkcExpectedLrw_two_outputs :
    (ecCreateLogicalMapping 0 (EcPdGroup.zero.create 0)
        [.scanned 0 0 [⟨0x1000, 4, 4⟩, ⟨0x1100, 4, 4⟩] 2]).1.wkcExpectedLrw ≠
      busLrwWkc 0 (ecCreateLogicalMapping 0 (EcPdGroup.zero.create 0)
        [.scanned 0 0 [⟨0x1000, 4, 4⟩, ⟨0x1100, 4, 4⟩] 2]).2 := by
  decide

end LibEthercat
