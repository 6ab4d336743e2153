import LibEthercat.Mapping.Bounds
import LibEthercat.ProcessData

/-!
# The bits of the mailbox state

Both mapping functions give a bit of the mailbox state window to every slave of the group that has
a mailbox and an FMMU left. `cb_lrd_mbx_state` looks at the bit of every slave of the group that has
a mailbox: one without an FMMU has whatever number was there before.

* `mbxMapped_overlapping`, `mbxMapped_separate` — the bits are numbered without a gap, and every
  FMMU shows the bit of its slave.
* `mbx_state_bits` — the callback tells the slaves apart if all slaves with a mailbox have a bit, or
  none has.
-/

namespace LibEthercat

/-! ## Slaves with a bit -/

/-- How many FMMUs the process data asks for; the next one is for the mailbox. -/
def EcSlave.pdSmCount (slv : EcSlave) : ℕ := slv.pdSm.countP fun sm => !sm.isEmpty

/-- The slave gets an FMMU for the state of its mailbox. -/
def EcSlave.getsMbxState (slv : EcSlave) : Bool :=
  slv.mbxSupported ≠ 0 ∧ slv.pdSmCount < slv.fmmu.length

/-- The FMMU maps bit 3 of the status of sync manager 1 to this bit of the window. -/
structure EcSlaveFmmu.ShowsBit (f : EcSlaveFmmu) (logMbxState bit : ℕ) : Prop where
  log : f.log = logMbxState + bit / 8
  logLen : f.logLen = 1
  logBitStart : f.logBitStart.toNat = bit % 8
  logBitStop : f.logBitStop.toNat = bit % 8
  phys : f.phys = ecRegSm1stat
  physBitStart : f.physBitStart = 3
  type : f.type = 1
  active : f.active = 1

theorem EcSlave.SameConfig.getsMbxState {slv slv' : EcSlave} (h : slv.SameConfig slv') :
    slv'.getsMbxState = slv.getsMbxState := by
  rw [EcSlave.getsMbxState, EcSlave.getsMbxState, pdSmCount, pdSmCount, h.pdSm, h.mbxSupported,
    h.fmmu_length]

/-! ## The loop over the slaves -/

/-- What a pass of either mapping function does for the mailbox state; `bitlen` and `wkc` are the
locals that count the bits. -/
structure MbxPass {σ : Type} (logMbxState : ℕ) (bitlen wkc : σ → ℕ)
    (f : σ → EcSlave → σ × EcSlave) : Prop where
  config : ∀ c (slv : EcSlave), slv.SameConfig (f c slv).2
  bitlen_succ : ∀ c slv, bitlen (f c slv).1 = bitlen c + if slv.getsMbxState = true then 1 else 0
  wkc_succ : ∀ c slv, wkc (f c slv).1 = wkc c + if slv.getsMbxState = true then 1 else 0
  bitno : ∀ c slv, slv.getsMbxState = true → (f c slv).2.mbx.smStateBitno = bitlen c
  fmmu : ∀ c slv, slv.getsMbxState = true →
    ∃ e, (f c slv).2.fmmu[slv.pdSmCount]? = some e ∧ e.ShowsBit logMbxState (bitlen c)

theorem mapMbxState_showsBit (e : EcSlaveFmmu) (logMbxState bitlen : ℕ) :
    (e.mapMbxState logMbxState bitlen).ShowsBit logMbxState bitlen := by
  have h : (UInt8.ofNat (bitlen % 8)).toNat = bitlen % 8 := by
    rw [UInt8.toNat_ofNat', Nat.mod_eq_of_lt (by omega)]
  exact ⟨rfl, rfl, h, h, rfl, rfl, rfl, rfl⟩

section Slave

variable {ω : Type} (m : SmLoop ω) (l : SmLocals ω) (slv : EcSlave)

/-- The FMMU of the mailbox comes behind those of the process data. -/
theorem mapSms_fmmuNext (hl : l.fmmuNext = 0) : (mapSms m l slv).1.fmmuNext = slv.pdSmCount := by
  rw [(mapSms_mapped m l slv).fmmuNext, hl, place_length, Nat.zero_add, EcSlave.pdSmCount]

/-- The mailbox part of a pass. -/
theorem mapMbxState_pass (hl : l.fmmuNext = 0) (logMbxState bitlen : ℕ) :
    let r := mapSms m l slv
    let b := mapMbxState logMbxState bitlen r.1.fmmuNext r.2
    (b.1 = if slv.getsMbxState = true then 1 else 0) ∧
      (slv.getsMbxState = true → b.2.mbx.smStateBitno = bitlen ∧
        ∃ e, b.2.fmmu[slv.pdSmCount]? = some e ∧ e.ShowsBit logMbxState bitlen) := by
  have hm := mapSms_mapped m l slv
  have hsupp : (mapSms m l slv).2.mbxSupported = slv.mbxSupported := by rw [hm.frame]
  simp only [mapMbxState, mapSms_fmmuNext m l slv hl, hsupp, hm.fmmu_length, EcSlave.getsMbxState,
    decide_eq_true_eq]
  by_cases h1 : slv.mbxSupported ≠ 0
  · by_cases h2 : slv.pdSmCount < slv.fmmu.length
    · rw [if_pos h1, if_pos h2, if_pos ⟨h1, h2⟩]
      have hlt : slv.pdSmCount < (mapSms m l slv).2.fmmu.length := by rwa [hm.fmmu_length]
      refine ⟨rfl, fun _ => ⟨rfl, (mapSms m l slv).2.fmmu[slv.pdSmCount].mapMbxState logMbxState
        bitlen, ?_, mapMbxState_showsBit _ logMbxState bitlen⟩⟩
      simp [List.getElem?_modify_eq, List.getElem?_eq_getElem hlt]
    · rw [if_pos h1, if_neg h2, if_neg (fun h => h2 h.2)]
      exact ⟨rfl, fun h => absurd h.2 h2⟩
  · rw [if_neg h1, if_neg (fun h => h1 h.1)]
    exact ⟨rfl, fun h => absurd h.1 h1⟩

end Slave

theorem mbxPass_overlapping (logMbxState : ℕ) :
    MbxPass logMbxState Overlapping.Locals.mbxStateBitlen
      Overlapping.Locals.wkcExpectedMbxState (Overlapping.mapSlave logMbxState) := by
  have h := fun c slv => mapMbxState_pass (Overlapping.smLoop c) (Overlapping.smLocals c) slv rfl
    logMbxState c.mbxStateBitlen
  refine ⟨Overlapping.mapSlave_config logMbxState, fun c slv => ?_, fun c slv => ?_,
    fun c slv hgot => ((h c slv).2 hgot).1, fun c slv hgot => ((h c slv).2 hgot).2⟩
  · exact congrArg (c.mbxStateBitlen + ·) (h c slv).1
  · exact congrArg (c.wkcExpectedMbxState + ·) (h c slv).1

theorem mbxPass_separate (logMbxState : ℕ) :
    MbxPass logMbxState Separate.Locals.mbxStateBitlen
      Separate.Locals.wkcExpectedMbxState (Separate.mapSlave logMbxState) := by
  have h := fun c slv => mapMbxState_pass Separate.smLoop (Separate.smLocals c) slv rfl
    logMbxState c.mbxStateBitlen
  refine ⟨Separate.mapSlave_config logMbxState, fun c slv => ?_, fun c slv => ?_,
    fun c slv hgot => ((h c slv).2 hgot).1, fun c slv hgot => ((h c slv).2 hgot).2⟩
  · exact congrArg (c.mbxStateBitlen + ·) (h c slv).1
  · exact congrArg (c.wkcExpectedMbxState + ·) (h c slv).1

/-! ## The group -/

/-- The slaves of the group that have a bit. -/
def EcSlave.hasBit (group : ℕ) (slv : EcSlave) : Bool := slv.inGroup group && slv.getsMbxState

/-- What a mapping of the group does for the mailbox state, from the slaves before it. -/
structure MbxMapped (group : ℕ) (pd : EcPdGroup) (slaves : List EcSlave)
    (r : EcPdGroup × List EcSlave) : Prop where
  config : List.Forall₂ EcSlave.SameConfig slaves r.2
  sameGroup : r.1.group = pd.group
  expected : r.1.wkcExpectedMbxState = slaves.countP (EcSlave.hasBit group)
  len : r.1.logMbxStateLen = (slaves.countP (EcSlave.hasBit group) + 7) / 8
  numbered : (r.2.filter (EcSlave.hasBit group)).map (fun slv => slv.mbx.smStateBitno) =
    List.range (slaves.countP (EcSlave.hasBit group))
  shown : ∀ slv ∈ r.2, slv.hasBit group = true →
    ∃ e, slv.fmmu[slv.pdSmCount]? = some e ∧ e.ShowsBit r.1.logMbxState slv.mbx.smStateBitno

theorem EcSlave.SameConfig.hasBit {slv slv' : EcSlave} (h : slv.SameConfig slv') (group : ℕ) :
    slv'.hasBit group = slv.hasBit group := by
  rw [EcSlave.hasBit, EcSlave.hasBit, h.inGroup, h.getsMbxState]

section Group

variable {σ : Type} {logMbxState : ℕ} {bitlen wkc : σ → ℕ} {f : σ → EcSlave → σ × EcSlave}

theorem MbxPass.inGroup (h : MbxPass logMbxState bitlen wkc f) (group : ℕ) (c : σ)
    (slv : EcSlave) (hg : slv.inGroup group = true) : (f c slv).2.inGroup group = true := by
  rwa [(h.config c slv).inGroup]

theorem MbxPass.numbered (h : MbxPass logMbxState bitlen wkc f) (group : ℕ) {c : σ}
    (hc : bitlen c = 0) (slaves : List EcSlave) :
    (((Loop.threadIf (EcSlave.inGroup group) f c slaves).2.filter (EcSlave.hasBit group)).map
      fun slv => slv.mbx.smStateBitno) = List.range (slaves.countP (EcSlave.hasBit group)) := by
  have := Loop.threadIf_number bitlen (fun slv => slv.mbx.smStateBitno) EcSlave.getsMbxState
    (fun c slv => h.inGroup group c slv) (fun c slv _ => (h.config c slv).getsMbxState)
    (fun c slv _ => h.bitlen_succ c slv) (fun c slv _ => h.bitno c slv) c slaves
  rwa [hc, ← List.range_eq_range'] at this

theorem MbxPass.shown (h : MbxPass logMbxState bitlen wkc f) (group : ℕ) (c : σ)
    (slaves : List EcSlave) : ∀ slv ∈ (Loop.threadIf (EcSlave.inGroup group) f c slaves).2,
      slv.hasBit group = true →
        ∃ e, slv.fmmu[slv.pdSmCount]? = some e ∧ e.ShowsBit logMbxState slv.mbx.smStateBitno := by
  induction slaves generalizing c with
  | nil => simp [Loop.threadIf]
  | cons a as ih =>
    intro slv hslv hbit
    cases ha : a.inGroup group with
    | false =>
      simp only [Loop.threadIf, ha, Bool.false_eq_true, if_false] at hslv
      rcases List.mem_cons.1 hslv with rfl | hslv
      · rw [EcSlave.hasBit, ha] at hbit
        cases hbit
      · exact ih c slv hslv hbit
    | true =>
      simp only [Loop.threadIf, ha, if_true] at hslv
      rcases List.mem_cons.1 hslv with rfl | hslv
      · have hconfig := h.config c a
        rw [hconfig.hasBit, EcSlave.hasBit, ha, Bool.true_and] at hbit
        rw [h.bitno c a hbit, EcSlave.pdSmCount, hconfig.pdSm]
        exact h.fmmu c a hbit
      · exact ih _ slv hslv hbit

theorem MbxPass.config_forall₂ (h : MbxPass logMbxState bitlen wkc f) (group : ℕ) (c : σ)
    (slaves : List EcSlave) : List.Forall₂ EcSlave.SameConfig slaves
      (Loop.threadIf (EcSlave.inGroup group) f c slaves).2 :=
  Loop.threadIf_forall₂ (fun slv _ => EcSlave.SameConfig.refl slv) (fun c slv _ => h.config c slv)
    c slaves

end Group

/-- **The overlapping mapping** numbers the bits and shows them. -/
theorem mbxMapped_overlapping (group : ℕ) (pd : EcPdGroup) (slaves : List EcSlave) :
    MbxMapped group pd slaves (ecCreateLogicalMappingOverlapping group pd slaves) := by
  have h := mbxPass_overlapping pd.logMbxState
  have hbits := Loop.threadIf_count Overlapping.Locals.mbxStateBitlen EcSlave.getsMbxState
    (fun c slv (_ : slv.inGroup group = true) => h.bitlen_succ c slv)
  have hwkc := Loop.threadIf_count Overlapping.Locals.wkcExpectedMbxState EcSlave.getsMbxState
    (fun c slv (_ : slv.inGroup group = true) => h.wkc_succ c slv)
  refine ⟨h.config_forall₂ group _ slaves, rfl, ?_, ?_, h.numbered group (by rfl) slaves,
    h.shown group _ slaves⟩
  · exact (hwkc _ slaves).trans (Nat.zero_add _)
  · exact congrArg (fun n => (n + 7) / 8) ((hbits _ slaves).trans (Nat.zero_add _))

/-- **The mapping without overlap** does so as well. -/
theorem mbxMapped_separate (group : ℕ) (pd : EcPdGroup) (slaves : List EcSlave) :
    MbxMapped group pd slaves (ecCreateLogicalMapping group pd slaves) := by
  have h := mbxPass_separate pd.logMbxState
  have hbits := Loop.threadIf_count Separate.Locals.mbxStateBitlen EcSlave.getsMbxState
    (fun c slv (_ : slv.inGroup group = true) => h.bitlen_succ c slv)
  have hwkc := Loop.threadIf_count Separate.Locals.wkcExpectedMbxState EcSlave.getsMbxState
    (fun c slv (_ : slv.inGroup group = true) => h.wkc_succ c slv)
  refine ⟨h.config_forall₂ group _ slaves, rfl, ?_, ?_, h.numbered group (by rfl) slaves,
    h.shown group _ slaves⟩
  · exact (hwkc _ slaves).trans (Nat.zero_add _)
  · exact congrArg (fun n => (n + 7) / 8) ((hbits _ slaves).trans (Nat.zero_add _))

/-! ## The callback -/

/-- What `cb_lrd_mbx_state` reads of the payload, the slaves whose `*sm_state` it sets, and those for
which it schedules a read of the mailbox. -/
structure MbxStateSeen where
  read : List ℕ
  smStateSet : List ℕ
  scheduled : List ℕ

/-- The bit of the slave is set. -/
def EcSlave.mbxBitSet (buf : ℕ → UInt8) (slv : EcSlave) : Bool :=
  (buf (slv.mbx.smStateBitno / 8)).toNat.testBit (slv.mbx.smStateBitno % 8)

/-- Slaves of another group, and slaves without a mailbox, are skipped. -/
def EcSlave.isChecked (group : ℕ) (slv : EcSlave) : Bool :=
  slv.inGroup group && decide (slv.mbxSupported ≠ 0)

def cbLrdMbxState (pd : EcPdGroup) (buf : ℕ → UInt8) (wkc : UInt16) (slaves : List EcSlave) :
    MbxStateSeen :=
  if wkc.toNat = pd.wkcExpectedMbxState % 2 ^ 16 then
    let checked := slaves.zipIdx.filter fun s => s.1.isChecked pd.group
    let seen := checked.filter fun s => s.1.mbxBitSet buf
    { read := checked.map fun s => s.1.mbx.smStateBitno / 8
      smStateSet := (seen.filter fun s => s.1.mbx.smState).map Prod.snd
      scheduled := seen.map Prod.snd }
  else ⟨[], [], []⟩

/-- The bits of a group identify its slaves: they are `0 .. n - 1`, each shown by the FMMU of its
slave and inside the window; and whatever comes back for the datagram of the window, the callback
schedules only slaves with a bit of their own that is set, and reads only bytes of the datagram. -/
structure MbxStateBits (group : ℕ) (idx : GroupIdx) (r : EcPdGroup × List EcSlave) : Prop where
  numbered : (r.2.filter (EcSlave.hasBit group)).map (fun slv => slv.mbx.smStateBitno) =
    List.range r.1.wkcExpectedMbxState
  inWindow : r.1.wkcExpectedMbxState ≤ 8 * r.1.logMbxStateLen
  shown : ∀ slv ∈ r.2, slv.hasBit group = true →
    ∃ e, slv.fmmu[slv.pdSmCount]? = some e ∧ e.ShowsBit r.1.logMbxState slv.mbx.smStateBitno
  scheduled : ∀ dg ∈ ecSendProcessDataGroup r.1 idx, dg.userCb = .cbLrdMbxState →
    ∀ buf wkc, ∀ i ∈ (cbLrdMbxState r.1 buf wkc r.2).scheduled,
      ∃ slv, r.2[i]? = some slv ∧ slv.hasBit group = true ∧ slv.mbxBitSet buf = true
  inside : ∀ dg ∈ ecSendProcessDataGroup r.1 idx, dg.userCb = .cbLrdMbxState →
    ∀ buf wkc, ∀ j ∈ (cbLrdMbxState r.1 buf wkc r.2).read, j < dg.len

/-- All slaves of the group with a mailbox have an FMMU left for its state, or none has. -/
def MbxFmmusSuffice (group : ℕ) (slaves : List EcSlave) : Prop :=
  (∀ slv ∈ slaves, slv.isChecked group = true → slv.hasBit group = true) ∨
    ∀ slv ∈ slaves, slv.hasBit group = false

/-- The datagram whose answer `cb_lrd_mbx_state` gets. -/
theorem forall_mbxState_iff {pd : EcPdGroup} {idx : GroupIdx} {P : PdDatagram → Prop} :
    (∀ dg ∈ ecSendProcessDataGroup pd idx, dg.userCb = .cbLrdMbxState → P dg) ↔
      (0 < pd.logMbxStateLen → P (pd.mbxStateDatagram idx)) := by
  by_cases huse : pd.useLrw = 1 <;> by_cases hmbx : 0 < pd.logMbxStateLen <;>
    by_cases hlog : 0 < pd.logLen <;>
    simp [ecSendProcessDataGroup, huse, hmbx, hlog, EcPdGroup.lrwDatagram, EcPdGroup.lwrDatagram,
      EcPdGroup.lrdDatagram, EcPdGroup.mbxStateDatagram]

theorem mem_scheduled {pd : EcPdGroup} {buf : ℕ → UInt8} {wkc : UInt16} {slaves : List EcSlave}
    {i : ℕ} : i ∈ (cbLrdMbxState pd buf wkc slaves).scheduled ↔
      wkc.toNat = pd.wkcExpectedMbxState % 2 ^ 16 ∧ ∃ slv, slaves[i]? = some slv ∧
        slv.isChecked pd.group = true ∧ slv.mbxBitSet buf = true := by
  unfold cbLrdMbxState
  split_ifs with h
  · simp only [h, true_and, List.mem_map, List.mem_filter, Prod.exists,
      List.mem_zipIdx_iff_getElem?]
    constructor
    · intro hi
      obtain ⟨slv, j, ⟨⟨hget, hcheck⟩, hset⟩, rfl⟩ := hi
      exact ⟨slv, hget, hcheck, hset⟩
    · intro hi
      obtain ⟨slv, hget, hcheck, hset⟩ := hi
      exact ⟨slv, i, ⟨⟨hget, hcheck⟩, hset⟩, rfl⟩
  · simp only [h, false_and, List.not_mem_nil]

theorem mem_read {pd : EcPdGroup} {buf : ℕ → UInt8} {wkc : UInt16} {slaves : List EcSlave}
    {j : ℕ} (hj : j ∈ (cbLrdMbxState pd buf wkc slaves).read) :
    ∃ slv ∈ slaves, slv.isChecked pd.group = true ∧ slv.mbx.smStateBitno / 8 = j := by
  unfold cbLrdMbxState at hj
  split_ifs at hj with h
  · simp only [List.mem_map, List.mem_filter, Prod.exists, List.mem_zipIdx_iff_getElem?] at hj
    obtain ⟨slv, i, ⟨hget, hcheck⟩, heq⟩ := hj
    exact ⟨slv, List.mem_of_getElem? hget, hcheck, heq⟩
  · cases hj

theorem forall_mem_congr {α β : Type*} {R : α → β → Prop} {P : α → Prop} {Q : β → Prop}
    (hPQ : ∀ a b, R a b → (P a ↔ Q b)) {as : List α} {bs : List β} (h : List.Forall₂ R as bs) :
    (∀ a ∈ as, P a) ↔ ∀ b ∈ bs, Q b := by
  induction h with
  | nil => simp
  | cons hab _ ih => simp [hPQ _ _ hab, ih]

theorem mbxFmmusSuffice_congr (group : ℕ) {slaves slaves' : List EcSlave}
    (h : List.Forall₂ EcSlave.SameConfig slaves slaves') :
    MbxFmmusSuffice group slaves ↔ MbxFmmusSuffice group slaves' := by
  refine or_congr (forall_mem_congr (fun a b hab => ?_) h) (forall_mem_congr (fun a b hab => ?_) h)
  · rw [EcSlave.isChecked, EcSlave.isChecked, hab.inGroup, hab.mbxSupported, hab.hasBit]
  · rw [hab.hasBit]

section Mapped

variable {group : ℕ} {pd : EcPdGroup} {slaves : List EcSlave} {r : EcPdGroup × List EcSlave}

/-- The bits are read when there is one. -/
theorem MbxMapped.sent_iff (h : MbxMapped group pd slaves r) (hcnt : slaves.length ≤ lecMaxSlaves) :
    0 < r.1.logMbxStateLen ↔ 0 < slaves.countP (EcSlave.hasBit group) := by
  have hle : slaves.countP (EcSlave.hasBit group) ≤ lecMaxSlaves :=
    List.countP_le_length.trans hcnt
  have hexp := h.expected
  have hlen := h.len
  simp only [lecMaxSlaves] at hle
  omega

theorem MbxMapped.length_hasBit (h : MbxMapped group pd slaves r) :
    (r.2.filter (EcSlave.hasBit group)).length = slaves.countP (EcSlave.hasBit group) := by
  have := congrArg List.length h.numbered
  rwa [List.length_map, List.length_range] at this

theorem MbxMapped.bitno_lt (h : MbxMapped group pd slaves r) {slv : EcSlave} (hslv : slv ∈ r.2)
    (hbit : slv.hasBit group = true) :
    slv.mbx.smStateBitno < slaves.countP (EcSlave.hasBit group) := by
  rw [← List.mem_range, ← h.numbered]
  exact List.mem_map_of_mem (List.mem_filter.2 ⟨hslv, hbit⟩)

/-- All bits of an answer. -/
theorem EcSlave.mbxBitSet_all (slv : EcSlave) : slv.mbxBitSet (fun _ => 255) = true := by
  have : (255 : UInt8).toNat = 2 ^ 8 - 1 := rfl
  rw [EcSlave.mbxBitSet, this, Nat.testBit_two_pow_sub_one, decide_eq_true_iff]
  omega

/-- A slave that is checked without a bit of its own is scheduled by that of another one. -/
theorem MbxMapped.suffice_of_bits (h : MbxMapped group pd slaves r) (hgroup : pd.group = group)
    (hcnt : slaves.length ≤ lecMaxSlaves) {idx : GroupIdx} (hbits : MbxStateBits group idx r) :
    MbxFmmusSuffice group r.2 := by
  have hg : r.1.group = group := h.sameGroup.trans hgroup
  by_contra hnot
  simp only [MbxFmmusSuffice, not_or, not_forall] at hnot
  obtain ⟨⟨bad, hbad, hcheck, hnone⟩, good, hgood, hbit⟩ := hnot
  have hmem : good ∈ r.2.filter (EcSlave.hasBit group) :=
    List.mem_filter.2 ⟨hgood, Bool.eq_true_of_not_eq_false hbit⟩
  have hsent := (h.sent_iff hcnt).2 (h.length_hasBit ▸ List.length_pos_of_mem hmem)
  obtain ⟨i, hi⟩ := List.mem_iff_getElem?.1 hbad
  have hset := bad.mbxBitSet_all
  have hsched : i ∈ (cbLrdMbxState r.1 (fun _ => 255)
      (UInt16.ofNat r.1.wkcExpectedMbxState) r.2).scheduled :=
    mem_scheduled.2 ⟨UInt16.toNat_ofNat', bad, hi, hg.symm ▸ hcheck, hset⟩
  obtain ⟨slv, hslv, hhas, -⟩ := forall_mbxState_iff.1 hbits.scheduled hsent _ _ i hsched
  rw [hi, Option.some.injEq] at hslv
  exact hnone (hslv ▸ hhas)

theorem MbxMapped.bits_of_suffice (h : MbxMapped group pd slaves r) (hgroup : pd.group = group)
    (hcnt : slaves.length ≤ lecMaxSlaves) (idx : GroupIdx) (hsuff : MbxFmmusSuffice group r.2) :
    MbxStateBits group idx r := by
  have hg : r.1.group = group := h.sameGroup.trans hgroup
  have hexp := h.expected
  have hlen := h.len
  have hchecked : 0 < r.1.logMbxStateLen → ∀ slv ∈ r.2, slv.isChecked group = true →
      slv.hasBit group = true := by
    intro hsent
    rcases hsuff with hall | hnone
    · exact hall
    · have hnil : r.2.filter (EcSlave.hasBit group) = [] :=
        List.filter_eq_nil_iff.2 fun slv hslv => by simp [hnone slv hslv]
      rw [h.sent_iff hcnt, ← h.length_hasBit, hnil] at hsent
      exact absurd hsent (Nat.lt_irrefl 0)
  have hle : r.1.wkcExpectedMbxState ≤ lecMaxSlaves :=
    hexp ▸ List.countP_le_length.trans hcnt
  simp only [lecMaxSlaves] at hle
  refine ⟨hexp ▸ h.numbered, by omega, h.shown, ?_, ?_⟩
  · refine forall_mbxState_iff.2 fun hsent buf wkc i hi => ?_
    obtain ⟨-, slv, hslv, hcheck, hset⟩ := mem_scheduled.1 hi
    rw [hg] at hcheck
    exact ⟨slv, hslv, hchecked hsent slv (List.mem_of_getElem? hslv) hcheck, hset⟩
  · refine forall_mbxState_iff.2 fun hsent buf wkc j hj => ?_
    obtain ⟨slv, hslv, hcheck, rfl⟩ := mem_read hj
    rw [hg] at hcheck
    have hlt := h.bitno_lt hslv (hchecked hsent slv hslv hcheck)
    simp only [EcPdGroup.mbxStateDatagram]
    omega

/-- When the bits of a mapped group identify its slaves. -/
theorem MbxMapped.bits_iff (h : MbxMapped group pd slaves r) (hgroup : pd.group = group)
    (hcnt : slaves.length ≤ lecMaxSlaves) (idx : GroupIdx) :
    MbxStateBits group idx r ↔ MbxFmmusSuffice group slaves := by
  rw [mbxFmmusSuffice_congr group h.config]
  exact ⟨h.suffice_of_bits hgroup hcnt, h.bits_of_suffice hgroup hcnt idx⟩

end Mapped

/-- **When the mailbox state bits identify slaves**, for both mapping functions. -/
theorem mbx_state_bits (group : ℕ) (pd : EcPdGroup) (slaves : List EcSlave) (idx : GroupIdx)
    (hgroup : pd.group = group) (hcnt : slaves.length ≤ lecMaxSlaves) :
    (MbxStateBits group idx (ecCreateLogicalMappingOverlapping group pd slaves) ↔
        MbxFmmusSuffice group slaves) ∧
      (MbxStateBits group idx (ecCreateLogicalMapping group pd slaves) ↔
        MbxFmmusSuffice group slaves) :=
  ⟨(mbxMapped_overlapping group pd slaves).bits_iff hgroup hcnt idx,
    (mbxMapped_separate group pd slaves).bits_iff hgroup hcnt idx⟩

/-- A slave with a mailbox, one output, and so many FMMUs. -/
def mbxSlave (fmmuCh : ℕ) : EcSlave :=
  .scanned 0 4 [⟨0x1000, 128, 0x26⟩, ⟨0x1080, 128, 0x22⟩, ⟨0x1100, 2, 0x64⟩] fmmuCh

theorem mbx_state_bits_two_fmmus :
    MbxStateBits 0 ⟨0, 1, 2, 3⟩
      (ecCreateLogicalMapping 0 EcPdGroup.zero [mbxSlave 2, mbxSlave 2]) :=
  (mbx_state_bits 0 EcPdGroup.zero [mbxSlave 2, mbxSlave 2] ⟨0, 1, 2, 3⟩ rfl (by decide)).2.2
    (Or.inl (by decide))

/-- The second slave has an FMMU for its output only, and shares bit 0 with the first one. -/
theorem mbx_state_bits_one_fmmu :
    ¬MbxStateBits 0 ⟨0, 1, 2, 3⟩
      (ecCreateLogicalMapping 0 EcPdGroup.zero [mbxSlave 2, mbxSlave 1]) := by
  rw [(mbxMapped_separate 0 EcPdGroup.zero [mbxSlave 2, mbxSlave 1]).bits_iff rfl (by decide)]
  unfold MbxFmmusSuffice
  decide

end LibEthercat
