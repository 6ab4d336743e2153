import LibEthercat.Hw.Rx
import LibEthercat.Mapping.MbxState

/-!
# The size of a process image

The lengths of a group are sums over its sync managers. They are used as offsets into `pd[]`, as the
length of what is cleared in a pool entry, and as a length field of 11 bits; none of them is
compared with any of the three.

* `overlapping_regions`, `separate_regions` — the process data of the slaves lie inside what the
  group has.
* `process_image_fits` — the sums with which a group fits.
-/

namespace LibEthercat

/-! ## Building datagrams -/

/-- A datagram as it is built in a pool entry: the length it is meant to have, and how many bytes of
the entry are cleared for it, which the copy of the outputs stays inside or not. -/
structure PdBuilt where
  datagram : PdDatagram
  length : ℕ
  cleared : ℕ
  copied : ℕ

/-- The bytes around a payload: the header, and the working counter. -/
def pdOverhead : ℕ := ecDatagramHdrLength + ecWkcSize

/-- `ec_send_process_data_group` again, with the lengths as they are before they are stored. All three
commands clear the whole `log_len`. -/
def buildProcessDataGroup (pd : EcPdGroup) (idx : GroupIdx) : List PdBuilt :=
  (if pd.useLrw = 1 then
    if 0 < pd.logLen then
      [⟨pd.lrwDatagram idx, pd.logLen, pdOverhead + pd.logLen, ecDatagramHdrLength + pd.pdoutLen⟩]
    else []
  else
    (if 0 < pd.logLen then
      [⟨pd.lwrDatagram idx, pd.pdoutLen, pdOverhead + pd.logLen,
        ecDatagramHdrLength + pd.pdoutLen⟩]
    else []) ++
      if 0 < pd.logLen then [⟨pd.lrdDatagram idx, pd.pdinLen, pdOverhead + pd.logLen, 0⟩]
      else []) ++
  if 0 < pd.logMbxStateLen then
    [⟨pd.mbxStateDatagram idx, pd.logMbxStateLen, pdOverhead + pd.logMbxStateLen, 0⟩]
  else []

/-- These are the datagrams that are sent. -/
theorem buildProcessDataGroup_datagram (pd : EcPdGroup) (idx : GroupIdx) :
    (buildProcessDataGroup pd idx).map PdBuilt.datagram = ecSendProcessDataGroup pd idx := by
  unfold buildProcessDataGroup ecSendProcessDataGroup
  split_ifs <;> rfl

/-- The datagram with its header and working counter, and all that is written for it, is inside the
pool entry, and the length field holds its length. -/
structure PdBuilt.Fits (b : PdBuilt) : Prop where
  whole : pdOverhead + b.length ≤ lecMaxPoolDataSize
  cleared : b.cleared ≤ lecMaxPoolDataSize
  copied : b.copied ≤ lecMaxPoolDataSize
  length : b.datagram.len = b.length

/-! ## Regions -/

/-- Process data that is not empty lies inside `pd[]`. -/
def EcPd.Inside (pd : EcPd) : Prop := 0 < pd.len → ∃ p, pd.pd = some p ∧ p + pd.len ≤ lecMaxPdlen

/-- The first window of a direction starts where the layout does. -/
theorem winStart_take_place (d : Bool) (b : Bool → ℕ) (sms : List EcSlaveSm) (k : ℕ) {s : ℕ}
    (h : winStart d ((place b sms).take k) = some s) : s = b d := by
  induction sms generalizing b k with
  | nil => simp [winStart] at h
  | cons sm sms ih =>
    cases hempty : sm.isEmpty with
    | true =>
      rw [place_cons_empty hempty] at h
      exact ih b k h
    | false =>
      cases k with
      | zero => simp [winStart] at h
      | succ k =>
        rw [place_cons hempty, List.take_succ_cons, winStart_cons] at h
        by_cases hd : sm.isOutput = d
        · rw [if_pos hd, Option.some.injEq] at h
          rw [← h, hd]
        · rw [if_neg hd] at h
          rw [ih _ k h, advance, if_neg hd, Nat.add_zero]

theorem winStart_mapped {slv : EcSlave} {d : Bool} (h : 0 < winLen d slv.mapped) :
    winStart d slv.mapped = some 0 := by
  cases hs : winStart d slv.mapped with
  | some s => rw [winStart_take_place d _ _ _ hs]
  | none =>
    rw [winStart, Option.map_eq_none_iff, List.head?_eq_none_iff] at hs
    rw [winLen, hs] at h
    simp at h

/-- The process data of a slave start at the pointer in front of it. -/
theorem SlaveMapped.region {slv slv' : EcSlave} {ptr log : Bool → ℕ}
    (h : SlaveMapped slv ptr log slv') {d : Bool} (hlen : (slv.side d).len = 0)
    (hpos : 0 < (slv'.side d).len) :
    (slv'.side d).pd = some (ptr d) ∧ (slv'.side d).len = winLen d slv.mapped := by
  have hl := h.len d
  rw [hlen, Nat.zero_add] at hl
  have hpd := h.pd d
  rw [if_pos hlen, winStart_mapped (hl ▸ hpos)] at hpd
  exact ⟨hpd, hl⟩

/-- The regions of a direction, when every slave moves its pointer past its own. -/
theorem thread_regions {σ : Type} {f : σ → EcSlave → σ × EcSlave} (pos : σ → ℕ) (d : Bool)
    {g : EcSlave → ℕ} {slvs : List EcSlave}
    (hpos : ∀ c, ∀ slv ∈ slvs, pos (f c slv).1 = pos c + g slv)
    (hside : ∀ c, ∀ slv ∈ slvs, 0 < ((f c slv).2.side d).len →
      ((f c slv).2.side d).pd = some (pos c) ∧ ((f c slv).2.side d).len ≤ g slv) (c : σ) :
    ∀ slv ∈ (Loop.thread f c slvs).2, 0 < (slv.side d).len →
      ∃ p, (slv.side d).pd = some p ∧ p + (slv.side d).len ≤ pos c + (slvs.map g).sum := by
  induction slvs generalizing c with
  | nil => simp
  | cons a as ih =>
    intro slv hslv hlen
    rw [List.map_cons, List.sum_cons]
    rcases List.mem_cons.1 hslv with rfl | hslv
    · obtain ⟨hpd, hle⟩ := hside c a List.mem_cons_self hlen
      exact ⟨pos c, hpd, by omega⟩
    · obtain ⟨p, hpd, hle⟩ := ih (fun c slv h => hpos c slv (List.mem_cons_of_mem a h))
        (fun c slv h => hside c slv (List.mem_cons_of_mem a h)) (f c a).1 slv hslv hlen
      have hstep := hpos c a List.mem_cons_self
      exact ⟨p, hpd, by omega⟩

/-- Nothing has been mapped for the slaves of the group yet. -/
def Unmapped (group : ℕ) (slaves : List EcSlave) : Prop :=
  ∀ slv ∈ slaves, slv.inGroup group = true → slv.pdout.len = 0 ∧ slv.pdin.len = 0

theorem Unmapped.side {group : ℕ} {slaves : List EcSlave} (h : Unmapped group slaves)
    {slv : EcSlave} (hslv : slv ∈ slaves.filter (EcSlave.inGroup group)) (d : Bool) :
    (slv.side d).len = 0 := by
  have hmem := List.mem_filter.1 hslv
  cases d with
  | true => exact (h slv hmem.1 hmem.2).1
  | false => exact (h slv hmem.1 hmem.2).2

/-- **The overlapping mapping** puts the outputs into the first bytes of the group, and the inputs
behind them. -/
theorem overlapping_regions {group : ℕ} {pd : EcPdGroup} {slaves : List EcSlave}
    (h : Unmapped group slaves) (d : Bool) :
    ∀ slv ∈ (ecCreateLogicalMappingOverlapping group pd slaves).2, slv.inGroup group = true →
      0 < (slv.side d).len → ∃ p, (slv.side d).pd = some p ∧
        p + (slv.side d).len ≤
          (if d = true then 1 else 2) * Overlapping.groupLen group slaves := by
  intro slv hslv hg hlen
  have hmem := List.mem_filter.2 ⟨hslv, hg⟩
  rw [Overlapping.slaves_inGroup] at hmem
  obtain ⟨p, hpd, hle⟩ := thread_regions (fun c : Overlapping.Locals => c.ptr d) d
    (fun c slv hs => Overlapping.mapSlave_ptr pd.logMbxState c slv (h.side hs true)
      (h.side hs false) d)
    (fun c slv hs hlen => by
      have hr := (Overlapping.mapSlave_slaveMapped pd.logMbxState c slv).region (h.side hs d) hlen
      refine ⟨hr.1, hr.2.trans_le ?_⟩
      rw [Overlapping.mappedLen]
      cases d <;> omega)
    _ slv hmem hlen
  have hsum := List.sum_le_sum fun slv (_ : slv ∈ slaves.filter (EcSlave.inGroup group)) =>
    Overlapping.mappedLen_le slv
  refine ⟨p, hpd, hle.trans ?_⟩
  rw [Overlapping.groupLen]
  cases d <;> simp only [Overlapping.start, Overlapping.Locals.ptr, Overlapping.groupLen,
    reduceCtorEq, if_true, if_false] <;> omega

/-- **The mapping without overlap** puts all outputs in front of all inputs. -/
theorem separate_regions {group : ℕ} {pd : EcPdGroup} {slaves : List EcSlave}
    (h : Unmapped group slaves) (d : Bool) :
    ∀ slv ∈ (ecCreateLogicalMapping group pd slaves).2, slv.inGroup group = true →
      0 < (slv.side d).len → ∃ p, (slv.side d).pd = some p ∧
        p + (slv.side d).len ≤ Separate.groupOutLen group slaves +
          if d = true then 0 else Separate.groupInLen group slaves := by
  intro slv hslv hg hlen
  have hmem := List.mem_filter.2 ⟨hslv, hg⟩
  rw [Separate.slaves_inGroup] at hmem
  obtain ⟨p, hpd, hle⟩ := thread_regions (fun c : Separate.Locals => c.ptr d) d
    (fun c slv hs => Separate.mapSlave_ptr pd.logMbxState c slv d)
    (fun c slv hs hlen => by
      have hr := (Separate.mapSlave_slaveMapped pd.logMbxState c slv).region (h.side hs d) hlen
      exact ⟨hr.1, hr.2.trans_le (winLen_mapped_le d slv)⟩)
    _ slv hmem hlen
  refine ⟨p, hpd, hle.trans ?_⟩
  rw [Separate.groupOutLen_eq, Separate.groupInLen_eq]
  cases d <;> simp only [Separate.start, Separate.Locals.ptr, Separate.groupOutLen_eq,
    reduceCtorEq, if_true, if_false] <;> omega

/-! ## The whole group -/

/-- A mapped group that fits: its image, the process data of its slaves, and its datagrams. -/
structure ImageFits (group : ℕ) (idx : GroupIdx) (r : EcPdGroup × List EcSlave) : Prop where
  image : r.1.pdoutLen + r.1.pdinLen ≤ lecMaxPdlen
  regions : ∀ slv ∈ r.2, slv.inGroup group = true → slv.pdout.Inside ∧ slv.pdin.Inside
  datagrams : ∀ b ∈ buildProcessDataGroup r.1 idx, b.Fits

theorem PdBuilt.fits_iff (b : PdBuilt) : b.Fits ↔ pdOverhead + b.length ≤ lecMaxPoolDataSize ∧
    b.cleared ≤ lecMaxPoolDataSize ∧ b.copied ≤ lecMaxPoolDataSize ∧ b.datagram.len = b.length :=
  ⟨fun h => ⟨h.1, h.2, h.3, h.4⟩, fun h => ⟨h.1, h.2.1, h.2.2.1, h.2.2.2⟩⟩

theorem forall_built_iff {pd : EcPdGroup} {idx : GroupIdx} {P : PdBuilt → Prop} :
    (∀ b ∈ buildProcessDataGroup pd idx, P b) ↔
      (0 < pd.logLen → pd.useLrw = 1 → P ⟨pd.lrwDatagram idx, pd.logLen, pdOverhead + pd.logLen,
          ecDatagramHdrLength + pd.pdoutLen⟩) ∧
        (0 < pd.logLen → pd.useLrw ≠ 1 → P ⟨pd.lwrDatagram idx, pd.pdoutLen,
            pdOverhead + pd.logLen, ecDatagramHdrLength + pd.pdoutLen⟩ ∧
          P ⟨pd.lrdDatagram idx, pd.pdinLen, pdOverhead + pd.logLen, 0⟩) ∧
        (0 < pd.logMbxStateLen → P ⟨pd.mbxStateDatagram idx, pd.logMbxStateLen,
          pdOverhead + pd.logMbxStateLen, 0⟩) := by
  by_cases huse : pd.useLrw = 1 <;> by_cases hlog : 0 < pd.logLen <;>
    by_cases hmbx : 0 < pd.logMbxStateLen <;>
    simp [buildProcessDataGroup, huse, hlog, hmbx, and_assoc]

/-- Everything is built in entries of which `log_len` and the overhead are cleared. -/
theorem forall_built_fits_iff {pd : EcPdGroup} (idx : GroupIdx)
    (hout : pd.pdoutLen ≤ pd.logLen) (hin : pd.pdinLen ≤ pd.logLen)
    (hmbx : pdOverhead + pd.logMbxStateLen ≤ lecMaxPoolDataSize) :
    (∀ b ∈ buildProcessDataGroup pd idx, b.Fits) ↔ pdOverhead + pd.logLen ≤ lecMaxPoolDataSize := by
  simp only [forall_built_iff, PdBuilt.fits_iff, EcPdGroup.lrwDatagram, EcPdGroup.lwrDatagram,
    EcPdGroup.lrdDatagram, EcPdGroup.mbxStateDatagram]
  simp only [pdOverhead, ecDatagramHdrLength, ecWkcSize, lecMaxPoolDataSize] at hmbx ⊢
  constructor
  · intro h
    obtain ⟨hlrw, hlwr, -⟩ := h
    by_cases hlog : 0 < pd.logLen
    · by_cases huse : pd.useLrw = 1
      · exact (hlrw hlog huse).2.1
      · exact (hlwr hlog huse).1.2.1
    · omega
  · intro h
    refine ⟨fun _ _ => ?_, fun _ _ => ?_, fun _ => ?_⟩ <;> omega

/-- The window of the mailbox state has 32 bytes at most. -/
theorem MbxMapped.len_le {group : ℕ} {pd : EcPdGroup} {slaves : List EcSlave}
    {r : EcPdGroup × List EcSlave} (h : MbxMapped group pd slaves r)
    (hcnt : slaves.length ≤ lecMaxSlaves) :
    pdOverhead + r.1.logMbxStateLen ≤ lecMaxPoolDataSize := by
  have hle : slaves.countP (EcSlave.hasBit group) ≤ lecMaxSlaves :=
    List.countP_le_length.trans hcnt
  rw [h.len]
  simp only [pdOverhead, ecDatagramHdrLength, ecWkcSize, lecMaxPoolDataSize, lecMaxSlaves] at hle ⊢
  omega

theorem overlapping_fits_iff {group : ℕ} (pd : EcPdGroup) {slaves : List EcSlave} (idx : GroupIdx)
    (h : Unmapped group slaves) (hcnt : slaves.length ≤ lecMaxSlaves) :
    ImageFits group idx (ecCreateLogicalMappingOverlapping group pd slaves) ↔
      2 * Overlapping.groupLen group slaves ≤ lecMaxPdlen := by
  have hout : (ecCreateLogicalMappingOverlapping group pd slaves).1.pdoutLen =
      Overlapping.groupLen group slaves := rfl
  have hin : (ecCreateLogicalMappingOverlapping group pd slaves).1.pdinLen =
      Overlapping.groupLen group slaves := rfl
  have hlog : (ecCreateLogicalMappingOverlapping group pd slaves).1.logLen =
      Overlapping.groupLen group slaves := Nat.max_self _
  have hbuilt := forall_built_fits_iff idx (hout.le.trans hlog.ge) (hin.le.trans hlog.ge)
    ((mbxMapped_overlapping group pd slaves).len_le hcnt)
  constructor
  · intro hfit
    have := hfit.image
    rw [hout, hin] at this
    omega
  · intro hlen
    refine ⟨by rw [hout, hin]; omega, fun slv hslv hg => ⟨fun hpos => ?_, fun hpos => ?_⟩, ?_⟩
    · obtain ⟨p, hpd, hle⟩ := overlapping_regions h true slv hslv hg hpos
      exact ⟨p, hpd, hle.trans (by rw [if_pos rfl]; omega)⟩
    · obtain ⟨p, hpd, hle⟩ := overlapping_regions h false slv hslv hg hpos
      exact ⟨p, hpd, hle.trans hlen⟩
    · rw [hbuilt, hlog]
      simp only [pdOverhead, ecDatagramHdrLength, ecWkcSize, lecMaxPoolDataSize, lecMaxPdlen]
        at hlen ⊢
      omega

theorem separate_fits_iff {group : ℕ} (pd : EcPdGroup) {slaves : List EcSlave} (idx : GroupIdx)
    (h : Unmapped group slaves) (hcnt : slaves.length ≤ lecMaxSlaves) :
    ImageFits group idx (ecCreateLogicalMapping group pd slaves) ↔
      pdOverhead + (Separate.groupOutLen group slaves + Separate.groupInLen group slaves) ≤
        lecMaxPoolDataSize := by
  have hout : (ecCreateLogicalMapping group pd slaves).1.pdoutLen =
      Separate.groupOutLen group slaves := rfl
  have hin : (ecCreateLogicalMapping group pd slaves).1.pdinLen =
      Separate.groupInLen group slaves := rfl
  have hlog : (ecCreateLogicalMapping group pd slaves).1.logLen =
      Separate.groupOutLen group slaves + Separate.groupInLen group slaves := rfl
  have hbuilt := forall_built_fits_iff idx (by omega) (by omega)
    ((mbxMapped_separate group pd slaves).len_le hcnt)
  rw [← hlog, ← hbuilt]
  constructor
  · exact ImageFits.datagrams
  · intro hfit
    have hlen := hbuilt.1 hfit
    have himage : Separate.groupOutLen group slaves + Separate.groupInLen group slaves ≤
        lecMaxPdlen := by
      rw [hlog] at hlen
      simp only [pdOverhead, ecDatagramHdrLength, ecWkcSize, lecMaxPoolDataSize, lecMaxPdlen]
        at hlen ⊢
      omega
    refine ⟨himage, fun slv hslv hg => ⟨fun hpos => ?_, fun hpos => ?_⟩, hfit⟩
    · obtain ⟨p, hpd, hle⟩ := separate_regions h true slv hslv hg hpos
      exact ⟨p, hpd, hle.trans (by rw [if_pos rfl]; omega)⟩
    · obtain ⟨p, hpd, hle⟩ := separate_regions h false slv hslv hg hpos
      exact ⟨p, hpd, hle.trans himage⟩

/-- **The sums with which a group fits**: the image limits the overlapping mapping, and a datagram
the other one. -/
theorem process_image_fits (group : ℕ) (pd : EcPdGroup) (slaves : List EcSlave) (idx : GroupIdx)
    (h : Unmapped group slaves) (hcnt : slaves.length ≤ lecMaxSlaves) :
    (ImageFits group idx (ecCreateLogicalMappingOverlapping group pd slaves) ↔
        2 * Overlapping.groupLen group slaves ≤ lecMaxPdlen) ∧
      (ImageFits group idx (ecCreateLogicalMapping group pd slaves) ↔
        pdOverhead + (Separate.groupOutLen group slaves + Separate.groupInLen group slaves) ≤
          lecMaxPoolDataSize) :=
  ⟨overlapping_fits_iff pd idx h hcnt, separate_fits_iff pd idx h hcnt⟩

/-- A slave with so many bytes of outputs. -/
def slaveOut (len : UInt16) : EcSlave := .scanned 0 0 [⟨0x1000, len, 4⟩] 1

theorem process_image_fits_two :
    ImageFits 0 ⟨0, 1, 2, 3⟩
      (ecCreateLogicalMapping 0 EcPdGroup.zero [slaveOut 794, slaveOut 794]) :=
  (process_image_fits 0 EcPdGroup.zero [slaveOut 794, slaveOut 794] ⟨0, 1, 2, 3⟩
    (by unfold Unmapped; decide) (by decide)).2.2 (by decide)

/-- Two slaves with 1000 bytes each: 2012 bytes are cleared in an entry of 1600. -/
theorem process_image_overflow :
    ¬ImageFits 0 ⟨0, 1, 2, 3⟩
      (ecCreateLogicalMapping 0 EcPdGroup.zero [slaveOut 1000, slaveOut 1000]) := by
  rw [separate_fits_iff EcPdGroup.zero ⟨0, 1, 2, 3⟩ (by unfold Unmapped; decide) (by decide)]
  decide

end LibEthercat
