import LibEthercat.Mapping.Groups

/-!
# Sending and receiving process data

The datagrams `ec_send_process_data_group` builds for a group, and `cb_process_data_group`, which
copies what comes back. The sender looks at `use_lrw`, the mapping at `overlapping`, and the
callback at both; the three have to agree on where the first input byte is.

* `receiveLaw_iff` — when a datagram's payload is read where its inputs are.
* `setState_modes` — the lengths of a group after `ec_set_state`.
* `processData_receive_iff` — the groups that receive their inputs.
-/

namespace LibEthercat

/-! ## Data -/

def ecCmdLrd : UInt8 := 10
def ecCmdLwr : UInt8 := 11
def ecCmdLrw : UInt8 := 12

/-- The callbacks of the process data datagrams. -/
inductive PdCallback
  | cbProcessDataGroup
  | cbProcessDataGroupLwr
  | cbLrdMbxState
  deriving DecidableEq, Repr

/-- A datagram as it is handed to `hw_enqueue`; `len` is what its 11 bits hold. -/
structure PdDatagram where
  cmd : UInt8
  idx : UInt8
  adr : ℕ
  len : ℕ
  payload : ℕ → UInt8
  userCb : PdCallback

/-- The values of the index entries held by the cyclic datagrams of a group. -/
structure GroupIdx where
  cdg : UInt8
  cdgLwr : UInt8
  cdgLrd : UInt8
  cdgLrdMbxState : UInt8

/-! ## Sending -/

/-- The payload after `memset` and the copy of the outputs. -/
def EcPdGroup.outputs (pd : EcPdGroup) (i : ℕ) : UInt8 :=
  if h : i < pd.pdoutLen ∧ i < lecMaxPdlen then pd.pd ⟨i, h.2⟩ else 0

def EcPdGroup.lrwDatagram (pd : EcPdGroup) (idx : GroupIdx) : PdDatagram :=
  { cmd := ecCmdLrw, idx := idx.cdg, adr := pd.log, len := pd.logLen % 2 ^ 11,
    payload := pd.outputs, userCb := .cbProcessDataGroup }

def EcPdGroup.lwrDatagram (pd : EcPdGroup) (idx : GroupIdx) : PdDatagram :=
  { cmd := ecCmdLwr, idx := idx.cdgLwr, adr := pd.log, len := pd.pdoutLen % 2 ^ 11,
    payload := pd.outputs, userCb := .cbProcessDataGroupLwr }

def EcPdGroup.lrdDatagram (pd : EcPdGroup) (idx : GroupIdx) : PdDatagram :=
  { cmd := ecCmdLrd, idx := idx.cdgLrd, adr := pd.log + pd.pdoutLen, len := pd.pdinLen % 2 ^ 11,
    payload := fun _ => 0, userCb := .cbProcessDataGroup }

def EcPdGroup.mbxStateDatagram (pd : EcPdGroup) (idx : GroupIdx) : PdDatagram :=
  { cmd := ecCmdLrd, idx := idx.cdgLrdMbxState, adr := pd.logMbxState,
    len := pd.logMbxStateLen % 2 ^ 11, payload := fun _ => 0, userCb := .cbLrdMbxState }

/-- The datagrams of one cycle of a group, when index and pool entry are there for each. -/
def ecSendProcessDataGroup (pd : EcPdGroup) (idx : GroupIdx) : List PdDatagram :=
  (if pd.useLrw = 1 then
    if 0 < pd.logLen then [pd.lrwDatagram idx] else []
  else
    (if 0 < pd.logLen then [pd.lwrDatagram idx] else []) ++
      if 0 < pd.logLen then [pd.lrdDatagram idx] else []) ++
  if 0 < pd.logMbxStateLen then [pd.mbxStateDatagram idx] else []

/-- The datagram whose answer `cb_process_data_group` gets. -/
theorem forall_processData_iff {pd : EcPdGroup} {idx : GroupIdx} (hlog : 0 < pd.logLen)
    {P : PdDatagram → Prop} :
    (∀ dg ∈ ecSendProcessDataGroup pd idx, dg.userCb = .cbProcessDataGroup → P dg) ↔
      P (if pd.useLrw = 1 then pd.lrwDatagram idx else pd.lrdDatagram idx) := by
  by_cases huse : pd.useLrw = 1 <;> by_cases hmbx : 0 < pd.logMbxStateLen <;>
    simp [ecSendProcessDataGroup, huse, hmbx, hlog, EcPdGroup.lrwDatagram, EcPdGroup.lwrDatagram,
      EcPdGroup.lrdDatagram, EcPdGroup.mbxStateDatagram]

/-! ## Receiving -/

/-- `memcpy` into the process data; what lies behind the array is left out. -/
def EcPdGroup.memcpy (pd : EcPdGroup) (off : ℕ) (src : ℕ → UInt8) (len : ℕ) : EcPdGroup :=
  { pd with pd := fun i => if off ≤ i ∧ i < off + len then src (i - off) else pd.pd i }

/-- The working counter the callback compares with. -/
def EcPdGroup.wkcExpected (pd : EcPdGroup) : ℕ :=
  if pd.useLrw = 0 then pd.wkcExpectedLrd else pd.wkcExpectedLrw

/-- Whether the callback copies. -/
def EcPdGroup.copies (pd : EcPdGroup) (wkc : UInt16) : Prop :=
  0 < pd.pdinLen ∧ (pd.skipPdOnWkcMismatch ≠ 0 → wkc.toNat = pd.wkcExpected % 2 ^ 16)

instance (pd : EcPdGroup) (wkc : UInt16) : Decidable (pd.copies wkc) :=
  inferInstanceAs (Decidable (_ ∧ _))

/-- The byte of the payload at which the callback starts to copy. -/
def EcPdGroup.payloadOffset (pd : EcPdGroup) : ℕ :=
  if pd.useLrw ≠ 0 ∨ pd.overlapping ≠ 0 then 0 else pd.pdoutLen

/-- The callback, on the bytes from `ec_datagram_payload` on. -/
def cbProcessDataGroup (pd : EcPdGroup) (payload : ℕ → UInt8) (wkc : UInt16) : EcPdGroup :=
  if pd.copies wkc then
    pd.memcpy pd.pdoutLen (fun i => payload (pd.payloadOffset + i)) pd.pdinLen
  else pd

/-! ## The law -/

/-- The logical address of the `k`-th input byte of a group. -/
def EcPdGroup.inputAddr (pd : EcPdGroup) (k : ℕ) : ℕ :=
  if pd.overlapping ≠ 0 then pd.log + k else pd.log + pd.pdoutLen + k

/-- Whatever comes back for a datagram, the callback stores the payload byte of each input
address, and reads no other. -/
def ReceiveLaw (pd : EcPdGroup) (dg : PdDatagram) : Prop :=
  ∀ payload wkc, pd.copies wkc → ∀ k < pd.pdinLen,
    (∃ (h : pd.pdoutLen + k < lecMaxPdlen) (a : ℕ), dg.adr + a = pd.inputAddr k ∧
      (cbProcessDataGroup pd payload wkc).pd ⟨pd.pdoutLen + k, h⟩ = payload a) ∧
    pd.payloadOffset + k < dg.len

theorem cbProcessDataGroup_pd {pd : EcPdGroup} {wkc : UInt16} (hc : pd.copies wkc)
    (payload : ℕ → UInt8) {k : ℕ} (hk : k < pd.pdinLen) (h : pd.pdoutLen + k < lecMaxPdlen) :
    (cbProcessDataGroup pd payload wkc).pd ⟨pd.pdoutLen + k, h⟩ =
      payload (pd.payloadOffset + k) := by
  rw [cbProcessDataGroup, if_pos hc]
  simp only [EcPdGroup.memcpy]
  rw [if_pos ⟨by omega, by omega⟩, Nat.add_sub_cancel_left]

/-- The working counter that makes the callback copy. -/
theorem copies_wkcExpected {pd : EcPdGroup} (h : 0 < pd.pdinLen) :
    pd.copies (UInt16.ofNat pd.wkcExpected) :=
  ⟨h, fun _ => UInt16.toNat_ofNat'⟩

theorem inputAddr_eq (pd : EcPdGroup) (k : ℕ) : pd.inputAddr k = pd.inputAddr 0 + k := by
  simp only [EcPdGroup.inputAddr]
  split_ifs <;> omega

/-- **When the law holds for a datagram**: the inputs fit behind the outputs, and the callback
starts to copy at the byte of the first input, which lies with the others in the payload. -/
theorem receiveLaw_iff (pd : EcPdGroup) (dg : PdDatagram) :
    ReceiveLaw pd dg ↔ pd.pdinLen = 0 ∨
      (pd.pdoutLen + pd.pdinLen ≤ lecMaxPdlen ∧ dg.adr + pd.payloadOffset = pd.inputAddr 0 ∧
        pd.payloadOffset + pd.pdinLen ≤ dg.len) := by
  rcases Nat.eq_zero_or_pos pd.pdinLen with h0 | hpos
  · simp [ReceiveLaw, h0]
  constructor
  · intro h
    refine Or.inr ?_
    have hc := copies_wkcExpected hpos
    -- the last byte bounds the lengths
    obtain ⟨⟨hlast, -⟩, hlen⟩ := h (fun _ => 0) _ hc (pd.pdinLen - 1) (by omega)
    refine ⟨by omega, ?_, by omega⟩
    -- a payload that is 1 just where the callback starts shows where the first input must be
    obtain ⟨⟨hfirst, a, ha, hstore⟩, -⟩ :=
      h (fun i => if i = pd.payloadOffset then 1 else 0) _ hc 0 hpos
    rw [cbProcessDataGroup_pd hc _ hpos, Nat.add_zero, if_pos rfl] at hstore
    by_cases hoff : a = pd.payloadOffset
    · rw [← hoff, ha]
    · rw [if_neg hoff] at hstore
      exact absurd hstore (by decide)
  · rintro (h | ⟨hfit, hadr, hlen⟩)
    · omega
    · intro payload wkc hc k hk
      refine ⟨⟨by omega, pd.payloadOffset + k, ?_, cbProcessDataGroup_pd hc payload hk _⟩,
        by omega⟩
      rw [inputAddr_eq, ← hadr, Nat.add_assoc]

/-! ## Groups as `ec_set_state` leaves them -/

/-- A group after the mapping that `ec_set_state` chooses: either overlapping with LRW, and
outputs and inputs of the same length, or not overlapping, and one behind the other. -/
theorem setState_modes (group : ℕ) (pd : EcPdGroup) (slaves : List EcSlave)
    (huse : pd.useLrw = 0 ∨ pd.useLrw = 1) :
    let r := (ecSetStateMapping group pd slaves).1
    (r.useLrw = 1 ∧ r.overlapping ≠ 0 ∧ r.pdinLen = r.pdoutLen ∧ r.logLen = r.pdinLen) ∨
      ((r.useLrw = 0 ∨ r.useLrw = 1) ∧ r.overlapping = 0 ∧ r.logLen = r.pdoutLen + r.pdinLen) := by
  have hmode : ((pd.chooseMode group slaves).useLrw = 0 ∧
        (pd.chooseMode group slaves).overlapping = 0) ∨
      (pd.chooseMode group slaves).useLrw = 1 := by
    simp only [EcPdGroup.chooseMode]
    split_ifs <;> simp_all
  simp only [ecSetStateMapping]
  split_ifs with hover
  · refine Or.inl ⟨?_, hover, rfl, Nat.max_self _⟩
    exact hmode.resolve_left fun h => hover h.2
  · refine Or.inr ⟨?_, not_not.1 hover, rfl⟩
    exact hmode.imp And.left id

/-- **When a group receives its inputs.** The callback starts to copy at the first payload byte
unless LRW and overlapping are both off, so the inputs arrive if the mapping overlaps or there
are no outputs in front of them (and no inputs at all, or not more than buffer and datagram
hold). -/
theorem processData_receive_iff (group : ℕ) (pd : EcPdGroup) (slaves : List EcSlave)
    (idx : GroupIdx) (huse : pd.useLrw = 0 ∨ pd.useLrw = 1) :
    (∀ dg ∈ ecSendProcessDataGroup (ecSetStateMapping group pd slaves).1 idx,
        dg.userCb = .cbProcessDataGroup → ReceiveLaw (ecSetStateMapping group pd slaves).1 dg) ↔
      (ecSetStateMapping group pd slaves).1.pdinLen = 0 ∨
        ((ecSetStateMapping group pd slaves).1.pdoutLen +
            (ecSetStateMapping group pd slaves).1.pdinLen ≤ lecMaxPdlen ∧
          (ecSetStateMapping group pd slaves).1.pdinLen < 2 ^ 11 ∧
          ((ecSetStateMapping group pd slaves).1.overlapping ≠ 0 ∨
            (ecSetStateMapping group pd slaves).1.pdoutLen = 0)) := by
  have hmodes := setState_modes group pd slaves huse
  generalize (ecSetStateMapping group pd slaves).1 = r at hmodes
  rcases Nat.eq_zero_or_pos r.pdinLen with h0 | hpos
  · simp [receiveLaw_iff, h0]
  have hlog : 0 < r.logLen := by
    rcases hmodes with ⟨-, -, -, h⟩ | ⟨-, -, h⟩ <;> omega
  have hne : r.pdinLen ≠ 0 := hpos.ne'
  rw [forall_processData_iff hlog, receiveLaw_iff]
  rcases hmodes with ⟨huse, hover, hlen, hloglen⟩ | ⟨huse | huse, hover, hloglen⟩
  · -- LRW, inputs and outputs at the same addresses
    have hoff : r.payloadOffset = 0 := by simp [EcPdGroup.payloadOffset, huse]
    have haddr : r.inputAddr 0 = r.log := by simp [EcPdGroup.inputAddr, hover]
    rw [if_pos huse, hoff, haddr]
    simp only [EcPdGroup.lrwDatagram, lecMaxPdlen, hover, ne_eq, not_false_eq_true, true_or, and_true]
    omega
  · -- LRD, which starts at the inputs
    have hnot : ¬ r.useLrw = 1 := by omega
    have hoff : r.payloadOffset = r.pdoutLen := by simp [EcPdGroup.payloadOffset, huse, hover]
    have haddr : r.inputAddr 0 = r.log + r.pdoutLen := by simp [EcPdGroup.inputAddr, hover]
    rw [if_neg hnot, hoff, haddr]
    simp only [EcPdGroup.lrdDatagram, lecMaxPdlen, hover, ne_eq, not_true, false_or]
    omega
  · -- LRW, inputs behind the outputs
    have hoff : r.payloadOffset = 0 := by simp [EcPdGroup.payloadOffset, huse]
    have haddr : r.inputAddr 0 = r.log + r.pdoutLen := by simp [EcPdGroup.inputAddr, hover]
    rw [if_pos huse, hoff, haddr]
    simp only [EcPdGroup.lrwDatagram, lecMaxPdlen, hover, ne_eq, not_true, false_or]
    omega

/-- A slave with four bytes of outputs and six of inputs. -/
def slaveOutIn : EcSlave := .scanned 0 0 [⟨0x1000, 4, 4⟩, ⟨0x1100, 6, 0⟩] 2

theorem processData_receive_overlapping :
    ReceiveLaw (ecSetStateMapping 0 (EcPdGroup.zero.create 0) [slaveOutIn]).1
      ((ecSetStateMapping 0 (EcPdGroup.zero.create 0) [slaveOutIn]).1.lrwDatagram ⟨0, 1, 2, 3⟩) :=
  (processData_receive_iff 0 (EcPdGroup.zero.create 0) [slaveOutIn] ⟨0, 1, 2, 3⟩ (Or.inr rfl)).2
    (by decide) _ (List.mem_singleton.2 rfl) rfl

/-- LRW without overlap: the inputs are at byte 4 of the payload, the callback copies from
byte 0. -/
theorem processData_lost_lrw :
    ¬ ∀ dg ∈ ecSendProcessDataGroup
        (ecSetStateMapping 0 { EcPdGroup.zero.create 0 with overlapping := 0 } [slaveOutIn]).1
        ⟨0, 1, 2, 3⟩,
      dg.userCb = .cbProcessDataGroup → ReceiveLaw
        (ecSetStateMapping 0 { EcPdGroup.zero.create 0 with overlapping := 0 } [slaveOutIn]).1
        dg := by
  rw [forall_processData_iff (by decide), receiveLaw_iff]
  decide

end LibEthercat
