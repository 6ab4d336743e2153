import LibEthercat.Mapping.Round

/-!
# Exchanging process data

One cycle of a group: its datagrams are sent, go round, and the callback puts what has come back
into the image.

**Theorem (`Ready.exchanged`).** After it every slave of the group has in its memory what the image
shows at its output pointer, the image shows at its input pointer what the slave had in its memory,
and nothing else has changed.
-/

namespace LibEthercat

open BitOverlay

/-! ## The exchange -/

/-- The callback of a datagram that has come back. -/
def EcPdGroup.receive (pd : EcPdGroup) (dg : PdDatagram) (t : (ℕ → UInt8) × ℕ) : EcPdGroup :=
  match dg.userCb with
  | .cbProcessDataGroup => cbProcessDataGroup pd t.1 (UInt16.ofNat t.2)
  | .cbProcessDataGroupLwr => pd
  | .cbLrdMbxState => pd

/-- The datagrams of a cycle go round one after the other. -/
def goAll (dgs : List PdDatagram) (r : EcPdGroup × List Station) : EcPdGroup × List Station :=
  dgs.foldl (fun r dg => (r.1.receive dg (dg.goRound r.2).1, (dg.goRound r.2).2)) r

/-- Sending the process data of a group and receiving it. -/
def exchange (pd : EcPdGroup) (idx : GroupIdx) (bus : List Station) : EcPdGroup × List Station :=
  goAll (ecSendProcessDataGroup pd idx) (pd, bus)

/-- What a slave adds to the working counter of the datagram that brings the inputs. -/
def EcSlave.increment (useLrw : ℤ) (slv : EcSlave) : ℕ :=
  if useLrw = 1 then slv.lrwIncrement else if slv.dirWindows false ≠ [] then 1 else 0

/-- A mapped group whose inputs are received, with the working counter that is expected. -/
structure Exchangeable (group : ℕ) (pd : EcPdGroup) (slaves : List EcSlave) : Prop
    extends GroupWired group pd slaves where
  mode : (pd.useLrw = 1 ∧ pd.overlapping ≠ 0 ∧ pd.pdinLen = pd.pdoutLen ∧ pd.logLen = pd.pdinLen) ∨
    ((pd.useLrw = 0 ∨ pd.useLrw = 1) ∧ pd.overlapping = 0 ∧ pd.logLen = pd.pdoutLen + pd.pdinLen)
  image : pd.pdoutLen + pd.pdinLen ≤ lecMaxPdlen
  len : pd.logLen < 2 ^ 11
  received : pd.overlapping ≠ 0 ∨ pd.pdoutLen = 0 ∨ pd.pdinLen = 0
  wkc : pd.skipPdOnWkcMismatch ≠ 0 → pd.wkcExpected =
    ((slaves.filter (EcSlave.inGroup group)).map (EcSlave.increment pd.useLrw)).sum

/-- The same with the bus around it. -/
structure Ready (group : ℕ) (pd : EcPdGroup) (slaves : List EcSlave) : Prop
    extends BusWired group pd slaves, Exchangeable group pd slaves

/-- An exchange, from one slave's point of view. -/
structure Exchanged (group : ℕ) (pd pd' : EcPdGroup) (s s' : Station) : Prop where
  slave : s'.slave = s.slave
  outputs : s.slave.inGroup group = true → s.slave.bytes true s'.mem = pd.view s.slave.pdout
  inputs : s.slave.inGroup group = true → pd'.view s.slave.pdin = s.slave.bytes false s.mem
  kept : s.slave.inGroup group = true → s.slave.bytes false s'.mem = s.slave.bytes false s.mem ∧
    pd'.view s.slave.pdout = pd.view s.slave.pdout
  others : s.slave.inGroup group = false → s'.mem = s.mem

section
variable {group : ℕ} {pd : EcPdGroup} {idx : GroupIdx} {bus : List Station} {dg : PdDatagram}

theorem goRound_of_read (hwrite : dg.isWrite = false) : (dg.goRound bus).2 = bus := by
  refine List.ext_getElem? fun i => ?_
  by_cases hi : i < bus.length
  · rw [PdDatagram.goRound_getElem hi, List.getElem?_eq_getElem hi, Station.pass]
    have hmem : overlay bus[i].mem (bus[i].takes dg
        (Carrier.before (Station.pass dg) (dg.payload, 0) bus i).1) = bus[i].mem := by
      funext y
      exact overlay_of_none fun k _ => if_neg (by simp [hwrite])
    rw [hmem]
  · rw [List.getElem?_eq_none (by rw [PdDatagram.goRound_length]; omega),
      List.getElem?_eq_none (by omega)]

theorem goRound_slaves : (dg.goRound bus).2.map Station.slave = bus.map Station.slave := by
  refine List.ext_getElem (by rw [List.length_map, List.length_map, PdDatagram.goRound_length])
    fun i hi hi' => ?_
  rw [List.length_map] at hi hi'
  rw [List.getElem_map, List.getElem_map]
  exact PdDatagram.goRound_slave hi' _ (List.getElem?_eq_getElem hi)

/-- The mailbox state is read and leaves image and slaves alone. -/
theorem goAll_mbxState (r : EcPdGroup × List Station) :
    goAll (if 0 < pd.logMbxStateLen then [pd.mbxStateDatagram idx] else []) r = r := by
  split_ifs
  · have hbus : ((pd.mbxStateDatagram idx).goRound r.2).2 = r.2 := goRound_of_read rfl
    rw [goAll, List.foldl_cons, List.foldl_nil, hbus]
    rfl
  · rfl

theorem goAll_append (dgs dgs' : List PdDatagram) (r : EcPdGroup × List Station) :
    goAll (dgs ++ dgs') r = goAll dgs' (goAll dgs r) := List.foldl_append

/-- What is left of the datagrams of a group. -/
theorem exchange_eq (pd : EcPdGroup) (idx : GroupIdx) (bus : List Station) :
    exchange pd idx bus =
      if 0 < pd.logLen then
        if pd.useLrw = 1 then
          (pd.receive (pd.lrwDatagram idx) ((pd.lrwDatagram idx).goRound bus).1,
            ((pd.lrwDatagram idx).goRound bus).2)
        else
          (pd.receive (pd.lrdDatagram idx)
            ((pd.lrdDatagram idx).goRound ((pd.lwrDatagram idx).goRound bus).2).1,
            ((pd.lwrDatagram idx).goRound bus).2)
      else (pd, bus) := by
  rw [exchange, ecSendProcessDataGroup, goAll_append, goAll_mbxState]
  by_cases hlog : 0 < pd.logLen <;> by_cases huse : pd.useLrw = 1
  · simp [hlog, huse, goAll]
  · have hread : ((pd.lrdDatagram idx).goRound ((pd.lwrDatagram idx).goRound bus).2).2 =
        ((pd.lwrDatagram idx).goRound bus).2 := goRound_of_read rfl
    simp only [hlog, huse, if_true, if_false, goAll, List.cons_append, List.nil_append,
      List.foldl_cons, List.foldl_nil, hread]
    rfl
  · simp [hlog, huse, goAll]
  · simp [hlog, huse, goAll]

/-- The windows of the sites are where those of their direction are. -/
theorem EcSlave.Wired.dirWindow {slv : EcSlave} {logMbxState : ℕ} (h : slv.Wired logMbxState)
    {f : EcSlaveFmmu} (hf : f ∈ slv.pdFmmus) {d : Bool} (hd : f.writes = d) :
    f.window ∈ slv.dirWindows d := by
  obtain ⟨sm, -, hserves⟩ := h.exists_site hf
  refine List.mem_filter.2 ⟨List.mem_map_of_mem hf, ?_⟩
  rw [hserves.window, ← hd, hserves.writes]
  exact beq_self_eq_true _

section
variable {slv : EcSlave} (h : Ready group pd (bus.map Station.slave))
  (hslv : slv ∈ (bus.map Station.slave).filter (EcSlave.inGroup group)) {f : EcSlaveFmmu}
  (hf : f ∈ slv.pdFmmus) {a : ℕ} (ha : f.Covers a)
include h hslv hf ha

theorem Ready.output_addr (hd : f.writes = true) : pd.log ≤ a ∧ a < pd.log + pd.pdoutLen :=
  h.outputWindows slv hslv f.window ((h.wired slv hslv).dirWindow hf hd) ha

theorem Ready.input_addr (hd : f.writes = false) :
    pd.inputAddr 0 ≤ a ∧ a < pd.inputAddr 0 + pd.pdinLen :=
  h.inputWindows slv hslv f.window ((h.wired slv hslv).dirWindow hf hd) ha

end

/-- **A slave has been exchanged** if its memory has the outputs, and the image what came back. -/
theorem Ready.exchanged_of (h : Ready group pd (bus.map Station.slave)) {s s' : Station}
    (hs : s.slave ∈ bus.map Station.slave) {pd' : EcPdGroup} (hslave : s'.slave = s.slave)
    (hout : ∀ i < pd.pdoutLen, pd'.byte i = pd.byte i)
    (hwritten : s.slave.inGroup group = true → ∀ f ∈ s.slave.pdFmmus, f.writes = true →
      ∀ a, f.Covers a → s'.mem (f.phys.toNat + (a - f.log)) = pd.byte (a - pd.log))
    (hkept : s.slave.inGroup group = true → ∀ f ∈ s.slave.pdFmmus, f.writes = false →
      ∀ a, f.Covers a → s'.mem (f.phys.toNat + (a - f.log)) = s.mem (f.phys.toNat + (a - f.log)))
    (hread : s.slave.inGroup group = true → ∀ f ∈ s.slave.pdFmmus, f.writes = false →
      ∀ a, f.Covers a → s.mem (f.phys.toNat + (a - f.log)) =
        pd'.byte (pd.pdoutLen + (a - pd.inputAddr 0)))
    (hothers : s.slave.inGroup group = false → s'.mem = s.mem) : Exchanged group pd pd' s s' := by
  have hmem : s.slave.inGroup group = true →
      s.slave ∈ (bus.map Station.slave).filter (EcSlave.inGroup group) := fun hg =>
    List.mem_filter.2 ⟨hs, hg⟩
  refine ⟨hslave, fun hg => ?_, fun hg => ?_, fun hg => ⟨?_, ?_⟩, hothers⟩
  · obtain ⟨o, ho⟩ := h.outputs _ (hmem hg)
    exact (h.wired _ (hmem hg)).view_outputs ho (hwritten hg)
  · obtain ⟨p, l, o, ho, hbase⟩ := h.inputs _ (hmem hg)
    exact ((h.wired _ (hmem hg)).view_inputs ho hbase
      (fun w hw a ha => (h.inputWindows _ (hmem hg) w hw ha).1) (hread hg)).symm
  · exact (h.wired _ (hmem hg)).bytes_congr (hkept hg)
  · -- both views are what the slave has now
    obtain ⟨o, ho⟩ := h.outputs _ (hmem hg)
    refine ((h.wired _ (hmem hg)).view_outputs ho fun f hf hw a ha => ?_).symm.trans
      ((h.wired _ (hmem hg)).view_outputs ho (hwritten hg))
    have haddr := h.output_addr (hmem hg) hf ha hw
    rw [hout _ (by omega)]
    exact hwritten hg f hf hw a ha

/-! ## Receiving -/

theorem byte_outputs {i : ℕ} (hi : i < pd.pdoutLen) : pd.outputs i = pd.byte i := by
  rw [EcPdGroup.outputs, EcPdGroup.byte]
  by_cases hmax : i < lecMaxPdlen
  · rw [dif_pos ⟨hi, hmax⟩, dif_pos hmax]
  · rw [dif_neg fun hcon => hmax hcon.2, dif_neg hmax]

theorem receive_output (payload : ℕ → UInt8) (wkc : UInt16) {i : ℕ} (hi : i < pd.pdoutLen) :
    (cbProcessDataGroup pd payload wkc).byte i = pd.byte i := by
  rw [cbProcessDataGroup]
  split_ifs
  · rw [EcPdGroup.byte, EcPdGroup.byte]
    by_cases hmax : i < lecMaxPdlen
    · rw [dif_pos hmax, dif_pos hmax, EcPdGroup.memcpy]
      exact if_neg fun hcon => absurd hcon.1 (by dsimp only; omega)
    · rw [dif_neg hmax, dif_neg hmax]
  · rfl

theorem receive_input {payload : ℕ → UInt8} {wkc : UInt16} (hcopies : pd.copies wkc)
    (himage : pd.pdoutLen + pd.pdinLen ≤ lecMaxPdlen) {k : ℕ} (hk : k < pd.pdinLen) :
    (cbProcessDataGroup pd payload wkc).byte (pd.pdoutLen + k) =
      payload (pd.payloadOffset + k) := by
  have hmax : pd.pdoutLen + k < lecMaxPdlen := by omega
  rw [EcPdGroup.byte, dif_pos hmax]
  exact cbProcessDataGroup_pd hcopies payload hk hmax

/-! ## The working counter -/

theorem meets_iff {f : EcSlaveFmmu} :
    Station.meets dg f = true ↔ f.isOn = true ∧ ∃ a, f.Covers a ∧ dg.Has a := by
  rw [Station.meets, Bool.and_eq_true, decide_eq_true_iff]
  constructor
  · rintro ⟨hon, hlen, h1, h2⟩
    have hpos := EcSlaveFmmu.logLen_pos hon
    refine ⟨hon, max f.log dg.adr, ⟨le_max_left _ _, ?_⟩, ⟨le_max_right _ _, ?_⟩⟩ <;>
      rw [max_lt_iff] <;> omega
  · rintro ⟨hon, a, ⟨h1, h2⟩, h3, h4⟩
    exact ⟨hon, by omega, by omega, by omega⟩

/-- A slave of the group is met in a direction if it has anything there. -/
theorem BusWired.any_meets (h : BusWired group pd (bus.map Station.slave)) (hdg : dg.Within pd)
    {slv : EcSlave} (hslv : slv ∈ (bus.map Station.slave).filter (EcSlave.inGroup group)) {d : Bool}
    {P : EcSlaveFmmu → Bool} (hP : ∀ f ∈ slv.pdFmmus, P f = (f.writes == d))
    (hhas : ∀ w ∈ slv.dirWindows d, ∀ a ∈ w.region, dg.Has a) :
    (slv.fmmu.any fun f => P f && Station.meets dg f) = decide (slv.dirWindows d ≠ []) := by
  have hwired := h.wired slv hslv
  rw [Bool.eq_iff_iff, List.any_eq_true, decide_eq_true_iff]
  constructor
  · rintro ⟨f, hf, hmeets⟩
    rw [Bool.and_eq_true, meets_iff] at hmeets
    obtain ⟨hpick, hon, a, hcov, hin⟩ := hmeets
    obtain hpd | hother := mem_fmmu_iff.1 hf
    · rw [hP f hpd, beq_iff_eq] at hpick
      exact List.ne_nil_of_mem (hwired.dirWindow hpd hpick)
    · have hle := ((hwired.others f hother).2 hon).2
      have hfar := h.far
      have hlt := (hdg a hin).2
      exact absurd hcov.1 (by omega)
  · intro hne
    obtain ⟨w, hw⟩ := List.exists_mem_of_ne_nil _ hne
    obtain ⟨hmem, hd⟩ := List.mem_filter.1 hw
    obtain ⟨f, hf, rfl⟩ := List.mem_map.1 hmem
    obtain ⟨sm, -, hserves⟩ := hwired.exists_site hf
    have hpos := EcSlaveFmmu.logLen_pos hserves.byteWise.on
    have hfirst : f.Covers f.log := ⟨le_rfl, by omega⟩
    refine ⟨f, mem_fmmu_iff.2 (.inl hf), ?_⟩
    rw [Bool.and_eq_true, meets_iff, hP f hf]
    rw [hserves.window] at hd
    exact ⟨by rw [hserves.writes]; exact hd, hserves.byteWise.on, f.log, hfirst,
      hhas _ hw f.log hfirst⟩

theorem BusWired.counts_foreign (h : BusWired group pd (bus.map Station.slave))
    (hdg : dg.Within pd) {s : Station} (hs : s ∈ bus) (hg : s.slave.inGroup group = false) :
    s.counts dg = 0 := by
  have hforeign := h.foreign s.slave (List.mem_map_of_mem hs) hg
  have hnone : ∀ P : EcSlaveFmmu → Bool,
      (s.slave.fmmu.any fun f => P f && Station.meets dg f) = false := by
    intro P
    rw [List.any_eq_false]
    intro f hf hmeets
    rw [Bool.and_eq_true, meets_iff] at hmeets
    obtain ⟨-, hon, a, hcov, hin⟩ := hmeets
    have hrange := hdg a hin
    exact (hforeign f hf).2.2 hon a hrange.1 hrange.2 hcov
  rw [Station.counts, hnone, hnone]
  simp

/-- **The working counter** that comes back is the sum over the group. -/
theorem BusWired.sum_counts (h : BusWired group pd (bus.map Station.slave)) (hdg : dg.Within pd)
    {inc : EcSlave → ℕ}
    (hinc : ∀ s ∈ bus, s.slave.inGroup group = true → s.counts dg = inc s.slave) :
    (dg.goRound bus).1.2 =
      (((bus.map Station.slave).filter (EcSlave.inGroup group)).map inc).sum := by
  have hforeign := fun s hs => h.counts_foreign hdg (s := s) hs
  rw [PdDatagram.goRound_wkc]
  clear h
  induction bus with
  | nil => rfl
  | cons s bus ih =>
    obtain ⟨hs, hbus⟩ := List.forall_mem_cons.1 hinc
    obtain ⟨hf, hfs⟩ := List.forall_mem_cons.1 hforeign
    rw [List.map_cons, List.sum_cons, ih hbus hfs, List.map_cons]
    cases hg : s.slave.inGroup group with
    | true => rw [List.filter_cons_of_pos hg, List.map_cons, List.sum_cons, hs hg]
    | false => rw [List.filter_cons_of_neg (by simp [hg]), hf hg, Nat.zero_add]

/-! ## The whole cycle -/

/-- The window of the inputs is inside that of the group; if there are inputs, both start at the
same address. -/
theorem Exchangeable.addr {slaves : List EcSlave} (h : Exchangeable group pd slaves) :
    pd.log ≤ pd.inputAddr 0 ∧ pd.inputAddr 0 + pd.pdinLen ≤ pd.log + pd.logLen ∧
      pd.pdoutLen ≤ pd.logLen ∧
      (0 < pd.pdinLen → pd.inputAddr 0 = pd.log ∧ pd.payloadOffset = 0 ∧
        (pd.overlapping = 0 → pd.pdoutLen = 0)) := by
  have hrecv := h.received
  rw [EcPdGroup.inputAddr, EcPdGroup.payloadOffset]
  obtain ⟨huse, hover, hlen, hlog⟩ | ⟨-, hover, hlog⟩ := h.mode
  · rw [if_pos hover, if_pos (.inr hover)]
    exact ⟨by omega, by omega, by omega, fun _ => ⟨rfl, rfl, fun h0 => absurd h0 hover⟩⟩
  · rw [if_neg (not_not.2 hover)]
    refine ⟨by omega, by omega, by omega, fun hpos => ?_⟩
    have hzero : pd.pdoutLen = 0 := by
      obtain hne | hzero | hzero := hrecv
      · exact absurd hover hne
      · exact hzero
      · omega
    refine ⟨by omega, ?_, fun _ => hzero⟩
    split_ifs <;> omega

/-- **The image** after the callback. -/
theorem Ready.receive {slaves : List EcSlave} (h : Ready group pd slaves) {t : (ℕ → UInt8) × ℕ}
    (hcb : dg.userCb = .cbProcessDataGroup) (hadr : 0 < pd.pdinLen → dg.adr = pd.log)
    (hwkc : pd.skipPdOnWkcMismatch ≠ 0 → t.2 = pd.wkcExpected) :
    (∀ i < pd.pdoutLen, (pd.receive dg t).byte i = pd.byte i) ∧
      ∀ a, pd.inputAddr 0 ≤ a → a < pd.inputAddr 0 + pd.pdinLen →
        (pd.receive dg t).byte (pd.pdoutLen + (a - pd.inputAddr 0)) = t.1 (a - dg.adr) := by
  rw [EcPdGroup.receive, hcb]
  refine ⟨fun i hi => receive_output _ _ hi, fun a hle hlt => ?_⟩
  have hpos : 0 < pd.pdinLen := by omega
  obtain ⟨hinput, hoffset, -⟩ := h.addr.2.2.2 hpos
  have hcopies : pd.copies (UInt16.ofNat t.2) :=
    ⟨hpos, fun hskip => by rw [UInt16.toNat_ofNat', hwkc hskip]⟩
  refine (receive_input hcopies h.image (by omega)).trans ?_
  rw [hoffset, hinput, hadr hpos, Nat.zero_add]

theorem serves_reads {slv : EcSlave} {logMbxState : ℕ} (h : slv.Wired logMbxState)
    {f : EcSlaveFmmu} (hf : f ∈ slv.pdFmmus) : f.reads = !f.writes := by
  obtain ⟨sm, -, hserves⟩ := h.exists_site hf
  rw [hserves.reads, hserves.writes]

section
variable (h : Ready group pd (bus.map Station.slave)) (idx : GroupIdx) {i : ℕ} (hi : i < bus.length)
include h

theorem Ready.lrwDatagram_has {a : ℕ} :
    (pd.lrwDatagram idx).Has a ↔ pd.log ≤ a ∧ a < pd.log + pd.logLen := by
  rw [PdDatagram.Has, EcPdGroup.lrwDatagram, Nat.mod_eq_of_lt h.len]

theorem Ready.lwrDatagram_has {a : ℕ} :
    (pd.lwrDatagram idx).Has a ↔ pd.log ≤ a ∧ a < pd.log + pd.pdoutLen := by
  have hlen := h.len
  have haddr := h.addr.2.2.1
  rw [PdDatagram.Has, EcPdGroup.lwrDatagram, Nat.mod_eq_of_lt (by omega)]

theorem Ready.lrdDatagram_has {a : ℕ} (hover : pd.overlapping = 0) :
    (pd.lrdDatagram idx).Has a ↔ pd.inputAddr 0 ≤ a ∧ a < pd.inputAddr 0 + pd.pdinLen := by
  have hlen := h.len
  have haddr := h.addr.2.1
  have hinput : pd.inputAddr 0 = pd.log + pd.pdoutLen := if_neg (not_not.2 hover)
  have hlt : pd.pdinLen < 2 ^ 11 := by omega
  rw [PdDatagram.Has, EcPdGroup.lrdDatagram, Nat.mod_eq_of_lt hlt, hinput]

include hi in
/-- With LRW outputs and inputs travel together. -/
theorem Ready.exchanged_lrw (huse : pd.useLrw = 1) :
    ∀ s' ∈ ((pd.lrwDatagram idx).goRound bus).2[i]?, Exchanged group pd
      (pd.receive (pd.lrwDatagram idx) ((pd.lrwDatagram idx).goRound bus).1) bus[i] s' := by
  intro s' hs'
  have hhas := fun a => h.lrwDatagram_has idx (a := a)
  have hwithin : (pd.lrwDatagram idx).Within pd := fun a ha => (hhas a).1 ha
  obtain ⟨hlow, hhigh, hout, -⟩ := h.addr
  have hpassed := h.toBusWired.passed hwithin hi s' hs'
  have hcounts : ∀ s ∈ bus, s.slave.inGroup group = true →
      s.counts (pd.lrwDatagram idx) = s.slave.increment pd.useLrw := by
    intro s hs hg
    have hmem : s.slave ∈ (bus.map Station.slave).filter (EcSlave.inGroup group) :=
      List.mem_filter.2 ⟨List.mem_map_of_mem hs, hg⟩
    have hwired := h.wired _ hmem
    have houtputs := h.toBusWired.any_meets hwithin hmem (d := true) (P := EcSlaveFmmu.writes)
      (fun f _ => by cases f.writes <;> rfl)
      (fun w hw a ha => (hhas a).2 (by have := h.outputWindows _ hmem w hw ha; simp at this; omega))
    have hinputs := h.toBusWired.any_meets hwithin hmem (d := false) (P := EcSlaveFmmu.reads)
      (fun f hf => by rw [serves_reads hwired hf]; cases f.writes <;> rfl)
      (fun w hw a ha => (hhas a).2 (by have := h.inputWindows _ hmem w hw ha; simp at this; omega))
    have hread : (pd.lrwDatagram idx).isRead = true := rfl
    have hwrite : (pd.lrwDatagram idx).isWrite = true := rfl
    rw [Station.counts, houtputs, hinputs, hread, hwrite, EcSlave.increment, if_pos huse,
      EcSlave.lrwIncrement]
    simp
  have hwkc : pd.skipPdOnWkcMismatch ≠ 0 →
      ((pd.lrwDatagram idx).goRound bus).1.2 = pd.wkcExpected := fun hskip =>
    (h.toBusWired.sum_counts hwithin hcounts).trans (h.wkc hskip).symm
  have hcb : (pd.lrwDatagram idx).userCb = .cbProcessDataGroup := rfl
  obtain ⟨himage, hinput⟩ := h.receive hcb (fun _ => rfl) hwkc
  refine h.exchanged_of (List.mem_map_of_mem (List.getElem_mem hi)) hpassed.slave himage
    (fun hg f hf hw a ha => ?_) hpassed.kept (fun hg f hf hw a ha => ?_)
    (fun hg => hpassed.others (.inl hg))
  · have haddr := h.output_addr (BusWired.mem_group hi hg) hf ha hw
    refine (hpassed.written hg rfl f hf hw a ha ((hhas a).2 (by omega))).trans ?_
    have hlt : a - pd.log < pd.pdoutLen := by omega
    exact byte_outputs hlt
  · have haddr := h.input_addr (BusWired.mem_group hi hg) hf ha hw
    have hread := serves_reads (h.wired _ (BusWired.mem_group hi hg)) hf
    rw [hw] at hread
    rw [hinput a haddr.1 haddr.2]
    exact (hpassed.read hg rfl f hf hread a ha ((hhas a).2 (by omega))).symm

include hi in
/-- The outputs go with an LWR, and then the inputs come with an LRD. -/
theorem Ready.exchanged_lrd (huse : pd.useLrw ≠ 1) :
    ∀ s' ∈ ((pd.lwrDatagram idx).goRound bus).2[i]?, Exchanged group pd
      (pd.receive (pd.lrdDatagram idx)
        ((pd.lrdDatagram idx).goRound ((pd.lwrDatagram idx).goRound bus).2).1) bus[i] s' := by
  intro s' hs'
  have hover : pd.overlapping = 0 := by
    obtain ⟨huse', -⟩ | ⟨-, hover, -⟩ := h.mode
    · exact absurd huse' huse
    · exact hover
  have hhas := fun a => h.lwrDatagram_has idx (a := a)
  have hhas' := fun a => h.lrdDatagram_has idx (a := a) hover
  obtain ⟨hlow, hhigh, hout, hboth⟩ := h.addr
  have hwithin : (pd.lwrDatagram idx).Within pd := fun a ha => by
    have := (hhas a).1 ha
    omega
  have hwithin' : (pd.lrdDatagram idx).Within pd := fun a ha => by
    have := (hhas' a).1 ha
    omega
  have hpassed := h.toBusWired.passed hwithin hi s' hs'
  -- the LRD finds the same slaves
  generalize hbus : ((pd.lwrDatagram idx).goRound bus).2 = bus' at *
  have hslaves : bus'.map Station.slave = bus.map Station.slave := by
    rw [← hbus]
    exact goRound_slaves
  have h' : Ready group pd (bus'.map Station.slave) := hslaves ▸ h
  obtain ⟨hi', hs'⟩ := List.getElem?_eq_some_iff.1 hs'
  have hpassed' := h'.toBusWired.passed hwithin' hi' s' (by
    rw [goRound_of_read rfl, List.getElem?_eq_getElem hi', hs', Option.mem_some_iff])
  rw [hs'] at hpassed'
  have hcounts : ∀ s ∈ bus', s.slave.inGroup group = true →
      s.counts (pd.lrdDatagram idx) = s.slave.increment pd.useLrw := by
    intro s hs hg
    have hmem : s.slave ∈ (bus'.map Station.slave).filter (EcSlave.inGroup group) :=
      List.mem_filter.2 ⟨List.mem_map_of_mem hs, hg⟩
    have hwired := h'.wired _ hmem
    have hinputs := h'.toBusWired.any_meets hwithin' hmem (d := false) (P := EcSlaveFmmu.reads)
      (fun f hf => by rw [serves_reads hwired hf]; cases f.writes <;> rfl)
      (fun w hw a ha => (hhas' a).2 (h'.inputWindows _ hmem w hw ha))
    have hread : (pd.lrdDatagram idx).isRead = true := rfl
    have hwrite : (pd.lrdDatagram idx).isWrite = false := rfl
    rw [Station.counts, hinputs, hread, hwrite, EcSlave.increment, if_neg huse]
    simp
  have hwkc : pd.skipPdOnWkcMismatch ≠ 0 →
      ((pd.lrdDatagram idx).goRound bus').1.2 = pd.wkcExpected := fun hskip =>
    (h'.toBusWired.sum_counts hwithin' hcounts).trans (h'.wkc hskip).symm
  have hcb : (pd.lrdDatagram idx).userCb = .cbProcessDataGroup := rfl
  have hadr : 0 < pd.pdinLen → (pd.lrdDatagram idx).adr = pd.log := fun hpos => by
    rw [EcPdGroup.lrdDatagram, (hboth hpos).2.2 hover, Nat.add_zero]
  obtain ⟨himage, hinput⟩ := h.receive hcb hadr hwkc
  refine h.exchanged_of (List.mem_map_of_mem (List.getElem_mem hi)) hpassed.slave himage
    (fun hg f hf hw a ha => ?_) hpassed.kept (fun hg f hf hw a ha => ?_)
    (fun hg => hpassed.others (.inl hg))
  · have haddr := h.output_addr (BusWired.mem_group hi hg) hf ha hw
    refine (hpassed.written hg rfl f hf hw a ha ((hhas a).2 (by omega))).trans ?_
    have hlt : a - pd.log < pd.pdoutLen := by omega
    exact byte_outputs hlt
  · have haddr := h.input_addr (BusWired.mem_group hi hg) hf ha hw
    have hread := serves_reads (h.wired _ (BusWired.mem_group hi hg)) hf
    rw [hw] at hread
    rw [hinput a haddr.1 haddr.2, ← hpassed.kept hg f hf hw a ha]
    rw [← hpassed.slave] at hg hf
    exact (hpassed'.read hg rfl f hf hread a ha ((hhas' a).2 haddr)).symm

include hi in
/-- **The exchange of a group**, from the point of view of any slave. -/
theorem Ready.exchanged : ∀ s' ∈ (exchange pd idx bus).2[i]?,
    Exchanged group pd (exchange pd idx bus).1 bus[i] s' := by
  rw [exchange_eq]
  by_cases hlog : 0 < pd.logLen
  · rw [if_pos hlog]
    by_cases huse : pd.useLrw = 1
    · rw [if_pos huse]
      exact h.exchanged_lrw idx hi huse
    · rw [if_neg huse]
      exact h.exchanged_lrd idx hi huse
  · -- nothing is mapped
    rw [if_neg hlog]
    obtain ⟨hlow, hhigh, hout, -⟩ := h.addr
    intro s' hs'
    rw [List.getElem?_eq_getElem hi, Option.mem_some_iff] at hs'
    subst hs'
    refine h.exchanged_of (List.mem_map_of_mem (List.getElem_mem hi)) rfl (fun _ _ => rfl)
      (fun hg f hf hw a ha => ?_) (fun _ _ _ _ _ _ => rfl) (fun hg f hf hw a ha => ?_) fun _ => rfl
    · have haddr := h.output_addr (BusWired.mem_group hi hg) hf ha hw
      omega
    · have haddr := h.input_addr (BusWired.mem_group hi hg) hf ha hw
      omega

end

end

end LibEthercat
