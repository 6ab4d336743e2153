import LibEthercat.Hw.Tx

/-!
# Sending and receiving

The frames of `hw_tx_pool` come back, with other payloads and working counters, and
`hw_process_rx_frame` is applied to each.

**Theorem (`roundTrip_iff`).** Every entry that was sent gets its own datagram back, once and in the
order of the queue, if and only if no frame of the packing reaches 2048 bytes.

The sender compares the length field of the open frame with the MTU, and this field has 11 bits.
When a frame grows beyond them, the field wraps around: the comparison goes on with a small
number, and the receiver stops before the last datagram.
-/

namespace LibEthercat

/-! ## The model -/

/-- `f` comes back as `f'`: the datagrams the receiver will find are where they were. -/
structure Returned (f f' : Mem) : Prop where
  ecat : isEcatFrame f' = isEcatFrame f
  len : ecFrameLen f' = ecFrameLen f
  idx : ∀ d ∈ frameOffsets f, dgIdx f' d = dgIdx f d
  dgLen : ∀ d ∈ frameOffsets f, dgLen f' d = dgLen f d

/-- `hw_process_rx_frame` for one frame after the other: the calls for each frame, and `tx_send`
afterwards. -/
def receiveFrames : TxSend → List Mem → Option (List (List RxCall) × TxSend)
  | txSend, [] => some ([], txSend)
  | txSend, f :: fs =>
    match hwProcessRxFrame f txSend with
    | none => none
    | some r => (receiveFrames r.txSend fs).map fun p => (r.calls :: p.1, p.2)

/-- The datagrams handed out are those of the frame that was sent, each to the entry whose bytes
were put there. -/
def OwnDatagrams (f : Mem) (calls : List RxCall) : Prop :=
  ∀ c ∈ calls, c.d ∈ frameOffsets f ∧ dgBytes f c.d = c.entry.bytes

/-- However the frames come back, the callback of each of the entries `es` is called once, in
order, with its own datagram, and none of them is marked as sent any more. -/
def RoundTrip (sent : TxResult) (es : List PoolEntry) : Prop :=
  ∀ fs, List.Forall₂ Returned sent.state.frames fs →
    ∃ calls txSend, receiveFrames sent.state.txSend fs = some (calls, txSend) ∧
      (calls.flatten.map fun c => c.entry.ptr) =
        (es.filter PoolEntry.userCb).map PoolEntry.ptr ∧
      List.Forall₂ OwnDatagrams sent.state.frames calls ∧
      ∀ e ∈ es, txSend e.dgIdx = none

/-! ## One frame -/

theorem Returned.refl (f : Mem) : Returned f f := ⟨rfl, rfl, fun _ _ => rfl, fun _ _ => rfl⟩

theorem Returned.frameOffsets {f f' : Mem} (h : Returned f f') :
    frameOffsets f' = frameOffsets f := by
  have hwalk : Records.walk (ecDatagramLength f) (ecFrameLen f) 2048 ecDatagramFirst =
      some (LibEthercat.frameOffsets f) := walkFrame_eq f
  have hsize : ∀ d ∈ LibEthercat.frameOffsets f, ecDatagramLength f' d = ecDatagramLength f d := by
    intro d hd
    unfold ecDatagramLength
    rw [h.dgLen d hd]
  have hwalk' := Records.walk_congr hwalk hsize
  rw [← h.len] at hwalk'
  exact Option.some.inj ((walkFrame_eq f').symm.trans hwalk')

/-- Afterwards `tx_send` is empty where a datagram was found, and as before elsewhere. -/
theorem receive_txSend (m : Mem) (txSend : TxSend) (ds : List ℕ) (j : UInt8) :
    (receive m txSend ds).txSend j = if j ∈ ds.map (dgIdx m) then none else txSend j := by
  induction ds generalizing txSend with
  | nil => rfl
  | cons d ds ih =>
    show (receive m (Function.update txSend (dgIdx m d) none) ds).txSend j = _
    rw [ih]
    by_cases hj : j = dgIdx m d
    · simp [hj]
    · simp [hj]

/-- The entries of `es` are on the wire. -/
def OnWire (txSend : TxSend) (es : List PoolEntry) : Prop :=
  ∀ e ∈ es, ∃ e', txSend e.dgIdx = some e' ∧ SentAs e e'

theorem OnWire.congr {txSend txSend' : TxSend} {es : List PoolEntry} (h : OnWire txSend es)
    (heq : ∀ e ∈ es, txSend' e.dgIdx = txSend e.dgIdx) : OnWire txSend' es := by
  intro e he
  rw [heq e he]
  exact h e he

/-- Datagrams with the indices of `es`, in this order, go to these entries. -/
theorem receive_calls {m : Mem} {txSend : TxSend} {ds : List ℕ} {es : List PoolEntry}
    (hds : ds.map (dgIdx m) = es.map PoolEntry.dgIdx) (hidx : (es.map PoolEntry.dgIdx).Nodup)
    (hwire : OnWire txSend es) :
    ((receive m txSend ds).calls.map fun c => c.entry.ptr) =
      (es.filter PoolEntry.userCb).map PoolEntry.ptr := by
  induction es generalizing txSend ds with
  | nil =>
    rw [List.map_eq_nil_iff.1 hds]
    rfl
  | cons e es ih =>
    obtain ⟨d, ds, rfl, hd, hrest⟩ := List.map_eq_cons_iff.1 hds
    obtain ⟨hnot, hidx'⟩ := List.nodup_cons.1 hidx
    obtain ⟨⟨e', he', hsent⟩, hwire'⟩ := List.forall_mem_cons.1 hwire
    have hstep : OnWire (Function.update txSend (dgIdx m d) none) es := by
      refine OnWire.congr hwire' fun x hx => Function.update_of_ne ?_ _ _
      intro heq
      exact hnot (List.mem_map.2 ⟨x, hx, heq.trans hd⟩)
    show ((rxCall (txSend (dgIdx m d)) d ++ _).map _) = _
    rw [List.map_append, ih hrest hidx' hstep, hd, he']
    by_cases hcb : e.userCb = true
    · have hcb' : e'.userCb = true := hsent.userCb.trans hcb
      rw [List.filter_cons_of_pos hcb, rxCall, if_pos hcb']
      simp [hsent.ptr]
    · have hcb' : ¬ e'.userCb = true := fun h => hcb (hsent.userCb.symm.trans h)
      rw [List.filter_cons_of_neg hcb, rxCall, if_neg hcb']
      rfl

/-! ## Frames that hold their datagrams -/

section
variable {getTxBuffer : ℕ → Option Mem}

/-- The receiver sees the indices of the bin, as far as it gets. -/
theorem FrameOf.indices {bin : List PoolEntry} {f : Mem} (h : FrameOf getTxBuffer bin f) :
    (offsets ecDatagramFirst bin).map (dgIdx f) = bin.map PoolEntry.dgIdx := by
  have hholds := h.holds
  clear h
  generalize ecDatagramFirst = o at hholds
  induction hholds with
  | nil => rfl
  | @cons o e es hbytes _ _ ih =>
    show dgIdx f o :: (offsets (o + e.length) es).map (dgIdx f) = _
    have hidx : dgIdx f o = e.dgIdx := dgIdx_of_dgBytes hbytes
    rw [hidx, ih]
    rfl

theorem FrameOf.isEcat (hbuf : ∀ k f, getTxBuffer k = some f → isEcatFrame f = true)
    {bin : List PoolEntry} {f : Mem} (h : FrameOf getTxBuffer bin f) : isEcatFrame f = true := by
  obtain ⟨k, b, hb, hhead⟩ := h.header
  rw [← hbuf k b hb]
  unfold isEcatFrame
  rw [hhead 12 (by decide), hhead 13 (by decide)]

/-- A datagram found in the frame has the bytes of the entry with its index. -/
theorem FrameOf.bytes_of_idx {bin : List PoolEntry} {f : Mem} (h : FrameOf getTxBuffer bin f)
    {txSend : TxSend} (hwire : OnWire txSend bin) {d : ℕ} (hd : d ∈ frameOffsets f)
    {e' : PoolEntry} (he' : txSend (dgIdx f d) = some e') : dgBytes f d = e'.bytes := by
  rw [h.frameOffsets_eq] at hd
  have hd' : d ∈ offsets ecDatagramFirst bin := (List.takeWhile_subset _) hd
  have hmem : dgBytes f d ∈ bin.map PoolEntry.bytes := by
    rw [← h.holds.bytes]
    exact List.mem_map_of_mem hd'
  obtain ⟨e, he, hbytes⟩ := List.mem_map.1 hmem
  obtain ⟨e'', he'', hsent⟩ := hwire e he
  have hidx : dgIdx f d = e.dgIdx := dgIdx_of_dgBytes hbytes.symm
  rw [hidx, he''] at he'
  cases he'
  rw [← hbytes, hsent.bytes]

/-- A whole frame that comes back. -/
theorem WholeFrame.receive {bin : List PoolEntry} {f f' : Mem} {txSend : TxSend}
    (hbuf : ∀ k f, getTxBuffer k = some f → isEcatFrame f = true)
    (h : WholeFrame getTxBuffer bin f) (hret : Returned f f')
    (hidx : (bin.map PoolEntry.dgIdx).Nodup) (hwire : OnWire txSend bin) :
    ∃ r, hwProcessRxFrame f' txSend = some r ∧
      (r.calls.map fun c => c.entry.ptr) = (bin.filter PoolEntry.userCb).map PoolEntry.ptr ∧
      OwnDatagrams f r.calls ∧
      ∀ j, r.txSend j = if j ∈ bin.map PoolEntry.dgIdx then none else txSend j := by
  have hecat : isEcatFrame f' = true := hret.ecat.trans (h.frame.isEcat hbuf)
  have hoffsets : frameOffsets f' = frameOffsets f := hret.frameOffsets
  have hindices : (frameOffsets f).map (dgIdx f') = bin.map PoolEntry.dgIdx := by
    rw [List.map_congr_left hret.idx, h.frame.frameOffsets_of_lt h.fits, h.frame.indices]
  refine ⟨_, hwProcessRxFrame_eq hecat txSend, ?_, ?_, ?_⟩
  · rw [hoffsets]
    exact receive_calls hindices hidx hwire
  · intro c hc
    obtain ⟨pre, post, hsplit, -, hentry, -⟩ := (mem_receive_iff ..).1 hc
    have hmem : c.d ∈ frameOffsets f := by
      rw [← hoffsets, hsplit]
      simp
    rw [hret.idx c.d hmem] at hentry
    exact ⟨hmem, h.frame.bytes_of_idx hwire hmem hentry⟩
  · intro j
    rw [receive_txSend, hoffsets, hindices]

/-- All frames of a packing. -/
theorem wholeFrames_receive (hbuf : ∀ k f, getTxBuffer k = some f → isEcatFrame f = true)
    {bins : List (List PoolEntry)} {fs fs' : List Mem} {txSend : TxSend}
    (h : List.Forall₂ (WholeFrame getTxBuffer) bins fs) (hret : List.Forall₂ Returned fs fs')
    (hidx : (bins.flatten.map PoolEntry.dgIdx).Nodup) (hwire : OnWire txSend bins.flatten) :
    ∃ calls txSend', receiveFrames txSend fs' = some (calls, txSend') ∧
      (calls.flatten.map fun c => c.entry.ptr) =
        (bins.flatten.filter PoolEntry.userCb).map PoolEntry.ptr ∧
      List.Forall₂ OwnDatagrams fs calls ∧
      ∀ j, txSend' j = if j ∈ bins.flatten.map PoolEntry.dgIdx then none else txSend j := by
  induction h generalizing fs' txSend with
  | nil =>
    cases hret
    exact ⟨[], txSend, rfl, rfl, List.Forall₂.nil, fun j => rfl⟩
  | @cons bin f bins fs hf _ ih =>
    cases hret with
    | @cons _ f' _ fs' hret hrets =>
      rw [List.flatten_cons, List.map_append, List.nodup_append] at hidx
      obtain ⟨hbin, hbins, hdisj⟩ := hidx
      rw [List.flatten_cons] at hwire
      obtain ⟨hwire₁, hwire₂⟩ := List.forall_mem_append.1 hwire
      obtain ⟨r, hr, hptr, hown, htx⟩ := hf.receive hbuf hret hbin hwire₁
      -- the frames behind this one have other indices
      have hwire' : OnWire r.txSend bins.flatten := by
        refine OnWire.congr hwire₂ fun e he => ?_
        rw [htx, if_neg]
        intro hmem
        exact hdisj _ hmem _ (List.mem_map_of_mem he) rfl
      obtain ⟨calls, txSend', hrun, hptrs, howns, htx'⟩ := ih hrets hbins hwire'
      refine ⟨r.calls :: calls, txSend', ?_, ?_, List.Forall₂.cons hown howns, fun j => ?_⟩
      · simp [receiveFrames, hr, hrun]
      · rw [List.flatten_cons, List.map_append, hptr, hptrs, List.flatten_cons, List.filter_append,
          List.map_append]
      · rw [htx', htx, List.flatten_cons, List.map_append]
        by_cases h₁ : j ∈ bin.map PoolEntry.dgIdx
        · rw [if_pos h₁, if_pos (List.mem_append_left _ h₁), ite_self]
        · simp only [List.mem_append, h₁, if_false, false_or]

end

/-! ## Frames that have wrapped around -/

section
variable {getTxBuffer : ℕ → Option Mem}

/-- Without its last datagrams a frame holds the beginning of the bin. -/
theorem FrameOf.indices_init {bin : List PoolEntry} {z : PoolEntry} {f : Mem}
    (h : FrameOf getTxBuffer (bin ++ [z]) f) :
    (offsets ecDatagramFirst bin).map (dgIdx f) = bin.map PoolEntry.dgIdx := by
  have hall := h.indices
  rw [offsets, List.map_append, Records.starts_append, List.map_append, List.map_append] at hall
  exact List.append_inj_left hall (by simp)

/-- The receiver finds no index that is not in the bin. -/
theorem FrameOf.idx_mem {bin : List PoolEntry} {f : Mem} (h : FrameOf getTxBuffer bin f) {d : ℕ}
    (hd : d ∈ frameOffsets f) : dgIdx f d ∈ bin.map PoolEntry.dgIdx := by
  rw [h.frameOffsets_eq] at hd
  rw [← h.indices]
  exact List.mem_map_of_mem ((List.takeWhile_subset _) hd)

/-- In a frame of 2048 bytes or more the receiver does not find the last datagram: the end it
computes is at least 2048 bytes too low, and a datagram is shorter than that. -/
theorem FrameOf.last_not_found {bin : List PoolEntry} {f : Mem} (h : FrameOf getTxBuffer bin f)
    (hover : 2048 ≤ ecFrameHdrLength + totalLength bin) (hidx : (bin.map PoolEntry.dgIdx).Nodup) :
    ∃ z ∈ bin, ∀ d ∈ frameOffsets f, dgIdx f d ≠ z.dgIdx := by
  have hne : bin ≠ [] := by
    rintro rfl
    exact absurd hover (by decide)
  obtain ⟨init, z, rfl⟩ : ∃ init z, bin = init ++ [z] :=
    ⟨_, _, (List.dropLast_append_getLast hne).symm⟩
  refine ⟨z, by simp, fun d hd => ?_⟩
  have hz : z.length ≤ 1600 := z.fits
  have hend : ecFrameLen f ≤ ecDatagramFirst + totalLength init := by
    rw [h.len]
    simp only [totalLength_append, totalLength_cons, totalLength_nil] at hover ⊢
    unfold ecDatagramFirst
    omega
  have hlt := frameOffsets_lt f d hd
  have hinit : d ∈ offsets ecDatagramFirst init := by
    rw [h.frameOffsets_eq] at hd
    have hmem : d ∈ offsets ecDatagramFirst (init ++ [z]) := (List.takeWhile_subset _) hd
    rw [offsets, List.map_append, Records.starts_append, List.mem_append] at hmem
    rcases hmem with hmem | hmem
    · exact hmem
    · have hlast : d = ecDatagramFirst + totalLength init := List.mem_singleton.1 hmem
      omega
  rw [List.map_append, List.nodup_append] at hidx
  have hdisj := hidx.2.2
  have hmem : dgIdx f d ∈ init.map PoolEntry.dgIdx := by
    rw [← h.indices_init]
    exact List.mem_map_of_mem hinit
  exact hdisj _ hmem _ (by simp)

/-- Then no frame of the packing brings it back. -/
theorem exists_not_found {bins : List (List PoolEntry)} {fs : List Mem} {bin : List PoolEntry}
    (h : List.Forall₂ (FrameOf getTxBuffer) bins fs)
    (hidx : (bins.flatten.map PoolEntry.dgIdx).Nodup) (hbin : bin ∈ bins)
    (hover : 2048 ≤ ecFrameHdrLength + totalLength bin) :
    ∃ z ∈ bins.flatten, ∀ f ∈ fs, ∀ d ∈ frameOffsets f, dgIdx f d ≠ z.dgIdx := by
  induction h with
  | nil => exact absurd hbin List.not_mem_nil
  | @cons bin₁ f bins fs hf hfs ih =>
    rw [List.flatten_cons, List.map_append, List.nodup_append] at hidx
    obtain ⟨hidx₁, hidx₂, hdisj⟩ := hidx
    simp only [List.flatten_cons, List.mem_append, List.forall_mem_cons]
    rcases List.mem_cons.1 hbin with rfl | hbin
    · obtain ⟨z, hz, hnot⟩ := hf.last_not_found hover hidx₁
      refine ⟨z, Or.inl hz, hnot, fun f' hf' d hd heq => ?_⟩
      obtain ⟨bin', hbin', hframe⟩ := exists_bin_of_mem hfs f' hf'
      obtain ⟨e, he, heq'⟩ := List.mem_map.1 (hframe.idx_mem hd)
      have hmem : dgIdx f' d ∈ bins.flatten.map PoolEntry.dgIdx :=
        List.mem_map.2 ⟨e, List.mem_flatten.2 ⟨bin', hbin', he⟩, heq'⟩
      exact hdisj _ (List.mem_map_of_mem hz) _ hmem heq.symm
    · obtain ⟨z, hz, hnot⟩ := ih hidx₂ hbin
      refine ⟨z, Or.inr hz, fun d hd heq => ?_, hnot⟩
      exact hdisj _ (hf.idx_mem hd) _ (List.mem_map_of_mem hz) heq

end

/-- An index that is in no frame stays in `tx_send`. -/
theorem receiveFrames_txSend {fs : List Mem} {j : UInt8}
    (hj : ∀ f ∈ fs, ∀ d ∈ frameOffsets f, dgIdx f d ≠ j) {txSend txSend' : TxSend}
    {calls : List (List RxCall)} (h : receiveFrames txSend fs = some (calls, txSend')) :
    txSend' j = txSend j := by
  induction fs generalizing txSend calls with
  | nil =>
    cases h
    rfl
  | cons f fs ih =>
    obtain ⟨hf, hfs⟩ := List.forall_mem_cons.1 hj
    unfold receiveFrames at h
    cases hr : hwProcessRxFrame f txSend with
    | none => simp [hr] at h
    | some r =>
      simp only [hr, Option.map_eq_some_iff, Prod.mk.injEq] at h
      obtain ⟨⟨calls', txSend''⟩, hrun, -, rfl⟩ := h
      rw [ih hfs hrun]
      by_cases hecat : isEcatFrame f = true
      · rw [hwProcessRxFrame_eq hecat] at hr
        cases hr
        rw [receive_txSend, if_neg]
        intro hmem
        obtain ⟨d, hd, heq⟩ := List.mem_map.1 hmem
        exact hf d hd heq
      · unfold hwProcessRxFrame at hr
        rw [if_neg hecat] at hr
        cases hr
        rfl

/-! ## When the round trip works -/

/-- What fits into a frame of `mtuSize` bytes. -/
def mtuFits (mtuSize : ℕ) (bin : List PoolEntry) (e : PoolEntry) : Bool :=
  decide (ecFrameHdrLength + totalLength bin + e.length ≤ mtuSize)

/-- Packing by the length field makes frames below 2048 bytes if and only if packing by the true
length does. -/
theorem pack_lt_iff (mtuSize : ℕ) (es : List PoolEntry) :
    (∀ bin ∈ NextFit.pack (txFits mtuSize) es, ecFrameHdrLength + totalLength bin < 2048) ↔
      ∀ bin ∈ NextFit.pack (mtuFits mtuSize) es, ecFrameHdrLength + totalLength bin < 2048 := by
  apply NextFit.pack_forall_iff
  · rintro bin _ ⟨rest, rfl⟩ hlt
    rw [totalLength_append] at hlt
    omega
  · intro bin _ hlt e
    unfold txFits mtuFits
    rw [Nat.mod_eq_of_lt hlt]

/-- With an MTU below 2048 no frame gets there: a pool entry has at most 1600 bytes. -/
theorem mtuFits_lt {mtuSize : ℕ} (hmtu : mtuSize < 2048) (es : List PoolEntry) :
    ∀ bin ∈ NextFit.pack (mtuFits mtuSize) es, ecFrameHdrLength + totalLength bin < 2048 := by
  apply NextFit.packFrom_forall
  · exact fun h => absurd rfl h
  · intro e _
    have he : e.length ≤ 1600 := e.fits
    simp only [totalLength_cons, totalLength_nil, ecFrameHdrLength]
    omega
  · intro bin e _ _ _ hfit
    have hle := of_decide_eq_true hfit
    simp only [totalLength_append, totalLength_cons, totalLength_nil]
    omega

section
variable {mtuSize : ℕ} {getTxBuffer : ℕ → Option Mem} {txSend : TxSend} {frameIdx : ℕ}
  {queue es : List PoolEntry}
  (hbuf : ∀ k f, getTxBuffer k = some f → isEcatFrame f = true ∧ ecFrameLen f = ecFrameHdrLength)
  (hes : queue = es ++ (hwTxPool mtuSize getTxBuffer txSend frameIdx queue).unsent)
  (hidx : (es.map PoolEntry.dgIdx).Nodup)
include hbuf hes hidx

/-- What was sent is in the frames of a packing, and on the wire. -/
theorem hwTxPool_onWire :
    let r := hwTxPool mtuSize getTxBuffer txSend frameIdx queue
    List.Forall₂ (FrameOf getTxBuffer) (NextFit.pack (txFits mtuSize) es) r.state.frames ∧
      OnWire r.state.txSend es := by
  obtain ⟨es', hes', hframes, hrec, -⟩ :=
    hwTxPool_sends (fun k f hf => (hbuf k f hf).2) txSend frameIdx queue
  have heq : es = es' := List.append_cancel_right (hes.symm.trans hes')
  subst heq
  exact ⟨hframes, hrec.own hidx⟩

theorem roundTrip_of_lt (hlt : ∀ bin ∈ NextFit.pack (mtuFits mtuSize) es,
    ecFrameHdrLength + totalLength bin < 2048) :
    RoundTrip (hwTxPool mtuSize getTxBuffer txSend frameIdx queue) es := by
  obtain ⟨hframes, hwire⟩ := hwTxPool_onWire hbuf hes hidx
  have hwhole := ((List.forall₂_and_left _ _).2 ⟨(pack_lt_iff mtuSize es).2 hlt, hframes⟩).imp
    fun bin f h => WholeFrame.mk h.1 h.2
  have hflatten : (NextFit.pack (txFits mtuSize) es).flatten = es := NextFit.pack_flatten es
  intro fs hret
  obtain ⟨calls, txSend', hrun, hptr, hown, htx⟩ :=
    wholeFrames_receive (fun k f hf => (hbuf k f hf).1) hwhole hret (by rwa [hflatten])
      (by rwa [hflatten])
  rw [hflatten] at hptr htx
  refine ⟨calls, txSend', hrun, hptr, hown, fun e he => ?_⟩
  rw [htx, if_pos (List.mem_map_of_mem he)]

theorem not_roundTrip_of_le {bin : List PoolEntry} (hbin : bin ∈ NextFit.pack (txFits mtuSize) es)
    (hover : 2048 ≤ ecFrameHdrLength + totalLength bin) :
    ¬ RoundTrip (hwTxPool mtuSize getTxBuffer txSend frameIdx queue) es := by
  obtain ⟨hframes, hwire⟩ := hwTxPool_onWire hbuf hes hidx
  have hflatten : (NextFit.pack (txFits mtuSize) es).flatten = es := NextFit.pack_flatten es
  obtain ⟨z, hz, hnot⟩ := exists_not_found hframes (by rwa [hflatten]) hbin hover
  rw [hflatten] at hz
  intro hall
  obtain ⟨calls, txSend', hrun, -, -, htx⟩ := hall _ (List.forall₂_same.2 fun f _ => Returned.refl f)
  obtain ⟨e', he', -⟩ := hwire z hz
  have hstay := receiveFrames_txSend hnot hrun
  rw [htx z hz, he'] at hstay
  cases hstay

/-- **Transmit and receive are inverse** if and only if no frame of the packing reaches 2048
bytes. -/
theorem roundTrip_iff :
    RoundTrip (hwTxPool mtuSize getTxBuffer txSend frameIdx queue) es ↔
      ∀ bin ∈ NextFit.pack (mtuFits mtuSize) es, ecFrameHdrLength + totalLength bin < 2048 := by
  constructor
  · intro h
    rw [← pack_lt_iff]
    intro bin hbin
    by_contra hover
    exact not_roundTrip_of_le hbuf hes hidx hbin (Nat.le_of_not_lt hover) h
  · exact roundTrip_of_lt hbuf hes hidx

theorem roundTrip_of_mtu_lt (hmtu : mtuSize < 2048) :
    RoundTrip (hwTxPool mtuSize getTxBuffer txSend frameIdx queue) es :=
  roundTrip_of_lt hbuf hes hidx (mtuFits_lt hmtu es)

end

theorem emptyFrame_spec : ∀ (_ : ℕ) f, some emptyFrame = some f →
    isEcatFrame f = true ∧ ecFrameLen f = ecFrameHdrLength := by
  rintro _ _ ⟨rfl⟩
  decide

/-- The MTU of Ethernet: of three datagrams of 524 bytes two go into the first frame. -/
theorem roundTrip_mtu_1500 :
    let queue := [pageEntry 7 2, pageEntry 5 2, pageEntry 6 2]
    RoundTrip (hwTxPool 1500 (fun _ => some emptyFrame) (fun _ => none) 0 queue) queue :=
  (roundTrip_iff emptyFrame_spec (by rfl) (by decide)).2 (by decide)

/-- An interface with jumbo frames: two datagrams of 1548 bytes go into one frame, whose length
field says 1064. -/
theorem not_roundTrip_mtu_9000 :
    let queue := [pageEntry 1 6, pageEntry 2 6]
    ¬ RoundTrip (hwTxPool 9000 (fun _ => some emptyFrame) (fun _ => none) 0 queue) queue := by
  intro queue
  have hbin : queue ∈ NextFit.pack (txFits 9000) queue := List.mem_singleton.2 rfl
  exact not_roundTrip_of_le emptyFrame_spec (by rfl) (by decide) hbin (by decide)

end LibEthercat
