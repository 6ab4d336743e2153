import LibEthercat.Hw.Tx

/-!
# Sending without frame buffers

`hw_tx_pool` takes a datagram out of the queue before it knows whether there is a frame buffer for
it. If there is none, the loop ends, and nobody has the datagram any more.

**Theorem (`hwTxPool_keeps_iff`).** Every datagram is sent or still in the queue just if there is a
buffer for every frame of the packing.
-/

namespace LibEthercat

/-- Every datagram of `queue` is in a frame that was sent and in `tx_send`, or still in the queue,
where nothing has changed its place. -/
def KeepsAll (getTxBuffer : ℕ → Option Mem) (txSend : TxSend) (queue : List PoolEntry)
    (r : TxResult) : Prop :=
  ∃ es bins, queue = es ++ r.queue ∧ bins.flatten = es ∧
    List.Forall₂ (FrameOf getTxBuffer) bins r.state.frames ∧ Recorded txSend es r.state.txSend

/-! ## Nothing else is in the frames -/

/-- The flags say where the datagrams of a frame end. -/
theorem Holds.length_le {f : Mem} {o : ℕ} {es es' : List PoolEntry} (h : Holds f o es)
    (hne : es ≠ []) (h' : Holds f o es') : es'.length ≤ es.length := by
  induction h generalizing es' with
  | nil => exact absurd rfl hne
  | @cons o e es hbytes hnext hrest ih =>
    cases h' with
    | nil => exact Nat.zero_le _
    | @cons _ e' es' hbytes' hnext' hrest' =>
      have hlen : e'.length = e.length := by
        exact (length_of_dgBytes hbytes').symm.trans (length_of_dgBytes hbytes)
      rw [hlen] at hrest'
      by_cases hes : es = []
      · have hes' : es' = [] := by
          by_contra hne'
          exact hnext.1 (hnext'.2 hne') hes
        rw [hes, hes']
        rfl
      · exact Nat.succ_le_succ (ih hes hrest')

theorem frames_length_le {getTxBuffer : ℕ → Option Mem} {bins bins' : List (List PoolEntry)}
    {fs : List Mem} (h : List.Forall₂ (FrameOf getTxBuffer) bins fs) (hne : ∀ bin ∈ bins, bin ≠ [])
    (h' : List.Forall₂ (FrameOf getTxBuffer) bins' fs) :
    bins'.flatten.length ≤ bins.flatten.length := by
  induction h generalizing bins' with
  | nil =>
    cases h'
    exact Nat.le_refl _
  | cons hf _ ih =>
    cases h' with
    | cons hf' hfs' =>
      obtain ⟨hbin, hbins⟩ := List.forall_mem_cons.1 hne
      have hhead := hf.holds.length_le hbin hf'.holds
      have htail := ih hbins hfs'
      simp only [List.flatten_cons, List.length_append]
      omega

theorem pack_ne_nil {fits : List PoolEntry → PoolEntry → Bool} (es : List PoolEntry) :
    ∀ bin ∈ NextFit.pack fits es, bin ≠ [] :=
  NextFit.packFrom_forall (fun h => h) (fun _ _ => List.cons_ne_nil _ _)
    fun bin e _ _ _ _ => List.append_ne_nil_of_right_ne_nil bin (List.cons_ne_nil e [])

/-! ## The entry taken out -/

section
variable {mtuSize : ℕ} {getTxBuffer : ℕ → Option Mem} {txSend : TxSend} {frameIdx : ℕ}
  {queue : List PoolEntry}

/-- What `hw_tx_pool` loses is the entry that it has taken out and not sent. -/
theorem keepsAll_iff_popped
    (hbuf : ∀ k f, getTxBuffer k = some f → ecFrameLen f = ecFrameHdrLength) :
    KeepsAll getTxBuffer txSend queue (hwTxPool mtuSize getTxBuffer txSend frameIdx queue) ↔
      (hwTxPool mtuSize getTxBuffer txSend frameIdx queue).popped = none := by
  obtain ⟨es, hqueue, hframes, hrec, -⟩ := @hwTxPool_sends mtuSize getTxBuffer hbuf txSend
    frameIdx queue
  generalize hwTxPool mtuSize getTxBuffer txSend frameIdx queue = r at *
  constructor
  · rintro ⟨es', bins, hqueue', hflat, hframes', -⟩
    have hle := frames_length_le hframes (pack_ne_nil es) hframes'
    rw [hflat, NextFit.pack_flatten] at hle
    have hlen := congrArg List.length (hqueue.symm.trans hqueue')
    rw [TxResult.unsent] at hlen
    simp only [List.length_append] at hlen
    have hnil : r.popped.toList = [] := List.length_eq_zero_iff.1 (by omega)
    exact Option.toList_eq_nil_iff.1 hnil
  · intro hpopped
    rw [TxResult.unsent, hpopped] at hqueue
    exact ⟨es, NextFit.pack (txFits mtuSize) es, hqueue, NextFit.pack_flatten es, hframes, hrec⟩

/-! ## Where a buffer is needed -/

theorem flush_buffers (mtuSize : ℕ) (st : TxState) (len : ℕ) :
    (st.flush mtuSize len).buffers = st.buffers := by
  unfold TxState.flush
  split
  · split_ifs <;> rfl
  · rfl

/-- With a frame open no buffer is needed. -/
theorem Open.allocate_of_ne_nil {st : TxState} {bin : List PoolEntry} (h : Open getTxBuffer st bin)
    (hne : bin ≠ []) : ∃ f, st.allocate getTxBuffer = some (f, st) := by
  cases h with
  | noFrame _ _ => exact absurd rfl hne
  | @frame bin z f hframe _ _ _ =>
    refine ⟨f, ?_⟩
    rw [TxState.allocate, hframe]

/-- Without one, the next buffer is asked for. -/
theorem Open.allocate_of_nil {st : TxState} (h : Open getTxBuffer st []) :
    (st.allocate getTxBuffer = none ↔ getTxBuffer st.buffers = none) ∧
      ∀ f st', st.allocate getTxBuffer = some (f, st') → st'.buffers = st.buffers + 1 := by
  have hframe : st.pframe = none := by
    generalize hbin : ([] : List PoolEntry) = bin at h
    cases h with
    | noFrame hframe _ => exact hframe
    | frame _ _ _ _ => exact absurd hbin (by simp)
  rw [TxState.allocate, hframe]
  refine ⟨Option.map_eq_none_iff, fun f st' h => ?_⟩
  obtain ⟨b, -, heq⟩ := Option.map_eq_some_iff.1 h
  obtain ⟨-, rfl⟩ := Prod.mk.inj heq
  rfl

/-- There is a buffer for each frame from the `n`-th to the `m`-th. -/
def BuffersFor (getTxBuffer : ℕ → Option Mem) (n m : ℕ) : Prop :=
  ∀ k, n ≤ k → k < m → getTxBuffer k ≠ none

theorem BuffersFor.succ_iff {n m : ℕ} (hlt : n < m) :
    BuffersFor getTxBuffer n m ↔ getTxBuffer n ≠ none ∧ BuffersFor getTxBuffer (n + 1) m := by
  constructor
  · intro h
    exact ⟨h n (Nat.le_refl n) hlt, fun k hk => h k (by omega)⟩
  · rintro ⟨hn, h⟩ k hk
    rcases Nat.eq_or_lt_of_le hk with rfl | hk
    · exact fun _ => hn
    · exact h k hk

/-- The bin after the open frame has been sent, if it has to be: `closed` frames were sent before,
and a bin that is not empty has its buffer. -/
theorem Open.flush_count (mtuSize : ℕ) {st : TxState} {bin : List PoolEntry}
    (h : Open getTxBuffer st bin) {closed : ℕ} (hcount : st.buffers = if bin = [] then closed else closed + 1) (e : PoolEntry) :
    ∃ bin' closed', Open getTxBuffer (st.flush mtuSize e.length) bin' ∧
      (st.buffers = if bin' = [] then closed' else closed' + 1) ∧
      ∀ es, closed + (NextFit.packFrom (txFits mtuSize) bin (e :: es)).length =
        closed' + (NextFit.packFrom (txFits mtuSize) (bin' ++ [e]) es).length := by
  by_cases hfit : bin ≠ [] → txFits mtuSize bin e = true
  · rw [h.flush_of_fits hfit]
    refine ⟨bin, closed, h, hcount, fun es => ?_⟩
    by_cases hne : bin = []
    · rw [hne, NextFit.packFrom_empty_cons]
      rfl
    · rw [NextFit.packFrom_cons hne, if_pos (hfit hne)]
  · obtain ⟨hne, hfull⟩ := Classical.not_imp.1 hfit
    obtain ⟨f, -, hsend⟩ := h.flush_of_full hne hfull
    rw [hsend]
    rw [if_neg hne] at hcount
    refine ⟨[], closed + 1, Open.noFrame rfl rfl, hcount, fun es => ?_⟩
    rw [NextFit.packFrom_cons hne, if_neg hfull, List.length_cons, List.nil_append]
    omega

theorem packFrom_length_pos (mtuSize : ℕ) {bin : List PoolEntry} (hne : bin ≠ [])
    (es : List PoolEntry) :
    0 < (NextFit.packFrom (txFits mtuSize) bin es).length := by
  obtain ⟨b, hb, -⟩ : ∃ b ∈ NextFit.packFrom (txFits mtuSize) bin es, bin <+: b :=
    NextFit.exists_prefix_mem_packFrom hne es
  exact List.length_pos_of_mem hb

/-- **Every run of the loop**: an entry is taken out and not sent just if a buffer is missing. -/
theorem hwTxLoop_popped_iff
    (hbuf : ∀ k f, getTxBuffer k = some f → ecFrameLen f = ecFrameHdrLength) {st : TxState}
    {bin : List PoolEntry} (h : Open getTxBuffer st bin) (closed : ℕ)
    (hcount : st.buffers = if bin = [] then closed else closed + 1) (queue : List PoolEntry) :
    (hwTxLoop mtuSize getTxBuffer st queue).popped = none ↔
      BuffersFor getTxBuffer st.buffers
        (closed + (NextFit.packFrom (txFits mtuSize) bin queue).length) := by
  induction queue generalizing st bin closed with
  | nil =>
    -- no frame is behind the open one
    refine iff_of_true rfl fun k hk hlt => ?_
    by_cases hnil : bin = []
    · rw [if_pos hnil] at hcount
      rw [hnil, NextFit.packFrom_nil_nil, List.length_nil] at hlt
      omega
    · rw [if_neg hnil] at hcount
      rw [NextFit.packFrom_nil hnil, List.length_singleton] at hlt
      omega
  | cons e queue ih =>
    obtain ⟨bin', closed', hopen, hcount', hlength⟩ := h.flush_count mtuSize hcount e
    rw [hlength, hwTxLoop]
    rw [← flush_buffers mtuSize st e.length] at hcount' ⊢
    generalize st.flush mtuSize e.length = st' at hopen hcount' ⊢
    have hput : ∀ {f st''}, st'.allocate getTxBuffer = some (f, st'') →
        st''.buffers = closed' + 1 →
        ((hwTxLoop mtuSize getTxBuffer (st''.put f e) queue).popped = none ↔
          BuffersFor getTxBuffer st''.buffers
            (closed' + (NextFit.packFrom (txFits mtuSize) (bin' ++ [e]) queue).length)) := by
      intro f st'' halloc hbuffers
      exact ih (hopen.put hbuf halloc e).1 closed' (by rw [if_neg (by simp)]; exact hbuffers)
    by_cases hnil : bin' = []
    · subst hnil
      rw [if_pos rfl] at hcount'
      obtain ⟨hnone, hsucc⟩ := hopen.allocate_of_nil
      have hne : [] ++ [e] ≠ [] := List.cons_ne_nil e []
      have hpos := packFrom_length_pos mtuSize hne queue
      rw [hcount'] at hnone hsucc ⊢
      rw [BuffersFor.succ_iff (by omega)]
      cases halloc : st'.allocate getTxBuffer with
      | none =>
        refine iff_of_false (fun hpopped => by cases hpopped) fun hbuffers => ?_
        exact hbuffers.1 (hnone.1 halloc)
      | some p =>
        obtain ⟨f, st''⟩ := p
        have hsome : getTxBuffer closed' ≠ none := by
          intro hmissing
          rw [hnone.2 hmissing] at halloc
          cases halloc
        have hstep := hput halloc (hsucc f st'' halloc)
        rw [hsucc f st'' halloc] at hstep
        exact hstep.trans (and_iff_right hsome).symm
    · obtain ⟨f, halloc⟩ := hopen.allocate_of_ne_nil hnil
      rw [if_neg hnil] at hcount'
      rw [halloc]
      exact hput halloc hcount'

/-- **Without buffers**: nothing is lost just if there is one for every frame of the packing. -/
theorem hwTxPool_keeps_iff
    (hbuf : ∀ k f, getTxBuffer k = some f → ecFrameLen f = ecFrameHdrLength) (txSend : TxSend)
    (frameIdx : ℕ) (queue : List PoolEntry) :
    KeepsAll getTxBuffer txSend queue (hwTxPool mtuSize getTxBuffer txSend frameIdx queue) ↔
      ∀ k < (NextFit.pack (txFits mtuSize) queue).length, getTxBuffer k ≠ none := by
  have hopen : Open getTxBuffer ⟨none, 0, none, txSend, frameIdx, [], false, 0⟩ [] :=
    Open.noFrame rfl rfl
  rw [keepsAll_iff_popped hbuf, hwTxPool, hwTxLoop_popped_iff hbuf hopen 0 rfl,
    Nat.zero_add]
  exact ⟨fun h k => h k (Nat.zero_le k), fun h k _ => h k⟩

end

/-- Three datagrams without payload and space for two of them: two buffers are enough. -/
theorem hwTxPool_keeps_three :
    let getTxBuffer := fun k => if k < 2 then some emptyFrame else none
    let queue := [pageEntry 3 0, pageEntry 1 0, pageEntry 2 0]
    KeepsAll getTxBuffer (fun _ => none) queue (hwTxPool 45 getTxBuffer (fun _ => none) 0 queue) := by
  intro getTxBuffer queue
  refine (hwTxPool_keeps_iff (fun k f hf => ?_) _ _ _).2 fun k hk => ?_
  · obtain ⟨-, rfl⟩ : k < 2 ∧ emptyFrame = f := by simpa [getTxBuffer] using hf
    rfl
  · have hsome : getTxBuffer k = some emptyFrame := if_pos hk
    rw [hsome]
    exact Option.some_ne_none emptyFrame

/-- With one buffer the third datagram is lost. -/
theorem third_datagram_lost :
    ¬ ∀ mtuSize getTxBuffer txSend frameIdx queue,
      (∀ k f, getTxBuffer k = some f → ecFrameLen f = ecFrameHdrLength) →
        KeepsAll getTxBuffer txSend queue (hwTxPool mtuSize getTxBuffer txSend frameIdx queue) := by
  intro hall
  have hbuf : ∀ k f, (if k < 1 then some emptyFrame else none) = some f →
      ecFrameLen f = ecFrameHdrLength := by
    intro k f hf
    obtain ⟨-, rfl⟩ : k < 1 ∧ emptyFrame = f := by simpa using hf
    rfl
  have hkeeps := hall 45 (fun k => if k < 1 then some emptyFrame else none) (fun _ => none) 0
    [pageEntry 3 0, pageEntry 1 0, pageEntry 2 0] hbuf
  cases (keepsAll_iff_popped hbuf).1 hkeeps

end LibEthercat
