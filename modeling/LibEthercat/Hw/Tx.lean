import Mathlib.Data.List.Forall2
import LibEthercat.Hw.Rx
import LibEthercat.Lib.NextFit

/-!
# Sending a queue

`hw_tx_pool`: the entries of a queue are copied one behind the other into frame buffers. A frame
is sent when the next datagram does not fit or when there is none; a buffer is only asked for when
there is a datagram to put into it. The `next` flag of a datagram is set when the one behind it
arrives.

**Theorem (`hwTxPool_sends`).** What is sent are frames that hold the bins of a next-fit packing.
The predicate of this packing is the code's own comparison, on a frame length that has wrapped
around if the frame has more than 2047 bytes.

**Theorem (`hwTxPool_packs`).** With an MTU below 2048 nothing wraps around: the queue is emptied,
and the datagrams of the frames, as the receiver finds them, are those of the queue.
-/

namespace LibEthercat

/-! ## The model -/

namespace PoolEntry

/-- The index in the datagram. -/
def dgIdx (e : PoolEntry) : UInt8 := LibEthercat.dgIdx e.data 0

def length (e : PoolEntry) : ℕ := ecDatagramLength e.data 0

def bytes (e : PoolEntry) : List UInt8 := dgBytes e.data 0

/-- The entry after `p_entry_dg->next = 0`. -/
def clearNext (e : PoolEntry) : PoolEntry :=
  { e with
    data := LibEthercat.clearNext e.data 0
    fits := (length_of_dgBytes (dgBytes_clearNext e.data 0)).trans_le e.fits }

end PoolEntry

/-- The locals of `hw_tx_pool` and what it changes. A frame that is sent is added to `frames`,
as it is at that moment; `buffers` counts the calls of `get_tx_buffer`. -/
structure TxState where
  pframe : Option Mem
  pdg : ℕ
  pdgPrev : Option ℕ
  txSend : TxSend
  frameIdx : ℕ
  frames : List Mem
  sent : Bool
  buffers : ℕ

/-- `queue` is what is left in the queue, `popped` an entry taken out of it but not sent. -/
structure TxResult where
  state : TxState
  popped : Option PoolEntry
  queue : List PoolEntry

/-- `phw->send` for the open frame. -/
def TxState.send (st : TxState) (f : Mem) : TxState :=
  { st with
    pframe := none
    pdgPrev := none
    frameIdx := st.frameIdx + 1
    frames := st.frames ++ [f]
    sent := true }

/-- Send the open frame if there is no datagram (`len` is 0) or no space for it. -/
def TxState.flush (mtuSize len : ℕ) (st : TxState) : TxState :=
  match st.pframe with
  | some f => if len = 0 ∨ mtuSize < ecFrameLen f + len then st.send f else st
  | none => st

/-- Ask for a frame buffer if there is none. -/
def TxState.allocate (getTxBuffer : ℕ → Option Mem) (st : TxState) : Option (Mem × TxState) :=
  match st.pframe with
  | some f => some (f, st)
  | none =>
    (getTxBuffer st.buffers).map fun f =>
      (f, { st with pframe := some f, pdg := ecDatagramFirst, buffers := st.buffers + 1 })

/-- Mark the previous datagram, if there is one. -/
def markPrev (f : Mem) (pdgPrev : Option ℕ) : Mem :=
  match pdgPrev with
  | some prev => ecDatagramMarkNext f prev
  | none => f

/-- The open frame with one more datagram. -/
def putDatagram (f : Mem) (pdg : ℕ) (pdgPrev : Option ℕ) (e : PoolEntry) : Mem :=
  let f := markPrev f pdgPrev
  let f := f.copy pdg e.clearNext.data e.clearNext.length
  setFrameLen f (ecFrameLen f + e.length)

/-- Copy a datagram into the open frame and mark it as sent. -/
def TxState.put (st : TxState) (f : Mem) (e : PoolEntry) : TxState :=
  let f := putDatagram f st.pdg st.pdgPrev e
  { st with
    pframe := some f
    pdgPrev := some st.pdg
    pdg := ecDatagramNext f st.pdg
    txSend := Function.update st.txSend e.clearNext.dgIdx
      (some { e.clearNext with sendIdx := st.frameIdx }) }

/-- The loop. A datagram has at least 12 bytes, so `len` is 0 only if the queue is empty. Without
a buffer the loop ends, and the entry it has just taken out is in no queue any more. -/
def hwTxLoop (mtuSize : ℕ) (getTxBuffer : ℕ → Option Mem) : TxState → List PoolEntry → TxResult
  | st, [] => ⟨st.flush mtuSize 0, none, []⟩
  | st, e :: queue =>
    match (st.flush mtuSize e.length).allocate getTxBuffer with
    | none => ⟨st.flush mtuSize e.length, some e, queue⟩
    | some (f, st) => hwTxLoop mtuSize getTxBuffer (st.put f e) queue

/-- `getTxBuffer k` is what the `k`-th call of `get_tx_buffer` returns. -/
def hwTxPool (mtuSize : ℕ) (getTxBuffer : ℕ → Option Mem) (txSend : TxSend) (frameIdx : ℕ)
    (queue : List PoolEntry) : TxResult :=
  hwTxLoop mtuSize getTxBuffer ⟨none, 0, none, txSend, frameIdx, [], false, 0⟩ queue

/-- What was in the queue and was not sent. -/
def TxResult.unsent (r : TxResult) : List PoolEntry := r.popped.toList ++ r.queue

/-! ## What a frame holds -/

@[simp] theorem PoolEntry.bytes_clearNext (e : PoolEntry) : e.clearNext.bytes = e.bytes :=
  dgBytes_clearNext e.data 0

@[simp] theorem PoolEntry.length_clearNext (e : PoolEntry) : e.clearNext.length = e.length :=
  length_of_dgBytes (dgBytes_clearNext e.data 0)

@[simp] theorem PoolEntry.dgIdx_clearNext (e : PoolEntry) : e.clearNext.dgIdx = e.dgIdx :=
  dgIdx_of_dgBytes (dgBytes_clearNext e.data 0)

theorem PoolEntry.length_ge (e : PoolEntry) : 12 ≤ e.length := ecDatagramLength_ge e.data 0

/-- The bytes that datagrams take. -/
def totalLength (bin : List PoolEntry) : ℕ := (bin.map PoolEntry.length).sum

@[simp] theorem totalLength_nil : totalLength [] = 0 := rfl

@[simp] theorem totalLength_cons (e : PoolEntry) (es : List PoolEntry) :
    totalLength (e :: es) = e.length + totalLength es := by simp [totalLength]

@[simp] theorem totalLength_append (es es' : List PoolEntry) :
    totalLength (es ++ es') = totalLength es + totalLength es' := by simp [totalLength]

/-- The datagrams of these entries lie one behind the other from `o` on, and the `next` flag of
each but the last one is set. -/
inductive Holds (f : Mem) : ℕ → List PoolEntry → Prop
  | nil (o : ℕ) : Holds f o []
  | cons {o : ℕ} {e : PoolEntry} {es : List PoolEntry} :
      dgBytes f o = e.bytes → (dgNext f o = true ↔ es ≠ []) → Holds f (o + e.length) es →
      Holds f o (e :: es)

theorem dgNext_congr {m m' : Mem} {d : ℕ} (h : m' (d + 7) = m (d + 7)) :
    dgNext m' d = dgNext m d := by
  unfold dgNext
  rw [h]

theorem dgBytes_eq_of_eqOn {m m' : Mem} {d : ℕ}
    (h : ∀ i, d ≤ i → i < ecDatagramNext m d → m' i = m i) : dgBytes m' d = dgBytes m d := by
  have hge := ecDatagramLength_ge m d
  unfold ecDatagramNext at h
  exact dgBytes_congr (fun i hi _ => h _ (by omega) (by omega))
    (by rw [h _ (by omega) (by omega)])

/-- The bytes of the datagrams matter, no others. -/
theorem Holds.congr {f g : Mem} {o : ℕ} {es : List PoolEntry} (h : Holds f o es)
    (heq : ∀ i, o ≤ i → i < o + totalLength es → g i = f i) : Holds g o es := by
  induction h with
  | nil o => exact Holds.nil o
  | @cons o e es hbytes hnext _ ih =>
    rw [totalLength_cons] at heq
    have hlen : ecDatagramLength f o = e.length := length_of_dgBytes hbytes
    have hge := e.length_ge
    refine Holds.cons ?_ ?_ ?_
    · rw [← hbytes]
      apply dgBytes_eq_of_eqOn
      intro i hi hlt
      unfold ecDatagramNext at hlt
      exact heq i hi (by omega)
    · rw [dgNext_congr (heq _ (by omega) (by omega))]
      exact hnext
    · exact ih fun i hi hlt => heq i (by omega) (by omega)

/-- One more datagram: the one in front of it gets its flag. -/
theorem Holds.snoc {f g : Mem} {o : ℕ} {es : List PoolEntry} {z e : PoolEntry}
    (h : Holds f o (es ++ [z]))
    (heq : ∀ i, o ≤ i → i < o + totalLength (es ++ [z]) →
      g i = ecDatagramMarkNext f (o + totalLength es) i)
    (hbytes : dgBytes g (o + totalLength (es ++ [z])) = e.bytes)
    (hnext : dgNext g (o + totalLength (es ++ [z])) = false) :
    Holds g o (es ++ [z] ++ [e]) := by
  induction es generalizing o with
  | nil =>
    have hz := z.length_ge
    cases h with
    | cons hzbytes _ _ =>
      simp only [List.nil_append, totalLength_cons, totalLength_nil, Nat.add_zero] at heq hbytes hnext
      have hlen : ecDatagramLength (ecDatagramMarkNext f o) o = z.length :=
        length_of_dgBytes ((dgBytes_ecDatagramMarkNext f o).trans hzbytes)
      refine Holds.cons ?_ ?_ (Holds.cons hbytes ?_ (Holds.nil _))
      · rw [← hzbytes, ← dgBytes_ecDatagramMarkNext f o]
        apply dgBytes_eq_of_eqOn
        intro i hi hlt
        unfold ecDatagramNext at hlt
        exact heq i hi (by omega)
      · rw [dgNext_congr (heq _ (by omega) (by omega)), dgNext_ecDatagramMarkNext]
        simp
      · rw [hnext]
        simp
  | cons a es ih =>
    have ha := a.length_ge
    have hz := z.length_ge
    cases h with
    | cons habytes hanext hrest =>
      simp only [List.cons_append, totalLength_cons, totalLength_append, totalLength_nil,
        ← Nat.add_assoc] at heq hbytes hnext
      -- the flag that is set lies behind this datagram
      have hsame : ∀ i, o ≤ i → i < o + a.length → g i = f i := by
        intro i hi hlt
        rw [heq i hi (by omega), ecDatagramMarkNext, Function.update_of_ne (by omega)]
      have hlen : ecDatagramLength f o = a.length := length_of_dgBytes habytes
      refine Holds.cons ?_ ?_ (ih hrest ?_ ?_ ?_)
      · rw [← habytes]
        apply dgBytes_eq_of_eqOn
        intro i hi hlt
        unfold ecDatagramNext at hlt
        exact hsame i hi (by omega)
      · rw [dgNext_congr (hsame _ (by omega) (by omega)), hanext]
        simp
      · intro i hi hlt
        simp only [totalLength_append, totalLength_cons, totalLength_nil] at hlt
        exact heq i (by omega) (by omega)
      · simpa only [totalLength_append, totalLength_cons, totalLength_nil, Nat.add_assoc] using hbytes
      · simpa only [totalLength_append, totalLength_cons, totalLength_nil, Nat.add_assoc] using hnext

/-! ## One more datagram -/

theorem markPrev_of_lt {f : Mem} {pdgPrev : Option ℕ} (h : ∀ d ∈ pdgPrev, 16 ≤ d) {i : ℕ}
    (hi : i < 16) : markPrev f pdgPrev i = f i := by
  cases pdgPrev with
  | none => rfl
  | some d =>
    have hd := h d rfl
    exact Function.update_of_ne (by omega) _ _

section
variable {f : Mem} {pdg : ℕ} {pdgPrev : Option ℕ} {e : PoolEntry}

/-- From the first datagram on, the new frame is the old one with the copy. -/
theorem putDatagram_of_ge {i : ℕ} (h : 16 ≤ i) :
    putDatagram f pdg pdgPrev e i =
      (markPrev f pdgPrev).copy pdg e.clearNext.data e.clearNext.length i :=
  setFrameLen_of_ge _ _ h

/-- The datagrams in front of it are the old ones, but for the flag of the previous one. -/
theorem putDatagram_of_lt {i : ℕ} (h : 16 ≤ i) (hi : i < pdg) :
    putDatagram f pdg pdgPrev e i = markPrev f pdgPrev i := by
  rw [putDatagram_of_ge h, Mem.copy_of_lt _ _ _ hi]

variable (hpdg : 16 ≤ pdg)
include hpdg

theorem putDatagram_datagram : dgBytes (putDatagram f pdg pdgPrev e) pdg = e.bytes ∧
    dgNext (putDatagram f pdg pdgPrev e) pdg = false := by
  have hge := e.clearNext.length_ge
  constructor
  · rw [← e.bytes_clearNext, PoolEntry.bytes, ← dgBytes_copy (markPrev f pdgPrev) _ pdg]
    apply dgBytes_eq_of_eqOn
    intro i hi _
    exact putDatagram_of_ge (hpdg.trans hi)
  · rw [← dgNext_clearNext e.data 0]
    unfold dgNext
    rw [putDatagram_of_ge (by omega), Mem.copy_add _ _ _ _ (by omega)]
    rfl

theorem ecDatagramNext_putDatagram :
    ecDatagramNext (putDatagram f pdg pdgPrev e) pdg = pdg + e.length := by
  unfold ecDatagramNext
  rw [length_of_dgBytes (putDatagram_datagram hpdg).1]
  rfl

theorem ecFrameLen_putDatagram (hprev : ∀ d ∈ pdgPrev, 16 ≤ d) :
    ecFrameLen (putDatagram f pdg pdgPrev e) = (ecFrameLen f + e.length) % 2048 := by
  unfold putDatagram
  have hcopy : ∀ i < 16, (markPrev f pdgPrev).copy pdg e.clearNext.data e.clearNext.length i =
      f i := by
    intro i hi
    rw [Mem.copy_of_lt _ _ _ (by omega), markPrev_of_lt hprev hi]
  rw [ecFrameLen_setFrameLen, ecFrameLen_congr (hcopy 14 (by omega)) (hcopy 15 (by omega))]

/-- The header of the frame stays, but for the length. -/
theorem putDatagram_header (hprev : ∀ d ∈ pdgPrev, 16 ≤ d) {i : ℕ} (hi : i < 14) :
    putDatagram f pdg pdgPrev e i = f i := by
  unfold putDatagram setFrameLen
  rw [if_neg (by omega), if_neg (by omega), Mem.copy_of_lt _ _ _ (by omega),
    markPrev_of_lt hprev (by omega)]

end

/-! ## The loop -/

section
variable {mtuSize : ℕ} {getTxBuffer : ℕ → Option Mem}

/-- The frame holds these entries, its header is that of a frame buffer, and its length field
is the sum of the lengths, as far as it has the bits for it. -/
structure FrameOf (getTxBuffer : ℕ → Option Mem) (bin : List PoolEntry) (f : Mem) : Prop where
  header : ∃ k b, getTxBuffer k = some b ∧ ∀ i < 14, f i = b i
  len : ecFrameLen f = (ecFrameHdrLength + totalLength bin) % 2048
  holds : Holds f ecDatagramFirst bin

/-- The first datagram of a frame. -/
theorem frameOf_singleton {k : ℕ} {f : Mem} (hf : getTxBuffer k = some f)
    (hempty : ecFrameLen f = ecFrameHdrLength) (e : PoolEntry) :
    FrameOf getTxBuffer [e] (putDatagram f ecDatagramFirst none e) := by
  have hnone : ∀ d ∈ (none : Option ℕ), 16 ≤ d := by simp
  have hfirst : 16 ≤ ecDatagramFirst := Nat.le_refl 16
  obtain ⟨hbytes, hnext⟩ : _ ∧ _ := putDatagram_datagram hfirst
  refine ⟨⟨k, f, hf, fun i hi => putDatagram_header hfirst hnone hi⟩, ?_, ?_⟩
  · rw [ecFrameLen_putDatagram hfirst hnone, hempty]
    simp
  · refine Holds.cons hbytes ?_ (Holds.nil _)
    rw [hnext]
    simp

/-- A datagram behind others. -/
theorem FrameOf.put {bin : List PoolEntry} {z : PoolEntry} {f : Mem}
    (h : FrameOf getTxBuffer (bin ++ [z]) f) (e : PoolEntry) :
    FrameOf getTxBuffer (bin ++ [z] ++ [e])
      (putDatagram f (ecDatagramFirst + totalLength (bin ++ [z]))
        (some (ecDatagramFirst + totalLength bin)) e) := by
  have hprev : ∀ d ∈ some (ecDatagramFirst + totalLength bin), 16 ≤ d := by
    simp [ecDatagramFirst, ecFrameHdrLength]
  have hpdg : 16 ≤ ecDatagramFirst + totalLength (bin ++ [z]) := Nat.le_add_right 16 _
  obtain ⟨⟨k, b, hb, hhead⟩, hlen, hholds⟩ := h
  obtain ⟨hbytes, hnext⟩ : _ ∧ _ := putDatagram_datagram hpdg
  refine ⟨⟨k, b, hb, fun i hi => ?_⟩, ?_, hholds.snoc ?_ hbytes hnext⟩
  · rw [putDatagram_header hpdg hprev hi, hhead i hi]
  · rw [ecFrameLen_putDatagram hpdg hprev, hlen]
    simp only [totalLength_append, totalLength_cons, totalLength_nil]
    omega
  · intro i hi hlt
    exact putDatagram_of_lt hi hlt

/-- The state before an entry is taken out: the open frame holds `bin`, or there is none. -/
inductive Open (getTxBuffer : ℕ → Option Mem) : TxState → List PoolEntry → Prop
  | noFrame {st : TxState} : st.pframe = none → st.pdgPrev = none → Open getTxBuffer st []
  | frame {st : TxState} {bin : List PoolEntry} {z : PoolEntry} {f : Mem} :
      st.pframe = some f → FrameOf getTxBuffer (bin ++ [z]) f →
      st.pdg = ecDatagramFirst + totalLength (bin ++ [z]) →
      st.pdgPrev = some (ecDatagramFirst + totalLength bin) → Open getTxBuffer st (bin ++ [z])

/-- The comparison of `hw_tx_pool`, with the length field as the frame has it. -/
def txFits (mtuSize : ℕ) (bin : List PoolEntry) (e : PoolEntry) : Bool :=
  decide ((ecFrameHdrLength + totalLength bin) % 2048 + e.length ≤ mtuSize)

/-- A datagram that fits, or finds no open frame, leaves everything as it is. -/
theorem Open.flush_of_fits {st : TxState} {bin : List PoolEntry} (h : Open getTxBuffer st bin)
    {e : PoolEntry} (hfit : bin ≠ [] → txFits mtuSize bin e = true) :
    st.flush mtuSize e.length = st := by
  have hlen := e.length_ge
  unfold TxState.flush
  cases h with
  | noFrame hframe _ => rw [hframe]
  | @frame bin z f hframe hf _ _ =>
    have hle := of_decide_eq_true (hfit (by simp))
    rw [hframe]
    exact if_neg (by rw [hf.len]; omega)

/-- One that does not fit makes the open frame go. -/
theorem Open.flush_of_full {st : TxState} {bin : List PoolEntry} (h : Open getTxBuffer st bin)
    {e : PoolEntry} (hne : bin ≠ []) (hfull : ¬ txFits mtuSize bin e = true) :
    ∃ f, FrameOf getTxBuffer bin f ∧ st.flush mtuSize e.length = st.send f := by
  cases h with
  | noFrame _ _ => exact absurd rfl hne
  | @frame bin z f hframe hf _ _ =>
    have hgt := of_decide_eq_false (Bool.eq_false_iff.2 hfull)
    refine ⟨f, hf, ?_⟩
    unfold TxState.flush
    rw [hframe]
    exact if_pos (by rw [hf.len]; omega)

/-- With a datagram at hand the open frame is sent if the packing closes the bin. -/
theorem Open.flush {st : TxState} {bin : List PoolEntry} (h : Open getTxBuffer st bin)
    (e : PoolEntry) :
    ∃ closed fs bin', Open getTxBuffer (st.flush mtuSize e.length) bin' ∧
      (st.flush mtuSize e.length).frames = st.frames ++ fs ∧
      (st.flush mtuSize e.length).txSend = st.txSend ∧
      List.Forall₂ (FrameOf getTxBuffer) closed fs ∧
      (∀ es, NextFit.packFrom (txFits mtuSize) bin (e :: es) =
        closed ++ NextFit.packFrom (txFits mtuSize) (bin' ++ [e]) es) ∧
      (bin' = [] → NextFit.packFrom (txFits mtuSize) bin [] = closed) := by
  by_cases hfit : bin ≠ [] → txFits mtuSize bin e = true
  · rw [h.flush_of_fits hfit]
    refine ⟨[], [], bin, h, by simp, rfl, List.Forall₂.nil, fun es => ?_, fun hnil => by rw [hnil]; rfl⟩
    by_cases hne : bin = []
    · rw [hne]
      rfl
    · rw [NextFit.packFrom_cons hne, if_pos (hfit hne)]
      rfl
  · obtain ⟨hne, hfull⟩ := Classical.not_imp.1 hfit
    obtain ⟨f, hf, hsend⟩ := h.flush_of_full hne hfull
    rw [hsend]
    refine ⟨[bin], [f], [], Open.noFrame rfl rfl, rfl, rfl, List.Forall₂.cons hf List.Forall₂.nil,
      fun es => ?_, fun _ => NextFit.packFrom_nil hne⟩
    rw [NextFit.packFrom_cons hne, if_neg hfull]
    rfl

/-- Without one the open frame is sent. -/
theorem Open.flush_zero {st : TxState} {bin : List PoolEntry} (h : Open getTxBuffer st bin) :
    ∃ fs, (st.flush mtuSize 0).frames = st.frames ++ fs ∧ (st.flush mtuSize 0).txSend = st.txSend ∧
      List.Forall₂ (FrameOf getTxBuffer) (NextFit.packFrom (txFits mtuSize) bin []) fs := by
  cases h with
  | noFrame hframe _ =>
    unfold TxState.flush
    rw [hframe]
    exact ⟨[], by simp, rfl, List.Forall₂.nil⟩
  | frame hframe hf _ _ =>
    unfold TxState.flush
    rw [hframe]
    rw [NextFit.packFrom_nil (by simp)]
    exact ⟨[_], rfl, rfl, List.Forall₂.cons hf List.Forall₂.nil⟩

/-- There is no buffer: then no frame is open. -/
theorem Open.allocate_none {st : TxState} {bin : List PoolEntry} (h : Open getTxBuffer st bin)
    (hnone : st.allocate getTxBuffer = none) : bin = [] ∧ ∃ k, getTxBuffer k = none := by
  cases h with
  | noFrame hframe _ =>
    unfold TxState.allocate at hnone
    rw [hframe] at hnone
    exact ⟨rfl, st.buffers, Option.map_eq_none_iff.1 hnone⟩
  | frame hframe _ _ _ =>
    unfold TxState.allocate at hnone
    rw [hframe] at hnone
    cases hnone

/-- The datagram is put into the frame. -/
theorem Open.put (hbuf : ∀ k f, getTxBuffer k = some f → ecFrameLen f = ecFrameHdrLength)
    {st st' : TxState} {bin : List PoolEntry} {f : Mem} (h : Open getTxBuffer st bin)
    (hsome : st.allocate getTxBuffer = some (f, st')) (e : PoolEntry) :
    Open getTxBuffer (st'.put f e) (bin ++ [e]) ∧ (st'.put f e).frames = st.frames ∧
      (st'.put f e).txSend = Function.update st.txSend e.dgIdx
        (some { e.clearNext with sendIdx := st.frameIdx }) := by
  unfold TxState.allocate at hsome
  cases h with
  | noFrame hframe hprev =>
    rw [hframe] at hsome
    obtain ⟨b, hb, heq⟩ := Option.map_eq_some_iff.1 hsome
    obtain ⟨rfl, rfl⟩ := Prod.mk.inj heq
    refine ⟨?_, rfl, by simp [TxState.put]⟩
    have hput := frameOf_singleton hb (hbuf _ _ hb) e
    have hnext : ecDatagramNext (putDatagram b ecDatagramFirst none e) ecDatagramFirst =
        ecDatagramFirst + e.length := ecDatagramNext_putDatagram (Nat.le_refl 16)
    show Open getTxBuffer _ ([] ++ [e])
    refine Open.frame ?_ hput ?_ rfl
    · simp only [TxState.put, hprev]
    · simp only [TxState.put, hprev, hnext]
      simp
  | @frame bin z f' hframe hf hpdg hprev =>
    rw [hframe] at hsome
    obtain ⟨rfl, rfl⟩ := Prod.mk.inj (Option.some.inj hsome)
    refine ⟨?_, rfl, by simp [TxState.put]⟩
    refine Open.frame ?_ (hf.put e) ?_ ?_
    · simp [TxState.put, hpdg, hprev]
    · have hfirst : 16 ≤ ecDatagramFirst + totalLength (bin ++ [z]) := Nat.le_add_right 16 _
      simp only [TxState.put, hpdg, ecDatagramNext_putDatagram hfirst]
      simp [Nat.add_assoc]
    · simp [TxState.put, hpdg]

/-- `e'` is `e` as it was sent. -/
structure SentAs (e e' : PoolEntry) : Prop where
  ptr : e'.ptr = e.ptr
  userCb : e'.userCb = e.userCb
  bytes : e'.bytes = e.bytes

/-- `tx_send` after these entries have been sent: it has each of them under its own index. -/
structure Recorded (txSend : TxSend) (es : List PoolEntry) (txSend' : TxSend) : Prop where
  other : ∀ j, (∀ e ∈ es, e.dgIdx ≠ j) → txSend' j = txSend j
  own : (es.map PoolEntry.dgIdx).Nodup → ∀ e ∈ es, ∃ e', txSend' e.dgIdx = some e' ∧ SentAs e e'

theorem Recorded.nil (txSend : TxSend) : Recorded txSend [] txSend :=
  ⟨fun _ _ => rfl, fun _ _ he => absurd he List.not_mem_nil⟩

theorem Recorded.cons {txSend txSend' : TxSend} {e e' : PoolEntry} {es : List PoolEntry}
    (he : SentAs e e') (h : Recorded (Function.update txSend e.dgIdx (some e')) es txSend') :
    Recorded txSend (e :: es) txSend' := by
  constructor
  · intro j hj
    obtain ⟨hne, hes⟩ := List.forall_mem_cons.1 hj
    rw [h.other j hes, Function.update_of_ne hne.symm]
  · intro hnodup
    obtain ⟨hnot, hnodup'⟩ := List.nodup_cons.1 hnodup
    refine List.forall_mem_cons.2 ⟨⟨e', ?_, he⟩, h.own hnodup'⟩
    rw [h.other e.dgIdx fun x hx heq => hnot (List.mem_map.2 ⟨x, hx, heq⟩), Function.update_self]

/-- **Every run of the loop.** Of the queue the first part `es` is sent, in the frames of the
packing. If that is not the whole queue, a buffer was missing. -/
theorem hwTxLoop_sends (hbuf : ∀ k f, getTxBuffer k = some f → ecFrameLen f = ecFrameHdrLength)
    {st : TxState} {bin : List PoolEntry} (h : Open getTxBuffer st bin) (queue : List PoolEntry) :
    let r := hwTxLoop mtuSize getTxBuffer st queue
    ∃ es fs, queue = es ++ r.unsent ∧ r.state.frames = st.frames ++ fs ∧
      List.Forall₂ (FrameOf getTxBuffer) (NextFit.packFrom (txFits mtuSize) bin es) fs ∧
      Recorded st.txSend es r.state.txSend ∧ (r.unsent = [] ∨ ∃ k, getTxBuffer k = none) := by
  induction queue generalizing st bin with
  | nil =>
    obtain ⟨fs, hframes, htx, hfs⟩ := h.flush_zero
    refine ⟨[], fs, rfl, hframes, hfs, ?_, Or.inl rfl⟩
    show Recorded st.txSend [] (st.flush mtuSize 0).txSend
    rw [htx]
    exact Recorded.nil st.txSend
  | cons e queue ih =>
    obtain ⟨closed, fs, bin', hopen, hframes, htx, hfs, hcons, hnil⟩ := h.flush e
    cases halloc : (st.flush mtuSize e.length).allocate getTxBuffer with
    | none =>
      -- `e` and the rest of the queue are not sent
      obtain ⟨rfl, hmissing⟩ := hopen.allocate_none halloc
      have hr : hwTxLoop mtuSize getTxBuffer st (e :: queue) =
          ⟨st.flush mtuSize e.length, some e, queue⟩ := by
        rw [hwTxLoop, halloc]
      rw [hr]
      refine ⟨[], fs, rfl, hframes, ?_, ?_, Or.inr hmissing⟩
      · rwa [hnil rfl]
      · show Recorded st.txSend [] (st.flush mtuSize e.length).txSend
        rw [htx]
        exact Recorded.nil st.txSend
    | some p =>
      obtain ⟨f, st'⟩ := p
      obtain ⟨hopen', hframes', htx'⟩ := hopen.put hbuf halloc e
      have hr : hwTxLoop mtuSize getTxBuffer st (e :: queue) =
          hwTxLoop mtuSize getTxBuffer (st'.put f e) queue := by
        rw [hwTxLoop, halloc]
      obtain ⟨es, fs', hqueue, hrun, hpack, hrec, hmissing⟩ := ih hopen'
      rw [hr]
      refine ⟨e :: es, fs ++ fs', congrArg (e :: ·) hqueue, ?_, ?_, ?_, hmissing⟩
      · rw [hrun, hframes', hframes, List.append_assoc]
      · rw [hcons es]
        exact List.rel_append hfs hpack
      · rw [htx', htx] at hrec
        refine Recorded.cons ?_ hrec
        exact ⟨rfl, rfl, e.bytes_clearNext⟩

/-- **What `hw_tx_pool` sends**: the first part of the queue, in the frames of a packing. -/
theorem hwTxPool_sends (hbuf : ∀ k f, getTxBuffer k = some f → ecFrameLen f = ecFrameHdrLength)
    (txSend : TxSend) (frameIdx : ℕ) (queue : List PoolEntry) :
    let r := hwTxPool mtuSize getTxBuffer txSend frameIdx queue
    ∃ es, queue = es ++ r.unsent ∧
      List.Forall₂ (FrameOf getTxBuffer) (NextFit.pack (txFits mtuSize) es) r.state.frames ∧
      Recorded txSend es r.state.txSend ∧ (r.unsent = [] ∨ ∃ k, getTxBuffer k = none) := by
  have hopen : Open getTxBuffer ⟨none, 0, none, txSend, frameIdx, [], false, 0⟩ [] :=
    Open.noFrame rfl rfl
  obtain ⟨es, fs, hqueue, hframes, hpack, hrec, hmissing⟩ := hwTxLoop_sends hbuf hopen queue
  exact ⟨es, hqueue, hframes ▸ hpack, hrec, hmissing⟩

end

/-! ## What the receiver finds -/

/-- Where these datagrams start, from `o` on. -/
abbrev offsets (o : ℕ) (es : List PoolEntry) : List ℕ := Records.starts o (es.map PoolEntry.length)

theorem Holds.laid {f : Mem} {o : ℕ} {es : List PoolEntry} (h : Holds f o es) :
    Records.Laid (ecDatagramLength f) o (es.map PoolEntry.length) := by
  induction h with
  | nil => trivial
  | cons hbytes _ _ ih => exact ⟨length_of_dgBytes hbytes, ih⟩

theorem Holds.bytes {f : Mem} {o : ℕ} {es : List PoolEntry} (h : Holds f o es) :
    (offsets o es).map (dgBytes f) = es.map PoolEntry.bytes := by
  induction h with
  | nil => rfl
  | @cons o e es hbytes _ _ ih =>
    show dgBytes f o :: (offsets (o + e.length) es).map (dgBytes f) = _
    rw [hbytes, ih]
    rfl

/-- The flag is set on all but the last. -/
theorem Holds.next {f : Mem} {o : ℕ} {es : List PoolEntry} (h : Holds f o es) :
    ∀ pre d post, offsets o es = pre ++ d :: post → (dgNext f d = true ↔ post ≠ []) := by
  induction h with
  | nil => exact fun pre d post heq => absurd heq (by simp [offsets])
  | @cons o e es _ hnext _ ih =>
    intro pre d post heq
    have hcons : o :: offsets (o + e.length) es = pre ++ d :: post := heq
    cases pre with
    | nil =>
      obtain ⟨rfl, rfl⟩ := List.cons.inj hcons
      rw [hnext, ← List.length_pos_iff, ← List.length_pos_iff]
      simp
    | cons x pre => exact ih pre d post (List.cons.inj hcons).2

theorem lengths_pos (es : List PoolEntry) : ∀ l ∈ es.map PoolEntry.length, 0 < l := by
  intro l hl
  obtain ⟨e, -, rfl⟩ := List.mem_map.1 hl
  exact ecDatagramLength_pos e.data 0

/-- The receiver finds the datagrams that start before the end it computes. -/
theorem FrameOf.frameOffsets_eq {getTxBuffer : ℕ → Option Mem} {bin : List PoolEntry} {f : Mem}
    (h : FrameOf getTxBuffer bin f) :
    frameOffsets f = (offsets ecDatagramFirst bin).takeWhile fun d => decide (d < ecFrameLen f) := by
  have hlt := ecFrameLen_lt f
  have hle : ecFrameLen f ≤ ecDatagramFirst + (bin.map PoolEntry.length).sum := by
    rw [h.len]
    exact Nat.mod_le _ _
  have hwalk := Records.walk_eq_takeWhile (lengths_pos bin) h.holds.laid hle
    (show ecFrameLen f ≤ ecDatagramFirst + 2048 by omega)
  exact Option.some.inj ((walkFrame_eq f).symm.trans hwalk)

/-- In a frame that has not wrapped around these are all datagrams. -/
theorem FrameOf.frameOffsets_of_lt {getTxBuffer : ℕ → Option Mem} {bin : List PoolEntry} {f : Mem}
    (h : FrameOf getTxBuffer bin f) (hlt : ecFrameHdrLength + totalLength bin < 2048) :
    frameOffsets f = offsets ecDatagramFirst bin := by
  rw [h.frameOffsets_eq, h.len, Nat.mod_eq_of_lt hlt, List.takeWhile_eq_self_iff.2]
  intro d hd
  exact decide_eq_true (Records.starts_lt (lengths_pos bin) d hd)

/-! ## Frames below 2048 bytes -/

/-- A frame that has not wrapped around. -/
structure WholeFrame (getTxBuffer : ℕ → Option Mem) (bin : List PoolEntry) (f : Mem) : Prop where
  fits : ecFrameHdrLength + totalLength bin < 2048
  frame : FrameOf getTxBuffer bin f

section
variable {getTxBuffer : ℕ → Option Mem}

theorem WholeFrame.datagrams {bin : List PoolEntry} {f : Mem} (h : WholeFrame getTxBuffer bin f) :
    (frameOffsets f).map (dgBytes f) = bin.map PoolEntry.bytes := by
  rw [h.frame.frameOffsets_of_lt h.fits, h.frame.holds.bytes]

theorem WholeFrame.len {bin : List PoolEntry} {f : Mem} (h : WholeFrame getTxBuffer bin f) :
    ecFrameLen f = ecFrameHdrLength + totalLength bin := by
  rw [h.frame.len, Nat.mod_eq_of_lt h.fits]

theorem WholeFrame.lengths {bin : List PoolEntry} {f : Mem} (h : WholeFrame getTxBuffer bin f) :
    (frameOffsets f).map (ecDatagramLength f) = bin.map PoolEntry.length := by
  have hmap := congrArg (List.map List.length) h.datagrams
  rw [List.map_map, List.map_map] at hmap
  have hleft : List.length ∘ dgBytes f = ecDatagramLength f := funext (dgBytes_length f)
  have hright : List.length ∘ PoolEntry.bytes = PoolEntry.length :=
    funext fun e => dgBytes_length e.data 0
  rwa [hleft, hright] at hmap

theorem wholeFrames_datagrams {bins : List (List PoolEntry)} {fs : List Mem}
    (h : List.Forall₂ (WholeFrame getTxBuffer) bins fs) :
    (fs.flatMap fun f => (frameOffsets f).map (dgBytes f)) = bins.flatten.map PoolEntry.bytes := by
  induction h with
  | nil => rfl
  | cons hf _ ih => rw [List.flatMap_cons, ih, hf.datagrams, List.flatten_cons, List.map_append]

theorem exists_bin_of_mem {R : List PoolEntry → Mem → Prop} {bins : List (List PoolEntry)}
    {fs : List Mem} (h : List.Forall₂ R bins fs) : ∀ f ∈ fs, ∃ bin ∈ bins, R bin f := by
  induction h with
  | nil => simp
  | @cons bin f bins fs hf _ ih =>
    refine List.forall_mem_cons.2 ⟨⟨bin, List.mem_cons_self, hf⟩, fun f' hf' => ?_⟩
    obtain ⟨bin', hbin', h'⟩ := ih f' hf'
    exact ⟨bin', List.mem_cons_of_mem bin hbin', h'⟩

end

/-- With an MTU below 2048 bytes every bin fits into a frame, and the comparison of
`hw_tx_pool` is the one on the true length. -/
theorem pack_le_mtu {mtuSize : ℕ} (hmtu : mtuSize < 2048) {queue : List PoolEntry}
    (hlen : ∀ e ∈ queue, ecFrameHdrLength + e.length ≤ mtuSize) :
    ∀ bin ∈ NextFit.pack (txFits mtuSize) queue, ecFrameHdrLength + totalLength bin ≤ mtuSize := by
  apply NextFit.packFrom_forall
  · exact fun h => absurd rfl h
  · intro e he
    rw [totalLength_cons]
    exact hlen e he
  · intro bin e _ _ hbin hfit
    have hle := of_decide_eq_true hfit
    rw [Nat.mod_eq_of_lt (by omega)] at hle
    simp only [totalLength_append, totalLength_cons, totalLength_nil]
    omega

/-- **Frame packing loses and duplicates nothing.** -/
theorem hwTxPool_packs {mtuSize : ℕ} {getTxBuffer : ℕ → Option Mem} {queue : List PoolEntry}
    (txSend : TxSend) (frameIdx : ℕ) (hmtu : mtuSize < 2048)
    (hlen : ∀ e ∈ queue, ecFrameHdrLength + e.length ≤ mtuSize)
    (hidx : (queue.map PoolEntry.dgIdx).Nodup)
    (hbuf : ∀ k, ∃ f, getTxBuffer k = some f ∧ ecFrameLen f = ecFrameHdrLength) :
    let r := hwTxPool mtuSize getTxBuffer txSend frameIdx queue
    (r.queue = [] ∧ r.popped = none) ∧
      (r.state.frames.flatMap fun f => (frameOffsets f).map (dgBytes f)) =
        queue.map PoolEntry.bytes ∧
      (∀ f ∈ r.state.frames, ecFrameLen f ≤ mtuSize ∧
        ecFrameLen f = ecFrameHdrLength + ((frameOffsets f).map (ecDatagramLength f)).sum ∧
        ∀ pre d post, frameOffsets f = pre ++ d :: post → (dgNext f d = true ↔ post ≠ [])) ∧
      ∀ e ∈ queue, ∃ e', r.state.txSend e.dgIdx = some e' ∧ SentAs e e' := by
  have hempty : ∀ k f, getTxBuffer k = some f → ecFrameLen f = ecFrameHdrLength := by
    intro k f hf
    obtain ⟨f', hf', hlen'⟩ := hbuf k
    rw [hf] at hf'
    cases hf'
    exact hlen'
  intro r
  obtain ⟨es, hqueue, hframes, hrec, hmissing⟩ : ∃ es, queue = es ++ r.unsent ∧ _ ∧ _ ∧ _ :=
    hwTxPool_sends hempty txSend frameIdx queue
  have hunsent : r.unsent = [] := by
    rcases hmissing with hnil | ⟨k, hk⟩
    · exact hnil
    · obtain ⟨f, hf, -⟩ := hbuf k
      rw [hk] at hf
      cases hf
  rw [hunsent, List.append_nil] at hqueue
  subst hqueue
  have hle := pack_le_mtu hmtu hlen
  have hwhole : List.Forall₂ (WholeFrame getTxBuffer) (NextFit.pack (txFits mtuSize) queue)
      r.state.frames := by
    refine ((List.forall₂_and_left _ _).2 ⟨hle, hframes⟩).imp fun bin f h => ⟨?_, h.2⟩
    exact h.1.trans_lt hmtu
  refine ⟨?_, ?_, fun f hf => ?_, hrec.own hidx⟩
  · obtain ⟨hpopped, hrest⟩ := List.append_eq_nil_iff.1 hunsent
    exact ⟨hrest, Option.toList_eq_nil_iff.1 hpopped⟩
  · rw [wholeFrames_datagrams hwhole, NextFit.pack_flatten]
  · obtain ⟨bin, hbin, hf'⟩ := exists_bin_of_mem hwhole f hf
    refine ⟨?_, ?_, ?_⟩
    · rw [hf'.len]
      exact hle bin hbin
    · rw [hf'.len, hf'.lengths]
      rfl
    · rw [hf'.frame.frameOffsets_of_lt hf'.fits]
      exact hf'.frame.holds.next

/-- A frame buffer as `get_tx_buffer` prepares it. -/
def emptyFrame : Mem := fun i =>
  if i = 12 then 0x88 else if i = 13 then 0xA4 else if i = 14 then 16 else 0

/-- An entry with index `idx` and a payload of `256 * len` bytes. -/
def pageEntry (idx len : UInt8) (h : len.toNat ≤ 6 := by decide) : PoolEntry where
  ptr := idx.toNat
  data := fun i => if i = 1 then idx else if i = 7 then len else 0
  userCb := true
  sendIdx := 0
  fits := by
    show 10 + (0 + 256 * (len.toNat % 8)) + 2 ≤ 1600
    omega

/-- Three datagrams without payload and space for two of them: two frames. -/
theorem hwTxPool_packs_three :
    let queue := [pageEntry 3 0, pageEntry 1 0, pageEntry 2 0]
    let r := hwTxPool 45 (fun _ => some emptyFrame) (fun _ => none) 0 queue
    r.queue = [] ∧ r.state.frames.length = 2 ∧
      (r.state.frames.flatMap fun f => (frameOffsets f).map (dgBytes f)) =
        queue.map PoolEntry.bytes := by
  intro queue r
  obtain ⟨⟨hqueue, -⟩, hbytes, -⟩ := hwTxPool_packs (fun _ => none) 0 (show 45 < 2048 by decide)
    (show ∀ e ∈ queue, ecFrameHdrLength + e.length ≤ 45 by decide)
    (show (queue.map PoolEntry.dgIdx).Nodup by decide)
    (show ∀ _, ∃ f, some emptyFrame = some f ∧ ecFrameLen f = ecFrameHdrLength from
      fun _ => ⟨emptyFrame, rfl, rfl⟩)
  exact ⟨hqueue, by rfl, hbytes⟩

end LibEthercat
