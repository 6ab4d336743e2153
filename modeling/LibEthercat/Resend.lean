import LibEthercat.Hw.Rx
import LibEthercat.Lib.While

/-!
# Repeating lost datagrams

The loop of `ec_transceive`: it queues the datagram, waits for the answer, and is meant to do so again
until `EC_TIMEOUT_LOW_PRIO` has expired. Its condition also asks for `ret == EC_OK`, which is never
so after a wait that has failed.

**Theorem (`resends_iff`).** An answer before the timeout is returned just if it is the answer to the
first transmission, or there is none.
-/

namespace LibEthercat.Resend

open Function (update)

/-! ## The function -/

inductive Ret
  | ok
  | timeout
  | outOfIndices
  | outOfDatagrams
deriving DecidableEq

/-- A datagram as it came back; as the one that was sent, it fits into a pool entry. -/
structure Answer where
  bytes : Mem
  fits : ecDatagramLength bytes 0 ≤ lecMaxPoolDataSize

/-- What is asked for. -/
structure Request where
  cmd : UInt8
  idx : UInt8
  adr : UInt32
  datalen : ℕ

/-- What happens to the `n`-th transmission: its answer, if the wait for it does not fail, and
whether `EC_TIMEOUT_LOW_PRIO` has expired when the wait is over. -/
structure Line where
  answer : ℕ → Option Answer
  expired : ℕ → Bool

/-- An index and a pool entry can be had. -/
structure Resources where
  index : Bool
  entry : Bool

/-- The locals, and what the caller gets: `queued` counts the calls of `hw_enqueue`. -/
structure State where
  queued : ℕ
  entry : Mem
  wkc : UInt16
  data : Mem
  ret : Ret

/-- `ec_datagram_wkc` -/
def ecDatagramWkc (m : Mem) : UInt16 :=
  UInt16.ofNat ((m (ecDatagramLength m 0 - 2)).toNat + 256 * (m (ecDatagramLength m 0 - 1)).toNat)

/-- `ec_datagram_payload` -/
def ecDatagramPayload (m : Mem) : Mem := fun i => m (ecDatagramHdrLength + i)

/-- The datagram in the entry: zeros, and the fields. Only 11 bits of the length are kept. -/
def request (entry : Mem) (q : Request) (data : Mem) : Mem :=
  let m := entry.copy 0 (fun _ => 0) (ecDatagramHdrLength + q.datalen + ecWkcSize)
  let m : Mem := update m 0 q.cmd
  let m : Mem := update m 1 q.idx
  let m := m.copy 2 (fun i => UInt8.ofNat (q.adr.toNat / 256 ^ i)) 4
  let m : Mem := update m 6 (UInt8.ofNat (q.datalen % 256))
  let m : Mem := update m 7 (UInt8.ofNat (q.datalen / 256 % 8))
  m.copy ecDatagramHdrLength data q.datalen

/-- `cb_block` -/
def cbBlock (entry : Mem) (a : Answer) : Mem :=
  entry.copy 0 a.bytes (min (ecDatagramLength a.bytes 0) lecMaxPoolDataSize)

/-- The end of a wait. -/
def received (datalen : ℕ) (st : State) : Option Answer → State
  | none => { st with queued := st.queued + 1, wkc := 0, ret := .timeout }
  | some a =>
    let entry := cbBlock st.entry a
    { queued := st.queued + 1
      entry := entry
      wkc := ecDatagramWkc entry
      data := if ecDatagramWkc entry ≠ 0 then st.data.copy 0 (ecDatagramPayload entry) datalen
        else st.data
      ret := .ok }

/-- A pass of the loop. -/
def pass (datalen : ℕ) (l : Line) (st : State) : State ⊕ State :=
  let st' := received datalen st (l.answer st.queued)
  match l.answer st.queued with
  | some _ => .inr st'
  | none => if l.expired st.queued = false ∧ st'.ret = .ok then .inl st' else .inr st'

/-- `ec_transceive`, with the caller's `data` and `wkc`. -/
def ecTransceive (fuel : ℕ) (avail : Resources) (l : Line) (q : Request) (entry data : Mem)
    (wkc : UInt16) : Option State :=
  if avail.index = false then some ⟨0, entry, wkc, data, .outOfIndices⟩
  else if avail.entry = false then some ⟨0, entry, wkc, data, .outOfDatagrams⟩
  else While.run (pass q.datalen l) fuel ⟨0, request entry q data, wkc, data, .ok⟩

/-! ## Property and condition -/

/-- The `n`-th transmission is the first one that is answered, and that is in time. -/
structure AnsweredInTime (avail : Resources) (l : Line) (n : ℕ) (a : Answer) : Prop where
  index : avail.index = true
  entry : avail.entry = true
  lost : ∀ m < n, l.answer m = none
  answer : l.answer n = some a
  inTime : ∀ m ≤ n, l.expired m = false

/-- The call sends `n + 1` times and returns this answer. -/
structure Returns (datalen : ℕ) (data : Mem) (n : ℕ) (a : Answer) (r : State) : Prop where
  ret : r.ret = .ok
  queued : r.queued = n + 1
  wkc : r.wkc = ecDatagramWkc a.bytes
  payload : ecDatagramWkc a.bytes ≠ 0 →
    ∀ i, i < datalen → i < dgLen a.bytes 0 → r.data i = ecDatagramPayload a.bytes i
  noPayload : ecDatagramWkc a.bytes = 0 → r.data = data
  behind : ∀ i, datalen ≤ i → r.data i = data i

/-- Every answer that comes in time is returned, and the call ends. -/
def Resends (avail : Resources) (l : Line) (q : Request) (entry data : Mem) (wkc : UInt16) : Prop :=
  ∀ n a, AnsweredInTime avail l n a →
    ∃ fuel r, ecTransceive fuel avail l q entry data wkc = some r ∧ Returns q.datalen data n a r

/-! ## The answer in the entry -/

theorem cbBlock_of_lt (entry : Mem) (a : Answer) {i : ℕ} (hi : i < ecDatagramLength a.bytes 0) :
    cbBlock entry a i = a.bytes i := by
  have hfits := a.fits
  rw [cbBlock, Nat.min_eq_left hfits]
  exact if_pos ⟨Nat.zero_le i, by omega⟩

theorem ecDatagramLength_cbBlock (entry : Mem) (a : Answer) :
    ecDatagramLength (cbBlock entry a) 0 = ecDatagramLength a.bytes 0 := by
  have hge := ecDatagramLength_ge a.bytes 0
  have h6 := cbBlock_of_lt entry a (i := 0 + 6) (by omega)
  have h7 := cbBlock_of_lt entry a (i := 0 + 7) (by omega)
  rw [ecDatagramLength, ecDatagramLength, dgLen, dgLen, h6, h7]

theorem ecDatagramWkc_cbBlock (entry : Mem) (a : Answer) :
    ecDatagramWkc (cbBlock entry a) = ecDatagramWkc a.bytes := by
  have hge := ecDatagramLength_ge a.bytes 0
  rw [ecDatagramWkc, ecDatagramLength_cbBlock, cbBlock_of_lt entry a (by omega),
    cbBlock_of_lt entry a (by omega)]
  rfl

theorem received_data (datalen : ℕ) (st : State) (a : Answer) :
    (received datalen st (some a)).data =
      if ecDatagramWkc a.bytes ≠ 0 then
        st.data.copy 0 (ecDatagramPayload (cbBlock st.entry a)) datalen
      else st.data := by
  rw [← ecDatagramWkc_cbBlock st.entry a]
  rfl

/-- An answer is handed on as it is. -/
theorem returns_received (datalen : ℕ) (st : State) (a : Answer) :
    Returns datalen st.data st.queued a (received datalen st (some a)) := by
  have hdata := received_data datalen st a
  refine ⟨rfl, rfl, ecDatagramWkc_cbBlock st.entry a, fun hne i hi hlt => ?_, fun hzero => ?_,
    fun i hi => ?_⟩
  · have hcopy : (st.data.copy 0 (ecDatagramPayload (cbBlock st.entry a)) datalen) i =
        ecDatagramPayload (cbBlock st.entry a) i := if_pos ⟨Nat.zero_le i, by omega⟩
    rw [hdata, if_pos hne, hcopy, ecDatagramPayload, ecDatagramPayload]
    exact cbBlock_of_lt st.entry a (by unfold ecDatagramLength; omega)
  · rw [hdata, if_neg (not_not_intro hzero)]
  · rw [hdata]
    split_ifs
    · exact if_neg (by omega)
    · rfl

/-! ## The loop ends after the first wait -/

section
variable {datalen : ℕ} {l : Line} {st : State}

theorem pass_eq (datalen : ℕ) (l : Line) (st : State) :
    pass datalen l st = .inr (received datalen st (l.answer st.queued)) := by
  unfold pass
  cases l.answer st.queued with
  | some a => rfl
  | none =>
    -- `ret` is `EC_ERROR_TIMEOUT`
    exact if_neg fun h => by cases h.2

theorem run_pass {fuel : ℕ} {r : State} (h : While.run (pass datalen l) fuel st = some r) :
    r = received datalen st (l.answer st.queued) :=
  ((While.ends_of_done (pass_eq datalen l st)).1 ⟨fuel, h⟩).symm

end

/-- **Lost frames.** What is answered before `EC_TIMEOUT_LOW_PRIO` has expired is returned just if the
first transmission is answered, or none is in time. -/
theorem resends_iff (avail : Resources) (l : Line) (q : Request) (entry data : Mem) (wkc : UInt16) :
    Resends avail l q entry data wkc ↔
      (l.answer 0 ≠ none ∨ ∀ n a, ¬ AnsweredInTime avail l n a) := by
  constructor
  · intro h
    by_contra hno
    obtain ⟨hlost, hsome⟩ := not_or.1 hno
    rw [not_not] at hlost
    refine hsome fun n a hin => ?_
    obtain ⟨fuel, r, hrun, hret⟩ := h n a hin
    rw [ecTransceive, if_neg (by simp [hin.index]), if_neg (by simp [hin.entry])] at hrun
    have hr := run_pass hrun
    rw [hlost] at hr
    rw [hr] at hret
    cases hret.ret
  · rintro (hfirst | hnone) n a hin
    · have hzero : n = 0 := by
        by_contra hne
        exact hfirst (hin.lost 0 (Nat.pos_of_ne_zero hne))
      subst hzero
      have hreturns := returns_received q.datalen ⟨0, request entry q data, wkc, data, .ok⟩ a
      refine ⟨1, _, ?_, hreturns⟩
      rw [ecTransceive, if_neg (by simp [hin.index]), if_neg (by simp [hin.entry]), While.run,
        pass_eq, hin.answer]
    · exact absurd hin (hnone n a)

/-- A datagram without payload, with working counter 1. -/
def answerOne : Answer := ⟨update (fun _ => 0) 10 1, by decide⟩

/-- The first transmission is lost, the second one is answered. -/
theorem lost_once_not_resent :
    ¬ ∀ avail l q entry data wkc, Resends avail l q entry data wkc := by
  intro hall
  obtain ⟨fuel, r, hrun, hret⟩ := hall ⟨true, true⟩
    ⟨fun n => if n = 0 then none else some answerOne, fun _ => false⟩ ⟨1, 0, 0, 0⟩ (fun _ => 0)
    (fun _ => 0) 0 1 answerOne ⟨rfl, rfl, fun m hm => if_pos (by omega), rfl, fun _ _ => rfl⟩
  rw [run_pass hrun] at hret
  cases hret.ret

end LibEthercat.Resend
