import LibEthercat.Soe.Write

/-!
# What `ec_soe_write` returns

`ret` is the error of a timeout until there is a write response, of whichever fragment and with
whichever error flag. After that it is `EC_OK`, unless there is no send buffer for another fragment.

**Theorem (`reportsFailures_iff`).** `EC_OK` means that all fragments have been sent and acknowledged
just if they are acknowledged anyway, or there is no write response at all, or a send buffer is
missing.
-/

namespace LibEthercat.Soe

open LibEthercat.Coe (Message)
open Chunks

namespace Write

/-! ## Property and condition -/

def ReportsFailures (env : Env) (a : Args) : Prop :=
  ∃ r, ecSoeWrite env a = some r ∧ (r.ret = .ok →
    (r.sent.map Request.data).flatten = a.buf ∧ ∀ k < r.sent.length, ∃ m ∈ env.slave k, WriteOk m)

/-- There is no write response, good or bad, to the first `n` fragments. -/
structure Silent (env : Env) (n : ℕ) : Prop where
  pending : ∀ m ∈ env.pending, opCode m ≠ EC_SOE_WRITE_RES
  slave : ∀ k < n, ∀ m ∈ env.slave k, opCode m ≠ EC_SOE_WRITE_RES

/-- The call ends before it sends anything; or the log has room, and a send buffer is missing, or
nothing is divided by zero and the fragments are all acknowledged or none is answered. -/
def AnswersOk (env : Env) (a : Args) : Prop :=
  env.present = false ∨ env.soe = false ∨ a.buf.length ≤ 513 ∧
    ((∃ k < (pieces env a).length, env.buffer k = false) ∨
      (a.buf ≠ [] → env.mbxLen ≠ 0) ∧ (Silent env (pieces env a).length ∨
        ∀ k < (pieces env a).length, ∃ m ∈ env.slave k, WriteOk m))

/-! ## Waiting -/

theorem awaitWriteRes_of_none {ret : Ret} {pool : List Message}
    (h : ∀ m ∈ pool, opCode m ≠ EC_SOE_WRITE_RES) : awaitWriteRes ret pool = (ret, []) := by
  induction pool with
  | nil => rfl
  | cons m pool ih =>
    rw [awaitWriteRes, if_pos (h m List.mem_cons_self)]
    exact ih fun x hx => h x (List.mem_cons_of_mem m hx)

theorem awaitWriteRes_of_mem {ret : Ret} {pool : List Message} {m : Message} (hm : m ∈ pool)
    (hop : opCode m = EC_SOE_WRITE_RES) : (awaitWriteRes ret pool).1 = .ok := by
  induction pool with
  | nil => cases hm
  | cons x pool ih =>
    rw [awaitWriteRes]
    split_ifs with hx
    · rcases List.mem_cons.1 hm with rfl | hm
      · exact absurd hop hx
      · exact ih hm
    · rfl

theorem awaitWriteRes_ok (pool : List Message) : (awaitWriteRes .ok pool).1 = .ok := by
  induction pool with
  | nil => rfl
  | cons m pool ih =>
    rw [awaitWriteRes]
    split_ifs
    · exact ih
    · rfl

section
variable {env : Env} {a : Args} {st : State} {cs : List (List UInt8)}

/-- `EC_OK` stays. -/
theorem sendAll_of_ok (hok : st.ret = .ok)
    (hbuffers : ∀ j < cs.length, env.buffer (st.k + j) = true) :
    (sendAll env a st cs).ret = .ok := by
  induction cs generalizing st with
  | nil => exact hok
  | cons c cs ih =>
    obtain ⟨hstep, hrest⟩ := sendAll_cons (a := a) hbuffers
    rw [hstep]
    refine ih ?_ hrest
    rw [State.send, hok]
    exact awaitWriteRes_ok _

/-- One response is enough for `EC_OK`. -/
theorem sendAll_of_response (hbuffers : ∀ j < cs.length, env.buffer (st.k + j) = true) {j : ℕ}
    (hj : j < cs.length) {m : Message} (hm : m ∈ st.pool ++ env.slave (st.k + j))
    (hop : opCode m = EC_SOE_WRITE_RES) : (sendAll env a st cs).ret = .ok := by
  induction cs generalizing st j with
  | nil => cases hj
  | cons c cs ih =>
    obtain ⟨hstep, hrest⟩ := sendAll_cons (a := a) hbuffers
    have hnow : m ∈ st.pool ++ env.slave st.k → (sendAll env a st (c :: cs)).ret = .ok := by
      intro hmem
      rw [hstep]
      exact sendAll_of_ok (awaitWriteRes_of_mem hmem hop) hrest
    cases j with
    | zero => exact hnow hm
    | succ j =>
      rcases List.mem_append.1 hm with hpool | hslave
      · exact hnow (List.mem_append_left _ hpool)
      · rw [hstep]
        refine ih hrest (Nat.lt_of_succ_lt_succ hj) (List.mem_append_right _ ?_)
        rwa [Nat.add_comm j, ← Nat.add_assoc] at hslave

/-- Without a response `ret` is what it was. -/
theorem sendAll_of_silent (hbuffers : ∀ j < cs.length, env.buffer (st.k + j) = true)
    (hpool : ∀ m ∈ st.pool, opCode m ≠ EC_SOE_WRITE_RES)
    (hslave : ∀ j < cs.length, ∀ m ∈ env.slave (st.k + j), opCode m ≠ EC_SOE_WRITE_RES) :
    (sendAll env a st cs).ret = st.ret := by
  induction cs generalizing st with
  | nil => rfl
  | cons c cs ih =>
    obtain ⟨hstep, hrest⟩ := sendAll_cons (a := a) hbuffers
    have hnone : ∀ m ∈ st.pool ++ env.slave st.k, opCode m ≠ EC_SOE_WRITE_RES := by
      intro m hm
      exact (List.mem_append.1 hm).elim (hpool m) (hslave 0 (Nat.succ_pos _) m)
    have hwait : awaitWriteRes st.ret _ = _ := awaitWriteRes_of_none hnone
    rw [hstep, ih hrest]
    · rw [State.send, hwait]
    · rw [State.send, hwait]
      exact fun m hm => (by cases hm)
    · intro j hj m hm
      refine hslave (j + 1) (Nat.succ_lt_succ hj) m ?_
      rwa [Nat.add_comm j, ← Nat.add_assoc]

/-! ## The call -/

/-- All fragments are sent: then it depends on the responses. -/
theorem reports_sendAll (hbuffers : ∀ j < cs.length, env.buffer j = true) (hcs : cs.flatten = a.buf)
    (hne : cs ≠ []) :
    ((sendAll env a (init env) cs).ret = .ok →
      ((sendAll env a (init env) cs).sent.map Request.data).flatten = a.buf ∧
        ∀ k < (sendAll env a (init env) cs).sent.length, ∃ m ∈ env.slave k, WriteOk m) ↔
      Silent env cs.length ∨ ∀ k < cs.length, ∃ m ∈ env.slave k, WriteOk m := by
  have hbuffers' : ∀ j < cs.length, env.buffer ((init env).k + j) = true := by
    simpa [init] using hbuffers
  have hsent : (sendAll env a (init env) cs).sent = requests env a 0 cs := sent_sendAll hbuffers'
  have hlen : (requests env a 0 cs).length = cs.length := by
    rw [← List.length_map Request.data, map_data_requests]
  rw [hsent, map_data_requests, hlen]
  constructor
  · intro h
    by_cases hok : (sendAll env a (init env) cs).ret = .ok
    · exact .inr (h hok).2
    · refine .inl ⟨fun m hm hop => hok ?_, fun k hk m hm hop => hok ?_⟩
      · exact sendAll_of_response hbuffers' (List.length_pos_iff.2 hne)
          (List.mem_append_left _ hm) hop
      · refine sendAll_of_response hbuffers' hk (List.mem_append_right _ ?_) hop
        rwa [init, Nat.zero_add]
  · rintro (hsilent | hall) hok
    · have hret := sendAll_of_silent (a := a) hbuffers' hsilent.pending fun j hj m hm =>
        hsilent.slave j hj m (by rwa [init, Nat.zero_add] at hm)
      cases hret.symm.trans hok
    · exact ⟨hcs, hall⟩

theorem reports_of_ne_ok {r : State} (hrun : ecSoeWrite env a = some r) (hret : r.ret ≠ .ok) :
    ReportsFailures env a := ⟨r, hrun, fun hok => absurd hok hret⟩

theorem reports_of_empty (hrun : ecSoeWrite env a = writeLoop env a (init env) a.buf)
    (hbuf : a.buf = []) : ReportsFailures env a := by
  rw [hbuf, writeLoop_of_nil] at hrun
  exact reports_of_ne_ok hrun (by simp [init])

/-- Without room for data it divides by zero, if there is a buffer. -/
theorem reports_of_no_room (hrun : ecSoeWrite env a = writeLoop env a (init env) a.buf)
    (hbuf : a.buf ≠ []) (hroom : env.mbxLen = 0) :
    ReportsFailures env a ↔ env.buffer 0 = false := by
  rw [writeLoop_of_no_room hroom hbuf] at hrun
  have hfirst : (init env).k = 0 := rfl
  rw [hfirst] at hrun
  by_cases hbuffer : env.buffer 0 = false
  · rw [if_pos hbuffer] at hrun
    exact iff_of_true (reports_of_ne_ok hrun (by simp [State.outOfWriteBuffers])) hbuffer
  · rw [if_neg hbuffer] at hrun
    refine iff_of_false ?_ hbuffer
    rintro ⟨r, hr, -⟩
    cases hr.symm.trans hrun

theorem reports_of_room (hrun : ecSoeWrite env a = writeLoop env a (init env) a.buf)
    (hbuf : a.buf ≠ []) (hroom : 0 < env.mbxLen) :
    ReportsFailures env a ↔ (∃ k < (pieces env a).length, env.buffer k = false) ∨
      Silent env (pieces env a).length ∨
        ∀ k < (pieces env a).length, ∃ m ∈ env.slave k, WriteOk m := by
  rw [writeLoop_of_room hroom hbuf] at hrun
  rw [pieces_eq hbuf]
  by_cases hmissing : ∃ k < (chunks env.mbxLen a.buf).length, env.buffer k = false
  · obtain ⟨k, hk, hbuffer⟩ := hmissing
    obtain ⟨-, hret⟩ := sendAll_of_missing a hk
      (show env.buffer ((init env).k + k) = false by rwa [init, Nat.zero_add])
    refine iff_of_true (reports_of_ne_ok hrun ?_) (.inl ⟨k, hk, hbuffer⟩)
    rw [hret]
    simp
  · have hbuffers : ∀ k < (chunks env.mbxLen a.buf).length, env.buffer k = true := by
      intro k hk
      by_contra hbuffer
      exact hmissing ⟨k, hk, by simpa using hbuffer⟩
    rw [or_iff_right hmissing,
      ← reports_sendAll hbuffers (chunks_flatten _ a.buf) (chunks_ne_nil _ _)]
    constructor
    · rintro ⟨r, hr, h⟩
      obtain rfl := Option.some.inj (hrun.symm.trans hr)
      exact h
    · exact fun h => ⟨_, hrun, h⟩

theorem length_pieces_of_no_room (hbuf : a.buf ≠ []) (hroom : env.mbxLen = 0) :
    (pieces env a).length = 1 := by
  rw [pieces_eq hbuf, chunks, if_neg (by omega)]
  rfl

theorem reports_of_long (hpresent : env.present = true) (hsoe : env.soe = true)
    (hlog : 513 < a.buf.length) : ¬ ReportsFailures env a := by
  rintro ⟨r, hrun, -⟩
  rw [ecSoeWrite, if_neg (by simp [hpresent]), if_neg (by simp [hsoe]), soeLog_zero.2 hlog] at hrun
  cases hrun

end

end Write

open Write

/-- **Failures**: reported, just if there is no response that hides them. -/
theorem reportsFailures_iff (env : Env) (a : Args) : ReportsFailures env a ↔ AnswersOk env a := by
  by_cases hpresent : env.present = false
  · have hrun : ecSoeWrite env a = some { init env with ret := .slaveNotFound } := by
      rw [ecSoeWrite, if_pos hpresent]
    exact iff_of_true (reports_of_ne_ok hrun (by simp)) (.inl hpresent)
  by_cases hsoe : env.soe = false
  · have hrun : ecSoeWrite env a = some { init env with ret := .mailboxNotSupportedSoe } := by
      rw [ecSoeWrite, if_neg hpresent, if_pos hsoe]
    exact iff_of_true (reports_of_ne_ok hrun (by simp)) (.inr (.inl hsoe))
  rw [AnswersOk, or_iff_right hpresent, or_iff_right hsoe]
  rw [Bool.not_eq_false] at hpresent hsoe
  by_cases hlog : a.buf.length ≤ 513
  · have hrun := ecSoeWrite_of_ready hpresent hsoe hlog
    rw [and_iff_right hlog]
    by_cases hbuf : a.buf = []
    · have hpieces : (pieces env a).length = 0 := by rw [pieces, if_pos hbuf]; rfl
      refine iff_of_true (reports_of_empty hrun hbuf) (.inr ⟨fun h => absurd hbuf h, .inr ?_⟩)
      rw [hpieces]
      exact fun k hk => absurd hk (Nat.not_lt_zero k)
    by_cases hroom : env.mbxLen = 0
    · rw [reports_of_no_room hrun hbuf hroom, length_pieces_of_no_room hbuf hroom]
      simp [hbuf, hroom]
    · rw [reports_of_room hrun hbuf (Nat.pos_of_ne_zero hroom), and_iff_right fun _ => hroom]
  · exact iff_of_false (reports_of_long hpresent hsoe (Nat.lt_of_not_le hlog)) fun h => hlog h.1

/-- A write response with the error flag. -/
def refusal : Message := fun i => if i = 0 then 4 else if i = 6 then 20 else 0

/-- A slave that refuses the only fragment. -/
theorem refused_ok : ¬ ∀ env a, ReportsFailures env a := by
  intro hall
  have hreports := hall { twoByteMailbox with slave := fun _ => [refusal] } ⟨0, 32, 64, [1]⟩
  rw [reports_of_room (ecSoeWrite_of_ready rfl rfl (by decide)) (by decide) (by decide),
    pieces_eq (by decide), chunks_of_le (by decide)] at hreports
  rcases hreports with ⟨k, -, hbuffer⟩ | hsilent | hall
  · cases hbuffer
  · exact hsilent.slave 0 Nat.one_pos refusal (List.mem_singleton_self _) rfl
  · obtain ⟨m, hm, hok⟩ := hall 0 Nat.one_pos
    rw [List.mem_singleton.1 hm] at hok
    cases hok.error

end LibEthercat.Soe
