import Mathlib.Data.Nat.Notation
import LibEthercat.Lib.Chunks
import LibEthercat.Soe.Model

/-!
# `ec_soe_write` and its fragments

The function writes the bytes into a log buffer before it sends them, two digits for each and with no
look at the end of that buffer. Then it sends one fragment after the other, and waits for a response
behind each; it goes on without one as well.

**Theorem (`writesFragments_iff`).** The fragments are the data, and each of them tells how many
follow, just if the log has room, there is a send buffer for each of them, and the last of many
fragments is not full.
-/

namespace LibEthercat.Soe

open LibEthercat.Coe (Message)
open Chunks

namespace Write

/-! ## The function -/

/-- What the call finds: the slave, whether the `k`-th fragment gets a send buffer, its counter, and
the messages that have been received before, and while the function waits behind that fragment. -/
structure Env where
  present : Bool
  soe : Bool
  smLen : UInt16
  buffer : ℕ → Bool
  counter : ℕ → UInt8
  pending : List Message
  slave : ℕ → List Message

structure Args where
  atn : UInt8
  idn : UInt16
  elements : UInt8
  buf : List UInt8

/-- `mbx_len` is a `size_t`. -/
def Env.mbxLen (env : Env) : ℕ := (env.smLen.toNat + 2 ^ 64 - mbxHdrLen - soeHdrLen) % 2 ^ 64

def SOE_LOG_BUF_SIZE : ℕ := 1024

/-- `soe_log_pos` after the digits of all bytes. When it is behind the end of `soe_log_buf`, the size
for `snprintf` wraps. -/
def soeLog : ℕ → List UInt8 → Option ℕ
  | pos, [] => some pos
  | pos, _ :: bytes => if SOE_LOG_BUF_SIZE < pos then none else soeLog (pos + 2) bytes

/-- A fragment, and what is left behind it. -/
def request (env : Env) (a : Args) (k : ℕ) (data rest : List UInt8) : Request where
  length := (soeHdrLen + data.length) % 2 ^ 16
  counter := env.counter k
  opCode := EC_SOE_WRITE_REQ
  incomplete := decide (rest ≠ [])
  atn := a.atn.toNat % 8
  elements := a.elements
  idnFragmentsLeft :=
    if rest ≠ [] then (rest.length / env.mbxLen + 1) % 2 ^ 16 else a.idn.toNat
  data := data

/-- Wait until there is a write response; `ret` stays if there is none. -/
def awaitWriteRes : Ret → List Message → Ret × List Message
  | ret, [] => (ret, [])
  | ret, m :: pool => if opCode m ≠ EC_SOE_WRITE_RES then awaitWriteRes ret pool else (.ok, pool)

/-- The number of fragments, the messages that have not been taken, and what the caller sees. -/
structure State where
  k : ℕ
  pool : List Message
  sent : List Request
  ret : Ret

def init (env : Env) : State where
  k := 0
  pool := env.pending
  sent := []
  ret := .mailboxTimeout

namespace State

/-- Send a fragment and wait. -/
def send (st : State) (env : Env) (a : Args) (data rest : List UInt8) : State where
  k := st.k + 1
  pool := (awaitWriteRes st.ret (st.pool ++ env.slave st.k)).2
  sent := st.sent ++ [request env a st.k data rest]
  ret := (awaitWriteRes st.ret (st.pool ++ env.slave st.k)).1

def outOfWriteBuffers (st : State) : State := { st with ret := .mailboxOutOfWriteBuffers }

end State

/-- The loop; `left` is behind `from`. With no room for data it divides by zero. -/
def writeLoop (env : Env) (a : Args) (st : State) (left : List UInt8) : Option State :=
  if left.length = 0 then some st
  else if env.buffer st.k = false then some st.outOfWriteBuffers
  else if env.mbxLen = 0 then none
  else writeLoop env a (st.send env a (left.take env.mbxLen) (left.drop env.mbxLen))
    (left.drop env.mbxLen)
termination_by left.length
decreasing_by rw [List.length_drop]; omega

end Write

open Write in
/-- `none`: a write outside `soe_log_buf`, or a division by zero. -/
def ecSoeWrite (env : Env) (a : Args) : Option State :=
  if env.present = false then some { init env with ret := .slaveNotFound }
  else if env.soe = false then some { init env with ret := .mailboxNotSupportedSoe }
  else (soeLog 0 a.buf).bind fun _ => writeLoop env a (init env) a.buf

namespace Write

/-! ## Property and condition -/

/-- Each fragment fits, and says what is behind it. -/
structure Fragments (env : Env) (a : Args) (sent : List Request) : Prop where
  data : (sent.map Request.data).flatten = a.buf
  fits : ∀ q ∈ sent, mbxHdrLen + q.length ≤ env.smLen.toNat ∧ q.length = soeHdrLen + q.data.length
  incomplete : ∀ pre q post, sent = pre ++ q :: post → (q.incomplete = true ↔ post ≠ [])
  left : ∀ pre q post, sent = pre ++ q :: post → q.incomplete = true →
    q.idnFragmentsLeft = post.length

/-- A write response without error. -/
structure WriteOk (m : Message) : Prop where
  opCode : Soe.opCode m = EC_SOE_WRITE_RES
  error : Soe.error m = false

/-- The slave acknowledges each fragment. -/
def Acknowledges (env : Env) : Prop := ∀ k, ∃ m ∈ env.slave k, WriteOk m

def WritesFragments (env : Env) (a : Args) : Prop :=
  ∃ r, ecSoeWrite env a = some r ∧ Fragments env a r.sent

/-- The bytes of the fragments. -/
def pieces (env : Env) (a : Args) : List (List UInt8) :=
  if a.buf = [] then [] else chunks env.mbxLen a.buf

/-- The last of many fragments is not full. -/
structure FragmentsOk (env : Env) (a : Args) : Prop where
  present : env.present = true
  soe : env.soe = true
  log : a.buf.length ≤ 513
  buffers : ∀ k < (pieces env a).length, env.buffer k = true
  notFull : env.mbxLen < a.buf.length → ¬ env.mbxLen ∣ a.buf.length

/-! ## The log -/

theorem soeLog_eq_none {pos : ℕ} {bytes : List UInt8} :
    soeLog pos bytes = none ↔ bytes ≠ [] ∧ SOE_LOG_BUF_SIZE + 2 < pos + 2 * bytes.length := by
  induction bytes generalizing pos with
  | nil => simp [soeLog]
  | cons b bytes ih =>
    rw [soeLog, List.length_cons]
    split_ifs with hpos
    · simp only [ne_eq, List.cons_ne_nil, not_false_eq_true, true_and, true_iff]
      omega
    · rw [ih, ← List.length_pos_iff]
      simp only [ne_eq, List.cons_ne_nil, not_false_eq_true, true_and]
      omega

theorem soeLog_zero {bytes : List UInt8} : soeLog 0 bytes = none ↔ 513 < bytes.length := by
  rw [soeLog_eq_none, ← List.length_pos_iff]
  unfold SOE_LOG_BUF_SIZE
  omega

/-! ## The loop, piece by piece -/

/-- The loop, when the pieces are known. -/
def sendAll (env : Env) (a : Args) (st : State) : List (List UInt8) → State
  | [] => st
  | c :: cs =>
    if env.buffer st.k = false then st.outOfWriteBuffers
    else sendAll env a (st.send env a c cs.flatten) cs

/-- The fragments for the pieces, from the `k`-th on. -/
def requests (env : Env) (a : Args) : ℕ → List (List UInt8) → List Request
  | _, [] => []
  | k, c :: cs => request env a k c cs.flatten :: requests env a (k + 1) cs

section
variable {env : Env} {a : Args} {st : State} {left : List UInt8}

theorem writeLoop_of_nil : writeLoop env a st [] = some st := by
  rw [writeLoop, List.length_nil, if_pos rfl]

/-- Without room a buffer that is missing comes before the division. -/
theorem writeLoop_of_no_room (hroom : env.mbxLen = 0) (hleft : left ≠ []) :
    writeLoop env a st left =
      if env.buffer st.k = false then some st.outOfWriteBuffers else none := by
  have hlen : left.length ≠ 0 := fun h => hleft (List.eq_nil_of_length_eq_zero h)
  rw [writeLoop, if_neg hlen]
  split_ifs <;> rfl

/-- **The pieces** are those of `chunks`. -/
theorem writeLoop_of_room (hroom : 0 < env.mbxLen) (hleft : left ≠ []) :
    writeLoop env a st left = some (sendAll env a st (chunks env.mbxLen left)) := by
  induction left using chunks.induct env.mbxLen generalizing st with
  | case1 left h ih =>
    have hlen : left.length ≠ 0 := by omega
    rw [writeLoop, if_neg hlen, chunks_of_lt h.1 h.2, sendAll, chunks_flatten]
    split_ifs with hbuffer hzero
    · rfl
    · omega
    · exact ih (drop_ne_nil h.2)
  | case2 left h =>
    have hlen : left.length ≠ 0 := fun h => hleft (List.eq_nil_of_length_eq_zero h)
    have hle : left.length ≤ env.mbxLen := by omega
    rw [writeLoop, if_neg hlen, chunks_of_le hle, sendAll, sendAll, List.flatten_nil,
      List.take_of_length_le hle, List.drop_of_length_le hle, writeLoop_of_nil]
    split_ifs with hbuffer hzero
    · rfl
    · omega
    · rfl

/-! ## What is sent -/

theorem incomplete_request {k : ℕ} {data rest : List UInt8} :
    (request env a k data rest).incomplete = true ↔ rest ≠ [] := by
  rw [request]
  exact decide_eq_true_iff

theorem idnFragmentsLeft_request {k : ℕ} {data rest : List UInt8} (h : rest ≠ []) :
    (request env a k data rest).idnFragmentsLeft = (rest.length / env.mbxLen + 1) % 2 ^ 16 := by
  rw [request]
  exact if_pos h

theorem requests_cons (k : ℕ) (c : List UInt8) (cs : List (List UInt8)) :
    requests env a k (c :: cs) = request env a k c cs.flatten :: requests env a (k + 1) cs := rfl

theorem map_data_requests (env : Env) (a : Args) (k : ℕ) (cs : List (List UInt8)) :
    (requests env a k cs).map Request.data = cs := by
  induction cs generalizing k with
  | nil => rfl
  | cons c cs ih => rw [requests, List.map_cons, ih, request]

/-- A step, as long as there are buffers. -/
theorem sendAll_cons {c : List UInt8} {cs : List (List UInt8)}
    (hbuffers : ∀ j < (c :: cs).length, env.buffer (st.k + j) = true) :
    sendAll env a st (c :: cs) = sendAll env a (st.send env a c cs.flatten) cs ∧
      ∀ j < cs.length, env.buffer ((st.send env a c cs.flatten).k + j) = true := by
  constructor
  · have hbuffer : env.buffer st.k = true := hbuffers 0 (Nat.succ_pos _)
    rw [sendAll, if_neg (by simp [hbuffer])]
  · intro j hj
    have hnext := hbuffers (j + 1) (Nat.succ_lt_succ hj)
    rwa [Nat.add_comm j, ← Nat.add_assoc] at hnext

theorem sent_sendAll {cs : List (List UInt8)}
    (hbuffers : ∀ j < cs.length, env.buffer (st.k + j) = true) :
    (sendAll env a st cs).sent = st.sent ++ requests env a st.k cs := by
  induction cs generalizing st with
  | nil => rw [sendAll, requests, List.append_nil]
  | cons c cs ih =>
    obtain ⟨hstep, hrest⟩ := sendAll_cons (a := a) hbuffers
    rw [hstep, ih hrest, requests]
    exact List.append_assoc _ _ _

/-- Without a buffer for one of them, not all are sent. -/
theorem sendAll_of_missing (a : Args) {st : State} {cs : List (List UInt8)} {j : ℕ}
    (hj : j < cs.length) (hmissing : env.buffer (st.k + j) = false) :
    (∃ n < cs.length, (sendAll env a st cs).sent = st.sent ++ (requests env a st.k cs).take n) ∧
      (sendAll env a st cs).ret = .mailboxOutOfWriteBuffers := by
  induction cs generalizing st j with
  | nil => cases hj
  | cons c cs ih =>
    rw [sendAll]
    split_ifs with hbuffer
    · exact ⟨⟨0, Nat.succ_pos _, (List.append_nil _).symm⟩, rfl⟩
    · cases j with
      | zero => exact absurd hmissing hbuffer
      | succ j =>
        have hmissing' : env.buffer ((st.send env a c cs.flatten).k + j) = false := by
          rwa [Nat.add_comm j, ← Nat.add_assoc] at hmissing
        obtain ⟨⟨n, hn, hsent⟩, hret⟩ := ih (Nat.lt_of_succ_lt_succ hj) hmissing'
        refine ⟨⟨n + 1, Nat.succ_lt_succ hn, ?_⟩, hret⟩
        rw [hsent, requests, List.take_succ_cons]
        exact List.append_assoc _ _ _

theorem requests_split {cs : List (List UInt8)} {k : ℕ} {pre post : List Request} {q : Request}
    (h : requests env a k cs = pre ++ q :: post) :
    ∃ cpre c cpost, cs = cpre ++ c :: cpost ∧ cpost.length = post.length ∧
      q = request env a (k + cpre.length) c cpost.flatten := by
  induction cs generalizing k pre with
  | nil => cases pre <;> cases h
  | cons c cs ih =>
    cases pre with
    | nil =>
      obtain ⟨rfl, rfl⟩ := List.cons.inj h
      refine ⟨[], c, cs, rfl, ?_, rfl⟩
      conv_lhs => rw [← map_data_requests env a (k + 1) cs]
      exact List.length_map _
    | cons p pre =>
      obtain ⟨cpre, c', cpost, rfl, hlen, rfl⟩ := ih (List.cons.inj h).2
      refine ⟨c :: cpre, c', cpost, rfl, hlen, ?_⟩
      rw [List.length_cons, Nat.add_assoc, Nat.add_comm 1]

end

/-! ## Fragments left -/

theorem mbxLen_eq {env : Env} (h : 10 < env.smLen.toNat) : env.mbxLen = env.smLen.toNat - 10 := by
  have hlt := env.smLen.toNat_lt
  unfold Env.mbxLen mbxHdrLen soeHdrLen
  omega

/-- The division counts one too many if the last piece is full. -/
theorem div_succ_eq_iff {n d : ℕ} (hn : 0 < n) : n / d + 1 = 1 + (n - 1) / d ↔ ¬ d ∣ n := by
  obtain ⟨n, rfl⟩ := Nat.exists_eq_succ_of_ne_zero (Nat.ne_of_gt hn)
  rw [Nat.succ_div, Nat.succ_sub_one]
  split_ifs with hdvd
  · simp [hdvd]
    omega
  · simp [hdvd]
    omega

section
variable {env : Env} {a : Args}

/-- What a fragment says about those behind it. -/
theorem left_of_split (hlog : a.buf.length ≤ 513) {pre post : List (List UInt8)} {c : List UInt8}
    (hroom : 0 < env.mbxLen) (h : chunks env.mbxLen a.buf = pre ++ c :: post) (hpost : post ≠ [])
    (k : ℕ) :
    (request env a k c post.flatten).idnFragmentsLeft = post.length ↔
      ¬ env.mbxLen ∣ a.buf.length := by
  obtain ⟨hchunks, hne, hdvd⟩ := chunks_rest h hpost
  have hle : post.flatten.length ≤ a.buf.length := by
    rw [← chunks_flatten env.mbxLen a.buf, h]
    simp
    omega
  have hdiv := Nat.div_le_self post.flatten.length env.mbxLen
  have hlen : post.length = 1 + (post.flatten.length - 1) / env.mbxLen := by
    rw [← length_chunks hroom, ← hchunks]
  rw [← hdvd, ← div_succ_eq_iff (List.length_pos_iff.2 hne), ← hlen]
  rw [idnFragmentsLeft_request hne, Nat.mod_eq_of_lt (by omega)]

theorem flatten_ne_nil {pre post : List (List UInt8)} {c : List UInt8}
    (h : chunks env.mbxLen a.buf = pre ++ c :: post) : post.flatten ≠ [] ↔ post ≠ [] := by
  constructor
  · rintro hne rfl
    exact hne rfl
  · intro hpost
    exact (chunks_rest h hpost).2.1

theorem lt_length_of_split {pre post : List (List UInt8)} {c : List UInt8}
    (h : chunks env.mbxLen a.buf = pre ++ c :: post) (hpost : post ≠ []) :
    env.mbxLen < a.buf.length := by
  by_contra hle
  have hlen := congrArg List.length h
  rw [chunks_of_le (Nat.le_of_not_lt hle), List.length_append, List.length_cons] at hlen
  have hpos := List.length_pos_iff.2 hpost
  simp at hlen
  omega

theorem fragments_requests (hmbx : 10 < env.smLen.toNat)
    (hlog : a.buf.length ≤ 513) (hfull : env.mbxLen < a.buf.length → ¬ env.mbxLen ∣ a.buf.length) :
    Fragments env a (requests env a 0 (chunks env.mbxLen a.buf)) := by
  have hlen := mbxLen_eq hmbx
  have hroom : 0 < env.mbxLen := by omega
  refine ⟨?_, ?_, ?_, ?_⟩
  · rw [map_data_requests, chunks_flatten]
  · intro q hq
    obtain ⟨pre, post, hsplit⟩ := List.append_of_mem hq
    obtain ⟨cpre, c, cpost, hcs, -, rfl⟩ := requests_split hsplit
    have hc := length_of_mem_chunks hroom a.buf c (by rw [hcs]; simp)
    show mbxHdrLen + (soeHdrLen + c.length) % 2 ^ 16 ≤ _ ∧
      (soeHdrLen + c.length) % 2 ^ 16 = soeHdrLen + c.length
    unfold mbxHdrLen soeHdrLen
    omega
  · intro pre q post hsplit
    obtain ⟨cpre, c, cpost, hcs, hposts, rfl⟩ := requests_split hsplit
    rw [incomplete_request, flatten_ne_nil hcs, ← List.length_pos_iff, hposts, List.length_pos_iff]
  · intro pre q post hsplit hinc
    obtain ⟨cpre, c, cpost, hcs, hposts, rfl⟩ := requests_split hsplit
    have hpost := (flatten_ne_nil hcs).1 (incomplete_request.1 hinc)
    rw [← hposts]
    exact (left_of_split hlog hroom hcs hpost _).2 (hfull (lt_length_of_split hcs hpost))

/-- When the last piece is full, the first fragment counts one too many. -/
theorem not_fragments_requests (hroom : 0 < env.mbxLen) (hlog : a.buf.length ≤ 513)
    (hlt : env.mbxLen < a.buf.length) (hdvd : env.mbxLen ∣ a.buf.length) :
    ¬ Fragments env a (requests env a 0 (chunks env.mbxLen a.buf)) := by
  intro h
  have hcs : chunks env.mbxLen a.buf =
      [] ++ a.buf.take env.mbxLen :: chunks env.mbxLen (a.buf.drop env.mbxLen) :=
    chunks_of_lt hroom hlt
  have hpost := chunks_ne_nil env.mbxLen (a.buf.drop env.mbxLen)
  generalize a.buf.take env.mbxLen = c at hcs
  generalize chunks env.mbxLen (a.buf.drop env.mbxLen) = cs at hcs hpost
  have hsplit : requests env a 0 (chunks env.mbxLen a.buf) =
      [] ++ request env a 0 c cs.flatten :: requests env a (0 + 1) cs := by
    rw [hcs, List.nil_append, List.nil_append, requests_cons]
  have hleft := h.left [] _ _ hsplit (incomplete_request.2 ((flatten_ne_nil hcs).2 hpost))
  rw [← List.length_map Request.data, map_data_requests] at hleft
  exact (left_of_split hlog hroom hcs hpost 0).1 hleft hdvd

/-! ## The call -/

theorem pieces_eq (hbuf : a.buf ≠ []) : pieces env a = chunks env.mbxLen a.buf := if_neg hbuf

theorem ecSoeWrite_of_ready (hpresent : env.present = true) (hsoe : env.soe = true)
    (hlog : a.buf.length ≤ 513) : ecSoeWrite env a = writeLoop env a (init env) a.buf := by
  obtain ⟨pos, hpos⟩ := Option.ne_none_iff_exists'.1 fun h =>
    Nat.not_lt_of_le hlog (soeLog_zero.1 h)
  rw [ecSoeWrite, if_neg (by simp [hpresent]), if_neg (by simp [hsoe]), hpos]
  rfl

/-- Only part of the data, if a buffer is missing. -/
theorem not_fragments_of_missing {cs : List (List UInt8)} {n : ℕ} (hcs : cs.flatten = a.buf)
    (hpos : ∀ c ∈ cs, 0 < c.length) (hn : n < cs.length) :
    ¬ Fragments env a ((requests env a 0 cs).take n) := by
  intro h
  have hdata := h.data
  rw [List.map_take, map_data_requests, ← hcs] at hdata
  conv_rhs at hdata => rw [← List.take_append_drop n cs, List.flatten_append]
  have hnil := List.self_eq_append_right.1 hdata
  rw [List.drop_eq_getElem_cons hn, List.flatten_cons] at hnil
  have hc := hpos cs[n] (List.getElem_mem hn)
  rw [(List.append_eq_nil_iff.1 hnil).1] at hc
  exact Nat.lt_irrefl 0 hc

/-- A call that does not come to the loop sends nothing. -/
theorem ready_of_sent {r : State} (hrun : ecSoeWrite env a = some r) (hsent : r.sent ≠ []) :
    env.present = true ∧ env.soe = true ∧ a.buf.length ≤ 513 := by
  rw [ecSoeWrite] at hrun
  split_ifs at hrun with hpresent hsoe
  · cases hrun
    exact absurd rfl hsent
  · cases hrun
    exact absurd rfl hsent
  · refine ⟨by simpa using hpresent, by simpa using hsoe, ?_⟩
    obtain ⟨pos, hpos, -⟩ := Option.bind_eq_some_iff.1 hrun
    refine Nat.le_of_not_lt fun hlt => ?_
    cases (soeLog_zero.2 hlt).symm.trans hpos

end

end Write

open Write

/-- **Fragments**: all data, and the right numbers, just if the last one is not full. -/
theorem writesFragments_iff (env : Env) (a : Args) (hbuf : a.buf ≠ [])
    (hmbx : 10 < env.smLen.toNat) :
    WritesFragments env a ↔ FragmentsOk env a := by
  have hlen := mbxLen_eq hmbx
  have hroom : 0 < env.mbxLen := by omega
  constructor
  · rintro ⟨r, hrun, h⟩
    have hsent : r.sent ≠ [] := by
      intro hnil
      have hdata := h.data
      rw [hnil] at hdata
      exact hbuf hdata.symm
    obtain ⟨hpresent, hsoe, hlog⟩ := ready_of_sent hrun hsent
    rw [ecSoeWrite_of_ready hpresent hsoe hlog, writeLoop_of_room hroom hbuf] at hrun
    obtain rfl := Option.some.inj hrun
    have hbuffers : ∀ k < (chunks env.mbxLen a.buf).length, env.buffer k = true := by
      intro k hk
      by_contra hmissing
      obtain ⟨⟨n, hn, hsent⟩, -⟩ := sendAll_of_missing a hk
        (show env.buffer ((init env).k + k) = false by simpa [init] using hmissing)
      rw [hsent] at h
      exact not_fragments_of_missing (chunks_flatten _ _) (length_pos_of_mem_chunks hbuf) hn h
    refine ⟨hpresent, hsoe, hlog, (pieces_eq hbuf).symm ▸ hbuffers, ?_⟩
    intro hlt hdvd
    rw [sent_sendAll (by simpa [init] using hbuffers)] at h
    exact not_fragments_requests hroom hlog hlt hdvd h
  · rintro ⟨hpresent, hsoe, hlog, hbuffers, hfull⟩
    rw [pieces_eq hbuf] at hbuffers
    refine ⟨_, (ecSoeWrite_of_ready hpresent hsoe hlog).trans (writeLoop_of_room hroom hbuf), ?_⟩
    rw [sent_sendAll (by simpa [init] using hbuffers)]
    exact fragments_requests hmbx hlog hfull

/-- A write response of no data. -/
def acknowledgement : Message := fun i => if i = 0 then 4 else if i = 6 then 4 else 0

/-- A mailbox with room for two bytes. -/
def twoByteMailbox : Env where
  present := true
  soe := true
  smLen := 12
  buffer := fun _ => true
  counter := fun _ => 1
  pending := []
  slave := fun _ => [acknowledgement]

/-- Three bytes are two fragments. -/
theorem writesFragments_three : WritesFragments twoByteMailbox ⟨0, 32, 64, [1, 2, 3]⟩ :=
  (writesFragments_iff twoByteMailbox ⟨0, 32, 64, [1, 2, 3]⟩ (by decide) (by decide)).2
    ⟨rfl, rfl, by decide, fun _ _ => rfl, by decide⟩

/-- Of four bytes, the first fragment says that two more follow. -/
theorem four_miscounted : ¬ ∀ env a, env.present = true → env.soe = true →
    (∀ k, env.buffer k = true) → Acknowledges env → a.buf ≠ [] → 10 < env.smLen.toNat →
    WritesFragments env a := by
  intro hall
  obtain ⟨r, hrun, h⟩ := hall twoByteMailbox ⟨0, 32, 64, [1, 2, 3, 4]⟩ rfl rfl (fun _ => rfl)
    (fun _ => ⟨acknowledgement, List.mem_singleton_self _, rfl, rfl⟩) (by decide) (by decide)
  rw [ecSoeWrite_of_ready rfl rfl (by decide), writeLoop_of_room (by decide) (by decide)] at hrun
  obtain rfl := Option.some.inj hrun
  rw [sent_sendAll fun _ _ => rfl] at h
  exact not_fragments_requests (by decide) (by decide) (by decide) (by decide) h

end LibEthercat.Soe
