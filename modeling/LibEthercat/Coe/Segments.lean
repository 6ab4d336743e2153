import Mathlib.Data.List.Chain
import LibEthercat.Coe.Download
import LibEthercat.Datagram

/-!
# The segments of a download

What the loop of `ec_coe_sdo_write_normal` sends and returns, for any buffers and any answers: how
many segments go out, how the call ends, and what their headers are.

* `sdoWrite_carries` — with all buffers and answers, the payloads are the data.
* `sdoWriteNormal_recognisable_iff` — the last segment looks like the others.
* `sdoWriteNormal_fails_iff` — only a failure of the last segment fails the call.
-/

namespace LibEthercat.Coe

/-! ## The loop over the segments -/

/-- How many segments `n` bytes take. -/
def segCount (smLen : UInt16) (n : ℕ) : ℕ := (n + segLen smLen - 1) / segLen smLen

@[simp] theorem segCount_zero (smLen : UInt16) : segCount smLen 0 = 0 := by
  have := segLen_ge smLen
  exact Nat.div_eq_of_lt (by omega)

theorem segCount_pos (smLen : UInt16) {n : ℕ} (h : 0 < n) :
    segCount smLen n = segCount smLen (n - segLen smLen) + 1 := by
  have := segLen_ge smLen
  unfold segCount
  have hn : n + segLen smLen - 1 = n - 1 + segLen smLen := by omega
  rw [hn, Nat.add_div_right _ (by omega)]
  congr 1
  by_cases hle : segLen smLen ≤ n
  · congr 1
    omega
  · rw [Nat.div_eq_of_lt (by omega), Nat.div_eq_of_lt (by omega)]

theorem lt_segCount {smLen : UInt16} {i n : ℕ} : i < segCount smLen n ↔ i * segLen smLen < n := by
  have := segLen_ge smLen
  unfold segCount
  rw [Nat.lt_iff_add_one_le, Nat.le_div_iff_mul_le (by omega), Nat.add_mul]
  omega

section
variable {env : MbxEnv} {k : ℕ} {t : Bool} {w : Wait} {rest : List UInt8}

/-- How the wait for the answer to the next segment ends. -/
def nextWait (env : MbxEnv) (k : ℕ) (w : Wait) : Wait :=
  awaitAnswer .mailboxTimeout w.abortCode (w.queue ++ env.slave k)

@[simp] theorem segmentLoop_nil : segmentLoop env k t w [] = ⟨w.ret, w.abortCode, []⟩ := by
  rw [segmentLoop, if_pos rfl]

theorem segmentLoop_noBuffer (hne : rest ≠ []) (hb : env.buffer k = false) :
    segmentLoop env k t w rest = ⟨.mailboxOutOfSendBuffers, w.abortCode, []⟩ := by
  rw [segmentLoop, if_neg hne, if_neg (by simp [hb])]

/-- One round of the loop. -/
theorem segmentLoop_send (hne : rest ≠ []) (hb : env.buffer k = true) :
    segmentLoop env k t w rest =
      ⟨(segmentLoop env (k + 1) (!t) (nextWait env k w) (rest.drop (segLen env.smLen))).ret,
        (segmentLoop env (k + 1) (!t) (nextWait env k w) (rest.drop (segLen env.smLen))).abortCode,
        segmentMessage (env.counter k) (segLen env.smLen) t rest ::
          (segmentLoop env (k + 1) (!t) (nextWait env k w)
            (rest.drop (segLen env.smLen))).sent⟩ := by
  rw [segmentLoop, if_neg hne, if_pos hb]
  rfl

/-- Induction over the rounds of the loop. -/
@[elab_as_elim] theorem segmentLoop_induction {motive : ℕ → Bool → Wait → List UInt8 → Prop}
    (env : MbxEnv) (nil : ∀ k t w, motive k t w [])
    (send : ∀ k t w rest, rest ≠ [] → env.buffer k = true →
      motive (k + 1) (!t) (nextWait env k w) (rest.drop (segLen env.smLen)) → motive k t w rest)
    (noBuffer : ∀ k t w rest, rest ≠ [] → env.buffer k = false → motive k t w rest)
    (k : ℕ) (t : Bool) (w : Wait) (rest : List UInt8) : motive k t w rest := by
  induction k, t, w, rest using segmentLoop.induct env with
  | case1 k t w => exact nil k t w
  | case2 k t w rest hne hb w' ih => exact send k t w rest hne hb ih
  | case3 k t w rest hne hb => exact noBuffer k t w rest hne (by simpa using hb)

/-- How the wait for the answer to each message ends, when all of them have been sent. -/
def outcome (env : MbxEnv) : ℕ → Wait
  | 0 => awaitAnswer .mailboxTimeout 0 (env.pending ++ env.slave 0)
  | k + 1 => nextWait env (k + 1) (outcome env k)

/-- As many segments go out as the data take, or as there are buffers for. -/
theorem le_length_segmentLoop (n : ℕ) : n ≤ (segmentLoop env k t w rest).sent.length ↔
    n ≤ segCount env.smLen rest.length ∧ ∀ j < n, env.buffer (k + j) = true := by
  induction k, t, w, rest using segmentLoop_induction env generalizing n with
  | nil k t w =>
    rw [segmentLoop_nil, List.length_nil, List.length_nil, segCount_zero]
    exact ⟨fun h => ⟨h, fun j hj => absurd hj (by omega)⟩, And.left⟩
  | send k t w rest hne hb ih =>
    rw [segmentLoop_send hne hb, segCount_pos _ (List.length_pos_iff.2 hne), ← List.length_drop]
    cases n with
    | zero => simp
    | succ n =>
      rw [List.length_cons, Nat.add_le_add_iff_right, Nat.add_le_add_iff_right, ih n,
        Nat.forall_lt_succ_left]
      simp only [Nat.add_zero, hb, true_and, Nat.add_right_comm k 1, Nat.add_assoc]
  | noBuffer k t w rest hne hb =>
    rw [segmentLoop_noBuffer hne hb, List.length_nil]
    refine ⟨fun h => ⟨by omega, fun j hj => absurd hj (by omega)⟩, fun h => ?_⟩
    by_contra hn
    exact Bool.false_ne_true (hb.symm.trans (h.2 0 (by omega)))

/-- The loop returns how its last wait has ended, unless it lacks a buffer. -/
theorem ret_segmentLoop {k : ℕ} (hw : w = outcome env k) {n : ℕ}
    (hn : (segmentLoop env (k + 1) t w rest).sent.length = n) :
    (n = segCount env.smLen rest.length →
        (segmentLoop env (k + 1) t w rest).ret = (outcome env (k + n)).ret) ∧
      (n ≠ segCount env.smLen rest.length →
        (segmentLoop env (k + 1) t w rest).ret = .mailboxOutOfSendBuffers) := by
  generalize hk : k + 1 = k' at hn ⊢
  induction k', t, w, rest using segmentLoop_induction env generalizing k n with
  | nil k' t w =>
    rw [segmentLoop_nil] at hn ⊢
    simp [hw, ← hn]
  | send k' t w rest hne hb ih =>
    rw [segmentLoop_send hne hb] at hn ⊢
    rw [segCount_pos _ (List.length_pos_iff.2 hne), ← List.length_drop]
    subst hk hw
    obtain ⟨n, rfl⟩ : ∃ m, n = m + 1 := ⟨_, hn.symm⟩
    have hk : k + 1 + n = k + (n + 1) := by omega
    have := ih rfl rfl (Nat.succ.inj hn)
    rw [hk] at this
    simpa only [ne_eq, Nat.add_right_cancel_iff] using this
  | noBuffer k' t w rest hne hb =>
    have := segCount_pos env.smLen (List.length_pos_iff.2 hne)
    rw [segmentLoop_noBuffer hne hb] at hn ⊢
    exact ⟨fun h => by rw [← hn, List.length_nil] at h; omega, fun _ => rfl⟩

/-- The abort code is that of the last wait. -/
theorem abortCode_segmentLoop (hw : w = outcome env k) {n : ℕ}
    (hn : (segmentLoop env (k + 1) t w rest).sent.length = n) :
    (segmentLoop env (k + 1) t w rest).abortCode = (outcome env (k + n)).abortCode := by
  generalize hk : k + 1 = k' at hn ⊢
  induction k', t, w, rest using segmentLoop_induction env generalizing k n with
  | nil k' t w =>
    rw [segmentLoop_nil] at hn ⊢
    simp [hw, ← hn]
  | send k' t w rest hne hb ih =>
    rw [segmentLoop_send hne hb] at hn ⊢
    subst hk hw
    obtain ⟨n, rfl⟩ : ∃ m, n = m + 1 := ⟨_, hn.symm⟩
    have hk : k + 1 + n = k + (n + 1) := by omega
    rw [← hk]
    exact ih rfl rfl (Nat.succ.inj hn)
  | noBuffer k' t w rest hne hb =>
    rw [segmentLoop_noBuffer hne hb] at hn ⊢
    rw [hw, ← hn]
    rfl

/-- What holds of the message of every round. -/
theorem forall_sent_segmentLoop {P : Message → Prop}
    (h : ∀ counter t rest, P (segmentMessage counter (segLen env.smLen) t rest)) :
    ∀ m ∈ (segmentLoop env k t w rest).sent, P m := by
  induction k, t, w, rest using segmentLoop_induction env with
  | nil k t w => simp
  | send k t w rest hne hb ih =>
    rw [segmentLoop_send hne hb]
    exact List.forall_mem_cons.2 ⟨h _ _ _, ih⟩
  | noBuffer k t w rest hne hb =>
    rw [segmentLoop_noBuffer hne hb]
    simp

/-- With buffers for all of them, the segments carry the data. -/
theorem payload_segmentLoop (hbuf : ∀ k, env.buffer k = true) (hsl : segLen env.smLen < 2 ^ 15) :
    ((segmentLoop env k t w rest).sent.map segPayload).flatten = rest := by
  induction k, t, w, rest using segmentLoop_induction env with
  | nil k t w => simp
  | send k t w rest hne hb ih =>
    rw [segmentLoop_send hne hb, List.map_cons, List.flatten_cons,
      segPayload_segmentMessage (segLen_ge _) hsl, ih, List.take_append_drop]
  | noBuffer k t w rest hne hb => exact absurd (hbuf k) (by simp [hb])

/-- The first toggle bit is `t`, and no two that follow each other are the same. -/
theorem toggle_segmentLoop :
    ((segmentLoop env k t w rest).sent.map toggle).IsChain (· ≠ ·) ∧
      ∀ b ∈ ((segmentLoop env k t w rest).sent.map toggle).head?, b = t.toNat := by
  induction k, t, w, rest using segmentLoop_induction env with
  | nil k t w => simp
  | send k t w rest hne hb ih =>
    rw [segmentLoop_send hne hb, List.map_cons, toggle_segmentMessage]
    refine ⟨List.isChain_cons.2 ⟨fun b hb => ?_, ih.1⟩, by simp⟩
    rw [ih.2 b hb]
    cases t <;> decide
  | noBuffer k t w rest hne hb =>
    rw [segmentLoop_noBuffer hne hb]
    simp

theorem length_segmentLoop (hbuf : ∀ k, env.buffer k = true) :
    (segmentLoop env k t w rest).sent.length = segCount env.smLen rest.length := by
  apply Nat.le_antisymm
  · exact ((le_length_segmentLoop _).1 (Nat.le_refl _)).1
  · exact (le_length_segmentLoop _).2 ⟨Nat.le_refl _, fun j _ => hbuf _⟩

end

/-! ## A download that succeeds -/

/-- A slave that acknowledges every message and sends nothing else. -/
def Acknowledging (env : MbxEnv) : Prop :=
  env.pending = [] ∧ ∀ k, ∃ m, env.slave k = [m] ∧ answer m = .response

theorem awaitAnswer_response {ret : Ret} {code : ℕ} {m : Message} (h : answer m = .response) :
    awaitAnswer ret code [m] = ⟨.ok, code, []⟩ := by
  rw [awaitAnswer, h]

theorem outcome_acknowledging {env : MbxEnv} (h : Acknowledging env) (k : ℕ) :
    outcome env k = ⟨.ok, 0, []⟩ := by
  induction k with
  | zero =>
    obtain ⟨m, hm, ha⟩ := h.2 0
    rw [outcome, h.1, hm]
    exact awaitAnswer_response ha
  | succ k ih =>
    obtain ⟨m, hm, ha⟩ := h.2 (k + 1)
    rw [outcome, nextWait, ih, hm]
    exact awaitAnswer_response ha

section
variable {env : MbxEnv} {o : Object} {buf : List UInt8}

/-- A call that gets to the segments. -/
theorem sdoWriteNormal_of_ok (hready : env.ready.error = none) (h0 : (outcome env 0).ret = .ok) :
    sdoWriteNormal env o buf =
      ⟨(segmentLoop env 1 true (outcome env 0) (buf.drop (maxLen env.smLen))).ret,
        (segmentLoop env 1 true (outcome env 0) (buf.drop (maxLen env.smLen))).abortCode,
        initiateMessage o (env.counter 0) buf.length (buf.take (maxLen env.smLen)) ::
          (segmentLoop env 1 true (outcome env 0) (buf.drop (maxLen env.smLen))).sent⟩ := by
  unfold outcome at h0
  simp only [sdoWriteNormal, hready, h0, if_true, outcome]

/-- A call that ends with the answer to the initiate message. -/
theorem sdoWriteNormal_of_ne_ok (hready : env.ready.error = none)
    (h0 : (outcome env 0).ret ≠ .ok) :
    sdoWriteNormal env o buf = ⟨(outcome env 0).ret, (outcome env 0).abortCode,
      [initiateMessage o (env.counter 0) buf.length (buf.take (maxLen env.smLen))]⟩ := by
  unfold outcome at h0
  simp only [sdoWriteNormal, hready, h0, if_false, outcome]

theorem maxLen_eq (h : 16 ≤ env.smLen.toNat) : maxLen env.smLen = env.smLen.toNat - 16 := by
  have := env.smLen.toNat_lt
  unfold maxLen
  rw [UInt32.toNat_sub_of_le _ _ (by rw [UInt32.le_iff_toNat_le]; simpa using h)]
  rfl

/-- What a receiver with a mailbox of `mailbox` bytes can rely on: an initiate message that announces
`size` bytes, then segments with alternating toggle bits, and all payloads together are `buf`. -/
def Carries (mailbox : ℕ) (buf : List UInt8) (size : ℕ) : List Message → Prop
  | [] => False
  | init :: segments =>
    command init = EC_COE_SDO_DOWNLOAD_REQ ∧ completeSize init = size ∧
      (∀ m ∈ segments, command m = EC_COE_SDO_DOWNLOAD_SEQ_REQ) ∧
      initiatePayload init ++ (segments.map segPayload).flatten = buf ∧
      (∀ m ∈ init :: segments, 6 + mbxLength m ≤ mailbox) ∧
      (segments.map toggle).IsChain (· ≠ ·)

theorem completeSize_lt (m : Message) : completeSize m < 2 ^ 32 := by
  have h0 := (m 12).toNat_lt
  have h1 := (m (12 + 1)).toNat_lt
  have h2 := (m (12 + 2)).toNat_lt
  have h3 := (m (12 + 2 + 1)).toNat_lt
  unfold completeSize u32 u16
  omega

/-- Only a size of 32 bits can be announced. -/
theorem Carries.size_lt {mailbox size : ℕ} {sent : List Message}
    (h : Carries mailbox buf size sent) : size < 2 ^ 32 := by
  cases sent with
  | nil => exact h.elim
  | cons init segments =>
    rw [← h.2.1]
    exact completeSize_lt init

/-- **A normal download carries the data**, in as many segments as they take. -/
theorem sdoWrite_carries (env : MbxEnv) (o : Object) (buf : List UInt8)
    (hlen : 4 < buf.length ∨ o.complete ≠ 0) (h16 : 16 ≤ env.smLen.toNat)
    (hmax : env.smLen.toNat ≤ lecMaxPoolDataSize) (hready : env.ready = Ready.all)
    (hbuf : ∀ k, env.buffer k = true) (hslave : Acknowledging env) :
    (sdoWrite env o buf).ret = .ok ∧
      (sdoWrite env o buf).sent.length =
        1 + segCount env.smLen (buf.length - maxLen env.smLen) ∧
      Carries env.smLen.toNat buf (buf.length % 2 ^ 32) (sdoWrite env o buf).sent := by
  have hm := maxLen_eq h16
  have hsl : segLen env.smLen = env.smLen.toNat - 9 := by
    unfold segLen EC_SDO_NORMAL_HDR_LEN EC_SDO_SEG_HDR_LEN
    omega
  have hs15 : segLen env.smLen < 2 ^ 15 := by
    unfold lecMaxPoolDataSize at hmax
    omega
  have h0 := outcome_acknowledging hslave 0
  have hnormal : sdoWrite env o buf = sdoWriteNormal env o buf := by
    unfold sdoWrite
    exact if_neg fun h => hlen.elim (fun hl => by omega) (fun hc => hc h.2)
  have hfirst : (buf.take (maxLen env.smLen)).length < 2 ^ 15 := by
    rw [List.length_take]
    omega
  rw [hnormal, sdoWriteNormal_of_ok (by rw [hready]; rfl) (by rw [h0])]
  dsimp only
  have hn : (segmentLoop env 1 true (outcome env 0) (buf.drop (maxLen env.smLen))).sent.length =
      segCount env.smLen (buf.length - maxLen env.smLen) := by
    rw [length_segmentLoop hbuf, List.length_drop]
  refine ⟨?_, ?_, ?_, completeSize_initiateMessage, ?_, ?_, ?_, toggle_segmentLoop.1⟩
  · rw [(ret_segmentLoop rfl hn).1 (by rw [List.length_drop]), outcome_acknowledging hslave]
  · rw [List.length_cons, hn, Nat.add_comm]
  · exact fields_initiateMessage.2.1
  · exact forall_sent_segmentLoop fun _ _ _ => command_segmentMessage
  · rw [initiatePayload_initiateMessage hfirst, payload_segmentLoop hbuf hs15,
      List.take_append_drop]
  · refine List.forall_mem_cons.2 ⟨?_, forall_sent_segmentLoop fun _ _ _ => ?_⟩
    · rw [mbxLength_initiateMessage hfirst, List.length_take, EC_SDO_NORMAL_HDR_LEN]
      omega
    · exact Nat.le_trans (segmentMessage_fits (segLen_ge _) hs15) (by omega)

end

/-- A slave with mailboxes of 16 bytes, whose messages are not empty. -/
def smallMailbox (slave : ℕ → List Message) : MbxEnv where
  smLen := 16
  ready := Ready.all
  buffer _ := true
  counter k := UInt8.ofNat (k % 7 + 1)
  pending := []
  slave := slave

/-- A message with this service and this command and abort code. -/
def sdoMessage (service command abortCode : UInt8) : Message :=
  sendBuffer [10, 0, 0, 0, 0, 3, 0, 16 * service, 32 * command, 0, 0, 0, abortCode]

/-- An answer to every message. -/
def acknowledged : MbxEnv := smallMailbox fun _ => [sdoMessage 3 1 0]

theorem acknowledging_acknowledged : Acknowledging acknowledged :=
  ⟨rfl, fun _ => ⟨_, rfl, by decide⟩⟩

theorem sdoWrite_carries_eight :
    Carries 16 [1, 2, 3, 4, 5, 6, 7, 8] 8
      (sdoWrite acknowledged ⟨0x1600, 0, 0⟩ [1, 2, 3, 4, 5, 6, 7, 8]).sent :=
  (sdoWrite_carries acknowledged ⟨0x1600, 0, 0⟩ [1, 2, 3, 4, 5, 6, 7, 8] (Or.inl (by decide))
    (by decide) (by decide) rfl (fun _ => rfl) acknowledging_acknowledged).2.2

/-- A size of 2^32 is announced as 0. -/
theorem sdoWrite_not_carries :
    Acknowledging acknowledged ∧
      ¬ Carries 16 (List.replicate (2 ^ 32) 0) (2 ^ 32)
        (sdoWrite acknowledged ⟨0x1600, 0, 0⟩ (List.replicate (2 ^ 32) 0)).sent :=
  ⟨acknowledging_acknowledged, mt Carries.size_lt (Nat.lt_irrefl _)⟩

/-! ## The end of a download -/

/-- `more_follows` has one value in all segments but the last, and another one in that. -/
def Recognisable (segments : List Message) : Prop :=
  ∃ b, (∀ m ∈ segments.dropLast, moreFollows m = b) ∧
    ∀ m ∈ segments.getLast?, moreFollows m ≠ b

/-- Where the bit is never set, only a single segment can be told to be the last. -/
theorem recognisable_iff_of_eq_zero {segments : List Message} (hne : segments ≠ [])
    (h : ∀ m ∈ segments, moreFollows m = 0) : Recognisable segments ↔ segments.length = 1 := by
  constructor
  · rintro ⟨b, hinit, hlast⟩
    rw [List.getLast?_eq_some_getLast hne] at hlast
    have hb : b ≠ 0 := fun hb => hlast _ rfl (hb ▸ h _ (List.getLast_mem hne))
    have : segments.dropLast = [] := by
      apply List.eq_nil_iff_forall_not_mem.2
      intro m hm
      exact hb ((hinit m hm).symm.trans (h m ((List.dropLast_sublist _).subset hm)))
    have hlen := congrArg List.length this
    have := List.length_pos_iff.2 hne
    rw [List.length_dropLast, List.length_nil] at hlen
    omega
  · intro h1
    obtain ⟨m, rfl⟩ := List.length_eq_one_iff.1 h1
    exact ⟨1, by simp, by simp [h m]⟩

section
variable {env : MbxEnv} {o : Object} {buf : List UInt8}

/-- What is sent behind the initiate message is what the loop sends. -/
theorem sdoWriteNormal_sent_tail (h : 1 < (sdoWriteNormal env o buf).sent.length) :
    (sdoWriteNormal env o buf).sent.tail =
      (segmentLoop env 1 true (outcome env 0) (buf.drop (maxLen env.smLen))).sent := by
  cases hready : env.ready.error with
  | some ret => simp [sdoWriteNormal, hready] at h
  | none =>
    by_cases h0 : (outcome env 0).ret = .ok
    · rw [sdoWriteNormal_of_ok hready h0]
      rfl
    · rw [sdoWriteNormal_of_ne_ok hready h0] at h
      exact absurd h (by simp)

/-- **The end of a download is recognisable if and only if there is one segment**: the data fit into
it, or there is no buffer for a second one. -/
theorem sdoWriteNormal_recognisable_iff (h : 1 < (sdoWriteNormal env o buf).sent.length) :
    Recognisable (sdoWriteNormal env o buf).sent.tail ↔
      buf.length ≤ maxLen env.smLen + segLen env.smLen ∨ env.buffer 2 = false := by
  have hpos : 0 < (sdoWriteNormal env o buf).sent.tail.length := by
    rw [List.length_tail]
    omega
  rw [sdoWriteNormal_sent_tail h] at hpos ⊢
  have hbuf1 : env.buffer 1 = true := ((le_length_segmentLoop 1).1 hpos).2 0 Nat.one_pos
  have htwo : 2 ≤ (segmentLoop env 1 true (outcome env 0) (buf.drop (maxLen env.smLen))).sent.length ↔
      segLen env.smLen < buf.length - maxLen env.smLen ∧ env.buffer 2 = true := by
    rw [le_length_segmentLoop, Nat.forall_lt_succ_left, Nat.forall_lt_succ_left,
      ← Nat.lt_iff_add_one_le, lt_segCount, Nat.one_mul, List.length_drop]
    simp [hbuf1]
  rw [recognisable_iff_of_eq_zero (List.length_pos_iff.1 hpos)
    (forall_sent_segmentLoop fun _ _ _ => moreFollows_segmentMessage)]
  cases hbuf2 : env.buffer 2 with
  | false =>
    rw [hbuf2] at htwo
    exact iff_of_true (by have := mt htwo.1 (by simp); omega) (Or.inr rfl)
  | true =>
    rw [hbuf2] at htwo
    simp only [and_true] at htwo
    simp only [Bool.true_eq_false, or_false]
    omega

theorem sdoWriteNormal_recognisable_seven :
    Recognisable (sdoWriteNormal acknowledged ⟨0x1600, 0, 0⟩ [1, 2, 3, 4, 5, 6, 7]).sent.tail :=
  (sdoWriteNormal_recognisable_iff (by
    rw [sdoWriteNormal_of_ok rfl (by decide), List.length_cons, length_segmentLoop fun _ => rfl]
    decide)).2 (Or.inl (by decide))

/-- The second of two segments looks like the first. -/
theorem sdoWriteNormal_not_recognisable : ¬ Recognisable
    (sdoWriteNormal acknowledged ⟨0x1600, 0, 0⟩ [1, 2, 3, 4, 5, 6, 7, 8]).sent.tail := by
  have hlen : (segmentLoop acknowledged 1 true (outcome acknowledged 0)
      ([1, 2, 3, 4, 5, 6, 7, 8].drop (maxLen acknowledged.smLen))).sent.length = 2 := by
    rw [length_segmentLoop fun _ => rfl]
    decide
  rw [sdoWriteNormal_of_ok rfl (by decide), List.tail_cons]
  intro h
  have := (recognisable_iff_of_eq_zero (by intro h; rw [h] at hlen; cases hlen)
    (forall_sent_segmentLoop fun _ _ _ => moreFollows_segmentMessage)).1 h
  exact absurd (hlen.symm.trans this) (by decide)

end

/-! ## Segments that fail -/

section
variable {env : MbxEnv} {o : Object} {buf : List UInt8}

/-- Success only when the initiate message and all segments have been acknowledged; a message that
has not is the last one, and its error and abort code are returned. -/
def FailsWithSegment (env : MbxEnv) (buf : List UInt8) (d : Download) : Prop :=
  (d.ret = .ok → d.sent.length = 1 + segCount env.smLen (buf.length - maxLen env.smLen) ∧
    ∀ k < d.sent.length, (outcome env k).ret = .ok) ∧
  ∀ k < d.sent.length, (outcome env k).ret ≠ .ok →
    k + 1 = d.sent.length ∧ d.ret = (outcome env k).ret ∧ d.abortCode = (outcome env k).abortCode

theorem awaitAnswer_ne_outOfSendBuffers {code : ℕ} {queue : List Message} {ret : Ret}
    (h : ret ≠ .mailboxOutOfSendBuffers) :
    (awaitAnswer ret code queue).ret ≠ .mailboxOutOfSendBuffers := by
  induction queue generalizing ret with
  | nil => exact h
  | cons m queue ih =>
    rw [awaitAnswer]
    cases answer m with
    | abort => simp
    | response => simp
    | unexpected => exact ih (by simp)

theorem outcome_ne_outOfSendBuffers (k : ℕ) : (outcome env k).ret ≠ .mailboxOutOfSendBuffers := by
  cases k with
  | zero => exact awaitAnswer_ne_outOfSendBuffers (by simp)
  | succ k => exact awaitAnswer_ne_outOfSendBuffers (by simp)

theorem failsWithSegment_loop_iff {m : Message} {d : Download} (h0 : (outcome env 0).ret = .ok)
    (hd : segmentLoop env 1 true (outcome env 0) (buf.drop (maxLen env.smLen)) = d) :
    FailsWithSegment env buf ⟨d.ret, d.abortCode, m :: d.sent⟩ ↔ ∀ i,
      (i + 1) * segLen env.smLen < buf.length - maxLen env.smLen →
        (∀ j ≤ i, env.buffer (j + 1) = true) → (outcome env (i + 1)).ret = .ok := by
  have hsent (n : ℕ) : n ≤ d.sent.length ↔
      n ≤ segCount env.smLen (buf.length - maxLen env.smLen) ∧
        ∀ j < n, env.buffer (j + 1) = true := by
    rw [← hd, le_length_segmentLoop, List.length_drop]
    simp only [Nat.add_comm 1]
  have hlen : (segmentLoop env (0 + 1) true (outcome env 0)
      (buf.drop (maxLen env.smLen))).sent.length = d.sent.length := congrArg (·.sent.length) hd
  have hret := ret_segmentLoop rfl hlen
  have hcode := abortCode_segmentLoop rfl hlen
  rw [Nat.zero_add, hd, Nat.zero_add] at hret hcode
  rw [List.length_drop] at hret
  constructor
  · intro h i hi hbuf
    by_contra hne
    have hlt : i + 1 < segCount env.smLen (buf.length - maxLen env.smLen) := lt_segCount.2 hi
    have hle := (hsent (i + 1)).2 ⟨Nat.le_of_lt hlt, fun j hj => hbuf j (Nat.le_of_lt_succ hj)⟩
    have hlast := h.2 (i + 1) (Nat.lt_succ_of_le hle) hne
    rw [List.length_cons, Nat.add_right_cancel_iff] at hlast
    exact outcome_ne_outOfSendBuffers (i + 1)
      (hlast.2.1.symm.trans (hret.2 (by rw [← hlast.1]; omega)))
  · intro h
    -- A message whose wait has failed is that of the last segment of all.
    have hfailed (k : ℕ) (hk : k ≤ d.sent.length) (hne : (outcome env k).ret ≠ .ok) :
        k = segCount env.smLen (buf.length - maxLen env.smLen) ∧ k = d.sent.length := by
      obtain ⟨i, rfl⟩ : ∃ i, k = i + 1 := by
        cases k with
        | zero => exact absurd h0 hne
        | succ i => exact ⟨i, rfl⟩
      have hi := (hsent (i + 1)).1 hk
      have hn := ((hsent d.sent.length).1 (Nat.le_refl _)).1
      have : ¬ i + 1 < segCount env.smLen (buf.length - maxLen env.smLen) := fun hlt =>
        hne (h i (lt_segCount.1 hlt) fun j hj => hi.2 j (Nat.lt_succ_of_le hj))
      omega
    refine ⟨fun hok => ?_, fun k hk hne => ?_⟩
    · have hn : d.sent.length = segCount env.smLen (buf.length - maxLen env.smLen) := by
        by_contra hn
        cases (hret.2 hn).symm.trans hok
      refine ⟨by rw [List.length_cons, hn, Nat.add_comm], fun k hk => ?_⟩
      by_contra hne
      obtain ⟨-, rfl⟩ := hfailed k (Nat.le_of_lt_succ hk) hne
      exact hne ((hret.1 hn).symm.trans hok)
    · obtain ⟨hN, rfl⟩ := hfailed k (Nat.le_of_lt_succ hk) hne
      exact ⟨rfl, hret.1 hN, hcode⟩

/-- **A failed segment fails the download if and only if it is the last one**, as long as there are
buffers for the others. -/
theorem sdoWriteNormal_fails_iff : FailsWithSegment env buf (sdoWriteNormal env o buf) ↔
    (env.ready.error = none → (outcome env 0).ret = .ok → ∀ i,
      (i + 1) * segLen env.smLen < buf.length - maxLen env.smLen →
        (∀ j ≤ i, env.buffer (j + 1) = true) → (outcome env (i + 1)).ret = .ok) := by
  cases hready : env.ready.error with
  | some ret =>
    have : sdoWriteNormal env o buf = ⟨ret, 0, []⟩ := by simp only [sdoWriteNormal, hready]
    rw [this]
    refine iff_of_true ⟨fun h => absurd h (Ready.error_ne_ok hready), ?_⟩ (by simp)
    exact fun k hk => absurd hk (Nat.not_lt_zero k)
  | none =>
    by_cases h0 : (outcome env 0).ret = .ok
    · rw [sdoWriteNormal_of_ok hready h0]
      simp only [h0, true_implies]
      exact failsWithSegment_loop_iff h0 rfl
    · rw [sdoWriteNormal_of_ne_ok hready h0]
      refine iff_of_true ⟨fun h => absurd h h0, fun k hk _ => ?_⟩ fun _ h => absurd h h0
      obtain rfl : k = 0 := Nat.lt_one_iff.1 hk
      exact ⟨rfl, rfl, rfl⟩

/-- A slave that aborts the first segment and acknowledges everything else. -/
def firstAborted : MbxEnv :=
  smallMailbox fun k => [if k = 1 then sdoMessage 2 4 5 else sdoMessage 3 1 0]

/-- Of two segments the first one is aborted, and the second one is sent nevertheless. -/
theorem sdoWriteNormal_not_fails : ¬ FailsWithSegment firstAborted [1, 2, 3, 4, 5, 6, 7, 8]
    (sdoWriteNormal firstAborted ⟨0x1600, 0, 0⟩ [1, 2, 3, 4, 5, 6, 7, 8]) := by
  have hlen : (segmentLoop firstAborted 1 true (outcome firstAborted 0)
      ([1, 2, 3, 4, 5, 6, 7, 8].drop (maxLen firstAborted.smLen))).sent.length = 2 := by
    rw [length_segmentLoop fun _ => rfl]
    decide
  rw [sdoWriteNormal_of_ok rfl (by decide)]
  intro h
  have := (h.2 1 (by rw [List.length_cons, hlen]; decide) (by decide)).1
  rw [List.length_cons, hlen] at this
  exact absurd this (by decide)

end

end LibEthercat.Coe
