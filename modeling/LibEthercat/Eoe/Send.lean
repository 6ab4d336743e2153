import Mathlib.Algebra.GroupWithZero.Nat
import Mathlib.Data.List.Basic
import LibEthercat.Datagram
import LibEthercat.Lib.Chunks
import LibEthercat.Lib.While

/-!
# Sending an Ethernet frame over EoE

`ec_eoe_send_frame` cuts a frame into fragments of whole blocks of 32 bytes, and waits after each of
them until the mailbox handler has written it. A fragment is the last one if it is shorter than the
others, which is not so when the frame can be cut into full ones. Whether there is a send buffer is
not checked, and the result is never `EC_OK`.

* `sendFrame_fragmented` — when a frame is sent as it should be.
* `sendFrame_reports` — when the result says what has been done.
-/

namespace LibEthercat.Eoe

open Chunks

/-! ## The code -/

structure Fragment where
  /-- `mbx_hdr.length` -/
  length : ℕ
  /-- `mbx_hdr.counter` -/
  counter : ℕ
  fragmentNumber : ℕ
  lastFragment : Bool
  completeSize : ℕ
  data : List UInt8
deriving DecidableEq

/-- What `ec_eoe_send_frame` finds. -/
structure SendEnv where
  /-- `slave < slave_cnt` -/
  present : Bool
  /-- `EC_EEPROM_MBX_EOE` is in `mbx_supported`. -/
  supported : Bool
  /-- `sm[MAILBOX_WRITE].len` -/
  smLen : UInt16
  /-- Is there a send buffer for the fragment with this number, before the time is over? -/
  buffer : ℕ → Bool
  /-- Is it written to the mailbox, so that `ec_eoe_send_sync` is called? -/
  written : ℕ → Bool
  /-- From `ec_mbx_next_counter`. -/
  counter : ℕ → ℕ

inductive Ret
  | ok
  | slaveNotFound
  | notSupportedEoe
  | mailboxTimeout
deriving DecidableEq

/-- What a call comes to, with the fragments that are in the slave's mailbox by then. -/
inductive Outcome
  | returned (ret : Ret) (sent : List Fragment)
  /-- `p_entry` is `NULL`, and used. -/
  | nullEntry (sent : List Fragment)
  /-- More is copied than the send buffer has room for. -/
  | overflow (sent : List Fragment)
  /-- It waits for `send_sync` for good. -/
  | blocked (sent : List Fragment)
deriving DecidableEq

/-- `sizeof(ec_mbx_header_t) + sizeof(ec_eoe_header_t)` -/
def headerLen : ℕ := 10

/-- `max_frag_len`, of type `size_t`. -/
def SendEnv.maxFragLen (env : SendEnv) : ℕ :=
  (env.smLen.toNat + (2 ^ 64 - headerLen)) % 2 ^ 64 / 32 * 32

/-- The fragment `frag_number`, from `frame_offset` on. -/
def fragment (env : SendEnv) (frameLen fragNumber frameOffset : ℕ) (data : List UInt8) :
    Fragment where
  length := (4 + data.length) % 2 ^ 16
  counter := env.counter fragNumber
  fragmentNumber := fragNumber % 2 ^ 6
  lastFragment := data.length < env.maxFragLen
  completeSize :=
    if fragNumber = 0 then (frameLen + 31) / 32 % 2 ^ 6 else frameOffset / 32 % 2 ^ 6
  data := data

structure Loop where
  frameOffset : ℕ
  fragNumber : ℕ
  sent : List Fragment

/-- The body of the `do` loop. -/
def sendFragment (env : SendEnv) (frame : List UInt8) (s : Loop) : Loop ⊕ Outcome :=
  let data := (frame.drop s.frameOffset).take env.maxFragLen
  if !env.buffer s.fragNumber then .inr (.nullEntry s.sent)
  else if lecMaxPoolDataSize < headerLen + data.length then .inr (.overflow s.sent)
  else if !env.written s.fragNumber then .inr (.blocked s.sent)
  else
    let sent := s.sent ++ [fragment env frame.length s.fragNumber s.frameOffset data]
    let frameOffset := s.frameOffset + data.length
    if frameOffset < frame.length then .inl ⟨frameOffset, s.fragNumber + 1, sent⟩
    else .inr (.returned .mailboxTimeout sent)

/-- `ec_eoe_send_frame`, if `fuel` fragments are enough. -/
def sendFrame (env : SendEnv) (frame : List UInt8) (fuel : ℕ) : Option Outcome :=
  if !env.present then some (.returned .slaveNotFound [])
  else if !env.supported then some (.returned .notSupportedEoe [])
  else While.run (sendFragment env frame) fuel ⟨0, 0, []⟩

/-! ## What is expected -/

/-- The frame has arrived in fragments as they should be. -/
structure Fragmented (smLen : ℕ) (frame : List UInt8) (sent : List Fragment) : Prop where
  data : (sent.flatMap fun f => f.data) = frame
  number : ∀ i (hi : i < sent.length), (sent[i]).fragmentNumber = i
  fits : ∀ f ∈ sent, f.length = 4 + f.data.length ∧ headerLen + f.data.length ≤ smLen
  size : ∀ f ∈ sent.head?, f.completeSize = (frame.length + 31) / 32
  /-- Where it belongs, in blocks. -/
  offset : ∀ i (hi : i < sent.length), i ≠ 0 →
    (sent[i]).completeSize * 32 = ((sent.take i).flatMap fun f => f.data).length
  last : ∀ i (hi : i < sent.length), (sent[i]).lastFragment = true ↔ i + 1 = sent.length

/-- The call returns, and the frame has been sent. -/
def Sends (env : SendEnv) (frame : List UInt8) : Prop :=
  ∃ fuel ret sent, sendFrame env frame fuel = some (.returned ret sent) ∧
    Fragmented env.smLen.toNat frame sent

/-- The call returns, and the result says if all of the frame has been sent. -/
def Reports (env : SendEnv) (frame : List UInt8) : Prop :=
  ∃ fuel ret sent, sendFrame env frame fuel = some (.returned ret sent) ∧
    (ret = .ok ↔ sent ≠ [] ∧ (sent.flatMap fun f => f.data) = frame)

/-! ## The loop -/

variable {env : SendEnv} {frame : List UInt8} {ret : Ret} {sent : List Fragment}

theorem ends_of_sendFrame (hpresent : env.present = true) (hsupported : env.supported = true)
    {o : Outcome} :
    (∃ fuel, sendFrame env frame fuel = some o) ↔
      While.Ends (sendFragment env frame) ⟨0, 0, []⟩ o := by
  simp only [sendFrame, hpresent, hsupported, Bool.not_true, Bool.false_eq_true, if_false]
  exact Iff.rfl

/-- What a pass does if nothing goes wrong. -/
theorem sendFragment_eq {s : Loop} (data : List UInt8)
    (hdata : data = (frame.drop s.frameOffset).take env.maxFragLen)
    (hfit : headerLen + data.length ≤ lecMaxPoolDataSize)
    (hok : env.buffer s.fragNumber = true ∧ env.written s.fragNumber = true) :
    sendFragment env frame s =
      if s.frameOffset + data.length < frame.length then
        .inl ⟨s.frameOffset + data.length, s.fragNumber + 1,
          s.sent ++ [fragment env frame.length s.fragNumber s.frameOffset data]⟩
      else .inr (.returned .mailboxTimeout
        (s.sent ++ [fragment env frame.length s.fragNumber s.frameOffset data])) := by
  subst hdata
  rw [sendFragment]
  simp only [hok.1, hok.2, Bool.not_true, Bool.false_eq_true, if_false, Nat.not_lt.2 hfit]

/-- Without a buffer, or if the fragment is not written, the call does not return. -/
theorem not_ends_of_failed {s : Loop}
    (hfail : ¬ (env.buffer s.fragNumber = true ∧ env.written s.fragNumber = true)) :
    ¬ While.Ends (sendFragment env frame) s (.returned ret sent) := by
  intro hends
  by_cases hb : env.buffer s.fragNumber = true
  · have hw : env.written s.fragNumber = false := by
      cases hw : env.written s.fragNumber with
      | false => rfl
      | true => exact absurd ⟨hb, hw⟩ hfail
    by_cases hfit : lecMaxPoolDataSize <
        headerLen + ((frame.drop s.frameOffset).take env.maxFragLen).length
    · have hstep : sendFragment env frame s = .inr (.overflow s.sent) := by
        rw [sendFragment]
        simp only [hb, hfit, Bool.not_true, Bool.false_eq_true, if_false, if_true]
      cases (While.ends_of_done hstep).1 hends
    · have hstep : sendFragment env frame s = .inr (.blocked s.sent) := by
        rw [sendFragment]
        simp only [hb, hw, hfit, Bool.not_true, Bool.not_false, Bool.false_eq_true, if_false, if_true]
      cases (While.ends_of_done hstep).1 hends
  · have hstep : sendFragment env frame s = .inr (.nullEntry s.sent) := by
      rw [sendFragment]
      simp [hb]
    cases (While.ends_of_done hstep).1 hends

/-- The fragments of these pieces, from a number and an offset on. -/
def fragments (env : SendEnv) (frameLen : ℕ) : ℕ → ℕ → List (List UInt8) → List Fragment
  | _, _, [] => []
  | n, off, c :: cs =>
    fragment env frameLen n off c :: fragments env frameLen (n + 1) (off + c.length) cs

/-- **The rest of a frame** is sent in chunks, if there is a buffer for each of them and each is
written. -/
theorem ends_iff {d : ℕ} (hmax : env.maxFragLen = d) (hd : 0 < d)
    (hfit : headerLen + frame.length ≤ lecMaxPoolDataSize) {rest : List UInt8} {s : Loop}
    (hs : s.frameOffset ≤ frame.length) (hrest : frame.drop s.frameOffset = rest) :
    While.Ends (sendFragment env frame) s (.returned ret sent) ↔
      (∀ i < (chunks d rest).length,
        env.buffer (s.fragNumber + i) = true ∧ env.written (s.fragNumber + i) = true) ∧
      ret = .mailboxTimeout ∧
      sent = s.sent ++ fragments env frame.length s.fragNumber s.frameOffset (chunks d rest) := by
  have hlen : rest.length = frame.length - s.frameOffset := by
    rw [← hrest, List.length_drop]
  induction rest using chunks.induct d generalizing s with
  | case1 rest h ih =>
    rw [chunks_of_lt h.1 h.2]
    by_cases hok : env.buffer s.fragNumber = true ∧ env.written s.fragNumber = true
    · have htake : (rest.take d).length = d := by
        rw [List.length_take]
        omega
      have hstep := sendFragment_eq (s := s) (rest.take d) (by rw [hrest, hmax]) (by omega) hok
      rw [if_pos (by omega)] at hstep
      have hdrop : frame.drop (s.frameOffset + (rest.take d).length) = rest.drop d := by
        rw [htake, ← List.drop_drop, hrest]
      have hnext := ih (s := ⟨s.frameOffset + (rest.take d).length, s.fragNumber + 1,
        s.sent ++ [fragment env frame.length s.fragNumber s.frameOffset (rest.take d)]⟩)
        (by dsimp only; omega) hdrop (by dsimp only; rw [List.length_drop]; omega)
      refine (While.ends_of_next hstep).trans (hnext.trans ?_)
      dsimp only
      rw [List.length_cons, Nat.forall_lt_succ_left', fragments, List.append_assoc,
        List.singleton_append]
      simp only [Nat.add_assoc, Nat.add_comm 1, Nat.add_zero, hok, and_self, true_and]
    · refine iff_of_false (not_ends_of_failed hok) fun hall => hok ?_
      exact hall.1 0 (by simp)
  | case2 rest h =>
    have hle : rest.length ≤ d := by omega
    rw [chunks_of_le hle, fragments, fragments, List.length_singleton]
    by_cases hok : env.buffer s.fragNumber = true ∧ env.written s.fragNumber = true
    · have hstep := sendFragment_eq (s := s) rest
        (by rw [hrest, hmax, List.take_of_length_le hle]) (by omega) hok
      rw [if_neg (by omega)] at hstep
      rw [While.ends_of_done hstep, Outcome.returned.injEq]
      refine ⟨fun heq => ⟨fun i hi => ?_, heq.1.symm, heq.2.symm⟩,
        fun hall => ⟨hall.2.1.symm, hall.2.2.symm⟩⟩
      obtain rfl : i = 0 := by omega
      exact hok
    · refine iff_of_false (not_ends_of_failed hok) fun hall => hok ?_
      exact hall.1 0 (by simp)

/-! ## The fragments -/

section
variable {frameLen n off d : ℕ} {cs : List (List UInt8)}

@[simp] theorem length_fragments : (fragments env frameLen n off cs).length = cs.length := by
  induction cs generalizing n off with
  | nil => rfl
  | cons c cs ih => simp [fragments, ih]

theorem data_fragments :
    ((fragments env frameLen n off cs).flatMap fun f => f.data) = cs.flatten := by
  induction cs generalizing n off with
  | nil => rfl
  | cons c cs ih =>
    rw [fragments, List.flatMap_cons, ih]
    rfl

theorem take_fragments (i : ℕ) : (fragments env frameLen n off cs).take i =
    fragments env frameLen n off (cs.take i) := by
  induction cs generalizing n off i with
  | nil => simp [fragments]
  | cons c cs ih =>
    cases i with
    | zero => rfl
    | succ i => rw [fragments, List.take_succ_cons, List.take_succ_cons, ih, fragments]

theorem getElem_fragments {i : ℕ} (hi : i < (fragments env frameLen n off cs).length)
    (hc : i < cs.length) : (fragments env frameLen n off cs)[i] =
      fragment env frameLen (n + i) (off + (cs.take i).flatten.length) cs[i] := by
  induction cs generalizing n off i with
  | nil => simp [fragments] at hi
  | cons c cs ih =>
    cases i with
    | zero => simp [fragments]
    | succ i =>
      have hi' : i < (fragments env frameLen (n + 1) (off + c.length) cs).length := by
        simpa [fragments] using hi
      simp only [fragments, List.getElem_cons_succ, ih hi' (Nat.lt_of_succ_lt_succ hc),
        List.take_succ_cons, List.flatten_cons, List.length_append, Nat.add_assoc, Nat.add_comm 1 i]

end

/-- The mailbox has room for at least one block. -/
theorem maxFragLen_eq (h : 42 ≤ env.smLen.toNat) :
    env.maxFragLen = (env.smLen.toNat - headerLen) / 32 * 32 := by
  have hlt := env.smLen.toNat_lt
  rw [SendEnv.maxFragLen, headerLen]
  omega

theorem maxFragLen_pos (h : 42 ≤ env.smLen.toNat) : 0 < env.maxFragLen := by
  rw [maxFragLen_eq h, headerLen]
  omega

/-- **The fragments of a frame** are as they should be, but for the mark of the last one. -/
theorem fragmented_iff {d : ℕ} (hmax : env.maxFragLen = d) (hsm : 42 ≤ env.smLen.toNat)
    (hframe : 1 ≤ frame.length ∧ frame.length ≤ 1518) :
    Fragmented env.smLen.toNat frame (fragments env frame.length 0 0 (chunks d frame)) ↔
      ¬ d ∣ frame.length := by
  have hd : 0 < d := hmax ▸ maxFragLen_pos hsm
  have hd32 : 32 ∣ d ∧ 32 ≤ d ∧ headerLen + d ≤ env.smLen.toNat := by
    have hdef := maxFragLen_eq hsm
    rw [hmax, headerLen] at hdef
    rw [headerLen]
    omega
  have hcount : (chunks d frame).length ≤ 48 := by
    have := length_chunks hd frame
    have := Nat.div_le_div_left (c := 32) hd32.2.1 (by omega) (a := frame.length - 1)
    omega
  have hlen : (fragments env frame.length 0 0 (chunks d frame)).length = (chunks d frame).length :=
    length_fragments
  have hxs : frame ≠ [] := List.ne_nil_of_length_pos hframe.1
  refine ⟨fun h hdvd => ?_, fun h => ⟨?_, ?_, ?_, ?_, ?_, ?_⟩⟩
  · have hpos := List.length_pos_iff.2 (chunks_ne_nil d frame)
    have hi : (chunks d frame).length - 1 < (chunks d frame).length := by omega
    have hflag := (h.last _ (by rwa [hlen])).2 (by rw [hlen]; omega)
    rw [getElem_fragments _ hi, fragment, hmax, decide_eq_true_eq,
      length_getElem_last_lt hd hxs hi (by omega)] at hflag
    exact hflag hdvd
  · rw [data_fragments, chunks_flatten]
  · intro i hi
    rw [getElem_fragments _ (by rwa [hlen] at hi), fragment]
    dsimp only
    rw [Nat.zero_add, Nat.mod_eq_of_lt]
    omega
  · intro f hf
    obtain ⟨i, hi, rfl⟩ := List.getElem_of_mem hf
    have hi' : i < (chunks d frame).length := by rwa [hlen] at hi
    have hmem := length_of_mem_chunks hd frame _ (List.getElem_mem hi')
    rw [getElem_fragments _ hi', fragment]
    dsimp only
    omega
  · intro f hf
    have hpos := List.length_pos_iff.2 (chunks_ne_nil d frame)
    rw [List.head?_eq_getElem?, List.getElem?_eq_getElem (by rwa [hlen]), Option.mem_some_iff] at hf
    rw [← hf, getElem_fragments _ hpos, fragment]
    dsimp only
    rw [Nat.add_zero, if_pos rfl, Nat.mod_eq_of_lt]
    omega
  · intro i hi hne
    have hi' : i < (chunks d frame).length := by rwa [hlen] at hi
    have hle := length_flatten_take_le d frame i
    have hdvd : 32 ∣ i * d := Nat.dvd_mul_left_of_dvd hd32.1 i
    rw [length_flatten_take hi'] at hle
    rw [take_fragments, data_fragments, getElem_fragments _ hi', fragment, length_flatten_take hi']
    dsimp only
    rw [Nat.zero_add, Nat.zero_add, if_neg hne]
    omega
  · intro i hi
    have hi' : i < (chunks d frame).length := by rwa [hlen] at hi
    have hlen' : i + 1 = (fragments env frame.length 0 0 (chunks d frame)).length ↔
        i + 1 = (chunks d frame).length := by rw [hlen]
    rw [hlen', getElem_fragments _ hi', fragment, hmax, decide_eq_true_eq]
    by_cases hne : i + 1 = (chunks d frame).length
    · rw [length_getElem_last_lt hd hxs hi' hne]
      exact iff_of_true h hne
    · rw [length_getElem hi' hne]
      exact iff_of_false (Nat.lt_irrefl d) hne

/-! ## Whole calls -/

theorem sendFrame_refused (frame : List UInt8)
    (h : ¬ (env.present = true ∧ env.supported = true)) :
    ∃ ret, ret ≠ .ok ∧ ∀ fuel, sendFrame env frame fuel = some (.returned ret []) := by
  by_cases hpresent : env.present = true
  · have hsupported : env.supported = false := by
      cases hs : env.supported with
      | false => rfl
      | true => exact absurd ⟨hpresent, hs⟩ h
    exact ⟨.notSupportedEoe, nofun, fun fuel => by simp [sendFrame, hpresent, hsupported]⟩
  · exact ⟨.slaveNotFound, nofun, fun fuel => by simp [sendFrame, hpresent]⟩

/-- **Sending a frame.** It takes a send buffer for each fragment, and the handler to write each of
them; the last one is marked if the frame cannot be cut into full ones. -/
theorem sendFrame_fragmented (env : SendEnv) (frame : List UInt8)
    (hframe : 1 ≤ frame.length ∧ frame.length ≤ 1518) (hsm : 42 ≤ env.smLen.toNat) :
    Sends env frame ↔ (env.present = true ∧ env.supported = true) ∧
      (∀ i < 1 + (frame.length - 1) / env.maxFragLen,
        env.buffer i = true ∧ env.written i = true) ∧
      ¬ env.maxFragLen ∣ frame.length := by
  by_cases hcall : env.present = true ∧ env.supported = true
  · have hd := maxFragLen_pos hsm
    have hfit : headerLen + frame.length ≤ lecMaxPoolDataSize := by
      rw [headerLen, lecMaxPoolDataSize]
      omega
    have hends : ∀ ret sent, While.Ends (sendFragment env frame) ⟨0, 0, []⟩ (.returned ret sent) ↔ _ :=
      fun ret sent => ends_iff rfl hd hfit (Nat.zero_le _) rfl
    simp only [List.drop_zero, Nat.zero_add, List.nil_append, length_chunks hd] at hends
    rw [and_iff_right hcall]
    constructor
    · rintro ⟨fuel, ret, sent, hrun, hfragmented⟩
      have hrun := (ends_of_sendFrame hcall.1 hcall.2).1 ⟨fuel, hrun⟩
      obtain ⟨hall, -, rfl⟩ := (hends ret sent).1 hrun
      exact ⟨hall, (fragmented_iff rfl hsm hframe).1 hfragmented⟩
    · rintro ⟨hall, hdvd⟩
      obtain ⟨fuel, hrun⟩ := (ends_of_sendFrame hcall.1 hcall.2).2
        ((hends .mailboxTimeout _).2 ⟨hall, rfl, rfl⟩)
      exact ⟨fuel, _, _, hrun, (fragmented_iff rfl hsm hframe).2 hdvd⟩
  · refine iff_of_false ?_ fun h => hcall h.1
    obtain ⟨ret', -, hrefused⟩ := sendFrame_refused frame hcall
    rintro ⟨fuel, ret, sent, hrun, hfragmented⟩
    rw [hrefused, Option.some_inj, Outcome.returned.injEq] at hrun
    have hdata := hfragmented.data
    rw [← hrun.2, List.flatMap_nil] at hdata
    rw [← hdata] at hframe
    simp at hframe

/-- A slave whose mailbox has room for one block. -/
def exampleEnv : SendEnv where
  present := true
  supported := true
  smLen := 42
  buffer _ := true
  written _ := true
  counter i := (i + 1) % 7 + 1

theorem sendFrame_fragmented_two : Sends exampleEnv (List.replicate 40 0x5a) :=
  (sendFrame_fragmented exampleEnv (List.replicate 40 0x5a) (by simp) (by decide)).2
    ⟨by decide, fun _ _ => ⟨rfl, rfl⟩, by decide +kernel⟩

/-- Two full fragments: none of them is the last one. -/
theorem sendFrame_without_last : ¬ ∀ (env : SendEnv) (frame : List UInt8),
    1 ≤ frame.length ∧ frame.length ≤ 1518 → 42 ≤ env.smLen.toNat → Sends env frame := by
  intro h
  obtain ⟨fuel, ret, sent, hrun, hfragmented⟩ :=
    h exampleEnv (List.replicate 64 0x5a) (by simp) (by decide)
  have hends := (ends_of_sendFrame rfl rfl).1 ⟨fuel, hrun⟩
  obtain ⟨-, -, rfl⟩ := (ends_iff rfl (maxFragLen_pos (by decide)) (by decide +kernel)
    (Nat.zero_le _) rfl).1 hends
  exact (fragmented_iff rfl (by decide) (by simp)).1 hfragmented (by decide +kernel)

/-- What has been sent ends where the next fragment begins. -/
def Sent (frame : List UInt8) (s : Loop) : Prop :=
  (s.sent.flatMap fun f => f.data) = frame.take s.frameOffset

theorem Sent.append {s : Loop} (hs : Sent frame s) {data : List UInt8}
    (hdata : data = (frame.drop s.frameOffset).take env.maxFragLen) (n : ℕ) :
    ((s.sent ++ [fragment env frame.length n s.frameOffset data]).flatMap fun f => f.data) =
      frame.take (s.frameOffset + data.length) := by
  have htake : data = (frame.drop s.frameOffset).take data.length := by
    rw [hdata, List.length_take, ← List.take_take, List.take_length]
  rw [List.flatMap_append, hs, List.flatMap_singleton, List.take_add, ← htake]
  rfl

/-- A call that is not refused returns, if it does, when all has been sent, and with an error. -/
theorem ret_of_ends (hends : While.Ends (sendFragment env frame) ⟨0, 0, []⟩ (.returned ret sent)) :
    ret = .mailboxTimeout ∧ sent ≠ [] ∧ (sent.flatMap fun f => f.data) = frame := by
  refine hends.induction (I := Sent frame) (Q := fun o => ∀ ret sent, o = .returned ret sent →
    ret = .mailboxTimeout ∧ sent ≠ [] ∧ (sent.flatMap fun f => f.data) = frame)
    (fun s t hs hstep => ?_) (fun s o hs hstep => ?_) ?_ ret sent rfl
  · simp only [sendFragment] at hstep
    split_ifs at hstep
    cases hstep
    exact hs.append rfl s.fragNumber
  · rintro ret sent rfl
    simp only [sendFragment] at hstep
    split_ifs at hstep with hbuffer hfit hwritten hlt <;> cases hstep
    refine ⟨rfl, by simp, ?_⟩
    rw [hs.append rfl s.fragNumber]
    exact List.take_of_length_le (Nat.not_lt.1 hlt)
  · rfl

/-- **The result of sending a frame.** -/
theorem sendFrame_reports (env : SendEnv) (frame : List UInt8) :
    Reports env frame ↔ ¬ (env.present = true ∧ env.supported = true) := by
  constructor
  · rintro ⟨fuel, ret, sent, hrun, hret⟩ hcall
    obtain ⟨rfl, hsent⟩ := ret_of_ends
      ((ends_of_sendFrame hcall.1 hcall.2).1 ⟨fuel, hrun⟩)
    cases hret.2 hsent
  · intro hcall
    obtain ⟨ret, hne, hrefused⟩ := sendFrame_refused frame hcall
    exact ⟨0, ret, [], hrefused 0, by simp [hne]⟩

/-- All of the frame is sent, and the result is an error. -/
theorem sendFrame_timeout : ¬ ∀ (env : SendEnv) (frame : List UInt8), Reports env frame := by
  intro h
  obtain ⟨fuel, ret, sent, hrun, hret⟩ := h exampleEnv (List.replicate 40 0x5a)
  obtain ⟨rfl, hsent⟩ := ret_of_ends ((ends_of_sendFrame rfl rfl).1 ⟨fuel, hrun⟩)
  cases hret.2 hsent

end LibEthercat.Eoe
