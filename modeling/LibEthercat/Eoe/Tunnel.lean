import Mathlib.Data.List.Forall2
import Mathlib.Data.List.GetD
import LibEthercat.Coe.Download
import LibEthercat.Eoe.Receive

/-!
# Ethernet frames through EoE

What `ec_eoe_send_frame` writes to a mailbox is what `ec_eoe_process_recv` reads: both ends of a
tunnel use the format of `ec_eoe_request_t`. Frames are cut on one side while the other one still
puts earlier ones together, and the fragments in between are kept in their order by the mailbox.

**Theorem (`tunnel_exact`).** In every run of both sides, frames arrive in the order in which they
have been sent, each once and with its bytes; when nothing is on the way and the receiver rests, all
have arrived. Their size is rounded up to whole blocks, but for a frame in one fragment that goes to
the tap device.

The invariant splits the frames into those that have been delivered and those on their way: what
waits in the receiver's queue and in the mailbox are the fragments of the latter, in their order.
-/

namespace LibEthercat.Eoe

open Chunks
open LibEthercat.Coe (Message u16 mbxLength littleEndian u16_bytes)
open LibEthercat.Mbx.Enqueue (frameType lastFragment fragmentNumber EC_MBX_EOE
  EOE_FRAME_TYPE_SET_IP_ADDRESS_RESPONSE)

/-! ## Messages -/

/-- `ec_eoe_request_t`: the send buffer has been cleared, and what is not written is 0. -/
def Fragment.encode (f : Fragment) : Message :=
  message (littleEndian 2 f.length ++ [0, 0, 0, UInt8.ofNat (EC_MBX_EOE + 2 ^ 4 * f.counter)] ++
    [0, if f.lastFragment then 1 else 0] ++
      littleEndian 2 (f.fragmentNumber + 2 ^ 6 * f.completeSize) ++ f.data)

/-- The fields have room in their bits, and the length is that of the data. -/
structure Fragment.Encodable (f : Fragment) : Prop where
  length : f.length = 4 + f.data.length
  length_lt : f.length < 2 ^ 16
  number : f.fragmentNumber < 2 ^ 6
  size : f.completeSize < 2 ^ 6

section
variable {f : Fragment}

theorem mbxLength_encode (h : f.Encodable) : mbxLength f.encode = f.length :=
  u16_bytes h.length_lt (congrArg UInt8.ofNat (Nat.div_one _)) rfl

theorem u16_encode (h : f.Encodable) :
    u16 f.encode 8 = f.fragmentNumber + 2 ^ 6 * f.completeSize := by
  have hnumber := h.number
  have hsize := h.size
  exact u16_bytes (by omega) (congrArg UInt8.ofNat (Nat.div_one _)) rfl

theorem fragmentNumber_encode (h : f.Encodable) :
    fragmentNumber f.encode = f.fragmentNumber := by
  have hnumber := h.number
  rw [fragmentNumber, u16_encode h]
  omega

theorem completeSize_encode (h : f.Encodable) :
    completeSize f.encode = f.completeSize := by
  have hnumber := h.number
  have hsize := h.size
  rw [completeSize, u16_encode h]
  omega

theorem frameNumber_encode (h : f.Encodable) : frameNumber f.encode = 0 := by
  have hnumber := h.number
  have hsize := h.size
  rw [frameNumber, u16_encode h]
  omega

theorem frameType_encode (f : Fragment) : frameType f.encode = 0 := rfl

theorem lastFragment_encode (f : Fragment) : lastFragment f.encode = f.lastFragment := by
  have hbyte : f.encode 7 = if f.lastFragment then 1 else 0 := rfl
  rw [lastFragment, hbyte]
  cases f.lastFragment <;> rfl

theorem fragData_encode (h : f.Encodable) : fragData f.encode = f.data := by
  have hlen : fragLen f.encode = f.data.length := by
    have := h.length
    rw [fragLen_of_le (by rw [mbxLength_encode h]; omega), mbxLength_encode h]
    omega
  unfold fragData
  rw [hlen]
  refine List.ext_getElem (by simp) fun i hi hi' => ?_
  rw [List.getElem_map, List.getElem_range, headerLen, Nat.add_comm]
  exact List.getD_eq_getElem f.data 0 hi'

end

/-! ## The fragments of a frame -/

/-- These messages are the fragments of a frame. -/
structure Carries (frame : List UInt8) (ms : List Message) : Prop where
  isFrame : IsFrame ms
  short : Short ms
  data : ms.flatMap fragData = frame
  size : ∀ m ∈ ms.head?, completeSize m = (frame.length + 31) / 32
  plain : ∀ m ∈ ms, frameType m ≠ EOE_FRAME_TYPE_SET_IP_ADDRESS_RESPONSE

theorem encodable_fragments {env : SendEnv} {frameLen n off : ℕ} {cs : List (List UInt8)}
    (h : ∀ c ∈ cs, c.length ≤ frameDataLen) :
    ∀ f ∈ fragments env frameLen n off cs, f.Encodable := by
  induction cs generalizing n off with
  | nil => exact fun f hf => absurd hf List.not_mem_nil
  | cons c cs ih =>
    intro f hf
    rw [fragments] at hf
    obtain rfl | hf := List.mem_cons.1 hf
    · have hc := h c List.mem_cons_self
      rw [frameDataLen] at hc
      have hlen : (4 + c.length) % 2 ^ 16 = 4 + c.length := Nat.mod_eq_of_lt (by omega)
      refine ⟨hlen, ?_, Nat.mod_lt _ (by decide), ?_⟩
      · rw [fragment, hlen]
        show 4 + c.length < 2 ^ 16
        omega
      · rw [fragment]
        dsimp only
        split_ifs
        · exact Nat.mod_lt _ (by decide)
        · exact Nat.mod_lt _ (by decide)
    · exact ih (fun c hc => h c (List.mem_cons_of_mem _ hc)) f hf

/-- **What is sent as it should be is received as a frame.** -/
theorem carries_of_fragmented {smLen : ℕ} {frame : List UInt8} {sent : List Fragment}
    (h : Fragmented smLen frame sent) (henc : ∀ f ∈ sent, f.Encodable) (hne : sent ≠ [])
    (hlen : frame.length ≤ frameDataLen) : Carries frame (sent.map Fragment.encode) := by
  have hdata : ∀ l : List Fragment, (∀ f ∈ l, f.Encodable) →
      (l.map Fragment.encode).flatMap fragData = l.flatMap fun f => f.data := by
    intro l hl
    rw [List.flatMap_map]
    exact List.flatMap_congr fun f hf => fragData_encode (hl f hf)
  have hget : ∀ i (hi : i < (sent.map Fragment.encode).length), ∃ hi' : i < sent.length,
      (sent.map Fragment.encode)[i] = (sent[i]).encode ∧ (sent[i]).Encodable := by
    intro i hi
    rw [List.length_map] at hi
    exact ⟨hi, List.getElem_map .., henc _ (List.getElem_mem hi)⟩
  have hall : (sent.map Fragment.encode).flatMap fragData = frame := (hdata _ henc).trans h.data
  refine ⟨⟨by simpa using hne, ?_, ?_, ?_, ?_⟩, short_iff.2 (by rw [hall]; exact hlen), hall, ?_,
    ?_⟩
  · intro i hi
    obtain ⟨hi', heq, he⟩ := hget i hi
    rw [heq, fragmentNumber_encode he, h.number i hi']
  · intro m hm m' hm'
    obtain ⟨f, hf, rfl⟩ := List.mem_map.1 hm
    obtain ⟨f', hf', rfl⟩ := List.mem_map.1 hm'
    rw [frameNumber_encode (henc f hf), frameNumber_encode (henc f' hf')]
  · intro i hi hi0
    obtain ⟨hi', heq, he⟩ := hget i hi
    rw [heq, completeSize_encode he, h.offset i hi' hi0, ← List.map_take,
      hdata _ fun f hf => henc f (List.mem_of_mem_take hf)]
  · intro i hi
    obtain ⟨hi', heq, -⟩ := hget i hi
    rw [heq, lastFragment_encode, h.last i hi', List.length_map]
  · intro m hm
    rw [List.head?_map, Option.mem_def, Option.map_eq_some_iff] at hm
    obtain ⟨f, hf, rfl⟩ := hm
    rw [completeSize_encode (henc f (List.mem_of_head? hf)), h.size f hf]
  · intro m hm
    obtain ⟨f, -, rfl⟩ := List.mem_map.1 hm
    rw [frameType_encode]
    decide

/-- Only the last one of them is marked. -/
theorem IsFrame.exists_last {ms : List Message} (h : IsFrame ms) :
    ∃ init m, ms = init ++ [m] ∧ lastFragment m = true ∧ ∀ x ∈ init, lastFragment x = false := by
  refine ⟨ms.dropLast, ms.getLast h.ne_nil, (List.dropLast_append_getLast h.ne_nil).symm, ?_, ?_⟩
  · rw [List.getLast_eq_getElem]
    have hpos := List.length_pos_iff.2 h.ne_nil
    exact (h.last _ (by omega)).2 (by omega)
  · intro x hx
    obtain ⟨i, hi, rfl⟩ := List.getElem_of_mem hx
    rw [List.length_dropLast] at hi
    rw [List.getElem_dropLast, ← Bool.not_eq_true, h.last i (by omega)]
    omega

theorem front_append {init queue : List Message} {m : Message} (hm : lastFragment m = true)
    (h : ∀ x ∈ init, lastFragment x = false) : front (init ++ m :: queue) = init ++ [m] := by
  induction init with
  | nil => rw [List.nil_append, front, if_pos hm, List.nil_append]
  | cons x init ih =>
    rw [List.cons_append, front, if_neg (by rw [h x List.mem_cons_self]; exact Bool.false_ne_true),
      ih fun y hy => h y (List.mem_cons_of_mem x hy), List.cons_append]

theorem IsFrame.front_eq {ms : List Message} (h : IsFrame ms) (queue : List Message) :
    front (ms ++ queue) = ms := by
  obtain ⟨init, m, rfl, hm, hinit⟩ := h.exists_last
  rw [List.append_assoc, List.singleton_append, front_append hm hinit]

/-! ## The tunnel -/

/-- Both sides and the mailbox between them. For every frame that has been sent there is the number
of its fragments. -/
structure Tunnel where
  sent : List (List UInt8 × ℕ)
  flight : List Message
  receiver : Receiver

namespace Tunnel

inductive Action
  | send (env : SendEnv) (frame : List UInt8) (fuel : ℕ)
  | deliver
  | process

def init (frames : List EthFrame) : Tunnel := ⟨[], [], .init frames⟩

/-- A call of `ec_eoe_send_frame` that returns, a message that comes out of the mailbox, or a call
of `ec_eoe_process_recv`. -/
def step (tap : Bool) (t : Tunnel) : Action → Option Tunnel
  | .send env frame fuel =>
    match sendFrame env frame fuel with
    | some (.returned _ sent) => some { t with
        sent := if sent = [] then t.sent else t.sent ++ [(frame, sent.length)]
        flight := t.flight ++ sent.map Fragment.encode }
    | _ => none
  | .deliver =>
    match t.flight with
    | [] => none
    | m :: flight => (Eoe.step tap t.receiver (.receive m)).map fun receiver =>
        { t with flight := flight, receiver := receiver }
  | .process => (Eoe.step tap t.receiver .process).map fun receiver =>
      { t with receiver := receiver }

/-- A frame that can be cut into fragments of which only the last one is not full; and there is a
buffer for it, if it is not given to the tap device. -/
def Sendable (tap : Bool) (cnt : ℕ) (t : Tunnel) : Action → Prop
  | .send env frame _ => (1 ≤ frame.length ∧ frame.length ≤ frameDataLen) ∧ 42 ≤ env.smLen.toNat ∧
      ¬ env.maxFragLen ∣ frame.length ∧ (tap = true ∨ t.sent.length < cnt)
  | _ => True

/-- Where the frames arrive. -/
def delivered (tap : Bool) (s : Receiver) : List EthFrame := if tap then s.tap else s.framesRecv

/-- A frame that has been sent in so many fragments, and the buffer that it arrives in. -/
structure Arrived (tap : Bool) (p : List UInt8 × ℕ) (out : EthFrame) : Prop where
  data : out.frameData.take p.1.length = p.1
  size : out.frameSize = if tap = true ∧ p.2 = 1 then p.1.length else (p.1.length + 31) / 32 * 32

/-- The frames that have arrived, and those on their way with their fragments. -/
structure Split (tap : Bool) (t : Tunnel) (done : List (List UInt8 × ℕ))
    (rest : List (List UInt8 × List Message)) : Prop where
  sent : t.sent = done ++ rest.map fun p => (p.1, p.2.length)
  arrived : List.Forall₂ (Arrived tap) done (delivered tap t.receiver)
  carries : ∀ p ∈ rest, Carries p.1 p.2
  queued : t.receiver.recvPool ++ t.flight = rest.flatMap Prod.snd
  resting : t.receiver.processing = false → ∀ m ∈ t.receiver.recvPool, lastFragment m = false
  processing : t.receiver.processing = true →
    t.receiver.recvPool = [] ∨ ∃ p tl, rest = p :: tl ∧ t.receiver.recvPool = p.2

structure Inv (tap : Bool) (cnt : ℕ) (t : Tunnel) : Prop where
  split : ∃ done rest, Split tap t done rest
  room : tap = true ∨ t.sent.length ≤ cnt
  free : if tap then 0 < t.receiver.framesFree.length
    else t.receiver.framesFree.length + t.receiver.framesRecv.length = cnt

variable {tap : Bool} {cnt : ℕ} {t t' : Tunnel}

/-- **A frame that has come as a whole.** -/
theorem processRecv_carries (tap : Bool) {s : Receiver} {frame : List UInt8} {ms : List Message}
    (h : Carries frame ms) (hqueue : s.recvPool = ms) (hfree : s.framesFree ≠ []) :
    ∃ s' out, processRecv tap s = some (.ok, s') ∧ s'.recvPool = [] ∧
      delivered tap s' = delivered tap s ++ [out] ∧ Arrived tap (frame, ms.length) out ∧
      s'.framesFree.length + (if tap then 0 else 1) = s.framesFree.length ∧
      s'.framesRecv.length = s.framesRecv.length + if tap then 0 else 1 := by
  obtain ⟨b, bs, hframes⟩ := List.exists_cons_of_ne_nil hfree
  obtain ⟨m, tl, hms⟩ := List.exists_cons_of_ne_nil h.isFrame.ne_nil
  have hfront : front s.recvPool = ms := by
    have hfront := h.isFrame.front_eq []
    rw [List.append_nil] at hfront
    rw [hqueue, hfront]
  have hfirst : fragmentNumber m = 0 := (hms ▸ h.isFrame).first
  have hany : s.recvPool.any lastFragment = true := by
    have hframe := h.isFrame
    rw [← hfront] at hframe
    exact hframe.any_last
  obtain ⟨out, hsize, hdata, hcall⟩ := processRecv_eq_some tap (hqueue.trans hms) hframes hfirst
    (by rw [hfront]; exact h.short)
  have hcomplete := h.size m (by rw [hms]; rfl)
  have hlast : lastFragment m = true ↔ ms.length = 1 := by
    have hlast := h.isFrame.last 0 (List.length_pos_iff.2 h.isFrame.ne_nil)
    simp only [hms, List.getElem_cons_zero, Nat.zero_add] at hlast ⊢
    exact hlast.trans eq_comm
  have hone : ms.length = 1 → fragLen m = frame.length := by
    intro hone
    have hnil : tl = [] := by simpa [hms] using hone
    rw [← h.data, hms, hnil, List.flatMap_singleton, length_fragData]
  rw [hfront, h.data] at hdata
  rw [if_pos hany, hfront, ← hqueue, List.drop_length] at hcall
  cases tap with
  | true =>
    refine ⟨_, _, hcall, rfl, rfl, ⟨hdata, ?_⟩, ?_, rfl⟩
    · dsimp only
      by_cases hlen : ms.length = 1
      · rw [if_pos (hlast.2 hlen), if_pos ⟨rfl, hlen⟩, hone hlen]
      · rw [if_neg (mt hlast.1 hlen), if_neg fun hc => hlen hc.2, hcomplete]
    · rw [hframes]
      exact List.length_append
  | false =>
    refine ⟨_, out, hcall, rfl, rfl, ⟨hdata, ?_⟩, ?_, List.length_append⟩
    · rw [hsize, hcomplete]
      rfl
    · rw [hframes]
      rfl

/-- What `ec_eoe_send_frame` writes. -/
theorem sendFrame_carries {env : SendEnv} {frame : List UInt8} {fuel : ℕ} {ret : Ret}
    {frs : List Fragment} (hrun : sendFrame env frame fuel = some (.returned ret frs))
    (hframe : 1 ≤ frame.length ∧ frame.length ≤ frameDataLen) (hsm : 42 ≤ env.smLen.toNat)
    (hdvd : ¬ env.maxFragLen ∣ frame.length) :
    frs = [] ∨ Carries frame (frs.map Fragment.encode) := by
  by_cases hcall : env.present = true ∧ env.supported = true
  · have hd := maxFragLen_pos hsm
    have hfit : headerLen + frame.length ≤ lecMaxPoolDataSize := by
      rw [headerLen, lecMaxPoolDataSize]
      rw [frameDataLen] at hframe
      omega
    have hends := (ends_of_sendFrame hcall.1 hcall.2).1 ⟨fuel, hrun⟩
    obtain ⟨-, -, rfl⟩ := (ends_iff rfl hd hfit (Nat.zero_le _) rfl).1 hends
    have hpieces : ∀ c ∈ chunks env.maxFragLen frame, c.length ≤ frameDataLen := by
      intro c hc
      have := length_of_mem_chunks hd frame c hc
      omega
    by_cases hnil : fragments env frame.length 0 0 (chunks env.maxFragLen frame) = []
    · exact .inl hnil
    · exact .inr (carries_of_fragmented ((fragmented_iff rfl hsm hframe).2 hdvd)
        (encodable_fragments hpieces) hnil hframe.2)
  · obtain ⟨ret', -, hrefused⟩ := sendFrame_refused frame hcall
    rw [hrefused, Option.some_inj, Outcome.returned.injEq] at hrun
    exact .inl hrun.2.symm

theorem Inv.send {env : SendEnv} {frame : List UInt8} {fuel : ℕ} (h : Inv tap cnt t)
    (hok : Sendable tap cnt t (.send env frame fuel))
    (hstep : step tap t (.send env frame fuel) = some t') : Inv tap cnt t' := by
  obtain ⟨hframe, hsm, hdvd, hroom⟩ := hok
  rw [step] at hstep
  split at hstep
  · rename_i ret frs hrun
    cases hstep
    obtain ⟨⟨done, rest, hsplit⟩, hcnt, hfree⟩ := h
    obtain rfl | hcarries := sendFrame_carries hrun hframe hsm hdvd
    · rw [if_pos rfl, List.map_nil, List.append_nil]
      exact ⟨⟨done, rest, hsplit⟩, hcnt, hfree⟩
    · have hne : frs ≠ [] := fun hnil => hcarries.isFrame.ne_nil (by rw [hnil]; rfl)
      rw [if_neg hne]
      refine ⟨⟨done, rest ++ [(frame, frs.map Fragment.encode)], ?_, hsplit.arrived, ?_, ?_,
        hsplit.resting, fun hp => ?_⟩, ?_, hfree⟩
      · simp [hsplit.sent]
      · rw [List.forall_mem_append]
        exact ⟨hsplit.carries, by simpa using hcarries⟩
      · rw [← List.append_assoc, hsplit.queued]
        simp
      · obtain hnil | ⟨p, tl, hrest, hqueue⟩ := hsplit.processing hp
        · exact .inl hnil
        · exact .inr ⟨p, tl ++ [(frame, frs.map Fragment.encode)], by simp [hrest], hqueue⟩
      · rw [List.length_append, List.length_singleton]
        exact hroom
  · cases hstep

theorem Inv.deliver (h : Inv tap cnt t) (hstep : step tap t .deliver = some t') :
    Inv tap cnt t' := by
  obtain ⟨⟨done, rest, hsplit⟩, hcnt, hfree⟩ := h
  rw [step] at hstep
  split at hstep
  · cases hstep
  · rename_i m flight hflight
    rw [Option.map_eq_some_iff] at hstep
    obtain ⟨receiver, hreceive, rfl⟩ := hstep
    rw [Eoe.step, Option.ite_none_left_eq_some, Option.some_inj] at hreceive
    obtain ⟨hresting, rfl⟩ := hreceive
    rw [Bool.not_eq_true] at hresting
    have hqueued := hsplit.queued
    rw [hflight] at hqueued
    cases rest with
    | nil => simp at hqueued
    | cons p tl =>
      have hp := hsplit.carries p List.mem_cons_self
      obtain ⟨init, last, hms, hlast, hinit⟩ := hp.isFrame.exists_last
      have hwait := hsplit.resting hresting
      have hplain : frameType m ≠ EOE_FRAME_TYPE_SET_IP_ADDRESS_RESPONSE := by
        have hmem : m ∈ (p :: tl).flatMap Prod.snd := by
          rw [← hqueued]
          exact List.mem_append_right _ List.mem_cons_self
        obtain ⟨q, hq, hm⟩ := List.mem_flatMap.1 hmem
        exact (hsplit.carries q hq).plain m hm
      rw [enqueue, if_neg hplain]
      refine ⟨⟨done, p :: tl, hsplit.sent, hsplit.arrived, hsplit.carries, ?_, ?_, ?_⟩, hcnt, hfree⟩
      · dsimp only
        rw [List.append_assoc, List.singleton_append, hqueued]
      · intro hlastm x hx
        obtain hx | hx := List.mem_append.1 hx
        · exact hwait x hx
        · rw [List.mem_singleton.1 hx]
          exact hlastm
      · -- The last fragment of a frame: all the others wait already.
        intro hlastm
        refine .inr ⟨p, tl, rfl, ?_⟩
        have hfront := congrArg front hqueued
        rw [front_append hlastm hwait, List.flatMap_cons, hp.isFrame.front_eq] at hfront
        exact hfront

/-- What a call of `ec_eoe_process_recv` finds: nothing, or a whole frame and a buffer for it. -/
theorem Inv.process (h : Inv tap cnt t) (hprocessing : t.receiver.processing = true) :
    ∃ t', step tap t .process = some t' ∧ Inv tap cnt t' := by
  obtain ⟨⟨done, rest, hsplit⟩, hcnt, hfree⟩ := h
  obtain hnil | ⟨p, tl, rfl, hqueue⟩ := hsplit.processing hprocessing
  · refine ⟨{ t with receiver := { t.receiver with processing := false } }, ?_,
      ⟨done, rest, hsplit.sent, hsplit.arrived, hsplit.carries, hsplit.queued, ?_, fun hp => ?_⟩,
      hcnt, hfree⟩
    · rw [step, Eoe.step, if_pos hprocessing, processRecv_nil hnil]
      rfl
    · dsimp only
      rw [hnil]
      exact fun _ m hm => absurd hm List.not_mem_nil
    · exact absurd hp Bool.false_ne_true
  · have hdone := hsplit.arrived.length_eq
    have hlen := congrArg List.length hsplit.sent
    rw [List.length_append, List.length_map, List.length_cons] at hlen
    have hbuffer : t.receiver.framesFree ≠ [] := by
      refine List.ne_nil_of_length_pos ?_
      cases tap with
      | true => exact hfree
      | false =>
        have hfree : t.receiver.framesFree.length + t.receiver.framesRecv.length = cnt := hfree
        have hdone : done.length = t.receiver.framesRecv.length := hdone
        have hcnt := hcnt.resolve_left Bool.false_ne_true
        omega
    obtain ⟨s', out, hcall, hrecv, hdelivered, harrived, hfree', hrecv'⟩ :=
      processRecv_carries tap (hsplit.carries p List.mem_cons_self) hqueue hbuffer
    refine ⟨{ t with receiver := { s' with processing := true } }, ?_,
      ⟨done ++ [(p.1, p.2.length)], tl, ?_, ?_, ?_, ?_, ?_, fun _ => .inl hrecv⟩, hcnt, ?_⟩
    · rw [step, Eoe.step, if_pos hprocessing, hcall]
      rfl
    · rw [hsplit.sent, List.map_cons, List.append_assoc, List.singleton_append]
    · have hdel : delivered tap { s' with processing := true } = delivered tap s' := rfl
      rw [hdel, hdelivered]
      exact List.rel_append hsplit.arrived (.cons harrived .nil)
    · exact fun q hq => hsplit.carries q (List.mem_cons_of_mem p hq)
    · have hqueued := hsplit.queued
      rw [hqueue, List.flatMap_cons] at hqueued
      dsimp only
      rw [hrecv, List.nil_append]
      exact List.append_cancel_left hqueued
    · exact fun hp => absurd hp (by simp)
    · cases tap with
      | true =>
        have hfree : 0 < t.receiver.framesFree.length := hfree
        show 0 < s'.framesFree.length
        rw [if_pos rfl] at hfree'
        omega
      | false =>
        have hfree : t.receiver.framesFree.length + t.receiver.framesRecv.length = cnt := hfree
        show s'.framesFree.length + s'.framesRecv.length = cnt
        simp only [Bool.false_eq_true, if_false] at hfree' hrecv'
        omega

theorem Inv.step {a : Action} (h : Inv tap cnt t) (hok : Sendable tap cnt t a)
    (hstep : step tap t a = some t') : Inv tap cnt t' := by
  cases a with
  | send env frame fuel => exact h.send hok hstep
  | deliver => exact h.deliver hstep
  | process =>
    have hprocessing : t.receiver.processing = true := by
      rw [Tunnel.step, Eoe.step, Option.map_eq_some_iff] at hstep
      obtain ⟨s', hs', -⟩ := hstep
      exact (Option.ite_none_right_eq_some.1 hs').1
    obtain ⟨t₁, ht₁, hinv⟩ := h.process hprocessing
    rw [hstep] at ht₁
    exact Option.some.inj ht₁ ▸ hinv

theorem inv_init {frames : List EthFrame} (h : frames ≠ []) :
    Inv tap frames.length (init frames) := by
  refine ⟨⟨[], [], rfl, ?_, fun _ hp => absurd hp List.not_mem_nil, rfl,
    fun _ _ hm => absurd hm List.not_mem_nil, fun _ => .inl rfl⟩, .inr (Nat.zero_le _), ?_⟩
  · cases tap <;> exact .nil
  · cases tap with
    | true => exact List.length_pos_iff.2 h
    | false => rfl

/-- **The tunnel.** What has been sent arrives in its order, each frame once; when nothing is on the
way and the receiver rests, all of it has arrived. The receiver is never stuck. -/
theorem tunnel_exact {frames : List EthFrame} (hframes : frames ≠ []) {actions : List Action}
    (hok : Runs.RunOk (Tunnel.step tap) (Sendable tap frames.length) (init frames) actions)
    (hrun : Runs.run (Tunnel.step tap) (init frames) actions = some t) :
    (∃ done rest, t.sent = done ++ rest ∧
      List.Forall₂ (Arrived tap) done (delivered tap t.receiver) ∧
      (t.flight = [] → t.receiver.processing = false → rest = [])) ∧
    (t.receiver.processing = true → ∃ t', Tunnel.step tap t .process = some t') := by
  have hinv : Inv tap frames.length t :=
    Runs.runOk_induction (fun _ _ _ h hok hstep => h.step hok hstep) (inv_init hframes) hok hrun
  refine ⟨?_, fun hp => ?_⟩
  · obtain ⟨⟨done, rest, hsplit⟩, -, -⟩ := hinv
    refine ⟨done, _, hsplit.sent, hsplit.arrived, fun hflight hresting => ?_⟩
    cases rest with
    | nil => rfl
    | cons p tl =>
      -- the last fragment of the next frame would wait
      obtain ⟨init, m, hms, hlast, -⟩ := (hsplit.carries p List.mem_cons_self).isFrame.exists_last
      have hqueued := hsplit.queued
      rw [hflight, List.append_nil] at hqueued
      have hm : m ∈ t.receiver.recvPool := by
        rw [hqueued, List.flatMap_cons, hms]
        simp
      exact absurd (hlast.symm.trans (hsplit.resting hresting m hm)) (by simp)
  · obtain ⟨t', ht', -⟩ := hinv.process hp
    exact ⟨t', ht'⟩

/-- A frame of 40 bytes, in two fragments. -/
def twoFragments : List Action :=
  [.send exampleEnv (List.replicate 40 0x5a) 2, .deliver, .deliver, .process]

theorem tunnel_exact_two :
    ∃ t, Runs.run (Tunnel.step true) (init [freeFrame]) twoFragments = some t ∧
    (∃ done rest, t.sent = done ++ rest ∧
      List.Forall₂ (Arrived true) done (delivered true t.receiver) ∧
      (t.flight = [] → t.receiver.processing = false → rest = [])) ∧
    (t.receiver.processing = true → ∃ t', Tunnel.step true t .process = some t') := by
  have hsome : (Runs.run (Tunnel.step true) (init [freeFrame]) twoFragments).isSome = true := by
    decide +kernel
  obtain ⟨t, hrun⟩ := Option.isSome_iff_exists.1 hsome
  have hsend : Sendable true 1 (init [freeFrame]) (.send exampleEnv (List.replicate 40 0x5a) 2) :=
    ⟨by decide, by decide, by decide +kernel, .inl rfl⟩
  have hok : Runs.RunOk (Tunnel.step true) (Sendable true [freeFrame].length) (init [freeFrame])
      twoFragments :=
    ⟨hsend, fun _ _ => ⟨trivial, fun _ _ => ⟨trivial, fun _ _ => ⟨trivial, fun _ _ => trivial⟩⟩⟩⟩
  exact ⟨t, hrun, tunnel_exact (List.cons_ne_nil _ _) hok hrun⟩

end Tunnel

end LibEthercat.Eoe
