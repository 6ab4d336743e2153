import LibEthercat.Eoe.Send
import LibEthercat.Lib.Runs
import LibEthercat.Mbx.Enqueue

/-!
# Receiving Ethernet frames over EoE

The handler of a mailbox puts EoE fragments into `eoe.recv_pool`; when the last fragment of a frame
has come, it calls `ec_eoe_process_recv` as long as that finds something. A call takes fragments up to
the next one that is marked as the last, and copies them into a frame buffer one behind the other. All
but this handler leave the queue alone, so when it is empty `ec_eoe_wait` returns nothing.

**Theorem (`received_bounded`).** Nothing is written outside of a frame buffer if and only if no
fragment is shorter than its header and the fragments of a frame are not longer than the buffer.

**Theorem (`received_exact`).** The frames that are delivered are those that have been sent, and the
other buffers are free again, if and only if all fragments of a frame are there, in their order, and
its size is a number of whole blocks. A frame in one fragment may have any size, if it goes to the tap
device.
-/

namespace LibEthercat.Eoe

open LibEthercat.Coe (Message u16 mbxLength)
open LibEthercat.Mbx.Enqueue (frameType lastFragment fragmentNumber
  EOE_FRAME_TYPE_SET_IP_ADDRESS_RESPONSE)

/-! ## Fragments -/

/-- `eoe_hdr.complete_size`: the size of the frame, or the offset of a later fragment, in blocks. -/
def completeSize (m : Message) : ℕ := u16 m 8 / 2 ^ 6 % 2 ^ 6

def frameNumber (m : Message) : ℕ := u16 m 8 / 2 ^ 12

/-- `mbx_hdr.length - 4u`, of 32 bits. -/
def fragLen (m : Message) : ℕ :=
  if mbxLength m < 4 then 2 ^ 32 - (4 - mbxLength m) else mbxLength m - 4

theorem fragLen_of_le {m : Message} (h : 4 ≤ mbxLength m) : fragLen m = mbxLength m - 4 :=
  if_neg (by omega)

theorem le_fragLen {m : Message} (h : mbxLength m < 4) : 2 ^ 31 ≤ fragLen m := by
  rw [fragLen, if_pos h]
  omega

def fragData (m : Message) : List UInt8 := (List.range (fragLen m)).map fun i => m (headerLen + i)

@[simp] theorem length_fragData (m : Message) : (fragData m).length = fragLen m := by
  simp [fragData]

attribute [irreducible] fragLen fragData

/-! ## The code -/

/-- The length of `frame_data`. -/
def frameDataLen : ℕ := 1518

/-- `eth_frame_t` -/
structure EthFrame where
  frameSize : ℕ
  frameData : List UInt8
  length_frameData : frameData.length = frameDataLen
deriving DecidableEq

/-- `memcpy` from a fragment, which must not leave `frame_data`, nor the mailbox buffer. -/
def EthFrame.copy (frame : EthFrame) (off : ℕ) (m : Message) : Option EthFrame :=
  if h : off + fragLen m ≤ frameDataLen ∧ headerLen + fragLen m ≤ lecMaxPoolDataSize then
    some { frame with
      frameData := frame.frameData.take off ++ fragData m ++ frame.frameData.drop (off + fragLen m)
      length_frameData := by
        have := frame.length_frameData
        simp
        omega }
  else none

structure Receiver where
  /-- `eoe.recv_pool` -/
  recvPool : List Message
  /-- `eth_frames_free_pool` -/
  framesFree : List EthFrame
  /-- `eth_frames_recv_pool` -/
  framesRecv : List EthFrame
  /-- What has been written to the tap device: so many bytes from the beginning of `frame_data`. -/
  tap : List EthFrame
  /-- `ec_eoe_process_recv` is called next. -/
  processing : Bool

inductive RecvRet
  | ok
  | unavailable
  | outOfMemory
deriving DecidableEq

/-- The fragments behind the first one: if the last one is among them, the frame, and what remains
in the queue. -/
def collect (frame : EthFrame) (off : ℕ) : List Message → Option (Bool × EthFrame × List Message)
  | [] => some (false, frame, [])
  | m :: queue =>
    (frame.copy off m).bind fun frame =>
      if lastFragment m then some (true, frame, queue) else collect frame (off + fragLen m) queue

/-- A frame of this size is complete; `tap` if there is a tap device. -/
def Receiver.deliver (s : Receiver) (tap : Bool) (frame : EthFrame) (size : ℕ) : Receiver :=
  if tap then
    { s with tap := s.tap ++ [{ frame with frameSize := size }], framesFree := s.framesFree ++ [frame] }
  else { s with framesRecv := s.framesRecv ++ [frame] }

/-- `ec_eoe_process_recv`; nothing, if a copy leaves its buffer. -/
def processRecv (tap : Bool) (s : Receiver) : Option (RecvRet × Receiver) :=
  match s.recvPool with
  | [] => some (.unavailable, s)
  | m :: queue =>
    match s.framesFree with
    | [] => some (.outOfMemory, { s with recvPool := queue })
    | frame :: framesFree =>
      let s := { s with recvPool := queue, framesFree := framesFree }
      if fragmentNumber m ≠ 0 then some (.ok, { s with framesRecv := s.framesRecv ++ [frame] })
      else
        ({ frame with frameSize := completeSize m * 32 }.copy 0 m).bind fun frame =>
          if lastFragment m then some (.ok, s.deliver tap frame (fragLen m))
          else
            match collect frame (fragLen m) queue with
            | none => none
            | some (last, frame, queue) =>
              let s := { s with recvPool := queue }
              -- without the last fragment, the buffer is put to the others
              some (.ok, if last then s.deliver tap frame frame.frameSize
                else { s with framesRecv := s.framesRecv ++ [frame] })

/-- `ec_eoe_enqueue`, up to the loop. A response to another call has a queue of its own. -/
def enqueue (s : Receiver) (m : Message) : Receiver :=
  if frameType m = EOE_FRAME_TYPE_SET_IP_ADDRESS_RESPONSE then s
  else { s with recvPool := s.recvPool ++ [m], processing := lastFragment m }

inductive Action
  | receive (m : Message)
  | process

def step (tap : Bool) (s : Receiver) : Action → Option Receiver
  | .receive m => if s.processing then none else some (enqueue s m)
  | .process =>
    if s.processing then
      (processRecv tap s).map fun (ret, s) => { s with processing := ret = .ok }
    else none

/-- After `ec_eoe_init`, with anything in the buffers. -/
def Receiver.init (frames : List EthFrame) : Receiver := ⟨[], frames, [], [], false⟩

/-! ## What is expected -/

/-- These are the fragments of one frame. -/
structure IsFrame (ms : List Message) : Prop where
  ne_nil : ms ≠ []
  number : ∀ i (hi : i < ms.length), fragmentNumber ms[i] = i
  same : ∀ m ∈ ms, ∀ m' ∈ ms, frameNumber m = frameNumber m'
  offset : ∀ i (hi : i < ms.length), i ≠ 0 →
    completeSize ms[i] * 32 = ((ms.take i).flatMap fragData).length
  last : ∀ i (hi : i < ms.length), lastFragment ms[i] = true ↔ i + 1 = ms.length

/-- The frame holds what the fragments of one frame have brought, no less and no more. -/
structure Exact (ms : List Message) (frame : EthFrame) : Prop where
  isFrame : IsFrame ms
  size : frame.frameSize = (ms.flatMap fragData).length
  data : frame.frameData.take frame.frameSize = ms.flatMap fragData

/-- These fragments are taken out of the queue, and what is delivered is the frame they make; other
buffers stay free. -/
structure Delivers (s s' : Receiver) (ms : List Message) : Prop where
  taken : s.recvPool = ms ++ s'.recvPool
  tap : ∃ frames, s'.tap = s.tap ++ frames ∧ ∀ f ∈ frames, Exact ms f
  recv : ∃ frames, s'.framesRecv = s.framesRecv ++ frames ∧ (∀ f ∈ frames, Exact ms f) ∧
    s.framesFree.length = s'.framesFree.length + frames.length

def DeliversExact (tap : Bool) (s : Receiver) : Action → Prop
  | .receive _ => True
  | .process => s.processing = true →
    ∃ ret s' ms, processRecv tap s = some (ret, s') ∧ Delivers s s' ms

/-- No copy leaves its buffer. -/
def StaysInside (tap : Bool) (s : Receiver) : Action → Prop
  | .receive _ => True
  | .process => s.processing = true → ∃ r, processRecv tap s = some r

/-! ## When it is so -/

/-- The messages that a call takes: up to the first last fragment. -/
def front : List Message → List Message
  | [] => []
  | m :: queue => if lastFragment m then [m] else m :: front queue

/-- The lengths of the fragments in the frame. -/
structure Short (ms : List Message) : Prop where
  header : ∀ m ∈ ms, 4 ≤ mbxLength m
  data : (ms.map fun m => mbxLength m - 4).sum ≤ frameDataLen

/-- The queue begins with a later fragment, which is dropped, or there is room for the frame. -/
def Bounded (s : Receiver) : Action → Prop
  | .receive _ => True
  | .process => s.processing = true → s.framesFree ≠ [] →
    (∃ m queue, s.recvPool = m :: queue ∧ fragmentNumber m ≠ 0) ∨ Short (front s.recvPool)

/-- The size of the frame that its first fragment tells, or one fragment for the tap device. -/
def Announced (tap : Bool) (ms : List Message) : Prop :=
  (tap = true ∧ ms.length = 1) ∨
    ∀ m ∈ ms.head?, completeSize m * 32 = (ms.map fun m => mbxLength m - 4).sum

/-- The queue begins with a frame, and that has the size it announces. -/
def Complete (tap : Bool) (s : Receiver) : Action → Prop
  | .receive _ => True
  | .process => s.processing = true → s.framesFree ≠ [] → s.recvPool ≠ [] →
    IsFrame (front s.recvPool) ∧ Short (front s.recvPool) ∧ Announced tap (front s.recvPool)

/-! ## Copies -/

section
variable {frame : EthFrame} {off : ℕ} {m : Message} {ms queue : List Message}

theorem EthFrame.copy_eq_some (frame : EthFrame) (off : ℕ) (m : Message)
    (h : off + fragLen m ≤ frameDataLen) :
    ∃ frame', frame.copy off m = some frame' ∧ frame'.frameSize = frame.frameSize ∧
      frame'.frameData.take (off + fragLen m) = frame.frameData.take off ++ fragData m := by
  have hmbx : headerLen + fragLen m ≤ lecMaxPoolDataSize := by
    rw [headerLen, lecMaxPoolDataSize]
    rw [frameDataLen] at h
    omega
  have hlen := frame.length_frameData
  refine ⟨_, dif_pos ⟨h, hmbx⟩, rfl, ?_⟩
  have hprefix : (frame.frameData.take off ++ fragData m).length = off + fragLen m := by
    rw [List.length_append, List.length_take, length_fragData, Nat.min_eq_left (by omega)]
  exact List.take_left' hprefix

theorem EthFrame.copy_eq_none (h : frameDataLen < off + fragLen m) : frame.copy off m = none :=
  dif_neg fun hfit => by omega

theorem sum_of_header (h : ∀ m ∈ ms, 4 ≤ mbxLength m) :
    (ms.map fun m => mbxLength m - 4).sum = (ms.flatMap fragData).length := by
  induction ms with
  | nil => rfl
  | cons m ms ih =>
    rw [List.map_cons, List.sum_cons, List.flatMap_cons, List.length_append, length_fragData,
      fragLen_of_le (h m List.mem_cons_self), ih fun x hx => h x (List.mem_cons_of_mem m hx)]

theorem Short.sum_eq (h : Short ms) :
    (ms.map fun m => mbxLength m - 4).sum = (ms.flatMap fragData).length :=
  sum_of_header h.header

theorem fragLen_le_of_mem (h : m ∈ ms) : fragLen m ≤ (ms.flatMap fragData).length := by
  obtain ⟨pre, post, rfl⟩ := List.append_of_mem h
  rw [List.flatMap_append, List.flatMap_cons, List.length_append, List.length_append,
    length_fragData]
  omega

/-- Short fragments are those whose bytes have room. -/
theorem short_iff : Short ms ↔ (ms.flatMap fragData).length ≤ frameDataLen := by
  refine ⟨fun h => h.sum_eq ▸ h.data, fun h => ?_⟩
  have hheader : ∀ m ∈ ms, 4 ≤ mbxLength m := by
    intro m hm
    by_contra hlt
    have hle := le_fragLen (m := m) (by omega)
    have hsum := fragLen_le_of_mem hm
    rw [frameDataLen] at h
    omega
  exact ⟨hheader, by rwa [sum_of_header hheader]⟩

/-! ## The loop -/

theorem front_append_drop (queue : List Message) :
    front queue ++ queue.drop (front queue).length = queue := by
  induction queue with
  | nil => rfl
  | cons m queue ih =>
    rw [front]
    split_ifs
    · rfl
    · rw [List.length_cons, List.drop_succ_cons, List.cons_append, ih]

theorem mem_of_mem_front (h : m ∈ front queue) : m ∈ queue := by
  rw [← front_append_drop queue]
  exact List.mem_append_left _ h

/-- **The later fragments** are copied behind the first one, if there is room. -/
theorem collect_eq_some (frame : EthFrame) (off : ℕ)
    (h : off + ((front queue).flatMap fragData).length ≤ frameDataLen) :
    ∃ frame', collect frame off queue =
        some (queue.any lastFragment, frame', queue.drop (front queue).length) ∧
      frame'.frameSize = frame.frameSize ∧
      frame'.frameData.take (off + ((front queue).flatMap fragData).length) =
        frame.frameData.take off ++ (front queue).flatMap fragData := by
  induction queue generalizing frame off with
  | nil => exact ⟨frame, rfl, rfl, by simp [front]⟩
  | cons m queue ih =>
    rw [front] at h ⊢
    by_cases hlast : lastFragment m = true
    · rw [if_pos hlast] at h ⊢
      rw [List.flatMap_singleton, length_fragData] at h ⊢
      obtain ⟨frame', hcopy, hsize, hdata⟩ := EthFrame.copy_eq_some frame off m h
      exact ⟨frame', by simp [collect, hcopy, hlast], hsize, hdata⟩
    · rw [if_neg hlast] at h ⊢
      rw [List.flatMap_cons, List.length_append, length_fragData] at h ⊢
      obtain ⟨frame₁, hcopy, hsize₁, hdata₁⟩ :=
        EthFrame.copy_eq_some frame off m (by omega)
      obtain ⟨frame', hcollect, hsize, hdata⟩ := ih frame₁ (off + fragLen m) (by omega)
      refine ⟨frame', ?_, hsize.trans hsize₁, ?_⟩
      · simp [collect, hcopy, hlast, hcollect]
      · rw [← Nat.add_assoc, hdata, hdata₁, List.append_assoc]

theorem collect_eq_none (frame : EthFrame)
    (h : frameDataLen < off + ((front queue).flatMap fragData).length)
    (hoff : off ≤ frameDataLen) : collect frame off queue = none := by
  induction queue generalizing frame off with
  | nil =>
    simp only [front, List.flatMap_nil, List.length_nil] at h
    omega
  | cons m queue ih =>
    by_cases hfit : frameDataLen < off + fragLen m
    · simp [collect, EthFrame.copy_eq_none hfit]
    · rw [front] at h
      obtain ⟨frame₁, hcopy, -, -⟩ :=
        EthFrame.copy_eq_some frame off m (by omega)
      by_cases hlast : lastFragment m = true
      · rw [if_pos hlast, List.flatMap_singleton, length_fragData] at h
        omega
      · rw [if_neg hlast, List.flatMap_cons, List.length_append, length_fragData] at h
        simp only [collect, hcopy, Option.bind_some, hlast, Bool.false_eq_true, if_false]
        exact ih frame₁ (by omega) (by omega)

end

/-! ## A call -/

section
variable {tap : Bool} {s s' : Receiver} {frame : EthFrame} {framesFree : List EthFrame} {m : Message}
  {ms queue : List Message}

/-- **A call with a first fragment.** What it takes is copied to the buffer, which is delivered if the
last fragment is there. -/
theorem processRecv_eq_some (tap : Bool) (hqueue : s.recvPool = m :: queue)
    (hframes : s.framesFree = frame :: framesFree) (hfirst : fragmentNumber m = 0)
    (hshort : Short (front s.recvPool)) :
    ∃ frame', frame'.frameSize = completeSize m * 32 ∧
      frame'.frameData.take ((front s.recvPool).flatMap fragData).length =
        (front s.recvPool).flatMap fragData ∧
      processRecv tap s = some (.ok,
        let s' := { s with
          recvPool := s.recvPool.drop (front s.recvPool).length, framesFree := framesFree }
        if s.recvPool.any lastFragment then
          s'.deliver tap frame' (if lastFragment m then fragLen m else completeSize m * 32)
        else { s' with framesRecv := s'.framesRecv ++ [frame'] }) := by
  have hle := short_iff.1 hshort
  rw [hqueue, front] at hle ⊢
  by_cases hlast : lastFragment m = true
  · rw [if_pos hlast] at hle ⊢
    rw [List.flatMap_singleton, length_fragData] at hle ⊢
    obtain ⟨frame', hcopy, hsize, hdata⟩ := EthFrame.copy_eq_some
      { frame with frameSize := completeSize m * 32 } 0 m (by omega)
    rw [Nat.zero_add] at hdata
    refine ⟨frame', hsize, hdata, ?_⟩
    simp [processRecv, hqueue, hframes, hfirst, hcopy, hlast]
  · rw [if_neg hlast] at hle ⊢
    rw [List.flatMap_cons, List.length_append, length_fragData] at hle ⊢
    obtain ⟨frame₁, hcopy, hsize₁, hdata₁⟩ := EthFrame.copy_eq_some
      { frame with frameSize := completeSize m * 32 } 0 m (by omega)
    obtain ⟨frame', hcollect, hsize, hdata⟩ := collect_eq_some frame₁ (fragLen m) hle
    rw [Nat.zero_add] at hdata₁
    refine ⟨frame', hsize.trans hsize₁, ?_, ?_⟩
    · rw [hdata, hdata₁, List.take_zero, List.nil_append]
    · simp [processRecv, hqueue, hframes, hfirst, hcopy, hlast, hcollect, hsize.trans hsize₁]

theorem processRecv_eq_none (tap : Bool) (hqueue : s.recvPool = m :: queue)
    (hframes : s.framesFree = frame :: framesFree) (hfirst : fragmentNumber m = 0)
    (hlong : ¬ Short (front s.recvPool)) : processRecv tap s = none := by
  rw [short_iff, Nat.not_le, hqueue, front] at hlong
  by_cases hfit : frameDataLen < fragLen m
  · have hcopy : ({ frame with frameSize := completeSize m * 32 } : EthFrame).copy 0 m = none :=
      EthFrame.copy_eq_none (by omega)
    simp [processRecv, hqueue, hframes, hfirst, hcopy]
  · obtain ⟨frame₁, hcopy, -, -⟩ := EthFrame.copy_eq_some
      { frame with frameSize := completeSize m * 32 } 0 m (by omega)
    by_cases hlast : lastFragment m = true
    · rw [if_pos hlast, List.flatMap_singleton, length_fragData] at hlong
      exact absurd hlong hfit
    · rw [if_neg hlast, List.flatMap_cons, List.length_append, length_fragData] at hlong
      have hcollect := collect_eq_none frame₁ hlong (by omega)
      simp [processRecv, hqueue, hframes, hfirst, hcopy, hlast, hcollect]

/-- A later fragment instead of the first one: the buffer that has been taken is put to the others. -/
theorem processRecv_later (hqueue : s.recvPool = m :: queue)
    (hframes : s.framesFree = frame :: framesFree) (hfirst : fragmentNumber m ≠ 0) :
    processRecv tap s = some (.ok, { s with
      recvPool := queue, framesFree := framesFree, framesRecv := s.framesRecv ++ [frame] }) := by
  simp [processRecv, hqueue, hframes, hfirst]

theorem processRecv_nil (hqueue : s.recvPool = []) :
    processRecv tap s = some (.unavailable, s) := by
  rw [processRecv, hqueue]

theorem processRecv_outOfMemory (hqueue : s.recvPool = m :: queue) (hframes : s.framesFree = []) :
    processRecv tap s = some (.outOfMemory, { s with recvPool := queue }) := by
  rw [processRecv, hqueue, hframes]

/-- **Bounds of a call.** -/
theorem staysInside_iff (a : Action) : StaysInside tap s a ↔ Bounded s a := by
  cases a with
  | receive m => exact Iff.rfl
  | process =>
    refine imp_congr_right fun _ => ?_
    by_cases hnil : s.recvPool = []
    · refine iff_of_true ⟨_, processRecv_nil hnil⟩ fun _ => Or.inr ?_
      rw [hnil]
      exact ⟨nofun, Nat.zero_le _⟩
    obtain ⟨m, queue, hqueue⟩ := List.exists_cons_of_ne_nil hnil
    by_cases hfree : s.framesFree = []
    · exact iff_of_true ⟨_, processRecv_outOfMemory hqueue hfree⟩ fun hne => absurd hfree hne
    obtain ⟨frame, framesFree, hframes⟩ := List.exists_cons_of_ne_nil hfree
    by_cases hfirst : fragmentNumber m = 0
    · by_cases hshort : Short (front s.recvPool)
      · obtain ⟨_, -, -, heq⟩ := processRecv_eq_some tap hqueue hframes hfirst hshort
        exact iff_of_true ⟨_, heq⟩ fun _ => Or.inr hshort
      · have hnone := processRecv_eq_none tap hqueue hframes hfirst hshort
        refine iff_of_false (fun ⟨r, hr⟩ => by simp [hnone] at hr) fun h => ?_
        obtain ⟨m', queue', hqueue', hfirst'⟩ | h := h hfree
        · rw [hqueue] at hqueue'
          cases hqueue'
          exact hfirst' hfirst
        · exact hshort h
    · exact iff_of_true ⟨_, processRecv_later hqueue hframes hfirst⟩
        fun _ => Or.inl ⟨m, queue, hqueue, hfirst⟩

theorem IsFrame.first (h : IsFrame (m :: ms)) : fragmentNumber m = 0 := h.number 0 (by simp)

/-- A frame has a last fragment. -/
theorem IsFrame.any_last (h : IsFrame (front queue)) : queue.any lastFragment = true := by
  have hpos := List.length_pos_iff.2 h.ne_nil
  have hi : (front queue).length - 1 < (front queue).length := by omega
  exact List.any_eq_true.2 ⟨_, mem_of_mem_front (List.getElem_mem hi), (h.last _ hi).2 (by omega)⟩

/-- What a call has taken out of the queue. -/
theorem Delivers.eq_front (h : Delivers s s' ms)
    (hdrop : s'.recvPool = s.recvPool.drop (front s.recvPool).length) : ms = front s.recvPool := by
  have htaken := h.taken
  rw [hdrop] at htaken
  conv_lhs at htaken => rw [← front_append_drop s.recvPool]
  exact (List.append_cancel_right htaken).symm

/-- The size that is delivered is that of the frame. -/
theorem announced_iff (tap : Bool) (hshort : Short (front (m :: queue)))
    (hany : (m :: queue).any lastFragment = true) :
    Announced tap (front (m :: queue)) ↔
      (if tap then if lastFragment m then fragLen m else completeSize m * 32
        else completeSize m * 32) = ((front (m :: queue)).flatMap fragData).length := by
  rw [Announced, hshort.sum_eq, front]
  by_cases hlast : lastFragment m = true
  · cases tap <;> simp [hlast]
  · have hne : front queue ≠ [] := by
      intro hnil
      cases queue with
      | nil => simp [hlast] at hany
      | cons m' queue =>
        rw [front] at hnil
        split_ifs at hnil
    have hlen : 0 < (front queue).length := List.length_pos_iff.2 hne
    cases tap <;> simp [hlast, hne]

/-- A buffer that begins with what the fragments have brought. -/
theorem exact_iff (hframe : IsFrame ms)
    (hdata : frame.frameData.take (ms.flatMap fragData).length = ms.flatMap fragData) :
    Exact ms frame ↔ frame.frameSize = (ms.flatMap fragData).length :=
  ⟨Exact.size, fun hsize => ⟨hframe, hsize, by rw [hsize, hdata]⟩⟩

/-- Where a complete frame goes. -/
theorem delivers_deliver (tap : Bool) (frame' : EthFrame) (size : ℕ) {rest : List Message}
    (hframes : s.framesFree = frame :: framesFree) (hqueue : s.recvPool = ms ++ rest) :
    Delivers s (Receiver.deliver { s with recvPool := rest, framesFree := framesFree } tap frame' size)
      ms ↔ Exact ms (if tap then { frame' with frameSize := size } else frame') := by
  cases tap with
  | true =>
    constructor
    · rintro ⟨-, ⟨frames, htap, hexact⟩, -⟩
      obtain rfl : [{ frame' with frameSize := size }] = frames := List.append_cancel_left htap
      exact hexact _ (by simp)
    · intro h
      exact ⟨hqueue, ⟨[{ frame' with frameSize := size }], rfl, by simpa using h⟩, [],
        by simp [Receiver.deliver], nofun, by simp [Receiver.deliver, hframes]⟩
  | false =>
    constructor
    · rintro ⟨-, -, frames, hrecv, hexact, -⟩
      obtain rfl : [frame'] = frames := List.append_cancel_left hrecv
      exact hexact _ (by simp)
    · intro h
      exact ⟨hqueue, ⟨[], by simp [Receiver.deliver], nofun⟩, [frame'], rfl, by simpa using h,
        by simp [Receiver.deliver, hframes]⟩

/-- What is not a frame must not be put to the others. -/
theorem not_delivers_of_recv {frame' : EthFrame} {rest : List Message} (hnot : ¬ IsFrame ms) :
    ¬ Delivers s { s with
      recvPool := rest, framesFree := framesFree, framesRecv := s.framesRecv ++ [frame'] } ms := by
  rintro ⟨-, -, frames, hrecv, hexact, -⟩
  obtain rfl : [frame'] = frames := List.append_cancel_left hrecv
  exact hnot (hexact frame' (by simp)).isFrame

/-- **Delivery of a call.** -/
theorem deliversExact_iff (a : Action) : DeliversExact tap s a ↔ Complete tap s a := by
  cases a with
  | receive m => exact Iff.rfl
  | process =>
    refine imp_congr_right fun _ => ?_
    by_cases hnil : s.recvPool = []
    · refine iff_of_true ⟨.unavailable, s, [], processRecv_nil hnil, ?_⟩
        fun _ hne => absurd hnil hne
      exact ⟨rfl, ⟨[], by simp⟩, [], by simp⟩
    obtain ⟨m, queue, hqueue⟩ := List.exists_cons_of_ne_nil hnil
    by_cases hfree : s.framesFree = []
    · refine iff_of_true ⟨.outOfMemory, { s with recvPool := queue }, [m],
        processRecv_outOfMemory hqueue hfree, ?_⟩ fun hne => absurd hfree hne
      exact ⟨hqueue, ⟨[], by simp⟩, [], by simp⟩
    obtain ⟨frame, framesFree, hframes⟩ := List.exists_cons_of_ne_nil hfree
    have htaken := front_append_drop s.recvPool
    rw [imp_iff_right hfree, imp_iff_right hnil]
    by_cases hfirst : fragmentNumber m = 0
    · by_cases hshort : Short (front s.recvPool)
      · obtain ⟨frame', hsize, hdata, heq⟩ :=
          processRecv_eq_some tap hqueue hframes hfirst hshort
        by_cases hany : s.recvPool.any lastFragment = true
        · have hdelivers := delivers_deliver tap frame'
            (if lastFragment m then fragLen m else completeSize m * 32) hframes htaken.symm
          have hann := announced_iff tap (hqueue ▸ hshort) (hqueue ▸ hany)
          rw [← hqueue] at hann
          have hexact : IsFrame (front s.recvPool) → (Exact (front s.recvPool) (if tap then
              { frame' with frameSize := if lastFragment m then fragLen m else completeSize m * 32 }
              else frame') ↔ Announced tap (front s.recvPool)) := by
            intro hframe
            rw [hann]
            cases tap with
            | true => exact exact_iff hframe hdata
            | false => exact hsize ▸ exact_iff hframe hdata
          constructor
          · rintro ⟨ret, s', ms, hcall, hdel⟩
            rw [heq, if_pos hany, Option.some_inj] at hcall
            cases hcall
            obtain rfl := hdel.eq_front (by cases tap <;> rfl)
            have hframe := (hdelivers.1 hdel).isFrame
            exact ⟨hframe, hshort, (hexact hframe).1 (hdelivers.1 hdel)⟩
          · rintro ⟨hframe, -, hannounced⟩
            exact ⟨.ok, _, _, by rw [heq, if_pos hany],
              hdelivers.2 ((hexact hframe).2 hannounced)⟩
        · refine iff_of_false ?_ fun h => hany h.1.any_last
          rintro ⟨ret, s', ms, hcall, hdelivers⟩
          rw [heq, if_neg hany, Option.some_inj] at hcall
          cases hcall
          obtain rfl := hdelivers.eq_front rfl
          exact not_delivers_of_recv (fun h => hany h.any_last) hdelivers
      · have hnone := processRecv_eq_none tap hqueue hframes hfirst hshort
        refine iff_of_false ?_ fun h => hshort h.2.1
        rintro ⟨ret, s', ms, hcall, -⟩
        simp [hnone] at hcall
    · -- a later fragment is not the first one of a frame
      refine iff_of_false ?_ fun h => hfirst ?_
      · rintro ⟨ret, s', ms, hcall, hdelivers⟩
        rw [processRecv_later hqueue hframes hfirst, Option.some_inj] at hcall
        cases hcall
        have htaken := hdelivers.taken
        rw [hqueue] at htaken
        obtain rfl : [m] = ms := 
          List.append_cancel_right (show [m] ++ queue = ms ++ queue from htaken)
        exact not_delivers_of_recv (fun h => hfirst h.first) hdelivers
      · have hfront : ∃ ms, front s.recvPool = m :: ms := by
          rw [hqueue, front]
          split_ifs
          exacts [⟨[], rfl⟩, ⟨_, rfl⟩]
        obtain ⟨ms, hms⟩ := hfront
        have hframe := h.1
        rw [hms] at hframe
        exact hframe.first

end

/-! ## Runs -/

/-- **Bounds.** For every sequence of messages that are received, every call of `ec_eoe_process_recv`
copies inside of its buffers if and only if each finds short fragments. -/
theorem received_bounded (tap : Bool) (frames : List EthFrame) (actions : List Action) :
    Runs.RunOk (step tap) (StaysInside tap) (.init frames) actions ↔
      Runs.RunOk (step tap) Bounded (.init frames) actions :=
  Runs.runOk_congr (I := fun _ => True) (fun _ _ _ _ _ _ => trivial)
    (fun _ a _ => staysInside_iff a) trivial

/-- A message of these bytes. -/
def message (bytes : List UInt8) : Message := fun i => bytes.getD i 0

def freeFrame : EthFrame := ⟨0, List.replicate frameDataLen 0, List.length_replicate⟩

/-- A first and last fragment whose length does not even cover its header. -/
theorem received_without_header : ¬ ∀ (tap : Bool) (frames : List EthFrame) (actions : List Action),
    Runs.RunOk (step tap) (StaysInside tap) (.init frames) actions := by
  intro h
  let m := message [3, 0, 0, 0, 0, 2, 0, 1, 0, 0]
  have hok := (h false [freeFrame] ([.receive m] ++ [.process])).of_append rfl
  have hlong : ¬ Short (front [m]) := fun hshort => by
    exact absurd (hshort.header m (List.mem_singleton_self m)) (by decide)
  obtain ⟨r, hr⟩ := hok rfl
  rw [processRecv_eq_none (m := m) false rfl rfl rfl hlong] at hr
  cases hr

/-- **Frames.** For every sequence of messages that are received, every call of `ec_eoe_process_recv`
delivers a frame as it has been sent, or nothing, if and only if each finds a complete frame. -/
theorem received_exact (tap : Bool) (frames : List EthFrame) (actions : List Action) :
    Runs.RunOk (step tap) (DeliversExact tap) (.init frames) actions ↔
      Runs.RunOk (step tap) (Complete tap) (.init frames) actions :=
  Runs.runOk_congr (I := fun _ => True) (fun _ _ _ _ _ _ => trivial)
    (fun _ a _ => deliversExact_iff a) trivial

/-- What has been delivered so far are frames as they have been sent, and the other buffers are
free. -/
structure Sound (cnt : ℕ) (s : Receiver) : Prop where
  tap : ∀ f ∈ s.tap, ∃ ms, Exact ms f
  recv : ∀ f ∈ s.framesRecv, ∃ ms, Exact ms f
  free : s.framesFree.length + s.framesRecv.length = cnt

theorem Sound.step {cnt : ℕ} {tap : Bool} {s s' : Receiver} {a : Action} (h : Sound cnt s)
    (hok : Complete tap s a) (hstep : step tap s a = some s') : Sound cnt s' := by
  cases a with
  | receive m =>
    simp only [Eoe.step, Option.ite_none_left_eq_some, Option.some.injEq] at hstep
    obtain ⟨-, rfl⟩ := hstep
    unfold enqueue
    split_ifs
    · exact h
    · exact ⟨h.tap, h.recv, h.free⟩
  | process =>
    simp only [Eoe.step, Option.ite_none_right_eq_some, Option.map_eq_some_iff] at hstep
    obtain ⟨hprocessing, ⟨ret, t⟩, hcall, rfl⟩ := hstep
    obtain ⟨ret', t', ms, hcall', hdelivers⟩ := (deliversExact_iff .process).2 hok hprocessing
    rw [hcall] at hcall'
    cases hcall'
    obtain ⟨-, ⟨tapped, htap, hexact⟩, frames, hrecv, hexact', hfree⟩ := hdelivers
    refine ⟨?_, ?_, ?_⟩
    · rw [htap, List.forall_mem_append]
      exact ⟨h.tap, fun f hf => ⟨ms, hexact f hf⟩⟩
    · rw [hrecv, List.forall_mem_append]
      exact ⟨h.recv, fun f hf => ⟨ms, hexact' f hf⟩⟩
    · have hcnt := h.free
      dsimp only at hrecv hfree ⊢
      rw [hrecv, List.length_append]
      omega

/-- **All that has been delivered.** -/
theorem sound_of_complete {tap : Bool} {frames : List EthFrame} {actions : List Action}
    {s : Receiver} (hok : Runs.RunOk (step tap) (Complete tap) (.init frames) actions)
    (hrun : Runs.run (step tap) (.init frames) actions = some s) : Sound frames.length s :=
  Runs.runOk_induction (fun _ _ _ h hok hstep => h.step hok hstep)
    ⟨fun _ hf => absurd hf List.not_mem_nil, fun _ hf => absurd hf List.not_mem_nil,
      by simp [Receiver.init]⟩ hok hrun

/-- A frame of 60 bytes, in one fragment, is put to the others as one of two blocks. -/
theorem received_rounded_up : ¬ ∀ (tap : Bool) (frames : List EthFrame) (actions : List Action),
    Runs.RunOk (step tap) (DeliversExact tap) (.init frames) actions := by
  intro h
  let m := message [64, 0, 0, 0, 0, 2, 0, 1, 0x80, 0]
  have hok := (h false [freeFrame] ([.receive m] ++ [.process])).of_append rfl
  have hcomplete := (deliversExact_iff _).1 hok rfl (List.cons_ne_nil freeFrame [])
    (List.cons_ne_nil m [])
  obtain hone | hsize := hcomplete.2.2
  · cases hone.1
  · exact absurd (hsize m rfl) (by decide)

end LibEthercat.Eoe
