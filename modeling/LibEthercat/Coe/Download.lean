import Mathlib.Data.Int.Init
import LibEthercat.Coe.Message

/-!
# SDO downloads

`ec_coe_sdo_write` with the messages that it sends. Up to four bytes go in one expedited message.
Anything else goes in an initiate message with the size of all data, and in segments behind it, each
of which waits for its answer. What the slave sends because of a message comes behind what is left
in `coe.recv_pool`; a wait that finds nothing there gives up.
-/

namespace LibEthercat.Coe

/-! ## Messages -/

def EC_MBX_COE : ℕ := 3

def EC_COE_SDO_DOWNLOAD_SEQ_REQ : ℕ := 0

def EC_COE_SDO_DOWNLOAD_REQ : ℕ := 1

/-- `sizeof(ec_coe_header_t) + sizeof(ec_sdo_init_download_header_t) + sizeof(osal_uint32_t)` -/
def EC_SDO_NORMAL_HDR_LEN : ℕ := 10

/-- `sizeof(ec_coe_header_t) + sizeof(ec_sdo_seg_download_req_header_t)` -/
def EC_SDO_SEG_HDR_LEN : ℕ := 3

def sizeIndicator (m : Message) : ℕ := (m 8).toNat % 2

def complete (m : Message) : ℕ := (m 8).toNat / 2 ^ 4 % 2

/-- `more_follows` of a segment. -/
def moreFollows (m : Message) : ℕ := (m 8).toNat % 2

def segDataSize (m : Message) : ℕ := (m 8).toNat / 2 % 2 ^ 3

def toggle (m : Message) : ℕ := (m 8).toNat / 2 ^ 4 % 2

/-- Bytes in a send buffer, which has been cleared. -/
def sendBuffer (bytes : List UInt8) : Message := fun i => bytes.getD i 0

/-- The lowest bytes of a number, the lowest one first. -/
def littleEndian (n v : ℕ) : List UInt8 := (List.range n).map fun i => UInt8.ofNat (v / 256 ^ i)

theorem u16_bytes {m : Message} {i v : ℕ} (hv : v < 2 ^ 16) (hlow : m i = UInt8.ofNat v)
    (hhigh : m (i + 1) = UInt8.ofNat (v / 256)) : u16 m i = v := by
  rw [u16, hlow, hhigh, UInt8.toNat_ofNat', UInt8.toNat_ofNat']
  omega

/-- The mailbox header and the CoE header of an SDO request. -/
def requestHeader (length : ℕ) (counter : UInt8) : List UInt8 :=
  littleEndian 2 length ++ [0, 0, 0, UInt8.ofNat (EC_MBX_COE + 2 ^ 4 * counter.toNat)] ++
    [0, UInt8.ofNat (2 ^ 4 * EC_COE_SDOREQ)]

structure Object where
  index : UInt16
  subIndex : UInt8
  /-- `complete`: only its lowest bit is sent. -/
  complete : ℤ

/-- The SDO header of a download; `flags` are the bits below `complete`. -/
def downloadHeader (o : Object) (flags : ℕ) : List UInt8 :=
  UInt8.ofNat (flags + 2 ^ 4 * (o.complete % 2).toNat + 2 ^ 5 * EC_COE_SDO_DOWNLOAD_REQ) ::
    littleEndian 2 o.index.toNat ++ [o.subIndex]

def expeditedMessage (o : Object) (counter : UInt8) (buf : List UInt8) : Message :=
  sendBuffer (requestHeader EC_SDO_NORMAL_HDR_LEN counter ++
    downloadHeader o (1 + 2 + 2 ^ 2 * ((4 - buf.length) % 2 ^ 2)) ++ buf)

/-- The initiate message, with the first bytes of the data. -/
def initiateMessage (o : Object) (counter : UInt8) (len : ℕ) (first : List UInt8) : Message :=
  sendBuffer (requestHeader (EC_SDO_NORMAL_HDR_LEN + first.length) counter ++
    downloadHeader o 1 ++ littleEndian 4 len ++ first)

/-- The next segment of at most `segLen` bytes. `more_follows` is not written, and `command` is 0
anyway. -/
def segmentMessage (counter : UInt8) (segLen : ℕ) (toggle : Bool) (rest : List UInt8) : Message :=
  let length :=
    if rest.length < segLen then
      if rest.length < 7 then EC_SDO_NORMAL_HDR_LEN else EC_SDO_SEG_HDR_LEN + rest.length
    else EC_SDO_SEG_HDR_LEN + segLen
  let segDataSize := if rest.length < segLen ∧ rest.length < 7 then 7 - rest.length else 0
  sendBuffer (requestHeader length counter ++
    [UInt8.ofNat (2 * segDataSize + 2 ^ 4 * toggle.toNat +
      2 ^ 5 * EC_COE_SDO_DOWNLOAD_SEQ_REQ)] ++ rest.take segLen)

/-! ## The call -/

/-- What a call finds. -/
structure MbxEnv where
  /-- `slv->sm[0].len` -/
  smLen : UInt16
  ready : Ready
  /-- There is a send buffer for the segment with this number. -/
  buffer : ℕ → Bool
  /-- What `ec_mbx_next_counter` returns for each message. -/
  counter : ℕ → UInt8
  /-- What is in `coe.recv_pool` before. -/
  pending : List Message
  /-- What the slave sends because of each message. -/
  slave : ℕ → List Message

/-- What a wait for an answer ends with: `ret`, `*abort_code` and what is left in `coe.recv_pool`. -/
structure Wait where
  ret : Ret
  abortCode : ℕ
  queue : List Message

/-- The loop over the messages until there is an answer, or none. -/
def awaitAnswer (ret : Ret) (abortCode : ℕ) : List Message → Wait
  | [] => ⟨ret, abortCode, []⟩
  | m :: queue =>
    match answer m with
    | .abort => ⟨.mailboxAbort, Coe.abortCode m, queue⟩
    | .response => ⟨.ok, abortCode, queue⟩
    | .unexpected => awaitAnswer .mailboxRead abortCode queue

/-- What the caller sees, and the messages that have been sent. -/
structure Download where
  ret : Ret
  abortCode : ℕ
  sent : List Message

/-- `slv->sm[0].len - 0x10u` -/
def maxLen (smLen : UInt16) : ℕ := (smLen.toUInt32 - 0x10).toNat

/-- `seg_len` in the loop, 7 more than in the initiate message. It is only made smaller for the last
segment. -/
def segLen (smLen : UInt16) : ℕ :=
  maxLen smLen + (EC_SDO_NORMAL_HDR_LEN - EC_SDO_SEG_HDR_LEN)

theorem segLen_ge (smLen : UInt16) : 7 ≤ segLen smLen := by
  unfold segLen EC_SDO_NORMAL_HDR_LEN EC_SDO_SEG_HDR_LEN
  omega

/-- `while (rest_len != 0u)`; the next segment has the number `k`, and `w` is how the last wait has
ended. -/
def segmentLoop (env : MbxEnv) (k : ℕ) (toggle : Bool) (w : Wait) (rest : List UInt8) : Download :=
  if rest = [] then ⟨w.ret, w.abortCode, []⟩
  else if env.buffer k then
    let m := segmentMessage (env.counter k) (segLen env.smLen) toggle rest
    let w := awaitAnswer .mailboxTimeout w.abortCode (w.queue ++ env.slave k)
    let d := segmentLoop env (k + 1) (!toggle) w (rest.drop (segLen env.smLen))
    { d with sent := m :: d.sent }
  else ⟨.mailboxOutOfSendBuffers, w.abortCode, []⟩
termination_by rest.length
decreasing_by
  have := segLen_ge env.smLen
  have := List.length_pos_iff.2 ‹rest ≠ []›
  rw [List.length_drop]
  omega

def sdoWriteExpedited (env : MbxEnv) (o : Object) (buf : List UInt8) : Download :=
  match env.ready.error with
  | some ret => ⟨ret, 0, []⟩
  | none =>
    let w := awaitAnswer .mailboxTimeout 0 (env.pending ++ env.slave 0)
    ⟨w.ret, w.abortCode, [expeditedMessage o (env.counter 0) buf]⟩

def sdoWriteNormal (env : MbxEnv) (o : Object) (buf : List UInt8) : Download :=
  match env.ready.error with
  | some ret => ⟨ret, 0, []⟩
  | none =>
    let m := initiateMessage o (env.counter 0) buf.length (buf.take (maxLen env.smLen))
    let w := awaitAnswer .mailboxTimeout 0 (env.pending ++ env.slave 0)
    if w.ret = .ok then
      let d := segmentLoop env 1 true w (buf.drop (maxLen env.smLen))
      { d with sent := m :: d.sent }
    else ⟨w.ret, w.abortCode, [m]⟩

def sdoWrite (env : MbxEnv) (o : Object) (buf : List UInt8) : Download :=
  if buf.length ≤ 4 ∧ o.complete = 0 then sdoWriteExpedited env o buf else sdoWriteNormal env o buf

/-! ## Payloads -/

def bytesAt (m : Message) (i n : ℕ) : List UInt8 := (List.range n).map fun j => m (i + j)

/-- The payload of an initiate message. -/
def initiatePayload (m : Message) : List UInt8 := bytesAt m 16 (mbxLength m - EC_SDO_NORMAL_HDR_LEN)

/-- The effective size of a segment. -/
def segSize (m : Message) : ℕ :=
  if mbxLength m = EC_SDO_NORMAL_HDR_LEN then 7 - segDataSize m else mbxLength m - EC_SDO_SEG_HDR_LEN

def segPayload (m : Message) : List UInt8 := bytesAt m 9 (segSize m)

section
variable {length len sl : ℕ} {counter : UInt8} {t : Bool} {rest first bytes : List UInt8} {o : Object}

theorem bytesAt_sendBuffer {xs ys : List UInt8} :
    bytesAt (sendBuffer (xs ++ ys)) xs.length ys.length = ys := by
  apply List.ext_getElem (by simp [bytesAt])
  intro i hi hi'
  simp [bytesAt, sendBuffer, List.getElem?_append_right, hi']

theorem mbxLength_request : mbxLength (sendBuffer (requestHeader length counter ++ bytes)) =
    length % 2 ^ 16 := by
  have h0 : (sendBuffer (requestHeader length counter ++ bytes)) 0 = UInt8.ofNat (length / 1) := rfl
  have h1 : (sendBuffer (requestHeader length counter ++ bytes)) 1 = UInt8.ofNat (length / 256) := rfl
  unfold mbxLength u16
  rw [h0, h1, UInt8.toNat_ofNat', UInt8.toNat_ofNat']
  omega

theorem service_request : service (sendBuffer (requestHeader length counter ++ bytes)) =
    EC_COE_SDOREQ := by
  have h6 : (sendBuffer (requestHeader length counter ++ bytes)) 6 = 0 := rfl
  have h7 : (sendBuffer (requestHeader length counter ++ bytes)) 7 = 32 := rfl
  unfold service u16
  rw [h6, h7]
  rfl

theorem mbxLength_initiateMessage (h : first.length < 2 ^ 15) :
    mbxLength (initiateMessage o counter len first) = EC_SDO_NORMAL_HDR_LEN + first.length := by
  unfold initiateMessage EC_SDO_NORMAL_HDR_LEN
  rw [List.append_assoc, List.append_assoc, mbxLength_request]
  omega

/-- The data of the initiate message begin behind its 16 bytes of headers. -/
theorem initiatePayload_initiateMessage (h : first.length < 2 ^ 15) :
    initiatePayload (initiateMessage o counter len first) = first := by
  unfold initiatePayload
  rw [mbxLength_initiateMessage h, Nat.add_sub_cancel_left]
  exact bytesAt_sendBuffer

theorem completeSize_initiateMessage :
    completeSize (initiateMessage o counter len first) = len % 2 ^ 32 := by
  have h12 : initiateMessage o counter len first 12 = UInt8.ofNat (len / 256 ^ 0) := rfl
  have h13 : initiateMessage o counter len first 13 = UInt8.ofNat (len / 256 ^ 1) := rfl
  have h14 : initiateMessage o counter len first 14 = UInt8.ofNat (len / 256 ^ 2) := rfl
  have h15 : initiateMessage o counter len first 15 = UInt8.ofNat (len / 256 ^ 3) := rfl
  unfold completeSize u32 u16
  rw [h12, h13, h14, h15, UInt8.toNat_ofNat', UInt8.toNat_ofNat', UInt8.toNat_ofNat',
    UInt8.toNat_ofNat']
  omega

/-- The initiate message names the object. -/
theorem fields_initiateMessage :
    service (initiateMessage o counter len first) = EC_COE_SDOREQ ∧
      command (initiateMessage o counter len first) = EC_COE_SDO_DOWNLOAD_REQ ∧
      sizeIndicator (initiateMessage o counter len first) = 1 ∧
      (complete (initiateMessage o counter len first) : ℤ) = o.complete % 2 ∧
      index (initiateMessage o counter len first) = o.index.toNat ∧
      subIndex (initiateMessage o counter len first) = o.subIndex.toNat := by
  have hidx := o.index.toNat_lt
  have h8 : (initiateMessage o counter len first 8).toNat = 33 + 16 * (o.complete % 2).toNat := by
    have : initiateMessage o counter len first 8 =
      UInt8.ofNat (1 + 2 ^ 4 * (o.complete % 2).toNat + 2 ^ 5 * EC_COE_SDO_DOWNLOAD_REQ) := rfl
    rw [this, UInt8.toNat_ofNat', EC_COE_SDO_DOWNLOAD_REQ]
    omega
  have h9 : initiateMessage o counter len first 9 = UInt8.ofNat (o.index.toNat / 256 ^ 0) := rfl
  have h10 : initiateMessage o counter len first 10 = UInt8.ofNat (o.index.toNat / 256 ^ 1) := rfl
  have h11 : initiateMessage o counter len first 11 = o.subIndex := rfl
  refine ⟨?_, ?_, ?_, ?_, ?_, congrArg UInt8.toNat h11⟩
  · unfold initiateMessage
    rw [List.append_assoc, List.append_assoc, service_request]
  · unfold command EC_COE_SDO_DOWNLOAD_REQ
    omega
  · unfold sizeIndicator
    omega
  · unfold complete
    omega
  · unfold index u16
    rw [h9, h10, UInt8.toNat_ofNat', UInt8.toNat_ofNat']
    omega

/-! ### Segments -/

theorem segHeader_segmentMessage : (segmentMessage counter sl t rest 8).toNat =
    2 * (if rest.length < sl ∧ rest.length < 7 then 7 - rest.length else 0) + 16 * t.toNat := by
  have h8 : segmentMessage counter sl t rest 8 =
    UInt8.ofNat (2 * (if rest.length < sl ∧ rest.length < 7 then 7 - rest.length else 0) +
      2 ^ 4 * t.toNat + 2 ^ 5 * EC_COE_SDO_DOWNLOAD_SEQ_REQ) := rfl
  have := Bool.toNat_le t
  rw [h8, UInt8.toNat_ofNat', EC_COE_SDO_DOWNLOAD_SEQ_REQ]
  split_ifs <;> omega

/-- The lowest bit of the segment header is never set. -/
theorem moreFollows_segmentMessage : moreFollows (segmentMessage counter sl t rest) = 0 := by
  unfold moreFollows
  rw [segHeader_segmentMessage]
  omega

theorem toggle_segmentMessage : toggle (segmentMessage counter sl t rest) = t.toNat := by
  have := Bool.toNat_le t
  unfold toggle
  rw [segHeader_segmentMessage]
  split_ifs <;> omega

theorem command_segmentMessage :
    command (segmentMessage counter sl t rest) = EC_COE_SDO_DOWNLOAD_SEQ_REQ := by
  have := Bool.toNat_le t
  unfold command EC_COE_SDO_DOWNLOAD_SEQ_REQ
  rw [segHeader_segmentMessage]
  split_ifs <;> omega

theorem segDataSize_segmentMessage : segDataSize (segmentMessage counter sl t rest) =
    if rest.length < sl ∧ rest.length < 7 then 7 - rest.length else 0 := by
  have := Bool.toNat_le t
  unfold segDataSize
  rw [segHeader_segmentMessage]
  split_ifs <;> omega

theorem mbxLength_segmentMessage (hsl : sl < 2 ^ 15) :
    mbxLength (segmentMessage counter sl t rest) =
      if rest.length < 7 ∧ rest.length < sl then EC_SDO_NORMAL_HDR_LEN
      else EC_SDO_SEG_HDR_LEN + min rest.length sl := by
  unfold segmentMessage EC_SDO_NORMAL_HDR_LEN EC_SDO_SEG_HDR_LEN
  dsimp only
  rw [List.append_assoc, mbxLength_request]
  split_ifs <;> omega

/-- A segment fits the mailbox: a padded one is not longer than a full one. -/
theorem segmentMessage_fits (h7 : 7 ≤ sl) (hsl : sl < 2 ^ 15) :
    6 + mbxLength (segmentMessage counter sl t rest) ≤ sl + 9 := by
  rw [mbxLength_segmentMessage hsl]
  unfold EC_SDO_NORMAL_HDR_LEN EC_SDO_SEG_HDR_LEN
  split_ifs <;> omega

/-- Both encodings of the size say how much has been copied. -/
theorem segSize_segmentMessage (h7 : 7 ≤ sl) (hsl : sl < 2 ^ 15) :
    segSize (segmentMessage counter sl t rest) = min rest.length sl := by
  unfold segSize
  rw [mbxLength_segmentMessage hsl, segDataSize_segmentMessage]
  unfold EC_SDO_NORMAL_HDR_LEN EC_SDO_SEG_HDR_LEN
  split_ifs <;> omega

theorem segPayload_segmentMessage (h7 : 7 ≤ sl) (hsl : sl < 2 ^ 15) :
    segPayload (segmentMessage counter sl t rest) = rest.take sl := by
  unfold segPayload
  rw [segSize_segmentMessage h7 hsl, Nat.min_comm, ← List.length_take]
  exact bytesAt_sendBuffer

end

end LibEthercat.Coe
