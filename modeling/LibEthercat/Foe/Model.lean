import LibEthercat.Datagram
import LibEthercat.Lib.Chunks

/-!
# Files over EtherCAT

`ec_foe_read` and `ec_foe_write` (`foe.c`): the loops that take the messages of a slave's FoE
receive queue and the packets they send.

A run is given by what the functions find: the messages in the queue, in order, and whether the
`k`-th request for a send buffer gets one. When the queue is empty, the wait ends without a message.
A message lies in the buffer of a pool entry, and a copy that leaves this buffer has no result
(`none`).
-/

namespace LibEthercat.Foe

/-- The `EC_OK` and `EC_ERROR_*` that the FoE functions return. -/
inductive Ret
  | ok
  | unavailable
  | slaveNotFound
  | mailboxTimeout
  | mailboxNotSupportedFoe
  | mailboxOutOfSendBuffers
  | mailboxFoeErrorReq
  | mailboxFoeNoAck
deriving DecidableEq

def opReadRequest : UInt8 := 0x01
def opWriteRequest : UInt8 := 0x02
def opDataRequest : UInt8 := 0x03
def opAckRequest : UInt8 := 0x04
def opErrorRequest : UInt8 := 0x05

/-- `MAX_FILE_NAME_SIZE` -/
def maxFileNameSize : ℕ := 512

/-- The room behind the headers of a data packet in a pool entry. -/
def maxPacketData : ℕ := lecMaxPoolDataSize - 12

/-- A data packet, an acknowledge or an error message: the length in the mailbox header, the op
code, `packet_nr` (in an error message, the error code), and the bytes of the pool entry behind. -/
structure Packet where
  length : UInt16
  opCode : UInt8
  packetNr : UInt32
  data : ℕ → UInt8

/-- A read or write request. -/
structure RwRequest where
  length : UInt16
  opCode : UInt8
  password : UInt32
  fileName : List UInt8

def Packet.isData (m : Packet) : Bool := m.opCode == opDataRequest

def Packet.isAck (m : Packet) : Bool := m.opCode == opAckRequest

def Packet.isError (m : Packet) : Bool := m.opCode == opErrorRequest

/-- `mbx_hdr.length - 6u` -/
def Packet.dataLen (m : Packet) : ℕ := (m.length.toNat + 2 ^ 32 - 6) % 2 ^ 32

/-- The bytes of the file in a data packet. -/
def Packet.payload (m : Packet) : List UInt8 := (List.range m.dataLen).map m.data

/-- What the function finds besides the messages: the slave exists, it supports FoE, and the `k`-th
request for a send buffer gets one. -/
structure Env where
  slave : Bool
  check : Bool
  sendFree : ℕ → Bool

/-- Everything is there. -/
def Env.all : Env := ⟨true, true, fun _ => true⟩

/-- The error without a request, if something is missing. -/
def Env.error (env : Env) : Option Ret :=
  if !env.slave then some .slaveNotFound
  else if !env.check then some .mailboxNotSupportedFoe
  else if !env.sendFree 0 then some .mailboxOutOfSendBuffers
  else none

/-- The read or write request; `sm_len` is the length of the read mailbox. -/
def rwRequest (smLen : UInt16) (opCode : UInt8) (password : UInt32) (fileName : List UInt8) :
    RwRequest :=
  let foeMaxLen := min smLen.toNat maxFileNameSize
  let fileNameLen := min fileName.length ((foeMaxLen + 2 ^ 64 - 6) % 2 ^ 64)
  ⟨UInt16.ofNat (6 + fileNameLen), opCode, password, fileName.take fileNameLen⟩

/-- The text for an error message that brings none of its own. -/
def dumpFoeErrorRequest (m : Packet) : Option String :=
  if m.dataLen = 0 ∧ m.packetNr = 0x800D then some "File not found!" else none

/-! ## Reading -/

structure ReadResult where
  ret : Ret
  fileData : List UInt8
  errorMessage : Option String
  request : Option RwRequest
  acks : List Packet
  /-- The messages that are still in the queue. -/
  queue : List Packet

/-- The acknowledge of a packet; the rest of the send buffer is zero. -/
def ackRequest (packetNr : UInt32) : Packet := ⟨6, opAckRequest, packetNr, fun _ => 0⟩

/-- The packet leaves room in the mailbox, so it is the last one. -/
def Packet.isShort (smLen : UInt16) (m : Packet) : Bool := m.length.toNat + 6 < smLen.toNat

/-- `do { .. } while (ret == EC_ERROR_MAILBOX_FOE_AGAIN)`, after `acks.length` packets. -/
def foeReadLoop (smLen : UInt16) (env : Env) (request : RwRequest) :
    List UInt8 → List Packet → List Packet → Option ReadResult
  | fileData, acks, [] => some ⟨.mailboxTimeout, fileData, none, some request, acks, []⟩
  | fileData, acks, m :: queue =>
    if m.isError then
      some ⟨.mailboxFoeErrorReq, fileData, dumpFoeErrorRequest m, some request, acks, queue⟩
    else if !m.isData then foeReadLoop smLen env request fileData acks queue
    else if maxPacketData < m.dataLen then none
    else
      let fileData := fileData ++ m.payload
      if !env.sendFree (acks.length + 1) then
        some ⟨.mailboxOutOfSendBuffers, fileData, none, some request, acks, queue⟩
      else
        let acks := acks ++ [ackRequest m.packetNr]
        if m.isShort smLen then some ⟨.ok, fileData, none, some request, acks, queue⟩
        else foeReadLoop smLen env request fileData acks queue

/-- `file_data` is `NULL` or empty before. -/
def ecFoeRead (smLen : UInt16) (env : Env) (password : UInt32) (fileName : List UInt8)
    (queue : List Packet) : Option ReadResult :=
  match env.error with
  | some ret => some ⟨ret, [], none, none, [], queue⟩
  | none =>
    foeReadLoop smLen env (rwRequest smLen opReadRequest password fileName) [] [] queue

/-! ## Writing -/

structure WriteResult where
  ret : Ret
  errorMessage : Option String
  request : Option RwRequest
  /-- The data packets, in the order they were sent. -/
  sent : List Packet
  /-- The messages that are still in the queue. -/
  queue : List Packet

/-- A data packet in a send buffer, which was zero before. -/
def dataRequest (packetNr : ℕ) (bytes : List UInt8) : Packet :=
  ⟨UInt16.ofNat (6 + bytes.length), opDataRequest, UInt32.ofNat packetNr, fun i => bytes.getD i 0⟩

/-- `slv->sm[1].len - 6u - 6u` -/
def writeDataLen (smLen : UInt16) : ℕ := (smLen.toNat + 2 ^ 32 - 12) % 2 ^ 32

/-- What a message other than an acknowledge makes of the transfer. -/
def noAck (m : Packet) : Ret × Option String :=
  if m.isError then (.mailboxFoeErrorReq, dumpFoeErrorRequest m) else (.mailboxFoeNoAck, none)

/-- The loop over the packets, at `file_offset`, after `sent.length` packets. -/
def foeWriteLoop (dataLen : ℕ) (env : Env) (request : RwRequest) (file : List UInt8) :
    ℕ → List Packet → List Packet → Option WriteResult
  | fileOffset, sent, queue =>
    if !env.sendFree (sent.length + 1) then
      some ⟨.unavailable, none, some request, sent, queue⟩
    else
      let restLen := file.length - fileOffset
      let bytesRead := min restLen dataLen
      if maxPacketData < bytesRead then none
      else
        let lastPkt := bytesRead < dataLen
        let bytes := (file.drop fileOffset).take bytesRead
        let sent := sent ++ [dataRequest (sent.length + 1) bytes]
        match queue with
        | [] => some ⟨.mailboxFoeNoAck, none, some request, sent, []⟩
        | m :: queue =>
          if !m.isAck then some ⟨(noAck m).1, (noAck m).2, some request, sent, queue⟩
          else if ¬lastPkt ∧ 0 < file.length - (fileOffset + bytesRead) then
            foeWriteLoop dataLen env request file (fileOffset + bytesRead) sent queue
          else some ⟨.ok, none, some request, sent, queue⟩

def ecFoeWrite (smLen : UInt16) (env : Env) (password : UInt32) (fileName : List UInt8)
    (file : List UInt8) (queue : List Packet) : Option WriteResult :=
  match env.error with
  | some ret => some ⟨ret, none, none, [], queue⟩
  | none =>
    let request := rwRequest smLen opWriteRequest password fileName
    match queue with
    | [] => some ⟨.mailboxTimeout, none, some request, [], []⟩
    | m :: queue =>
      if !m.isAck then some ⟨(noAck m).1, (noAck m).2, some request, [], queue⟩
      else foeWriteLoop (writeDataLen smLen) env request file 0 [] queue

end LibEthercat.Foe
