import LibEthercat.Coe.Message
import LibEthercat.CoeMaster.Model
import LibEthercat.Datagram
import LibEthercat.Lib.BitField

/-!
# The mailbox gateway

`mbx_gateway.c`: a request comes with the datagram of a network client, and its answer is written
into the same buffer. The EtherCAT header is at 0, the mailbox header at 2, the CoE header at 8, the
SDO header at 10, and what is behind it at 14. A request to station address 0 is for the object
dictionary of the master; any other one goes to the first slave with that address, and its answer is
the next message in `mbx_gw_recv_pool`.

Beside the buffer, a call gives everything it touches and what its answer is made of.
-/

namespace LibEthercat.Gateway

open LibEthercat.Coe CoeMaster

def EC_MBX_COE : ℕ := 3

def EC_COE_SDO_UPLOAD_REQ : ℕ := 2

/-! ## Fields -/

/-- Assign to a field of `width` bits from bit `lo` of a byte on. -/
def setBits (buf : Mem) (i lo width v : ℕ) : Mem :=
  Function.update buf i (UInt8.ofNat ((buf i).toNat % 2 ^ lo + 2 ^ lo * (v % 2 ^ width) +
    (buf i).toNat / 2 ^ (lo + width) * 2 ^ (lo + width)))

/-- A field of the byte behind the assignment. -/
theorem get_setBits (buf : Mem) {i lo width lo' width' : ℕ} (v : ℕ) (h : lo' + width' ≤ 8) :
    BitField.get (setBits buf i lo width v i).toNat lo' width' =
      BitField.get (BitField.set (buf i).toNat lo width v) lo' width' := by
  rw [setBits, Function.update_self, UInt8.toNat_ofNat', BitField.get_mod _ h]
  rfl

def setU16 (buf : Mem) (i v : ℕ) : Mem :=
  Function.update (Function.update buf i (UInt8.ofNat v)) (i + 1) (UInt8.ofNat (v / 2 ^ 8))

def setU32 (buf : Mem) (i v : ℕ) : Mem := setU16 (setU16 buf i v) (i + 2) (v / 2 ^ 16)

theorem setU16_of_ne (buf : Mem) {i j : ℕ} (v : ℕ) (h : j ≠ i) (h' : j ≠ i + 1) :
    setU16 buf i v j = buf j := by
  rw [setU16, Function.update_of_ne h', Function.update_of_ne h]

theorem u16_setU16 (buf : Mem) (i v : ℕ) : u16 (setU16 buf i v) i = v % 2 ^ 16 := by
  rw [u16, setU16, Function.update_self, Function.update_of_ne (by omega), Function.update_self,
    UInt8.toNat_ofNat', UInt8.toNat_ofNat']
  omega

theorem u32_setU32 (buf : Mem) (i v : ℕ) : u32 (setU32 buf i v) i = v % 2 ^ 32 := by
  have hlow : u16 (setU32 buf i v) i = v % 2 ^ 16 := by
    have hkeep : ∀ j < i + 2, setU32 buf i v j = setU16 buf i v j := fun j hj =>
      setU16_of_ne _ _ (by omega) (by omega)
    rw [← u16_setU16 buf i v, u16, u16, hkeep i (by omega), hkeep (i + 1) (by omega)]
  have hhigh : u16 (setU32 buf i v) (i + 2) = v / 2 ^ 16 % 2 ^ 16 := u16_setU16 _ _ _
  rw [u32, hlow, hhigh]
  omega

/-- `echdr->length`, 11 bits. -/
def headerLength (buf : Mem) : ℕ := u16 buf 0 % 2 ^ 11

def setHeaderLength (buf : Mem) (v : ℕ) : Mem :=
  setBits (Function.update buf 0 (UInt8.ofNat v)) 1 0 3 (v / 2 ^ 8)

/-- The message behind the EtherCAT header. -/
def mbxMessage (buf : Mem) : Message := fun i => buf (i + 2)

/-- `mbx_hdr.address` -/
def address (m : Message) : ℕ := u16 m 2

/-- Of a message that is for the gateway. -/
def isGateway (m : Message) : Bool := 0x8000 ≤ address m

def mbxType (m : Message) : ℕ := (m 5).toNat % 2 ^ 4

/-- `sdo_hdr.complete` -/
def complete (m : Message) : Bool := (m 8).toNat / 2 ^ 4 % 2 = 1

/-! ## What a call does -/

/-- Everything that a call touches. -/
inductive Access
  | request (pos len : ℕ)
  | answer (pos len : ℕ)
  /-- The first bytes of a mailbox buffer, which are written. -/
  | mailbox (len : ℕ)
  /-- The first bytes of `tmpbuf`, which are read. -/
  | tmpbuf (len : ℕ)
deriving DecidableEq

/-- What an answer is made of. -/
inductive Answer
  /-- There is none: the buffer goes back with the length it came with. -/
  | none
  /-- An SDO response of the master with so many bytes of data. -/
  | sdo (len : ℕ)
  | mailbox (reply : Message)

/-- The bytes behind the EtherCAT header. Data of an SDO response stands in its last four bytes or,
if it is longer, behind them. -/
def Answer.length : Answer → Option ℕ
  | .none => Option.none
  | .sdo n => some (6 + 2 + 4 + 4 + if n ≤ 4 then 0 else n)
  | .mailbox reply => some (6 + mbxLength reply)

/-- `sent` is the slave that gets a message, and its mailbox buffer. -/
structure Result where
  buf : Mem
  touched : List Access
  sent : Option (ℕ × Message)
  answer : Answer

/-- What a call finds: the bytes on the stack where `tmpbuf` is, whether there is a send buffer, the
counter of the message, and the message that the wait ends with. -/
structure Surroundings where
  stack : Mem
  sendFree : Bool
  counter : ℕ
  reply : Option Message

/-! ## Requests to the master -/

/-- `tmpbuf` behind a read of the dictionary. -/
def tmpbuf (stack : Mem) (r : Reply) : Mem := fun i => r.written.getD i (stack i)

/-- The answer to an SDO request, with `n` bytes of `tmp`. -/
def sdoAnswer (buf tmp : Mem) (n : ℕ) : Result :=
  let buf := setBits (setBits buf 9 4 4 EC_COE_SDORES) 10 5 3 EC_COE_SDO_UPLOAD_REQ
  if n ≤ 4 then
    let buf := setBits (setBits buf 10 1 1 1) 10 2 2 (4 - n)
    ⟨buf.copy 14 tmp n, [.answer 8 2, .answer 10 1, .tmpbuf n, .answer 14 n], none,
      .sdo n⟩
  else
    let buf := setBits (setBits (setBits buf 10 0 1 1) 10 1 1 0) 10 2 2 0
    let buf := setU32 buf 14 n
    let buf := setU16 buf 2 (u16 buf 2 + n)
    let buf := setHeaderLength buf (headerLength buf + n)
    ⟨buf.copy 18 tmp n, [.answer 8 2, .answer 10 1, .answer 14 4, .request 2 2, .answer 2 2,
      .request 0 2, .answer 0 2, .tmpbuf n, .answer 18 n], none, .sdo n⟩

/-- What the dictionary gives for the object that a request names, out of 256 bytes of room. -/
def masterRead (env : Env) (pec : Master) (m : Message) : Reply :=
  ecCoeMasterSdoRead env pec (UInt16.ofNat (index m)) (UInt8.ofNat (subIndex m)) (complete m) 256

/-- A request to address 0. Other types and services are not answered. -/
def handleMaster (env : Env) (pec : Master) (stack buf : Mem) : Result :=
  let m := mbxMessage buf
  if mbxType m = EC_MBX_COE then
    if service m = EC_COE_SDOREQ then
      let r := masterRead env pec m
      let res := sdoAnswer buf (tmpbuf stack r) r.len
      { res with touched := [.request 4 2, .request 7 1, .request 8 2, .request 11 2, .request 13 1,
          .request 10 1] ++ res.touched }
    else ⟨buf, [.request 4 2, .request 7 1, .request 8 2], none, .none⟩
  else ⟨buf, [.request 4 2, .request 7 1], none, .none⟩

/-! ## Requests to slaves -/

/-- The loop over the slaves. -/
def findSlave (pec : Master) (a : ℕ) : Option ℕ :=
  (List.range pec.slaveCnt).find? fun slave => (pec.slaves slave).fixedAddress.toNat = a

/-- A request as it goes to a slave: marked for the gateway, and with a counter. -/
def markRequest (buf : Mem) (counter : ℕ) : Mem := setBits (setBits buf 5 7 1 1) 7 4 4 counter

/-- The mailbox buffer of a request, which `ec_mbx_get_free_send_buffer` has cleared. -/
def mailboxBuffer (buf : Mem) : Message :=
  Mem.copy (fun _ => 0) 0 (mbxMessage buf) (headerLength buf)

/-- Up to the wait: the slave, and the buffer that is copied for it. -/
def sendRequest (pec : Master) (sendFree : Bool) (counter : ℕ) (buf : Mem) : Option (ℕ × Mem) :=
  match findSlave pec (address (mbxMessage buf)) with
  | none => none
  | some slave => if sendFree then some (slave, markRequest buf counter) else none

/-- Behind the wait: the answer from a message of the pool. -/
def takeReply (buf : Mem) (reply : Message) : Mem :=
  let buf := setBits (buf.copy 2 reply (mbxLength reply + 6)) 5 7 1 0
  setHeaderLength buf (u16 buf 2 + 6)

/-- A request to an address that is not 0. -/
def handleSlave (pec : Master) (x : Surroundings) (buf : Mem) : Result :=
  match sendRequest pec x.sendFree x.counter buf with
  | none => ⟨buf, [.request 4 2], none, .none⟩
  | some (slave, buf) =>
    let l := headerLength buf
    let sent := some (slave, mailboxBuffer buf)
    let touched : List Access := [.request 4 2, .answer 4 2, .request 7 1, .answer 7 1, .request 0 2,
      .request 2 l, .mailbox l]
    match x.reply with
    | none => ⟨buf, touched, sent, .none⟩
    | some reply =>
      ⟨takeReply buf reply, touched ++ [.answer 2 (mbxLength reply + 6), .answer 4 2, .answer 0 2],
        sent, .mailbox reply⟩

/-- `ec_mbx_gateway_handle`, which always returns `EC_OK` and does not look at `len`. -/
def ecMbxGatewayHandle (env : Env) (pec : Master) (x : Surroundings) (buf : Mem) : Result :=
  if address (mbxMessage buf) = 0 then handleMaster env pec x.stack buf
  else handleSlave pec x buf

/-- A master without groups, and with slaves at these addresses. -/
def masterOf (addresses : List UInt16) : Master where
  pdGroupCnt := 0
  pdGroups _ := ⟨0, 0, 0, 0, 0, 0, 0, 0, 0, 0, 0, 0, 0⟩
  slaveCnt := addresses.length
  slaves i := ⟨addresses.getD i 0, 0, 0, fun _ => 0, 0, 0, ⟨0, 0, 0, fun _ => 0, 0, 0, 0, 0⟩⟩
  detectModules _ := 0

end LibEthercat.Gateway
