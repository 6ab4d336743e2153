import LibEthercat.Lib.Handoff

/-!
# What the mailbox functions do with their buffers

The functions of mbx.c, coe.c, soe.c, foe.c, eoe.c and mbx_gateway.c, as far as they take buffers from
a pool or a queue, use them and put them there. What a branch depends on beyond that, such as the
content of a message, a length, a lock or the time, is a condition that may hold or not (`.data`).

Between two slaves, or between two clients of a slave, only the queues are shared. A function that is
called by others stands where it is called.
-/

namespace LibEthercat.Mbx.Buffers

open Handoff (Stmt block whileSome)

/-- The pools of mailbox buffers: three for all slaves, and the queues of a slave. -/
inductive Queue
  /-- `mbx_message_pool_recv_free` -/
  | recvFree
  /-- `mbx_message_pool_send_free` -/
  | sendFree
  /-- `mbx_gw_recv_pool` -/
  | gateway
  /-- `message_pool_send_queued` -/
  | sendQueued
  | coe
  | soe
  | foe
  | eoe
  /-- `eoe.response_pool` -/
  | response
deriving DecidableEq

inductive Var
  /-- `p_entry`, or `p_entry_send`. -/
  | entry
  /-- `p_entry_recv`. -/
  | recv
  /-- `p_entry` of `ec_eoe_process_recv`. -/
  | fragment
  /-- `write_buf` of `ec_foe_read`. -/
  | writeBuf
deriving DecidableEq

instance : Fintype Var := ⟨{.entry, .recv, .fragment, .writeBuf}, fun x => by cases x <;> decide⟩

inductive Cond
  | data
  /-- `handler_running` -/
  | running
  /-- `mbx_supported` has the protocol with this queue. -/
  | supports (q : Queue)
deriving DecidableEq

/-- What else is done in `ec_mbx_init` and `ec_mbx_deinit`. -/
inductive Effect
  /-- `handler_running` is set. -/
  | setRunning (running : Bool)
  /-- `osal_task_create`. -/
  | create
  /-- `osal_task_join`. -/
  | join
  /-- `pool_open` without entries. -/
  | poolOpen (q : Queue)
  | poolClose (q : Queue)
deriving DecidableEq

abbrev Code := Stmt Queue Var Cond Effect

def get (q : Queue) (x : Var) (wait : Bool) : Code := .op (.get q x wait)

def poolPut (q : Queue) (x : Var) : Code := .op (.put q x false)

def access (x : Var) : Code := .op (.access x)

def clear (x : Var) : Code := .op (.clear x)

/-- `if` without `else`. -/
def when (c : Cond) (code : List Code) : Code := .test c (block code) .skip

def unlessNull (x : Var) (code : List Code) : Code := .ifNull x .skip (block code)

/-! ## Send and receive buffers -/

def getFreeSendBuffer (x : Var) (wait : Bool) : Code :=
  block [get .sendFree x wait, unlessNull x [access x]]

def returnFreeSendBuffer (x : Var) : Code := poolPut .sendFree x

def returnFreeRecvBuffer (x : Var) : Code := poolPut .recvFree x

def enqueueHead (x : Var) : Code := .op (.put .sendQueued x true)

def enqueueTail (x : Var) : Code := poolPut .sendQueued x

/-! ## CoE -/

/-- `ec_coe_wait`, `ec_eoe_wait`, `ec_eoe_wait_response`, and `ec_mbx_gateway_wait` without its first
line: until there is a message, or the time is over. -/
def waitLoop (q : Queue) (x : Var) : Code :=
  .loop (block [get q x true, .ifNull x (.test .data .skip .brk) .brk])

def coeEmergencyEnqueue : Code := block [access .entry, returnFreeRecvBuffer .entry]

def coeEnqueue : Code :=
  block [access .entry,
    .test .data coeEmergencyEnqueue
      (.test .data (poolPut .coe .entry) (returnFreeRecvBuffer .entry))]

/-- Answers are taken, and returned, until one of them will do. -/
def coeAnswers : Code :=
  block [waitLoop .coe .entry,
    whileSome .entry [access .entry, returnFreeRecvBuffer .entry, clear .entry, when .data [.brk],
      waitLoop .coe .entry]]

/-- A request is sent when there is a buffer for it, and then `code`. -/
def coeRequest (code : List Code) : Code :=
  block [clear .entry, when .data [.ret], getFreeSendBuffer .entry false, .ifNull .entry .ret .skip,
    access .entry, enqueueHead .entry, block code]

def coeSdoRead : Code := coeRequest [coeAnswers]

def coeSdoWriteExpedited : Code := coeRequest [coeAnswers]

def coeSdoWriteNormal : Code :=
  coeRequest [clear .entry, coeAnswers,
    when .data [
      .loop (block [when .data [.brk], getFreeSendBuffer .entry false, .ifNull .entry .brk .skip,
        access .entry, enqueueHead .entry, coeAnswers])]]

def coeOdlistRead : Code :=
  coeRequest [
    .loop (block [waitLoop .coe .entry,
      whileSome .entry [access .entry, returnFreeRecvBuffer .entry, clear .entry],
      when .data [.brk]])]

def coeSdoDescRead : Code := coeRequest [coeAnswers]

def coeSdoEntryDescRead : Code := coeRequest [coeAnswers]

/-! ## SoE -/

def soeEnqueue : Code :=
  block [access .entry,
    .test .data (block [access .entry, returnFreeRecvBuffer .entry]) (poolPut .soe .entry)]

/-- An unexpected message is returned, and `p_entry` kept; for another one, `incomplete` is read when
it has been returned. -/
def soeRead : Code :=
  block [when .data [.ret], getFreeSendBuffer .entry false, .ifNull .entry .ret .skip,
    access .entry, enqueueHead .entry, get .soe .entry true,
    whileSome .entry [access .entry,
      .test .data (returnFreeRecvBuffer .entry)
        (block [access .entry, returnFreeRecvBuffer .entry, access .entry, when .data [.brk],
          get .soe .entry true])]]

def soeWrite : Code :=
  block [when .data [.ret],
    .loop (block [when .data [.brk], getFreeSendBuffer .entry false,
      unlessNull .entry [access .entry, enqueueHead .entry, get .soe .entry true,
        whileSome .entry [access .entry, returnFreeRecvBuffer .entry, when .data [.brk],
          get .soe .entry true]]])]

/-! ## FoE -/

def foeEnqueue : Code := poolPut .foe .entry

/-- The counter of an acknowledgement is written to the request. -/
def foeRead : Code :=
  block [when .data [.ret], getFreeSendBuffer .entry false, .ifNull .entry .ret .skip,
    .op (.copy .entry .writeBuf), access .entry, enqueueHead .entry, clear .recv,
    .loop (block [get .foe .recv true,
      unlessNull .recv [access .recv,
        -- `EC_FOE_OP_CODE_DATA_REQUEST`
        when .data [getFreeSendBuffer .entry false,
          unlessNull .entry [access .entry, access .writeBuf, enqueueHead .entry]],
        returnFreeRecvBuffer .recv],
      when .data [.brk]])]

def foeWrite : Code :=
  block [when .data [.ret], getFreeSendBuffer .entry false, .ifNull .entry .ret .skip,
    access .entry, enqueueHead .entry, get .foe .entry true,
    unlessNull .entry [access .entry, returnFreeRecvBuffer .entry],
    when .data [
      .loop (block [getFreeSendBuffer .entry false,
        unlessNull .entry [access .entry, enqueueHead .entry, get .foe .entry true,
          unlessNull .entry [access .entry, returnFreeRecvBuffer .entry]],
        when .data [.brk]])]]

/-! ## EoE -/

/-- The buffers for Ethernet frames are others. -/
def eoeProcessRecv : Code :=
  block [clear .fragment, get .eoe .fragment false,
    unlessNull .fragment [
      -- there is a buffer for the frame, and the first fragment is the first one
      when .data [access .fragment,
        when .data [
          -- it is not the last one, too
          when .data [returnFreeRecvBuffer .fragment, clear .fragment, waitLoop .eoe .fragment,
            whileSome .fragment [access .fragment,
              when .data [returnFreeRecvBuffer .fragment, clear .fragment, .brk],
              returnFreeRecvBuffer .fragment, clear .fragment, waitLoop .eoe .fragment]]]],
      unlessNull .fragment [returnFreeRecvBuffer .fragment]]]

/-- `last_fragment` is read when the fragment is in the queue. -/
def eoeEnqueue : Code :=
  block [access .entry,
    .test .data (poolPut .response .entry)
      (block [poolPut .eoe .entry, access .entry,
        when .data [.loop (block [eoeProcessRecv, when .data [.brk]])]])]

def eoeSetIpParameter : Code :=
  block [when .data [.ret], getFreeSendBuffer .entry false, .ifNull .entry .ret .skip,
    access .entry, enqueueTail .entry, waitLoop .response .entry,
    unlessNull .entry [access .entry, returnFreeRecvBuffer .entry]]

/-- That there is a buffer is not checked. -/
def eoeSendFrame : Code :=
  block [when .data [.ret],
    .loop (block [getFreeSendBuffer .entry true, access .entry, enqueueTail .entry,
      when .data [.brk]])]

/-! ## Mailbox gateway -/

def mbxGatewayEnqueue : Code := poolPut .gateway .entry

def mbxGatewayHandle : Code :=
  block [when .data [.ret], clear .entry, getFreeSendBuffer .entry false,
    .ifNull .entry .ret .skip, access .entry, enqueueHead .entry, clear .entry,
    waitLoop .gateway .entry,
    whileSome .entry [access .entry, returnFreeRecvBuffer .entry, .brk]]

/-! ## The handler -/

/-- The protocol of a message, if the slave supports it. -/
def mbxProtocol (q : Queue) (enqueue otherwise : Code) : Code :=
  .test .data (.test (.supports q) (block [enqueue, clear .entry]) .skip) otherwise

def mbxDoHandle : Code :=
  block [clear .entry,
    -- `MBX_HANDLER_FLAGS_RECV`
    when .data [get .recvFree .entry false,
      unlessNull .entry [access .entry,
        -- `ec_mbx_receive`
        when .data [access .entry,
          .test .data (block [mbxGatewayEnqueue, clear .entry])
            (mbxProtocol .coe coeEnqueue (mbxProtocol .soe soeEnqueue
              (mbxProtocol .foe foeEnqueue (mbxProtocol .eoe eoeEnqueue .skip))))],
        unlessNull .entry [returnFreeRecvBuffer .entry]]],
    -- `MBX_HANDLER_FLAGS_SEND`
    when .data [get .sendQueued .entry false,
      unlessNull .entry [access .entry,
        -- `ec_mbx_send`
        .test .data (enqueueHead .entry) (block [access .entry, returnFreeSendBuffer .entry])]]]

def mbxHandler : Code :=
  .loop (block [.test .running .skip .brk, when .data [mbxDoHandle]])

/-! ## Init and deinit -/

def effects (l : List Effect) : List Code := l.map fun e => .op (.other e)

def mbxInit : Code :=
  .test .running .skip (block (
    effects [.poolOpen .sendQueued] ++
      [when (.supports .coe) (effects [.poolOpen .coe]),
        when (.supports .soe) (effects [.poolOpen .soe]),
        when (.supports .foe) (effects [.poolOpen .foe]),
        when (.supports .eoe) (effects [.poolOpen .eoe, .poolOpen .response])] ++
      effects [.setRunning true, .create]))

def mbxDeinit : Code :=
  when .running (
    effects [.setRunning false, .join] ++
      [when (.supports .coe) (effects [.poolClose .coe]),
        when (.supports .soe) (effects [.poolClose .soe]),
        when (.supports .foe) (effects [.poolClose .foe]),
        when (.supports .eoe) (effects [.poolClose .response, .poolClose .eoe])] ++
      effects [.poolClose .sendQueued])

end LibEthercat.Mbx.Buffers
