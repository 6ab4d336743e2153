import LibEthercat.Mapping.Model
import LibEthercat.Slave.State
import LibEthercat.Resend
import LibEthercat.Lib.Prog

/-!
# Mailbox transfers and the size of a datagram

The transitions from INIT take the offsets and sizes of the mailboxes from the EEPROM of the slave.
`ec_mbx_do_handle` polls the state of the mailboxes, and reads and writes them. A transfer is cut to
the size of a pool entry, and the header and the working counter of its datagram come on top.

**Theorem (`transfersFit_iff`).** All datagrams fit, into a pool entry and a frame, if and only if
the mailboxes are 12 bytes smaller than a pool entry, and 28 bytes smaller than the MTU.
-/

namespace LibEthercat.Mbx.Transfers

open SlaveState (StateTransition)
open Resend (Request request)

variable {σ ε : Type}

/-! ## The mailboxes of a slave -/

/-- The fields of `eeprom_info_t` for the mailboxes. -/
structure EepromMbx where
  mbxSupported : UInt16
  mbxReceiveOffset : UInt16
  mbxReceiveSize : UInt16
  mbxSendOffset : UInt16
  mbxSendSize : UInt16
  bootMbxReceiveOffset : UInt16
  bootMbxReceiveSize : UInt16
  bootMbxSendOffset : UInt16
  bootMbxSendSize : UInt16
deriving DecidableEq, Repr

def mailboxWrite : UInt8 := 0

def mailboxRead : UInt8 := 1

/-- `sm[MAILBOX_WRITE]` and `sm[MAILBOX_READ]`. -/
structure EcSlave where
  fixedAddress : UInt16
  smWrite : EcSlaveSm
  smRead : EcSlaveSm
deriving DecidableEq, Repr

/-- The sync manager of the read mailbox. -/
def readSm (t : StateTransition) (e : EepromMbx) : EcSlaveSm :=
  if t = .init2Boot ∧ e.bootMbxSendOffset ≠ 0 then
    ⟨e.bootMbxSendOffset, e.bootMbxSendSize, 0x00010022⟩
  else ⟨e.mbxSendOffset, e.mbxSendSize, 0x00010022⟩

/-- The sync manager of the write mailbox. -/
def writeSm (t : StateTransition) (e : EepromMbx) : EcSlaveSm :=
  if t = .init2Boot ∧ e.bootMbxReceiveOffset ≠ 0 then
    ⟨e.bootMbxReceiveOffset, e.bootMbxReceiveSize, 0x00010026⟩
  else ⟨e.mbxReceiveOffset, e.mbxReceiveSize, 0x00010026⟩

/-- The slave with its mailboxes, or `none` if the transition does not call `ec_mbx_init`. -/
def initMailboxes (t : StateTransition) (e : EepromMbx) (slv : EcSlave) : Option EcSlave :=
  match t with
  | .init2Boot | .init2Preop | .init2Safeop | .init2Op =>
    if e.mbxSupported ≠ 0 then some { slv with smRead := readSm t e, smWrite := writeSm t e }
    else none
  | _ => none

/-! ## The bus -/

/-- The pools that the handler takes an entry of. -/
inductive Queue
  | recvFree
  | sendQueued

/-- The master and the bus, in their state `σ`. -/
structure Bus (σ : Type) where
  /-- The index of the next datagram. -/
  index : σ → UInt8
  /-- The working counter and the first byte, if the datagram can be sent. -/
  send : Request → σ → Option (UInt16 × UInt8) × σ
  poolGet : Queue → σ → Bool × σ
  /-- `*sm_state`, if the slave is in SAFEOP or OP and has one. -/
  smState : σ → Option UInt8
  clearSmState : σ → σ
  sleep : ℕ → σ → σ
  /-- The time in nanoseconds. -/
  now : σ → ℕ

/-- Sleeping takes time, and time does not go back. -/
structure Bus.Ticks (bus : Bus σ) : Prop where
  send : ∀ q s, bus.now s ≤ bus.now (bus.send q s).2
  poolGet : ∀ q s, bus.now s ≤ bus.now (bus.poolGet q s).2
  clearSmState : ∀ s, bus.now s ≤ bus.now (bus.clearSmState s)
  sleep : ∀ n s, bus.now s < bus.now (bus.sleep n s)

/-- The bus, and the datagrams of the call so far. -/
structure World (σ : Type) where
  env : σ
  sent : List Request

def datagram (bus : Bus σ) (cmd : UInt8) (adp ado : UInt16) (datalen : ℕ) (s : σ) : Request :=
  ⟨cmd, bus.index s, ado.toUInt32 <<< 16 ||| adp.toUInt32, datalen⟩

/-- `ec_transceive`, with the variable `wkc` and the first byte of the data. -/
def ecTransceive (bus : Bus σ) (cmd : UInt8) (adp ado : UInt16) (datalen : ℕ) (wkc : UInt16)
    (val : UInt8) : Prog (World σ) ε (UInt16 × UInt8) :=
  .act fun w =>
    let q := datagram bus cmd adp ado datalen w.env
    let r := bus.send q w.env
    (match r.1 with
      | none => (wkc, val)
      | some (k, v) => (k, if k = 0 then val else v),
      ⟨r.2, w.sent ++ [q]⟩)

def ecFprd (bus : Bus σ) (slv : EcSlave) (ado : UInt16) (datalen : ℕ) (wkc : UInt16)
    (val : UInt8) : Prog (World σ) ε (UInt16 × UInt8) :=
  ecTransceive bus 0x04 slv.fixedAddress ado datalen wkc val

def ecFpwr (bus : Bus σ) (slv : EcSlave) (ado : UInt16) (datalen : ℕ) (wkc : UInt16)
    (val : UInt8) : Prog (World σ) ε (UInt16 × UInt8) :=
  ecTransceive bus 0x05 slv.fixedAddress ado datalen wkc val

def poolGet (bus : Bus σ) (q : Queue) : Prog (World σ) ε Bool :=
  .act fun w => ((bus.poolGet q w.env).1, { w with env := (bus.poolGet q w.env).2 })

/-- Read `*sm_state`, and reset it. -/
def takeSmState (bus : Bus σ) : Prog (World σ) ε (Option UInt8) :=
  .act fun w => (bus.smState w.env,
    if (bus.smState w.env).isSome then { w with env := bus.clearSmState w.env } else w)

def clearSmState (bus : Bus σ) : Prog (World σ) ε Unit :=
  .act fun w => ((), { w with env := bus.clearSmState w.env })

def osalSleep (bus : Bus σ) (ns : ℕ) : Prog (World σ) ε Unit :=
  .act fun w => ((), { w with env := bus.sleep ns w.env })

def osalTimerInit (bus : Bus σ) (timeout : ℕ) : Prog (World σ) ε ℕ :=
  .act fun w => (bus.now w.env + timeout, w)

def osalTimerExpired (bus : Bus σ) (timer : ℕ) : Prog (World σ) ε Bool :=
  .act fun w => (decide (timer < bus.now w.env), w)

/-! ## The mailbox functions -/

def ecDefaultDelay : ℕ := 2000000

def ecDefaultTimeoutMbx : ℕ := 1000000000

/-- The register of a sync manager with its state. -/
def smStat (mbxNr : UInt8) : UInt16 := (0x0805 : UInt16) + mbxNr.toUInt16 <<< 3

/-- The end of a pass: another one after a pause, unless the time is over. -/
def waitOrEnd {α : Type} (bus : Bus σ) (timer : ℕ) (a : α) : Prog (World σ) ε (α ⊕ Bool) := do
  osalSleep bus ecDefaultDelay
  let expired ← osalTimerExpired bus timer
  if expired then .ret (.inr false) else .ret (.inl a)

/-- What `ec_mbx_is_full` does with the `*sm_state` of the read mailbox, or else over the bus. -/
def takenOrRead (bus : Bus σ) (slv : EcSlave) (mbxNr : UInt8) (x : UInt16 × UInt8) :
    Option UInt8 → Prog (World σ) ε (UInt16 × UInt8)
  | some b => .ret (1, b)
  | none => ecFprd bus slv (smStat mbxNr) 1 x.1 x.2

/-- `ec_mbx_is_full` -/
def ecMbxIsFull (bus : Bus σ) (slv : EcSlave) (mbxNr : UInt8) (nsec : ℕ) :
    Prog (World σ) ε Bool := do
  let timer ← osalTimerInit bus nsec
  Prog.loop (fun x => do
    let taken ← (if mbxNr = mailboxRead then takeSmState bus else .ret none : Prog _ _ _)
    let (wkc, smState) ← takenOrRead bus slv mbxNr x taken
    if wkc ≠ 0 ∧ smState &&& 0x08 = 0x08 then .ret (.inr true)
    else waitOrEnd bus timer (wkc, smState)) ((0, 0) : UInt16 × UInt8)

/-- `ec_mbx_is_empty` -/
def ecMbxIsEmpty (bus : Bus σ) (slv : EcSlave) (mbxNr : UInt8) (nsec : ℕ) :
    Prog (World σ) ε Bool := do
  let timer ← osalTimerInit bus nsec
  Prog.loop (fun (wkc, smState) => do
    let (wkc, smState) ← ecFprd bus slv (smStat mbxNr) 1 wkc smState
    if wkc ≠ 0 ∧ smState &&& 0x08 = 0x00 then .ret (.inr true)
    else waitOrEnd bus timer (wkc, smState)) ((0, 0) : UInt16 × UInt8)

/-- `ec_mbx_receive` -/
def ecMbxReceive (bus : Bus σ) (slv : EcSlave) (bufLen nsec : ℕ) : Prog (World σ) ε Bool := do
  let full ← ecMbxIsFull bus slv mailboxRead nsec
  if full then do
    let (wkc, _) ← ecFprd bus slv slv.smRead.adr bufLen 0 0
    if wkc ≠ 0 then do
      clearSmState bus
      .ret true
    else .ret false
  else .ret false

/-- `ec_mbx_send` -/
def ecMbxSend (bus : Bus σ) (slv : EcSlave) (bufLen nsec : ℕ) : Prog (World σ) ε Bool := do
  let timer ← osalTimerInit bus nsec
  let empty ← ecMbxIsEmpty bus slv mailboxWrite nsec
  if empty then
    Prog.loop (fun wkc => do
      let (wkc, _) ← ecFpwr bus slv slv.smWrite.adr bufLen wkc 0
      if wkc ≠ 0 then .ret (.inr true) else waitOrEnd bus timer wkc) (0 : UInt16)
  else .ret false

/-- At most so many calls of `ec_mbx_send`. -/
def sendTries (bus : Bus σ) (slv : EcSlave) (bufLen : ℕ) : ℕ → Prog (World σ) ε Bool
  | 0 => .ret false
  | retryCnt + 1 => do
    let ok ← ecMbxSend bus slv bufLen ecDefaultTimeoutMbx
    if ok then .ret true else sendTries bus slv bufLen retryCnt

/-- The first half of `ec_mbx_do_handle`. What it does with a message needs no datagram. -/
def handleRecv (bus : Bus σ) (slv : EcSlave) : Prog (World σ) ε Bool := do
  let got ← poolGet bus .recvFree
  if got then ecMbxReceive bus slv (min lecMaxPoolDataSize slv.smRead.len.toNat) 0 else .ret false

/-- The second half. Neither does it need one to put a message back or to return it. -/
def handleSend (bus : Bus σ) (slv : EcSlave) : Prog (World σ) ε Bool := do
  let got ← poolGet bus .sendQueued
  if got then sendTries bus slv (min lecMaxPoolDataSize slv.smWrite.len.toNat) 10 else .ret false

/-- `ec_mbx_do_handle`, with the flags it finds. -/
def ecMbxDoHandle (bus : Bus σ) (slv : EcSlave) (recv send : Bool) : Prog (World σ) ε Bool := do
  let _ ← (if recv then handleRecv bus slv else .ret false : Prog _ _ _)
  if send then handleSend bus slv else .ret false

/-! ## Property and condition -/

/-- The datagram fits into a pool entry and into a frame, and its length field holds its length. -/
structure Fits (mtuSize : ℕ) (q : Request) : Prop where
  entry : ecDatagramHdrLength + q.datalen + ecWkcSize ≤ lecMaxPoolDataSize
  frame : ecFrameHdrLength + (ecDatagramHdrLength + q.datalen + ecWkcSize) ≤ mtuSize
  field : ∀ entry data, dgLen (request entry q data) 0 = q.datalen

/-- After the transition, on every bus, the handler comes to an end, and all its datagrams fit. -/
def TransfersFit (mtuSize : ℕ) (t : StateTransition) (e : EepromMbx) : Prop :=
  ∀ slv slv', initMailboxes t e slv = some slv' → ∀ (σ : Type) (bus : Bus σ), bus.Ticks →
    ∀ recv send (w : World σ), (ecMbxDoHandle bus slv' recv send : Prog (World σ) Empty _).Total w
      (Prog.Logs World.sent w fun _ l _ => ∀ q ∈ l, Fits mtuSize q)

/-- The transition calls `ec_mbx_init`. -/
def StartsHandler (t : StateTransition) (e : EepromMbx) : Prop :=
  t ∈ [StateTransition.init2Boot, .init2Preop, .init2Safeop, .init2Op] ∧ e.mbxSupported ≠ 0

/-- With the headers and the working counter. -/
def SizeFits (mtuSize : ℕ) (size : UInt16) : Prop :=
  size.toNat + 12 ≤ lecMaxPoolDataSize ∧ size.toNat + 28 ≤ mtuSize

/-- Both mailboxes, and the single byte of a poll. -/
structure SizesFit (mtuSize : ℕ) (t : StateTransition) (e : EepromMbx) : Prop where
  poll : SizeFits mtuSize 1
  read : SizeFits mtuSize (readSm t e).len
  write : SizeFits mtuSize (writeSm t e).len

/-! ## What is sent -/

section
variable {bus : Bus σ} {slv : EcSlave} {P : Request → Prop} {cmd mbxNr val : UInt8}
  {ado wkc : UInt16} {datalen bufLen nsec timer : ℕ}

/-- All datagrams of this length have the property. -/
def OfLen (P : Request → Prop) (datalen : ℕ) : Prop := ∀ q : Request, q.datalen = datalen → P q

theorem emits_transceive {adp : UInt16} (h : OfLen P datalen) :
    Prog.Emits World.sent P (ecTransceive bus cmd adp ado datalen wkc val : Prog _ ε _) :=
  fun w => Prog.post_act.2 ⟨[datagram bus cmd adp ado datalen w.env], rfl,
    List.forall_mem_singleton.2 (h _ rfl)⟩

theorem emits_waitOrEnd {α : Type} {a : α} :
    Prog.Emits World.sent P (waitOrEnd bus timer a : Prog _ ε _) :=
  .bind (.act fun _ => rfl) fun _ => .bind (.act fun _ => rfl) fun _ => .ite .ret .ret

theorem emits_takeSmState : Prog.Emits World.sent P (takeSmState bus : Prog _ ε _) :=
  .act fun w => by
    dsimp only
    split <;> rfl

theorem emits_isFull (hpoll : OfLen P 1) :
    Prog.Emits World.sent P (ecMbxIsFull bus slv mbxNr nsec : Prog _ ε _) := by
  refine .bind (.act fun _ => rfl) fun timer => .loop fun x => ?_
  refine .bind (.ite emits_takeSmState .ret) fun taken =>
    .bind ?_ fun _ => .ite .ret emits_waitOrEnd
  cases taken with
  | none => exact emits_transceive hpoll
  | some b => exact .ret

theorem emits_isEmpty (hpoll : OfLen P 1) :
    Prog.Emits World.sent P (ecMbxIsEmpty bus slv mbxNr nsec : Prog _ ε _) :=
  .bind (.act fun _ => rfl) fun _ => .loop fun _ =>
    .bind (emits_transceive hpoll) fun _ => .ite .ret emits_waitOrEnd

theorem emits_receive (hpoll : OfLen P 1) (hdata : OfLen P bufLen) :
    Prog.Emits World.sent P (ecMbxReceive bus slv bufLen nsec : Prog _ ε _) :=
  .bind (emits_isFull hpoll) fun _ => .ite
    (.bind (emits_transceive hdata) fun _ =>
      .ite (.bind (.act fun _ => rfl) fun _ => .ret) .ret) .ret

theorem emits_send (hpoll : OfLen P 1) (hdata : OfLen P bufLen) :
    Prog.Emits World.sent P (ecMbxSend bus slv bufLen nsec : Prog _ ε _) :=
  .bind (.act fun _ => rfl) fun _ => .bind (emits_isEmpty hpoll) fun _ => .ite
    (.loop fun _ => .bind (emits_transceive hdata) fun _ => .ite .ret emits_waitOrEnd) .ret

theorem emits_sendTries (hpoll : OfLen P 1) (hdata : OfLen P bufLen) (retryCnt : ℕ) :
    Prog.Emits World.sent P (sendTries bus slv bufLen retryCnt : Prog _ ε _) := by
  induction retryCnt with
  | zero => exact .ret
  | succ retryCnt ih => exact .bind (emits_send hpoll hdata) fun _ => .ite .ret ih

theorem emits_handleRecv (hpoll : OfLen P 1)
    (hread : OfLen P (min lecMaxPoolDataSize slv.smRead.len.toNat)) :
    Prog.Emits World.sent P (handleRecv bus slv : Prog _ ε _) :=
  .bind (.act fun _ => rfl) fun _ => .ite (emits_receive hpoll hread) .ret

theorem emits_handleSend (hpoll : OfLen P 1)
    (hwrite : OfLen P (min lecMaxPoolDataSize slv.smWrite.len.toNat)) :
    Prog.Emits World.sent P (handleSend bus slv : Prog _ ε _) :=
  .bind (.act fun _ => rfl) fun _ => .ite (emits_sendTries hpoll hwrite 10) .ret

/-- **What the handler sends**: polls, and transfers of these lengths. -/
theorem emits_doHandle (hpoll : OfLen P 1)
    (hread : OfLen P (min lecMaxPoolDataSize slv.smRead.len.toNat))
    (hwrite : OfLen P (min lecMaxPoolDataSize slv.smWrite.len.toNat)) (recv send : Bool) :
    Prog.Emits World.sent P (ecMbxDoHandle bus slv recv send : Prog _ ε _) :=
  .bind (.ite (emits_handleRecv hpoll hread) .ret) fun _ =>
    .ite (emits_handleSend hpoll hwrite) .ret

end

/-! ## The handler comes to an end -/

section
variable {bus : Bus σ} {slv : EcSlave} {cmd mbxNr val : UInt8} {ado wkc : UInt16}
  {datalen bufLen nsec timer : ℕ} {w : World σ}

/-- The time has not gone back. -/
def Later (bus : Bus σ) (w t : World σ) : Prop := bus.now w.env ≤ bus.now t.env

theorem total_transceive (hticks : bus.Ticks) {adp : UInt16} :
    (ecTransceive bus cmd adp ado datalen wkc val : Prog _ ε _).Total w fun r t =>
      (∃ x, r = .ok x) ∧ Later bus w t :=
  Prog.total_act.2 ⟨⟨_, rfl⟩, hticks.send _ _⟩

/-- The pause makes sure that the time goes on. -/
theorem total_waitOrEnd (hticks : bus.Ticks) {α : Type} {a : α} {t : World σ}
    (hlater : Later bus t w) :
    (waitOrEnd bus timer a : Prog _ ε _).Total w (Prog.Pass
      (fun _ u => True ∧ timer + 1 - bus.now u.env < timer + 1 - bus.now t.env)
      fun _ _ => True) := by
  refine Prog.total_bind.2 (Prog.total_act.2 (Prog.total_bind.2 (Prog.total_act.2 ?_)))
  have hsleep := hticks.sleep ecDefaultDelay w.env
  refine Prog.total_ite (fun _ => Prog.total_ret.2 trivial) fun hexp =>
    Prog.total_ret.2 ⟨trivial, ?_⟩
  have htime : ¬ timer < bus.now (bus.sleep ecDefaultDelay w.env) := fun h =>
    hexp (decide_eq_true h)
  show timer + 1 - bus.now (bus.sleep ecDefaultDelay w.env) < _
  unfold Later at hlater
  omega

theorem total_takeSmState (hticks : bus.Ticks) :
    (takeSmState bus : Prog _ ε _).Total w fun r t => (∃ x, r = .ok x) ∧ Later bus w t := by
  refine Prog.total_act.2 ⟨⟨_, rfl⟩, ?_⟩
  dsimp only
  split
  · exact hticks.clearSmState _
  · exact le_rfl

theorem total_takenOrRead (hticks : bus.Ticks) {x : UInt16 × UInt8} (taken : Option UInt8) :
    (takenOrRead bus slv mbxNr x taken : Prog _ ε _).Total w fun r t =>
      (∃ x, r = .ok x) ∧ Later bus w t := by
  cases taken with
  | none => exact total_transceive hticks
  | some b => exact Prog.total_ret.2 ⟨⟨_, rfl⟩, le_rfl⟩

theorem isFull_halts (hticks : bus.Ticks) :
    (ecMbxIsFull bus slv mbxNr nsec : Prog _ ε _).Halts w := by
  refine Prog.total_bind.2 (Prog.total_act.2 ?_)
  refine Prog.total_loop (I := fun _ _ => True)
    (fun _ t => bus.now w.env + nsec + 1 - bus.now t.env) (fun x t _ => ?_) trivial
  have htaken : (if mbxNr = mailboxRead then takeSmState bus else .ret none :
      Prog (World σ) ε _).Total t fun r u => (∃ x, r = .ok x) ∧ Later bus t u :=
    Prog.total_ite (fun _ => total_takeSmState hticks) fun _ =>
      Prog.total_ret.2 ⟨⟨_, rfl⟩, le_rfl⟩
  refine Prog.total_bind.2 (htaken.imp fun r u h => ?_)
  obtain ⟨⟨taken, rfl⟩, hu⟩ := h
  refine Prog.total_bind.2 ((total_takenOrRead hticks taken).imp fun r v h => ?_)
  obtain ⟨⟨y, rfl⟩, hv⟩ := h
  exact Prog.total_ite (fun _ => Prog.total_ret.2 trivial) fun _ =>
    total_waitOrEnd hticks (hu.trans hv)

theorem isEmpty_halts (hticks : bus.Ticks) :
    (ecMbxIsEmpty bus slv mbxNr nsec : Prog _ ε _).Halts w := by
  refine Prog.total_bind.2 (Prog.total_act.2 ?_)
  refine Prog.total_loop (I := fun _ _ => True)
    (fun _ t => bus.now w.env + nsec + 1 - bus.now t.env) (fun x t _ => ?_) trivial
  refine Prog.total_bind.2 ((total_transceive hticks).imp fun r u h => ?_)
  obtain ⟨⟨y, rfl⟩, hu⟩ := h
  exact Prog.total_ite (fun _ => Prog.total_ret.2 trivial) fun _ => total_waitOrEnd hticks hu

theorem receive_halts (hticks : bus.Ticks) :
    (ecMbxReceive bus slv bufLen nsec : Prog _ ε _).Halts w :=
  (isFull_halts hticks).bind fun _ _ _ => .ite
    (fun _ => (total_transceive hticks).halts.bind fun _ _ _ => .ite
      (fun _ => .bind (Prog.total_act.2 trivial) fun _ _ _ => .ret) fun _ => .ret) fun _ => .ret

theorem send_halts (hticks : bus.Ticks) :
    (ecMbxSend bus slv bufLen nsec : Prog _ ε _).Halts w := by
  refine .bind (Prog.total_act.2 trivial) fun timer _ _ => ?_
  refine (isEmpty_halts hticks).bind fun empty _ _ => .ite (fun _ => ?_) fun _ => .ret
  refine Prog.total_loop (I := fun _ _ => True)
    (fun _ t => timer + 1 - bus.now t.env) (fun x t _ => ?_) trivial
  refine Prog.total_bind.2 ((total_transceive hticks).imp fun r u h => ?_)
  obtain ⟨⟨y, rfl⟩, hu⟩ := h
  exact Prog.total_ite (fun _ => Prog.total_ret.2 trivial) fun _ => total_waitOrEnd hticks hu

theorem sendTries_halts (hticks : bus.Ticks) (retryCnt : ℕ) :
    (sendTries bus slv bufLen retryCnt : Prog _ ε _).Halts w := by
  induction retryCnt generalizing w with
  | zero => exact .ret
  | succ retryCnt ih => exact (send_halts hticks).bind fun _ _ _ => .ite (fun _ => .ret) fun _ => ih

theorem handleRecv_halts (hticks : bus.Ticks) : (handleRecv bus slv : Prog _ ε _).Halts w :=
  .bind (Prog.total_act.2 trivial) fun _ _ _ => .ite (fun _ => receive_halts hticks) fun _ => .ret

theorem handleSend_halts (hticks : bus.Ticks) : (handleSend bus slv : Prog _ ε _).Halts w :=
  .bind (Prog.total_act.2 trivial) fun _ _ _ => .ite (fun _ => sendTries_halts hticks 10) fun _ =>
    .ret

theorem doHandle_halts (hticks : bus.Ticks) (recv send : Bool) :
    (ecMbxDoHandle bus slv recv send : Prog _ ε _).Halts w :=
  .bind (.ite (fun _ => handleRecv_halts hticks) fun _ => .ret) fun _ _ _ =>
    .ite (fun _ => handleSend_halts hticks) fun _ => .ret

end

/-! ## When all datagrams fit -/

section
variable {mtuSize : ℕ} {q : Request}

/-- The length field keeps 11 bits. -/
theorem dgLen_request (entry : Mem) (q : Request) (data : Mem) :
    dgLen (request entry q data) 0 = q.datalen % 2048 := by
  have hlow : request entry q data 6 = UInt8.ofNat (q.datalen % 256) := rfl
  have hhigh : request entry q data 7 = UInt8.ofNat (q.datalen / 256 % 8) := rfl
  rw [dgLen, hlow, hhigh, UInt8.toNat_ofNat', UInt8.toNat_ofNat']
  omega

theorem fits_iff (h : q.datalen ≤ lecMaxPoolDataSize) :
    Fits mtuSize q ↔ q.datalen + 12 ≤ lecMaxPoolDataSize ∧ q.datalen + 28 ≤ mtuSize := by
  have hmax : lecMaxPoolDataSize = 1600 := rfl
  have hdatagram : ecDatagramHdrLength + q.datalen + ecWkcSize = q.datalen + 12 :=
    Nat.add_right_comm 10 q.datalen 2 |>.trans (Nat.add_comm 12 q.datalen)
  have hframe : ecFrameHdrLength + (q.datalen + 12) = q.datalen + 28 :=
    Nat.add_left_comm 16 q.datalen 12
  constructor
  · rintro ⟨hentry, hmtu, -⟩
    rw [hdatagram] at hentry hmtu
    rw [hframe] at hmtu
    exact ⟨hentry, hmtu⟩
  · rintro ⟨hentry, hmtu⟩
    refine ⟨hdatagram ▸ hentry, ?_, fun entry data => (dgLen_request entry q data).trans ?_⟩
    · rw [hdatagram, hframe]
      exact hmtu
    · exact Nat.mod_eq_of_lt (by omega)

/-- A transfer is cut to the size of a pool entry: then it does not fit either. -/
theorem ofLen_fits {size : UInt16} (h : SizeFits mtuSize size) :
    OfLen (Fits mtuSize) (min lecMaxPoolDataSize size.toNat) := by
  intro q hq
  obtain ⟨hentry, hframe⟩ := h
  exact (fits_iff (by omega)).2 (by omega)

theorem sizeFits_of_fits {size : UInt16} (hq : q.datalen = min lecMaxPoolDataSize size.toNat)
    (h : Fits mtuSize q) : SizeFits mtuSize size := by
  obtain ⟨hentry, hframe⟩ := (fits_iff (by omega)).1 h
  exact ⟨by omega, by omega⟩

/-- A bus on which the mailboxes are ready and every datagram is answered. -/
def ready : Bus ℕ where
  index := fun _ => 0
  send := fun _ s => (some (1, 0), s)
  poolGet := fun _ s => (true, s)
  smState := fun _ => some 0x08
  clearSmState := id
  sleep := fun _ s => s + 1
  now := id

theorem ready_ticks : ready.Ticks where
  send := fun _ _ => le_rfl
  poolGet := fun _ _ => le_rfl
  clearSmState := fun _ => le_rfl
  sleep := fun _ s => Nat.lt_succ_self s

/-- The handler reads one mailbox, and polls and writes the other. -/
theorem ready_ends (slv : EcSlave) :
    (ecMbxDoHandle ready slv true true : Prog (World ℕ) ε Bool).Ends ⟨0, []⟩ (.ok true) ⟨0,
      [datagram ready 0x04 slv.fixedAddress slv.smRead.adr
          (min lecMaxPoolDataSize slv.smRead.len.toNat) 0,
        datagram ready 0x04 slv.fixedAddress (smStat mailboxWrite) 1 0,
        datagram ready 0x05 slv.fixedAddress slv.smWrite.adr
          (min lecMaxPoolDataSize slv.smWrite.len.toNat) 0]⟩ :=
  ⟨2, rfl⟩

variable {t : StateTransition} {e : EepromMbx}

theorem initMailboxes_eq_some_iff {slv slv' : EcSlave} : initMailboxes t e slv = some slv' ↔
    StartsHandler t e ∧ slv' = { slv with smRead := readSm t e, smWrite := writeSm t e } := by
  cases t <;> simp [initMailboxes, StartsHandler, eq_comm]

theorem transfersFit_of_sizesFit (h : StartsHandler t e → SizesFit mtuSize t e) :
    TransfersFit mtuSize t e := by
  intro slv slv' hinit σ bus hticks recv send w
  obtain ⟨hstarts, rfl⟩ := initMailboxes_eq_some_iff.1 hinit
  obtain ⟨hpoll, hread, hwrite⟩ := h hstarts
  exact (doHandle_halts hticks recv send).total (emits_doHandle (ofLen_fits hpoll)
    (ofLen_fits hread) (ofLen_fits hwrite) recv send w)

theorem sizesFit_of_transfersFit (h : TransfersFit mtuSize t e) (hstarts : StartsHandler t e) :
    SizesFit mtuSize t e := by
  have hinit : initMailboxes t e ⟨0, readSm t e, readSm t e⟩ =
      some ⟨0, writeSm t e, readSm t e⟩ := initMailboxes_eq_some_iff.2 ⟨hstarts, rfl⟩
  have hlogs := (h _ _ hinit ℕ ready ready_ticks true true ⟨0, []⟩).post _ _ (ready_ends _)
  obtain ⟨l, hl, hfits⟩ := hlogs
  rw [List.nil_append] at hl
  subst hl
  exact {
    read := sizeFits_of_fits rfl (hfits _ (.head _))
    poll := sizeFits_of_fits rfl (hfits _ (.tail _ (.head _)))
    write := sizeFits_of_fits rfl (hfits _ (.tail _ (.tail _ (.head _)))) }

end

/-- **Mailbox transfers fit** into a datagram, unless a mailbox is too large. -/
theorem transfersFit_iff (mtuSize : ℕ) (t : StateTransition) (e : EepromMbx) :
    TransfersFit mtuSize t e ↔ (StartsHandler t e → SizesFit mtuSize t e) :=
  ⟨sizesFit_of_transfersFit, transfersFit_of_sizesFit⟩

/-- Mailboxes of 1590 bytes, with an MTU of 2000: the datagrams have 1602 bytes. -/
theorem transfersFit_too_large :
    ¬ TransfersFit 2000 .init2Preop ⟨0x0004, 0x1000, 1590, 0x1800, 1590, 0, 0, 0, 0⟩ := by
  intro h
  have hfits := (sizesFit_of_transfersFit h ⟨by decide, by decide⟩).read.1
  exact absurd hfits (by decide)

end LibEthercat.Mbx.Transfers
