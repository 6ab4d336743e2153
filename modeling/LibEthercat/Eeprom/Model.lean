import LibEthercat.Lib.Prog
import Mathlib.Data.BitVec

/-!
# EEPROM access

The functions of `eeprom.c` reach the EEPROM of a slave through four of its registers, with one
datagram after the other. What becomes of a datagram is up to the bus: it may not be sent for want
of an index or a datagram, it may be lost, or it comes back with a working counter. The bus, with
the slave and the time, is a parameter (`Ec`); all frames of a call are kept in the order they were
sent.

The variables `ret`, `wkc` and the one that the datagram is filled from are kept together (`Got`): a
datagram that has not been sent leaves `wkc` and the data, a lost one leaves the data and clears
`wkc`, and one that comes back with a working counter overwrites the data, also after a write.
-/

namespace LibEthercat.Eeprom

inductive Ret
  | ok
  | slaveNotFound
  | outOfIndices
  | outOfDatagrams
  | timeout
  | eepromReadError
  | eepromWriteError
  | eepromChecksum
  | eepromWriteInProgress
  | eepromWriteEnable
  | eepromControlToEc
  | eepromControlToPdi
  deriving DecidableEq

inductive Cmd
  | fprd
  | fpwr
  deriving DecidableEq

def regEepcfg : BitVec 16 := 0x0500#16

def regEepctl : BitVec 16 := 0x0502#16

def regEepadr : BitVec 16 := 0x0504#16

def regEepdat : BitVec 16 := 0x0508#16

/-- A datagram as it is sent. -/
structure Request where
  cmd : Cmd
  adp : BitVec 16
  ado : BitVec 16
  len : ℕ
  data : BitVec 32
  deriving DecidableEq

/-- What becomes of a datagram in `ec_transceive`. -/
inductive Reply
  | outOfIndices
  | outOfDatagrams
  | timeout
  | answer (wkc : ℕ) (data : BitVec 32)
  deriving DecidableEq

structure Frame where
  req : Request
  reply : Reply
  deriving DecidableEq

/-- The master, and the bus in its state `σ`. -/
structure Ec (σ : Type*) where
  slaveCnt : ℕ
  fixedAddress : ℕ → BitVec 16
  send : Request → σ → Reply × σ
  sleep : ℕ → σ → σ
  /-- The time in nanoseconds. -/
  now : σ → ℕ

/-- Sending a datagram takes time, and time does not go back. -/
structure Ec.Ticks {σ : Type*} (pec : Ec σ) : Prop where
  send : ∀ q s, pec.now s < pec.now (pec.send q s).2
  sleep : ∀ n s, pec.now s ≤ pec.now (pec.sleep n s)

/-- The bus, the frames of the call so far, and the word that the argument `data` of
`ec_eepromwrite` points to. -/
structure World (σ : Type*) where
  env : σ
  frames : List Frame
  data : BitVec 16
  deriving DecidableEq

/-- The variables `ret` and `wkc`, and the one that the datagram is filled from. -/
structure Got (n : ℕ) where
  ret : Ret
  wkc : ℕ
  val : BitVec n
  deriving DecidableEq

variable {σ ε : Type} {n : ℕ}

def Reply.got (wkc : ℕ) (val : BitVec n) : Reply → Got n
  | .outOfIndices => ⟨.outOfIndices, wkc, val⟩
  | .outOfDatagrams => ⟨.outOfDatagrams, wkc, val⟩
  | .timeout => ⟨.timeout, 0, val⟩
  | .answer wkc data => ⟨.ok, wkc, if wkc = 0 then val else data.setWidth n⟩

def ecFprd (pec : Ec σ) (slave : ℕ) (ado : BitVec 16) (val : BitVec n) : Request :=
  ⟨.fprd, pec.fixedAddress slave, ado, n / 8, val.setWidth 32⟩

def ecFpwr (pec : Ec σ) (slave : ℕ) (ado : BitVec 16) (val : BitVec n) : Request :=
  ⟨.fpwr, pec.fixedAddress slave, ado, n / 8, val.setWidth 32⟩

/-! ## Actions -/

/-- The state after a datagram. -/
def World.sent (w : World σ) (q : Request) (r : Reply × σ) : World σ :=
  { w with env := r.2, frames := w.frames ++ [⟨q, r.1⟩] }

def ecTransceive (pec : Ec σ) (q : BitVec n → Request) (wkc : ℕ) (val : BitVec n) :
    Prog (World σ) ε (Got n) :=
  .act fun w =>
    let r := pec.send (q val) w.env
    (r.1.got wkc val, w.sent (q val) r)

def osalSleep (pec : Ec σ) (ns : ℕ) : Prog (World σ) ε Unit :=
  .act fun w => ((), { w with env := pec.sleep ns w.env })

def osalTimerInit (pec : Ec σ) (timeout : ℕ) : Prog (World σ) ε ℕ :=
  .act fun w => (pec.now w.env + timeout, w)

def osalTimerExpired (pec : Ec σ) (timer : ℕ) : Prog (World σ) ε Bool :=
  .act fun w => (decide (timer < pec.now w.env), w)

/-- The rest is guarded by `ret == EC_OK`. -/
def Got.check (g : Got n) : Prog (World σ) Ret (Got n) :=
  if g.ret = .ok then .ret g else .throw g.ret

def checkRet (ret : Ret) : Prog (World σ) Ret Unit :=
  if ret = .ok then .ret () else .throw ret

/-! ## Control of the EEPROM -/

/-- The macro `SII_REG`: at most `cnt` datagrams, until one is answered by just one slave. The
working counter starts with any value, it is not looked at if `ret` is not `EC_OK`. -/
def siiReg (pec : Ec σ) (q : BitVec n → Request) : ℕ → ℕ → BitVec n → Prog (World σ) ε (Got n × ℕ)
  | 0, wkc, val => .ret (⟨.ok, wkc, val⟩, 0)
  | cnt + 1, wkc, val => do
    let g ← ecTransceive pec q wkc val
    if 0 < cnt ∧ g.wkc ≠ 1 ∧ g.ret = .ok then siiReg pec q cnt g.wkc g.val else .ret (g, cnt)

/-- `SII_REG`, and the error if it has failed. -/
def siiRegOr (pec : Ec σ) (err : Ret) (q : BitVec n → Request) (val : BitVec n) :
    Prog (World σ) Ret (BitVec n) := do
  let (g, cnt) ← siiReg pec q 100 0 val
  if g.ret ≠ .ok ∨ cnt = 0 then .throw err else .ret g.val

def ecEepromToPdi (pec : Ec σ) (slave : ℕ) : Prog (World σ) Ret Unit :=
  if pec.slaveCnt ≤ slave then .throw .slaveNotFound
  else do
    let _ ← siiRegOr pec .eepromControlToPdi (ecFpwr pec slave regEepcfg) 1#8
    .ret ()

/-- `EEPCFG` says that ECAT has the EEPROM, and that the PDI does not use it. -/
def Owned (eepcfgstat : BitVec 16) : Prop :=
  eepcfgstat &&& 0x0001#16 = 0#16 ∧ eepcfgstat &&& 0x0100#16 = 0#16

instance (v : BitVec 16) : Decidable (Owned v) := inferInstanceAs (Decidable (_ ∧ _))

/-- The last loop of `ec_eeprom_to_ec`, which gives up without an error when the time is over. -/
def waitOwned (pec : Ec σ) (slave timer : ℕ) : BitVec 16 → Prog (World σ) ε Ret :=
  .loop fun eepcfgstat => do
    let (g, cnt) ← siiReg pec (ecFprd pec slave regEepcfg) 100 0 eepcfgstat
    let ret := if g.ret ≠ .ok ∨ cnt = 0 then Ret.eepromControlToEc else .ok
    if ret = .ok ∧ Owned g.val then .ret (.inr .ok)
    else do
      osalSleep pec 1000000
      let expired ← osalTimerExpired pec timer
      if expired then .ret (.inr ret) else .ret (.inl g.val)

/-- ECAT assigns the EEPROM to itself, if it does not have it. -/
def assignToEc (pec : Ec σ) (slave : ℕ) (eepcfgstat : BitVec 16) : Prog (World σ) Ret Unit :=
  if Owned eepcfgstat then .ret ()
  else do
    let _ ← siiRegOr pec .eepromControlToEc (ecFpwr pec slave regEepcfg) 0#8
    .ret ()

def ecEepromToEc (pec : Ec σ) (slave : ℕ) : Prog (World σ) Ret Unit :=
  if pec.slaveCnt ≤ slave then .throw .slaveNotFound
  else do
    let eepcfgstat ← siiRegOr pec .eepromControlToEc (ecFprd pec slave regEepcfg) 2#16
    assignToEc pec slave eepcfgstat
    let timer ← osalTimerInit pec 100000000
    let ret ← waitOwned pec slave timer eepcfgstat
    checkRet ret

/-! ## Reading 32 bits -/

/-- A loop that sends the same datagram until its answer is good, or for 100 ms. `start` is what a
pass does to the variable first. -/
def poll (pec : Ec σ) (timer : ℕ) (err : Ret) (start : BitVec n → BitVec n)
    (q : BitVec n → Request) (again : Got n → Bool) : Got n → Prog (World σ) ε (Got n) :=
  .loop fun g => do
    let g ← ecTransceive pec q g.wkc (start g.val)
    let expired ← osalTimerExpired pec timer
    let ret := if expired then err else g.ret
    if again g ∧ ret = .ok then .ret (.inl g) else .ret (.inr { g with ret := ret })

def timedPoll (pec : Ec σ) (err : Ret) (start : BitVec n → BitVec n) (q : BitVec n → Request)
    (again : Got n → Bool) (g : Got n) : Prog (World σ) ε (Got n) := do
  let timer ← osalTimerInit pec 100000000
  poll pec timer err start q again g

/-- Polling the status, which is cleared before each pass. -/
def pollStatus (pec : Ec σ) (slave : ℕ) (err : Ret) (again : Got 16 → Bool) (wkc : ℕ) :
    Prog (World σ) Ret (Got 16) := do
  let g ← timedPoll pec err (fun _ => 0#16) (ecFprd pec slave regEepctl) again ⟨.ok, wkc, 0#16⟩
  g.check

/-- A single datagram, which one slave has to answer. -/
def transceiveOnce (pec : Ec σ) (err : Ret) (q : BitVec n → Request) (wkc : ℕ) (val : BitVec n) :
    Prog (World σ) Ret (Got n) := do
  let g ← ecTransceive pec q wkc val
  if g.ret = .ok ∧ g.wkc ≠ 1 then .throw err else g.check

def commandBit (g : Got 16) : Bool := decide (g.val &&& 0x0100#16 ≠ 0#16)

def unansweredOrBusy (g : Got 16) : Bool := decide (g.wkc = 0 ∨ g.val &&& 0x8000#16 ≠ 0#16)

def readErrors (eepcsr : BitVec 16) : Ret :=
  if eepcsr &&& 0x0100#16 ≠ 0#16 then .eepromWriteInProgress
  else if eepcsr &&& 0x4000#16 ≠ 0#16 then .eepromWriteEnable
  else if eepcsr &&& 0x2000#16 ≠ 0#16 then .eepromReadError
  else if eepcsr &&& 0x0800#16 ≠ 0#16 then .eepromChecksum
  else .ok

/-- The address, the command, and what comes of it. -/
def readCommand (pec : Ec σ) (slave : ℕ) (eepadr : BitVec 32) (wkc : ℕ) :
    Prog (World σ) Ret (BitVec 32) := do
  let g ← transceiveOnce pec .eepromReadError (ecFpwr pec slave regEepadr) wkc eepadr
  let g ← transceiveOnce pec .eepromReadError (ecFpwr pec slave regEepctl) g.wkc 0x0100#16
  let g ← pollStatus pec slave .eepromReadError unansweredOrBusy g.wkc
  let data ← transceiveOnce pec .eepromReadError (ecFprd pec slave regEepdat) g.wkc 0#32
  checkRet (readErrors g.val)
  .ret data.val

/-- From the step after taking control to the one before giving it back. -/
def readSteps (pec : Ec σ) (slave : ℕ) (eepadr : BitVec 32) : Prog (World σ) Ret (BitVec 32) := do
  let g ← pollStatus pec slave .eepromReadError commandBit 0
  readCommand pec slave eepadr g.wkc

def ecEepromread (pec : Ec σ) (slave : ℕ) (eepadr : BitVec 32) : Prog (World σ) Ret (BitVec 32) :=
  if pec.slaveCnt ≤ slave then .throw .slaveNotFound
  else do
    ecEepromToEc pec slave
    let data ← readSteps pec slave eepadr
    ecEepromToPdi pec slave
    .ret data

/-! ## Writing 16 bits -/

/-- The inner loop, which writes `eepcsr` until the slave has answered. -/
def clearWrite (pec : Ec σ) (slave : ℕ) : ℕ × BitVec 16 → Prog (World σ) ε (Got 16) :=
  .loop fun (wkc, eepcsr) => do
    let g ← ecTransceive pec (ecFpwr pec slave regEepctl) wkc eepcsr
    if g.ret = .ok ∧ g.wkc = 0 then .ret (.inl (g.wkc, g.val)) else .ret (.inr g)

def errorBits (g : Got 16) : Bool := decide (g.wkc = 0 ∨ g.val &&& 0x6000#16 ≠ 0#16)

/-- The loop that clears the error bits. It has no timer, and does not look at `ret`. -/
def clearErrors (pec : Ec σ) (slave : ℕ) : Got 16 → Prog (World σ) ε (Got 16) :=
  .loop fun g =>
    if errorBits g then do
      let g ← clearWrite pec slave (g.wkc, 0#16)
      if g.ret = .ok then do
        let g ← ecTransceive pec (ecFprd pec slave regEepctl) g.wkc g.val
        .ret (.inl g)
      else .ret (.inl g)
    else .ret (.inr g)

def unanswered (g : Got n) : Bool := decide (g.wkc = 0)

/-- Writing a register until the slave has answered, or for 100 ms. -/
def pollWrite (pec : Ec σ) (err : Ret) (q : BitVec n → Request) (wkc : ℕ) (val : BitVec n) :
    Prog (World σ) ε (Got n) :=
  timedPoll pec err id q unanswered ⟨.ok, wkc, val⟩

def writeRegister (pec : Ec σ) (err : Ret) (q : BitVec n → Request) (wkc : ℕ) (val : BitVec n) :
    Prog (World σ) Ret (Got n) := do
  let g ← pollWrite pec err q wkc val
  g.check

/-- Step 4, with the word that `data` points to. -/
def pollData (pec : Ec σ) (slave wkc : ℕ) : Prog (World σ) Ret (Got 16) := do
  let val ← .act fun w => (w.data, w)
  let g ← pollWrite pec .eepromWriteError (ecFpwr pec slave regEepdat) wkc val
  .act fun w => ((), { w with data := g.val })
  g.check

def writeErrors (eepcsr : BitVec 16) : Ret :=
  if eepcsr &&& 0x0100#16 ≠ 0#16 then .eepromWriteInProgress
  else if eepcsr &&& 0x4000#16 ≠ 0#16 then .eepromWriteEnable
  else if eepcsr &&& 0x2000#16 ≠ 0#16 then .eepromWriteError
  else .ok

/-- The steps 3 to 8. -/
def writeCommand (pec : Ec σ) (slave : ℕ) (eepadr : BitVec 32) (wkc : ℕ) :
    Prog (World σ) Ret Unit := do
  let g ← writeRegister pec .eepromWriteInProgress (ecFpwr pec slave regEepadr) wkc eepadr
  let g ← pollData pec slave g.wkc
  let g ← writeRegister pec .eepromWriteError (ecFpwr pec slave regEepctl) g.wkc 0x0201#16
  let g ← pollStatus pec slave .eepromWriteError unansweredOrBusy g.wkc
  checkRet (writeErrors g.val)

/-- From the step after taking control to the one before giving it back. -/
def writeSteps (pec : Ec σ) (slave : ℕ) (eepadr : BitVec 32) : Prog (World σ) Ret Unit := do
  let g ← pollStatus pec slave .eepromWriteError unansweredOrBusy 0
  let g ← clearErrors pec slave g
  let g ← g.check
  writeCommand pec slave eepadr g.wkc

def ecEepromwrite (pec : Ec σ) (slave : ℕ) (eepadr : BitVec 32) : Prog (World σ) Ret Unit :=
  if pec.slaveCnt ≤ slave then .throw .slaveNotFound
  else do
    ecEepromToEc pec slave
    writeSteps pec slave eepadr
    ecEepromToPdi pec slave

/-! ## Buffers -/

/-- An access to a byte that is not in the buffer. -/
inductive Fault
  | outside
  deriving DecidableEq

/-- `buf[i]` -/
def load (buf : List (BitVec 8)) (i : ℕ) : Prog (World σ) Fault (BitVec 8) :=
  match buf[i]? with
  | some b => .ret b
  | none => .throw .outside

/-- `buf[i] = b` -/
def store (buf : List (BitVec 8)) (i : ℕ) (b : BitVec 8) : Prog (World σ) Fault (List (BitVec 8)) :=
  if i < buf.length then .ret (buf.set i b) else .throw .outside

/-- The inner loop of `ec_eepromread_len`, from byte `i` of the value on. -/
def copyOut (val : BitVec 32) (buflen : ℕ) : ℕ → ℕ → List (BitVec 8) →
    Prog (World σ) Fault (List (BitVec 8) × ℕ)
  | 0, offset, buf => .ret (buf, offset)
  | left + 1, offset, buf =>
    if offset < buflen then do
      let buf ← store buf offset (val.extractLsb' (8 * (3 - left)) 8)
      copyOut val buflen left (offset + 1) buf
    else .ret (buf, offset)

/-- `ec_eepromread_len`, which leaves the buffer with what has been read. -/
def ecEepromreadLen (pec : Ec σ) (slave : ℕ) (eepadr : BitVec 32) (buf : List (BitVec 8))
    (buflen : ℕ) : Prog (World σ) Fault (Ret × List (BitVec 8)) :=
  if pec.slaveCnt ≤ slave then .ret (.slaveNotFound, buf)
  else
    .loop (fun (buf, offset) =>
      if offset < buflen then do
        let r ← (ecEepromread pec slave (eepadr + BitVec.ofNat 32 (offset / 2))).attempt
        match r with
        | .error ret => .ret (.inr (ret, buf))
        | .ok val => do
          let x ← copyOut val buflen 4 offset buf
          .ret (.inl x)
      else .ret (.inr (.ok, buf))) (buf, 0)

/-- The inner loop of `ec_eepromwrite_len`, which tries until the word is written. -/
def writeWord (pec : Ec σ) (slave : ℕ) (eepadr : BitVec 32) : Prog (World σ) ε Unit :=
  .untilOk (ecEepromwrite pec slave eepadr)

def ecEepromwriteLen (pec : Ec σ) (slave : ℕ) (eepadr : BitVec 32) (buf : List (BitVec 8))
    (buflen : ℕ) : Prog (World σ) Fault Ret :=
  if pec.slaveCnt ≤ slave then .ret .slaveNotFound
  else
    .loop (fun offset =>
      if offset < buflen / 2 then do
        let lo ← load buf (offset * 2)
        let hi ← load buf (offset * 2 + 1)
        .act fun w => ((), { w with data := hi ++ lo })
        writeWord pec slave (eepadr + BitVec.ofNat 32 offset)
        .ret (.inl (offset + 1))
      else .ret (.inr .ok)) 0

end LibEthercat.Eeprom
