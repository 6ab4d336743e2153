import Mathlib.Algebra.GroupWithZero.Nat
import Mathlib.Data.Nat.Notation
import Mathlib.Tactic.SplitIfs

/-!
# CoE messages

The messages that wait in `coe.recv_pool`, as the bytes of a mailbox buffer, with the fields of the
packed structures in coe.c: mailbox header at 0, CoE header at 6, SDO header at 8, and behind it the
data of an expedited transfer, the abort code, or `complete_size` and the data of a normal transfer.
-/

namespace LibEthercat.Coe

/-- The `EC_OK` and `EC_ERROR_*` that the CoE functions return. -/
inductive Ret
  | ok
  | unavailable
  | slaveNotFound
  | mailboxTimeout
  | mailboxAbort
  | mailboxRead
  | mailboxNotSupportedCoe
  | mailboxOutOfSendBuffers
  | mailboxBufferTooSmall
deriving DecidableEq

/-- The bytes of a buffer. -/
abbrev Message := ℕ → UInt8

/-! ## Fields -/

def u16 (m : Message) (i : ℕ) : ℕ := (m i).toNat + 2 ^ 8 * (m (i + 1)).toNat

theorem u16_lt (m : Message) (i : ℕ) : u16 m i < 2 ^ 16 := by
  have hlow := (m i).toNat_lt
  have hhigh := (m (i + 1)).toNat_lt
  rw [u16]
  omega

def u32 (m : Message) (i : ℕ) : ℕ := u16 m i + 2 ^ 16 * u16 m (i + 2)

/-- `mbx_hdr.length`: the bytes behind the mailbox header. -/
def mbxLength (m : Message) : ℕ := u16 m 0

theorem mbxLength_lt (m : Message) : mbxLength m < 2 ^ 16 := u16_lt m 0

/-- `coe_hdr.service`, the upper 4 of 16 bits. -/
def service (m : Message) : ℕ := u16 m 6 / 2 ^ 12

/-- `sdo_hdr.transfer_type`: not 0 for an expedited transfer. -/
def transferType (m : Message) : ℕ := (m 8).toNat / 2 % 2

def dataSetSize (m : Message) : ℕ := (m 8).toNat / 2 ^ 2 % 2 ^ 2

def command (m : Message) : ℕ := (m 8).toNat / 2 ^ 5

def index (m : Message) : ℕ := u16 m 9

def subIndex (m : Message) : ℕ := (m 11).toNat

def completeSize (m : Message) : ℕ := u32 m 12

def abortCode (m : Message) : ℕ := u32 m 12

def EC_COE_SDOREQ : ℕ := 2

def EC_COE_SDORES : ℕ := 3

def EC_COE_SDO_ABORT_REQ : ℕ := 4

/-! ## Answers -/

/-- How the SDO functions take a message. -/
inductive Answer
  | abort
  | response
  | unexpected
deriving DecidableEq

def answer (m : Message) : Answer :=
  if service m = EC_COE_SDOREQ ∧ command m = EC_COE_SDO_ABORT_REQ then .abort
  else if service m = EC_COE_SDORES then .response
  else .unexpected

/-- What the call depends on before it waits: the slave exists, the lock has been taken, the slave
supports CoE, and there is a send buffer. -/
structure Ready where
  slave : Bool
  lock : Bool
  check : Bool
  buffer : Bool
deriving DecidableEq

/-- Everything is there. -/
def Ready.all : Ready := ⟨true, true, true, true⟩

/-- The error without a request, if something is missing. -/
def Ready.error (r : Ready) : Option Ret :=
  if !r.slave then some .slaveNotFound
  else if !r.lock then some .unavailable
  else if !r.check then some .mailboxNotSupportedCoe
  else if !r.buffer then some .mailboxOutOfSendBuffers
  else none

theorem Ready.error_ne_ok {r : Ready} {ret : Ret} (h : r.error = some ret) : ret ≠ .ok := by
  unfold Ready.error at h
  split_ifs at h <;> cases h <;> simp

end LibEthercat.Coe
