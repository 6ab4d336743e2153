import LibEthercat.Coe.Message

/-!
# SoE messages

A SoE header lies behind the mailbox header: op code, flags and drive number in the byte at 6, then
the elements, and a number of 16 bits that is the IDN or the number of fragments left. The data
follow at 10.
-/

namespace LibEthercat.Soe

open LibEthercat.Coe (Message u16 mbxLength mbxLength_lt)

/-- The `EC_OK` and `EC_ERROR_*` that the SoE functions return. -/
inductive Ret
  | ok
  | slaveNotFound
  | mailboxTimeout
  | mailboxNotSupportedSoe
  | mailboxOutOfWriteBuffers
deriving DecidableEq

def EC_SOE_READ_REQ : ℕ := 1

def EC_SOE_READ_RES : ℕ := 2

def EC_SOE_WRITE_REQ : ℕ := 3

def EC_SOE_WRITE_RES : ℕ := 4

/-- `sizeof(ec_mbx_header_t)` -/
def mbxHdrLen : ℕ := 6

/-- `sizeof(ec_soe_header_t)` -/
def soeHdrLen : ℕ := 4

/-! ## Messages that are received -/

def opCode (m : Message) : ℕ := (m 6).toNat % 8

def incomplete (m : Message) : Bool := decide ((m 6).toNat / 8 % 2 = 1)

def error (m : Message) : Bool := decide ((m 6).toNat / 16 % 2 = 1)

def elements (m : Message) : UInt8 := m 7

def idnFragmentsLeft (m : Message) : ℕ := u16 m 8

/-- `mbx_hdr.length - sizeof(ec_soe_header_t)` is a `size_t`. -/
def dataLen (m : Message) : ℕ := (mbxLength m + 2 ^ 64 - soeHdrLen) % 2 ^ 64

/-- The message has a SoE header, going by its length. -/
def Headed (m : Message) : Prop := soeHdrLen ≤ mbxLength m

instance : DecidablePred Headed := fun m => inferInstanceAs (Decidable (_ ≤ mbxLength m))

/-- The first bytes of the data. -/
def dataBytes (m : Message) (n : ℕ) : List UInt8 := (List.range n).map fun i => m (10 + i)

/-- The data behind the header, if there is one. -/
def payload (m : Message) : List UInt8 := dataBytes m (mbxLength m - soeHdrLen)

@[simp] theorem dataBytes_length (m : Message) (n : ℕ) : (dataBytes m n).length = n := by
  simp [dataBytes]

theorem dataLen_of_headed {m : Message} (h : Headed m) : dataLen m = mbxLength m - soeHdrLen := by
  have hlt := mbxLength_lt m
  unfold Headed soeHdrLen at *
  unfold dataLen soeHdrLen
  omega

/-- Without a header it wraps. -/
theorem dataLen_pos_of_not_headed {m : Message} (h : ¬ Headed m) : 0 < dataLen m := by
  have hlt : mbxLength m < soeHdrLen := Nat.lt_of_not_le h
  unfold dataLen
  unfold soeHdrLen at hlt ⊢
  omega

theorem payload_length {m : Message} (h : Headed m) : (payload m).length = dataLen m := by
  rw [payload, dataBytes_length, dataLen_of_headed h]

theorem payload_of_not_headed {m : Message} (h : ¬ Headed m) : payload m = [] := by
  have hlt : mbxLength m < soeHdrLen := Nat.lt_of_not_le h
  rw [payload, Nat.sub_eq_zero_of_le (Nat.le_of_lt hlt)]
  rfl

theorem take_payload {m : Message} (h : Headed m) (n : ℕ) :
    (payload m).take n = dataBytes m (min (dataLen m) n) := by
  rw [payload, ← dataLen_of_headed h, dataBytes, dataBytes, ← List.map_take, List.take_range,
    Nat.min_comm]

/-! ## Messages that are sent -/

/-- `ec_soe_request_t`. The buffer has been cleared. -/
structure Request where
  length : ℕ
  counter : UInt8
  opCode : ℕ
  incomplete : Bool
  atn : ℕ
  elements : UInt8
  idnFragmentsLeft : ℕ
  data : List UInt8
deriving DecidableEq

end LibEthercat.Soe
