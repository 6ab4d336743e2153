import Mathlib.Logic.Function.Basic
import LibEthercat.Coe.Message
import LibEthercat.Lib.While

/-!
# `ec_coe_generate_mapping`

For sync managers 2 and 3 the function reads the assignment object (0x1c12, 0x1c13): how many PDOs
are assigned, and for each of them its index, the number of its entries, and the entries, whose
lowest byte is a length in bits. Then it stores the length of the sync manager, and an address if it
has none yet.

The function is a loop that makes at most one SDO read in a pass. Both counters have 8 bits, as the
counts have, so a loop up to 255 does not end.
-/

namespace LibEthercat.CoeMapping

open LibEthercat.Coe (Ret)
open Function (update)

/-! ## SDO reads -/

/-- What `ec_coe_sdo_read` gives: a value, in a variable that is large enough, or an error and
`abort_code`. -/
inductive Answer
  | value (v : UInt32)
  | error (ret : {ret : Ret // ret ≠ .ok}) (abortCode : UInt32)

def Answer.ret : Answer → Ret
  | .value _ => .ok
  | .error ret _ => ret

/-- "object does not exist in the object dictionary" -/
def objectDoesNotExist : UInt32 := 0x06020000

/-- The four reads of the function. -/
inductive Kind
  | assignCount
  | assignEntry
  | pdoCount
  | pdoEntry
deriving DecidableEq

structure Read where
  smIdx : ℕ
  kind : Kind
  index : UInt16
  subIndex : UInt8
  answer : Answer

/-- The assignment object is missing. That is not an error. -/
def Read.missing (r : Read) : Bool :=
  match r.kind, r.answer with
  | .assignCount, .error _ abortCode => abortCode == objectDoesNotExist
  | _, _ => false

def Read.failed (r : Read) : Bool :=
  match r.answer with
  | .value _ => false
  | .error _ _ => !r.missing

/-- What a read adds to `bit_len`. -/
def Read.bits (r : Read) : ℕ :=
  match r.kind, r.answer with
  | .pdoEntry, .value v => v.toNat % 256
  | _, _ => 0

/-! ## Sync managers -/

structure SyncManager where
  adr : UInt16
  len : UInt16
  flags : UInt32
deriving DecidableEq

/-- `slv->sm`, and the next free address. -/
structure Table where
  sm : ℕ → SyncManager
  startAdr : UInt16

/-- Behind the mailbox with the higher address. -/
def firstStartAdr (sm : ℕ → SyncManager) : UInt16 :=
  if (sm 0).adr > (sm 1).adr then (sm 0).adr + (sm 0).len else (sm 1).adr + (sm 1).len

/-- Store the length, and an address if there is none. -/
def Table.store (t : Table) (smCh smIdx bitLen : ℕ) : Table :=
  if bitLen ≠ 0 ∧ smIdx < smCh then
    let len := UInt16.ofNat ((bitLen + 7) / 8)
    let free := (t.sm smIdx).adr = 0
    { sm := update t.sm smIdx
        { adr := if free then t.startAdr else (t.sm smIdx).adr
          len := len
          flags := if smIdx = 2 then 0x10064 else 0x10020 }
      startAdr := if free then t.startAdr + len * 3 else t.startAdr }
  else t

/-- Without an assignment object. -/
def Table.clear (t : Table) (smCh smIdx : ℕ) : Table :=
  if smIdx < smCh then
    { t with sm := update t.sm smIdx { adr := (t.sm smIdx).adr, len := 0, flags := 0 } }
  else t

section
variable {t : Table} {smCh s bits : ℕ}

theorem store_of_not (h : ¬ (bits ≠ 0 ∧ s < smCh)) : t.store smCh s bits = t := if_neg h

theorem store_sm (h : bits ≠ 0 ∧ s < smCh) :
    (t.store smCh s bits).sm = Function.update t.sm s
      { adr := if (t.sm s).adr = 0 then t.startAdr else (t.sm s).adr
        len := UInt16.ofNat ((bits + 7) / 8)
        flags := if s = 2 then 0x10064 else 0x10020 } := by
  rw [Table.store, if_pos h]

theorem store_startAdr (h : bits ≠ 0 ∧ s < smCh) :
    (t.store smCh s bits).startAdr =
      if (t.sm s).adr = 0 then t.startAdr + UInt16.ofNat ((bits + 7) / 8) * 3 else t.startAdr := by
  rw [Table.store, if_pos h]

theorem store_sm_of_ne {i : ℕ} (h : i ≠ s) : (t.store smCh s bits).sm i = t.sm i := by
  by_cases hmapped : bits ≠ 0 ∧ s < smCh
  · rw [store_sm hmapped, Function.update_of_ne h]
  · rw [store_of_not hmapped]

theorem store_len (hbits : bits ≠ 0) (hs : s < smCh) :
    ((t.store smCh s bits).sm s).len = UInt16.ofNat ((bits + 7) / 8) := by
  rw [store_sm ⟨hbits, hs⟩, Function.update_self]

end

/-! ## The function -/

/-- The slave as the function sees it: whether it exists and supports CoE, how many sync managers it
has, and what the `k`-th SDO read of the call gives. -/
structure Slave where
  present : Bool
  coe : Bool
  smCh : ℕ
  sdoRead : ℕ → UInt16 → UInt8 → Answer

/-- Where the function is: at its begin, at the begin of the pass for a sync manager, at the head of
the loop over the assigned PDOs, at one with an index, or at the head of the loop over its entries. -/
inductive Pc
  | start
  | assignment
  | entries (entryCnt i : UInt8)
  | pdo (entryCnt i : UInt8) (entryIdx : UInt16)
  | objects (entryCnt i : UInt8) (entryIdx : UInt16) (entryCnt2 j : UInt8)

/-- `reads` are the SDO reads so far, `stored` the sync managers whose length has been stored. A
stored `bit_len` is below `2 ^ 32`. -/
structure State where
  pc : Pc
  smIdx : ℕ
  bitLen : ℕ
  table : Table
  ret : Ret
  reads : List Read
  stored : List ℕ

namespace State

def init (sm : ℕ → SyncManager) : State := ⟨.start, 2, 0, ⟨sm, 0⟩, .mailboxTimeout, [], []⟩

def ask (st : State) (sl : Slave) (index : UInt16) (subIndex : UInt8) : Answer :=
  sl.sdoRead st.reads.length index subIndex

/-- After a read. -/
def asked (st : State) (kind : Kind) (index : UInt16) (subIndex : UInt8) (answer : Answer) : State :=
  { st with ret := answer.ret, reads := st.reads ++ [⟨st.smIdx, kind, index, subIndex, answer⟩] }

/-- The pass for the next sync manager. -/
def nextSm (st : State) : State := { st with pc := .assignment, smIdx := st.smIdx + 1, bitLen := 0 }

/-- The end of a pass. -/
def store (st : State) (smCh : ℕ) : State :=
  { st with
    table := st.table.store smCh st.smIdx st.bitLen
    stored := if st.bitLen ≠ 0 ∧ st.smIdx < smCh then st.stored ++ [st.smIdx] else st.stored }

def goto (st : State) (pc : Pc) : State := { st with pc := pc }

def add (st : State) (bits : ℕ) : State := { st with bitLen := st.bitLen + bits }

end State

/-- The index of the assignment object. -/
def assignIdx (smIdx : ℕ) : UInt16 := 0x1c10 + UInt16.ofNat smIdx

def step (sl : Slave) (st : State) : State ⊕ State :=
  match st.pc with
  | .start =>
    if sl.present = false then .inr { st with ret := .slaveNotFound }
    else if sl.coe = false then .inr { st with ret := .mailboxNotSupportedCoe }
    else .inl { st with pc := .assignment, table := ⟨st.table.sm, firstStartAdr st.table.sm⟩ }
  | .assignment =>
    if st.smIdx ≤ 3 then
      let answer := st.ask sl (assignIdx st.smIdx) 0
      let st := st.asked .assignCount (assignIdx st.smIdx) 0 answer
      match answer with
      | .value v => .inl (st.goto (.entries v.toUInt8 1))
      | .error _ abortCode =>
        if abortCode = objectDoesNotExist then
          .inl { st with table := st.table.clear sl.smCh st.smIdx, ret := .ok }.nextSm
        else .inl st.nextSm
    else .inr st
  | .entries entryCnt i =>
    if i ≤ entryCnt then
      let answer := st.ask sl (assignIdx st.smIdx) i
      let st := st.asked .assignEntry (assignIdx st.smIdx) i answer
      match answer with
      | .value v =>
        if v.toUInt16 = 0 then .inl (st.goto (.entries entryCnt (i + 1)))
        else .inl (st.goto (.pdo entryCnt i v.toUInt16))
      | .error _ _ => .inl (st.goto (.entries entryCnt (i + 1)))
    else .inl (st.store sl.smCh).nextSm
  | .pdo entryCnt i entryIdx =>
    let answer := st.ask sl entryIdx 0
    let st := st.asked .pdoCount entryIdx 0 answer
    match answer with
    | .value v => .inl (st.goto (.objects entryCnt i entryIdx v.toUInt8 1))
    | .error _ _ => .inl (st.goto (.entries entryCnt (i + 1)))
  | .objects entryCnt i entryIdx entryCnt2 j =>
    if j ≤ entryCnt2 then
      let answer := st.ask sl entryIdx j
      let st := st.asked .pdoEntry entryIdx j answer
      match answer with
      | .value v => .inl ((st.add (v.toNat % 256)).goto (.objects entryCnt i entryIdx entryCnt2 (j + 1)))
      | .error _ _ => .inl (st.goto (.objects entryCnt i entryIdx entryCnt2 (j + 1)))
    else .inl (st.goto (.entries entryCnt (i + 1)))

/-- The state when the function returns, `ret` being what it returns. -/
def ecCoeGenerateMapping (fuel : ℕ) (sl : Slave) (sm : ℕ → SyncManager) : Option State :=
  While.run (step sl) fuel (State.init sm)

/-- The function returns, and this is the state then. -/
def Returns (sl : Slave) (sm : ℕ → SyncManager) (r : State) : Prop :=
  ∃ fuel, ecCoeGenerateMapping fuel sl sm = some r

end LibEthercat.CoeMapping
