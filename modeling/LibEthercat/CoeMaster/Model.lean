import Mathlib.Algebra.GroupWithZero.Nat
import Mathlib.Data.Int.Init
import Mathlib.Data.List.Basic
import Mathlib.Tactic.SplitIfs

/-!
# The object dictionary of the master

`coe_master.c`: the objects of the master with their descriptors, their static data or their read
callbacks, and `ec_coe_master_sdo_read`.

A read answers with what it returns, the new `*len`, the bytes that it has written to the front of
`buf`, and everything it has touched on the way: elements of `pd_groups` and `slaves`, bytes of the
static data and entry descriptors of the object. What slaves answer on the bus is a parameter.
-/

namespace LibEthercat.CoeMaster

/-- The `EC_OK` and `EC_ERROR_*` that a read of the dictionary returns, those of `ec_coe_sdo_read`
included. -/
inductive Ret
  | ok
  | unavailable
  | slaveNotFound
  | mailboxTimeout
  | mailboxAbort
  | mailboxRead
  | mailboxNotSupportedCoe
  | mailboxOutOfSendBuffers
  | mailboxBufferTooSmall
  | coeIndexNotFound
  | coeSubindexNotFound
deriving DecidableEq

/-- What a read touches. -/
inductive Access
  | pdGroup (g : ℕ)
  | slave (s : ℕ)
  /-- Bytes of the static data of the object. -/
  | data (pos len : ℕ)
  /-- `entry_desc[i]` of the object. -/
  | entry (i : ℕ)
deriving DecidableEq

structure Reply where
  ret : Ret
  len : ℕ
  written : List UInt8
  touched : List Access
deriving DecidableEq

/-! ## The master -/

structure PdGroup where
  log : UInt32
  logLen : UInt32
  pdoutLen : UInt64
  pdinLen : UInt64
  overlapping : UInt32
  useLrw : UInt32
  wkcExpectedLrw : UInt16
  wkcExpectedLrd : UInt16
  wkcExpectedLwr : UInt16
  recvMissedLrw : UInt32
  recvMissedLrd : UInt32
  recvMissedLwr : UInt32
  divisor : UInt32

structure DcInfo where
  useDc : UInt32
  next : UInt32
  prev : UInt32
  receiveTimes : ℕ → UInt32
  activationReg : UInt32
  cycleTime0 : UInt32
  cycleTime1 : UInt32
  cycleShift : UInt32

structure Slave where
  fixedAddress : UInt16
  assignedPdGroup : ℤ
  mbxSupported : UInt16
  smLen : ℕ → UInt16
  activePorts : UInt8
  pdelay : UInt32
  dc : DcInfo

/-- The master, with the bytes of `data_master_0xF002`, the only data that can be written. What lies
behind the first `pdGroupCnt` groups and `slaveCnt` slaves is whatever is there in memory. -/
structure Master where
  pdGroupCnt : ℕ
  pdGroups : ℕ → PdGroup
  slaveCnt : ℕ
  slaves : ℕ → Slave
  detectModules : Fin 11 → UInt8

/-- What comes from outside: the version the library was built as, which is not empty, and the
answers of the slaves. `sdoRead` is `ec_coe_sdo_read` for a slave that exists, with the length of
the buffer, and gives the new `*len` and the bytes written; `fprd` gives the working counter and the
bytes written for a register of a station address. -/
structure Env where
  version : List UInt8
  version_ne : version ≠ []
  sdoRead : ℕ → UInt16 → UInt8 → Bool → ℕ → Ret × ℕ × List UInt8
  fprd : UInt16 → UInt16 → UInt16 × List UInt8

/-! ## Callbacks -/

/-- The first `n` bytes of a number in memory. -/
def leBytes (n v : ℕ) : List UInt8 := (List.range n).map fun i => UInt8.ofNat (v / 256 ^ i)

/-- `BUF_PUT` of a value of `n` bytes that lies in what is `touched`. -/
def bufPut (len n v : ℕ) (touched : List Access) : Reply :=
  if n ≤ len then ⟨.ok, n, leBytes n v, touched⟩ else ⟨.ok, len, [], []⟩

/-- `ec_coe_sdo_read`, which looks for the slave first. -/
def ecCoeSdoRead (env : Env) (pec : Master) (slave : ℕ) (index : UInt16) (subIndex : UInt8)
    (complete : Bool) (len : ℕ) : Reply :=
  if pec.slaveCnt ≤ slave then ⟨.slaveNotFound, len, [], []⟩
  else
    let r := env.sdoRead slave index subIndex complete len
    ⟨r.1, r.2.1, r.2.2, [.slave slave]⟩

/-- `ec_fprd` of a register of the slave into `buf`. -/
def fprdReply (env : Env) (pec : Master) (slave : ℕ) (register : UInt16) (len : ℕ) : Reply :=
  if 2 ≤ len then
    let r := env.fprd (pec.slaves slave).fixedAddress register
    ⟨.ok, if r.1 ≠ 0 then 2 else len, r.2, [.slave slave]⟩
  else ⟨.ok, len, [], []⟩

abbrev Callback := Env → Master → UInt16 → UInt8 → Bool → ℕ → Reply

/-- `(index & 0x00FEu) >> 1u` -/
def groupOf (index : UInt16) : ℕ := ((index &&& 0x00FE) >>> 1).toNat

/-- `index & 0x0FFFu` -/
def slaveOf (index : UInt16) : ℕ := (index &&& 0x0FFF).toNat

def callbackMaster0x20nn : Callback := fun _ pec index subIndex _ len =>
  let group := groupOf index
  let pd := pec.pdGroups group
  match subIndex.toNat with
  | 0 => bufPut len 1 11 []
  | 1 => bufPut len 4 pd.log.toNat [.pdGroup group]
  | 2 => bufPut len 4 pd.logLen.toNat [.pdGroup group]
  | 3 => bufPut len 4 pd.pdoutLen.toNat [.pdGroup group]
  | 4 => bufPut len 4 pd.pdinLen.toNat [.pdGroup group]
  | 5 => bufPut len 1 pd.overlapping.toNat [.pdGroup group]
  | 6 => bufPut len 1 pd.useLrw.toNat [.pdGroup group]
  | 7 => bufPut len 2 pd.wkcExpectedLrw.toNat [.pdGroup group]
  | 8 => bufPut len 2 pd.wkcExpectedLrd.toNat [.pdGroup group]
  | 9 => bufPut len 2 pd.wkcExpectedLwr.toNat [.pdGroup group]
  | 10 => bufPut len 4 pd.recvMissedLrw.toNat [.pdGroup group]
  | 11 => bufPut len 4 pd.recvMissedLrd.toNat [.pdGroup group]
  | 12 => bufPut len 4 pd.recvMissedLwr.toNat [.pdGroup group]
  | 13 => bufPut len 4 pd.divisor.toNat [.pdGroup group]
  | _ => ⟨.coeSubindexNotFound, len, [], []⟩

/-- The loop over the slaves, with `value`, from `slave` on for `n` slaves; `needValue` is the one
to be put. -/
def assignedSlaves (pec : Master) (group : ℕ) (needValue : ℤ) (subIndex : UInt8) :
    ℕ → ℕ → ℤ × Reply → ℤ × Reply
  | 0, _, st => st
  | n + 1, slave, (value, r) =>
    let r := { r with touched := r.touched ++ [.slave slave] }
    if (pec.slaves slave).assignedPdGroup = (group : ℤ) then
      let value := value + 1
      let r :=
        if 0 < subIndex ∧ value = needValue then
          let put := bufPut r.len 2 slave []
          ⟨.ok, put.len, if 2 ≤ r.len then put.written else r.written, r.touched⟩
        else r
      assignedSlaves pec group needValue subIndex n (slave + 1) (value, r)
    else assignedSlaves pec group needValue subIndex n (slave + 1) (value, r)

def callbackMaster0x20nm : Callback := fun _ pec index subIndex _ len =>
  let st := assignedSlaves pec (groupOf index) ((subIndex.toNat : ℤ) - 1) subIndex pec.slaveCnt 0
    (-1, ⟨.ok, len, [], []⟩)
  if subIndex = 0 then
    if 1 ≤ st.2.len then
      { st.2 with len := 1, written := [UInt8.ofNat (st.1 + 1).toNat] }
    else st.2
  else st.2

def callbackMaster0x3nnn : Callback := fun _ pec index subIndex _ len =>
  let slave := slaveOf index
  let slv := pec.slaves slave
  match subIndex.toNat with
  | 0 => bufPut len 1 13 []
  | 1 => bufPut len 1 slv.dc.useDc.toNat [.slave slave]
  | 2 => bufPut len 4 slv.dc.next.toNat [.slave slave]
  | 3 => bufPut len 4 slv.dc.prev.toNat [.slave slave]
  | 4 => bufPut len 1 slv.activePorts.toNat [.slave slave]
  | 5 => bufPut len 4 (slv.dc.receiveTimes 0).toNat [.slave slave]
  | 6 => bufPut len 4 (slv.dc.receiveTimes 1).toNat [.slave slave]
  | 7 => bufPut len 4 (slv.dc.receiveTimes 2).toNat [.slave slave]
  | 8 => bufPut len 4 (slv.dc.receiveTimes 3).toNat [.slave slave]
  | 9 => bufPut len 1 slv.dc.activationReg.toNat [.slave slave]
  | 10 => bufPut len 4 slv.dc.cycleTime0.toNat [.slave slave]
  | 11 => bufPut len 4 slv.dc.cycleTime1.toNat [.slave slave]
  | 12 => bufPut len 4 slv.dc.cycleShift.toNat [.slave slave]
  | 13 => bufPut len 4 slv.pdelay.toNat [.slave slave]
  | _ => ⟨.coeSubindexNotFound, len, [], []⟩

/-- A value that a slave with a mailbox is asked for. -/
def mailboxValue (env : Env) (pec : Master) (slave : ℕ) (index : UInt16) (complete : Bool)
    (len : ℕ) : Reply :=
  if (pec.slaves slave).mbxSupported ≠ 0 then
    let r := ecCoeSdoRead env pec slave index 0 complete len
    { r with touched := .slave slave :: r.touched }
  else ⟨.ok, 0, [], [.slave slave]⟩

/-- `sm[i].len`, or 0 for a slave without a mailbox. -/
def mailboxSize (pec : Master) (slave i len : ℕ) : Reply :=
  if 2 ≤ len then
    let slv := pec.slaves slave
    if slv.mbxSupported ≠ 0 then ⟨.ok, 2, leBytes 2 (slv.smLen i).toNat, [.slave slave]⟩
    else ⟨.ok, 2, [0, 0], [.slave slave]⟩
  else ⟨.ok, len, [], []⟩

def callbackMaster0x8nnn : Callback := fun env pec index subIndex complete len =>
  let slave := slaveOf index
  match subIndex.toNat with
  | 0 => bufPut len 1 35 []
  | 1 =>
    if 2 ≤ len then
      ⟨.ok, 2, leBytes 2 (pec.slaves slave).fixedAddress.toNat, [.slave slave]⟩
    else ⟨.ok, 0, [], []⟩
  | 2 => mailboxValue env pec slave 0x1008 complete len
  | 3 => mailboxValue env pec slave 0x1008 complete len
  | 4 => mailboxValue env pec slave 0x1000 complete len
  | 5 => ecCoeSdoRead env pec slave 0x1018 1 complete len
  | 6 => ecCoeSdoRead env pec slave 0x1018 2 complete len
  | 7 => ecCoeSdoRead env pec slave 0x1018 3 complete len
  | 8 => ecCoeSdoRead env pec slave 0x1018 4 complete len
  | 33 => mailboxSize pec slave 0 len
  | 34 => mailboxSize pec slave 1 len
  | _ => ⟨.coeSubindexNotFound, len, [], []⟩

def callbackMaster0x9nnn : Callback := fun env pec index subIndex complete len =>
  let slave := slaveOf index
  match subIndex.toNat with
  | 0 => bufPut len 1 32 []
  | 1 => bufPut len 2 (pec.slaves slave).fixedAddress.toNat [.slave slave]
  | 5 => ecCoeSdoRead env pec slave 0x1018 1 complete len
  | 6 => ecCoeSdoRead env pec slave 0x1018 2 complete len
  | 7 => ecCoeSdoRead env pec slave 0x1018 3 complete len
  | 8 => ecCoeSdoRead env pec slave 0x1018 4 complete len
  | 32 => fprdReply env pec slave 0x110 len
  | _ => ⟨.mailboxAbort, len, [], []⟩

def callbackMaster0xAnnn : Callback := fun env pec index subIndex _ len =>
  let slave := slaveOf index
  match subIndex.toNat with
  | 0 => bufPut len 1 2 []
  | 1 => fprdReply env pec slave 0x130 len
  | 2 => fprdReply env pec slave 0x120 len
  | _ => ⟨.mailboxAbort, len, [], []⟩

def callbackMaster0xF0nn : Callback := fun _ pec index subIndex _ len =>
  let slaveRange := (index &&& 0x000F).toNat
  let slave := (slaveRange * 255 + (subIndex.toNat + 65535)) % 65536
  if 2 ≤ len then
    if subIndex = 0 then ⟨.ok, 1, leBytes 2 pec.slaveCnt, []⟩
    else if slave < pec.slaveCnt then
      ⟨.ok, 2, leBytes 2 (pec.slaves slave).fixedAddress.toNat, [.slave slave]⟩
    else ⟨.ok, 2, [0, 0], []⟩
  else ⟨.ok, len, [], []⟩

/-! ## Objects -/

/-- Of an object: `max_subindices`, the bit lengths of its entry descriptors, its static data or its
callback. -/
structure Object where
  index : UInt16
  indexMask : UInt16
  maxSubindices : ℕ
  bitLengths : List ℕ
  data : Option (List UInt8)
  read : Option Callback

/-- An object with data, under one index. -/
def Object.static (index : UInt16) (maxSubindices : ℕ) (bitLengths : List ℕ)
    (data : List UInt8) : Object := ⟨index, 0xFFFF, maxSubindices, bitLengths, some data, none⟩

/-- A string with its final zero, as an object without subindices. -/
def Object.string (index : UInt16) (s : List UInt8) : Object :=
  .static index 0 [s.length * 8 % 65536] (s ++ [0])

/-- `LIBETHERCAT_PACKAGE_NAME`, "libethercat". -/
def packageName : List UInt8 := [108, 105, 98, 101, 116, 104, 101, 114, 99, 97, 116]

/-- `HW_VERSION`, "0.0.0". -/
def hwVersion : List UInt8 := [48, 46, 48, 46, 48]

def bitLengths0x20nn : List ℕ := [8, 32, 32, 32, 32, 8, 8, 16, 16, 16, 32, 32, 32, 32]

def bitLengths0x3nnn : List ℕ := [8, 8, 32, 32, 8, 32, 32, 32, 32, 8, 32, 32, 32, 32]

def bitLengths0x8nnn : List ℕ :=
  [8, 16, 8, 8, 32, 32, 32, 32, 32] ++ List.replicate 24 0 ++ [16, 16, 8]

def bitLengths0x9nnn : List ℕ :=
  [8, 16, 0, 0, 0, 32, 32, 32, 32] ++ List.replicate 23 0 ++ [16]

/-- `ec_coe_master_dict`, without its end mark. -/
def dict (env : Env) (pec : Master) : List Object :=
  [.static 0x1000 0 [32] (leBytes 4 0),
    .string 0x1008 packageName,
    .string 0x1009 hwVersion,
    .string 0x100A env.version,
    .static 0x1018 4 [8, 32, 32, 32, 32]
      (leBytes 2 4 ++ leBytes 4 0x1616 ++ leBytes 4 0x11BECA7 ++ leBytes 4 0 ++ leBytes 4 0),
    ⟨0x2000, 0xFF01, 13, bitLengths0x20nn, none, some callbackMaster0x20nn⟩,
    ⟨0x2001, 0xFF01, 255, [8, 16], none, some callbackMaster0x20nm⟩,
    ⟨0x3000, 0xF000, 13, bitLengths0x3nnn, none, some callbackMaster0x3nnn⟩,
    ⟨0x8000, 0xF000, 35, bitLengths0x8nnn, none, some callbackMaster0x8nnn⟩,
    ⟨0x9000, 0xF000, 32, bitLengths0x9nnn, none, some callbackMaster0x9nnn⟩,
    ⟨0xA000, 0xF000, 2, [8, 16, 16], none, some callbackMaster0xAnnn⟩,
    .static 0xF000 4 [8, 16, 16, 32, 32]
      (leBytes 2 4 ++ leBytes 2 1 ++ leBytes 2 4080 ++ leBytes 4 0xFF ++ leBytes 4 0xF1),
    .static 0xF002 3 [8, 16, 8, 48] (List.ofFn pec.detectModules),
    ⟨0xF020, 0xFFF0, 255, [8, 16], none, some callbackMaster0xF0nn⟩,
    ⟨0xF040, 0xFFF0, 255, [8, 16], none, some callbackMaster0xF0nn⟩]

/-- `ec_coe_master_get_object`: the first object that the index matches. -/
def getObject (env : Env) (pec : Master) (index : UInt16) : Option Object :=
  (dict env pec).find? fun o => o.index == index &&& o.indexMask

/-- The bytes of an entry, `entry_desc[i].bit_length >> 3`. -/
def Object.entryLen (o : Object) (i : ℕ) : ℕ := o.bitLengths.getD i 0 / 8

/-- `ec_coe_master_get_object_length`, with the entries it looks at. -/
def getObjectLength (o : Object) (withSubIndex0 : Bool) : ℕ × List Access :=
  ((if withSubIndex0 then 2 else 0) + ((List.range' 1 o.maxSubindices).map o.entryLen).sum,
    (List.range' 1 o.maxSubindices).map Access.entry)

/-- Where the data of an entry starts; subindex 0 is stored in two bytes. -/
def Object.entryPos (o : Object) (subIndex : ℕ) : ℕ :=
  if subIndex = 0 then 0 else 2 + ((List.range' 1 (subIndex - 1)).map o.entryLen).sum

/-- `ec_coe_master_get_object_data`: position and length of what is read, and the entries looked
at. -/
def getObjectData (o : Object) (subIndex : ℕ) (complete : Bool) :
    Option (ℕ × ℕ) × List Access :=
  if !complete then
    if subIndex ≤ o.maxSubindices then
      (some (o.entryPos subIndex, o.entryLen subIndex),
        (List.range' 1 (subIndex - 1)).map Access.entry ++ [.entry subIndex])
    else (none, [])
  else
    let r := getObjectLength o (subIndex = 0)
    (some (if subIndex ≠ 0 then 2 else 0, r.1), r.2)

/-- A read of static data. -/
def staticRead (o : Object) (data : List UInt8) (subIndex : ℕ) (complete : Bool) (len : ℕ) :
    Reply :=
  match getObjectData o subIndex complete with
  | (none, touched) => ⟨.mailboxAbort, len, [], touched⟩
  | (some (pos, dataLen), touched) =>
    if dataLen ≤ len then
      ⟨.ok, dataLen, (data.drop pos).take dataLen, touched ++ [.data pos dataLen]⟩
    else ⟨.ok, dataLen, [], touched⟩

/-- `ec_coe_master_sdo_read` -/
def ecCoeMasterSdoRead (env : Env) (pec : Master) (index : UInt16) (subIndex : UInt8)
    (complete : Bool) (len : ℕ) : Reply :=
  match getObject env pec index with
  | none => ⟨.coeIndexNotFound, len, [], []⟩
  | some o =>
    match o.read, o.data with
    | some read, _ => read env pec index subIndex complete len
    | none, some data => staticRead o data subIndex.toNat complete len
    | none, none => ⟨.mailboxAbort, len, [], []⟩

/-- A bus without answers. -/
def silentEnv : Env where
  version := hwVersion
  version_ne := by decide
  sdoRead _ _ _ _ len := (.mailboxTimeout, len, [])
  fprd _ _ := (0, [])

end LibEthercat.CoeMaster
