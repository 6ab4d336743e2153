import LibEthercat.Lib.Loop

/-!
# Logical mapping of the process data

The part of `ec.c` that lays out the process data of a group: `ec_create_pd_groups`,
`ec_create_logical_mapping_overlapping`, `ec_create_logical_mapping`, and the choice between the
two that `ec_set_state` makes on the way to SAFEOP.

A pointer into `pd->pd[]` is its offset from `&pd->pd[0]`, and `none` is `NULL`. The lists `sm`
and `fmmu` of a slave are the first `sm_ch` and `fmmu_ch` entries of the arrays of the source.
Addresses, lengths and working counters are natural numbers; `Mapping/Bounds` shows that none of
them leaves its C type when the arrays have the sizes the source gives them.
-/

namespace LibEthercat

/-! ## Data -/

def lecMaxSlaves : ℕ := 256
def lecMaxGroups : ℕ := 8
def lecMaxPdlen : ℕ := 3036
def lecMaxSlaveSm : ℕ := 8
def lecMaxSlaveFmmu : ℕ := 8
def ecRegSm1stat : UInt16 := 0x080D
def ecRegEscsupNotSuppLrw : UInt16 := 0x0200

/-- A piece of the process data of a group. -/
structure EcPd where
  pd : Option ℕ
  len : ℕ
  deriving DecidableEq, Repr

structure EcSlaveSm where
  adr : UInt16
  len : UInt16
  flags : UInt32
  deriving DecidableEq, Repr

structure EcSlaveFmmu where
  log : ℕ
  logLen : UInt16
  logBitStart : UInt8
  logBitStop : UInt8
  phys : UInt16
  physBitStart : UInt8
  type : UInt8
  active : UInt8
  deriving DecidableEq, Repr

structure EcSlaveSubdev where
  pdin : EcPd
  pdout : EcPd
  deriving DecidableEq, Repr

/-- The slave's mailbox as far as the mapping is concerned; `smState` says whether the pointer
`sm_state` is set. -/
structure EcSlaveMbx where
  smStateBitno : ℕ
  smState : Bool
  deriving DecidableEq, Repr

structure EcSlave where
  features : UInt16
  mbxSupported : UInt16
  sm : List EcSlaveSm
  fmmu : List EcSlaveFmmu
  assignedPdGroup : ℤ
  pdin : EcPd
  pdout : EcPd
  subdevs : List EcSlaveSubdev
  mbx : EcSlaveMbx
  deriving DecidableEq, Repr

structure EcPdGroup where
  group : ℕ
  log : ℕ
  logLen : ℕ
  pd : Fin lecMaxPdlen → UInt8
  pdoutLen : ℕ
  pdinLen : ℕ
  pdLrwLen : ℕ
  useLrw : ℤ
  overlapping : ℤ
  skipPdOnWkcMismatch : ℤ
  wkcExpectedLrw : ℕ
  wkcExpectedLrd : ℕ
  wkcExpectedLwr : ℕ
  logMbxState : ℕ
  logMbxStateLen : ℕ
  wkcExpectedMbxState : ℕ

/-- A slave after the scan and before any mapping, with what the mapping reads. -/
def EcSlave.scanned (assignedPdGroup : ℤ) (mbxSupported : UInt16) (sm : List EcSlaveSm)
    (fmmuCh : ℕ) : EcSlave where
  features := 0
  mbxSupported := mbxSupported
  sm := sm
  fmmu := List.replicate fmmuCh ⟨0, 0, 0, 0, 0, 0, 0, 0⟩
  assignedPdGroup := assignedPdGroup
  pdin := ⟨none, 0⟩
  pdout := ⟨none, 0⟩
  subdevs := []
  mbx := ⟨0, true⟩

/-- A group in zeroed memory. -/
def EcPdGroup.zero : EcPdGroup where
  group := 0
  log := 0
  logLen := 0
  pd _ := 0
  pdoutLen := 0
  pdinLen := 0
  pdLrwLen := 0
  useLrw := 0
  overlapping := 0
  skipPdOnWkcMismatch := 0
  wkcExpectedLrw := 0
  wkcExpectedLrd := 0
  wkcExpectedLwr := 0
  logMbxState := 0
  logMbxStateLen := 0
  wkcExpectedMbxState := 0

/-- The master, as far as the mapping is concerned. -/
structure Ec where
  slaves : List EcSlave
  pdGroups : List EcPdGroup

/-! ## Groups -/

/-- What `ec_create_pd_groups` writes to group `i`; the other fields keep their values. -/
def EcPdGroup.create (pd : EcPdGroup) (i : ℕ) : EcPdGroup :=
  { pd with
    group := i
    log := 0x10000 * (i + 1)
    logLen := 0
    pdoutLen := 0
    pdinLen := 0
    useLrw := 1
    overlapping := 1
    skipPdOnWkcMismatch := 0
    logMbxState := 0x9000000 + i * 1000
    logMbxStateLen := 0
    wkcExpectedMbxState := 0 }

/-- The group array is `arr`, of which `pd_group_cnt` entries are in use afterwards. -/
def ecCreatePdGroups (pec : Ec) (arr : List EcPdGroup) (pdGroupCnt : ℕ) : Ec :=
  { pec with pdGroups := (arr.take pdGroupCnt).mapIdx fun i pd => pd.create i }

/-! ## Sync managers and groups of a slave -/

def EcSlaveSm.isOutput (sm : EcSlaveSm) : Bool := sm.flags &&& 4 != 0

def EcSlaveSm.isEmpty (sm : EcSlaveSm) : Bool := sm.len == 0

/-- The sync managers from `start_sm` on. -/
def EcSlave.pdSm (slv : EcSlave) : List EcSlaveSm :=
  slv.sm.drop (if slv.mbxSupported ≠ 0 then 2 else 0)

def EcSlave.inGroup (group : ℕ) (slv : EcSlave) : Bool := slv.assignedPdGroup == (group : ℤ)

/-- The bytes of all output sync managers of a list. -/
def outLen (sms : List EcSlaveSm) : ℕ :=
  ((sms.filter fun sm => sm.isOutput).map fun sm => sm.len.toNat).sum

/-- The bytes of all input sync managers of a list. -/
def inLen (sms : List EcSlaveSm) : ℕ :=
  ((sms.filter fun sm => !sm.isOutput).map fun sm => sm.len.toNat).sum

/-! ## The loop over the sync managers of a slave -/

/-- The locals of the loop over the sync managers; `wkc` is what the function at hand counts. -/
@[ext] structure SmLocals (ω : Type) where
  fmmuNext : ℕ
  pdout : ℕ
  pdin : ℕ
  logBaseOut : ℕ
  logBaseIn : ℕ
  wkc : ω

/-- Where the two mapping functions differ in the loop over the sync managers: how they count
an output and an input, and which pointers the sub devices are placed at. -/
structure SmLoop (ω : Type) where
  countOut : ω → ω
  countIn : ω → ω
  subdevPdout : SmLocals ω → ℕ
  subdevPdin : SmLocals ω → ℕ

/-- The settings of a process data FMMU. `log_bit_start` and `phys_bit_start` are not written. -/
def EcSlaveFmmu.mapSm (fmmu : EcSlaveFmmu) (log : ℕ) (type : UInt8) (sm : EcSlaveSm) :
    EcSlaveFmmu :=
  { fmmu with log := log, logLen := sm.len, logBitStop := 7, phys := sm.adr, type := type,
              active := 1 }

/-- `pd.pd` is latched by the first sync manager, the length adds up. -/
def EcPd.add (pd : EcPd) (p : ℕ) (len : ℕ) : EcPd :=
  if pd.len = 0 then ⟨some p, len⟩ else { pd with len := pd.len + len }

/-- The outputs of the sub devices one after the other from `p` on. -/
def mapSubdevsOut (p : ℕ) (subdevs : List EcSlaveSubdev) : List EcSlaveSubdev :=
  (Loop.thread (fun pdoff sub =>
    (pdoff + sub.pdout.len, { sub with pdout.pd := some (p + pdoff) })) 0 subdevs).2

/-- The inputs of the sub devices one after the other from `p` on. -/
def mapSubdevsIn (p : ℕ) (subdevs : List EcSlaveSubdev) : List EcSlaveSubdev :=
  (Loop.thread (fun pdoff sub =>
    (pdoff + sub.pdin.len, { sub with pdin.pd := some (p + pdoff) })) 0 subdevs).2

section SmLoop

variable {ω : Type} (m : SmLoop ω)

/-- The branch of an output sync manager. -/
def mapOutputSm (l : SmLocals ω) (slv : EcSlave) (sm : EcSlaveSm) : SmLocals ω × EcSlave :=
  let next := { l with fmmuNext := l.fmmuNext + 1, pdout := l.pdout + sm.len.toNat,
                       logBaseOut := l.logBaseOut + sm.len.toNat }
  if l.fmmuNext < slv.fmmu.length then
    ({ next with wkc := m.countOut l.wkc },
     { slv with
       fmmu := slv.fmmu.modify l.fmmuNext fun f => f.mapSm l.logBaseOut 2 sm
       pdout := slv.pdout.add l.pdout sm.len.toNat
       subdevs := mapSubdevsOut (m.subdevPdout l) slv.subdevs })
  else
    (next, slv)

/-- The branch of an input sync manager. -/
def mapInputSm (l : SmLocals ω) (slv : EcSlave) (sm : EcSlaveSm) : SmLocals ω × EcSlave :=
  let next := { l with fmmuNext := l.fmmuNext + 1, pdin := l.pdin + sm.len.toNat,
                       logBaseIn := l.logBaseIn + sm.len.toNat }
  if l.fmmuNext < slv.fmmu.length then
    ({ next with wkc := m.countIn l.wkc },
     { slv with
       fmmu := slv.fmmu.modify l.fmmuNext fun f => f.mapSm l.logBaseIn 1 sm
       pdin := slv.pdin.add l.pdin sm.len.toNat
       subdevs := mapSubdevsIn (m.subdevPdin l) slv.subdevs })
  else
    (next, slv)

/-- One pass of the loop over the sync managers: empty ones are skipped. -/
def mapSm (s : SmLocals ω × EcSlave) (sm : EcSlaveSm) : SmLocals ω × EcSlave :=
  if sm.isEmpty then s
  else if sm.isOutput then mapOutputSm m s.1 s.2 sm
  else mapInputSm m s.1 s.2 sm

def mapSms (l : SmLocals ω) (slv : EcSlave) : SmLocals ω × EcSlave :=
  slv.pdSm.foldl (mapSm m) (l, slv)

end SmLoop

/-! ## The state of the read mailbox -/

/-- The FMMU that shows bit 3 of the status of sync manager 1 at bit `bitlen` of the mailbox
state window. -/
def EcSlaveFmmu.mapMbxState (fmmu : EcSlaveFmmu) (logMbxState bitlen : ℕ) : EcSlaveFmmu :=
  { fmmu with
    log := logMbxState + bitlen / 8
    logLen := 1
    logBitStart := UInt8.ofNat (bitlen % 8)
    logBitStop := UInt8.ofNat (bitlen % 8)
    physBitStart := 3
    phys := ecRegSm1stat
    type := 1
    active := 1 }

/-- The mailbox part of a slave; the result counts the bits taken. -/
def mapMbxState (logMbxState bitlen fmmuNext : ℕ) (slv : EcSlave) : ℕ × EcSlave :=
  if slv.mbxSupported ≠ 0 then
    if fmmuNext < slv.fmmu.length then
      (1, { slv with
            fmmu := slv.fmmu.modify fmmuNext fun f => f.mapMbxState logMbxState bitlen
            mbx.smStateBitno := bitlen })
    else
      (0, { slv with mbx.smState := false })
  else
    (0, slv)

/-! ## Overlapping mapping -/

namespace Overlapping

/-- The locals of the loop over the slaves, with the two working counters it adds up in the
group. -/
structure Locals where
  pdout : ℕ
  pdin : ℕ
  logBase : ℕ
  mbxStateBitlen : ℕ
  wkcExpectedLrw : ℕ
  wkcExpectedMbxState : ℕ

/-- One bit for outputs, one for inputs; sub devices start at the slave's own process data. -/
def smLoop (c : Locals) : SmLoop ℕ where
  countOut wkc := wkc ||| 2
  countIn wkc := wkc ||| 1
  subdevPdout _ := c.pdout
  subdevPdin _ := c.pdin

def smLocals (c : Locals) : SmLocals ℕ := ⟨0, c.pdout, c.pdin, c.logBase, c.logBase, 0⟩

/-- One pass of the loop over the slaves of the group. -/
def mapSlave (logMbxState : ℕ) (c : Locals) (slv : EcSlave) : Locals × EcSlave :=
  let r := mapSms (smLoop c) (smLocals c) slv
  let b := mapMbxState logMbxState c.mbxStateBitlen r.1.fmmuNext r.2
  ({ pdout := c.pdout + max b.2.pdin.len b.2.pdout.len
     pdin := c.pdin + max b.2.pdin.len b.2.pdout.len
     logBase := max r.1.logBaseIn r.1.logBaseOut
     mbxStateBitlen := c.mbxStateBitlen + b.1
     wkcExpectedLrw := c.wkcExpectedLrw + r.1.wkc
     wkcExpectedMbxState := c.wkcExpectedMbxState + b.1 }, b.2)

/-- The bytes a slave takes in the group: outputs and inputs lie in the same memory. -/
def slaveLen (slv : EcSlave) : ℕ := max (outLen slv.pdSm) (inLen slv.pdSm)

/-- The bytes of all slaves of the group. -/
def groupLen (group : ℕ) (slaves : List EcSlave) : ℕ :=
  ((slaves.filter (EcSlave.inGroup group)).map slaveLen).sum

end Overlapping

def ecCreateLogicalMappingOverlapping (group : ℕ) (pd : EcPdGroup) (slaves : List EcSlave) :
    EcPdGroup × List EcSlave :=
  let len := Overlapping.groupLen group slaves
  let r := Loop.threadIf (EcSlave.inGroup group) (Overlapping.mapSlave pd.logMbxState)
    { pdout := 0, pdin := len, logBase := pd.log, mbxStateBitlen := 0, wkcExpectedLrw := 0,
      wkcExpectedMbxState := 0 } slaves
  ({ pd with
     pdoutLen := len
     pdinLen := len
     pdLrwLen := len
     logLen := max len len
     wkcExpectedLrw := r.1.wkcExpectedLrw
     wkcExpectedMbxState := r.1.wkcExpectedMbxState
     logMbxStateLen := (r.1.mbxStateBitlen + 7) / 8 }, r.2)

/-! ## Mapping without overlap -/

namespace Separate

/-- The locals of the loop over the slaves, with the working counters it adds up in the group. -/
structure Locals where
  pdout : ℕ
  pdin : ℕ
  logBaseOut : ℕ
  logBaseIn : ℕ
  mbxStateBitlen : ℕ
  wkcExpectedLrd : ℕ
  wkcExpectedLwr : ℕ
  wkcExpectedLrw : ℕ
  wkcExpectedMbxState : ℕ

/-- The two counters of a slave. -/
structure Wkc where
  lrd : ℕ
  lwr : ℕ

/-- Every sync manager counts; sub devices start at the sync manager at hand. -/
def smLoop : SmLoop Wkc where
  countOut wkc := { wkc with lwr := wkc.lwr + 1 }
  countIn wkc := { wkc with lrd := wkc.lrd + 1 }
  subdevPdout l := l.pdout
  subdevPdin l := l.pdin

def smLocals (c : Locals) : SmLocals Wkc :=
  ⟨0, c.pdout, c.pdin, c.logBaseOut, c.logBaseIn, ⟨0, 0⟩⟩

/-- One pass of the loop over the slaves of the group. -/
def mapSlave (logMbxState : ℕ) (c : Locals) (slv : EcSlave) : Locals × EcSlave :=
  let r := mapSms smLoop (smLocals c) slv
  let b := mapMbxState logMbxState c.mbxStateBitlen r.1.fmmuNext r.2
  ({ pdout := r.1.pdout
     pdin := r.1.pdin
     logBaseOut := r.1.logBaseOut
     logBaseIn := r.1.logBaseIn
     mbxStateBitlen := c.mbxStateBitlen + b.1
     wkcExpectedLrd := c.wkcExpectedLrd + r.1.wkc.lrd
     wkcExpectedLwr := c.wkcExpectedLwr + r.1.wkc.lwr
     wkcExpectedLrw := c.wkcExpectedLrw + (r.1.wkc.lrd + 2 * r.1.wkc.lwr)
     wkcExpectedMbxState := c.wkcExpectedMbxState + b.1 }, b.2)

def groupOutLen (group : ℕ) (slaves : List EcSlave) : ℕ :=
  ((slaves.filter (EcSlave.inGroup group)).map fun slv => outLen slv.pdSm).sum

def groupInLen (group : ℕ) (slaves : List EcSlave) : ℕ :=
  ((slaves.filter (EcSlave.inGroup group)).map fun slv => inLen slv.pdSm).sum

end Separate

/-- `wkc_expected_lwr` is not set to zero first: it starts from what the group has. -/
def ecCreateLogicalMapping (group : ℕ) (pd : EcPdGroup) (slaves : List EcSlave) :
    EcPdGroup × List EcSlave :=
  let pdoutLen := Separate.groupOutLen group slaves
  let pdinLen := Separate.groupInLen group slaves
  let r := Loop.threadIf (EcSlave.inGroup group) (Separate.mapSlave pd.logMbxState)
    { pdout := 0, pdin := pdoutLen, logBaseOut := pd.log, logBaseIn := pd.log + pdoutLen,
      mbxStateBitlen := 0, wkcExpectedLrd := 0, wkcExpectedLwr := pd.wkcExpectedLwr,
      wkcExpectedLrw := 0, wkcExpectedMbxState := 0 } slaves
  ({ pd with
     pdoutLen := pdoutLen
     pdinLen := pdinLen
     logLen := pdoutLen + pdinLen
     wkcExpectedLrd := r.1.wkcExpectedLrd
     wkcExpectedLwr := r.1.wkcExpectedLwr
     wkcExpectedLrw := r.1.wkcExpectedLrw
     wkcExpectedMbxState := r.1.wkcExpectedMbxState
     logMbxStateLen := (r.1.mbxStateBitlen + 7) / 8 }, r.2)

/-! ## The mapping in `ec_set_state` -/

/-- A slave of the group that cannot do LRW switches it off, and overlapping needs LRW. -/
def EcPdGroup.chooseMode (group : ℕ) (slaves : List EcSlave) (pd : EcPdGroup) : EcPdGroup :=
  let useLrw :=
    if slaves.any fun slv => slv.inGroup group &&
        (slv.features &&& ecRegEscsupNotSuppLrw == ecRegEscsupNotSuppLrw) then 0
    else pd.useLrw
  { pd with
    useLrw := useLrw
    overlapping := if useLrw = 0 then 0 else pd.overlapping }

/-- The mapping of one group on the way to SAFEOP. -/
def ecSetStateMapping (group : ℕ) (pd : EcPdGroup) (slaves : List EcSlave) :
    EcPdGroup × List EcSlave :=
  let pd := pd.chooseMode group slaves
  if pd.overlapping ≠ 0 then ecCreateLogicalMappingOverlapping group pd slaves
  else ecCreateLogicalMapping group pd slaves

/-- Apply a mapping function to a group of the master (`pec->pd_groups[group]`). -/
def Ec.onGroup (f : ℕ → EcPdGroup → List EcSlave → EcPdGroup × List EcSlave) (pec : Ec)
    (group : ℕ) : Ec :=
  match pec.pdGroups[group]? with
  | some pd =>
    let r := f group pd pec.slaves
    { slaves := r.2, pdGroups := pec.pdGroups.set group r.1 }
  | none => pec

/-- The loop over the groups on the way to SAFEOP. -/
def Ec.setStateMapping (pec : Ec) : Ec :=
  (List.range pec.pdGroups.length).foldl (Ec.onGroup ecSetStateMapping) pec

end LibEthercat
