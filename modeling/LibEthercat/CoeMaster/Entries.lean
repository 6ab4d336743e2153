import LibEthercat.CoeMaster.Confined

/-!
# The entries behind the callbacks

`ec_coe_master_sdo_read` should return `EC_OK` only with the whole value and its size, and for a
buffer that is too small an error and the size that is needed (`Contract`). `BUF_PUT` does nothing
for a small buffer, and the callbacks return `EC_OK`.

What the dictionary has under an index and a subindex is an `Entry`, and each callback gives what
its entry says. So the contract is a question about entries (`Entry.Gives.contract_iff`), and for
complete access, of which the callbacks do not know, about which of them are refused.
-/

namespace LibEthercat.CoeMaster

variable {env : Env} {pec : Master} {len : ℕ}

/-! ## The contract -/

/-- What slaves hold, by slave, index and subindex. -/
abbrev Held := ℕ → UInt16 → UInt8 → Option (List UInt8)

/-- `EC_OK` with the whole value and its size only, and the size that is needed for a buffer that is
too small. -/
structure Contract (value : Option (List UInt8)) (len : ℕ) (r : Reply) : Prop where
  ok : r.ret = .ok → ∃ v, value = some v ∧ v <+: r.written ∧ r.len = v.length
  small : ∀ v, value = some v → len < v.length → r.ret ≠ .ok ∧ r.len = v.length ∧ r.written = []

/-- What the dictionary has under an index and a subindex. -/
inductive Entry
  /-- A value, and the room in the buffer that the code asks for. -/
  | stored (value : List UInt8) (room : ℕ)
  /-- An object of a slave. -/
  | asked (slave : ℕ) (index : UInt16) (subIndex : UInt8)
  /-- A register of a slave. -/
  | register (slave : ℕ) (reg : UInt16)
  /-- Nothing, and the read says so. -/
  | refused
  /-- Nothing, but the read returns `EC_OK`. -/
  | missing

/-- The register is answered with its two bytes. -/
def Answered (env : Env) (pec : Master) (slave : ℕ) (reg : UInt16) : Prop :=
  (env.fprd (pec.slaves slave).fixedAddress reg).1 ≠ 0 ∧
    (env.fprd (pec.slaves slave).fixedAddress reg).2.length = 2

instance (slave : ℕ) (reg : UInt16) : Decidable (Answered env pec slave reg) :=
  inferInstanceAs (Decidable (_ ∧ _))

/-- The value of an entry, if there is one. -/
def Entry.value (env : Env) (pec : Master) (held : Held) : Entry → Option (List UInt8)
  | stored value _ => some value
  | asked slave index subIndex =>
    if slave < pec.slaveCnt then held slave index subIndex else none
  | register slave reg =>
    if Answered env pec slave reg then some (env.fprd (pec.slaves slave).fixedAddress reg).2
    else none
  | refused => none
  | missing => none

/-- The reply that a slave gives for an object. -/
def slaveReply (env : Env) (slave : ℕ) (index : UInt16) (subIndex : UInt8) (len : ℕ) : Reply :=
  let r := env.sdoRead slave index subIndex false len
  ⟨r.1, r.2.1, r.2.2, []⟩

/-- When a read of an entry keeps the contract. -/
def Entry.Kept (env : Env) (pec : Master) (held : Held) (len : ℕ) : Entry → Prop
  | stored _ room => room ≤ len
  | asked slave index subIndex =>
    slave < pec.slaveCnt → Contract (held slave index subIndex) len
      (slaveReply env slave index subIndex len)
  | register slave reg => Answered env pec slave reg ∧ 2 ≤ len
  | refused => True
  | missing => False

/-- When complete access to an entry returns an error. -/
def Entry.Refused (env : Env) (pec : Master) (len : ℕ) : Entry → Prop
  | asked slave index subIndex =>
    slave < pec.slaveCnt → (env.sdoRead slave index subIndex true len).1 ≠ .ok
  | refused => True
  | stored _ _ | register _ _ | missing => False

/-- What a read of an entry replies. -/
def Entry.Gives (env : Env) (pec : Master) (complete : Bool) (len : ℕ) (r : Reply) : Entry → Prop
  | stored value room =>
    r.ret = .ok ∧ value.length ≤ room ∧ (value = [] → room = 0) ∧
      (room ≤ len → value <+: r.written ∧ r.len = value.length) ∧
      (len < room → r.written = [])
  | asked slave index subIndex =>
    (slave < pec.slaveCnt → (r.ret, r.len, r.written) =
      env.sdoRead slave index subIndex complete len) ∧
    (pec.slaveCnt ≤ slave → r.ret ≠ .ok)
  | register slave reg =>
    r.ret = .ok ∧ (len < 2 → r.written = []) ∧
      (2 ≤ len → r.written = (env.fprd (pec.slaves slave).fixedAddress reg).2 ∧
        ((env.fprd (pec.slaves slave).fixedAddress reg).1 ≠ 0 → r.len = 2))
  | refused => r.ret ≠ .ok
  | missing => r.ret = .ok

/-- The contract is about what a reply has, not about what it has touched. -/
theorem contract_congr {value : Option (List UInt8)} {r : Reply} (r' : Reply)
    (h : (r.ret, r.len, r.written) = (r'.ret, r'.len, r'.written)) :
    Contract value len r ↔ Contract value len r' := by
  simp only [Prod.mk.injEq] at h
  obtain ⟨hret, hlen, hwritten⟩ := h
  constructor
  · rintro ⟨hok, hsmall⟩
    exact ⟨by rwa [← hret, ← hlen, ← hwritten], by rwa [← hret, ← hlen, ← hwritten]⟩
  · rintro ⟨hok, hsmall⟩
    exact ⟨by rwa [hret, hlen, hwritten], by rwa [hret, hlen, hwritten]⟩

theorem contract_none {r : Reply} : Contract none len r ↔ r.ret ≠ .ok := by
  refine ⟨fun h hok => ?_, fun h => ⟨fun hok => absurd hok h, nofun⟩⟩
  obtain ⟨v, hv, -⟩ := h.ok hok
  cases hv

/-- A reply that returns `EC_OK` keeps the contract just if it has the value, and there is room. -/
theorem contract_some {value : List UInt8} {r : Reply} (hret : r.ret = .ok) :
    Contract (some value) len r ↔
      value <+: r.written ∧ r.len = value.length ∧ value.length ≤ len := by
  constructor
  · intro h
    obtain ⟨v, hv, hwritten, hlen⟩ := h.ok hret
    obtain rfl := Option.some.inj hv
    refine ⟨hwritten, hlen, Nat.le_of_not_lt fun hlt => ?_⟩
    exact (h.small _ rfl hlt).1 hret
  · rintro ⟨hwritten, hlen, hroom⟩
    refine ⟨fun _ => ⟨value, rfl, hwritten, hlen⟩, fun v hv hlt => ?_⟩
    obtain rfl := Option.some.inj hv
    exact absurd hroom (Nat.not_le_of_lt hlt)

/-- **What a reply does for its entry** is what the contract asks, under the condition of the
entry. -/
theorem Entry.Gives.contract_iff {e : Entry} {r : Reply} (held : Held)
    (h : e.Gives env pec false len r) :
    Contract (e.value env pec held) len r ↔ e.Kept env pec held len := by
  cases e with
  | stored value room =>
    obtain ⟨hret, hfits, hempty, hroom, hsmall⟩ := h
    rw [Entry.value, contract_some hret]
    constructor
    · rintro ⟨hwritten, -, -⟩
      by_contra hlt
      have hlt := Nat.lt_of_not_le hlt
      rw [hsmall hlt, List.prefix_nil] at hwritten
      rw [hempty hwritten] at hlt
      exact Nat.not_lt_zero _ hlt
    · intro hle
      obtain ⟨hwritten, hlen⟩ := hroom hle
      exact ⟨hwritten, hlen, hfits.trans hle⟩
  | asked slave index subIndex =>
    obtain ⟨hthere, hnot⟩ := h
    rw [Entry.value, Entry.Kept]
    by_cases hlt : slave < pec.slaveCnt
    · rw [if_pos hlt, contract_congr (slaveReply env slave index subIndex len) (hthere hlt)]
      exact ⟨fun h _ => h, fun h => h hlt⟩
    · rw [if_neg hlt, contract_none]
      exact iff_of_true (hnot (Nat.le_of_not_lt hlt)) fun h => absurd h hlt
  | register slave reg =>
    obtain ⟨hret, hsmall, hread⟩ := h
    rw [Entry.value, Entry.Kept]
    by_cases hanswered : Answered env pec slave reg
    · rw [if_pos hanswered, contract_some hret, and_iff_right hanswered]
      constructor
      · rintro ⟨-, -, hroom⟩
        rwa [hanswered.2] at hroom
      · intro hroom
        obtain ⟨hwritten, hlen⟩ := hread hroom
        rw [hwritten, hlen hanswered.1, hanswered.2]
        exact ⟨List.prefix_rfl, rfl, hroom⟩
    · rw [if_neg hanswered, contract_none]
      exact iff_of_false (fun h => h hret) fun h => hanswered h.1
  | refused => exact contract_none.trans (iff_of_true h trivial)
  | missing => exact contract_none.trans (iff_of_false (fun h' => h' h) id)

theorem Entry.Gives.refused_iff {e : Entry} {r : Reply} (h : e.Gives env pec true len r) :
    r.ret ≠ .ok ↔ e.Refused env pec len := by
  cases e with
  | stored _ _ => exact iff_of_false (fun hno => hno h.1) id
  | asked slave index subIndex =>
    obtain ⟨hthere, hnot⟩ := h
    by_cases hlt : slave < pec.slaveCnt
    · rw [Entry.Refused, ← hthere hlt]
      exact ⟨fun hno _ => hno, fun hno => hno hlt⟩
    · exact iff_of_true (hnot (Nat.le_of_not_lt hlt)) fun h => absurd h hlt
  | register _ _ => exact iff_of_false (fun hno => hno h.1) id
  | refused => exact iff_of_true h trivial
  | missing => exact iff_of_false (fun hno => hno h) id

/-! ## The entries of the dictionary -/

/-- A number of `n` bytes. -/
def Entry.number (n v : ℕ) : Entry := .stored (leBytes n v) n

/-- An entry of a group or slave, if that exists. -/
def Entry.of (ex : Prop) [Decidable ex] (e : Entry) : Entry := if ex then e else .missing

/-- The subindices of a group, with their lengths as the descriptors have them. -/
def groupValues (pd : PdGroup) : List ℕ :=
  [11, pd.log.toNat, pd.logLen.toNat, pd.pdoutLen.toNat, pd.pdinLen.toNat, pd.overlapping.toNat,
    pd.useLrw.toNat, pd.wkcExpectedLrw.toNat, pd.wkcExpectedLrd.toNat, pd.wkcExpectedLwr.toNat,
    pd.recvMissedLrw.toNat, pd.recvMissedLrd.toNat, pd.recvMissedLwr.toNat, pd.divisor.toNat]

/-- The subindices of the distributed clock of a slave. -/
def clockValues (slv : Slave) : List ℕ :=
  [13, slv.dc.useDc.toNat, slv.dc.next.toNat, slv.dc.prev.toNat, slv.activePorts.toNat,
    (slv.dc.receiveTimes 0).toNat, (slv.dc.receiveTimes 1).toNat, (slv.dc.receiveTimes 2).toNat,
    (slv.dc.receiveTimes 3).toNat, slv.dc.activationReg.toNat, slv.dc.cycleTime0.toNat,
    slv.dc.cycleTime1.toNat, slv.dc.cycleShift.toNat, slv.pdelay.toNat]

/-- An entry of a table of numbers. -/
def tableEntry (ex : Prop) [Decidable ex] (bits values : List ℕ) (subIndex : ℕ) : Entry :=
  match values[subIndex]? with
  | some v => .of ex (.number (bits.getD subIndex 0 / 8) v)
  | none => .refused

/-- The slaves of a group. -/
def assigned (pec : Master) (group : ℕ) : List ℕ :=
  (List.range pec.slaveCnt).filter fun s => (pec.slaves s).assignedPdGroup = (group : ℤ)

/-- How many there are, and which. -/
def assignedEntry (pec : Master) (group : ℕ) : ℕ → Entry
  | 0 => .number 1 (assigned pec group).length
  | subIndex + 1 =>
    match (assigned pec group)[subIndex]? with
    | some s => .number 2 s
    | none => .missing

/-- An object of a slave with a mailbox; without one it has no bytes. -/
def mailboxEntry (pec : Master) (slave : ℕ) (index : UInt16) : Entry :=
  if (pec.slaves slave).mbxSupported ≠ 0 then .asked slave index 0
  else .of (slave < pec.slaveCnt) (.stored [] 0)

def configurationEntry (pec : Master) (slave : ℕ) : ℕ → Entry
  | 0 => .of (slave < pec.slaveCnt) (.number 1 35)
  | 1 => .of (slave < pec.slaveCnt) (.number 2 (pec.slaves slave).fixedAddress.toNat)
  | 2 => mailboxEntry pec slave 0x1008
  | 3 => mailboxEntry pec slave 0x1008
  | 4 => mailboxEntry pec slave 0x1000
  | 5 => .asked slave 0x1018 1
  | 6 => .asked slave 0x1018 2
  | 7 => .asked slave 0x1018 3
  | 8 => .asked slave 0x1018 4
  | 33 => .of (slave < pec.slaveCnt) (.number 2
    (if (pec.slaves slave).mbxSupported ≠ 0 then ((pec.slaves slave).smLen 0).toNat else 0))
  | 34 => .of (slave < pec.slaveCnt) (.number 2
    (if (pec.slaves slave).mbxSupported ≠ 0 then ((pec.slaves slave).smLen 1).toNat else 0))
  | _ => .refused

def informationEntry (pec : Master) (slave : ℕ) : ℕ → Entry
  | 0 => .of (slave < pec.slaveCnt) (.number 1 32)
  | 1 => .of (slave < pec.slaveCnt) (.number 2 (pec.slaves slave).fixedAddress.toNat)
  | 5 => .asked slave 0x1018 1
  | 6 => .asked slave 0x1018 2
  | 7 => .asked slave 0x1018 3
  | 8 => .asked slave 0x1018 4
  | 32 => .of (slave < pec.slaveCnt) (.register slave 0x110)
  | _ => .refused

def diagnosisEntry (pec : Master) (slave : ℕ) : ℕ → Entry
  | 0 => .of (slave < pec.slaveCnt) (.number 1 2)
  | 1 => .of (slave < pec.slaveCnt) (.register slave 0x130)
  | 2 => .of (slave < pec.slaveCnt) (.register slave 0x120)
  | _ => .refused

/-- The number of slaves, for which two bytes are asked, and the addresses of a range. -/
def addressEntry (pec : Master) (range : ℕ) : ℕ → Entry
  | 0 => .stored (leBytes 1 pec.slaveCnt) 2
  | subIndex + 1 => .number 2 (if range * 255 + subIndex < pec.slaveCnt then
      (pec.slaves (range * 255 + subIndex)).fixedAddress.toNat else 0)

/-- What an object has under a subindex, by the index of the object and the one that is asked for. -/
def callbackEntry (pec : Master) (object index : UInt16) (subIndex : ℕ) : Entry :=
  if object = 0x2000 then tableEntry (groupOf index < pec.pdGroupCnt) bitLengths0x20nn
    (groupValues (pec.pdGroups (groupOf index))) subIndex
  else if object = 0x2001 then
    .of (groupOf index < pec.pdGroupCnt) (assignedEntry pec (groupOf index) subIndex)
  else if object = 0x3000 then tableEntry (slaveOf index < pec.slaveCnt) bitLengths0x3nnn
    (clockValues (pec.slaves (slaveOf index))) subIndex
  else if object = 0x8000 then configurationEntry pec (slaveOf index) subIndex
  else if object = 0x9000 then informationEntry pec (slaveOf index) subIndex
  else if object = 0xA000 then diagnosisEntry pec (slaveOf index) subIndex
  else addressEntry pec (index &&& 0x000F).toNat subIndex

/-! ## Each callback gives what its entry says -/

variable {complete : Bool}

theorem length_leBytes (n v : ℕ) : (leBytes n v).length = n := by
  rw [leBytes, List.length_map, List.length_range]

theorem leBytes_eq_nil {n v : ℕ} (h : leBytes n v = []) : n = 0 := by
  rw [← length_leBytes n v, h]
  rfl

/-- An entry that returns `EC_OK` does so too where there is nothing. -/
theorem gives_of {ex : Prop} [Decidable ex] {e : Entry} {r : Reply} (hret : r.ret = .ok)
    (h : e.Gives env pec complete len r) : (Entry.of ex e).Gives env pec complete len r := by
  rw [Entry.of]
  split_ifs
  · exact h
  · exact hret

theorem bufPut_ret (len n v : ℕ) (touched : List Access) : (bufPut len n v touched).ret = .ok := by
  rw [bufPut]
  split_ifs <;> rfl

/-- What a reply has, without what it has touched. -/
def Reply.outcome (r : Reply) : Ret × ℕ × List UInt8 := (r.ret, r.len, r.written)

theorem gives_of_outcome {n v l : ℕ} {r : Reply}
    (h : r.outcome = (.ok, if n ≤ len then (n, leBytes n v) else (l, []))) :
    (Entry.number n v).Gives env pec complete len r := by
  simp only [Reply.outcome, Prod.mk.injEq] at h
  obtain ⟨hret, hrest⟩ := h
  refine ⟨hret, (length_leBytes n v).le, leBytes_eq_nil, fun hle => ?_, fun hlt => ?_⟩
  · rw [if_pos hle, Prod.mk.injEq] at hrest
    rw [hrest.1, hrest.2, length_leBytes]
    exact ⟨List.prefix_rfl, rfl⟩
  · rw [if_neg (Nat.not_le_of_lt hlt), Prod.mk.injEq] at hrest
    exact hrest.2

theorem gives_bufPut (n v : ℕ) (touched : List Access) :
    (Entry.number n v).Gives env pec complete len (bufPut len n v touched) := by
  refine gives_of_outcome (l := len) ?_
  rw [bufPut]
  split_ifs <;> rfl

theorem gives_ecCoeSdoRead (slave : ℕ) (index : UInt16) (subIndex : UInt8) :
    (Entry.asked slave index subIndex).Gives env pec complete len
      (ecCoeSdoRead env pec slave index subIndex complete len) := by
  refine ⟨fun hlt => ?_, fun hle => ?_⟩
  · rw [ecCoeSdoRead, if_neg (Nat.not_le_of_lt hlt)]
  · rw [ecCoeSdoRead, if_pos hle]
    nofun

theorem fprdReply_ret (env : Env) (pec : Master) (slave : ℕ) (reg : UInt16) (len : ℕ) :
    (fprdReply env pec slave reg len).ret = .ok := by
  rw [fprdReply]
  split_ifs <;> rfl

theorem gives_fprdReply (slave : ℕ) (reg : UInt16) :
    (Entry.register slave reg).Gives env pec complete len (fprdReply env pec slave reg len) := by
  refine ⟨fprdReply_ret .., fun hlt => ?_, fun hle => ?_⟩
  · rw [fprdReply, if_neg (Nat.not_le_of_lt hlt)]
  · rw [fprdReply, if_pos hle]
    exact ⟨rfl, fun hwkc => if_pos hwkc⟩

theorem gives_mailboxValue (slave : ℕ) (index : UInt16) :
    (mailboxEntry pec slave index).Gives env pec complete len
      (mailboxValue env pec slave index complete len) := by
  rw [mailboxEntry, mailboxValue]
  split_ifs
  · exact gives_ecCoeSdoRead slave index 0
  · refine gives_of rfl ⟨rfl, le_rfl, fun _ => rfl, fun _ => ⟨List.prefix_rfl, rfl⟩, fun h => ?_⟩
    exact absurd h (Nat.not_lt_zero _)

theorem gives_mailboxSize (slave i : ℕ) :
    (Entry.of (slave < pec.slaveCnt) (.number 2
      (if (pec.slaves slave).mbxSupported ≠ 0 then ((pec.slaves slave).smLen i).toNat
        else 0))).Gives
      env pec complete len (mailboxSize pec slave i len) := by
  have hput : (mailboxSize pec slave i len).outcome = (.ok, if 2 ≤ len then (2, leBytes 2
      (if (pec.slaves slave).mbxSupported ≠ 0 then ((pec.slaves slave).smLen i).toNat else 0))
      else (len, [])) := by
    rw [mailboxSize]
    dsimp only
    split_ifs <;> rfl
  exact gives_of (congrArg Prod.fst hput) (gives_of_outcome hput)

theorem length_groupValues (g : PdGroup) : (groupValues g).length = 14 := rfl

theorem length_clockValues (slv : Slave) : (clockValues slv).length = 14 := rfl

/-- Behind its end a table has nothing. -/
theorem tableEntry_refused {ex : Prop} [Decidable ex] {bits values : List ℕ} {s : ℕ}
    (h : values.length ≤ s) : tableEntry ex bits values s = .refused := by
  rw [tableEntry, List.getElem?_eq_none h]

section Callbacks

variable (env pec) (index : UInt16) (subIndex : UInt8) (complete) (len)

theorem callbackMaster0x20nn_gives :
    (tableEntry (groupOf index < pec.pdGroupCnt) bitLengths0x20nn
      (groupValues (pec.pdGroups (groupOf index))) subIndex.toNat).Gives env pec complete len
      (callbackMaster0x20nn env pec index subIndex complete len) := by
  unfold callbackMaster0x20nn
  dsimp only
  generalize subIndex.toNat = k
  by_cases hk : k ≤ 13
  · interval_cases k
    all_goals exact gives_of (bufPut_ret ..) (gives_bufPut ..)
  · rw [tableEntry_refused (by rw [length_groupValues]; omega)]
    split
    any_goals omega
    nofun

theorem callbackMaster0x3nnn_gives :
    (tableEntry (slaveOf index < pec.slaveCnt) bitLengths0x3nnn
      (clockValues (pec.slaves (slaveOf index))) subIndex.toNat).Gives env pec complete len
      (callbackMaster0x3nnn env pec index subIndex complete len) := by
  unfold callbackMaster0x3nnn
  dsimp only
  generalize subIndex.toNat = k
  by_cases hk : k ≤ 13
  · interval_cases k
    all_goals exact gives_of (bufPut_ret ..) (gives_bufPut ..)
  · rw [tableEntry_refused (by rw [length_clockValues]; omega)]
    split
    any_goals omega
    nofun

theorem callbackMaster0x8nnn_gives :
    (configurationEntry pec (slaveOf index) subIndex.toNat).Gives env pec complete len
      (callbackMaster0x8nnn env pec index subIndex complete len) := by
  unfold callbackMaster0x8nnn configurationEntry
  dsimp only
  generalize subIndex.toNat = k
  split
  · exact gives_of (bufPut_ret ..) (gives_bufPut ..)
  · exact gives_of (by split_ifs <;> rfl) (gives_of_outcome (l := 0) (by split_ifs <;> rfl))
  · exact gives_mailboxValue ..
  · exact gives_mailboxValue ..
  · exact gives_mailboxValue ..
  · exact gives_ecCoeSdoRead ..
  · exact gives_ecCoeSdoRead ..
  · exact gives_ecCoeSdoRead ..
  · exact gives_ecCoeSdoRead ..
  · exact gives_mailboxSize ..
  · exact gives_mailboxSize ..
  · simp [Entry.Gives, *]

theorem callbackMaster0x9nnn_gives :
    (informationEntry pec (slaveOf index) subIndex.toNat).Gives env pec complete len
      (callbackMaster0x9nnn env pec index subIndex complete len) := by
  unfold callbackMaster0x9nnn informationEntry
  dsimp only
  generalize subIndex.toNat = k
  split
  · exact gives_of (bufPut_ret ..) (gives_bufPut ..)
  · exact gives_of (bufPut_ret ..) (gives_bufPut ..)
  · exact gives_ecCoeSdoRead ..
  · exact gives_ecCoeSdoRead ..
  · exact gives_ecCoeSdoRead ..
  · exact gives_ecCoeSdoRead ..
  · exact gives_of (fprdReply_ret ..) (gives_fprdReply ..)
  · simp [Entry.Gives, *]

theorem callbackMaster0xAnnn_gives :
    (diagnosisEntry pec (slaveOf index) subIndex.toNat).Gives env pec complete len
      (callbackMaster0xAnnn env pec index subIndex complete len) := by
  unfold callbackMaster0xAnnn diagnosisEntry
  dsimp only
  generalize subIndex.toNat = k
  split
  · exact gives_of (bufPut_ret ..) (gives_bufPut ..)
  · exact gives_of (fprdReply_ret ..) (gives_fprdReply ..)
  · exact gives_of (fprdReply_ret ..) (gives_fprdReply ..)
  · simp [Entry.Gives, *]

end Callbacks

/-! ## The slaves of a group -/

/-- The slaves of a group from one on. -/
def assignedFrom (pec : Master) (group slave n : ℕ) : List ℕ :=
  (List.range' slave n).filter fun s => (pec.slaves s).assignedPdGroup = (group : ℤ)

/-- The number of a slave of the group is put, and the place is looked at. -/
def Reply.putSlave (r : Reply) (slave : ℕ) : Reply :=
  ⟨.ok, (bufPut r.len 2 slave []).len,
    if 2 ≤ r.len then (bufPut r.len 2 slave []).written else r.written, r.touched ++ [.slave slave]⟩

def Reply.touchSlave (r : Reply) (slave : ℕ) : Reply :=
  { r with touched := r.touched ++ [.slave slave] }

theorem outcome_putSlave (r : Reply) (slave : ℕ) : (r.putSlave slave).outcome =
    (.ok, if 2 ≤ r.len then (2, leBytes 2 slave) else (r.len, r.written)) := by
  rw [Reply.putSlave, Reply.outcome, bufPut]
  split_ifs <;> rfl

theorem assignedFrom_succ (pec : Master) (group slave n : ℕ) :
    assignedFrom pec group slave (n + 1) =
    if (pec.slaves slave).assignedPdGroup = (group : ℤ) then
      slave :: assignedFrom pec group (slave + 1) n
    else assignedFrom pec group (slave + 1) n := by
  rw [assignedFrom, List.range'_succ, List.filter_cons]
  simp only [decide_eq_true_eq]
  rfl

theorem assignedSlaves_succ (pec : Master) (group : ℕ) (need : ℤ) (subIndex : UInt8) (n slave : ℕ)
    (value : ℤ) (r : Reply) : assignedSlaves pec group need subIndex (n + 1) slave (value, r) =
    if (pec.slaves slave).assignedPdGroup = (group : ℤ) then
      assignedSlaves pec group need subIndex n (slave + 1)
        (value + 1,
          if 0 < subIndex ∧ value + 1 = need then r.putSlave slave else r.touchSlave slave)
    else assignedSlaves pec group need subIndex n (slave + 1) (value, r.touchSlave slave) := by
  rw [assignedSlaves]
  rfl

section Loop

variable {group n slave : ℕ} {need value : ℤ} {subIndex : UInt8} {r : Reply}

theorem assignedSlaves_count : (assignedSlaves pec group need subIndex n slave (value, r)).1 =
    value + (assignedFrom pec group slave n).length := by
  induction n generalizing slave value r with
  | zero => exact (Int.add_zero value).symm
  | succ n ih =>
    rw [assignedSlaves_succ, assignedFrom_succ]
    by_cases hgroup : (pec.slaves slave).assignedPdGroup = (group : ℤ)
    · rw [if_pos hgroup, if_pos hgroup, ih, List.length_cons]
      omega
    · rw [if_neg hgroup, if_neg hgroup, ih]

/-- Nothing is put for subindex 0, nor behind the slave that is needed. -/
theorem assignedSlaves_passed (h : subIndex = 0 ∨ need ≤ value) :
    (assignedSlaves pec group need subIndex n slave (value, r)).2.outcome = r.outcome := by
  induction n generalizing slave value r with
  | zero => rfl
  | succ n ih =>
    rw [assignedSlaves_succ]
    by_cases hgroup : (pec.slaves slave).assignedPdGroup = (group : ℤ)
    · have hno : ¬(0 < subIndex ∧ value + 1 = need) := by
        rintro ⟨hpos, hneed⟩
        rcases h with rfl | h
        · exact absurd hpos (by decide)
        · omega
      rw [if_pos hgroup, if_neg hno, ih (h.imp_right (by omega))]
      rfl
    · rw [if_neg hgroup, ih h]
      rfl

/-- The slave that is needed is put. -/
theorem assignedSlaves_put (hsub : 0 < subIndex) {j : ℕ} (hneed : need = value + 1 + j) :
    (assignedSlaves pec group need subIndex n slave (value, r)).2.outcome =
      match (assignedFrom pec group slave n)[j]? with
      | some s => (.ok, if 2 ≤ r.len then (2, leBytes 2 s) else (r.len, r.written))
      | none => r.outcome := by
  induction n generalizing slave value r j with
  | zero => rfl
  | succ n ih =>
    rw [assignedSlaves_succ, assignedFrom_succ]
    by_cases hgroup : (pec.slaves slave).assignedPdGroup = (group : ℤ)
    · rw [if_pos hgroup, if_pos hgroup]
      cases j with
      | zero =>
        have hput : 0 < subIndex ∧ value + 1 = need := ⟨hsub, by omega⟩
        rw [if_pos hput, assignedSlaves_passed (Or.inr hput.2.ge), outcome_putSlave]
        rfl
      | succ j =>
        rw [if_neg (by omega), ih (j := j) (by omega), List.getElem?_cons_succ]
        rfl
    · rw [if_neg hgroup, if_neg hgroup, ih hneed]
      rfl

end Loop

theorem assignedFrom_all (pec : Master) (group : ℕ) :
    assignedFrom pec group 0 pec.slaveCnt = assigned pec group := by
  rw [assigned, List.range_eq_range']
  rfl

theorem callbackMaster0x20nm_count (env : Env) (pec : Master) (index : UInt16) (complete : Bool)
    (len : ℕ) : (callbackMaster0x20nm env pec index 0 complete len).outcome =
      (.ok,
        if 1 ≤ len then (1, leBytes 1 (assigned pec (groupOf index)).length) else (len, [])) := by
  have hcount : (assignedSlaves pec (groupOf index) (((0 : UInt8).toNat : ℤ) - 1) 0 pec.slaveCnt 0
      (-1, ⟨.ok, len, [], []⟩)).1 = _ := assignedSlaves_count
  have hsame : (assignedSlaves pec (groupOf index) (((0 : UInt8).toNat : ℤ) - 1) 0 pec.slaveCnt 0
      (-1, ⟨.ok, len, [], []⟩)).2.outcome = _ := assignedSlaves_passed (Or.inl rfl)
  rw [assignedFrom_all] at hcount
  simp only [Reply.outcome, Prod.mk.injEq] at hsame
  obtain ⟨hret, hlen, hwritten⟩ := hsame
  rw [callbackMaster0x20nm]
  dsimp only
  rw [if_pos rfl, hlen, hcount]
  split_ifs with hroom
  · rw [Reply.outcome, hret, leBytes]
    simp
  · rw [Reply.outcome, hret, hlen, hwritten]

theorem callbackMaster0x20nm_slave (env : Env) (pec : Master) (index : UInt16) {subIndex : UInt8}
    {k : ℕ} (hk : subIndex.toNat = k + 1) (complete : Bool) (len : ℕ) :
    (callbackMaster0x20nm env pec index subIndex complete len).outcome =
      match (assigned pec (groupOf index))[k]? with
      | some s => (.ok, if 2 ≤ len then (2, leBytes 2 s) else (len, []))
      | none => (.ok, len, []) := by
  have hpos : 0 < subIndex := UInt8.lt_iff_toNat_lt.2 (hk ▸ Nat.succ_pos k)
  have hput : (assignedSlaves pec (groupOf index) ((subIndex.toNat : ℤ) - 1) subIndex pec.slaveCnt 0
      (-1, ⟨.ok, len, [], []⟩)).2.outcome = _ := assignedSlaves_put hpos (j := k) (by omega)
  rw [assignedFrom_all] at hput
  rw [callbackMaster0x20nm]
  dsimp only
  have hne : subIndex ≠ 0 := by
    rintro rfl
    exact absurd hk (Nat.succ_ne_zero k).symm
  rw [if_neg hne, hput]
  rfl

theorem callbackMaster0x20nm_gives (env : Env) (pec : Master) (index : UInt16) (subIndex : UInt8)
    (complete : Bool) (len : ℕ) :
    (Entry.of (groupOf index < pec.pdGroupCnt)
      (assignedEntry pec (groupOf index) subIndex.toNat)).Gives env pec complete len
      (callbackMaster0x20nm env pec index subIndex complete len) := by
  have hret : (callbackMaster0x20nm env pec index subIndex complete len).ret = .ok :=
    (callbackMaster0x20nm_inside (o := .static 0 0 [] []) env pec index subIndex complete len).1
  refine gives_of hret ?_
  cases hk : subIndex.toNat with
  | zero =>
    obtain rfl : subIndex = 0 := UInt8.toNat_inj.1 hk
    exact gives_of_outcome (callbackMaster0x20nm_count env pec index complete len)
  | succ k =>
    have hslave := callbackMaster0x20nm_slave env pec index hk complete len
    rw [assignedEntry]
    cases hs : (assigned pec (groupOf index))[k]? with
    | none => exact hret
    | some s =>
      rw [hs] at hslave
      exact gives_of_outcome hslave

/-! ## The other objects -/

theorem callbackMaster0xF0nn_gives (env : Env) (pec : Master) (index : UInt16) (subIndex : UInt8)
    (complete : Bool) (len : ℕ) :
    (addressEntry pec (index &&& 0x000F).toNat subIndex.toNat).Gives env pec complete len
      (callbackMaster0xF0nn env pec index subIndex complete len) := by
  rw [callbackMaster0xF0nn]
  cases hk : subIndex.toNat with
  | zero =>
    obtain rfl : subIndex = 0 := UInt8.toNat_inj.1 hk
    rw [if_pos rfl]
    refine ⟨by split_ifs <;> rfl, by rw [length_leBytes]; decide, fun h => ?_, fun hle => ?_,
      fun hlt => ?_⟩
    · exact absurd (leBytes_eq_nil h) (by decide)
    · rw [if_pos hle, length_leBytes]
      exact ⟨⟨[_], rfl⟩, rfl⟩
    · rw [if_neg (Nat.not_le_of_lt hlt)]
  | succ k =>
    have hrange : (index &&& 0x000F).toNat ≤ 15 := by
      rw [UInt16.toNat_and]
      exact Nat.and_le_right
    have hsub := subIndex.toNat_lt
    have hslave : ((index &&& 0x000F).toNat * 255 + (k + 1 + 65535)) % 65536 =
        (index &&& 0x000F).toNat * 255 + k := by omega
    have hne : subIndex ≠ 0 := by
      rintro rfl
      exact absurd hk (Nat.succ_ne_zero k).symm
    rw [if_neg hne, hslave]
    refine gives_of_outcome (l := len) ?_
    split_ifs <;> rfl

/-- Each callback gives what its entry says. -/
theorem callback_entry {o : Object} {read : Callback} (ho : o ∈ dict env pec)
    (hread : o.read = some read) (index : UInt16) (subIndex : UInt8) (complete : Bool) (len : ℕ) :
    (callbackEntry pec o.index index subIndex.toNat).Gives env pec complete len
      (read env pec index subIndex complete len) := by
  simp only [dict, List.mem_cons, List.not_mem_nil, or_false] at ho
  rcases ho with rfl | rfl | rfl | rfl | rfl | rfl | rfl | rfl | rfl | rfl | rfl | rfl | rfl | rfl |
    rfl
  any_goals cases hread
  · exact callbackMaster0x20nn_gives ..
  · exact callbackMaster0x20nm_gives ..
  · exact callbackMaster0x3nnn_gives ..
  · exact callbackMaster0x8nnn_gives ..
  · exact callbackMaster0x9nnn_gives ..
  · exact callbackMaster0xAnnn_gives ..
  · exact callbackMaster0xF0nn_gives ..
  · exact callbackMaster0xF0nn_gives ..

end LibEthercat.CoeMaster
