import LibEthercat.CoeMaster.Contract
import LibEthercat.CoeMaster.ObjectList
import LibEthercat.CoeMaster.Write
import Mathlib.Order.Bounds.Basic

/-!
# Descriptions and data of the master's objects

`ec_coe_master_sdo_desc_read` describes an object with its number of subindices, and
`ec_coe_master_sdo_entry_desc_read` an entry. The number of subindices is also what is read from
subindex 0, and what the callbacks answer up to; all three are written down on their own.

**Theorem (`descriptions_agree_iff`).** They agree for the objects of the clock, the information
and the diagnosis of a slave and for those with data, for the slaves of a group only if there are
255 of them (or 256 more), and for the rest never. The list of addresses describes ranges of 256
slaves, and has entries for 255.
-/

namespace LibEthercat.CoeMaster

/-! ## Descriptions -/

def deftypeBoolean : ℕ := 0x0001

def deftypeInteger32 : ℕ := 0x0004

def deftypeUnsigned8 : ℕ := 0x0005

def deftypeUnsigned16 : ℕ := 0x0006

def deftypeUnsigned32 : ℕ := 0x0007

def deftypeVisiblestring : ℕ := 0x0009

def deftypeOctetstring : ℕ := 0x000A

def deftypeByte : ℕ := 0x001E

def deftypeWord : ℕ := 0x001F

def deftypeDword : ℕ := 0x0020

def deftypeRecord : ℕ := 0x002A

def deftypeArrayOfInt : ℕ := 0x0260

/-- `OBJCODE_VAR`, `OBJCODE_ARR` and `OBJCODE_REC`. -/
inductive ObjCode
  | var
  | arr
  | record
deriving DecidableEq

/-- `ec_coe_sdo_desc_t`; `numbers` are those that `snprintf` puts behind the name. -/
structure SdoDesc where
  dataType : ℕ
  objCode : ObjCode
  maxSubindices : UInt8
  name : String
  numbers : List ℕ

/-- `ec_coe_sdo_entry_desc_t`; `value_info` is always 0. -/
structure EntryDesc where
  dataType : ℕ
  bitLength : ℕ
  objAccess : ℕ
  data : String
  numbers : List ℕ

/-- The types, codes and names of the objects. -/
def objDescs : List (UInt16 × ℕ × ObjCode × String) :=
  [(0x1000, deftypeUnsigned32, .var, "Device Type"),
    (0x1008, deftypeVisiblestring, .var, "Device Name"),
    (0x1009, deftypeVisiblestring, .var, "Manufacturer Hardware Version"),
    (0x100A, deftypeVisiblestring, .var, "Manufacturer Software Version"),
    (0x1018, deftypeRecord, .record, "Identity"),
    (0x2000, deftypeRecord, .record, "Configuration Cyclic Group"),
    (0x2001, deftypeArrayOfInt, .arr, "Assigned Slaves Cyclic Group"),
    (0x3000, deftypeRecord, .record, "Configuration Distributed Clock Slave"),
    (0x8000, deftypeRecord, .record, "Configuration Data Slave"),
    (0x9000, deftypeRecord, .record, "Information Data Slave"),
    (0xA000, deftypeRecord, .record, "Diagnosis Data Slave"),
    (0xF000, deftypeRecord, .record, "Modular Device Profile"),
    (0xF002, deftypeRecord, .record, "Detect Modules Command"),
    (0xF020, deftypeArrayOfInt, .arr, "Configured Address List Slaves"),
    (0xF040, deftypeArrayOfInt, .arr, "Detected Address List Slaves")]

/-- `obj_desc` -/
def Object.objDesc (o : Object) : SdoDesc :=
  let d := (objDescs.lookup o.index).getD (0, .var, "")
  ⟨d.1, d.2.1, UInt8.ofNat o.maxSubindices, d.2.2, []⟩

/-- The entries that only have a number. -/
def noEntries (n : ℕ) : List (ℕ × String) := List.replicate n (0, "")

/-- The types and names of the entries. -/
def entryDescs : List (UInt16 × List (ℕ × String)) :=
  [(0x1000, [(deftypeUnsigned32, "Device Type")]),
    (0x1008, [(deftypeVisiblestring, "Device Name")]),
    (0x1009, [(deftypeVisiblestring, "Manufacturer Hardware Version")]),
    (0x100A, [(deftypeVisiblestring, "Manufacturer Software Version")]),
    (0x1018, [(deftypeUnsigned8, "Subindex 0"), (deftypeUnsigned32, "Vendor ID"),
      (deftypeUnsigned32, "Product Code"), (deftypeUnsigned32, "Revision Number"),
      (deftypeUnsigned32, "Serial Number")]),
    (0x2000, [(deftypeUnsigned8, "Subindex 0"), (deftypeDword, "Logical Address"),
      (deftypeUnsigned32, "Logical Length"), (deftypeUnsigned32, "Output Length"),
      (deftypeUnsigned32, "Input Length"), (deftypeBoolean, "Overlapping"),
      (deftypeBoolean, "Use LRW"), (deftypeUnsigned16, "Expected Working Counter LRW"),
      (deftypeUnsigned16, "Expected Working Counter LRD"),
      (deftypeUnsigned16, "Expected Working Counter LWR"),
      (deftypeUnsigned32, "Receive Missed LRW"), (deftypeUnsigned32, "Receive Missed LRD"),
      (deftypeUnsigned32, "Receive Missed LWR"), (deftypeUnsigned32, "Timer Divisor")]),
    (0x2001, [(deftypeUnsigned8, "Subindex 0"), (deftypeUnsigned16, "Slave")]),
    (0x3000, [(deftypeUnsigned8, "Subindex 0"), (deftypeBoolean, "Enabled"),
      (deftypeInteger32, "Next Slave"), (deftypeInteger32, "Previous Slave"),
      (deftypeUnsigned8, "Active Ports"), (deftypeUnsigned32, "Receive Time Port 0"),
      (deftypeUnsigned32, "Receive Time Port 1"), (deftypeUnsigned32, "Receive Time Port 2"),
      (deftypeUnsigned32, "Receive Time Port 3"), (deftypeUnsigned8, "Sync Type"),
      (deftypeUnsigned32, "Cycle Time 0"), (deftypeUnsigned32, "Cycle Time 1"),
      (deftypeInteger32, "Cycle Shift"), (deftypeUnsigned32, "System Delay")]),
    (0x8000, [(deftypeUnsigned8, "Subindex 0"), (deftypeUnsigned16, "Fixed Station Address"),
      (deftypeVisiblestring, "Type"), (deftypeVisiblestring, "Name"),
      (deftypeUnsigned32, "Device Type"), (deftypeDword, "Vendor Id"),
      (deftypeDword, "Product Code"), (deftypeUnsigned32, "Revision Number"),
      (deftypeUnsigned32, "Serial Number")] ++ noEntries 24 ++
      [(deftypeUnsigned16, "Mailbox Out Size"), (deftypeUnsigned16, "Mailbox In Size"),
        (deftypeByte, "Link Status")]),
    (0x9000, [(deftypeUnsigned8, "Subindex 0"), (deftypeUnsigned16, "Fixed Station Address")] ++
      noEntries 3 ++ [(deftypeDword, "Vendor Id"), (deftypeDword, "Product Code"),
        (deftypeUnsigned32, "Revision Number"), (deftypeUnsigned32, "Serial Number")] ++
      noEntries 23 ++ [(deftypeWord, "DL Status Register")]),
    (0xA000, [(deftypeUnsigned8, "Subindex 0"), (deftypeUnsigned16, "AL Status"),
      (deftypeUnsigned16, "AL Control")]),
    (0xF000, [(deftypeUnsigned8, "Subindex 0"), (deftypeUnsigned16, "Module Index Distance"),
      (deftypeUnsigned16, "Maximum Number of Modules"),
      (deftypeUnsigned32, "General Configuration"), (deftypeUnsigned32, "General Information")]),
    (0xF002, [(deftypeUnsigned8, "Subindex 0"), (deftypeOctetstring, "Scan Command Request"),
      (deftypeUnsigned8, "Scan Command Status"), (deftypeOctetstring, "Scan Command Response")]),
    (0xF020, [(deftypeUnsigned8, "Subindex 0"), (deftypeUnsigned16, "Slave")]),
    (0xF040, [(deftypeUnsigned8, "Subindex 0"), (deftypeUnsigned16, "Slave")])]

/-- `entry_desc[i]` -/
def Object.entryDesc (o : Object) (i : ℕ) : EntryDesc :=
  let d := ((entryDescs.lookup o.index).getD []).getD i (0, "")
  ⟨d.1, o.bitLengths.getD i 0, o.access i, d.2, []⟩

/-- `index & 0x000Fu` -/
def rangeOf (index : UInt16) : ℕ := (index &&& 0x000F).toNat

/-- The loop of the description over the slaves of a group, which counts in a byte. -/
def countAssigned (pec : Master) (group : ℕ) : UInt8 :=
  (List.range pec.slaveCnt).foldl
    (fun n s => if (pec.slaves s).assignedPdGroup = (group : ℤ) then n + 1 else n) 0

/-- `ec_coe_master_sdo_desc_read` -/
def ecCoeMasterSdoDescRead (env : Env) (pec : Master) (index : UInt16) : Ret × Option SdoDesc :=
  match getObject env pec index with
  | none => (.coeIndexNotFound, none)
  | some o =>
    let desc := o.objDesc
    (.ok, some <|
      if 0xF000 ≤ index then
        if index ≠ 0xF000 ∧ index ≠ 0xF002 then
          let slaveBegin := rangeOf index * 256
          { desc with
            numbers := [slaveBegin, slaveBegin + 255]
            maxSubindices :=
              if slaveBegin < pec.slaveCnt then UInt8.ofNat (pec.slaveCnt - slaveBegin) else 0 }
        else desc
      else if 0x8000 ≤ index ∨ index &&& o.indexMask = 0x3000 then
        { desc with numbers := [(index &&& ~~~o.indexMask).toNat] }
      else if index &&& 0xFF01 = 0x2000 then { desc with numbers := [groupOf index] }
      else if index &&& 0xFF01 = 0x2001 then
        { desc with numbers := [groupOf index], maxSubindices := countAssigned pec (groupOf index) }
      else desc)

/-- `ec_coe_master_sdo_entry_desc_read`, with what is copied to the description. -/
def ecCoeMasterSdoEntryDescRead (env : Env) (pec : Master) (index : UInt16) (subIndex : UInt8) :
    Ret × Option EntryDesc :=
  match getObject env pec index with
  | none => (.coeIndexNotFound, none)
  | some o =>
    (.ok,
      if subIndex.toNat ≤ o.maxSubindices then some <|
        if subIndex ≠ 0 ∧ o.objDesc.objCode = .arr then
          let desc := o.entryDesc 1
          if index &&& 0xFFF0 = 0xF020 ∨ index &&& 0xFFF0 = 0xF040 then
            { desc with numbers := [(rangeOf index * 255 + (subIndex.toNat + 65535)) % 65536] }
          else desc
        else o.entryDesc subIndex.toNat
      else none)

/-! ## What should agree -/

/-- The number that bytes in memory are. -/
def leNumber (bytes : List UInt8) : ℕ := bytes.foldr (fun b n => b.toNat + 256 * n) 0

/-- The subindices that are answered with `EC_OK`. -/
def answered (env : Env) (pec : Master) (index : UInt16) (len : ℕ) : Set ℕ :=
  {s | ∃ subIndex : UInt8, subIndex.toNat = s ∧
    (ecCoeMasterSdoRead env pec index subIndex false len).ret = .ok}

/-- The number of subindices as it is read, described and answered, with a buffer for any number.
Subindex 0 of a text is the text. -/
structure Counts (env : Env) (pec : Master) (index : UInt16) (n : ℕ) : Prop where
  described : ∃ desc, ecCoeMasterSdoDescRead env pec index = (.ok, some desc) ∧
    desc.maxSubindices.toNat = n ∧
    (desc.dataType ≠ deftypeVisiblestring → ∀ len ≥ 4,
      (ecCoeMasterSdoRead env pec index 0 false len).ret = .ok ∧
      leNumber ((ecCoeMasterSdoRead env pec index 0 false len).written.take
        (ecCoeMasterSdoRead env pec index 0 false len).len) = n)
  answered : ∀ len ≥ 4, IsGreatest (answered env pec index len) n

/-- The slave that an entry of a list of addresses names. -/
def Names (env : Env) (pec : Master) (index : UInt16) (subIndex : UInt8) (slave : ℕ) : Prop :=
  ∃ desc, ecCoeMasterSdoEntryDescRead env pec index subIndex = (.ok, some desc) ∧
    desc.numbers = [slave]

/-- The slaves that the description of a list of addresses has in its range are those that its
entries name, and those whose addresses are read. -/
def RangesAgree (env : Env) (pec : Master) (index : UInt16) : Prop :=
  ∀ o, getObject env pec index = some o → o.index = 0xF020 ∨ o.index = 0xF040 →
    ∃ desc first last, ecCoeMasterSdoDescRead env pec index = (.ok, some desc) ∧
      desc.numbers = [first, last] ∧
      (∀ slave, first ≤ slave ∧ slave ≤ last ↔
        ∃ subIndex ≠ 0, Names env pec index subIndex slave) ∧
      ∀ subIndex ≠ 0, ∀ slave, Names env pec index subIndex slave → ∀ len ≥ 4,
        (ecCoeMasterSdoRead env pec index subIndex false len).touched =
          if slave < pec.slaveCnt then [.slave slave] else []

/-! ## What is answered -/

variable {env : Env} {pec : Master} {o : Object} {index : UInt16} {len : ℕ}

/-- The entries whose read returns `EC_OK` in any case. -/
def Entry.isOk : Entry → Prop
  | .stored .. => True
  | .register .. => True
  | .missing => True
  | _ => False

theorem isOk_of {ex : Prop} [Decidable ex] {e : Entry} (h : e.isOk) : (Entry.of ex e).isOk := by
  rw [Entry.of]
  split_ifs
  · exact h
  · trivial

theorem Entry.Gives.ret_ok {e : Entry} {complete : Bool} {r : Reply}
    (h : e.Gives env pec complete len r) (hok : e.isOk) : r.ret = .ok := by
  cases e with
  | stored => exact h.1
  | register => exact h.1
  | missing => exact h
  | asked => exact hok.elim
  | refused => exact hok.elim

/-- The greatest subindex that is answered. -/
theorem isGreatest_answered {read : Callback} (hobj : getObject env pec index = some o)
    (hread : o.read = some read) {m : UInt8}
    (hok : (callbackEntry pec o.index index m.toNat).isOk)
    (hrefused : ∀ s > m.toNat, s < 256 → callbackEntry pec o.index index s = .refused) (len : ℕ) :
    IsGreatest (answered env pec index len) m.toNat := by
  have hgives : ∀ subIndex : UInt8, (callbackEntry pec o.index index subIndex.toNat).Gives env pec
      false len (ecCoeMasterSdoRead env pec index subIndex false len) := by
    intro subIndex
    rw [ecCoeMasterSdoRead_callback hobj hread]
    exact callback_entry (List.mem_of_find?_eq_some hobj) hread index subIndex false len
  constructor
  · exact ⟨m, rfl, (hgives m).ret_ok hok⟩
  · rintro s ⟨subIndex, rfl, hret⟩
    by_contra hlt
    have hentry := hgives subIndex
    rw [hrefused _ (Nat.lt_of_not_le hlt) subIndex.toNat_lt] at hentry
    exact hentry hret

/-- What is read of a value that is stored. -/
theorem Entry.Gives.read {value : List UInt8} {room : ℕ} {complete : Bool} {r : Reply}
    (h : (Entry.stored value room).Gives env pec complete len r) (hroom : room ≤ len) :
    r.ret = .ok ∧ r.written.take r.len = value := by
  obtain ⟨hret, -, -, hwritten, -⟩ := h
  obtain ⟨hstart, hlen⟩ := hwritten hroom
  rw [hlen]
  exact ⟨hret, (List.prefix_iff_eq_take.1 hstart).symm⟩

/-- The three numbers of an object, and when they agree. -/
theorem counts_exists_iff {d m v : ℕ}
    (hdesc : ∃ desc, ecCoeMasterSdoDescRead env pec index = (.ok, some desc) ∧
      desc.dataType = o.objDesc.dataType ∧ desc.maxSubindices.toNat = d)
    (hgreatest : ∀ len, IsGreatest (answered env pec index len) m)
    (hread : o.objDesc.dataType ≠ deftypeVisiblestring → ∀ len ≥ 4,
      (ecCoeMasterSdoRead env pec index 0 false len).ret = .ok ∧
      leNumber ((ecCoeMasterSdoRead env pec index 0 false len).written.take
        (ecCoeMasterSdoRead env pec index 0 false len).len) = v) :
    (∃ n, Counts env pec index n) ↔
      d = m ∧ (o.objDesc.dataType ≠ deftypeVisiblestring → v = m) := by
  obtain ⟨desc, hdescRead, htype, hmax⟩ := hdesc
  constructor
  · rintro ⟨n, hdescribed, hanswered⟩
    obtain ⟨desc', hdescRead', hmax', hnumber⟩ := hdescribed
    obtain rfl : desc = desc' := by
      rw [hdescRead, Prod.mk.injEq] at hdescRead'
      exact Option.some.inj hdescRead'.2
    have hn : n = m := (hanswered 4 le_rfl).unique (hgreatest 4)
    rw [htype] at hnumber
    refine ⟨by rw [← hmax, hmax', hn], fun htext => ?_⟩
    rw [← hn, ← (hnumber htext 4 le_rfl).2, (hread htext 4 le_rfl).2]
  · rintro ⟨hdm, hvm⟩
    refine ⟨m, ⟨desc, hdescRead, hmax.trans hdm, fun htext l hl => ?_⟩, fun l _ => hgreatest l⟩
    rw [htype] at htext
    rw [← hvm htext]
    exact hread htext l hl

/-! ## The descriptions of the objects -/

/-- The first hexadecimal digit of an index. -/
theorem le_top {c : UInt16} {k : ℕ} (hc : c.toNat = 2 ^ 12 * k) :
    c ≤ index ↔ c ≤ index &&& 0xF000 := by
  have hlt := index.toNat_lt
  have hq : index.toNat / 2 ^ 12 < 2 ^ 4 := by omega
  have htop : (index &&& 0xF000).toNat = 2 ^ 12 * (index.toNat / 2 ^ 12) := by
    rw [UInt16.toNat_and]
    conv_lhs => rw [← Nat.div_add_mod index.toNat (2 ^ 12)]
    rw [show (0xF000 : UInt16).toNat = 2 ^ 12 * 15 from rfl,
      and_mask (Nat.mod_lt _ (Nat.two_pow_pos 12)),
      Nat.and_two_pow_sub_one_of_lt_two_pow (n := 4) hq]
  rw [UInt16.le_iff_toNat_le, UInt16.le_iff_toNat_le, htop, hc]
  omega

theorem descRead_own (hobj : getObject env pec index = some o)
    (htop : 0xF000 ≤ index → index = 0xF000 ∨ index = 0xF002)
    (hgroup : index &&& 0xFF01 = 0x2001 → 0x8000 ≤ index ∨ index &&& o.indexMask = 0x3000) :
    ∃ desc, ecCoeMasterSdoDescRead env pec index = (.ok, some desc) ∧
      desc.dataType = o.objDesc.dataType ∧
      desc.maxSubindices.toNat = o.objDesc.maxSubindices.toNat := by
  rw [ecCoeMasterSdoDescRead, hobj]
  refine ⟨_, rfl, ?_⟩
  split_ifs with h1 h2 h3 h4 h5
  · exact absurd (htop h1) (by rw [not_or]; exact h2)
  · exact ⟨rfl, rfl⟩
  · exact ⟨rfl, rfl⟩
  · exact ⟨rfl, rfl⟩
  · exact absurd (hgroup h5) h3
  · exact ⟨rfl, rfl⟩

theorem countAssigned_toNat (pec : Master) (group : ℕ) :
    (countAssigned pec group).toNat = (assigned pec group).length % 256 := by
  have hfold (l : List ℕ) (n : UInt8) :
      (l.foldl (fun n s => if (pec.slaves s).assignedPdGroup = (group : ℤ) then n + 1 else n)
        n).toNat =
      (n.toNat +
        (l.filter fun s => (pec.slaves s).assignedPdGroup = (group : ℤ)).length) % 256 := by
    induction l generalizing n with
    | nil => exact (Nat.mod_eq_of_lt n.toNat_lt).symm
    | cons s l ih =>
      rw [List.foldl_cons, ih, List.filter_cons]
      by_cases hs : (pec.slaves s).assignedPdGroup = (group : ℤ)
      · rw [if_pos hs, if_pos (by simpa using hs), List.length_cons, UInt8.toNat_add]
        show ((n.toNat + 1) % 256 + _) % 256 = _
        omega
      · rw [if_neg hs, if_neg (by simpa using hs)]
  exact (hfold _ 0).trans (by rw [UInt8.toNat_zero, Nat.zero_add]; rfl)

theorem descRead_group (hobj : getObject env pec index = some o)
    (hmask : o.indexMask = 0xFF01) (hgroup : index &&& 0xFF01 = 0x2001) :
    ∃ desc, ecCoeMasterSdoDescRead env pec index = (.ok, some desc) ∧
      desc.dataType = o.objDesc.dataType ∧
      desc.maxSubindices.toNat = (assigned pec (groupOf index)).length % 256 := by
  have htop : index &&& 0xF000 = 0x2000 := by
    rw [show (0xF000 : UInt16) = 0xFF01 &&& 0xF000 from rfl, ← UInt16.and_assoc, hgroup]
    rfl
  have h1 : ¬0xF000 ≤ index := by
    rw [le_top (k := 15) rfl, htop]
    decide
  have h2 : ¬(0x8000 ≤ index ∨ index &&& o.indexMask = 0x3000) := by
    rw [le_top (k := 8) rfl, htop, hmask, hgroup]
    decide
  have h3 : ¬index &&& 0xFF01 = 0x2000 := by
    rw [hgroup]
    decide
  rw [ecCoeMasterSdoDescRead, hobj]
  refine ⟨_, rfl, ?_⟩
  rw [if_neg h1, if_neg h2, if_neg h3, if_pos hgroup]
  exact ⟨rfl, countAssigned_toNat pec (groupOf index)⟩

/-! ## The lists of addresses -/

theorem rangeOf_le (index : UInt16) : rangeOf index ≤ 15 := by
  rw [rangeOf, UInt16.toNat_and]
  exact Nat.and_le_right

/-- The description has a range of 256 slaves. -/
theorem descRead_range (hobj : getObject env pec index = some o)
    (hlist : index &&& 0xFFF0 = 0xF020 ∨ index &&& 0xFFF0 = 0xF040) :
    ∃ desc, ecCoeMasterSdoDescRead env pec index = (.ok, some desc) ∧
      desc.numbers = [rangeOf index * 256, rangeOf index * 256 + 255] := by
  have htop : index &&& 0xF000 = 0xF000 := by
    rw [show (0xF000 : UInt16) = 0xFFF0 &&& 0xF000 from rfl, ← UInt16.and_assoc]
    rcases hlist with h | h <;> rw [h] <;> rfl
  have h1 : 0xF000 ≤ index := by
    rw [le_top (k := 15) rfl, htop]
    exact UInt16.le_refl _
  have h2 : index ≠ 0xF000 ∧ index ≠ 0xF002 := by
    constructor
    · rintro rfl
      exact absurd hlist (by decide)
    · rintro rfl
      exact absurd hlist (by decide)
  rw [ecCoeMasterSdoDescRead, hobj]
  refine ⟨_, rfl, ?_⟩
  rw [if_pos h1, if_pos h2]

/-- An entry names one of 255 slaves. -/
theorem names_iff (hobj : getObject env pec index = some o) (hmax : o.maxSubindices = 255)
    (harr : o.objDesc.objCode = .arr)
    (hlist : index &&& 0xFFF0 = 0xF020 ∨ index &&& 0xFFF0 = 0xF040) {subIndex : UInt8}
    (hsub : subIndex ≠ 0) (slave : ℕ) :
    Names env pec index subIndex slave ↔ slave + 1 = rangeOf index * 255 + subIndex.toNat := by
  have hle : subIndex.toNat ≤ o.maxSubindices := by
    have := subIndex.toNat_lt
    omega
  have hpos : subIndex.toNat ≠ 0 := fun h => hsub (UInt8.toNat_inj.1 h)
  have hrange := rangeOf_le index
  rw [Names, ecCoeMasterSdoEntryDescRead, hobj]
  dsimp only
  rw [if_pos hle, if_pos ⟨hsub, harr⟩, if_pos hlist]
  simp only [Prod.mk.injEq, Option.some.injEq, true_and, exists_eq_left', List.cons.injEq, and_true]
  omega

theorem not_rangesAgree (hobj : getObject env pec index = some o) (hmax : o.maxSubindices = 255)
    (harr : o.objDesc.objCode = .arr) (hindex : o.index = 0xF020 ∨ o.index = 0xF040)
    (hlist : index &&& 0xFFF0 = 0xF020 ∨ index &&& 0xFFF0 = 0xF040) :
    ¬RangesAgree env pec index := by
  intro h
  obtain ⟨desc, first, last, hdesc, hnumbers, hslaves, -⟩ := h o hobj hindex
  obtain ⟨desc', hdesc', hnumbers'⟩ := descRead_range hobj hlist
  obtain rfl : desc = desc' := by
    rw [hdesc, Prod.mk.injEq] at hdesc'
    exact Option.some.inj hdesc'.2
  simp only [hnumbers, List.cons.injEq, and_true] at hnumbers'
  -- the last slave of the range would need a subindex behind 255
  obtain ⟨subIndex, hsub, hnames⟩ := (hslaves last).1 ⟨by omega, le_rfl⟩
  rw [names_iff hobj hmax harr hlist hsub] at hnames
  have hlt := subIndex.toNat_lt
  omega

/-! ## All objects -/

theorem leNumber_leBytes_one (v : ℕ) : leNumber (leBytes 1 v) = v % 256 := by
  simp [leNumber, leBytes]

/-- An object with data is answered up to its number of subindices. -/
theorem static_greatest {data : List UInt8} (hobj : getObject env pec index = some o)
    (hread : o.read = none) (hdata : o.data = some data) {m : UInt8}
    (hm : o.maxSubindices = m.toNat) (len : ℕ) :
    IsGreatest (answered env pec index len) m.toNat := by
  constructor
  · refine ⟨m, rfl, ?_⟩
    rw [ecCoeMasterSdoRead_static hobj hread hdata]
    exact congrArg Prod.fst (staticRead_some (getObjectData_single (Nat.le_of_eq hm.symm)) data len)
  · rintro s ⟨subIndex, rfl, hret⟩
    by_contra hlt
    have hnone : (getObjectData o subIndex.toNat false).1 = none := by
      simp [getObjectData, hm, hlt]
    rw [ecCoeMasterSdoRead_static hobj hread hdata, staticRead_none hnone] at hret
    cases hret

/-- What is read from subindex 0 of an object with data. -/
theorem static_number {data : List UInt8} {v : ℕ} (hobj : getObject env pec index = some o)
    (hread : o.read = none) (hdata : o.data = some data) (hentry : o.entryLen 0 ≤ 4)
    (hv : leNumber (data.take (o.entryLen 0)) = v) : ∀ len ≥ 4,
      (ecCoeMasterSdoRead env pec index 0 false len).ret = .ok ∧
      leNumber ((ecCoeMasterSdoRead env pec index 0 false len).written.take
        (ecCoeMasterSdoRead env pec index 0 false len).len) = v := by
  intro len hlen
  have houtcome := staticRead_some (getObjectData_single (Nat.zero_le o.maxSubindices)) data len
  simp only [Reply.outcome, Prod.mk.injEq] at houtcome
  obtain ⟨hret, hn, hwritten⟩ := houtcome
  rw [ecCoeMasterSdoRead_static hobj hread hdata]
  refine ⟨hret, ?_⟩
  show leNumber ((staticRead o data 0 false len).written.take (staticRead o data 0 false len).len) = v
  rw [hwritten, hn, if_pos (hentry.trans hlen), List.take_take, Nat.min_self, ← hv]
  rfl

/-- What is read from subindex 0 of an object that puts one byte. -/
theorem byte_number {v : ℕ} {read : Callback} (hobj : getObject env pec index = some o)
    (hread : o.read = some read)
    (hgives : ∀ len, (Entry.number 1 v).Gives env pec false len (read env pec index 0 false len)) :
    ∀ len ≥ 4, (ecCoeMasterSdoRead env pec index 0 false len).ret = .ok ∧
      leNumber ((ecCoeMasterSdoRead env pec index 0 false len).written.take
        (ecCoeMasterSdoRead env pec index 0 false len).len) = v % 256 := by
  intro len hlen
  rw [ecCoeMasterSdoRead_callback hobj hread]
  obtain ⟨hret, hnumber⟩ := (hgives len).read (show 1 ≤ len by omega)
  exact ⟨hret, by rw [hnumber, leNumber_leBytes_one]⟩

/-- An object that has its number of subindices everywhere. -/
def Consistent (pec : Master) (o : Object) (index : UInt16) : Prop :=
  o.index ∉ ([0x2000, 0x8000, 0xF020, 0xF040] : List UInt16) ∧
    (o.index = 0x2001 → (assigned pec (groupOf index)).length % 256 = 255) ∧
    (o.index = 0xF002 → pec.detectModules 0 = 3)

/-- The indices of the objects with data are described as they are. -/
theorem plain_index :
    ∀ i ∈ ([0x1000, 0x1008, 0x1009, 0x100A, 0x1018, 0xF000, 0xF002] : List UInt16),
    (0xF000 ≤ i → i = 0xF000 ∨ i = 0xF002) ∧ i &&& 0xFF01 ≠ 0x2001 := by
  simp only [List.forall_mem_cons, List.not_mem_nil, false_imp_iff, implies_true, and_true]
  decide +kernel

/-- An object with data agrees with itself but for what is stored at subindex 0. -/
theorem counts_data_iff {data : List UInt8} {m : UInt8} (hobj : getObject env pec index = some o)
    (hread : o.read = none) (hdata : o.data = some data) (hm : o.maxSubindices = m.toNat)
    (hindex : index ∈ ([0x1000, 0x1008, 0x1009, 0x100A, 0x1018, 0xF000, 0xF002] : List UInt16))
    (hentry : o.objDesc.dataType ≠ deftypeVisiblestring → o.entryLen 0 ≤ 4) :
    (∃ n, Counts env pec index n) ↔
      (o.objDesc.dataType ≠ deftypeVisiblestring →
        leNumber (data.take (o.entryLen 0)) = m.toNat) := by
  have hmax : o.objDesc.maxSubindices.toNat = m.toNat := by
    show (UInt8.ofNat o.maxSubindices).toNat = _
    rw [hm, UInt8.ofNat_toNat]
  obtain ⟨htop, hgroup⟩ := plain_index index hindex
  refine (counts_exists_iff (descRead_own hobj htop fun h => absurd h hgroup)
    (static_greatest hobj hread hdata hm) fun htext =>
      static_number hobj hread hdata (hentry htext) rfl).trans ?_
  exact and_iff_right hmax

theorem consistent_of_not_mem {i : UInt16} (hi : o.index = i)
    (h : i ∉ ([0x2000, 0x2001, 0x8000, 0xF002, 0xF020, 0xF040] : List UInt16)) :
    Consistent pec o index := by
  subst hi
  simp only [List.mem_cons, List.not_mem_nil, or_false, not_or] at h
  obtain ⟨h0, h1, h2, h3, h4, h5⟩ := h
  exact ⟨by simp [h0, h2, h4, h5], fun heq => absurd heq h1, fun heq => absurd heq h3⟩

/-- The objects with data. -/
theorem counts_static (ho : o ∈ dict env pec) (hobj : getObject env pec index = some o)
    (hread : o.read = none) : (∃ n, Counts env pec index n) ↔ Consistent pec o index := by
  simp only [dict, List.mem_cons, List.not_mem_nil, or_false] at ho
  rcases ho with rfl | rfl | rfl | rfl | rfl | rfl | rfl | rfl | rfl | rfl | rfl | rfl | rfl | rfl |
    rfl
  any_goals cases hread
  all_goals obtain rfl := index_eq_of_data hobj (Option.some_ne_none _)
  · -- 0x1000
    refine (counts_data_iff (m := 0) hobj rfl rfl rfl (by decide) fun _ => by decide).trans ?_
    exact iff_of_true (fun _ => by decide) (consistent_of_not_mem (i := 0x1000) rfl (by decide))
  · -- 0x1008
    refine (counts_data_iff (m := 0) hobj rfl rfl rfl (by decide) fun h => absurd rfl h).trans ?_
    exact iff_of_true (fun h => absurd rfl h) (consistent_of_not_mem (i := 0x1008) rfl (by decide))
  · -- 0x1009
    refine (counts_data_iff (m := 0) hobj rfl rfl rfl (by decide) fun h => absurd rfl h).trans ?_
    exact iff_of_true (fun h => absurd rfl h) (consistent_of_not_mem (i := 0x1009) rfl (by decide))
  · -- 0x100A
    have hplain : (0x100A : UInt16) ∈
        ([0x1000, 0x1008, 0x1009, 0x100A, 0x1018, 0xF000, 0xF002] : List UInt16) := by decide
    refine (counts_data_iff (m := 0) hobj rfl rfl rfl hplain fun h => absurd rfl h).trans ?_
    exact iff_of_true (fun h => absurd rfl h) (consistent_of_not_mem (i := 0x100A) rfl (by decide))
  · -- 0x1018
    refine (counts_data_iff (m := 4) hobj rfl rfl rfl (by decide) fun _ => by decide).trans ?_
    exact iff_of_true (fun _ => by decide) (consistent_of_not_mem (i := 0x1018) rfl (by decide))
  · -- 0xF000
    refine (counts_data_iff (m := 4) hobj rfl rfl rfl (by decide) fun _ => by decide).trans ?_
    exact iff_of_true (fun _ => by decide) (consistent_of_not_mem (i := 0xF000) rfl (by decide))
  · -- 0xF002
    have hplain : (0xF002 : UInt16) ∈
        ([0x1000, 0x1008, 0x1009, 0x100A, 0x1018, 0xF000, 0xF002] : List UInt16) := by decide
    refine (counts_data_iff (m := 3) hobj rfl rfl rfl hplain fun _ => ?_).trans ?_
    · simp [Object.static, Object.entryLen]
    · have hfirst :
          leNumber ((List.ofFn pec.detectModules).take 1) = (pec.detectModules 0).toNat := by
        simp [leNumber, List.ofFn_succ]
      have hlen : (Object.static 0xF002 3 [8, 16, 8, 48]
          (List.ofFn pec.detectModules)).entryLen 0 = 1 := by
        simp [Object.static, Object.entryLen]
      rw [hlen, hfirst]
      constructor
      · intro h
        exact ⟨by simp [Object.static],
          fun heq => absurd heq (show (0xF002 : UInt16) ≠ 0x2001 by decide),
          fun _ => UInt8.toNat_inj.1 (h (show deftypeRecord ≠ deftypeVisiblestring by decide))⟩
      · rintro ⟨-, -, h⟩ -
        rw [h rfl]

/-- The entries of a table are answered up to its end. -/
theorem table_greatest {ex : Prop} [Decidable ex] {bits values : List ℕ} {m : UInt8}
    {read : Callback} (hobj : getObject env pec index = some o) (hread : o.read = some read)
    (hentry : ∀ s, callbackEntry pec o.index index s = tableEntry ex bits values s)
    (hm : values.length = m.toNat + 1) (len : ℕ) :
    IsGreatest (answered env pec index len) m.toNat := by
  refine isGreatest_answered hobj hread ?_ (fun s hs _ => ?_) len
  · rw [hentry, tableEntry, List.getElem?_eq_getElem (by omega)]
    exact isOk_of trivial
  · rw [hentry, tableEntry_refused (by omega)]

theorem top_of_mask {mask key : UInt16} (hkey : key = index &&& mask)
    (hmask : mask &&& 0xF000 = 0xF000) : index &&& 0xF000 = key &&& 0xF000 := by
  rw [hkey, UInt16.and_assoc, hmask]

/-- The objects of groups and slaves below 0xF000 are described as they are, but for 0x20nm. -/
theorem descRead_masked {top : UInt16} (hobj : getObject env pec index = some o)
    (htop : index &&& 0xF000 = top) (hlow : top < 0xF000)
    (hgroup : index &&& 0xFF01 = 0x2001 → 0x8000 ≤ top ∨ index &&& o.indexMask = 0x3000) :
    ∃ desc, ecCoeMasterSdoDescRead env pec index = (.ok, some desc) ∧
      desc.dataType = o.objDesc.dataType ∧
      desc.maxSubindices.toNat = o.objDesc.maxSubindices.toNat := by
  refine descRead_own hobj (fun h => ?_) fun h => (hgroup h).imp_left fun hle => ?_
  · rw [le_top (k := 15) rfl, htop] at h
    exact absurd hlow (UInt16.not_lt.2 h)
  · rw [le_top (k := 8) rfl, htop]
    exact hle

/-- Such an object puts `v` for subindex 0, and answers up to `m`. -/
theorem counts_masked_iff {top : UInt16} {m v : ℕ} {read : Callback}
    (hobj : getObject env pec index = some o) (hread : o.read = some read)
    (htop : index &&& 0xF000 = top) (hlow : top < 0xF000)
    (hgroup : index &&& 0xFF01 = 0x2001 → 0x8000 ≤ top ∨ index &&& o.indexMask = 0x3000)
    (hgreatest : ∀ len, IsGreatest (answered env pec index len) m)
    (hgives : ∀ len, (Entry.number 1 v).Gives env pec false len (read env pec index 0 false len)) :
    (∃ n, Counts env pec index n) ↔ o.objDesc.maxSubindices.toNat = m ∧
      (o.objDesc.dataType ≠ deftypeVisiblestring → v % 256 = m) :=
  counts_exists_iff (descRead_masked hobj htop hlow hgroup) hgreatest
    fun _ => byte_number hobj hread hgives

theorem rangesAgree_of (hobj : getObject env pec index = some o)
    (hindex : o.index ≠ 0xF020 ∧ o.index ≠ 0xF040) : RangesAgree env pec index := by
  intro o' hobj' hlist
  obtain rfl := Option.some.inj (hobj.symm.trans hobj')
  exact absurd hlist (not_or.2 hindex)

theorem configuration_refused {pec : Master} {slave s : ℕ} (h : s > 34) :
    configurationEntry pec slave s = .refused := by
  unfold configurationEntry
  split
  any_goals omega
  rfl

theorem information_refused {pec : Master} {slave s : ℕ} (h : s > 32) :
    informationEntry pec slave s = .refused := by
  unfold informationEntry
  split
  any_goals omega
  rfl

theorem diagnosis_refused {pec : Master} {slave s : ℕ} (h : s > 2) :
    diagnosisEntry pec slave s = .refused := by
  unfold diagnosisEntry
  split
  any_goals omega
  rfl

/-- An object with data is no list of addresses. -/
theorem rangesAgree_static (ho : o ∈ dict env pec) (hobj : getObject env pec index = some o)
    (hread : o.read = none) : RangesAgree env pec index := by
  refine rangesAgree_of hobj ?_
  simp only [dict, List.mem_cons, List.not_mem_nil, or_false] at ho
  rcases ho with rfl | rfl | rfl | rfl | rfl | rfl | rfl | rfl | rfl | rfl | rfl | rfl | rfl | rfl |
    rfl
  any_goals cases hread
  all_goals simp [Object.string, Object.static]

/-- The objects with a callback. -/
theorem counts_callback {read : Callback} (ho : o ∈ dict env pec)
    (hobj : getObject env pec index = some o) (hread : o.read = some read) :
    (∃ n, Counts env pec index n) ∧ RangesAgree env pec index ↔ Consistent pec o index := by
  have hkey : o.index = index &&& o.indexMask := by simpa using List.find?_some hobj
  simp only [dict, List.mem_cons, List.not_mem_nil, or_false] at ho
  rcases ho with rfl | rfl | rfl | rfl | rfl | rfl | rfl | rfl | rfl | rfl | rfl | rfl | rfl | rfl |
    rfl
  any_goals cases hread
  · -- 0x20nn: 11 is read, and 13 are described and answered
    refine iff_of_false (fun h => ?_) fun h => h.1 (by decide)
    have hthree := (counts_masked_iff (v := 11) hobj rfl (top_of_mask hkey rfl) (by decide)
      (fun h => absurd (hkey.trans h) (by decide))
      (table_greatest (m := 13) hobj rfl (fun _ => rfl) rfl) fun _ => gives_bufPut ..).1 h.1
    exact absurd (hthree.2 (by decide)) (by decide)
  · -- 0x20nm: every subindex is answered
    rw [and_iff_left (rangesAgree_of hobj (by decide))]
    refine (counts_exists_iff (descRead_group hobj rfl hkey.symm)
      (isGreatest_answered (m := 255) hobj rfl ?_ fun s hs hlt => absurd hlt (Nat.not_lt.2 hs))
      fun _ => byte_number hobj rfl fun _ =>
        gives_of_outcome (callbackMaster0x20nm_count env pec index false _)).trans ?_
    · show (Entry.of _ (assignedEntry pec (groupOf index) (254 + 1))).isOk
      refine isOk_of ?_
      rw [assignedEntry]
      split <;> trivial
    · constructor
      · rintro ⟨hcount, -⟩
        exact ⟨by decide, fun _ => hcount, fun h => absurd h (by decide)⟩
      · rintro ⟨-, hcount, -⟩
        exact ⟨hcount rfl, fun _ => hcount rfl⟩
  · -- 0x3nnn
    rw [and_iff_left (rangesAgree_of hobj (by decide))]
    refine (counts_masked_iff (v := 13) hobj rfl (top_of_mask hkey rfl) (by decide)
      (fun _ => Or.inr hkey.symm) (table_greatest (m := 13) hobj rfl (fun _ => rfl) rfl)
      fun _ => gives_bufPut ..).trans ?_
    exact iff_of_true ⟨rfl, fun _ => rfl⟩ (consistent_of_not_mem (i := 0x3000) rfl (by decide))
  · -- 0x8nnn: 35 are described, and the last is not answered
    refine iff_of_false (fun h => ?_) fun h => h.1 (by decide)
    have hthree := (counts_masked_iff (v := 35) hobj rfl (top_of_mask hkey rfl) (by decide)
      (fun _ => Or.inl (by decide))
      (isGreatest_answered (m := 34) hobj rfl (isOk_of trivial) fun s hs _ => configuration_refused hs)
      fun _ => gives_bufPut ..).1 h.1
    exact absurd hthree.1 (by decide)
  · -- 0x9nnn
    rw [and_iff_left (rangesAgree_of hobj (by decide))]
    refine (counts_masked_iff (v := 32) hobj rfl (top_of_mask hkey rfl) (by decide)
      (fun _ => Or.inl (by decide))
      (isGreatest_answered (m := 32) hobj rfl (isOk_of trivial) fun s hs _ => information_refused hs)
      fun _ => gives_bufPut ..).trans ?_
    exact iff_of_true ⟨rfl, fun _ => rfl⟩ (consistent_of_not_mem (i := 0x9000) rfl (by decide))
  · -- 0xAnnn
    rw [and_iff_left (rangesAgree_of hobj (by decide))]
    refine (counts_masked_iff (v := 2) hobj rfl (top_of_mask hkey rfl) (by decide)
      (fun _ => Or.inl (by decide))
      (isGreatest_answered (m := 2) hobj rfl (isOk_of trivial) fun s hs _ => diagnosis_refused hs)
      fun _ => gives_bufPut ..).trans ?_
    exact iff_of_true ⟨rfl, fun _ => rfl⟩ (consistent_of_not_mem (i := 0xA000) rfl (by decide))
  · -- 0xF02n
    refine iff_of_false (fun h => ?_) fun h => h.1 (by decide)
    exact not_rangesAgree hobj rfl rfl (Or.inl rfl) (Or.inl hkey.symm) h.2
  · -- 0xF04n
    refine iff_of_false (fun h => ?_) fun h => h.1 (by decide)
    exact not_rangesAgree hobj rfl rfl (Or.inr rfl) (Or.inr hkey.symm) h.2

/-- **When descriptions and data agree.** -/
theorem descriptions_agree_iff (env : Env) (pec : Master) (index : UInt16) :
    (∃ n, Counts env pec index n) ∧ RangesAgree env pec index ↔
      ∃ o, getObject env pec index = some o ∧ Consistent pec o index := by
  cases hobj : getObject env pec index with
  | none =>
    refine iff_of_false ?_ (by simp)
    rintro ⟨⟨n, ⟨desc, hdesc, -⟩, -⟩, -⟩
    rw [ecCoeMasterSdoDescRead, hobj] at hdesc
    cases hdesc
  | some o =>
    simp only [Option.some.injEq, exists_eq_left']
    have ho := List.mem_of_find?_eq_some hobj
    cases hread : o.read with
    | none =>
      exact (and_iff_left (rangesAgree_static ho hobj hread)).trans (counts_static ho hobj hread)
    | some read => exact counts_callback ho hobj hread

/-- The first group: its subindex 0 is 11, and 13 subindices are described. -/
theorem descriptions_group : 0x2000 ∈ odlist smallMaster ∧
    ¬((∃ n, Counts silentEnv smallMaster 0x2000 n) ∧ RangesAgree silentEnv smallMaster 0x2000) := by
  refine ⟨by decide +kernel, ?_⟩
  rintro ⟨⟨n, ⟨desc, hdesc, hmax, hnumber⟩, -⟩, -⟩
  have hdescribed : (ecCoeMasterSdoDescRead silentEnv smallMaster 0x2000).2.map
      (fun d => (d.maxSubindices.toNat, d.dataType)) = some (13, deftypeRecord) := by decide +kernel
  have hread : leNumber ((ecCoeMasterSdoRead silentEnv smallMaster 0x2000 0 false 4).written.take
      (ecCoeMasterSdoRead silentEnv smallMaster 0x2000 0 false 4).len) = 11 := by decide +kernel
  rw [hdesc, Option.map_some, Option.some.injEq, Prod.mk.injEq] at hdescribed
  have heq := (hnumber (by rw [hdescribed.2]; decide) 4 le_rfl).2
  rw [hread, ← hmax, hdescribed.1] at heq
  exact absurd heq (by decide)

end LibEthercat.CoeMaster
