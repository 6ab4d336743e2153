import LibEthercat.CoeMaster.Entries
import LibEthercat.Lib.Layout

/-!
# What a read of the dictionary promises

The objects without a callback are plain values, and records whose number of entries is kept in two
bytes (`Stored`). A read finds a value with the entry description, which has its length in bits in 16
bits, and complete access takes subindex 0 to have two bytes and the value to begin behind it. If the
buffer is too small, nothing is copied, and `EC_OK` is returned.

**Theorem (`sdo_read_contract_iff`).** The contract is kept just if

* a plain value is read by itself, is shorter than 8192 bytes, and there is room for it, or it has
  two bytes; and there is room for what is read of a record, from subindex 0 or 1 if all of it is;
* behind a callback, without complete access, the buffer has room for what is stored here, the slave
  keeps the contract for what is asked of a slave, or a register is answered;
* the read is refused where there is nothing, and where a callback is asked for complete access.
-/

namespace LibEthercat.CoeMaster

variable {env : Env} {pec : Master} {o : Object} {data : List UInt8} {len subIndex : ℕ}
  {complete : Bool}

/-! ## Values and records -/

/-- What an object of the master is: a plain value, or entries, with the bytes of subindex 0. -/
inductive Stored
  | var (value : List UInt8)
  | record (count : List UInt8) (entries : List (List UInt8))

/-- The value under a subindex. Complete access is to all entries, from subindex 0 with the two bytes
in front of them, and from subindex 1 without. -/
def Stored.value : Stored → ℕ → Bool → Option (List UInt8)
  | var value, 0, _ => some value
  | var _, _ + 1, _ => none
  | record count _, 0, false => some (count.take 1)
  | record _ entries, i + 1, false => entries[i]?
  | record count entries, 0, true => some (count ++ entries.flatten)
  | record _ entries, 1, true => some entries.flatten
  | record _ _, _ + 2, true => none

/-- The objects of the master: device type, name, versions, identity, device profile, and the
command to detect modules. -/
def masterObject (env : Env) (pec : Master) (object : UInt16) : Option Stored :=
  let d := List.ofFn pec.detectModules
  if object = 0x1000 then some (.var (leBytes 4 0))
  else if object = 0x1008 then some (.var packageName)
  else if object = 0x1009 then some (.var hwVersion)
  else if object = 0x100A then some (.var env.version)
  else if object = 0x1018 then some (.record (leBytes 2 4)
    [leBytes 4 0x1616, leBytes 4 0x11BECA7, leBytes 4 0, leBytes 4 0])
  else if object = 0xF000 then some (.record (leBytes 2 4)
    [leBytes 2 1, leBytes 2 4080, leBytes 4 0xFF, leBytes 4 0xF1])
  else if object = 0xF002 then some (.record (d.take 2)
    [(d.drop 2).take 2, (d.drop 4).take 1, d.drop 5])
  else none

/-- So many bytes are read for the value. -/
def Stored.readLen (value : List UInt8) : Stored → Bool → ℕ
  | var _, false => value.length % 2 ^ 13
  | var _, true => 2
  | record _ _, _ => value.length

/-- When a read keeps the contract. -/
def Stored.Kept (st : Stored) (subIndex : ℕ) (complete : Bool) (len : ℕ) : Prop :=
  match st.value subIndex complete with
  | some value => st.readLen value complete = value.length ∧ value.length ≤ len
  | none => complete = false

/-- The descriptors and the data of an object are those of what it is. -/
def Stored.Laid (o : Object) (data : List UInt8) : Stored → Prop
  | var value => o.maxSubindices = 0 ∧ o.entryLen 0 = value.length % 2 ^ 13 ∧ value <+: data
  | record count entries => count.length = 2 ∧ data = count ++ entries.flatten ∧
    o.entryLen 0 = 1 ∧ (List.range' 1 o.maxSubindices).map o.entryLen = entries.map List.length

theorem laid_string {index : UInt16} {s : List UInt8} :
    (Stored.var s).Laid (.string index s) (s ++ [0]) := by
  refine ⟨rfl, ?_, List.prefix_append _ _⟩
  show s.length * 8 % 65536 / 8 = s.length % 2 ^ 13
  omega

/-- The objects with data are those of the master. -/
theorem dict_stored (ho : o ∈ dict env pec) :
    (∃ read, o.read = some read ∧ masterObject env pec o.index = none) ∨
      ∃ data st, (o.read = none ∧ o.data = some data) ∧
        masterObject env pec o.index = some st ∧ st.Laid o data := by
  simp only [dict, List.mem_cons, List.not_mem_nil, or_false] at ho
  rcases ho with rfl | rfl | rfl | rfl | rfl | rfl | rfl | rfl | rfl | rfl | rfl | rfl | rfl | rfl |
    rfl
  · exact Or.inr ⟨_, _, ⟨rfl, rfl⟩, rfl, rfl, by decide, List.prefix_rfl⟩
  · exact Or.inr ⟨_, _, ⟨rfl, rfl⟩, rfl, laid_string⟩
  · exact Or.inr ⟨_, _, ⟨rfl, rfl⟩, rfl, laid_string⟩
  · exact Or.inr ⟨_, _, ⟨rfl, rfl⟩, rfl, laid_string⟩
  · exact Or.inr ⟨_, _, ⟨rfl, rfl⟩, rfl, by decide, by decide, by decide, by decide⟩
  · exact Or.inl ⟨_, rfl, rfl⟩
  · exact Or.inl ⟨_, rfl, rfl⟩
  · exact Or.inl ⟨_, rfl, rfl⟩
  · exact Or.inl ⟨_, rfl, rfl⟩
  · exact Or.inl ⟨_, rfl, rfl⟩
  · exact Or.inl ⟨_, rfl, rfl⟩
  · exact Or.inr ⟨_, _, ⟨rfl, rfl⟩, rfl, by decide, by decide, by decide, by decide⟩
  · exact Or.inr ⟨_, _, ⟨rfl, rfl⟩, rfl, rfl, by simp, by simp [Object.static, Object.entryLen],
      by simp [Object.static, Object.entryLen, List.range']⟩
  · exact Or.inl ⟨_, rfl, rfl⟩
  · exact Or.inl ⟨_, rfl, rfl⟩

/-! ## Reads of data -/

theorem staticRead_none (h : (getObjectData o subIndex complete).1 = none) (data : List UInt8)
    (len : ℕ) : (staticRead o data subIndex complete len).ret = .mailboxAbort := by
  rw [staticRead]
  generalize getObjectData o subIndex complete = r at h
  obtain ⟨r, touched⟩ := r
  cases h
  rfl

theorem staticRead_some {pos n : ℕ} (h : (getObjectData o subIndex complete).1 = some (pos, n))
    (data : List UInt8) (len : ℕ) : (staticRead o data subIndex complete len).outcome =
      (.ok, n, if n ≤ len then (data.drop pos).take n else []) := by
  rw [staticRead]
  generalize getObjectData o subIndex complete = r at h
  obtain ⟨r, touched⟩ := r
  cases h
  dsimp only
  split_ifs <;> rfl

/-- A read of `n` bytes, which are the value if that has so many. -/
theorem contract_staticRead {value : List UInt8} {pos n : ℕ}
    (hget : (getObjectData o subIndex complete).1 = some (pos, n))
    (hbytes : n = value.length → (data.drop pos).take value.length = value) :
    Contract (some value) len (staticRead o data subIndex complete len) ↔
      n = value.length ∧ value.length ≤ len := by
  have hread := staticRead_some hget data len
  simp only [Reply.outcome, Prod.mk.injEq] at hread
  obtain ⟨hret, hlen, hwritten⟩ := hread
  rw [contract_some hret, hlen, hwritten]
  constructor
  · rintro ⟨-, hn, hroom⟩
    exact ⟨hn, hroom⟩
  · rintro ⟨rfl, hroom⟩
    rw [if_pos hroom, hbytes rfl]
    exact ⟨List.prefix_rfl, rfl, hroom⟩

theorem getObjectData_single (hle : subIndex ≤ o.maxSubindices) :
    (getObjectData o subIndex false).1 = some (o.entryPos subIndex, o.entryLen subIndex) := by
  simp [getObjectData, hle]

theorem getObjectData_complete (o : Object) (subIndex : ℕ) :
    (getObjectData o subIndex true).1 = some (if subIndex ≠ 0 then 2 else 0,
      (if subIndex = 0 then 2 else 0) +
        ((List.range' 1 o.maxSubindices).map o.entryLen).sum) := by
  simp [getObjectData, getObjectLength]

/-- An entry of a record is where its descriptors say. -/
theorem entry_of_lengths {count : List UInt8} {entries : List (List UInt8)} {i : ℕ}
    (hcount : count.length = 2)
    (hlengths : (List.range' 1 o.maxSubindices).map o.entryLen = entries.map List.length)
    (hi : i < entries.length) : i < o.maxSubindices ∧ o.entryLen (i + 1) = entries[i].length ∧
      ((count ++ entries.flatten).drop (o.entryPos (i + 1))).take entries[i].length =
        entries[i] := by
  have hmax : o.maxSubindices = entries.length := by
    have hlength := congrArg List.length hlengths
    simpa using hlength
  have hlen : o.entryLen (i + 1) = entries[i].length := by
    have hget := congrArg (fun l => l[i]?) hlengths
    rw [hmax] at hget
    simpa [hi, Nat.add_comm] using hget
  have hpos : o.entryPos (i + 1) = count.length + ((entries.map List.length).take i).sum := by
    rw [Object.entryPos, if_neg (Nat.succ_ne_zero i), Nat.add_sub_cancel, ← hlengths, hmax,
      ← List.map_take, List.take_range'_of_length_ge (Nat.le_of_lt hi), hcount]
  refine ⟨hmax ▸ hi, hlen, ?_⟩
  rw [hpos, List.drop_length_add_append, Layout.flatten_part hi]

/-- What a read finds. -/
theorem Stored.Laid.reads {st : Stored} (h : st.Laid o data) {value : List UInt8}
    (hvalue : st.value subIndex complete = some value) :
    ∃ pos, (getObjectData o subIndex complete).1 = some (pos, st.readLen value complete) ∧
      (st.readLen value complete = value.length →
        (data.drop pos).take value.length = value) := by
  cases st with
  | var v =>
    obtain ⟨hmax, hlen, rest, rfl⟩ := h
    cases subIndex with
    | succ i => cases hvalue
    | zero =>
      cases hvalue
      refine ⟨0, ?_, fun _ => by simp⟩
      cases complete with
      | false => rw [getObjectData_single (Nat.zero_le _), hlen]; rfl
      | true => rw [getObjectData_complete, hmax]; rfl
  | record count entries =>
    obtain ⟨hcount, rfl, hfirst, hlengths⟩ := h
    have hsum : ((List.range' 1 o.maxSubindices).map o.entryLen).sum = entries.flatten.length := by
      rw [hlengths, List.length_flatten]
    have hbehind : (count ++ entries.flatten).drop 2 = entries.flatten := by
      rw [← hcount, List.drop_left]
    cases complete with
    | false =>
      cases subIndex with
      | zero =>
        cases hvalue
        have hone : (count.take 1).length = 1 := by simp [hcount]
        refine ⟨0, ?_, fun _ => ?_⟩
        · rw [getObjectData_single (Nat.zero_le _), hfirst, Stored.readLen, hone]
          rfl
        · rw [hone, List.drop_zero, List.take_append_of_le_length (by omega)]
      | succ i =>
        obtain ⟨hi, rfl⟩ := List.getElem?_eq_some_iff.1 hvalue
        obtain ⟨hle, hlen, hbytes⟩ := entry_of_lengths hcount hlengths hi
        exact ⟨_, by rw [getObjectData_single hle, hlen]; rfl, fun _ => hbytes⟩
    | true =>
      match subIndex with
      | 0 =>
        cases hvalue
        refine ⟨0, ?_, fun _ => by rw [List.drop_zero, List.take_length]⟩
        rw [getObjectData_complete, hsum, Stored.readLen, List.length_append, hcount]
        rfl
      | 1 =>
        cases hvalue
        refine ⟨2, ?_, fun _ => by rw [hbehind, List.take_length]⟩
        rw [getObjectData_complete, hsum, Stored.readLen]
        simp
      | _ + 2 => cases hvalue

/-- Where there is nothing, complete access returns `EC_OK`. -/
theorem Stored.Laid.absent {st : Stored} (h : st.Laid o data)
    (hvalue : st.value subIndex complete = none) (len : ℕ) :
    (staticRead o data subIndex complete len).ret ≠ .ok ↔ complete = false := by
  cases complete with
  | true =>
    have hread := staticRead_some (getObjectData_complete o subIndex) data len
    exact iff_of_false (fun hno => hno (congrArg Prod.fst hread)) (by decide)
  | false =>
    have hbehind : o.maxSubindices < subIndex := by
      cases st with
      | var v =>
        obtain ⟨hmax, -⟩ := h
        cases subIndex with
        | zero => cases hvalue
        | succ i => omega
      | record count entries =>
        obtain ⟨-, -, -, hlengths⟩ := h
        have hmax : o.maxSubindices = entries.length := by
          have hlength := congrArg List.length hlengths
          simpa using hlength
        cases subIndex with
        | zero => cases hvalue
        | succ i =>
          have hle := List.getElem?_eq_none_iff.1 hvalue
          omega
    have hnone : (getObjectData o subIndex false).1 = none := by
      simp [getObjectData, Nat.not_le_of_lt hbehind]
    rw [staticRead_none hnone]
    decide

theorem Stored.Laid.contract_iff {st : Stored} (h : st.Laid o data) (subIndex : ℕ)
    (complete : Bool) (len : ℕ) :
    Contract (st.value subIndex complete) len (staticRead o data subIndex complete len) ↔
      st.Kept subIndex complete len := by
  rw [Stored.Kept]
  cases hvalue : st.value subIndex complete with
  | none => exact contract_none.trans (h.absent hvalue len)
  | some value =>
    obtain ⟨pos, hget, hbytes⟩ := h.reads hvalue
    exact contract_staticRead hget hbytes

/-! ## All reads -/

/-- The value under an index and a subindex. Nobody has one for complete access behind a callback. -/
def valueOf (env : Env) (pec : Master) (held : Held) (index : UInt16) (subIndex : UInt8)
    (complete : Bool) : Option (List UInt8) :=
  (getObject env pec index).bind fun o =>
    match masterObject env pec o.index with
    | some st => st.value subIndex.toNat complete
    | none =>
      if complete then none
      else (callbackEntry pec o.index index subIndex.toNat).value env pec held

/-- When a read of an object keeps the contract. -/
def ReadKept (env : Env) (pec : Master) (held : Held) (o : Object) (index : UInt16)
    (subIndex : UInt8) (complete : Bool) (len : ℕ) : Prop :=
  match masterObject env pec o.index with
  | some st => st.Kept subIndex.toNat complete len
  | none =>
    if complete then (callbackEntry pec o.index index subIndex.toNat).Refused env pec len
    else (callbackEntry pec o.index index subIndex.toNat).Kept env pec held len

/-- **When a read keeps the contract.** -/
theorem sdo_read_contract_iff (env : Env) (pec : Master) (held : Held) (index : UInt16)
    (subIndex : UInt8) (complete : Bool) (len : ℕ) :
    Contract (valueOf env pec held index subIndex complete) len
      (ecCoeMasterSdoRead env pec index subIndex complete len) ↔
    ∀ o, getObject env pec index = some o →
      ReadKept env pec held o index subIndex complete len := by
  cases hobj : getObject env pec index with
  | none =>
    rw [valueOf, hobj, ecCoeMasterSdoRead, hobj]
    exact contract_none.trans (iff_of_true (by decide : Ret.coeIndexNotFound ≠ .ok) (by simp))
  | some o =>
    have ho := List.mem_of_find?_eq_some hobj
    simp only [Option.some.injEq, forall_eq']
    rw [valueOf, hobj, Option.bind_some, ReadKept]
    rcases dict_stored ho with ⟨read, hread, hst⟩ | ⟨data, st, ⟨hread, hdata⟩, hst, hlaid⟩
    · have hgives := callback_entry ho hread index subIndex complete len
      rw [hst, ecCoeMasterSdoRead_callback hobj hread]
      cases complete with
      | false => exact hgives.contract_iff held
      | true => exact contract_none.trans hgives.refused_iff
    · rw [hst, ecCoeMasterSdoRead_static hobj hread hdata]
      exact hlaid.contract_iff subIndex.toNat complete len

/-- The vendor in a buffer of two bytes: `EC_OK`, and nothing is there. -/
theorem sdo_read_small : ¬Contract
    (valueOf silentEnv smallMaster (fun _ _ _ => none) 0x1018 1 false) 2
    (ecCoeMasterSdoRead silentEnv smallMaster 0x1018 1 false 2) := by
  intro h
  have hvalue : valueOf silentEnv smallMaster (fun _ _ _ => none) 0x1018 1 false =
      some [0x16, 0x16, 0, 0] := by decide +kernel
  have hret : (ecCoeMasterSdoRead silentEnv smallMaster 0x1018 1 false 2).ret = .ok := by
    decide +kernel
  exact (h.small _ hvalue (by decide)).1 hret

end LibEthercat.CoeMaster
