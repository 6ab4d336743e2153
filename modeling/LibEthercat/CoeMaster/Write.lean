import LibEthercat.CoeMaster.Confined
import Mathlib.Logic.Function.Basic

/-!
# Writes to the master's dictionary

`ec_coe_master_sdo_write`: the access right, the subindex and the length are checked on the way to
the `memcpy`, and where a check fails, nothing is copied and `EC_OK` is returned. The right is that
of the entry at the subindex, also for complete access, which copies to the entries behind it.

**Theorem (`sdo_write_honest_iff`).** What is returned and what the data holds afterwards agree
just if the object or the subindex is not found at all, or the two bytes of 0xF002:1 are written,
alone or as complete access from there, or complete access from subindex 0 has nothing to change in
them.
-/

namespace LibEthercat.CoeMaster

variable {env : Env} {pec : Master} {o : Object} {index : UInt16} {subIndex : UInt8}
  {complete : Bool} {buf : List UInt8}

/-- The data of the objects in memory, by the index of the object. -/
abbrev Data := UInt16 → ℕ → UInt8

def accessRead : ℕ := 0x0007

def accessWrite : ℕ := 0x0038

def accessReadwrite : ℕ := 0x003F

/-- `entry_desc[i].obj_access`; the entries of a slave without a length are left empty. -/
def Object.access (o : Object) (i : ℕ) : ℕ :=
  if o.index = 0xF002 ∧ i = 1 then accessReadwrite
  else if (o.index = 0x8000 ∨ o.index = 0x9000) ∧ o.entryLen i = 0 then 0
  else accessRead

def Object.writable (o : Object) (i : ℕ) : Bool := o.access i &&& accessWrite ≠ 0

/-- `memcpy` to `pos`. -/
def memcpy (d : ℕ → UInt8) (pos : ℕ) (buf : List UInt8) : ℕ → UInt8 := fun k =>
  if k < pos then d k else buf[k - pos]?.getD (d k)

/-- `ec_coe_master_sdo_write`; no object has a callback for writing. -/
def ecCoeMasterSdoWrite (env : Env) (pec : Master) (d : Data) (index : UInt16) (subIndex : UInt8)
    (complete : Bool) (buf : List UInt8) : Ret × Data :=
  match getObject env pec index with
  | none => (.coeIndexNotFound, d)
  | some o =>
    match o.data with
    | none => (.mailboxAbort, d)
    | some _ =>
      match (getObjectData o subIndex.toNat complete).1 with
      | none => (.mailboxAbort, d)
      | some (pos, dataLen) =>
        if subIndex.toNat ≤ o.maxSubindices ∧ o.writable subIndex.toNat ∧ buf.length ≤ dataLen then
          (.ok, Function.update d o.index (memcpy (d o.index) pos buf))
        else (.ok, d)

/-! ## What a write should do -/

/-- The entries that are addressed, and can be written. -/
def writablePart (o : Object) (subIndex : ℕ) (complete : Bool) : List ℕ :=
  (if complete then List.range' subIndex (o.maxSubindices + 1 - subIndex)
    else if subIndex ≤ o.maxSubindices then [subIndex] else []).filter (o.writable ·)

/-- The bytes of an entry. -/
def entryBytes (d : Data) (o : Object) (i : ℕ) : List UInt8 :=
  (List.range (o.entryLen i)).map fun k => d o.index (o.entryPos i + k)

/-- The byte belongs to an entry that is addressed. -/
def Addressed (env : Env) (pec : Master) (index : UInt16) (subIndex : ℕ) (complete : Bool)
    (object : UInt16) (k : ℕ) : Prop :=
  ∃ o, getObject env pec index = some o ∧ o.index = object ∧
    ∃ i ∈ writablePart o subIndex complete, o.entryPos i ≤ k ∧ k < o.entryPos i + o.entryLen i

/-- `EC_OK` only if the entries hold the buffer, nothing changed otherwise, and never anything
else. -/
structure Honest (env : Env) (pec : Master) (d : Data) (index : UInt16) (subIndex : UInt8)
    (complete : Bool) (buf : List UInt8) : Prop where
  ok : (ecCoeMasterSdoWrite env pec d index subIndex complete buf).1 = .ok →
    ∃ o, getObject env pec index = some o ∧ writablePart o subIndex.toNat complete ≠ [] ∧
      (writablePart o subIndex.toNat complete).flatMap
        (entryBytes (ecCoeMasterSdoWrite env pec d index subIndex complete buf).2 o) = buf
  error : (ecCoeMasterSdoWrite env pec d index subIndex complete buf).1 ≠ .ok →
    (ecCoeMasterSdoWrite env pec d index subIndex complete buf).2 = d
  others : ∀ object k, ¬Addressed env pec index subIndex.toNat complete object k →
    (ecCoeMasterSdoWrite env pec d index subIndex complete buf).2 object k = d object k

/-- There is no object with data for the index, or not this subindex of it. -/
def NotThere (env : Env) (pec : Master) (index : UInt16) (subIndex : UInt8) (complete : Bool) :
    Prop :=
  ∀ o, getObject env pec index = some o →
    o.data = none ∨ complete = false ∧ o.maxSubindices < subIndex.toNat

/-! ## The two ways through the code -/

theorem getObjectData_isNone : (getObjectData o subIndex.toNat complete).1 = none ↔
    complete = false ∧ o.maxSubindices < subIndex.toNat := by
  cases complete with
  | false =>
    by_cases hle : subIndex.toNat ≤ o.maxSubindices
    · simp [getObjectData, hle]
    · simp [getObjectData, hle, Nat.lt_of_not_le hle]
  | true => simp [getObjectData]

/-- A write that finds nothing. -/
theorem sdoWrite_notThere (h : NotThere env pec index subIndex complete) (d : Data)
    (buf : List UInt8) :
    ∃ err ≠ .ok, ecCoeMasterSdoWrite env pec d index subIndex complete buf = (err, d) := by
  rw [ecCoeMasterSdoWrite]
  cases hobj : getObject env pec index with
  | none => exact ⟨.coeIndexNotFound, by decide, rfl⟩
  | some o =>
    refine ⟨.mailboxAbort, by decide, ?_⟩
    cases hdata : o.data with
    | none => simp only [hdata]
    | some data =>
      have hnone := getObjectData_isNone.2 ((h o hobj).resolve_left (by rw [hdata]; nofun))
      simp only [hdata, hnone]

/-- A write that finds its place always returns `EC_OK`. -/
theorem sdoWrite_there {data : List UInt8} {r : ℕ × ℕ} (hobj : getObject env pec index = some o)
    (hdata : o.data = some data) (hr : (getObjectData o subIndex.toNat complete).1 = some r)
    (d : Data) (buf : List UInt8) : ecCoeMasterSdoWrite env pec d index subIndex complete buf =
      (.ok, if subIndex.toNat ≤ o.maxSubindices ∧ o.writable subIndex.toNat ∧ buf.length ≤ r.2 then
        Function.update d o.index (memcpy (d o.index) r.1 buf) else d) := by
  obtain ⟨pos, dataLen⟩ := r
  rw [ecCoeMasterSdoWrite, hobj]
  simp only [hdata, hr]
  split_ifs <;> rfl

theorem honest_of_notThere (h : NotThere env pec index subIndex complete) (d : Data) :
    Honest env pec d index subIndex complete buf := by
  obtain ⟨err, herr, heq⟩ := sdoWrite_notThere h d buf
  refine ⟨fun hok => ?_, fun _ => by rw [heq], fun _ _ _ => by rw [heq]⟩
  rw [heq] at hok
  exact absurd hok herr

/-! ## The only entry that can be written -/

theorem writable_iff (o : Object) (i : ℕ) : o.writable i ↔ o.index = 0xF002 ∧ i = 1 := by
  rw [Object.writable, Object.access]
  split_ifs with h
  · exact iff_of_true (by decide) h
  · exact iff_of_false (by decide) h
  · exact iff_of_false (by decide) h

theorem getObjectData_behind {r : ℕ × ℕ} (hsub : subIndex.toNat ≠ 0)
    (hr : (getObjectData o subIndex.toNat complete).1 = some r) : 2 ≤ r.1 := by
  cases complete with
  | false =>
    by_cases hle : subIndex.toNat ≤ o.maxSubindices
    · simp only [getObjectData, Bool.not_false, if_true, if_pos hle, Option.some.injEq] at hr
      rw [← hr, Object.entryPos, if_neg hsub]
      exact Nat.le_add_right 2 _
    · simp [getObjectData, hle] at hr
  | true =>
    simp only [getObjectData, Bool.not_true, Bool.false_eq_true, if_false, if_pos hsub,
      Option.some.injEq] at hr
    rw [← hr]

/-- Subindex 0 is not written, so that it keeps the number that it starts with. -/
theorem sdoWrite_subIndex0 (d : Data) (object : UInt16) {k : ℕ} (hk : k < 2) :
    (ecCoeMasterSdoWrite env pec d index subIndex complete buf).2 object k = d object k := by
  by_cases hthere : NotThere env pec index subIndex complete
  · obtain ⟨err, -, heq⟩ := sdoWrite_notThere hthere d buf
    rw [heq]
  · simp only [NotThere, not_forall, not_or] at hthere
    obtain ⟨o, hobj, hdata, hsub⟩ := hthere
    obtain ⟨data, hsome⟩ := Option.ne_none_iff_exists'.1 hdata
    obtain ⟨r, hr⟩ := Option.ne_none_iff_exists'.1 (mt getObjectData_isNone.1 hsub)
    rw [sdoWrite_there hobj hsome hr]
    split_ifs with hcopy
    · have hone := ((writable_iff o _).1 hcopy.2.1).2
      have hbehind := getObjectData_behind (by omega) hr
      show Function.update d o.index _ object k = _
      by_cases hobject : object = o.index
      · rw [hobject, Function.update_self, memcpy, if_pos (by omega)]
      · rw [Function.update_of_ne hobject]
    · rfl

theorem mem_writablePart (o : Object) (sub i : ℕ) (complete : Bool) :
    i ∈ writablePart o sub complete ↔ o.index = 0xF002 ∧ i = 1 ∧ i ≤ o.maxSubindices ∧
      if complete then sub ≤ i else i = sub := by
  rw [writablePart, List.mem_filter, writable_iff]
  cases complete with
  | true =>
    simp only [if_true, List.mem_range'_1]
    exact ⟨fun ⟨h, hindex, hi⟩ => ⟨hindex, hi, by omega, h.1⟩,
      fun ⟨hindex, hi, hmax, hsub⟩ => ⟨by omega, hindex, hi⟩⟩
  | false =>
    by_cases hle : sub ≤ o.maxSubindices
    · simp only [if_pos hle, Bool.false_eq_true, if_false, List.mem_singleton]
      exact ⟨fun ⟨h, hindex, hi⟩ => ⟨hindex, hi, by omega, h⟩,
        fun ⟨hindex, hi, _, h⟩ => ⟨h, hindex, hi⟩⟩
    · simp only [if_neg hle, Bool.false_eq_true, if_false, List.not_mem_nil, false_and, false_iff]
      rintro ⟨-, -, hmax, h⟩
      exact hle (h ▸ hmax)

theorem index_of_data (ho : o ∈ dict env pec) (hdata : o.data ≠ none) : o.indexMask = 0xFFFF := by
  simp only [dict, List.mem_cons, List.not_mem_nil, or_false] at ho
  rcases ho with rfl | rfl | rfl | rfl | rfl | rfl | rfl | rfl | rfl | rfl | rfl | rfl | rfl | rfl |
    rfl
  any_goals rfl
  all_goals exact absurd rfl hdata

/-- An object with data has one index. -/
theorem index_eq_of_data (hobj : getObject env pec index = some o) (hdata : o.data ≠ none) :
    o.index = index := by
  have hfound := List.find?_some hobj
  rw [beq_iff_eq, index_of_data (List.mem_of_find?_eq_some hobj) hdata] at hfound
  rw [hfound]
  exact UInt16.toNat_inj.1 (by
    rw [UInt16.toNat_and]
    exact Nat.and_two_pow_sub_one_of_lt_two_pow (n := 16) index.toNat_lt)

/-- 0xF002, the command that detects modules. -/
def detectModulesObject (pec : Master) : Object :=
  .static 0xF002 3 [8, 16, 8, 48] (List.ofFn pec.detectModules)

theorem getObject_detectModules (env : Env) (pec : Master) :
    getObject env pec 0xF002 = some (detectModulesObject pec) := by
  have hkeys : ∀ k ∈ ([(0x1000, 0xFFFF), (0x1008, 0xFFFF), (0x1009, 0xFFFF), (0x100A, 0xFFFF),
      (0x1018, 0xFFFF), (0x2000, 0xFF01), (0x2001, 0xFF01), (0x3000, 0xF000), (0x8000, 0xF000),
      (0x9000, 0xF000), (0xA000, 0xF000), (0xF000, 0xFFFF)] : List (UInt16 × UInt16)),
      (k.1 == 0xF002 &&& k.2) = false := by
    simp only [List.forall_mem_cons, List.not_mem_nil, false_imp_iff, implies_true, and_true]
    decide +kernel
  simp only [List.forall_mem_cons] at hkeys
  obtain ⟨h1, h2, h3, h4, h5, h6, h7, h8, h9, h10, h11, h12, -⟩ := hkeys
  simp only [getObject, dict, Object.static, Object.string, List.find?_cons, h1, h2, h3, h4, h5, h6,
    h7, h8, h9, h10, h11, h12]
  rfl

theorem entryPos_request (pec : Master) : (detectModulesObject pec).entryPos 1 = 2 := by
  simp [detectModulesObject, Object.static, Object.entryPos]

theorem entryLen_request (pec : Master) : (detectModulesObject pec).entryLen 1 = 2 := by
  simp [detectModulesObject, Object.static, Object.entryLen]

theorem entryBytes_request (pec : Master) (d : Data) :
    entryBytes d (detectModulesObject pec) 1 = [d 0xF002 2, d 0xF002 3] := by
  rw [entryBytes, entryPos_request, entryLen_request]
  rfl

theorem writable_detectModules (pec : Master) (i : ℕ) :
    (detectModulesObject pec).writable i = decide (i = 1) := by
  rw [Bool.eq_iff_iff, writable_iff, decide_eq_true_iff]
  exact and_iff_right rfl

/-- Complete access from subindex 0 or 1, or the entry itself. -/
theorem writablePart_request {sub : ℕ} (h : sub = 1 ∨ complete = true ∧ sub = 0) :
    writablePart (detectModulesObject pec) sub complete = [1] := by
  rcases h with rfl | ⟨rfl, rfl⟩
  · cases complete <;> simp only [writablePart, writable_detectModules] <;> rfl
  · simp only [writablePart, writable_detectModules]
    rfl

/-- An entry of two bytes behind subindex 0, the only one that is addressed and can be written. -/
theorem addressed_detectModules {sub : ℕ}
    (h : writablePart (detectModulesObject pec) sub complete = [1]) (object : UInt16) (k : ℕ) :
    Addressed env pec 0xF002 sub complete object k ↔ object = 0xF002 ∧ 2 ≤ k ∧ k < 4 := by
  constructor
  · rintro ⟨o, hobj, rfl, i, hi, hk⟩
    obtain rfl := Option.some.inj ((getObject_detectModules env pec).symm.trans hobj)
    rw [h, List.mem_singleton] at hi
    rw [hi, entryPos_request, entryLen_request] at hk
    exact ⟨rfl, hk⟩
  · rintro ⟨rfl, hk⟩
    refine ⟨_, getObject_detectModules env pec, rfl, 1, ?_, ?_⟩
    · rw [h]
      exact List.mem_singleton.2 rfl
    rwa [entryPos_request, entryLen_request]

/-- A write that returns `EC_OK` and addresses the two bytes is honest just if they hold the buffer
and nothing else has changed. -/
theorem honest_detectModules_iff {d d' : Data}
    (h : writablePart (detectModulesObject pec) subIndex.toNat complete = [1])
    (heq : ecCoeMasterSdoWrite env pec d 0xF002 subIndex complete buf = (.ok, d')) :
    Honest env pec d 0xF002 subIndex complete buf ↔ [d' 0xF002 2, d' 0xF002 3] = buf ∧
      ∀ object k, ¬(object = 0xF002 ∧ 2 ≤ k ∧ k < 4) → d' object k = d object k := by
  constructor
  · intro hhonest
    refine ⟨?_, fun object k hk => ?_⟩
    · obtain ⟨o, hobj, -, hbytes⟩ := hhonest.ok (by rw [heq])
      obtain rfl := Option.some.inj ((getObject_detectModules env pec).symm.trans hobj)
      rwa [h, heq, List.flatMap_singleton, entryBytes_request] at hbytes
    · have hsame := hhonest.others object k (by rwa [addressed_detectModules h])
      rwa [heq] at hsame
  · rintro ⟨hbytes, hsame⟩
    refine ⟨fun _ => ⟨_, getObject_detectModules env pec, by rw [h]; nofun, ?_⟩,
      fun hret => absurd (by rw [heq]) hret, fun object k hk => ?_⟩
    · rwa [h, heq, List.flatMap_singleton, entryBytes_request]
    · rw [addressed_detectModules h] at hk
      rw [heq]
      exact hsame object k hk

/-- Two bytes that are copied to their place. -/
theorem memcpy_two (d : ℕ → UInt8) (pos : ℕ) (a b : UInt8) :
    memcpy d pos [a, b] pos = a ∧ memcpy d pos [a, b] (pos + 1) = b ∧
    ∀ k, ¬(pos ≤ k ∧ k < pos + 2) → memcpy d pos [a, b] k = d k := by
  refine ⟨by simp [memcpy], by simp [memcpy], fun k hk => ?_⟩
  rw [memcpy]
  split_ifs with hlt
  · rfl
  · rw [List.getElem?_eq_none (by rw [List.length_cons, List.length_singleton]; omega)]
    rfl

/-- The subindex of the entry: only a buffer of its length. -/
theorem honest_request_iff (d : Data) :
    Honest env pec d 0xF002 1 complete buf ↔ buf.length = 2 := by
  have hpart : writablePart (detectModulesObject pec) (1 : UInt8).toNat complete = [1] :=
    writablePart_request (Or.inl rfl)
  have hdata : ∃ n ≥ 2, (getObjectData (detectModulesObject pec) (1 : UInt8).toNat complete).1 =
      some (2, n) := by
    cases complete with
    | false =>
      refine ⟨2, le_rfl, ?_⟩
      show some ((detectModulesObject pec).entryPos 1, (detectModulesObject pec).entryLen 1) = _
      rw [entryPos_request, entryLen_request]
    | true =>
      refine ⟨9, by decide, ?_⟩
      simp [getObjectData, getObjectLength, detectModulesObject, Object.static, Object.entryLen,
        List.range', List.getD]
  obtain ⟨n, hn, hdata⟩ := hdata
  have heq := sdoWrite_there (getObject_detectModules env pec) rfl hdata d buf
  rw [honest_detectModules_iff hpart heq]
  constructor
  · rintro ⟨hbytes, -⟩
    rw [← hbytes]
    rfl
  · intro hlen
    obtain ⟨a, b, rfl⟩ := List.length_eq_two.1 hlen
    have hcopy : (1 : UInt8).toNat ≤ (detectModulesObject pec).maxSubindices ∧
        (detectModulesObject pec).writable (1 : UInt8).toNat ∧ [a, b].length ≤ n :=
      ⟨Nat.le_add_left 1 2, (writable_iff _ _).2 ⟨rfl, rfl⟩, hn⟩
    obtain ⟨hfirst, hsecond, hrest⟩ := memcpy_two (d 0xF002) 2 a b
    rw [if_pos hcopy]
    refine ⟨?_, fun object k hk => ?_⟩
    · show [Function.update d 0xF002 (memcpy (d 0xF002) 2 [a, b]) 0xF002 2,
        Function.update d 0xF002 (memcpy (d 0xF002) 2 [a, b]) 0xF002 (2 + 1)] = _
      rw [Function.update_self, hfirst, hsecond]
    · show Function.update d 0xF002 (memcpy (d 0xF002) 2 [a, b]) object k = _
      by_cases hobj : object = 0xF002
      · rw [hobj, Function.update_self]
        exact hrest k fun h => hk ⟨hobj, h⟩
      · rw [Function.update_of_ne hobj]

/-- Subindex 0 is not written, whatever complete access from there addresses. -/
theorem honest_whole_iff (d : Data) : Honest env pec d 0xF002 0 true buf ↔
    buf = [d 0xF002 2, d 0xF002 3] := by
  have heq : ecCoeMasterSdoWrite env pec d 0xF002 0 true buf = (.ok, d) := by
    rw [sdoWrite_there (getObject_detectModules env pec) rfl rfl, if_neg]
    rintro ⟨-, hwritable, -⟩
    exact absurd ((writable_iff _ _).1 hwritable).2 (by decide)
  rw [honest_detectModules_iff (writablePart_request (Or.inr ⟨rfl, rfl⟩)) heq]
  exact ⟨fun h => h.1.symm, fun h => ⟨h.symm, fun _ _ _ => rfl⟩⟩

/-! ## When a write is honest -/

/-- A write that is not refused, and addresses nothing that can be written. -/
theorem not_honest_of_readOnly {d d' : Data} (hobj : getObject env pec index = some o)
    (hnone : writablePart o subIndex.toNat complete = [])
    (heq : ecCoeMasterSdoWrite env pec d index subIndex complete buf = (.ok, d')) :
    ¬Honest env pec d index subIndex complete buf := by
  intro hhonest
  obtain ⟨o', hobj', hne, -⟩ := hhonest.ok (by rw [heq])
  obtain rfl := Option.some.inj (hobj.symm.trans hobj')
  exact hne hnone

/-- What is addressed and can be written, if there is anything. -/
theorem request_of_writablePart {sub : ℕ} (hne : writablePart o sub complete ≠ []) :
    o.index = 0xF002 ∧ (sub = 1 ∨ complete = true ∧ sub = 0) := by
  obtain ⟨i, hi⟩ := List.exists_mem_of_ne_nil _ hne
  obtain ⟨hindex, rfl, -, hsub⟩ := (mem_writablePart o sub i complete).1 hi
  refine ⟨hindex, ?_⟩
  cases complete with
  | false => exact Or.inl hsub.symm
  | true =>
    have hle : sub ≤ 1 := hsub
    rcases Nat.le_one_iff_eq_zero_or_eq_one.1 hle with hzero | hone
    · exact Or.inr ⟨rfl, hzero⟩
    · exact Or.inl hone

/-- **When a write is honest**: nothing is found, or the command is written with its length, or
complete access would not change it. -/
theorem sdo_write_honest_iff (env : Env) (pec : Master) (d : Data) (index : UInt16)
    (subIndex : UInt8) (complete : Bool) (buf : List UInt8) :
    Honest env pec d index subIndex complete buf ↔
      NotThere env pec index subIndex complete ∨
      index = 0xF002 ∧ (subIndex = 1 ∧ buf.length = 2 ∨
        subIndex = 0 ∧ complete = true ∧ buf = [d 0xF002 2, d 0xF002 3]) := by
  by_cases hthere : NotThere env pec index subIndex complete
  · exact iff_of_true (honest_of_notThere hthere d) (Or.inl hthere)
  rw [or_iff_right hthere]
  simp only [NotThere, not_forall, not_or] at hthere
  obtain ⟨o, hobj, hdata, hsub⟩ := hthere
  obtain ⟨data, hsome⟩ := Option.ne_none_iff_exists'.1 hdata
  obtain ⟨r, hr⟩ := Option.ne_none_iff_exists'.1 (mt getObjectData_isNone.1 hsub)
  constructor
  · intro hhonest
    have hne : writablePart o subIndex.toNat complete ≠ [] := fun hnone =>
      not_honest_of_readOnly hobj hnone (sdoWrite_there hobj hsome hr d _) hhonest
    obtain ⟨hindex, hcase⟩ := request_of_writablePart hne
    obtain rfl : index = 0xF002 := (index_eq_of_data hobj hdata).symm.trans hindex
    refine ⟨rfl, ?_⟩
    rcases hcase with hone | ⟨rfl, hzero⟩
    · obtain rfl : subIndex = 1 := UInt8.toNat_inj.1 hone
      exact Or.inl ⟨rfl, (honest_request_iff d).1 hhonest⟩
    · obtain rfl : subIndex = 0 := UInt8.toNat_inj.1 hzero
      exact Or.inr ⟨rfl, rfl, (honest_whole_iff d).1 hhonest⟩
  · rintro ⟨rfl, ⟨rfl, hlen⟩ | ⟨rfl, rfl, hbuf⟩⟩
    · exact (honest_request_iff d).2 hlen
    · exact (honest_whole_iff d).2 hbuf

/-- Complete access from the command on writes the status behind it, which is read only. -/
theorem sdo_write_status :
    (ecCoeMasterSdoWrite silentEnv smallMaster (fun _ _ => 0) 0xF002 1 true
      [1, 0, 1]).2 0xF002 4 = 1 ∧
    ¬Honest silentEnv smallMaster (fun _ _ => 0) 0xF002 1 true [1, 0, 1] := by
  have hstatus : (ecCoeMasterSdoWrite silentEnv smallMaster (fun _ _ => 0) 0xF002 1 true
      [1, 0, 1]).2 0xF002 4 = 1 := by decide +kernel
  refine ⟨hstatus, fun hhonest => ?_⟩
  have hsame := hhonest.others 0xF002 4 fun haddressed => by
    have hplace :=
      (addressed_detectModules (writablePart_request (Or.inl rfl)) 0xF002 4).1 haddressed
    omega
  rw [hstatus] at hsame
  exact absurd hsame (by decide)

end LibEthercat.CoeMaster
