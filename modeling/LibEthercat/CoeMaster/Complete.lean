import LibEthercat.CoeMaster.Confined
import LibEthercat.Lib.Layout

/-!
# Complete access

`ec_coe_master_get_object_data` finds an entry with a loop that adds up the entries before it, and
the length of the whole object with another loop. On records the two agree: complete access gives
the entries one behind the other, behind the two bytes of subindex 0 if it starts there.

**Theorem (`complete_access_iff`).** That it gives the plain value of an object without subindices
holds only for one of two bytes. Complete access from subindex 0 always gives two bytes for subindex
0, and nothing for the value.
-/

namespace LibEthercat.CoeMaster

/-! ## The two loops -/

/-- The loop of `ec_coe_master_get_object_length` from entry `i` on. -/
def lengthFrom (o : Object) (i tmp : ℕ) : ℕ :=
  if i ≤ o.maxSubindices then lengthFrom o (i + 1) (tmp + o.entryLen i) else tmp
termination_by o.maxSubindices + 1 - i

/-- The loop of `ec_coe_master_get_object_data` from entry `i` on, which starts at `pos`. -/
def entryFrom (o : Object) (subIndex i pos : ℕ) : Option (ℕ × ℕ) :=
  if i ≤ subIndex then
    if i = subIndex then some (pos, o.entryLen i)
    else entryFrom o subIndex (i + 1) (if i = 0 then pos + 2 else pos + o.entryLen i)
  else none
termination_by subIndex + 1 - i

/-- `ec_coe_master_get_object_data` of an object with data: position and length. -/
def objectData (o : Object) (subIndex : ℕ) (complete : Bool) : Option (ℕ × ℕ) :=
  if !complete then
    if subIndex ≤ o.maxSubindices then entryFrom o subIndex 0 0 else none
  else
    some (if subIndex ≠ 0 then 2 else 0, lengthFrom o 1 (if subIndex = 0 then 2 else 0))

variable {o : Object} {data : List UInt8} {i subIndex : ℕ}

theorem lengthFrom_eq (o : Object) (i tmp : ℕ) : lengthFrom o i tmp =
    tmp + ((List.range' i (o.maxSubindices + 1 - i)).map o.entryLen).sum := by
  induction i, tmp using lengthFrom.induct o with
  | case1 i tmp hle ih =>
    rw [lengthFrom, if_pos hle, ih, show o.maxSubindices + 1 - i = o.maxSubindices + 1 - (i + 1) + 1
      by omega, List.range'_succ, List.map_cons, List.sum_cons, Nat.add_assoc]
  | case2 i tmp hle =>
    rw [lengthFrom, if_neg hle, show o.maxSubindices + 1 - i = 0 by omega]
    rfl

theorem entryPos_succ (hi : i ≠ 0) : o.entryPos (i + 1) = o.entryPos i + o.entryLen i := by
  obtain ⟨i, rfl⟩ := Nat.exists_eq_succ_of_ne_zero hi
  rw [Object.entryPos, Object.entryPos, if_neg (Nat.succ_ne_zero _), if_neg (Nat.succ_ne_zero _)]
  show 2 + ((List.range' 1 (i + 1)).map o.entryLen).sum = _
  rw [List.range'_1_concat, List.map_append, List.sum_append, Nat.add_comm 1 i]
  simp [Nat.add_assoc]

theorem entryFrom_eq (hle : i ≤ subIndex) :
    entryFrom o subIndex i (o.entryPos i) = some (o.entryPos subIndex, o.entryLen subIndex) := by
  induction hn : subIndex - i generalizing i with
  | zero =>
    obtain rfl : i = subIndex := by omega
    rw [entryFrom, if_pos le_rfl, if_pos rfl]
  | succ n ih =>
    have hnext : (if i = 0 then o.entryPos i + 2 else o.entryPos i + o.entryLen i) =
        o.entryPos (i + 1) := by
      split_ifs with hzero
      · rw [hzero]
        rfl
      · exact (entryPos_succ hzero).symm
    rw [entryFrom, if_pos hle, if_neg (by omega), hnext]
    exact ih (by omega) (by omega)

/-- The loops compute what the sums say. -/
theorem objectData_eq (o : Object) (subIndex : ℕ) (complete : Bool) :
    objectData o subIndex complete = (getObjectData o subIndex complete).1 := by
  cases complete with
  | false =>
    rw [objectData, getObjectData]
    by_cases hle : subIndex ≤ o.maxSubindices
    · simp only [Bool.not_false, if_true, if_pos hle]
      exact entryFrom_eq (Nat.zero_le _)
    · simp only [Bool.not_false, if_true, if_neg hle]
  | true =>
    rw [objectData, getObjectData, getObjectLength, lengthFrom_eq]
    simp

/-! ## Records and plain values -/

/-- How the data of an object is laid out. -/
inductive Kind
  /-- Subindex 0 in two bytes, and the entries behind it. -/
  | record
  /-- The plain value of an object without subindices. -/
  | var
deriving DecidableEq

/-- The descriptors are there, and the data is laid out as they say. -/
structure Laid (kind : Kind) (o : Object) (data : List UInt8) : Prop where
  entries : o.maxSubindices < o.bitLengths.length
  bytes : ∀ b ∈ o.bitLengths, 8 ∣ b
  record : kind = .record →
    o.entryLen 0 ≤ 2 ∧ 2 + ((List.range' 1 o.maxSubindices).map o.entryLen).sum ≤ data.length
  var : kind = .var → o.maxSubindices = 0 ∧ o.entryLen 0 ≤ data.length

/-- The bytes that are returned. -/
def readBytes (o : Object) (data : List UInt8) (subIndex : ℕ) (complete : Bool) :
    Option (List UInt8) :=
  (objectData o subIndex complete).map fun r => (data.drop r.1).take r.2

/-- What the subindices from 1 on return, one behind the other. -/
def entriesBytes (o : Object) (data : List UInt8) : Option (List UInt8) :=
  ((List.range' 1 o.maxSubindices).mapM fun i => readBytes o data i false).map List.flatten

/-- Complete access gives what the single accesses give, and stays inside the data. -/
structure CompleteIsSingle (kind : Kind) (o : Object) (data : List UInt8) : Prop where
  entries : ∀ subIndex, subIndex ≠ 0 → readBytes o data subIndex true = entriesBytes o data
  record : kind = .record →
    readBytes o data 0 true = (entriesBytes o data).map (data.take 2 ++ ·)
  var : kind = .var → readBytes o data 0 true = some (data.take (o.entryLen 0))
  inside : ∀ subIndex complete, ∀ r ∈ objectData o subIndex complete, r.1 + r.2 ≤ data.length

variable {kind : Kind}

theorem readBytes_single (hle : i ≤ o.maxSubindices) :
    readBytes o data i false = some ((data.drop (o.entryPos i)).take (o.entryLen i)) := by
  rw [readBytes, objectData_eq, getObjectData]
  simp [hle]

theorem readBytes_complete (o : Object) (data : List UInt8) (subIndex : ℕ) :
    readBytes o data subIndex true =
      some ((data.drop (if subIndex ≠ 0 then 2 else 0)).take
        (getObjectLength o (subIndex = 0)).1) := by
  rw [readBytes, objectData_eq]
  rfl

/-- A list of results that are all there. -/
theorem mapM_of_forall {α β : Type*} {f : α → Option β} {g : α → β} {l : List α}
    (h : ∀ a ∈ l, f a = some (g a)) : l.mapM f = some (l.map g) := by
  induction l with
  | nil => rfl
  | cons a l ih =>
    obtain ⟨ha, hl⟩ := List.forall_mem_cons.1 h
    rw [List.mapM_cons, ha, ih hl]
    rfl

/-- **The entries one behind the other** are the data behind subindex 0. -/
theorem entriesBytes_eq (o : Object) (data : List UInt8) : entriesBytes o data =
    some ((data.drop 2).take ((List.range' 1 o.maxSubindices).map o.entryLen).sum) := by
  rw [entriesBytes, ← Layout.flatten_parts, mapM_of_forall fun i hi => ?_]
  · rfl
  · have hrange := List.mem_range'_1.1 hi
    rw [readBytes_single (by omega), Object.entryPos, if_neg (by omega)]

theorem readBytes_behind (hsub : subIndex ≠ 0) :
    readBytes o data subIndex true = entriesBytes o data := by
  rw [readBytes_complete, entriesBytes_eq, getObjectLength, if_pos hsub]
  simp [hsub]

theorem readBytes_whole (o : Object) (data : List UInt8) : readBytes o data 0 true =
    (entriesBytes o data).map (data.take 2 ++ ·) := by
  rw [readBytes_complete, entriesBytes_eq]
  show some (data.take (2 + ((List.range' 1 o.maxSubindices).map o.entryLen).sum)) = _
  rw [List.take_add]
  rfl

/-! ## All objects -/

theorem Laid.static (h : Laid .record o data) : o.Static data := by
  obtain ⟨hfirst, hwhole⟩ := h.record rfl
  exact ⟨h.entries, by omega, hwhole⟩

theorem objectData_inside (h : o.Static data) : ∀ subIndex complete,
    ∀ r ∈ objectData o subIndex complete, r.1 + r.2 ≤ data.length := by
  intro subIndex complete r hr
  rw [objectData_eq] at hr
  exact getObjectData_fits h hr

/-- What is returned for an object without subindices. -/
theorem readBytes_var (hmax : o.maxSubindices = 0) :
    readBytes o data 0 true = some (data.take 2) := by
  rw [readBytes_whole, entriesBytes_eq, hmax]
  simp

/-- Two bytes that lie inside the data are the value just if it has two bytes. -/
theorem take_two_eq_iff {n : ℕ} (hn : n ≤ data.length) :
    data.take 2 = data.take n ∧ 2 ≤ data.length ↔ n = 2 := by
  refine ⟨fun ⟨heq, hlen⟩ => ?_, fun heq => ⟨by rw [heq], heq ▸ hn⟩⟩
  have hlength := congrArg List.length heq
  rw [List.length_take_of_le hlen, List.length_take_of_le hn] at hlength
  exact hlength.symm

/-- **When complete access is the single accesses.** -/
theorem complete_access_iff (kind : Kind) (h : Laid kind o data) :
    CompleteIsSingle kind o data ↔ (kind = .var → o.entryLen 0 = 2) := by
  cases kind with
  | record =>
    refine iff_of_true ?_ nofun
    exact ⟨fun _ hsub => readBytes_behind hsub, fun _ => readBytes_whole o data, nofun,
      objectData_inside h.static⟩
  | var =>
    obtain ⟨hmax, hlen⟩ := h.var rfl
    rw [← take_two_eq_iff hlen]
    constructor
    · intro hsingle _
      have hwhole := hsingle.inside 0 true _ rfl
      rw [lengthFrom_eq] at hwhole
      refine ⟨?_, by simpa [hmax] using hwhole⟩
      have hvar := hsingle.var rfl
      rw [readBytes_var hmax] at hvar
      exact Option.some.inj hvar
    · intro heq
      obtain ⟨htake, htwo⟩ := heq rfl
      refine ⟨fun _ hsub => readBytes_behind hsub, nofun, fun _ => ?_, objectData_inside ⟨h.entries,
        hlen, ?_⟩⟩
      · rw [readBytes_var hmax, htake]
      · simpa [hmax] using htwo

/-- The identity, a record. -/
theorem complete_access_identity :
    CompleteIsSingle .record (.static 0x1018 4 [8, 32, 32, 32, 32] (List.replicate 18 0))
      (List.replicate 18 0) :=
  (complete_access_iff .record
    ⟨by decide, by decide, fun _ => ⟨by decide, by decide⟩, nofun⟩).2 nofun

/-- The device type: complete access gives two of its four bytes. -/
theorem complete_access_deviceType :
    readBytes (.static 0x1000 0 [32] (leBytes 4 0)) (leBytes 4 0) 0 true = some [0, 0] ∧
    ¬ CompleteIsSingle .var (.static 0x1000 0 [32] (leBytes 4 0)) (leBytes 4 0) := by
  have hread : readBytes (.static 0x1000 0 [32] (leBytes 4 0)) (leBytes 4 0) 0 true = some [0, 0] :=
    readBytes_var rfl
  refine ⟨hread, fun h => ?_⟩
  have hvar := h.var rfl
  rw [hread] at hvar
  exact absurd hvar (by decide)

end LibEthercat.CoeMaster
