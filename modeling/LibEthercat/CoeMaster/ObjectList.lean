import LibEthercat.CoeMaster.Confined
import LibEthercat.Lib.Layout
import Mathlib.Data.List.Nodup

/-!
# The object list of the master

`ec_coe_master_odlist_read` goes through the groups and slaves and puts an index for each of their
objects. `BUF_ASSIGN` looks whether the first of its two bytes lies in the buffer.

**Theorem (`odlist_read_iff`).** The list stays in the buffer and is whole exactly when `EC_OK` is
returned, has no index twice and only indices of the dictionary, just if the buffer is even or large
enough, and there are at most 128 groups and 4079 slaves.
-/

namespace LibEthercat.CoeMaster

variable {env : Env} {pec : Master} {len : ℕ}

/-! ## The list -/

def groupIndexes (i : ℕ) : List UInt16 :=
  let shifted : UInt16 := UInt16.ofNat i <<< 1
  [0x2000 ||| shifted, 0x2001 ||| shifted]

def slaveIndexes (i : ℕ) : List UInt16 :=
  [0x3000 ||| UInt16.ofNat i, 0x8000 ||| UInt16.ofNat i, 0x9000 ||| UInt16.ofNat i,
    0xA000 ||| UInt16.ofNat i]

def rangeIndexes (i : ℕ) : List UInt16 := [0xF020 ||| UInt16.ofNat i, 0xF040 ||| UInt16.ofNat i]

/-- What is assigned, in the order of the loops. -/
def odlist (pec : Master) : List UInt16 :=
  [0x1000, 0x1008, 0x1009, 0x100A, 0x1018] ++
  ((List.range pec.pdGroupCnt).flatMap groupIndexes ++
  ((List.range pec.slaveCnt).flatMap slaveIndexes ++
  ([0xF000, 0xF002] ++
  (List.range (pec.slaveCnt / 255 + 1)).flatMap rangeIndexes)))

/-- `pos`, and the bytes that have been written with their places in `buf`. -/
structure OdBuf where
  pos : ℕ
  written : List (ℕ × UInt8)
deriving DecidableEq

/-- The two bytes of a value at `pos`. -/
def valueAt (pos : ℕ) (value : UInt16) : List (ℕ × UInt8) :=
  [(pos, UInt8.ofNat value.toNat), (pos + 1, UInt8.ofNat (value.toNat / 256))]

/-- `BUF_ASSIGN` -/
def bufAssign (len : ℕ) (b : OdBuf) (value : UInt16) : OdBuf where
  pos := b.pos + 2
  written := if b.pos < len then b.written ++ valueAt b.pos value else b.written

structure OdReply where
  ret : Ret
  len : ℕ
  written : List (ℕ × UInt8)
deriving DecidableEq

/-- `ec_coe_master_odlist_read` -/
def ecCoeMasterOdlistRead (pec : Master) (len : ℕ) : OdReply :=
  let b := (odlist pec).foldl (bufAssign len) ⟨0, []⟩
  ⟨if len < b.pos then .mailboxBufferTooSmall else .ok, b.pos, b.written⟩

/-- The whole list is in the buffer. -/
def Whole (l : List UInt16) (written : List (ℕ × UInt8)) : Prop :=
  ∀ k (h : k < l.length), ∀ w ∈ valueAt (2 * k) l[k], w ∈ written

/-- What is expected of the list. -/
structure ListsAll (env : Env) (pec : Master) (len : ℕ) : Prop where
  inside : ∀ w ∈ (ecCoeMasterOdlistRead pec len).written, w.1 < len
  needed : (ecCoeMasterOdlistRead pec len).len = 2 * (odlist pec).length
  ok_iff : (ecCoeMasterOdlistRead pec len).ret = .ok ↔
    Whole (odlist pec) (ecCoeMasterOdlistRead pec len).written
  nodup : (odlist pec).Nodup
  resolved : ∀ index ∈ odlist pec, (getObject env pec index).isSome

/-! ## What is written -/

theorem place_of_mem_valueAt {pos : ℕ} {value : UInt16} {w : ℕ × UInt8}
    (h : w ∈ valueAt pos value) : w.1 = pos ∨ w.1 = pos + 1 := by
  rcases List.mem_pair.1 h with rfl | rfl
  · exact Or.inl rfl
  · exact Or.inr rfl

theorem bufAssign_run (len : ℕ) (l : List UInt16) (b : OdBuf) :
    (l.foldl (bufAssign len) b).pos = b.pos + 2 * l.length ∧
    ∀ w, w ∈ (l.foldl (bufAssign len) b).written ↔ w ∈ b.written ∨
      ∃ k, ∃ h : k < l.length, b.pos + 2 * k < len ∧ w ∈ valueAt (b.pos + 2 * k) l[k] := by
  induction l generalizing b with
  | nil =>
    exact ⟨rfl, fun w =>
      ⟨Or.inl, fun h => h.elim id fun ⟨k, hk, _⟩ => absurd hk k.not_lt_zero⟩⟩
  | cons value l ih =>
    obtain ⟨hpos, hmem⟩ := ih (bufAssign len b value)
    refine ⟨?_, fun w => ?_⟩
    · rw [List.foldl_cons, hpos, List.length_cons]
      show b.pos + 2 + 2 * l.length = _
      omega
    · have hhead : w ∈ (bufAssign len b value).written ↔
          w ∈ b.written ∨ b.pos < len ∧ w ∈ valueAt b.pos value := by
        rw [bufAssign]
        split_ifs with hlt <;> simp [hlt]
      have htail (k : ℕ) : (bufAssign len b value).pos + 2 * k = b.pos + 2 * (k + 1) := by
        show b.pos + 2 + 2 * k = _
        omega
      rw [List.foldl_cons, hmem, hhead]
      simp only [htail]
      constructor
      · rintro ((hw | hw) | ⟨k, hk, hw⟩)
        · exact Or.inl hw
        · exact Or.inr ⟨0, Nat.zero_lt_succ _, hw⟩
        · exact Or.inr ⟨k + 1, Nat.succ_lt_succ hk, hw⟩
      · rintro (hw | ⟨_ | k, hk, hw⟩)
        · exact Or.inl (Or.inl hw)
        · exact Or.inl (Or.inr hw)
        · exact Or.inr ⟨k, Nat.lt_of_succ_lt_succ hk, hw⟩

theorem odlistRead_len (pec : Master) (len : ℕ) :
    (ecCoeMasterOdlistRead pec len).len = 2 * (odlist pec).length := by
  rw [ecCoeMasterOdlistRead, (bufAssign_run len (odlist pec) ⟨0, []⟩).1, Nat.zero_add]

theorem odlistRead_ok :
    (ecCoeMasterOdlistRead pec len).ret = .ok ↔ 2 * (odlist pec).length ≤ len := by
  simp only [ecCoeMasterOdlistRead, (bufAssign_run len (odlist pec) ⟨0, []⟩).1, Nat.zero_add]
  split_ifs with hlt
  · exact iff_of_false nofun (Nat.not_le_of_lt hlt)
  · exact iff_of_true rfl (Nat.le_of_not_lt hlt)

/-- **What is written**: every index whose first byte lies in the buffer. -/
theorem mem_written (w : ℕ × UInt8) : w ∈ (ecCoeMasterOdlistRead pec len).written ↔
    ∃ k, ∃ h : k < (odlist pec).length, 2 * k < len ∧ w ∈ valueAt (2 * k) (odlist pec)[k] := by
  refine ((bufAssign_run len (odlist pec) ⟨0, []⟩).2 w).trans ?_
  simp

theorem odlist_pos (pec : Master) : 0 < (odlist pec).length := by
  rw [odlist, List.length_append]
  exact Nat.add_pos_left (by decide) _

/-- The last byte of an index that starts with the last byte of the buffer is written behind it. -/
theorem inside_iff : (∀ w ∈ (ecCoeMasterOdlistRead pec len).written, w.1 < len) ↔
    2 ∣ len ∨ 2 * (odlist pec).length ≤ len := by
  constructor
  · intro hin
    by_contra hodd
    push Not at hodd
    obtain ⟨hodd, hlt⟩ := hodd
    have hk : len / 2 < (odlist pec).length := by omega
    have hbehind := hin (2 * (len / 2) + 1, _)
      ((mem_written _).2 ⟨len / 2, hk, by omega, List.mem_cons_of_mem _ (List.mem_singleton.2 rfl)⟩)
    have hlast : 2 * (len / 2) + 1 < len := hbehind
    omega
  · intro heven w hw
    obtain ⟨k, hk, hlt, hw⟩ := (mem_written w).1 hw
    have hplace := place_of_mem_valueAt hw
    omega

theorem whole_iff : Whole (odlist pec) (ecCoeMasterOdlistRead pec len).written ↔
    2 * (odlist pec).length ≤ len + 1 := by
  have hpos := odlist_pos pec
  constructor
  · intro hwhole
    have hlast : (odlist pec).length - 1 < (odlist pec).length := by omega
    obtain ⟨k, hk, hlt, hw⟩ := (mem_written _).1
      (hwhole _ hlast _ (List.mem_cons_self (a := (2 * ((odlist pec).length - 1), _))))
    have hplace : 2 * ((odlist pec).length - 1) = 2 * k ∨
        2 * ((odlist pec).length - 1) = 2 * k + 1 := place_of_mem_valueAt hw
    omega
  · intro hle k hk w hw
    exact (mem_written w).2 ⟨k, hk, by omega, hw⟩

/-! ## The indices -/

/-- The indices of the dictionary with their masks. -/
def dictKeys : List (UInt16 × UInt16) :=
  [(0x1000, 0xFFFF), (0x1008, 0xFFFF), (0x1009, 0xFFFF), (0x100A, 0xFFFF), (0x1018, 0xFFFF),
    (0x2000, 0xFF01), (0x2001, 0xFF01), (0x3000, 0xF000), (0x8000, 0xF000), (0x9000, 0xF000),
    (0xA000, 0xF000), (0xF000, 0xFFFF), (0xF002, 0xFFFF), (0xF020, 0xFFF0), (0xF040, 0xFFF0)]

theorem dict_keys (env : Env) (pec : Master) :
    (dict env pec).map (fun o => (o.index, o.indexMask)) = dictKeys := rfl

/-- The search, over the indices and masks alone. -/
def inDict (index : UInt16) : Bool := dictKeys.any fun k => k.1 == index &&& k.2

theorem getObject_isSome (env : Env) (pec : Master) (index : UInt16) :
    (getObject env pec index).isSome = inDict index := by
  rw [Bool.eq_iff_iff, getObject, List.find?_isSome, inDict, ← dict_keys env pec]
  simp

/-- A number below the bits of a base. -/
theorem toNat_or_ofNat {base : UInt16} {n a i : ℕ} (hbase : base.toNat = 2 ^ n * a) (hi : i < 2 ^ n)
    (hfit : 2 ^ n * a + i < 65536) : (base ||| UInt16.ofNat i).toNat = 2 ^ n * a + i := by
  rw [UInt16.toNat_or, hbase,
    UInt16.toNat_ofNat_of_lt' (Nat.lt_of_le_of_lt (Nat.le_add_left i _) hfit),
    Nat.two_pow_add_eq_or_of_lt hi]

/-- A mask that starts above the number. -/
theorem and_mask {n a b c : ℕ} (hb : b < 2 ^ n) :
    (2 ^ n * a + b) &&& 2 ^ n * c = 2 ^ n * (a &&& c) := by
  refine Nat.eq_of_testBit_eq fun j => ?_
  rw [Nat.testBit_and, Nat.testBit_two_pow_mul_add a hb, Nat.testBit_two_pow_mul,
    Nat.testBit_two_pow_mul, Nat.testBit_and]
  by_cases hj : j < n
  · simp [hj, Nat.not_le_of_lt hj]
  · simp [hj, Nat.le_of_not_lt hj]

/-- What a number below the bits of a base is resolved to. -/
theorem resolved_of_or {base m k : UInt16} {n a c i : ℕ} (hkey : (k, m) ∈ dictKeys)
    (hbase : base.toNat = 2 ^ n * a) (hi : i < 2 ^ n) (hfit : 2 ^ n * a + i < 65536)
    (hmask : m.toNat = 2 ^ n * c) (heq : k.toNat = 2 ^ n * (a &&& c)) (env : Env)
    (pec : Master) : (getObject env pec (base ||| UInt16.ofNat i)).isSome := by
  rw [getObject_isSome]
  refine List.any_eq_true.2 ⟨_, hkey, beq_iff_eq.2 (UInt16.toNat_inj.1 ?_)⟩
  rw [UInt16.toNat_and, toNat_or_ofNat hbase hi hfit, hmask, and_mask hi, heq]

theorem slaveIndexes_resolved {i : ℕ} (hi : i < 4096) :
    ∀ index ∈ slaveIndexes i, (getObject env pec index).isSome := by
  have hlow : i < 2 ^ 12 := hi
  simp only [slaveIndexes, List.forall_mem_cons]
  refine ⟨?_, ?_, ?_, ?_, nofun⟩
  · exact resolved_of_or (a := 3) (c := 15) (k := 0x3000) (m := 0xF000) (by decide) rfl hlow
      (by omega) rfl rfl env pec
  · exact resolved_of_or (a := 8) (c := 15) (k := 0x8000) (m := 0xF000) (by decide) rfl hlow
      (by omega) rfl rfl env pec
  · exact resolved_of_or (a := 9) (c := 15) (k := 0x9000) (m := 0xF000) (by decide) rfl hlow
      (by omega) rfl rfl env pec
  · exact resolved_of_or (a := 10) (c := 15) (k := 0xA000) (m := 0xF000) (by decide) rfl hlow
      (by omega) rfl rfl env pec

/-- The few indices that are resolved one by one. -/
theorem groupIndexes_resolved {i : ℕ} (hi : i < 128) :
    ∀ index ∈ groupIndexes i, (getObject env pec index).isSome := by
  have hall : ∀ i < 128, (groupIndexes i).all inDict = true := by decide +kernel
  intro index hindex
  rw [getObject_isSome]
  exact List.all_eq_true.1 (hall i hi) index hindex

theorem rangeIndexes_resolved {i : ℕ} (hi : i < 16) :
    ∀ index ∈ rangeIndexes i, (getObject env pec index).isSome := by
  have hall : ∀ i < 16, (rangeIndexes i).all inDict = true := by decide +kernel
  intro index hindex
  rw [getObject_isSome]
  exact List.all_eq_true.1 (hall i hi) index hindex

theorem fixed_resolved : ∀ index ∈ ([0x1000, 0x1008, 0x1009, 0x100A, 0x1018] ++ [0xF000, 0xF002] :
    List UInt16), (getObject env pec index).isSome := by
  have hall : ([0x1000, 0x1008, 0x1009, 0x100A, 0x1018] ++ [0xF000, 0xF002] :
      List UInt16).all inDict = true := by decide +kernel
  intro index hindex
  rw [getObject_isSome]
  exact List.all_eq_true.1 hall index hindex

theorem mem_odlist (index : UInt16) : index ∈ odlist pec ↔
    index ∈ ([0x1000, 0x1008, 0x1009, 0x100A, 0x1018] : List UInt16) ∨
    (∃ i < pec.pdGroupCnt, index ∈ groupIndexes i) ∨ (∃ i < pec.slaveCnt, index ∈ slaveIndexes i) ∨
    index ∈ ([0xF000, 0xF002] : List UInt16) ∨
    ∃ i < pec.slaveCnt / 255 + 1, index ∈ rangeIndexes i := by
  simp only [odlist, List.mem_append, List.mem_flatMap, List.mem_range]

/-- There is no object for group 128, and no list for the seventeenth range of slaves. -/
theorem resolved_iff (env : Env) (pec : Master) :
    (∀ index ∈ odlist pec, (getObject env pec index).isSome) ↔
      pec.pdGroupCnt ≤ 128 ∧ pec.slaveCnt ≤ 4079 := by
  constructor
  · intro hall
    have hgroup : inDict 0x2100 ≠ true := by decide +kernel
    have hrange : inDict 0xF030 ≠ true := by decide +kernel
    constructor
    · by_contra hlt
      refine hgroup ((getObject_isSome env pec _).symm.trans (hall _ ((mem_odlist _).2 ?_)))
      exact .inr (.inl ⟨128, by omega, by decide⟩)
    · by_contra hlt
      refine hrange ((getObject_isSome env pec _).symm.trans (hall _ ((mem_odlist _).2 ?_)))
      exact .inr (.inr (.inr (.inr ⟨16, by omega, by decide⟩)))
  · rintro ⟨hgroups, hslaves⟩ index hindex
    rcases (mem_odlist index).1 hindex with
      hfirst | ⟨i, hi, hgroup⟩ | ⟨i, hi, hslave⟩ | hlast | ⟨i, hi, hrange⟩
    · exact fixed_resolved index (List.mem_append_left _ hfirst)
    · exact groupIndexes_resolved (by omega) index hgroup
    · exact slaveIndexes_resolved (by omega) index hslave
    · exact fixed_resolved index (List.mem_append_right _ hlast)
    · exact rangeIndexes_resolved (by omega) index hrange

/-! ## No index twice -/

/-- The indices as numbers. -/
def groupNumbers (i : ℕ) : List ℕ := [0x2000 + 2 * i, 0x2001 + 2 * i]

def slaveNumbers (i : ℕ) : List ℕ := [0x3000 + i, 0x8000 + i, 0x9000 + i, 0xA000 + i]

def rangeNumbers (i : ℕ) : List ℕ := [0xF020 + i, 0xF040 + i]

theorem groupIndexes_toNat {i : ℕ} (hi : i < 128) :
    (groupIndexes i).map UInt16.toNat = groupNumbers i := by
  have hall : ∀ i < 128, (groupIndexes i).map UInt16.toNat = groupNumbers i := by decide +kernel
  exact hall i hi

theorem rangeIndexes_toNat {i : ℕ} (hi : i < 16) :
    (rangeIndexes i).map UInt16.toNat = rangeNumbers i := by
  have hall : ∀ i < 16, (rangeIndexes i).map UInt16.toNat = rangeNumbers i := by decide +kernel
  exact hall i hi

theorem slaveIndexes_toNat {i : ℕ} (hi : i < 4096) :
    (slaveIndexes i).map UInt16.toNat = slaveNumbers i := by
  have hlow : i < 2 ^ 12 := hi
  rw [slaveIndexes, List.map_cons, List.map_cons, List.map_cons, List.map_cons,
    toNat_or_ofNat (a := 3) rfl hlow (by omega), toNat_or_ofNat (a := 8) rfl hlow (by omega),
    toNat_or_ofNat (a := 9) rfl hlow (by omega), toNat_or_ofNat (a := 10) rfl hlow (by omega)]
  rfl

theorem map_flatMap_range {f : ℕ → List UInt16} {g : ℕ → List ℕ} {n : ℕ}
    (h : ∀ i < n, (f i).map UInt16.toNat = g i) :
    ((List.range n).flatMap f).map UInt16.toNat = (List.range n).flatMap g := by
  rw [List.map_flatMap]
  exact List.flatMap_congr fun i hi => h i (List.mem_range.1 hi)

theorem nodup_flatMap_range {f : ℕ → List ℕ} {n : ℕ} (hnodup : ∀ i, (f i).Nodup)
    (hdisjoint : ∀ i < n, ∀ j < n, i ≠ j → (f i).Disjoint (f j)) :
    ((List.range n).flatMap f).Nodup := by
  refine List.nodup_flatMap.2 ⟨fun i _ => hnodup i, ?_⟩
  exact List.nodup_range.pairwise_of_forall_ne fun i hi j hj =>
    hdisjoint i (List.mem_range.1 hi) j (List.mem_range.1 hj)

/-- As many slaves as twelve bits can number have their own indices. -/
theorem odlist_nodup (hgroups : pec.pdGroupCnt ≤ 128) (hslaves : pec.slaveCnt ≤ 4079) :
    (odlist pec).Nodup := by
  refine List.Nodup.of_map UInt16.toNat ?_
  rw [odlist, List.map_append, List.map_append, List.map_append, List.map_append,
    map_flatMap_range fun i hi => groupIndexes_toNat (by omega),
    map_flatMap_range fun i hi => slaveIndexes_toNat (by omega),
    map_flatMap_range fun i hi => rangeIndexes_toNat (by omega)]
  have hgroup : ((List.range pec.pdGroupCnt).flatMap groupNumbers).Nodup := by
    refine nodup_flatMap_range (fun i => by simp [groupNumbers]) fun i _ j _ hne x hx hy => ?_
    simp only [groupNumbers, List.mem_cons, List.not_mem_nil, or_false] at hx hy
    omega
  have hslave : ((List.range pec.slaveCnt).flatMap slaveNumbers).Nodup := by
    refine nodup_flatMap_range (fun i => by simp [slaveNumbers]) fun i hi j hj hne x hx hy => ?_
    simp only [slaveNumbers, List.mem_cons, List.not_mem_nil, or_false] at hx hy
    omega
  have hrange : ((List.range (pec.slaveCnt / 255 + 1)).flatMap rangeNumbers).Nodup := by
    refine nodup_flatMap_range (fun i => by simp [rangeNumbers]) fun i hi j hj hne x hx hy => ?_
    simp only [rangeNumbers, List.mem_cons, List.not_mem_nil, or_false] at hx hy
    omega
  have hfirst : ([0x1000, 0x1008, 0x1009, 0x100A, 0x1018] : List UInt16).map UInt16.toNat =
    [0x1000, 0x1008, 0x1009, 0x100A, 0x1018] := rfl
  have hlast : ([0xF000, 0xF002] : List UInt16).map UInt16.toNat = [0xF000, 0xF002] := rfl
  rw [hfirst, hlast]
  -- the indices of different kinds lie in different parts of the dictionary
  refine List.Nodup.append (by decide) (hgroup.append (hslave.append
    (List.Nodup.append (by decide) hrange ?_) ?_) ?_) ?_
  all_goals
    intro x hx hy
    simp only [List.mem_append, List.mem_flatMap, List.mem_range, groupNumbers, slaveNumbers,
      rangeNumbers, List.mem_cons, List.not_mem_nil, or_false] at hx hy
    omega

/-! ## When the list is right -/

theorem length_odlist (pec : Master) : (odlist pec).length =
    9 + 2 * pec.pdGroupCnt + 4 * pec.slaveCnt + 2 * (pec.slaveCnt / 255) := by
  have hgroups : ((List.range pec.pdGroupCnt).flatMap groupIndexes).length = _ :=
    Layout.length_flatMap_of_length (n := 2) fun _ _ => rfl
  have hslaves : ((List.range pec.slaveCnt).flatMap slaveIndexes).length = _ :=
    Layout.length_flatMap_of_length (n := 4) fun _ _ => rfl
  have hranges : ((List.range (pec.slaveCnt / 255 + 1)).flatMap rangeIndexes).length = _ :=
    Layout.length_flatMap_of_length (n := 2) fun _ _ => rfl
  rw [List.length_range] at hgroups hslaves hranges
  simp only [odlist, List.length_append, hgroups, hslaves, hranges, List.length_cons,
    List.length_nil]
  omega

/-- **When the object list is right**: a buffer that does not end inside an index, or after the
whole list, and groups and slaves that the indices can number. -/
theorem odlist_read_iff (env : Env) (pec : Master) (len : ℕ) : ListsAll env pec len ↔
    (2 ∣ len ∨
      2 * (9 + 2 * pec.pdGroupCnt + 4 * pec.slaveCnt + 2 * (pec.slaveCnt / 255)) ≤ len) ∧
    pec.pdGroupCnt ≤ 128 ∧ pec.slaveCnt ≤ 4079 := by
  rw [← length_odlist]
  constructor
  · exact fun h => ⟨inside_iff.1 h.inside, (resolved_iff env pec).1 h.resolved⟩
  · rintro ⟨hlen, hgroups, hslaves⟩
    refine ⟨inside_iff.2 hlen, odlistRead_len pec len, ?_, odlist_nodup hgroups hslaves,
      (resolved_iff env pec).2 ⟨hgroups, hslaves⟩⟩
    rw [odlistRead_ok, whole_iff]
    omega

/-- A list of eleven indices in 21 bytes: the last byte is written behind them, and the list that is
whole is refused. -/
theorem odlist_read_odd :
    (21, 0xF0) ∈ (ecCoeMasterOdlistRead smallMaster 21).written ∧
    (ecCoeMasterOdlistRead smallMaster 21).ret = .mailboxBufferTooSmall ∧
    ¬ListsAll silentEnv smallMaster 21 := by
  have hbehind : (21, 0xF0) ∈ (ecCoeMasterOdlistRead smallMaster 21).written := by decide +kernel
  refine ⟨hbehind, by decide +kernel, fun h => ?_⟩
  exact absurd (h.inside _ hbehind) (by decide)

end LibEthercat.CoeMaster
