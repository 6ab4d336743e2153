import LibEthercat.CoeMapping.Model

/-!
# The lengths that are mapped

All SDO reads succeed, and give what the object dictionary of the slave holds.

**Theorem (`mapsLengths_iff`).** The function returns, with the lengths of sync managers 2 and 3 in
whole bytes, just if no count is 255 and the lengths have 16 bits.
-/

namespace LibEthercat.CoeMapping

/-- What the slave holds under an index and a subindex. -/
abbrev Dictionary := UInt16 → UInt8 → UInt32

/-- A slave whose dictionary can be read. -/
def answering (d : Dictionary) (smCh : ℕ) : Slave where
  present := true
  coe := true
  smCh := smCh
  sdoRead := fun _ index subIndex => .value (d index subIndex)

/-! ## Property and condition -/

/-- The count in subindex 0. -/
def count (d : Dictionary) (index : UInt16) : UInt8 := (d index 0).toUInt8

/-- The `i`-th PDO of a sync manager. -/
def pdoIdx (d : Dictionary) (smIdx i : ℕ) : UInt16 := (d (assignIdx smIdx) (UInt8.ofNat i)).toUInt16

def entryBits (d : Dictionary) (index : UInt16) (j : ℕ) : ℕ := (d index (UInt8.ofNat j)).toNat % 256

/-- The bits of all entries of a PDO; index 0 stands for none. -/
def pdoBits (d : Dictionary) (index : UInt16) : ℕ :=
  if index = 0 then 0 else ((List.range' 1 (count d index).toNat).map (entryBits d index)).sum

/-- The bits of all PDOs of a sync manager. -/
def mappedBits (d : Dictionary) (smIdx : ℕ) : ℕ :=
  ((List.range' 1 (count d (assignIdx smIdx)).toNat).map fun i => pdoBits d (pdoIdx d smIdx i)).sum

/-- The function returns, the lengths are those of the mapping, and other sync managers are left
alone. -/
def MapsLengths (d : Dictionary) (smCh : ℕ) (sm : ℕ → SyncManager) : Prop :=
  ∃ r, Returns (answering d smCh) sm r ∧
    (∀ s, s = 2 ∨ s = 3 → s < smCh → mappedBits d s ≠ 0 →
      (r.table.sm s).len.toNat = (mappedBits d s + 7) / 8) ∧
    ∀ s, s ≠ 2 → s ≠ 3 → r.table.sm s = sm s

/-- The loop over the entries of this PDO ends. -/
def PdoEnds (d : Dictionary) (index : UInt16) : Prop := index ≠ 0 → count d index ≠ 255

/-- The loops for this sync manager end. -/
def LoopsEnd (d : Dictionary) (smIdx : ℕ) : Prop :=
  count d (assignIdx smIdx) ≠ 255 ∧
    ∀ i, 1 ≤ i → i ≤ (count d (assignIdx smIdx)).toNat → PdoEnds d (pdoIdx d smIdx i)

/-! ## Eight bits -/

theorem toNat_add_one {i n : UInt8} (hi : i ≤ n) (hn : n ≠ 255) : (i + 1).toNat = i.toNat + 1 := by
  have hle : i.toNat ≤ n.toNat := hi
  have hlt : n.toNat < 255 := by
    have hn' : n.toNat ≠ 255 := fun h => hn (UInt8.toNat_inj.1 h)
    have := n.toNat_lt
    omega
  rw [UInt8.toNat_add]
  exact Nat.mod_eq_of_lt (by simp only [UInt8.reduceToNat]; omega)

theorem le_max (i : UInt8) : i ≤ 255 := by
  have hi := i.toNat_lt
  exact UInt8.le_iff_toNat_le.2 (by simp only [UInt8.reduceToNat]; omega)

/-! ## The loops -/

section
variable {d : Dictionary} {smCh : ℕ} {sm : ℕ → SyncManager} {st st' st'' : State} {r : State}

/-- The pass has come from one state to another, and has counted these bits. -/
structure Within (st st' : State) (bits : ℕ) : Prop where
  smIdx : st'.smIdx = st.smIdx
  table : st'.table = st.table
  bitLen : st'.bitLen = st.bitLen + bits

theorem Within.trans {b b' : ℕ} (h : Within st st' b) (h' : Within st' st'' b') :
    Within st st'' (b + b') :=
  ⟨h'.smIdx.trans h.smIdx, h'.table.trans h.table, by rw [h'.bitLen, h.bitLen, Nat.add_assoc]⟩

/-- The loop over the entries of a PDO, from the `j`-th on. -/
theorem objects_loop (d : Dictionary) (smCh : ℕ) {entryCnt i n j : UInt8} {e : UInt16} (hn : n ≠ 255)
    (m : ℕ) (hm : j.toNat + m = n.toNat + 1) (hpc : st.pc = .objects entryCnt i e n j) :
    ∃ st', While.Reaches (step (answering d smCh)) st st' ∧ st'.pc = .entries entryCnt (i + 1) ∧
      Within st st' ((List.range' j.toNat m).map (entryBits d e)).sum := by
  induction m generalizing st j with
  | zero =>
    have hgt : ¬ j ≤ n := by
      intro hle
      have : j.toNat ≤ n.toNat := hle
      omega
    refine ⟨st.goto (.entries entryCnt (i + 1)), .single ?_, rfl, rfl, rfl, rfl⟩
    rw [step, hpc]
    exact if_neg hgt
  | succ m ih =>
    have hle : j ≤ n := UInt8.le_iff_toNat_le.2 (by omega)
    have hsucc := toNat_add_one hle hn
    obtain ⟨next, hstep, hpc', hnext⟩ : ∃ next, step (answering d smCh) st = .inl next ∧
        next.pc = .objects entryCnt i e n (j + 1) ∧ Within st next (entryBits d e j.toNat) := by
      refine ⟨((st.asked .pdoEntry e j (.value (d e j))).add ((d e j).toNat % 256)).goto
        (.objects entryCnt i e n (j + 1)), ?_, rfl, rfl, rfl, ?_⟩
      · rw [step, hpc]
        exact if_pos hle
      · rw [entryBits, UInt8.ofNat_toNat]
        rfl
    obtain ⟨st', hreach, hend, hwithin⟩ := ih (by omega) hpc'
    rw [List.range'_succ, List.map_cons, List.sum_cons, ← hsucc]
    exact ⟨st', .next hstep hreach, hend, hnext.trans hwithin⟩

/-- A PDO is skipped, or its entries are counted. -/
theorem reaches_pdo (d : Dictionary) (smCh : ℕ) {n i : UInt8} (hi : i ≤ n)
    (hpc : st.pc = .entries n i) :
    ∃ st', While.Reaches (step (answering d smCh)) st st' ∧ Within st st' 0 ∧
      st'.pc = if pdoIdx d st.smIdx i.toNat = 0 then .entries n (i + 1)
        else .objects n i (pdoIdx d st.smIdx i.toNat) (count d (pdoIdx d st.smIdx i.toNat)) 1 := by
  have hidx : (d (assignIdx st.smIdx) i).toUInt16 = pdoIdx d st.smIdx i.toNat := by
    rw [pdoIdx, UInt8.ofNat_toNat]
  generalize hv : d (assignIdx st.smIdx) i = v at hidx
  let asked := st.asked .assignEntry (assignIdx st.smIdx) i (.value v)
  have hentry : step (answering d smCh) st =
      if v.toUInt16 = 0 then .inl (asked.goto (.entries n (i + 1)))
      else .inl (asked.goto (.pdo n i v.toUInt16)) := by
    rw [step, hpc]
    simp only [State.ask, answering, hv]
    exact if_pos hi
  rw [← hidx]
  by_cases hzero : v.toUInt16 = 0
  · rw [if_pos hzero] at hentry ⊢
    exact ⟨_, .single hentry, ⟨rfl, rfl, rfl⟩, rfl⟩
  · rw [if_neg hzero] at hentry ⊢
    exact ⟨_, .next hentry (.single rfl), ⟨rfl, rfl, rfl⟩, rfl⟩

/-- One PDO. -/
theorem pdo_loop (smCh : ℕ) {n i : UInt8} (hi : i ≤ n) (hpc : st.pc = .entries n i)
    (hend : PdoEnds d (pdoIdx d st.smIdx i.toNat)) :
    ∃ st', While.Reaches (step (answering d smCh)) st st' ∧ st'.pc = .entries n (i + 1) ∧
      Within st st' (pdoBits d (pdoIdx d st.smIdx i.toNat)) := by
  obtain ⟨pdo, hreach, hwithin, hpdo⟩ := reaches_pdo d smCh hi hpc
  generalize pdoIdx d st.smIdx i.toNat = e at hend hpdo ⊢
  unfold pdoBits
  by_cases hzero : e = 0
  · rw [if_pos hzero] at hpdo ⊢
    exact ⟨pdo, hreach, hpdo, hwithin⟩
  · rw [if_neg hzero] at hpdo ⊢
    obtain ⟨st', hreach', hpc', hwithin'⟩ := objects_loop d smCh (hend hzero)
      (count d e).toNat (by rw [Nat.add_comm]; rfl) hpdo
    refine ⟨st', hreach.trans hreach', hpc', ?_⟩
    have hbits := hwithin.trans hwithin'
    rwa [Nat.zero_add] at hbits

/-- A loop up to 255 over the entries of a PDO does not end. -/
theorem not_ends_of_objects {n i j : UInt8} {e : UInt16} (hpc : st.pc = .objects n i e 255 j) :
    ¬ While.Ends (step (answering d smCh)) st r := by
  refine While.not_ends_of_inv (I := fun s => ∃ j, s.pc = .objects n i e 255 j) ?_ ⟨j, hpc⟩
  rintro s ⟨j, hj⟩
  refine ⟨((s.asked .pdoEntry e j (.value (d e j))).add ((d e j).toNat % 256)).goto
    (.objects n i e 255 (j + 1)), ?_, j + 1, rfl⟩
  rw [step, hj]
  exact if_pos (le_max j)

/-- The loop over the PDOs, from the `i`-th on. -/
theorem entries_loop (d : Dictionary) (smCh : ℕ) {n i : UInt8} (hn : n ≠ 255) (m : ℕ)
    (hm : i.toNat + m = n.toNat + 1) (hpc : st.pc = .entries n i)
    (hend : ∀ k ∈ List.range' i.toNat m, PdoEnds d (pdoIdx d st.smIdx k)) :
    ∃ st' i', While.Reaches (step (answering d smCh)) st st' ∧ st'.pc = .entries n i' ∧ ¬ i' ≤ n ∧
      Within st st' ((List.range' i.toNat m).map fun k => pdoBits d (pdoIdx d st.smIdx k)).sum := by
  induction m generalizing st i with
  | zero =>
    have hgt : ¬ i ≤ n := by
      intro hle
      have : i.toNat ≤ n.toNat := hle
      omega
    exact ⟨st, i, .refl st, hpc, hgt, rfl, rfl, rfl⟩
  | succ m ih =>
    have hle : i ≤ n := UInt8.le_iff_toNat_le.2 (by omega)
    have hsucc := toNat_add_one hle hn
    rw [List.range'_succ] at hend ⊢
    obtain ⟨hfirst, hrest⟩ := List.forall_mem_cons.1 hend
    obtain ⟨next, hreach, hpc', hnext⟩ := pdo_loop smCh hle hpc hfirst
    rw [← hsucc, ← hnext.smIdx] at hrest
    obtain ⟨st', i', hreach', hlast, hgt, hwithin⟩ := ih (by omega) hpc' hrest
    rw [hnext.smIdx, hsucc] at hwithin
    rw [List.map_cons, List.sum_cons]
    exact ⟨st', i', hreach.trans hreach', hlast, hgt, hnext.trans hwithin⟩

/-- If the loop over the PDOs ends, so does the one over the entries of each. -/
theorem pdoEnds_of_ends {n i : UInt8} (hn : n ≠ 255) (m : ℕ) (hm : i.toNat + m = n.toNat + 1)
    (hpc : st.pc = .entries n i) (hends : While.Ends (step (answering d smCh)) st r) :
    ∀ k ∈ List.range' i.toNat m, PdoEnds d (pdoIdx d st.smIdx k) := by
  induction m generalizing st i with
  | zero => simp
  | succ m ih =>
    have hle : i ≤ n := UInt8.le_iff_toNat_le.2 (by omega)
    have hsucc := toNat_add_one hle hn
    have hfirst : PdoEnds d (pdoIdx d st.smIdx i.toNat) := by
      intro hne hmax
      obtain ⟨pdo, hreach, -, hpdo⟩ := reaches_pdo d smCh hle hpc
      rw [if_neg hne, hmax] at hpdo
      exact not_ends_of_objects hpdo ((While.ends_iff_of_reaches hreach).1 hends)
    obtain ⟨next, hreach, hpc', hnext⟩ := pdo_loop smCh hle hpc hfirst
    have hrest := ih (by omega) hpc' ((While.ends_iff_of_reaches hreach).1 hends)
    rw [hsucc, hnext.smIdx] at hrest
    rw [List.range'_succ]
    exact List.forall_mem_cons.2 ⟨hfirst, hrest⟩

/-- The bound of the loop over the PDOs, inside of it. -/
def Pc.entryCnt : Pc → Option UInt8
  | .entries n _ | .pdo n _ _ | .objects n _ _ _ _ => some n
  | _ => none

/-- A loop up to 255 over the PDOs does not end. -/
theorem not_ends_of_entries (hpc : st.pc.entryCnt = some 255) :
    ¬ While.Ends (step (answering d smCh)) st r := by
  refine While.not_ends_of_inv (I := fun s => s.pc.entryCnt = some 255) (fun s hs => ?_) hpc
  cases hpc : s.pc with
  | start | assignment =>
    rw [hpc] at hs
    cases hs
  | entries n i =>
    rw [hpc] at hs
    cases hs
    rw [step, hpc]
    simp only [State.ask, answering, if_pos (le_max i)]
    split_ifs
    · exact ⟨_, rfl, rfl⟩
    · exact ⟨_, rfl, rfl⟩
  | pdo n i e =>
    rw [step, hpc]
    exact ⟨_, rfl, by rw [hpc] at hs; exact hs⟩
  | objects n i e c j =>
    rw [step, hpc]
    simp only [State.ask, answering]
    rw [hpc] at hs
    split_ifs
    · exact ⟨_, rfl, hs⟩
    · exact ⟨_, rfl, hs⟩

/-! ## The passes -/

/-- The first pass over the assigned PDOs begins. -/
theorem reaches_entries (d : Dictionary) (smCh : ℕ) {s : ℕ} (hs : s ≤ 3) (hpc : st.pc = .assignment)
    (hidx : st.smIdx = s) :
    ∃ st', While.Reaches (step (answering d smCh)) st st' ∧
      st'.pc = .entries (count d (assignIdx s)) 1 ∧ Within st st' 0 := by
  subst hidx
  refine ⟨(st.asked .assignCount (assignIdx st.smIdx) 0 (.value (d (assignIdx st.smIdx) 0))).goto
    (.entries (count d (assignIdx st.smIdx)) 1), .single ?_, rfl, rfl, rfl, rfl⟩
  rw [step, hpc]
  exact if_pos hs

/-- A pass for a sync manager whose loops end. -/
theorem pass (smCh : ℕ) {s : ℕ} (hs : s ≤ 3) (hpc : st.pc = .assignment) (hidx : st.smIdx = s)
    (hbits : st.bitLen = 0) (hend : LoopsEnd d s) :
    ∃ st', While.Reaches (step (answering d smCh)) st st' ∧ st'.pc = .assignment ∧
      st'.smIdx = s + 1 ∧ st'.bitLen = 0 ∧ st'.table = st.table.store smCh s (mappedBits d s) := by
  obtain ⟨hcnt, hpdos⟩ := hend
  obtain ⟨first, hreach, hfirst, hwithin⟩ := reaches_entries d smCh hs hpc hidx
  have hfirstIdx : first.smIdx = s := hwithin.smIdx.trans hidx
  obtain ⟨last, i, hreach', hlast, hgt, hwithin'⟩ := entries_loop d smCh hcnt
    (count d (assignIdx s)).toNat (Nat.add_comm _ _) hfirst (by
      rw [hfirstIdx]
      intro k hk
      obtain ⟨hle, hlt⟩ := List.mem_range'_1.1 hk
      exact hpdos k hle (by simp only [UInt8.reduceToNat] at hlt; omega))
  have hall := hwithin.trans hwithin'
  have hsum : last.bitLen = mappedBits d s := by
    rw [hall.bitLen, hbits, hfirstIdx, Nat.zero_add, Nat.zero_add]
    rfl
  have hstep : step (answering d smCh) last = .inl (last.store smCh).nextSm := by
    rw [step, hlast]
    exact if_neg hgt
  refine ⟨(last.store smCh).nextSm, hreach.trans (hreach'.trans (.single hstep)), rfl, ?_, rfl, ?_⟩
  · exact congrArg (· + 1) (hall.smIdx.trans hidx)
  · show last.table.store smCh last.smIdx last.bitLen = _
    rw [hall.table, hall.smIdx, hidx, hsum]

/-- If a pass ends, so do its loops. -/
theorem loopsEnd_of_ends {s : ℕ} (hs : s ≤ 3) (hpc : st.pc = .assignment) (hidx : st.smIdx = s)
    (hends : While.Ends (step (answering d smCh)) st r) : LoopsEnd d s := by
  obtain ⟨first, hreach, hfirst, hwithin⟩ := reaches_entries d smCh hs hpc hidx
  have hrest := (While.ends_iff_of_reaches hreach).1 hends
  have hcnt : count d (assignIdx s) ≠ 255 := by
    intro hmax
    rw [hmax] at hfirst
    exact not_ends_of_entries (by rw [hfirst]; rfl) hrest
  refine ⟨hcnt, fun i hi hle => ?_⟩
  have hpdos := pdoEnds_of_ends hcnt (count d (assignIdx s)).toNat (Nat.add_comm _ _) hfirst hrest
  rw [hwithin.smIdx, hidx] at hpdos
  exact hpdos i (List.mem_range'_1.2 ⟨hi, by simp only [UInt8.reduceToNat]; omega⟩)

/-- The pass for the first sync manager begins. -/
theorem reaches_assignment (d : Dictionary) (smCh : ℕ) (sm : ℕ → SyncManager) :
    ∃ st, While.Reaches (step (answering d smCh)) (State.init sm) st ∧ st.pc = .assignment ∧
      st.smIdx = 2 ∧ st.bitLen = 0 ∧ st.table = ⟨sm, firstStartAdr sm⟩ :=
  ⟨_, .single rfl, rfl, rfl, rfl, rfl⟩

/-- The function returns only if all its loops end. -/
theorem loopsEnd_of_returns (h : Returns (answering d smCh) sm r) : LoopsEnd d 2 ∧ LoopsEnd d 3 := by
  obtain ⟨st, hreach, hpc, hidx, hbits, -⟩ := reaches_assignment d smCh sm
  have hends := (While.ends_iff_of_reaches hreach).1 h
  have htwo := loopsEnd_of_ends (by decide) hpc hidx hends
  obtain ⟨st', hreach', hpc', hidx', -⟩ := pass smCh (by decide) hpc hidx hbits htwo
  have hends' := (While.ends_iff_of_reaches hreach').1 hends
  exact ⟨htwo, loopsEnd_of_ends (by decide) hpc' hidx' hends'⟩

/-- Then this is the table. -/
theorem returns_of_loopsEnd (smCh : ℕ) (sm : ℕ → SyncManager) (htwo : LoopsEnd d 2)
    (hthree : LoopsEnd d 3) :
    ∃ r, Returns (answering d smCh) sm r ∧
      r.table = (Table.store ⟨sm, firstStartAdr sm⟩ smCh 2 (mappedBits d 2)).store smCh 3
        (mappedBits d 3) := by
  obtain ⟨st, hreach, hpc, hidx, hbits, htable⟩ := reaches_assignment d smCh sm
  obtain ⟨st', hreach', hpc', hidx', hbits', htable'⟩ :=
    pass smCh (by decide) hpc hidx hbits htwo
  obtain ⟨r, hreach'', hpc'', hidx'', -, htable''⟩ :=
    pass smCh (by decide) hpc' hidx' hbits' hthree
  refine ⟨r, ?_, by rw [htable'', htable', htable]⟩
  have hlast : step (answering d smCh) r = .inr r := by
    rw [step, hpc'']
    exact if_neg (by rw [hidx'']; decide)
  exact (While.ends_iff_of_reaches (hreach.trans (hreach'.trans hreach''))).2
    ((While.ends_of_done hlast).2 rfl)

end

/-- **Lengths**: in whole bytes, of what the slave maps, just if all counts are below 255 and the
lengths have 16 bits. -/
theorem mapsLengths_iff (d : Dictionary) (smCh : ℕ) (sm : ℕ → SyncManager) :
    MapsLengths d smCh sm ↔ (LoopsEnd d 2 ∧ LoopsEnd d 3) ∧
      ∀ s, s = 2 ∨ s = 3 → s < smCh → (mappedBits d s + 7) / 8 < 2 ^ 16 := by
  -- the lengths that are stored if the loops end
  have hlen : ∀ {r : State},
      r.table = (Table.store ⟨sm, firstStartAdr sm⟩ smCh 2 (mappedBits d 2)).store smCh 3
        (mappedBits d 3) → ∀ s, s = 2 ∨ s = 3 → s < smCh → mappedBits d s ≠ 0 →
        (r.table.sm s).len = UInt16.ofNat ((mappedBits d s + 7) / 8) := by
    rintro r htable s (rfl | rfl) hs hbits
    · rw [htable, store_sm_of_ne (by decide), store_len hbits hs]
    · rw [htable, store_len hbits hs]
  constructor
  · rintro ⟨r, hret, hlens, -⟩
    obtain ⟨htwo, hthree⟩ := loopsEnd_of_returns hret
    refine ⟨⟨htwo, hthree⟩, fun s hs hch => ?_⟩
    obtain ⟨r', hret', htable⟩ := returns_of_loopsEnd smCh sm htwo hthree
    obtain rfl : r = r' := While.Ends.unique hret hret'
    by_cases hbits : mappedBits d s = 0
    · rw [hbits]
      decide
    · rw [← hlens s hs hch hbits]
      exact UInt16.toNat_lt _
  · rintro ⟨⟨htwo, hthree⟩, hlt⟩
    obtain ⟨r, hret, htable⟩ := returns_of_loopsEnd smCh sm htwo hthree
    refine ⟨r, hret, fun s hs hch hbits => ?_, fun s hne hne' => ?_⟩
    · rw [hlen htable s hs hch hbits]
      exact UInt16.toNat_ofNat_of_lt (hlt s hs hch)
    · rw [htable, store_sm_of_ne hne', store_sm_of_ne hne]

/-- 255 PDOs are assigned to sync manager 2. -/
theorem count255_not_mapped : ¬ ∀ d smCh sm, MapsLengths d smCh sm := by
  intro hall
  obtain ⟨r, hret, -⟩ := hall (fun index _ => if index = 0x1c12 then 255 else 0) 4
    fun _ => ⟨0, 0, 0⟩
  exact (loopsEnd_of_returns hret).1.1 rfl

end LibEthercat.CoeMapping
