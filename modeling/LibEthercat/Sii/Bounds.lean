import LibEthercat.Lib.Folds
import LibEthercat.Sii.Published

/-!
# The dump and its arrays

Each loop of the dump is taken pass by pass: a pass adds to what is touched, and stays inside under
a condition on the EEPROM, for the strings also on the string buffer. `eeprom_dump_inside` puts
them together: the dump stays inside its arrays exactly when each category that it comes to does.
-/

namespace LibEthercat.Sii

open LibEthercat.Coe (Message u16)

section Inside

variable (s : Dump) (as : List Access) (slv : Slave) (eeprom : EepromInfo)

/-- Nothing has been touched outside. -/
def Dump.Inside : Prop := ∀ a ∈ s.touched, a.Inside

@[simp] theorem Dump.inside_touch : (s.touch as).Inside ↔ s.Inside ∧ ∀ a ∈ as, a.Inside :=
  List.forall_mem_append

@[simp] theorem Dump.inside_setSlv : (s.setSlv slv).Inside ↔ s.Inside := Iff.rfl

@[simp] theorem Dump.inside_setEeprom : (s.setEeprom eeprom).Inside ↔ s.Inside := Iff.rfl

end Inside

variable {e : Rom}

/-! ## Conditions -/

/-- Where what is read of a string ends. -/
def stringEnd (buf : Message) (cursor : ℕ × ℕ) : ℕ :=
  cursor.2 + 1 + strncpyReads (fun k => buf (cursor.2 + 1 + k)) (readStringLen buf cursor.1 cursor.2)

/-- The category fits into the string buffer, and so does each string that the loop comes to. -/
def StringsInside (e : Rom) (buf : Message) (c : Cat) : Prop :=
  let r := stringsRead e buf c
  r.offset ≤ Arr.size .ecEepromBuf ∧
    ∀ cursor ∈ stringsOf r.buf c, stringEnd r.buf cursor ≤ Arr.size .ecEepromBuf

/-- What a category must meet, when `buf` is what the string buffer holds before it. -/
def CatInside (e : Rom) (buf : Message) (c : Cat) : Prop :=
  match c.kind with
  | .strings => StringsInside e buf c
  | .sm => c.smsCnt = 0 ∨ c.len ≤ 4 * lecMaxSlaveSm
  | .dc => ∀ j < c.dcsCnt, (readDc e c j).ok = false
  | _ => True

/-- The string buffer behind a category. -/
def bufAfter (e : Rom) (buf : Message) (c : Cat) : Message :=
  match c.kind with
  | .strings => (stringsRead e buf c).buf
  | _ => buf

/-- The categories that a dump comes to, each with the string buffer in front of it. -/
def catSteps (e : Rom) (buf : Message) : List (Message × Cat) :=
  Folds.steps (bufAfter e) buf (categories e)

/-! ## Strings -/

/-- The copy has room at its target, so only its source counts. -/
theorem stringPass_inside (s : Dump) (cursor : ℕ × ℕ) : (stringPass s cursor).Inside ↔
    s.Inside ∧ stringEnd s.buf cursor ≤ Arr.size .ecEepromBuf := by
  obtain ⟨i, off⟩ := cursor
  unfold stringPass stringEnd
  dsimp only
  split_ifs with hi
  · have hn : readStringLen s.buf i off ≤ 64 := by
      simp only [readStringLen, if_pos hi]
      omega
    simp only [Dump.inside_touch, List.forall_mem_cons, Access.Inside, Arr.size, and_assoc]
    refine and_congr_right fun _ => ⟨fun h => h.2.1, fun h => ⟨by omega, h, nofun, ?_⟩⟩
    exact ⟨by omega, by omega, nofun⟩
  · have hn : readStringLen s.buf i off ≤ 127 := by
      simp only [readStringLen, if_neg hi, lecMaxStringLen]
      omega
    simp only [Dump.inside_setEeprom, Dump.inside_touch, List.forall_mem_cons, Access.Inside,
      Arr.size, lecMaxStringLen, and_assoc]
    refine and_congr_right fun _ => ⟨fun h => h.2.1, fun h => ⟨by omega, h, nofun, ?_⟩⟩
    exact ⟨by omega, by omega, by omega, nofun⟩

theorem stringsBegin_inside (r : Read) (s : Dump) :
    (stringsBegin r s).Inside ↔ s.Inside ∧ r.offset ≤ Arr.size .ecEepromBuf := by
  refine (s.inside_touch _).trans ?_
  simp only [List.forall_mem_cons, Access.Inside, Nat.zero_add]
  exact and_congr_right fun _ => ⟨fun h => h.1, fun h => ⟨h, by simp only [Arr.size]; omega, nofun⟩⟩

theorem catStrings_inside (s : Dump) (c : Cat) :
    (catStrings e s c).Inside ↔ s.Inside ∧ StringsInside e s.buf c := by
  unfold catStrings StringsInside
  dsimp only
  rw [Folds.forall_foldl_const (R := Dump.Inside)
    (Q := fun buf cursor => stringEnd buf cursor ≤ Arr.size .ecEepromBuf)
    (fun s cursor => congrArg Published.buf (stringPass_published s cursor)) stringPass_inside,
    stringsBegin_inside, and_assoc]
  exact Iff.rfl

/-! ## General -/

theorem catGeneral_inside (s : Dump) (c : Cat) : (catGeneral e s c).Inside ↔ s.Inside := by
  unfold catGeneral
  have h := read_offset_le e (c.offset + 2) 14 s.slv.eeprom.general
  simp only [Dump.inside_setEeprom, Dump.inside_touch, List.forall_mem_singleton, Access.Inside,
    Arr.size, Nat.zero_add, h, and_true]

/-! ## FMMUs -/

theorem fmmuByte_inside (s : Dump) (fmmuIdx : ℕ) (t : UInt8) :
    (fmmuByte s fmmuIdx t).Inside ↔ s.Inside := by
  unfold fmmuByte
  split_ifs with h
  · simp only [Dump.inside_setSlv, Dump.inside_touch, List.forall_mem_cons, Access.Inside, Arr.size]
    exact and_iff_left ⟨h.1, h.1, nofun⟩
  · exact Iff.rfl

theorem fmmuPass_inside (c : Cat) (st : Message × Dump) (k : ℕ) :
    (fmmuPass e c st k).2.Inside ↔ st.2.Inside := by
  have hi : ∀ i ∈ List.range (fmmuBytes c), i + 1 ≤ 4 := by
    intro i hi
    have := List.mem_range.1 hi
    simp only [fmmuBytes] at this
    omega
  refine (Folds.forall_foldl_each (Q := fun i => i + 1 ≤ 4) ?_ st.2 _).trans (and_iff_left hi)
  intro s i
  simp only [fmmuByte_inside, Dump.inside_touch, List.forall_mem_singleton, Access.Inside, Arr.size]

theorem catFmmu_inside (s : Dump) (c : Cat) : (catFmmu e s c).Inside ↔ s.Inside := by
  unfold catFmmu
  dsimp only
  split_ifs
  · exact s.inside_setEeprom _
  · exact (Folds.foldl_iff (R := fun st : Message × Dump => st.2.Inside)
      (fmmuPass_inside c) _ _).trans (s.inside_setEeprom _)

/-! ## Sync managers -/

theorem setSm_inside (s : Dump) (j : ℕ) (tmp : CatSm) :
    (setSm s j tmp).Inside ↔ s.Inside ∧ j < lecMaxSlaveSm := by
  have h : (s.touch [⟨.sm, j, 1⟩]).Inside ↔ s.Inside ∧ j < lecMaxSlaveSm := by
    rw [Dump.inside_touch, List.forall_mem_singleton]
    exact Iff.rfl
  unfold setSm
  dsimp only
  split_ifs <;> exact h

theorem storeSm_inside (s : Dump) (j : ℕ) (tmp : CatSm) : (storeSm s j tmp).Inside ↔ s.Inside := by
  unfold storeSm
  split_ifs with hj
  · rw [Dump.inside_setEeprom, Dump.inside_touch, List.forall_mem_singleton]
    exact and_iff_left hj
  · exact Iff.rfl

theorem smPass_inside (c : Cat) (s : Dump) (j : ℕ) :
    (smPass e c s j).Inside ↔ s.Inside ∧ j < lecMaxSlaveSm := by
  have hr : (readSm e c j).offset ≤ 8 := read_offset_le e _ 8 _
  unfold smPass
  rw [storeSm_inside, setSm_inside, Dump.inside_touch, List.forall_mem_singleton]
  exact and_congr_left fun _ => and_iff_left (by simpa [Access.Inside, Arr.size] using hr)

/-- The table is cleared as far as the new `sm_ch` goes. -/
theorem smReallocate_inside (s : Dump) {c : Cat} (h : c.len ≤ 4 * lecMaxSlaveSm) :
    (smReallocate s c).Inside ↔ s.Inside := by
  unfold smReallocate
  split_ifs
  · rw [Dump.inside_setSlv, Dump.inside_touch, List.forall_mem_singleton]
    refine and_iff_left ?_
    simp only [lecMaxSlaveSm] at h
    simp only [Access.Inside, Arr.size, lecMaxSlaveSm, Cat.smsCnt_toNat]
    omega
  · exact Iff.rfl

/-- The loop has one pass for each sync manager that begins in the category. -/
theorem catSm_inside (s : Dump) (c : Cat) :
    (catSm e s c).Inside ↔ s.Inside ∧ (c.smsCnt = 0 ∨ c.len ≤ 4 * lecMaxSlaveSm) := by
  unfold catSm
  dsimp only
  split_ifs with h0
  · exact (and_iff_left (.inl h0)).symm
  · rw [Folds.forall_foldl_each (R := Dump.Inside) (smPass_inside c)]
    by_cases hlen : c.len ≤ 4 * lecMaxSlaveSm
    · have hj : ∀ j ∈ List.range ((c.len + 3) / 4), j < lecMaxSlaveSm := by
        intro j hj
        have := List.mem_range.1 hj
        omega
      rw [and_iff_left hj, smReallocate_inside _ hlen, and_iff_left (.inr hlen)]
      exact Iff.rfl
    · refine iff_of_false (fun h => ?_) fun h => absurd h.2 (not_or.2 ⟨h0, hlen⟩)
      exact absurd (h.2 lecMaxSlaveSm (List.mem_range.2 (by omega))) (Nat.lt_irrefl _)

/-! ## PDOs -/

theorem storePdo_inside (q : Queue) (s : Dump) (pdo : Pdo) :
    (storePdo q s pdo).Inside ↔ s.Inside := by
  unfold storePdo
  dsimp only
  split_ifs with h
  · refine ((s.setEeprom _).inside_touch _).trans ?_
    rw [Dump.inside_setEeprom, List.forall_mem_singleton]
    refine and_iff_left ?_
    simp only [lecMaxEepromCatPdoEntries] at h
    simp only [Access.Inside, Arr.size, lecMaxEepromCatPdo]
    omega
  · exact Iff.rfl

theorem pdoTouches_inside (e : Rom) (adr : ℕ) : ∀ a ∈ pdoTouches e adr, a.Inside := by
  unfold pdoTouches
  rw [List.forall_mem_cons]
  refine ⟨by simpa [Access.Inside, Arr.size] using read_offset_le e adr 8 fun _ => 0, ?_⟩
  intro a ha
  obtain ⟨j, -, ha⟩ := List.mem_flatMap.1 ha
  rcases List.mem_cons.1 ha with rfl | ha
  · have := read_offset_le e (adr + 4 + 4 * j) 8 (e.stack (adr + 4 + 4 * j))
    simpa [Access.Inside, Arr.size, readEntry] using this
  · split_ifs at ha with hj
    · rw [List.mem_singleton.1 ha]
      exact hj
    · cases ha

theorem catPdo_inside (q : Queue) (s : Dump) (c : Cat) : (catPdo q e s c).Inside ↔ s.Inside := by
  unfold catPdo
  dsimp only
  split_ifs
  · exact Iff.rfl
  · refine (Folds.foldl_iff (R := Dump.Inside) ?_ _ _).trans (s.inside_setEeprom _)
    intro s adr
    rw [storePdo_inside, Dump.inside_touch, and_iff_left (pdoTouches_inside e adr)]

/-! ## Distributed clocks -/

/-- `tmp_dc` is one byte short, and takes what is read only when the last chunk fails. -/
theorem dcPass_inside (c : Cat) (s : Dump) (j : ℕ) :
    (dcPass e c s j).Inside ↔ s.Inside ∧ (readDc e c j).ok = false := by
  have hok : (readDc e c j).ok = false ↔ (readDc e c j).offset ≤ 24 := by
    have hle : (readDc e c j).offset ≤ 25 := read_offset_le e _ 25 _
    have hiff : (readDc e c j).ok = true ↔ (readDc e c j).offset = 25 := read_ok e _ 25 _
    rw [← Bool.not_eq_true, hiff]
    omega
  unfold dcPass
  dsimp only
  split_ifs with hj
  · simp only [Dump.inside_setEeprom, Dump.inside_touch, List.forall_mem_singleton, and_assoc, hok]
    refine and_congr_right fun _ => ⟨fun h => ?_, fun h => ⟨?_, hj⟩⟩
    · simpa [Access.Inside, Arr.size] using h.1
    · simpa [Access.Inside, Arr.size] using h
  · rw [Dump.inside_touch, List.forall_mem_singleton, hok]
    simp only [Access.Inside, Arr.size, Nat.zero_add]

theorem catDc_inside (s : Dump) (c : Cat) :
    (catDc e s c).Inside ↔ s.Inside ∧ ∀ j < c.dcsCnt, (readDc e c j).ok = false := by
  unfold catDc
  rw [Folds.forall_foldl_each (R := Dump.Inside) (dcPass_inside c)]
  simp only [List.mem_range]
  exact Iff.rfl

/-! ## The walk -/

theorem category_inside (s : Dump) (c : Cat) :
    (category e s c).Inside ↔ s.Inside ∧ CatInside e s.buf c := by
  unfold category CatInside
  cases c.kind with
  | strings => exact catStrings_inside s c
  | general => exact (catGeneral_inside s c).trans (and_iff_left trivial).symm
  | fmmu => exact (catFmmu_inside s c).trans (and_iff_left trivial).symm
  | sm => exact catSm_inside s c
  | txpdo => exact (catPdo_inside .tx s c).trans (and_iff_left trivial).symm
  | rxpdo => exact (catPdo_inside .rx s c).trans (and_iff_left trivial).symm
  | dc => exact catDc_inside s c
  | other => exact (and_iff_left trivial).symm

theorem category_buf (s : Dump) (c : Cat) : (category e s c).buf = bufAfter e s.buf c := by
  refine (congrArg Published.buf (category_published s c)).trans ?_
  unfold Published.after bufAfter
  cases c.kind with
  | _ => rfl

/-! ## The dump -/

/-- Each text takes 5 bytes at most, and the buffer is far longer than all of them. -/
theorem addMbxSuppText_inside (supported : ℕ) (flags : List ℕ) (st : ℕ × Dump)
    (h : st.1 + 5 * flags.length ≤ 128) :
    (flags.foldl (addMbxSuppText supported) st).2.Inside ↔ st.2.Inside := by
  induction flags generalizing st with
  | nil => exact Iff.rfl
  | cons flag flags ih =>
    rw [List.length_cons] at h
    rw [List.foldl_cons, addMbxSuppText]
    dsimp only
    split_ifs
    · rw [ih _ (by dsimp only; omega), Dump.inside_touch, List.forall_mem_singleton]
      exact and_iff_left (by simp only [Access.Inside, Arr.size]; omega)
    · rw [ih _ (by dsimp only; omega), Dump.inside_touch, List.forall_mem_singleton]
      exact and_iff_left (by simp only [Access.Inside, Arr.size]; omega)
    · exact ih st (by omega)

theorem mbxSupportedText_inside (supported : ℕ) (s : Dump) :
    (mbxSupportedText supported s).Inside ↔ s.Inside :=
  addMbxSuppText_inside supported _ (0, s) (by decide : 0 + 5 * 6 ≤ 128)

theorem mbxSupportedText_buf (supported : ℕ) (s : Dump) :
    (mbxSupportedText supported s).buf = s.buf :=
  congrArg Published.buf (mbxSupportedText_published supported s)

/-- The walk, behind the fixed words. -/
theorem walk_inside (supported : ℕ) (slv : Slave) (buf : Message) (cats : List Cat) :
    (cats.foldl (category e) (mbxSupportedText supported ⟨slv, buf, 0, []⟩)).Inside ↔
      ∀ p ∈ Folds.steps (bufAfter e) buf cats, CatInside e p.1 p.2 := by
  rw [Folds.forall_foldl (R := Dump.Inside) category_buf category_inside, mbxSupportedText_inside,
    mbxSupportedText_buf]
  exact and_iff_right fun _ ha => absurd ha List.not_mem_nil

/-- **The dump stays inside its arrays exactly when each category does.** -/
theorem eeprom_dump_inside (e : Rom) (buf : Message) (slv : Slave) :
    (ecEepromDump e buf slv).Inside ↔
      (slv.eeprom.readEeprom = false → ∀ p ∈ catSteps e buf, CatInside e p.1 p.2) := by
  unfold ecEepromDump
  by_cases h : slv.eeprom.readEeprom = true
  · rw [if_pos h, h]
    exact ⟨fun _ => nofun, fun _ _ ha => absurd ha List.not_mem_nil⟩
  · rw [if_neg h]
    exact (walk_inside _ _ buf _).trans ⟨fun hp _ => hp, fun hp => hp (Bool.eq_false_iff.2 h)⟩

/-- An EEPROM of 256 bytes with one category, the settings of one distributed clock in 12 words. -/
def dcRom : Rom where
  byte k := if k = 124 then 1 else if k = 128 then 60 else if k = 130 then 12 else
    if 128 + 4 + 24 ≤ k then 0xFF else 0
  ok _ := true
  stack _ _ := 0

/-- The 25 bytes that are read into `tmp_dc` are one too many. -/
theorem eeprom_dump_dc_outside : ¬(ecEepromDump dcRom (fun _ => 0) zeroSlave).Inside := by
  have hok : ∀ a, dcRom.ok a = true := fun _ => rfl
  have hsize : 128 < eepromSize dcRom := by
    rw [eepromSize, read32_of_ok hok]
    decide
  have hkind : (catAt dcRom 0x0040).kind = .dc := by
    rw [Cat.kind, catAt_type hok]
    rfl
  have hcnt : 0 < (catAt dcRom 0x0040).dcsCnt := by
    rw [Cat.dcsCnt, catAt_len hok]
    decide
  have hfirst : (fun _ => 0, catAt dcRom 0x0040) ∈ catSteps dcRom fun _ => 0 := by
    obtain ⟨cats, hcats⟩ := categories_head hok hsize
    rw [catSteps, hcats]
    exact List.mem_cons_self
  intro hin
  have hcat := (walk_inside _ _ _ _).1 hin _ hfirst
  rw [CatInside, hkind] at hcat
  exact absurd (hcat 0 hcnt) (by simp [readDc, read_ok_of_ok hok])

end LibEthercat.Sii
