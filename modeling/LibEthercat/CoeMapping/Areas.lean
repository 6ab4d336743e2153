import Mathlib.Order.CompletePartialOrder
import Mathlib.Order.Interval.Set.Disjoint
import LibEthercat.CoeMapping.Reads

/-!
# Where the process data lies

A sync manager without an address gets one, from the end of the mailbox with the higher address on.
Its area is three times as long as what is mapped.

**Theorem (`noOverlap_iff`).** The areas of sync managers 2 and 3 overlap neither each other nor the
mailboxes just if nothing that is there already reaches behind the place where addresses are given.
-/

namespace LibEthercat.CoeMapping

open Set (Ico)

/-! ## Property -/

def mailboxArea (m : SyncManager) : Set ℕ := Ico m.adr.toNat (m.adr.toNat + m.len.toNat)

/-- Three buffers. -/
def pdArea (m : SyncManager) : Set ℕ := Ico m.adr.toNat (m.adr.toNat + 3 * m.len.toNat)

structure NoOverlap (sm : ℕ → SyncManager) : Prop where
  each : Disjoint (pdArea (sm 2)) (pdArea (sm 3))
  mailbox : ∀ s, s = 2 ∨ s = 3 → ∀ i, i = 0 ∨ i = 1 → Disjoint (pdArea (sm s)) (mailboxArea (sm i))

/-! ## What is mapped -/

/-- The sync managers before the call, and what is read in it. -/
structure Plan where
  smCh : ℕ
  sm : ℕ → SyncManager
  reads : List Read

namespace Plan

variable (p : Plan)

/-- There is something to store for a sync manager. -/
def Mapped (s : ℕ) : Prop :=
  missingOf s p.reads = false ∧ bitsOf s p.reads ≠ 0 ∧ s < p.smCh

instance (s : ℕ) : Decidable (p.Mapped s) := inferInstanceAs (Decidable (_ ∧ _ ∧ _))

def bytes (s : ℕ) : ℕ := (bitsOf s p.reads + 7) / 8

/-- The length with which a sync manager is left. -/
def len (s : ℕ) : ℕ :=
  if p.Mapped s then p.bytes s
  else if missingOf s p.reads = true ∧ s < p.smCh then 0
  else (p.sm s).len.toNat

def adr (s : ℕ) : ℕ := (p.sm s).adr.toNat

/-- A sync manager that gets an address. -/
def Given (s : ℕ) : Prop := p.adr s = 0 ∧ p.Mapped s

instance (s : ℕ) : Decidable (p.Given s) := inferInstanceAs (Decidable (_ ∧ _))

/-- Behind the mailbox with the higher address. -/
def free : ℕ :=
  if p.adr 1 < p.adr 0 then p.adr 0 + (p.sm 0).len.toNat else p.adr 1 + (p.sm 1).len.toNat

/-- The space that is given to a sync manager. -/
def space (s : ℕ) : ℕ := if p.Given s then 3 * p.bytes s else 0

/-- Where a sync manager lies in the end. -/
def place (s : ℕ) : ℕ :=
  if p.Given s then if s = 2 then p.free else p.free + p.space 2 else p.adr s

/-- The area that a sync manager has if it keeps its address. -/
def area (s : ℕ) : Set ℕ := Ico (p.adr s) (p.adr s + 3 * p.len s)

/-! ## Premises and condition -/

/-- The preset areas, with the lengths that are mapped, are apart, and everything is below 64 KiB. -/
structure Preset : Prop where
  mailbox : ∀ s, s = 2 ∨ s = 3 → p.adr s ≠ 0 →
    ∀ i, i = 0 ∨ i = 1 → Disjoint (p.area s) (mailboxArea (p.sm i))
  each : p.adr 2 ≠ 0 → p.adr 3 ≠ 0 → Disjoint (p.area 2) (p.area 3)
  mailboxFits : ∀ i, i = 0 ∨ i = 1 → p.adr i + (p.sm i).len.toNat ≤ 2 ^ 16
  presetFits : ∀ s, s = 2 ∨ s = 3 → p.adr s ≠ 0 → p.adr s + 3 * p.len s ≤ 2 ^ 16
  givenFits : p.free + p.space 2 + p.space 3 ≤ 2 ^ 16

/-- Nothing reaches behind the place from which on addresses are given, unless it begins behind what
is given, and a sync manager that is left at address 0 ends before the others. -/
structure Room : Prop where
  mailbox : p.Given 2 ∨ p.Given 3 → ∀ i, i = 0 ∨ i = 1 →
    (p.sm i).len.toNat = 0 ∨ p.adr i + (p.sm i).len.toNat ≤ p.free
  other : ∀ s t, (s = 2 ∧ t = 3) ∨ (s = 3 ∧ t = 2) → p.Given s → ¬ p.Given t →
    p.len t = 0 ∨ p.adr t + 3 * p.len t ≤ p.free ∨ p.free + 3 * p.bytes s ≤ p.adr t
  left : ∀ s t, (s = 2 ∧ t = 3) ∨ (s = 3 ∧ t = 2) → p.adr s = 0 → ¬ p.Given s → p.len s ≠ 0 →
    (∀ i, i = 0 ∨ i = 1 → (p.sm i).len.toNat = 0 ∨ 3 * p.len s ≤ p.adr i) ∧
      (¬ p.Given t → p.len t = 0 ∨ 3 * p.len s ≤ p.adr t)

end Plan

/-! ## The table after both passes -/

section
variable {smCh s i : ℕ} {reads : List Read} {t : Table}

theorem passTable_sm_of_ne (h : i ≠ s) : (passTable smCh reads s t).sm i = t.sm i := by
  unfold passTable Table.clear
  split_ifs
  · exact Function.update_of_ne h _ _
  · rfl
  · exact store_sm_of_ne h

end

namespace Plan

variable {p : Plan} {s : ℕ} {t : Table}

theorem adr_eq_zero_iff : p.adr s = 0 ↔ (p.sm s).adr = 0 := by
  rw [adr, ← UInt16.toNat_inj]
  rfl

theorem len_of_mapped (h : p.Mapped s) : p.len s = p.bytes s := if_pos h

/-- What a pass does to its sync manager, and to the next free address. -/
theorem passTable_eq (hsm : t.sm s = p.sm s) (hlt : p.Mapped s → p.bytes s < 2 ^ 16) :
    ((passTable p.smCh p.reads s t).sm s).len.toNat = p.len s ∧
      ((passTable p.smCh p.reads s t).sm s).adr =
        (if p.Given s then t.startAdr else (p.sm s).adr) ∧
      (passTable p.smCh p.reads s t).startAdr =
        if p.Given s then t.startAdr + UInt16.ofNat (p.bytes s) * 3 else t.startAdr := by
  by_cases hm : p.Mapped s
  · have hmissing := hm.1
    have hmapped := hm.2
    have hgiven : p.Given s ↔ (p.sm s).adr = 0 := by
      rw [← adr_eq_zero_iff]
      exact and_iff_left hm
    rw [passTable, hmissing, if_neg (by decide), store_sm hmapped, store_startAdr hmapped,
      Function.update_self, len_of_mapped hm, hsm, if_congr hgiven rfl rfl, if_congr hgiven rfl rfl]
    exact ⟨UInt16.toNat_ofNat_of_lt (hlt hm), rfl, rfl⟩
  · have hgiven : ¬ p.Given s := fun h => hm h.2
    rw [if_neg hgiven, if_neg hgiven, len, if_neg hm, passTable]
    by_cases hmissing : missingOf s p.reads = true
    · rw [if_pos hmissing, Table.clear]
      by_cases hs : s < p.smCh
      · rw [if_pos hs, if_pos ⟨hmissing, hs⟩]
        dsimp only
        rw [Function.update_self, hsm]
        exact ⟨rfl, rfl, rfl⟩
      · rw [if_neg hs, if_neg fun h => hs h.2, hsm]
        exact ⟨rfl, rfl, rfl⟩
    · rw [if_neg hmissing, if_neg fun h => hmissing h.1,
        store_of_not fun h => hm ⟨Bool.eq_false_iff.2 hmissing, h⟩, hsm]
      exact ⟨rfl, rfl, rfl⟩

/-- As far as 16 bits go. -/
theorem toNat_firstStartAdr (p : Plan) : (firstStartAdr p.sm).toNat = p.free % 2 ^ 16 := by
  unfold firstStartAdr free adr
  by_cases h : (p.sm 1).adr < (p.sm 0).adr
  · rw [if_pos h, if_pos (UInt16.lt_iff_toNat_lt.1 h), UInt16.toNat_add]
  · rw [if_neg h, if_neg fun hlt => h (UInt16.lt_iff_toNat_lt.2 hlt), UInt16.toNat_add]

theorem bytes_pos (h : p.Mapped s) : 0 < p.bytes s := by
  have := h.2.1
  unfold bytes
  omega

theorem space_of_given (h : p.Given s) : p.space s = 3 * p.bytes s := if_pos h

theorem Preset.bytes_lt (h : p.Preset) (hs : s = 2 ∨ s = 3) (hm : p.Mapped s) :
    p.bytes s < 2 ^ 16 := by
  by_cases hzero : p.adr s = 0
  · have hspace := space_of_given ⟨hzero, hm⟩
    have hfits := h.givenFits
    rcases hs with rfl | rfl <;> omega
  · have hfits := h.presetFits s hs hzero
    rw [len_of_mapped hm] at hfits
    omega

theorem space_of_not_given (h : ¬ p.Given s) : p.space s = 0 := if_neg h

theorem place_of_not_given (h : ¬ p.Given s) : p.place s = p.adr s := if_neg h

theorem place_two (h : p.Given 2) : p.place 2 = p.free := by rw [place, if_pos h, if_pos rfl]

theorem place_three (h : p.Given 3) : p.place 3 = p.free + p.space 2 := by
  rw [place, if_pos h, if_neg (by decide)]

/-- **The table in the end.** -/
theorem Preset.table_eq (h : p.Preset) :
    let sm' := (tableAt p.smCh p.reads p.sm 2).sm
    (∀ s, s = 2 ∨ s = 3 → (sm' s).len.toNat = p.len s ∧ (sm' s).adr.toNat = p.place s) ∧
      ∀ i, i = 0 ∨ i = 1 → sm' i = p.sm i := by
  intro sm'
  have hfits := h.givenFits
  have hfirst := toNat_firstStartAdr p
  obtain ⟨hlen2, hadr2, hstart2⟩ := passTable_eq (p := p) (s := 2) (t := ⟨p.sm, firstStartAdr p.sm⟩)
    rfl (h.bytes_lt (.inl rfl))
  obtain ⟨hlen3, hadr3, -⟩ := passTable_eq (p := p) (s := 3)
    (t := passTable p.smCh p.reads 2 ⟨p.sm, firstStartAdr p.sm⟩)
    (passTable_sm_of_ne (by decide)) (h.bytes_lt (.inr rfl))
  have hsm2 : sm' 2 = (passTable p.smCh p.reads 2 ⟨p.sm, firstStartAdr p.sm⟩).sm 2 :=
    passTable_sm_of_ne (by decide)
  have hsm3 : (sm' 3).adr = _ := hadr3
  refine ⟨?_, fun i hi => ?_⟩
  · rintro s (rfl | rfl)
    · refine ⟨hsm2 ▸ hlen2, ?_⟩
      rw [hsm2, hadr2]
      by_cases hg : p.Given 2
      · have hspace := space_of_given hg
        have hpos := bytes_pos hg.2
        rw [if_pos hg, place_two hg]
        show (firstStartAdr p.sm).toNat = _
        omega
      · rw [if_neg hg, place_of_not_given hg]
        rfl
    · refine ⟨hlen3, ?_⟩
      rw [hsm3]
      by_cases hg : p.Given 3
      · have hspace := space_of_given hg
        have hpos := bytes_pos hg.2
        rw [if_pos hg, place_three hg, hstart2]
        by_cases hg2 : p.Given 2
        · have hspace2 := space_of_given hg2
          have hbytes : (UInt16.ofNat (p.bytes 2)).toNat = p.bytes 2 :=
            UInt16.toNat_ofNat_of_lt (h.bytes_lt (.inl rfl) hg2.2)
          rw [if_pos hg2, UInt16.toNat_add, UInt16.toNat_mul, hbytes]
          show ((firstStartAdr p.sm).toNat + _ * (3 : UInt16).toNat % 2 ^ 16) % 2 ^ 16 = _
          simp only [UInt16.reduceToNat]
          omega
        · have hspace2 := space_of_not_given hg2
          rw [if_neg hg2]
          show (firstStartAdr p.sm).toNat = _
          omega
      · rw [if_neg hg, place_of_not_given hg]
        rfl
  · have h2 : i ≠ 2 := by omega
    have h3 : i ≠ 3 := by omega
    exact (passTable_sm_of_ne h3).trans (passTable_sm_of_ne h2)

/-- Both mailboxes begin before the addresses that are given. -/
theorem adr_le_free {i : ℕ} (hi : i = 0 ∨ i = 1) : p.adr i ≤ p.free := by
  unfold free
  split_ifs <;> rcases hi with rfl | rfl <;> omega

end Plan

/-! ## Overlaps -/

theorem disjoint_area {a n b m : ℕ} :
    Disjoint (Ico a (a + n)) (Ico b (b + m)) ↔ n = 0 ∨ m = 0 ∨ a + n ≤ b ∨ b + m ≤ a := by
  rw [Set.Ico_disjoint_Ico]
  omega

/-- The table in the end, also if nothing has been read. -/
theorem returns_table {sl : Slave} {sm : ℕ → SyncManager} {r : State} {p : Plan}
    (hret : Returns sl sm r) (hp : p = ⟨sl.smCh, sm, r.reads⟩) (h : p.Preset) :
    (∀ s, s = 2 ∨ s = 3 →
      (r.table.sm s).len.toNat = p.len s ∧ (r.table.sm s).adr.toNat = p.place s) ∧
      ∀ i, i = 0 ∨ i = 1 → r.table.sm i = p.sm i := by
  subst hp
  rcases returns_cases hret with ⟨hnil, hsm⟩ | ⟨-, htable⟩
  · have hmapped : ∀ s, ¬ Plan.Mapped ⟨sl.smCh, sm, r.reads⟩ s := by
      rintro s ⟨-, hbits, -⟩
      rw [hnil] at hbits
      exact hbits rfl
    rw [hsm]
    refine ⟨fun s _ => ?_, fun _ _ => rfl⟩
    rw [Plan.place_of_not_given fun hg => hmapped s hg.2, Plan.len, if_neg (hmapped s), hnil]
    exact ⟨rfl, rfl⟩
  · rw [htable]
    exact h.table_eq

/-- The property, in numbers: where the areas lie in the end, they are apart. -/
structure Plan.Apart (p : Plan) : Prop where
  each : 3 * p.len 2 = 0 ∨ 3 * p.len 3 = 0 ∨ p.place 2 + 3 * p.len 2 ≤ p.place 3 ∨
    p.place 3 + 3 * p.len 3 ≤ p.place 2
  mailbox : ∀ s, s = 2 ∨ s = 3 → ∀ i, i = 0 ∨ i = 1 →
    3 * p.len s = 0 ∨ (p.sm i).len.toNat = 0 ∨ p.place s + 3 * p.len s ≤ p.adr i ∨
      p.adr i + (p.sm i).len.toNat ≤ p.place s

theorem noOverlap_iff_apart {p : Plan} {sm' : ℕ → SyncManager}
    (hpd : ∀ s, s = 2 ∨ s = 3 → (sm' s).len.toNat = p.len s ∧ (sm' s).adr.toNat = p.place s)
    (hbox : ∀ i, i = 0 ∨ i = 1 → sm' i = p.sm i) : NoOverlap sm' ↔ p.Apart := by
  have harea : ∀ s, s = 2 ∨ s = 3 →
      pdArea (sm' s) = Ico (p.place s) (p.place s + 3 * p.len s) := fun s hs => by
    rw [pdArea, (hpd s hs).1, (hpd s hs).2]
  have hmailbox : ∀ i, i = 0 ∨ i = 1 →
      mailboxArea (sm' i) = Ico (p.adr i) (p.adr i + (p.sm i).len.toNat) := fun i hi => by
    rw [mailboxArea, hbox i hi]
    rfl
  constructor
  · intro h
    refine ⟨disjoint_area.1 ?_, fun s hs i hi => disjoint_area.1 ?_⟩
    · rw [← harea 2 (.inl rfl), ← harea 3 (.inr rfl)]
      exact h.each
    · rw [← harea s hs, ← hmailbox i hi]
      exact h.mailbox s hs i hi
  · intro h
    refine ⟨?_, fun s hs i hi => ?_⟩
    · rw [harea 2 (.inl rfl), harea 3 (.inr rfl)]
      exact disjoint_area.2 h.each
    · rw [harea s hs, hmailbox i hi]
      exact disjoint_area.2 (h.mailbox s hs i hi)

/-- What is given first lies right behind the mailbox. -/
theorem Plan.place_of_first {p : Plan} {s t : ℕ} (hst : (s = 2 ∧ t = 3) ∨ (s = 3 ∧ t = 2))
    (hs : p.Given s) (ht : ¬ p.Given t) : p.place s = p.free := by
  rcases hst with ⟨rfl, rfl⟩ | ⟨rfl, rfl⟩
  · exact place_two hs
  · rw [place_three hs, space_of_not_given ht, Nat.add_zero]

theorem Plan.free_le_place {p : Plan} {s : ℕ} (hs : p.Given s) : p.free ≤ p.place s := by
  rw [place, if_pos hs]
  split_ifs
  · exact Nat.le_refl _
  · exact Nat.le_add_right _ _

/-- The premises about preset areas, in numbers. -/
theorem Plan.Preset.numbers {p : Plan} (h : p.Preset) :
    (∀ s, s = 2 ∨ s = 3 → p.adr s ≠ 0 → ∀ i, i = 0 ∨ i = 1 →
      3 * p.len s = 0 ∨ (p.sm i).len.toNat = 0 ∨ p.adr s + 3 * p.len s ≤ p.adr i ∨
        p.adr i + (p.sm i).len.toNat ≤ p.adr s) ∧
      (p.adr 2 ≠ 0 → p.adr 3 ≠ 0 → 3 * p.len 2 = 0 ∨ 3 * p.len 3 = 0 ∨
        p.adr 2 + 3 * p.len 2 ≤ p.adr 3 ∨ p.adr 3 + 3 * p.len 3 ≤ p.adr 2) :=
  ⟨fun s hs hne i hi => disjoint_area.1 (h.mailbox s hs hne i hi),
    fun h2 h3 => disjoint_area.1 (h.each h2 h3)⟩

theorem Plan.Given.len {p : Plan} {s : ℕ} (hg : p.Given s) : p.len s = p.bytes s ∧ 0 < p.bytes s :=
  ⟨len_of_mapped hg.2, bytes_pos hg.2⟩

/-- What is given would otherwise overlap. -/
theorem Plan.Apart.room {p : Plan} (h : p.Apart) : p.Room := by
  refine ⟨fun hg i hi => ?_, fun s t hst hs ht => ?_, fun s t hst hzero hs hne => ?_⟩
  · -- the first address that is given
    have hfirst : ∃ s, (s = 2 ∨ s = 3) ∧ p.Given s ∧ p.place s = p.free := by
      by_cases h2 : p.Given 2
      · exact ⟨2, .inl rfl, h2, place_two h2⟩
      · have h3 := hg.resolve_left h2
        exact ⟨3, .inr rfl, h3, place_of_first (.inr ⟨rfl, rfl⟩) h3 h2⟩
    obtain ⟨s, hs, hgiven, hplace⟩ := hfirst
    have hlens := hgiven.len
    have hle : p.adr i ≤ p.free := adr_le_free hi
    have hnum := h.mailbox s hs i hi
    omega
  · have hlens := hs.len
    have hplace := place_of_first hst hs ht
    have hkept := place_of_not_given ht
    have heach := h.each
    rcases hst with ⟨rfl, rfl⟩ | ⟨rfl, rfl⟩ <;> omega
  · have hplace := place_of_not_given hs
    have hs23 : s = 2 ∨ s = 3 := hst.imp And.left And.left
    refine ⟨fun i hi => ?_, fun ht => ?_⟩
    · have hnum := h.mailbox s hs23 i hi
      omega
    · have hkept := place_of_not_given ht
      have heach := h.each
      rcases hst with ⟨rfl, rfl⟩ | ⟨rfl, rfl⟩ <;> omega

/-- With room, sync managers 2 and 3 are apart, whichever of them gets an address. -/
theorem Plan.Room.each {p : Plan} (hroom : p.Room) (h : p.Preset) :
    3 * p.len 2 = 0 ∨ 3 * p.len 3 = 0 ∨ p.place 2 + 3 * p.len 2 ≤ p.place 3 ∨
      p.place 3 + 3 * p.len 3 ≤ p.place 2 := by
  by_cases h2 : p.Given 2 <;> by_cases h3 : p.Given 3
  · have hplace2 := place_two h2
    have hplace3 := place_three h3
    have hspace := space_of_given h2
    have hlens := h2.len
    omega
  · have hplace2 := place_two h2
    have hplace3 := place_of_not_given h3
    have hlens := h2.len
    have hnum := hroom.other 2 3 (.inl ⟨rfl, rfl⟩) h2 h3
    omega
  · have hplace2 := place_of_not_given h2
    have hplace3 := place_of_first (.inr ⟨rfl, rfl⟩) h3 h2
    have hlens := h3.len
    have hnum := hroom.other 3 2 (.inr ⟨rfl, rfl⟩) h3 h2
    omega
  · rw [place_of_not_given h2, place_of_not_given h3]
    have hleft2 := fun hz hne => (hroom.left 2 3 (.inl ⟨rfl, rfl⟩) hz h2 hne).2 h3
    have hleft3 := fun hz hne => (hroom.left 3 2 (.inr ⟨rfl, rfl⟩) hz h3 hne).2 h2
    have hpair := h.numbers.2
    omega

theorem Plan.Room.mailboxes {p : Plan} (hroom : p.Room) (h : p.Preset) {s i : ℕ}
    (hs : s = 2 ∨ s = 3) (hi : i = 0 ∨ i = 1) :
    3 * p.len s = 0 ∨ (p.sm i).len.toNat = 0 ∨ p.place s + 3 * p.len s ≤ p.adr i ∨
      p.adr i + (p.sm i).len.toNat ≤ p.place s := by
  by_cases hg : p.Given s
  · have hany : p.Given 2 ∨ p.Given 3 := by
      rcases hs with rfl | rfl
      · exact .inl hg
      · exact .inr hg
    have hnum := hroom.mailbox hany i hi
    have hle := free_le_place hg
    omega
  · rw [place_of_not_given hg]
    by_cases hzero : p.adr s = 0
    · by_cases hne : p.len s = 0
      · omega
      · obtain ⟨t, hst⟩ : ∃ t, (s = 2 ∧ t = 3) ∨ (s = 3 ∧ t = 2) := by
          rcases hs with rfl | rfl
          · exact ⟨3, .inl ⟨rfl, rfl⟩⟩
          · exact ⟨2, .inr ⟨rfl, rfl⟩⟩
        have hnum := (hroom.left s t hst hzero hg hne).1 i hi
        omega
    · exact h.numbers.1 s hs hzero i hi

/-- **No overlaps**, just if what is there already does not reach into what is given. -/
theorem noOverlap_iff {sl : Slave} {sm : ℕ → SyncManager} {r : State} (hret : Returns sl sm r)
    (h : Plan.Preset ⟨sl.smCh, sm, r.reads⟩) :
    NoOverlap r.table.sm ↔ Plan.Room ⟨sl.smCh, sm, r.reads⟩ := by
  obtain ⟨hpd, hbox⟩ := returns_table hret rfl h
  rw [noOverlap_iff_apart hpd hbox]
  constructor
  · exact Plan.Apart.room
  · intro hroom
    exact ⟨hroom.each h, fun s hs i hi => hroom.mailboxes h hs hi⟩

/-- A slave with one PDO for each direction, of 8 and 16 bits. -/
def twoPdos : Slave where
  present := true
  coe := true
  smCh := 4
  sdoRead := fun k _ _ => .value ([1, 0x1600, 1, 8, 1, 0x1a00, 1, 16].getD k 0)

/-- Two mailboxes, and sync managers 2 and 3 at these addresses. -/
def mailboxesAnd (adr2 adr3 : UInt16) : ℕ → SyncManager := fun s =>
  [⟨0x1000, 0x80, 0⟩, ⟨0x1080, 0x80, 0⟩, ⟨adr2, 0, 0⟩, ⟨adr3, 0, 0⟩].getD s ⟨0, 0, 0⟩

/-- The state in which the call ends. -/
def twoPdosEnd (adr2 adr3 : UInt16) : State :=
  (ecCoeGenerateMapping 20 twoPdos (mailboxesAnd adr2 adr3)).getD (State.init (mailboxesAnd adr2 adr3))

/-- Without addresses from the EEPROM. -/
theorem noOverlap_noneGiven : NoOverlap (twoPdosEnd 0 0).table.sm := by
  have hret : Returns twoPdos (mailboxesAnd 0 0) (twoPdosEnd 0 0) := ⟨20, rfl⟩
  refine (noOverlap_iff hret ⟨?_, ?_, ?_, ?_, ?_⟩).2 ⟨?_, ?_, ?_⟩
  · rintro s (rfl | rfl) hne <;> exact absurd rfl hne
  · exact fun hne => absurd rfl hne
  · rintro i (rfl | rfl) <;> decide
  · rintro s (rfl | rfl) hne <;> exact absurd rfl hne
  · decide +kernel
  · rintro - i (rfl | rfl) <;> decide +kernel
  · rintro s t (⟨rfl, rfl⟩ | ⟨rfl, rfl⟩) <;> decide +kernel
  · rintro s t (⟨rfl, rfl⟩ | ⟨rfl, rfl⟩) - hg <;> exact absurd (by decide +kernel) hg

/-- Sync manager 2 has an address behind the mailboxes, and sync manager 3 gets the same. -/
theorem preset_overlaps :
    ¬ ∀ sl sm r, Returns sl sm r → Plan.Preset ⟨sl.smCh, sm, r.reads⟩ → NoOverlap r.table.sm := by
  intro hall
  have hret : Returns twoPdos (mailboxesAnd 0x1100 0) (twoPdosEnd 0x1100 0) := ⟨20, rfl⟩
  have hno := (hall _ _ _ hret ⟨?_, ?_, ?_, ?_, ?_⟩).each
  · rw [pdArea, pdArea, disjoint_area] at hno
    revert hno
    decide +kernel
  · rintro s (rfl | rfl) hne
    · rintro i (rfl | rfl) <;> refine disjoint_area.2 ?_ <;> decide +kernel
    · exact absurd rfl hne
  · exact fun _ hne => absurd rfl hne
  · rintro i (rfl | rfl) <;> decide
  · rintro s (rfl | rfl) hne
    · decide +kernel
    · exact absurd rfl hne
  · decide +kernel

end LibEthercat.CoeMapping
