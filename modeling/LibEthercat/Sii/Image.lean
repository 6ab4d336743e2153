import LibEthercat.Sii.Model

/-!
# The image in the EEPROM

The categories as the bytes of the EEPROM have them: each begins with its type and its length in
words, the first one at word 0x40, and the last one is the end marker, or the last one before the
size that the EEPROM announces. The walk of the dump has 16 bits for that size.
-/

namespace LibEthercat.Sii

open LibEthercat.Coe (Message u16 u32)

/-! ## Headers -/

/-- The bytes from a word address on. -/
def bytesAt (e : Rom) (adr : ℕ) : Message := fun k => e.byte (2 * adr + k)

def typeAt (e : Rom) (offset : ℕ) : ℕ := u16 (bytesAt e offset) 0

def lenAt (e : Rom) (offset : ℕ) : ℕ := u16 (bytesAt e offset) 2

/-- The headers of the categories from the one at `offset` on. -/
def headersFrom (e : Rom) (size offset : ℕ) : List ℕ :=
  let next := offset + lenAt e offset + 2
  offset ::
    if 2 * next < size ∧ typeAt e offset ≠ ecEepromCatEnd then headersFrom e size next else []
termination_by size - 2 * offset

/-- The size in bytes that the EEPROM announces. -/
def announced (e : Rom) : ℕ := (u16 (bytesAt e 0x003E) 0 + 1) * 128

/-- All headers of the EEPROM. -/
def headers (e : Rom) : List ℕ :=
  if 128 < announced e then headersFrom e (announced e) 0x0040 else []

/-! ## What the dump comes to -/

section
variable {e : Rom} (h : ∀ a, e.ok a = true)
include h

theorem read_bytesAt {adr len k : ℕ} (buf : Message) (hk : k < len) :
    (ecEepromreadLen e adr len buf).buf k = bytesAt e adr k := read_buf_of_ok h buf hk

theorem catAt_typeAt (offset : ℕ) : (catAt e offset).type = typeAt e offset := catAt_type h offset

theorem catAt_lenAt (offset : ℕ) : (catAt e offset).len = lenAt e offset := catAt_len h offset

theorem categoriesFrom_of_ok (t offset : ℕ) : categoriesFrom e t offset = catAt e offset ::
    if 2 * (offset + lenAt e offset + 2) < t ∧ typeAt e offset ≠ ecEepromCatEnd then
      categoriesFrom e t (offset + lenAt e offset + 2)
    else [] := by
  rw [categoriesFrom, if_pos (read_ok_of_ok h _ _ _), catAt_typeAt h, catAt_lenAt h]

omit h in
theorem headersFrom_eq (e : Rom) (size offset : ℕ) : headersFrom e size offset = offset ::
    if 2 * (offset + lenAt e offset + 2) < size ∧ typeAt e offset ≠ ecEepromCatEnd then
      headersFrom e size (offset + lenAt e offset + 2)
    else [] := by
  rw [headersFrom]

omit h in
theorem le_of_mem_headersFrom {size offset r : ℕ} (hr : r ∈ headersFrom e size offset) :
    offset ≤ r := by
  induction offset using headersFrom.induct e size with
  | case1 offset next ih =>
    rw [headersFrom_eq, List.mem_cons] at hr
    obtain rfl | hr := hr
    · exact Nat.le_refl _
    · split_ifs at hr with hgo
      · exact Nat.le_trans (by omega) (ih hgo hr)
      · cases hr

/-- **The walk** comes to the headers before the size that it goes by. -/
theorem headersFrom_split {t size offset : ℕ} (hle : t ≤ size) : 2 * offset < t →
    ∃ rest, headersFrom e size offset = (categoriesFrom e t offset).map Cat.offset ++ rest ∧
      (∀ c ∈ categoriesFrom e t offset, c = catAt e c.offset ∧ 2 * c.offset < t) ∧
      ∀ r ∈ rest, t ≤ 2 * r := by
  induction offset using headersFrom.induct e size with
  | case1 offset next ih =>
    intro hoffset
    have hhead : catAt e offset = catAt e (catAt e offset).offset ∧
        2 * (catAt e offset).offset < t := ⟨rfl, hoffset⟩
    rw [headersFrom_eq, categoriesFrom_of_ok h]
    by_cases hgo : 2 * next < t ∧ typeAt e offset ≠ ecEepromCatEnd
    · have hsize : 2 * next < size ∧ typeAt e offset ≠ ecEepromCatEnd :=
        ⟨Nat.lt_of_lt_of_le hgo.1 hle, hgo.2⟩
      obtain ⟨rest, heq, hcats, hrest⟩ := ih hsize hgo.1
      rw [if_pos hgo, if_pos hsize]
      refine ⟨rest, ?_, List.forall_mem_cons.2 ⟨hhead, hcats⟩, hrest⟩
      rw [List.map_cons, List.cons_append, ← heq]
      rfl
    · rw [if_neg hgo]
      refine ⟨if 2 * next < size ∧ typeAt e offset ≠ ecEepromCatEnd then headersFrom e size next
        else [], rfl, List.forall_mem_cons.2 ⟨hhead, nofun⟩, fun r hr => ?_⟩
      split_ifs at hr with hsize
      · have hnext := le_of_mem_headersFrom hr
        have hbehind : ¬2 * next < t := fun hlt => hgo ⟨hlt, hsize.2⟩
        omega
      · cases hr

theorem eepromSize_of_ok : eepromSize e = announced e % 2 ^ 16 := by
  have hlow : u32 e.byte (2 * 0x003E) % 2 ^ 16 = u16 (bytesAt e 0x003E) 0 := by
    rw [u32, Nat.add_mul_mod_self_left]
    refine Nat.mod_eq_of_lt ?_
    have h0 := (e.byte (2 * 0x003E)).toNat_lt
    have h1 := (e.byte (2 * 0x003E + 1)).toNat_lt
    unfold u16
    omega
  rw [eepromSize, read32_of_ok h, hlow, announced]

/-- **The dump** comes to the headers before the size as 16 bits have it. -/
theorem headers_split : ∃ rest, headers e = (categories e).map Cat.offset ++ rest ∧
    (∀ c ∈ categories e, c = catAt e c.offset ∧ 2 * c.offset < announced e % 2 ^ 16) ∧
    ∀ r ∈ rest, announced e % 2 ^ 16 ≤ 2 * r := by
  have hle : announced e % 2 ^ 16 ≤ announced e := Nat.mod_le _ _
  rw [headers, categories, eepromSize_of_ok h]
  by_cases hsize : 128 < announced e % 2 ^ 16
  · rw [if_pos hsize, if_pos (Nat.lt_of_lt_of_le hsize hle)]
    exact headersFrom_split h hle hsize
  · rw [if_neg hsize]
    refine ⟨if 128 < announced e then headersFrom e (announced e) 0x0040 else [], rfl,
      fun c hc => absurd hc List.not_mem_nil, fun r hr => ?_⟩
    split_ifs at hr with hannounced
    · have := le_of_mem_headersFrom hr
      omega
    · cases hr

end

end LibEthercat.Sii
