import LibEthercat.Sii.Published

/-!
# The FMMU category

The types of the FMMUs are the bytes of their category. The loop reads 4 of them at once, so that it
comes to the word behind a category of an odd length; a chunk that cannot be read leaves the one
before it, or the header of the category, in its place; and the number of types has 8 bits, so that
a category whose length is a multiple of 128 words is taken for an empty one.

**Theorem (`fmmus_read`).** Every FMMU gets the type that the category has for it if and only if the
bytes that the loop meets are of the same types as those of the category, as far as there are FMMUs.
-/

namespace LibEthercat.Sii

open LibEthercat.Coe (Message)

/-! ## What is expected -/

def isType (t : UInt8) : Bool := 1 ≤ t ∧ t ≤ 3

/-- Byte `i` of the category. -/
def catByte (e : Rom) (c : Cat) (i : ℕ) : UInt8 := e.byte (2 * (c.offset + 2) + i)

/-- The byte of FMMU `i`, if the category has one. -/
def ownByte (e : Rom) (c : Cat) (i : ℕ) : Option UInt8 :=
  if i < 2 * c.len then some (catByte e c i) else none

/-- A slave with that many FMMUs has the types of these bytes, where they are types, and keeps the
others, in both tables. -/
def TypesFrom (e : Rom) (c : Cat) (fmmuCh : UInt8) (bytes : ℕ → Option UInt8) : Prop :=
  ∀ s : Dump, s.slv.fmmuCh = fmmuCh → ∀ i,
    let t := if i < lecMaxEepromCatFmmu ∧ i < fmmuCh.toNat then (bytes i).filter isType else none
    (catFmmu e s c).slv.fmmu i = t.getD (s.slv.fmmu i) ∧
      (catFmmu e s c).slv.eeprom.fmmus i = t.getD (s.slv.eeprom.fmmus i)

/-! ## What the loop meets -/

/-- The last chunk of 4 bytes that can be read when pass `k` is over. -/
def lastChunk (e : Rom) (c : Cat) : ℕ → Option ℕ
  | 0 => if e.ok (c.offset + 2) then some 0 else none
  | k + 1 => if e.ok (c.offset + 2 + 2 * (k + 1)) then some (k + 1) else lastChunk e c k

/-- Byte `i` of the chunks, and byte `i` of the header if there are none. -/
def chunkByte (e : Rom) (c : Cat) (k i : ℕ) : UInt8 :=
  match lastChunk e c k with
  | some j => catByte e c (4 * j + i)
  | none => c.value32 i

/-- How many bytes the passes take: 4 each, unless the category has fewer. -/
def metLen (c : Cat) : ℕ := fmmuBytes c * ((c.len + 1) / 2)

/-- The byte that is met for FMMU `i`. -/
def metByte (e : Rom) (c : Cat) (i : ℕ) : Option UInt8 :=
  if c.fmmusCnt ≠ 0 ∧ i < metLen c then some (chunkByte e c (i / 4) (i % 4)) else none

/-- As far as there are FMMUs, the bytes that are met are of the types in the category. -/
def TypesMet (e : Rom) (c : Cat) (fmmuCh : UInt8) : Prop :=
  ∀ i < lecMaxEepromCatFmmu, i < fmmuCh.toNat →
    (metByte e c i).filter isType = (ownByte e c i).filter isType

/-! ## The loop -/

section
variable {e : Rom} {c : Cat} {fmmuCh : UInt8} {g : Dump → ℕ → UInt8}

/-- A chunk is read in one piece, or not at all. -/
theorem read_chunk (adr : ℕ) (buf : Message) {k : ℕ} (hk : k < 4) :
    (ecEepromreadLen e adr 4 buf).buf k = if e.ok adr then e.byte (2 * adr + k) else buf k := by
  rw [read_buf, ecEepromreadLen]
  by_cases hok : e.ok (adr + 0 / 2) = true
  · rw [readFrom_step (by decide) hok, readFrom_done (by decide)]
    exact (if_pos hk).trans (if_pos hok).symm
  · rw [readFrom_fail (by decide) hok, if_neg (Nat.not_lt_zero k)]
    exact (if_neg hok).symm

/-- What `value32` holds when `n` passes are over. -/
def heldByte (e : Rom) (c : Cat) : ℕ → ℕ → UInt8
  | 0, i => c.value32 i
  | k + 1, i => chunkByte e c k i

theorem heldByte_succ (k i : ℕ) : heldByte e c (k + 1) i =
    if e.ok (c.offset + 2 + 2 * k) then e.byte (2 * (c.offset + 2 + 2 * k) + i)
    else heldByte e c k i := by
  have hadr : 2 * (c.offset + 2 + 2 * k) + i = 2 * (c.offset + 2) + (4 * k + i) := by omega
  rw [hadr]
  cases k with
  | zero =>
    by_cases hok : e.ok (c.offset + 2) = true <;>
      simp [heldByte, chunkByte, lastChunk, hok, catByte]
  | succ k =>
    by_cases hok : e.ok (c.offset + 2 + 2 * (k + 1)) = true <;>
      simp [heldByte, chunkByte, lastChunk, hok, catByte]

/-- A table that the types are written to. -/
structure IsTable (g : Dump → ℕ → UInt8) : Prop where
  touch : ∀ s as, g (s.touch as) = g s
  setEeprom : ∀ (s : Dump) n, g (s.setEeprom { s.slv.eeprom with fmmusCnt := n }) = g s
  byte : ∀ s i t j, g (fmmuByte s i t) j =
    if j = i ∧ i < lecMaxEepromCatFmmu ∧ i < s.slv.fmmuCh.toNat ∧ isType t then t else g s j

theorem isTable_of_update {g : Dump → ℕ → UInt8} (htouch : ∀ s as, g (s.touch as) = g s)
    (hset : ∀ (s : Dump) n, g (s.setEeprom { s.slv.eeprom with fmmusCnt := n }) = g s)
    (hupdate : ∀ (s : Dump) i t, g (s.setSlv { s.slv with
      fmmu := Function.update s.slv.fmmu i t
      eeprom.fmmus := Function.update s.slv.eeprom.fmmus i t }) = Function.update (g s) i t) :
    IsTable g where
  touch := htouch
  setEeprom := hset
  byte s i t j := by
    unfold fmmuByte
    by_cases h : i < lecMaxEepromCatFmmu ∧ i < s.slv.fmmuCh.toNat ∧ 1 ≤ t ∧ t ≤ 3
    · rw [if_pos h]
      have htype : isType t = true := by simpa [isType] using h.2.2
      have hupd := congrFun ((hupdate (s.touch [⟨.fmmu, i, 1⟩, ⟨.fmmus, i, 1⟩]) i t).trans
        (by rw [htouch])) j
      refine hupd.trans ?_
      by_cases hj : j = i
      · rw [hj, Function.update_self, if_pos ⟨rfl, h.1, h.2.1, htype⟩]
      · rw [Function.update_of_ne hj, if_neg fun hcond => hj hcond.1]
    · rw [if_neg h, if_neg]
      rintro ⟨-, hmax, hch, htype⟩
      exact h ⟨hmax, hch, by simpa [isType] using htype⟩

theorem isTable_fmmu : IsTable fun s => s.slv.fmmu :=
  isTable_of_update (fun _ _ => rfl) (fun _ _ => rfl) fun _ _ _ => rfl

theorem isTable_fmmus : IsTable fun s => s.slv.eeprom.fmmus :=
  isTable_of_update (fun _ _ => rfl) (fun _ _ => rfl) fun _ _ _ => rfl

theorem fmmuByte_fmmuCh (s : Dump) (i : ℕ) (t : UInt8) :
    (fmmuByte s i t).slv.fmmuCh = s.slv.fmmuCh := by
  unfold fmmuByte
  split_ifs <;> rfl

/-- **A pass** writes the types of one chunk. -/
theorem fmmuPass_at (hg : IsTable g) {st : Message × Dump} (hch : st.2.slv.fmmuCh = fmmuCh) {k : ℕ}
    (hheld : ∀ i < 4, st.1 i = heldByte e c k i) :
    (fmmuPass e c st k).2.slv.fmmuCh = fmmuCh ∧
      (∀ i < 4, (fmmuPass e c st k).1 i = heldByte e c (k + 1) i) ∧
      ∀ j, g (fmmuPass e c st k).2 j =
        if fmmuBytes c * k ≤ j ∧ j < fmmuBytes c * k + fmmuBytes c ∧
            j < lecMaxEepromCatFmmu ∧ j < fmmuCh.toNat ∧
            isType (chunkByte e c k (j - fmmuBytes c * k)) then
          chunkByte e c k (j - fmmuBytes c * k)
        else g st.2 j := by
  have hvalue : ∀ i < 4, (fmmuPass e c st k).1 i = heldByte e c (k + 1) i := by
    intro i hi
    rw [heldByte_succ, ← hheld i hi]
    exact read_chunk _ _ hi
  have hbytes : fmmuBytes c ≤ 4 := Nat.min_le_left 4 _
  have hloop := fun j => Folds.foldl_range_at (g := g) (I := fun s => s.slv.fmmuCh = fmmuCh)
    (f := fun s i => fmmuByte (s.touch [⟨.tmpFmmu, i, 1⟩]) (fmmuBytes c * k + i)
      ((fmmuPass e c st k).1 i))
    (p := fun i => fmmuBytes c * k + i < lecMaxEepromCatFmmu ∧
      fmmuBytes c * k + i < fmmuCh.toNat ∧ isType ((fmmuPass e c st k).1 i))
    (w := (fmmuPass e c st k).1) (b := fmmuBytes c * k)
    (fun s i hs => (fmmuByte_fmmuCh _ _ _).trans hs)
    (fun s i j hs => by rw [hg.byte, hg.touch, ← hs]; rfl) hch (fmmuBytes c) j
  refine ⟨(hloop 0).1, hvalue, fun j => (hloop j).2.trans ?_⟩
  by_cases hj : fmmuBytes c * k ≤ j ∧ j < fmmuBytes c * k + fmmuBytes c
  · have hsub : fmmuBytes c * k + (j - fmmuBytes c * k) = j := by omega
    have heq : (fmmuPass e c st k).1 (j - fmmuBytes c * k) = chunkByte e c k (j - fmmuBytes c * k) :=
      hvalue _ (by omega)
    rw [hsub, heq]
  · rw [if_neg fun h => hj ⟨h.1, h.2.1⟩, if_neg fun h => hj ⟨h.1, h.2.1⟩]

/-- **The loop** writes the types of all chunks. -/
theorem fmmuLoop_at (hg : IsTable g) {s : Dump} (hch : s.slv.fmmuCh = fmmuCh)
    (hpos : 0 < fmmuBytes c) (n : ℕ) :
    ((List.range n).foldl (fmmuPass e c) (c.value32, s)).2.slv.fmmuCh = fmmuCh ∧
      (∀ i < 4, ((List.range n).foldl (fmmuPass e c) (c.value32, s)).1 i = heldByte e c n i) ∧
      ∀ j, g ((List.range n).foldl (fmmuPass e c) (c.value32, s)).2 j =
        if j < fmmuBytes c * n ∧ j < lecMaxEepromCatFmmu ∧ j < fmmuCh.toNat ∧
            isType (chunkByte e c (j / fmmuBytes c) (j % fmmuBytes c)) then
          chunkByte e c (j / fmmuBytes c) (j % fmmuBytes c)
        else g s j := by
  induction n with
  | zero => exact ⟨hch, fun _ _ => rfl, fun j => (if_neg fun h => Nat.not_lt_zero j h.1).symm⟩
  | succ n ih =>
    rw [List.range_succ, List.foldl_append, List.foldl_cons, List.foldl_nil]
    obtain ⟨hch', hheld, hat⟩ := fmmuPass_at hg ih.1 ih.2.1
    refine ⟨hch', hheld, fun j => ?_⟩
    rw [hat, ih.2.2, Nat.mul_succ]
    by_cases hj : fmmuBytes c * n ≤ j ∧ j < fmmuBytes c * n + fmmuBytes c
    · -- the chunk of this pass
      have hdiv : j / fmmuBytes c = n :=
        Nat.div_eq_of_lt_le (by rw [Nat.mul_comm]; exact hj.1)
          (by rw [Nat.succ_mul, Nat.mul_comm]; exact hj.2)
      have hmod : j % fmmuBytes c = j - fmmuBytes c * n := by
        rw [Nat.mod_eq_sub_mul_div, hdiv]
      have hnot : ¬ j < fmmuBytes c * n := Nat.not_lt.2 hj.1
      rw [hdiv, hmod]
      by_cases hp : j < lecMaxEepromCatFmmu ∧ j < fmmuCh.toNat ∧
          isType (chunkByte e c n (j - fmmuBytes c * n)) = true
      · rw [if_pos ⟨hj.1, hj.2, hp⟩, if_pos ⟨hj.2, hp⟩]
      · rw [if_neg fun h => hp h.2.2, if_neg fun h => hnot h.1, if_neg fun h => hp h.2]
    · rw [if_neg fun h => hj ⟨h.1, h.2.1⟩]
      refine if_congr (and_congr_left fun _ => ?_) rfl rfl
      omega

/-- What the category makes of a table. -/
theorem catFmmu_at (hg : IsTable g) {s : Dump} (hch : s.slv.fmmuCh = fmmuCh) (j : ℕ) :
    g (catFmmu e s c) j =
      (if j < lecMaxEepromCatFmmu ∧ j < fmmuCh.toNat then (metByte e c j).filter isType
        else none).getD (g s j) := by
  unfold catFmmu
  dsimp only
  by_cases hcnt : c.fmmusCnt = 0
  · have hmet : metByte e c j = none := if_neg fun h => h.1 hcnt
    rw [if_pos hcnt, hg.setEeprom, hmet]
    split_ifs <;> rfl
  · have hlen : 0 < c.len := by
      by_contra hzero
      have : c.len = 0 := by omega
      exact hcnt (by rw [Cat.fmmusCnt, this]; rfl)
    have hpos : 0 < fmmuBytes c := by
      rw [fmmuBytes]
      omega
    have hloop := (fmmuLoop_at (e := e) hg
      (s := s.setEeprom { s.slv.eeprom with fmmusCnt := c.fmmusCnt }) hch hpos
      ((c.len + 1) / 2)).2.2 j
    rw [if_neg hcnt, hloop, hg.setEeprom]
    -- a category of one word has one chunk
    have hchunk : j < metLen c → j / fmmuBytes c = j / 4 ∧ j % fmmuBytes c = j % 4 := by
      intro hj
      by_cases hone : c.len = 1
      · have hbytes : fmmuBytes c = 2 := by rw [fmmuBytes, hone]; rfl
        rw [metLen, hbytes, hone] at hj
        rw [hbytes]
        omega
      · have hbytes : fmmuBytes c = 4 := by rw [fmmuBytes]; omega
        rw [hbytes]
        exact ⟨rfl, rfl⟩
    by_cases hj : j < metLen c
    · have hmet : metByte e c j = some (chunkByte e c (j / 4) (j % 4)) := if_pos ⟨hcnt, hj⟩
      rw [(hchunk hj).1, (hchunk hj).2, hmet]
      by_cases hrange : j < lecMaxEepromCatFmmu ∧ j < fmmuCh.toNat
      · rw [if_pos hrange]
        by_cases htype : isType (chunkByte e c (j / 4) (j % 4)) = true
        · rw [if_pos ⟨hj, hrange.1, hrange.2, htype⟩, Option.filter_some_pos htype]
          rfl
        · rw [if_neg fun h => htype h.2.2.2, Option.filter_some_neg (by simpa using htype)]
          rfl
      · rw [if_neg hrange, if_neg fun h => hrange ⟨h.2.1, h.2.2.1⟩]
        rfl
    · have hmet : metByte e c j = none := if_neg fun h => hj h.2
      rw [if_neg fun h => hj h.1, hmet]
      split_ifs <;> rfl

/-! ## The category -/

/-- Where there was no type before, what is written can be seen. -/
theorem filter_isType_inj {a b : Option UInt8}
    (h : (a.filter isType).getD 0 = (b.filter isType).getD 0) : a.filter isType = b.filter isType := by
  have hne : ∀ {o : Option UInt8} {t}, o.filter isType = some t → t ≠ 0 := by
    rintro o t ho rfl
    cases (Option.filter_eq_some_iff.1 ho).2
  cases ha : a.filter isType with
  | none =>
    cases hb : b.filter isType with
    | none => rfl
    | some t =>
      rw [ha, hb] at h
      exact absurd h.symm (hne hb)
  | some t =>
    cases hb : b.filter isType with
    | none =>
      rw [ha, hb] at h
      exact absurd h (hne ha)
    | some u =>
      rw [ha, hb] at h
      exact congrArg some h

/-- **The types of the FMMUs**, for every category, every EEPROM, readable or not, and all slaves with
a number of FMMUs. -/
theorem fmmus_read (e : Rom) (c : Cat) (fmmuCh : UInt8) :
    TypesFrom e c fmmuCh (ownByte e c) ↔ TypesMet e c fmmuCh := by
  constructor
  · intro h i hmax hi
    -- a slave without types shows which ones are written
    let s : Dump := ⟨{ zeroSlave with fmmuCh := fmmuCh }, fun _ => 0, 0, []⟩
    have hown := (h s rfl i).1
    rw [catFmmu_at isTable_fmmu (show s.slv.fmmuCh = fmmuCh from rfl) i, if_pos ⟨hmax, hi⟩,
      if_pos ⟨hmax, hi⟩] at hown
    exact filter_isType_inj hown
  · intro h s hch i
    have htypes : (if i < lecMaxEepromCatFmmu ∧ i < fmmuCh.toNat then (metByte e c i).filter isType
        else none) = if i < lecMaxEepromCatFmmu ∧ i < fmmuCh.toNat then
          (ownByte e c i).filter isType else none := by
      split_ifs with hi
      · exact h i hi.1 hi.2
      · rfl
    dsimp only
    rw [← htypes]
    exact ⟨catFmmu_at isTable_fmmu hch i, catFmmu_at isTable_fmmus hch i⟩

end

/-- Three words of types, and behind them a category of the type 2. -/
def fmmuRom : Rom where
  byte k := if k = 10 then 2 else 0
  ok _ := true
  stack _ _ := 0

def fmmuCat : Cat := ⟨0, fun k => if k = 0 then 40 else if k = 2 then 3 else 0⟩

/-- FMMU 6 gets the type of the category behind. -/
theorem fmmus_read_behind : ¬ ∀ e c fmmuCh, TypesFrom e c fmmuCh (ownByte e c) := by
  intro h
  let s : Dump := ⟨{ zeroSlave with fmmuCh := 8 }, fun _ => 0, 0, []⟩
  have hown := (h fmmuRom fmmuCat 8 s rfl 6).1
  rw [catFmmu_at isTable_fmmu (show s.slv.fmmuCh = 8 from rfl) 6] at hown
  exact absurd hown (by decide)

/-! ## EEPROMs that can be read -/

theorem metByte_of_ok {e : Rom} (hok : ∀ a, e.ok a = true) (c : Cat) (i : ℕ) : metByte e c i =
    if c.fmmusCnt ≠ 0 ∧ i < metLen c then some (catByte e c i) else none := by
  have hlast : ∀ k, lastChunk e c k = some k := by
    intro k
    cases k <;> simp [lastChunk, hok]
  rw [metByte, chunkByte, hlast]
  dsimp only
  rw [Nat.div_add_mod]

theorem filter_ite_eq {p q : Prop} [Decidable p] [Decidable q] {t : UInt8} :
    (if p then some t else none).filter isType = (if q then some t else none).filter isType ↔
      (p ↔ q) ∨ isType t = false := by
  by_cases hp : p <;> by_cases hq : q <;> cases ht : isType t <;>
    simp [hp, hq, ht, Option.filter_some]

/-- **With all reads succeeding**, a category whose length is a multiple of 128 words must have no
types, and behind one of 3 words there must be none. -/
theorem typesMet_of_ok {e : Rom} (hok : ∀ a, e.ok a = true) (c : Cat) (fmmuCh : UInt8) :
    TypesMet e c fmmuCh ↔
      (c.len ≠ 0 → 128 ∣ c.len → ∀ i < lecMaxEepromCatFmmu, i < fmmuCh.toNat →
        isType (catByte e c i) = false) ∧
      (c.len = 3 → ∀ i < lecMaxEepromCatFmmu, i < fmmuCh.toNat → 6 ≤ i →
        isType (catByte e c i) = false) := by
  have hcnt : c.fmmusCnt = 0 ↔ 128 ∣ c.len := by
    rw [Cat.fmmusCnt, ← UInt8.toNat_inj, UInt8.toNat_ofNat']
    simp only [UInt8.toNat_zero]
    omega
  have hmet : ∀ i < 8, ((¬ 128 ∣ c.len ∧ i < metLen c ↔ i < 2 * c.len) ↔
      ¬ (c.len ≠ 0 ∧ 128 ∣ c.len) ∧ ¬ (c.len = 3 ∧ 6 ≤ i)) := by
    intro i hi
    by_cases hone : c.len = 1
    · rw [metLen, fmmuBytes, hone]
      omega
    · by_cases hzero : c.len = 0
      · rw [hzero]
        omega
      · have hbytes : fmmuBytes c = 4 := by
          rw [fmmuBytes]
          omega
        rw [metLen, hbytes]
        omega
  have hbyte : ∀ i < 8, ((metByte e c i).filter isType = (ownByte e c i).filter isType ↔
      (c.len ≠ 0 → 128 ∣ c.len → isType (catByte e c i) = false) ∧
        (c.len = 3 → 6 ≤ i → isType (catByte e c i) = false)) := by
    intro i hi
    rw [metByte_of_ok hok, ownByte, filter_ite_eq, ne_eq, hcnt, hmet i hi]
    cases isType (catByte e c i) <;> simp only [Bool.true_eq_false, or_false, or_true, imp_false,
      not_and, implies_true, and_self]
  refine ⟨fun h => ⟨fun h0 hdvd i hi hch => ?_, fun h3 i hi hch h6 => ?_⟩, fun h i hi hch => ?_⟩
  · exact ((hbyte i hi).1 (h i hi hch)).1 h0 hdvd
  · exact ((hbyte i hi).1 (h i hi hch)).2 h3 h6
  · exact (hbyte i hi).2 ⟨fun h0 hdvd => h.1 h0 hdvd i hi hch, fun h3 h6 => h.2 h3 i hi hch h6⟩

end LibEthercat.Sii
