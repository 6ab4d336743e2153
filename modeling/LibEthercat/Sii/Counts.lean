import LibEthercat.Sii.Published

/-!
# The counts and their tables

The INIT transition presets `sm_ch` and `fmmu_ch` so that they fit their tables, and the dump then
publishes what the EEPROM says. Of each count the last category that sets it decides
(`eeprom_counts_fit`); the number of PDOs is limited, the number of entries of each is not.

A queue only holds PDOs that have been stored (`dump_queued`), so whoever goes over a queue sees the
`n_entry` of stored PDOs.
-/

namespace LibEthercat.Sii

open LibEthercat.Coe (Message u16)

/-- The PDOs that have been stored, in order. -/
def PdoTable.stored (t : PdoTable) : List Pdo := (List.range t.freePdoIndex).map t.freePdos

/-- All counts fit their tables. -/
structure Published.Fits (t : Published) : Prop where
  smCh : t.smCh.toNat ≤ lecMaxSlaveSm
  stringsCnt : t.stringsCnt.toNat ≤ lecMaxEepromCatStrings
  smsCnt : t.smsCnt.toNat ≤ lecMaxEepromCatSm
  fmmusCnt : t.fmmusCnt.toNat ≤ lecMaxEepromCatFmmu
  dcsCnt : t.dcsCnt.toNat ≤ lecMaxEepromCatDc
  nEntry : ∀ pdo ∈ t.table.stored, pdo.nEntry.toNat ≤ lecMaxEepromCatPdoEntries

/-! ## Conditions -/

/-- The last category with a property. -/
def lastCat (e : Rom) (p : Cat → Bool) : Option Cat := ((categories e).filter p).getLast?

def Cat.isKind (k : CatKind) (c : Cat) : Bool := c.kind = k

/-- A strings category of which at least the count is read. -/
def Cat.countRead (e : Rom) (c : Cat) : Bool :=
  c.kind = .strings ∧ 0 < c.len ∧ e.ok (c.offset + 2) = true

/-- A category with more sync managers than the table has. -/
def Cat.tooManySms (c : Cat) : Bool := c.kind = .sm ∧ lecMaxSlaveSm < c.len / 4 ∧ c.smsCnt ≠ 0

/-- The PDOs of a category. -/
def catPdos (e : Rom) (c : Cat) : List Pdo :=
  match c.kind with
  | .txpdo => pdosOf e c
  | .rxpdo => pdosOf e c
  | _ => []

/-- What the EEPROM must say for the counts to fit, when `slv` and the string buffer hold what they
do before the dump. -/
structure CountsFit (e : Rom) (buf : Message) (slv : Slave) : Prop where
  smCh : ∀ c, lastCat e Cat.tooManySms = some c → c.smsCnt.toNat ≤ lecMaxSlaveSm
  stringsCnt : (lastCat e (Cat.isKind .strings)).elim
    (slv.eeprom.stringsCnt.toNat ≤ lecMaxEepromCatStrings) fun _ =>
      (lastCat e (Cat.countRead e)).elim ((buf 0).toNat ≤ lecMaxEepromCatStrings) fun c =>
        (e.byte (2 * (c.offset + 2))).toNat ≤ lecMaxEepromCatStrings
  smsCnt : (lastCat e (Cat.isKind .sm)).elim (slv.eeprom.smsCnt.toNat ≤ lecMaxEepromCatSm)
    fun c => c.smsCnt.toNat ≤ lecMaxEepromCatSm
  fmmusCnt : (lastCat e (Cat.isKind .fmmu)).elim
    (slv.eeprom.fmmusCnt.toNat ≤ lecMaxEepromCatFmmu)
    fun c => c.fmmusCnt.toNat ≤ lecMaxEepromCatFmmu
  dcsCnt : (lastCat e (Cat.isKind .dc)).elim (slv.eeprom.dcsCnt.toNat ≤ lecMaxEepromCatDc)
    fun _ => True
  nEntry : ∀ pdo ∈ ((categories e).flatMap (catPdos e)).take lecMaxEepromCatPdoEntries,
    pdo.nEntry.toNat ≤ lecMaxEepromCatPdoEntries

variable {e : Rom}

/-! ## Single counts -/

/-- What the dump publishes when `t` was published before. -/
def Published.final (e : Rom) (t : Published) : Published :=
  (categories e).foldl (Published.after e) t

theorem last_of_kind (k : CatKind) {P : Published → Prop} {Q : Cat → Prop}
    (hset : ∀ (t : Published) c, c.kind = k → (P (t.after e c) ↔ Q c))
    (hkeep : ∀ (t : Published) c, c.kind ≠ k → (P (t.after e c) ↔ P t)) (t : Published) :
    P (t.final e) ↔ (lastCat e (Cat.isKind k)).elim (P t) Q :=
  Folds.last_decides (fun t c hc => hset t c (of_decide_eq_true hc))
    (fun t c hc => hkeep t c (of_decide_eq_false hc)) t _

theorem fmmusCnt_fits (t : Published) : (t.final e).fmmusCnt.toNat ≤ lecMaxEepromCatFmmu ↔
    (lastCat e (Cat.isKind .fmmu)).elim (t.fmmusCnt.toNat ≤ lecMaxEepromCatFmmu)
      fun c => c.fmmusCnt.toNat ≤ lecMaxEepromCatFmmu := by
  refine last_of_kind .fmmu (P := fun t => t.fmmusCnt.toNat ≤ lecMaxEepromCatFmmu) ?_ ?_ t
  · intro t c hk
    rw [Published.after, hk]
  · intro t c hk
    unfold Published.after
    cases h : c.kind with
    | fmmu => exact absurd h hk
    | _ => rfl

theorem smsCnt_fits (t : Published) : (t.final e).smsCnt.toNat ≤ lecMaxEepromCatSm ↔
    (lastCat e (Cat.isKind .sm)).elim (t.smsCnt.toNat ≤ lecMaxEepromCatSm)
      fun c => c.smsCnt.toNat ≤ lecMaxEepromCatSm := by
  refine last_of_kind .sm (P := fun t => t.smsCnt.toNat ≤ lecMaxEepromCatSm) ?_ ?_ t
  · intro t c hk
    rw [Published.after, hk]
  · intro t c hk
    unfold Published.after
    cases h : c.kind with
    | sm => exact absurd h hk
    | _ => rfl

/-- This one is limited before it is stored. -/
theorem dcsCnt_fits (t : Published) : (t.final e).dcsCnt.toNat ≤ lecMaxEepromCatDc ↔
    (lastCat e (Cat.isKind .dc)).elim (t.dcsCnt.toNat ≤ lecMaxEepromCatDc) fun _ => True := by
  refine last_of_kind .dc (P := fun t => t.dcsCnt.toNat ≤ lecMaxEepromCatDc) ?_ ?_ t
  · intro t c hk
    rw [Published.after, hk]
    dsimp only
    rw [UInt8.toNat_ofNat']
    simp only [lecMaxEepromCatDc, iff_true]
    omega
  · intro t c hk
    unfold Published.after
    cases h : c.kind with
    | dc => exact absurd h hk
    | _ => rfl

/-! ## `sm_ch` -/

/-- A category with room for all its sync managers leaves a `sm_ch` that fits as it is, or sets it to
one that fits; a `sm_ch` that does not fit stays. -/
theorem after_smCh_of_few {t : Published} {c : Cat} (h : c.tooManySms = false) :
    (t.after e c).smCh.toNat ≤ lecMaxSlaveSm ↔ t.smCh.toNat ≤ lecMaxSlaveSm := by
  unfold Published.after
  cases hk : c.kind with
  | sm =>
    have hfew := of_decide_eq_false h
    dsimp only
    split_ifs with hset
    · have hlen : c.len / 4 ≤ 8 := by
        by_contra hlt
        exact hfew ⟨hk, by simpa [lecMaxSlaveSm] using hlt, hset.1⟩
      rw [Cat.smsCnt_toNat]
      simp only [lecMaxSlaveSm]
      omega
    · rfl
  | _ => rfl

/-- With more, `sm_ch` becomes their number as far as 8 bits hold it, unless it was even larger. -/
theorem after_smCh_of_many {t : Published} {c : Cat} (h : c.tooManySms = true) :
    (t.after e c).smCh.toNat ≤ lecMaxSlaveSm ↔ c.smsCnt.toNat ≤ lecMaxSlaveSm := by
  obtain ⟨hk, hlen, h0⟩ := of_decide_eq_true h
  unfold Published.after
  rw [hk]
  dsimp only
  split_ifs with hset
  · rfl
  · have hle : c.len / 4 ≤ t.smCh.toNat := Nat.le_of_not_lt fun hlt => hset ⟨h0, hlt⟩
    have := t.smCh.toNat_lt
    rw [Cat.smsCnt_toNat]
    simp only [lecMaxSlaveSm] at hlen ⊢
    omega

theorem smCh_fits {t : Published} (h : t.smCh.toNat ≤ lecMaxSlaveSm) :
    (t.final e).smCh.toNat ≤ lecMaxSlaveSm ↔
      ∀ c, lastCat e Cat.tooManySms = some c → c.smsCnt.toNat ≤ lecMaxSlaveSm := by
  refine (Folds.last_decides (f := Published.after e)
    (P := fun t : Published => t.smCh.toNat ≤ lecMaxSlaveSm) (p := Cat.tooManySms)
    (fun t c hc => after_smCh_of_many hc) (fun t c hc => after_smCh_of_few hc) t _).trans ?_
  unfold lastCat
  cases ((categories e).filter Cat.tooManySms).getLast? with
  | none => exact ⟨fun _ => nofun, fun _ => h⟩
  | some c => exact ⟨fun hc c' hc' => Option.some.inj hc' ▸ hc, fun hc => hc c rfl⟩

/-! ## Strings -/

theorem after_buf (t : Published) (c : Cat) (h : c.countRead e = false) :
    (t.after e c).buf 0 = t.buf 0 := by
  unfold Published.after
  cases hk : c.kind with
  | strings =>
    have hnone := of_decide_eq_false h
    dsimp only
    rw [stringsRead, read_buf, if_neg]
    rw [read_offset_pos]
    exact fun hpos => hnone ⟨hk, by omega, hpos.2⟩
  | _ => rfl

theorem after_buf_of_read (t : Published) (c : Cat) (h : c.countRead e = true) :
    (t.after e c).buf 0 = e.byte (2 * (c.offset + 2)) := by
  obtain ⟨hk, hlen, hok⟩ := of_decide_eq_true h
  unfold Published.after
  rw [hk]
  dsimp only
  rw [stringsRead, read_buf, if_pos ((read_offset_pos e _ _ _).2 ⟨by omega, hok⟩)]
  rfl

/-- Behind a strings category the count is the first byte of the buffer, and it stays that. -/
theorem stringsCnt_eq_buf {t : Published} {c : Cat} (h : lastCat e (Cat.isKind .strings) = some c) :
    (t.final e).stringsCnt = (t.final e).buf 0 := by
  refine (last_of_kind .strings (P := fun t => t.stringsCnt = t.buf 0) (Q := fun _ => True)
    ?_ ?_ t).2 (by rw [h]; trivial)
  · intro t c hk
    rw [Published.after, hk]
    exact iff_of_true rfl trivial
  · intro t c hk
    unfold Published.after
    cases h : c.kind with
    | strings => exact absurd h hk
    | _ => rfl

theorem stringsCnt_fits (t : Published) :
    (t.final e).stringsCnt.toNat ≤ lecMaxEepromCatStrings ↔
      (lastCat e (Cat.isKind .strings)).elim (t.stringsCnt.toNat ≤ lecMaxEepromCatStrings) fun _ =>
        (lastCat e (Cat.countRead e)).elim ((t.buf 0).toNat ≤ lecMaxEepromCatStrings) fun c =>
          (e.byte (2 * (c.offset + 2))).toNat ≤ lecMaxEepromCatStrings := by
  cases h : lastCat e (Cat.isKind .strings) with
  | none =>
    have hkeep : (t.final e).stringsCnt = t.stringsCnt := by
      refine Folds.foldl_keeps_of_none (m := Published.stringsCnt) ?_ h t
      intro t c hc
      have hk := of_decide_eq_false hc
      unfold Published.after
      cases h : c.kind with
      | strings => exact absurd h hk
      | _ => rfl
    rw [hkeep]
    rfl
  | some c =>
    rw [stringsCnt_eq_buf h]
    refine Folds.last_decides (P := fun t : Published => (t.buf 0).toNat ≤ lecMaxEepromCatStrings)
      ?_ ?_ t _
    · intro t c hc
      rw [after_buf_of_read t c hc]
    · intro t c hc
      rw [after_buf t c hc]

/-! ## PDOs -/

theorem stored_store (q : Queue) (t : PdoTable) (pdo : Pdo) :
    (t.store q pdo).stored = Folds.push lecMaxEepromCatPdoEntries t.stored pdo := by
  unfold PdoTable.store Folds.push
  rw [show t.stored.length = t.freePdoIndex by simp [PdoTable.stored]]
  split_ifs
  · unfold PdoTable.stored
    dsimp only
    rw [List.range_succ, List.map_append, List.map_singleton, Function.update_self]
    refine congrArg (· ++ [pdo]) (List.map_congr_left fun i hi => ?_)
    exact Function.update_of_ne (Nat.ne_of_lt (List.mem_range.1 hi)) _ _
  · rfl

theorem stored_storeAll (q : Queue) (c : Cat) (t : PdoTable) : (t.storeAll q e c).stored =
    (pdosOf e c).foldl (Folds.push lecMaxEepromCatPdoEntries) t.stored := by
  have hclear : (t.clear q c).stored = t.stored := by
    unfold PdoTable.clear
    split_ifs <;> rfl
  rw [PdoTable.storeAll, ← List.foldl_hom PdoTable.stored fun t pdo => (stored_store q t pdo).symm,
    hclear]

theorem stored_after (t : Published) (c : Cat) : (t.after e c).table.stored =
    (catPdos e c).foldl (Folds.push lecMaxEepromCatPdoEntries) t.table.stored := by
  unfold Published.after catPdos
  cases c.kind with
  | txpdo => exact stored_storeAll .tx c t.table
  | rxpdo => exact stored_storeAll .rx c t.table
  | _ => rfl

theorem stored_foldl (t : Published) (cats : List Cat) :
    (cats.foldl (Published.after e) t).table.stored =
      (cats.flatMap (catPdos e)).foldl (Folds.push lecMaxEepromCatPdoEntries) t.table.stored := by
  induction cats generalizing t with
  | nil => rfl
  | cons c cats ih => rw [List.foldl_cons, ih, stored_after, List.flatMap_cons, List.foldl_append]

/-- **Which PDOs are stored**: the first 32 of all. -/
theorem stored_final (t : Published) (h : t.table.freePdoIndex = 0) : (t.final e).table.stored =
    ((categories e).flatMap (catPdos e)).take lecMaxEepromCatPdoEntries := by
  have hnil : t.table.stored = [] := by rw [PdoTable.stored, h]; rfl
  rw [Published.final, stored_foldl, hnil, Folds.foldl_push _ (Nat.zero_le _), List.nil_append]

/-! ### Queues -/

/-- What is queued is stored. -/
def PdoTable.Queued (t : PdoTable) : Prop := ∀ q, ∀ i ∈ t.pdos q, i < t.freePdoIndex

theorem queued_store (q : Queue) {t : PdoTable} (pdo : Pdo) (h : t.Queued) :
    (t.store q pdo).Queued := by
  unfold PdoTable.store
  split_ifs
  · intro q' i hi
    dsimp only at hi ⊢
    by_cases hq : q' = q
    · subst hq
      rw [Function.update_self] at hi
      rcases List.mem_append.1 hi with hi | hi
      · exact Nat.lt_succ_of_lt (h q' i hi)
      · rw [List.mem_singleton.1 hi]
        exact Nat.lt_succ_self _
    · rw [Function.update_of_ne hq] at hi
      exact Nat.lt_succ_of_lt (h q' i hi)
  · exact h

theorem queued_clear (q : Queue) (c : Cat) {t : PdoTable} (h : t.Queued) :
    (t.clear q c).Queued := by
  unfold PdoTable.clear
  split_ifs
  · exact h
  · intro q' i hi
    dsimp only at hi ⊢
    by_cases hq : q' = q
    · subst hq
      rw [Function.update_self] at hi
      cases hi
    · rw [Function.update_of_ne hq] at hi
      exact h q' i hi

theorem queued_storeAll (q : Queue) (c : Cat) {t : PdoTable} (h : t.Queued) :
    (t.storeAll q e c).Queued :=
  List.foldlRecOn (pdosOf e c) (PdoTable.store q) (queued_clear q c h)
    fun _ ht pdo _ => queued_store q pdo ht

theorem queued_after (t : Published) (c : Cat) (h : t.table.Queued) :
    (t.after e c).table.Queued := by
  unfold Published.after
  cases c.kind with
  | txpdo => exact queued_storeAll .tx c h
  | rxpdo => exact queued_storeAll .rx c h
  | _ => exact h

/-- **What a dump leaves in the queues it has stored**, when it began with empty queues. -/
theorem dump_queued (buf : Message) (slv : Slave) (hread : slv.eeprom.readEeprom = false)
    (hempty : ∀ q, slv.eeprom.pdos q = []) : (ecEepromDump e buf slv).published.table.Queued := by
  rw [dump_published buf slv hread]
  refine List.foldlRecOn (motive := fun t : Published => t.table.Queued) (categories e) _ ?_ ?_
  · intro q i hi
    have : i ∈ slv.eeprom.pdos q := hi
    rw [hempty q] at this
    cases this
  · exact fun t ht c _ => queued_after t c ht

/-! ## All counts -/

theorem channels_le (answer : Option UInt8) (old : UInt8) {max : ℕ} (h : max < 256) :
    (channels answer old max).toNat ≤ max := by
  unfold channels
  split_ifs with hlt
  · rw [UInt8.toNat_ofNat', Nat.mod_eq_of_lt h]
  · exact Nat.le_of_not_lt hlt

/-- **When the counts fit their tables.** -/
theorem eeprom_counts_fit (e : Rom) (buf : Message) (slv : Slave) (smCh fmmuCh : Option UInt8) :
    (initTransition e buf slv smCh fmmuCh).published.Fits ↔ CountsFit e buf slv := by
  have hsmCh := channels_le smCh slv.smCh (by decide : lecMaxSlaveSm < 256)
  have hstored := stored_final (e := e) ((slv.preset smCh fmmuCh).published buf) rfl
  rw [initTransition, dump_published buf _ rfl]
  refine ⟨fun h => ?_, fun h => ?_⟩
  · refine ⟨(smCh_fits hsmCh).1 h.smCh, (stringsCnt_fits _).1 h.stringsCnt,
      (smsCnt_fits _).1 h.smsCnt, (fmmusCnt_fits _).1 h.fmmusCnt, (dcsCnt_fits _).1 h.dcsCnt, ?_⟩
    rw [← hstored]
    exact h.nEntry
  · refine ⟨(smCh_fits hsmCh).2 h.smCh, (stringsCnt_fits _).2 h.stringsCnt,
      (smsCnt_fits _).2 h.smsCnt, (fmmusCnt_fits _).2 h.fmmusCnt, (dcsCnt_fits _).2 h.dcsCnt, ?_⟩
    intro pdo hpdo
    exact h.nEntry pdo (hstored ▸ hpdo)

/-- An EEPROM of 512 bytes with one category, a TxPDO of 33 entries. -/
def pdoRom : Rom where
  byte k := if k = 124 then 3 else if k = 128 then 50 else if k = 130 then 136 else
    if k = 134 then 33 else if 128 + 4 + 8 + 8 * 33 ≤ k then 0xFF else 0
  ok _ := true
  stack _ _ := 0

/-- The 33 entries are counted, and 32 are stored. -/
theorem eeprom_counts_pdo :
    ¬(initTransition pdoRom (fun _ => 0) zeroSlave (some 4) (some 3)).published.Fits := by
  have hok : ∀ a, pdoRom.ok a = true := fun _ => rfl
  have hsize : 128 < eepromSize pdoRom := by
    rw [eepromSize, read32_of_ok hok]
    decide
  have hkind : (catAt pdoRom 0x0040).kind = .txpdo := by
    rw [Cat.kind, catAt_type hok]
    rfl
  have hlen : (catAt pdoRom 0x0040).len = 136 := by
    rw [catAt_len hok]
    rfl
  have hmem : tmpPdo pdoRom 0x0042 ∈
      ((categories pdoRom).flatMap (catPdos pdoRom)).take lecMaxEepromCatPdoEntries := by
    obtain ⟨cats, hcats⟩ := categories_head hok hsize
    have hpdos : ∃ pdos, catPdos pdoRom (catAt pdoRom 0x0040) = tmpPdo pdoRom 0x0042 :: pdos := by
      rw [catPdos, hkind, pdosOf, if_neg (by rw [hlen]; decide), pdoAddrs, List.map_cons]
      exact ⟨_, rfl⟩
    obtain ⟨pdos, hpdos⟩ := hpdos
    rw [hcats, List.flatMap_cons, hpdos, List.cons_append]
    exact List.mem_cons_self
  have hstored := stored_final (e := pdoRom)
    ((zeroSlave.preset (some 4) (some 3)).published fun _ => 0) rfl
  intro hfits
  have hn := hfits.nEntry
  rw [initTransition, dump_published _ _ rfl] at hn
  have h33 := hn _ (hstored ▸ hmem)
  have hbyte : (tmpPdo pdoRom 0x0042).nEntry = 33 := by
    rw [tmpPdo, pdoHeader, read_buf_of_ok hok _ (by decide)]
    rfl
  rw [hbyte] at h33
  exact absurd h33 (by decide)

end LibEthercat.Sii
