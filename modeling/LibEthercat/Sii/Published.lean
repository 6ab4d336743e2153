import LibEthercat.Lib.Folds
import LibEthercat.Sii.Model

/-!
# What the dump publishes

The loops of the dump over single strings, FMMUs, sync managers and clock settings leave alone what
others find their way with: the counts, the PDOs, and the string buffer. `Published` is this part of
a dump and `Published.after` what a category makes of it; `dump_published` shows that the dump as a
whole does no more and no less.
-/

namespace LibEthercat.Sii

open LibEthercat.Coe (Message u16)

/-- `free_pdos`, `free_pdo_index`, and the two queues. -/
structure PdoTable where
  freePdos : ℕ → Pdo
  freePdoIndex : ℕ
  pdos : Queue → List ℕ

structure Published where
  buf : Message
  smCh : UInt8
  stringsCnt : UInt8
  smsCnt : UInt8
  fmmusCnt : UInt8
  dcsCnt : UInt8
  table : PdoTable

def Dump.published (s : Dump) : Published :=
  ⟨s.buf, s.slv.smCh, s.slv.eeprom.stringsCnt, s.slv.eeprom.smsCnt, s.slv.eeprom.fmmusCnt,
    s.slv.eeprom.dcsCnt, ⟨s.slv.eeprom.freePdos, s.freePdoIndex, s.slv.eeprom.pdos⟩⟩

/-! ## What a category publishes -/

/-- One more PDO, if the index still allows it. -/
def PdoTable.store (q : Queue) (t : PdoTable) (pdo : Pdo) : PdoTable :=
  if t.freePdoIndex < lecMaxEepromCatPdoEntries then
    ⟨Function.update t.freePdos t.freePdoIndex pdo, t.freePdoIndex + 1,
      Function.update t.pdos q (t.pdos q ++ [t.freePdoIndex])⟩
  else t

/-- The queue is emptied when there is something in the category. -/
def PdoTable.clear (q : Queue) (c : Cat) (t : PdoTable) : PdoTable :=
  if c.len = 0 then t else { t with pdos := Function.update t.pdos q [] }

/-- The PDOs that the loop reads from a PDO category. -/
def pdosOf (e : Rom) (c : Cat) : List Pdo :=
  if c.len = 0 then [] else (pdoAddrs e c.fin (c.offset + 2)).map (tmpPdo e)

def PdoTable.storeAll (q : Queue) (e : Rom) (c : Cat) (t : PdoTable) : PdoTable :=
  (pdosOf e c).foldl (store q) (t.clear q c)

def Published.after (e : Rom) (t : Published) (c : Cat) : Published :=
  match c.kind with
  | .strings =>
    let r := stringsRead e t.buf c
    { t with buf := r.buf, stringsCnt := r.buf 0 }
  | .fmmu => { t with fmmusCnt := c.fmmusCnt }
  | .sm =>
    { t with
      smsCnt := c.smsCnt
      smCh := if c.smsCnt ≠ 0 ∧ t.smCh.toNat < c.len / 4 then c.smsCnt else t.smCh }
  | .txpdo => { t with table := t.table.storeAll .tx e c }
  | .rxpdo => { t with table := t.table.storeAll .rx e c }
  | .dc => { t with dcsCnt := UInt8.ofNat (min c.dcsCnt lecMaxEepromCatDc) }
  | .general => t
  | .other => t

variable {e : Rom}

/-! ## Passes -/

theorem stringPass_published (s : Dump) (cursor : ℕ × ℕ) :
    (stringPass s cursor).published = s.published := by
  unfold stringPass
  dsimp only
  split_ifs <;> rfl

theorem fmmuByte_published (s : Dump) (fmmuIdx : ℕ) (t : UInt8) :
    (fmmuByte s fmmuIdx t).published = s.published := by
  unfold fmmuByte
  split_ifs <;> rfl

theorem fmmuPass_published (c : Cat) (st : Message × Dump) (k : ℕ) :
    (fmmuPass e c st k).2.published = st.2.published :=
  Folds.foldl_keeps (fun s _ => fmmuByte_published (s.touch _) _ _) st.2 _

theorem setSm_published (s : Dump) (j : ℕ) (tmp : CatSm) :
    (setSm s j tmp).published = s.published := by
  unfold setSm
  dsimp only
  split_ifs <;> rfl

theorem storeSm_published (s : Dump) (j : ℕ) (tmp : CatSm) :
    (storeSm s j tmp).published = s.published := by
  unfold storeSm
  split_ifs <;> rfl

theorem smPass_published (c : Cat) (s : Dump) (j : ℕ) :
    (smPass e c s j).published = s.published :=
  (storeSm_published _ j _).trans (setSm_published _ j _)

theorem dcPass_published (c : Cat) (s : Dump) (j : ℕ) :
    (dcPass e c s j).published = s.published := by
  unfold dcPass
  dsimp only
  split_ifs <;> rfl

theorem storePdo_published (q : Queue) (s : Dump) (pdo : Pdo) : (storePdo q s pdo).published =
    { s.published with table := s.published.table.store q pdo } := by
  unfold storePdo PdoTable.store Dump.published
  dsimp only
  split_ifs <;> rfl

/-! ## Categories -/

theorem catFmmu_published (s : Dump) (c : Cat) :
    (catFmmu e s c).published = { s.published with fmmusCnt := c.fmmusCnt } := by
  unfold catFmmu
  dsimp only
  split_ifs
  · rfl
  · exact Folds.foldl_keeps (m := fun st : Message × Dump => st.2.published)
      (fmmuPass_published c) _ _

theorem smReallocate_published (s : Dump) (c : Cat) : (smReallocate s c).published =
    { s.published with smCh := if s.slv.smCh.toNat < c.len / 4 then c.smsCnt else s.slv.smCh } := by
  unfold smReallocate
  split_ifs <;> rfl

theorem catSm_published (s : Dump) (c : Cat) : (catSm e s c).published =
    { s.published with
      smsCnt := c.smsCnt
      smCh := if c.smsCnt ≠ 0 ∧ s.slv.smCh.toNat < c.len / 4 then c.smsCnt else s.slv.smCh } := by
  unfold catSm
  dsimp only
  by_cases h0 : c.smsCnt = 0
  · rw [if_pos h0, if_neg fun h => h.1 h0]
    rfl
  · rw [if_neg h0, Folds.foldl_keeps (smPass_published c), smReallocate_published]
    simp only [ne_eq, h0, not_false_eq_true, true_and]
    rfl

theorem pdoLoop_published (q : Queue) (adrs : List ℕ) (s : Dump) :
    (adrs.foldl (fun s adr => storePdo q (s.touch (pdoTouches e adr)) (tmpPdo e adr)) s).published =
      { s.published with
        table := (adrs.map (tmpPdo e)).foldl (PdoTable.store q) s.published.table } := by
  induction adrs generalizing s with
  | nil => rfl
  | cons adr adrs ih => rw [List.foldl_cons, ih, storePdo_published]; rfl

theorem catPdo_published (q : Queue) (s : Dump) (c : Cat) : (catPdo q e s c).published =
    { s.published with table := s.published.table.storeAll q e c } := by
  unfold catPdo PdoTable.storeAll PdoTable.clear pdosOf
  dsimp only
  split_ifs
  · rfl
  · exact pdoLoop_published q _ _

/-- **What a category publishes.** -/
theorem category_published (s : Dump) (c : Cat) :
    (category e s c).published = s.published.after e c := by
  unfold category Published.after
  cases c.kind with
  | strings => exact Folds.foldl_keeps stringPass_published _ _
  | general => rfl
  | fmmu => exact catFmmu_published s c
  | sm => exact catSm_published s c
  | txpdo => exact catPdo_published .tx s c
  | rxpdo => exact catPdo_published .rx s c
  | dc => exact Folds.foldl_keeps (dcPass_published c) _ _
  | other => rfl

/-! ## The dump -/

theorem mbxSupportedText_published (supported : ℕ) (s : Dump) :
    (mbxSupportedText supported s).published = s.published := by
  refine Folds.foldl_keeps (m := fun st : ℕ × Dump => st.2.published) ?_ (0, s) _
  intro st flag
  unfold addMbxSuppText
  split_ifs <;> rfl

/-- What is published before a dump. -/
def Slave.published (slv : Slave) (buf : Message) : Published := Dump.published ⟨slv, buf, 0, []⟩

/-- **What the dump publishes**: what its categories do, one after the other. -/
theorem dump_published (buf : Message) (slv : Slave) (h : slv.eeprom.readEeprom = false) :
    (ecEepromDump e buf slv).published =
      (categories e).foldl (Published.after e) (slv.published buf) := by
  unfold ecEepromDump
  rw [h, if_neg Bool.false_ne_true]
  dsimp only
  rw [← List.foldl_hom Dump.published fun s c => (category_published s c).symm,
    mbxSupportedText_published]
  rfl

end LibEthercat.Sii
