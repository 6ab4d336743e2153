import LibEthercat.Lib.Refill
import LibEthercat.Sii.Image
import LibEthercat.Sii.Published

/-!
# The PDOs of the EEPROM

A PDO category empties the queue of its direction and stores its PDOs in `free_pdos`, one behind the
other. `free_pdos` has room for `LEC_MAX_EEPROM_CAT_PDO`, but the index is compared with
`LEC_MAX_EEPROM_CAT_PDO_ENTRIES`.

**Theorem (`stored_iff`).** The dump stores all PDOs of the EEPROM in order if and only if there are
no more than 32, no direction has them in more than one category, and no category of PDOs begins
behind the size as 16 bits have it.
-/

namespace LibEthercat.Sii

open LibEthercat.Coe (Message u16)

/-! ## What the EEPROM holds -/

/-- How many entries the PDO at `adr` has. -/
def entriesAt (e : Rom) (adr : ℕ) : ℕ := (bytesAt e adr 2).toNat

def imagePdo (e : Rom) (adr : ℕ) : Pdo :=
  let m := bytesAt e adr
  ⟨u16 m 0, m 2, m 3, m 4, m 5, u16 m 6, fun j =>
    if j < entriesAt e adr then PdoEntry.ofBytes (bytesAt e (adr + 4 + 4 * j))
    else ⟨0, 0, 0, 0, 0, 0⟩⟩

/-- The PDOs from the one at `adr` on in a category that ends at `fin`. -/
def pdosFrom (e : Rom) (fin adr : ℕ) : List Pdo :=
  if adr < fin then imagePdo e adr :: pdosFrom e fin (adr + 4 + 4 * entriesAt e adr) else []
termination_by fin - adr

/-- The direction that the category at `offset` has PDOs for. -/
def directionAt (e : Rom) (offset : ℕ) : Option Queue :=
  if typeAt e offset = 50 then some .tx else if typeAt e offset = 51 then some .rx else none

/-- The category at `offset`, when there are PDOs in it. -/
def pdoCatAt (e : Rom) (offset : ℕ) : Option (Queue × List Pdo) :=
  if lenAt e offset = 0 then none
  else (directionAt e offset).map fun q =>
    (q, pdosFrom e (offset + lenAt e offset + 2) (offset + 2))

/-- All categories with PDOs. -/
def pdoCats (e : Rom) : List (Queue × List Pdo) := (headers e).filterMap (pdoCatAt e)

/-- All PDOs of a direction. -/
def imagePdos (e : Rom) (q : Queue) : List Pdo := Refill.all (pdoCats e) q

/-! ## Conditions -/

/-- A slave with this EEPROM before a dump. `ec_scan` leaves empty queues, and only dumps touch
them. -/
inductive Scanned (e : Rom) : Slave → Prop
  | scan {slv : Slave} : (∀ q, slv.eeprom.pdos q = []) → Scanned e slv
  | dump {slv slv' : Slave} (buf : Message) : Scanned e slv →
      slv'.eeprom.pdos = (ecEepromDump e buf slv).slv.eeprom.pdos → Scanned e slv'

/-- The PDOs that the dump has places for and that it comes to. -/
structure PdosKept (e : Rom) : Prop where
  few : ((pdoCats e).flatMap Prod.snd).length ≤ lecMaxEepromCatPdoEntries
  once : ∀ q, ((pdoCats e).filter fun b => b.1 = q).length ≤ 1
  ahead : ∀ offset ∈ headers e, pdoCatAt e offset ≠ none → 2 * offset < announced e % 2 ^ 16

/-! ## What the dump comes to -/

section
variable {e : Rom} (h : ∀ a, e.ok a = true)
include h

theorem nEntry_of_ok (adr : ℕ) : nEntry e adr = entriesAt e adr := by
  rw [nEntry, pdoHeader, read_bytesAt h _ (by decide), entriesAt]

theorem readEntry_of_ok (adr j : ℕ) :
    PdoEntry.ofBytes (readEntry e adr j).buf = PdoEntry.ofBytes (bytesAt e (adr + 4 + 4 * j)) := by
  have hread : ∀ k < 8, (readEntry e adr j).buf k = bytesAt e (adr + 4 + 4 * j) k :=
    fun k hk => read_bytesAt h _ hk
  unfold PdoEntry.ofBytes u16
  rw [hread 0 (by decide), hread (0 + 1) (by decide), hread 2 (by decide), hread 3 (by decide),
    hread 4 (by decide), hread 5 (by decide), hread 6 (by decide), hread (6 + 1) (by decide)]

/-- A PDO is read as it is, with room for all its entries. -/
theorem tmpPdo_of_ok {adr : ℕ} (hroom : entriesAt e adr ≤ lecMaxEepromCatPdoEntries) :
    tmpPdo e adr = imagePdo e adr := by
  have hread : ∀ k < 8, pdoHeader e adr k = bytesAt e adr k := fun k hk => read_bytesAt h _ hk
  have hentries : (fun j => if j < nEntry e adr ∧ j < lecMaxEepromCatPdoEntries then
      PdoEntry.ofBytes (readEntry e adr j).buf else ⟨0, 0, 0, 0, 0, 0⟩) =
      fun j => if j < entriesAt e adr then PdoEntry.ofBytes (bytesAt e (adr + 4 + 4 * j))
        else ⟨0, 0, 0, 0, 0, 0⟩ := by
    funext j
    rw [nEntry_of_ok h, readEntry_of_ok h]
    exact if_congr (and_iff_left_of_imp fun hj => Nat.lt_of_lt_of_le hj hroom) rfl rfl
  unfold tmpPdo imagePdo
  dsimp only
  rw [hentries]
  unfold u16
  rw [hread 0 (by decide), hread (0 + 1) (by decide), hread 2 (by decide), hread 3 (by decide),
    hread 4 (by decide), hread 5 (by decide), hread 6 (by decide), hread (6 + 1) (by decide)]

theorem pdoAddrs_of_ok {fin adr : ℕ} (hadr : adr < fin)
    (hroom : ∀ pdo ∈ pdosFrom e fin adr, pdo.nEntry.toNat ≤ lecMaxEepromCatPdoEntries) :
    (pdoAddrs e fin adr).map (tmpPdo e) = pdosFrom e fin adr := by
  induction adr using pdosFrom.induct e fin with
  | case1 adr _ ih =>
    rw [pdosFrom, if_pos hadr] at hroom ⊢
    obtain ⟨hhead, htail⟩ := List.forall_mem_cons.1 hroom
    rw [pdoAddrs, List.map_cons, tmpPdo_of_ok h hhead, nEntry_of_ok h]
    refine congrArg (imagePdo e adr :: ·) ?_
    split_ifs with hnext
    · exact ih hnext htail
    · rw [pdosFrom, if_neg hnext, List.map_nil]
  | case2 adr hnot => exact absurd hadr hnot

end

/-! ## The queues -/

def queueOf : CatKind → Option Queue
  | .txpdo => some .tx
  | .rxpdo => some .rx
  | _ => none

/-- What is read from a category with PDOs. -/
def Cat.pdos (e : Rom) (c : Cat) : Option (Queue × List Pdo) :=
  if c.len = 0 then none
  else (queueOf c.kind).map fun q => (q, (pdoAddrs e c.fin (c.offset + 2)).map (tmpPdo e))

/-- The queue is emptied, and then the PDOs are stored. -/
def PdoTable.refill (t : PdoTable) (b : Queue × List Pdo) : PdoTable :=
  b.2.foldl (PdoTable.store b.1) { t with pdos := Function.update t.pdos b.1 [] }

/-- A queue holds PDOs, all of them stored. -/
structure PdoTable.Holds (t : PdoTable) (q : Queue) (pdos : List Pdo) : Prop where
  pdos : (t.pdos q).map t.freePdos = pdos
  stored : ∀ k ∈ t.pdos q, k < t.freePdoIndex

/-- The queues hold what is left of the categories, and as before what had none. -/
structure PdoTable.Filled (t₀ : Queue → List ℕ) (t : PdoTable) (s : Refill.Filled Queue Pdo) :
    Prop where
  index : t.freePdoIndex = min lecMaxEepromCatPdoEntries s.come
  holds : ∀ q pdos, s.kept q = some pdos → t.Holds q pdos
  keeps : ∀ q, s.kept q = none → t.pdos q = t₀ q

section
variable {t : PdoTable} {q q' : Queue} {pdos : List Pdo}

/-- What is stored goes to the end of its queue; what the other one holds lies elsewhere. -/
theorem store_holds (hlt : t.freePdoIndex < lecMaxEepromCatPdoEntries) (pdo : Pdo)
    (h : t.Holds q' pdos) :
    (t.store q pdo).Holds q' (if q' = q then pdos ++ [pdo] else pdos) := by
  have hold : (t.pdos q').map (Function.update t.freePdos t.freePdoIndex pdo) = pdos := by
    rw [← h.pdos]
    refine List.map_congr_left fun k hk => ?_
    exact Function.update_of_ne (Nat.ne_of_lt (h.stored k hk)) _ _
  unfold PdoTable.store
  rw [if_pos hlt]
  by_cases hq : q' = q
  · rw [if_pos hq, ← hq]
    constructor
    · dsimp only
      rw [Function.update_self, List.map_append, hold, List.map_singleton, Function.update_self]
    · intro k hk
      dsimp only at hk ⊢
      rw [Function.update_self] at hk
      rcases List.mem_append.1 hk with hk | hk
      · exact Nat.lt_succ_of_lt (h.stored k hk)
      · rw [List.mem_singleton.1 hk]
        exact Nat.lt_succ_self _
  · rw [if_neg hq]
    constructor
    · dsimp only
      rw [Function.update_of_ne hq, hold]
    · intro k hk
      dsimp only at hk ⊢
      rw [Function.update_of_ne hq] at hk
      exact Nat.lt_succ_of_lt (h.stored k hk)

theorem store_of_full (h : ¬t.freePdoIndex < lecMaxEepromCatPdoEntries) (q : Queue) (pdo : Pdo) :
    t.store q pdo = t := if_neg h

theorem store_index (h : t.freePdoIndex < lecMaxEepromCatPdoEntries) (q : Queue) (pdo : Pdo) :
    (t.store q pdo).freePdoIndex = t.freePdoIndex + 1 := by rw [PdoTable.store, if_pos h]

/-- The PDOs of one category. -/
theorem storeLoop_index (q : Queue) (ps : List Pdo) (h : t.freePdoIndex ≤ lecMaxEepromCatPdoEntries) :
    (ps.foldl (PdoTable.store q) t).freePdoIndex =
      min lecMaxEepromCatPdoEntries (t.freePdoIndex + ps.length) := by
  induction ps generalizing t with
  | nil => exact (Nat.min_eq_right h).symm
  | cons p ps ih =>
    rw [List.foldl_cons, List.length_cons]
    by_cases hlt : t.freePdoIndex < lecMaxEepromCatPdoEntries
    · have hindex := store_index hlt q p
      rw [ih (hindex ▸ hlt), hindex]
      omega
    · rw [store_of_full hlt, ih h]
      omega

theorem storeLoop_holds (ps : List Pdo) (h : t.Holds q' pdos) :
    (ps.foldl (PdoTable.store q) t).Holds q'
      (if q' = q then pdos ++ ps.take (lecMaxEepromCatPdoEntries - t.freePdoIndex) else pdos) := by
  induction ps generalizing t pdos with
  | nil => rwa [List.take_nil, List.append_nil, ite_self]
  | cons p ps ih =>
    rw [List.foldl_cons]
    by_cases hlt : t.freePdoIndex < lecMaxEepromCatPdoEntries
    · have hindex := store_index hlt q p
      have hnext := ih (store_holds (q := q) hlt p h)
      obtain ⟨m, hm⟩ : ∃ m, lecMaxEepromCatPdoEntries - t.freePdoIndex = m + 1 :=
        ⟨lecMaxEepromCatPdoEntries - t.freePdoIndex - 1, by omega⟩
      have hm' : lecMaxEepromCatPdoEntries - (t.store q p).freePdoIndex = m := by omega
      rw [hm'] at hnext
      rw [hm, List.take_succ_cons]
      split_ifs at hnext ⊢ with hq
      · rwa [List.append_assoc, List.singleton_append] at hnext
      · exact hnext
    · have hzero : lecMaxEepromCatPdoEntries - t.freePdoIndex = 0 := by omega
      have hnext := ih h
      rw [hzero, List.take_zero] at hnext ⊢
      rwa [store_of_full hlt]

theorem storeLoop_other (ps : List Pdo) (hq : q' ≠ q) :
    (ps.foldl (PdoTable.store q) t).pdos q' = t.pdos q' := by
  refine Folds.foldl_keeps (m := fun t : PdoTable => t.pdos q') (fun t p => ?_) t ps
  unfold PdoTable.store
  split_ifs
  · exact Function.update_of_ne hq ..
  · rfl

/-- **A category** leaves what the abstract queues are left with. -/
theorem refill_filled {t₀ : Queue → List ℕ} {s : Refill.Filled Queue Pdo} (h : t.Filled t₀ s)
    (b : Queue × List Pdo) :
    (t.refill b).Filled t₀ (Refill.fill lecMaxEepromCatPdoEntries s b) := by
  let cleared : PdoTable := { t with pdos := Function.update t.pdos b.1 [] }
  have hle : cleared.freePdoIndex ≤ lecMaxEepromCatPdoEntries := by
    have : cleared.freePdoIndex = t.freePdoIndex := rfl
    rw [this, h.index]
    exact Nat.min_le_left _ _
  have hnil : cleared.Holds b.1 [] := by
    constructor
    · rw [show cleared.pdos b.1 = [] from Function.update_self ..]
      rfl
    · rw [show cleared.pdos b.1 = [] from Function.update_self ..]
      exact nofun
  have hplaces : lecMaxEepromCatPdoEntries - cleared.freePdoIndex =
      lecMaxEepromCatPdoEntries - s.come := by
    have : cleared.freePdoIndex = t.freePdoIndex := rfl
    rw [this, h.index]
    omega
  have hother : ∀ {q}, b.1 ≠ q → cleared.pdos q = t.pdos q := fun hq =>
    Function.update_of_ne (fun heq => hq heq.symm) ..
  constructor
  · have hindex := storeLoop_index b.1 b.2 hle
    rw [PdoTable.refill, hindex, Refill.fill]
    change min _ (t.freePdoIndex + _) = _
    rw [h.index]
    dsimp only
    omega
  · intro q pdos hpdos
    rw [Refill.fill_kept] at hpdos
    split_ifs at hpdos with hq
    · subst hq
      have hloop := storeLoop_holds (q := b.1) b.2 hnil
      rwa [if_pos rfl, List.nil_append, hplaces, Option.some.inj hpdos] at hloop
    · have hold := h.holds q pdos hpdos
      have hkept : cleared.Holds q pdos := ⟨by rw [hother hq]; exact hold.pdos,
        by rw [hother hq]; exact hold.stored⟩
      have hloop := storeLoop_holds (q := b.1) b.2 hkept
      rwa [if_neg fun heq => hq heq.symm] at hloop
  · intro q hnone
    rw [Refill.fill_kept] at hnone
    split_ifs at hnone with hq
    rw [PdoTable.refill, storeLoop_other b.2 fun heq => hq heq.symm]
    exact (hother hq).trans (h.keeps q hnone)

end

/-! ## The dump -/

theorem after_table (e : Rom) (t : Published) (c : Cat) :
    (t.after e c).table = (c.pdos e).elim t.table t.table.refill := by
  have hstore : ∀ q, t.table.storeAll q e c =
      (if c.len = 0 then none else
        some (q, (pdoAddrs e c.fin (c.offset + 2)).map (tmpPdo e))).elim t.table t.table.refill := by
    intro q
    unfold PdoTable.storeAll PdoTable.clear pdosOf
    split_ifs <;> rfl
  unfold Published.after Cat.pdos
  cases c.kind with
  | txpdo => exact hstore .tx
  | rxpdo => exact hstore .rx
  | _ => split_ifs <;> rfl

theorem foldl_table (e : Rom) (t : Published) (cats : List Cat) :
    (cats.foldl (Published.after e) t).table =
      (cats.filterMap (Cat.pdos e)).foldl PdoTable.refill t.table := by
  induction cats generalizing t with
  | nil => rfl
  | cons c cats ih =>
    rw [List.foldl_cons, ih, after_table, List.filterMap_cons]
    cases c.pdos e <;> rfl

/-- The PDOs of the categories that the dump comes to. -/
def readCats (e : Rom) : List (Queue × List Pdo) := (categories e).filterMap (Cat.pdos e)

theorem foldl_filled {t₀ : Queue → List ℕ} (bs : List (Queue × List Pdo)) {t : PdoTable}
    {s : Refill.Filled Queue Pdo} (h : t.Filled t₀ s) : (bs.foldl PdoTable.refill t).Filled t₀
      (bs.foldl (Refill.fill lecMaxEepromCatPdoEntries) s) := by
  induction bs generalizing t s with
  | nil => exact h
  | cons b bs ih => exact ih (refill_filled h b)

/-- **What a dump leaves** in the queues. -/
theorem dump_filled (e : Rom) (buf : Message) {slv : Slave} (hread : slv.eeprom.readEeprom = false) :
    (ecEepromDump e buf slv).published.table.Filled slv.eeprom.pdos
      (Refill.filled lecMaxEepromCatPdoEntries (readCats e)) := by
  rw [dump_published buf slv hread, foldl_table]
  exact foldl_filled (readCats e) ⟨rfl, nofun, fun _ _ => rfl⟩

/-- A queue that no category fills is empty. -/
theorem scanned_empty {e : Rom} {slv : Slave} (h : Scanned e slv) {q : Queue}
    (hnone : (Refill.filled lecMaxEepromCatPdoEntries (readCats e)).kept q = none) :
    slv.eeprom.pdos q = [] := by
  induction h with
  | scan hempty => exact hempty q
  | @dump slv slv' buf _ hsame ih =>
    rw [hsame]
    by_cases hread : slv.eeprom.readEeprom = true
    · rw [ecEepromDump, if_pos hread]
      exact ih
    · exact ((dump_filled e buf (Bool.eq_false_iff.2 hread)).keeps q hnone).trans ih

theorem stored_eq_left {e : Rom} (buf : Message) {slv : Slave} (h : Scanned e slv)
    (hread : slv.eeprom.readEeprom = false) (q : Queue) :
    ((ecEepromDump e buf slv).slv.eeprom.pdos q).map (ecEepromDump e buf slv).slv.eeprom.freePdos =
      Refill.left lecMaxEepromCatPdoEntries (readCats e) q := by
  have hfilled := dump_filled e buf hread
  unfold Refill.left
  cases hkept : (Refill.filled lecMaxEepromCatPdoEntries (readCats e)).kept q with
  | none =>
    have hempty : (ecEepromDump e buf slv).slv.eeprom.pdos q = [] :=
      (hfilled.keeps q hkept).trans (scanned_empty h hkept)
    rw [hempty]
    rfl
  | some pdos => exact (hfilled.holds q pdos hkept).pdos

section
variable {e : Rom} (h : ∀ a, e.ok a = true)
include h

theorem queueOf_catAt (offset : ℕ) : queueOf (catAt e offset).kind = directionAt e offset := by
  rw [Cat.kind, catAt_typeAt h, directionAt]
  by_cases htx : typeAt e offset = 50
  · rw [if_pos htx, htx]
    rfl
  · by_cases hrx : typeAt e offset = 51
    · rw [if_neg htx, if_pos hrx, hrx]
      rfl
    · rw [if_neg htx, if_neg hrx]
      -- no other category has a queue
      split
      case h_5 ht => exact absurd ht htx
      case h_6 ht => exact absurd ht hrx
      all_goals rfl

theorem catAt_pdos {offset : ℕ} (hroom : ∀ b, pdoCatAt e offset = some b →
    ∀ pdo ∈ b.2, pdo.nEntry.toNat ≤ lecMaxEepromCatPdoEntries) :
    (catAt e offset).pdos e = pdoCatAt e offset := by
  unfold Cat.pdos
  rw [queueOf_catAt h, Cat.fin, catAt_lenAt h]
  unfold pdoCatAt at hroom ⊢
  split_ifs at hroom ⊢ with hlen
  · rfl
  · cases hdir : directionAt e offset with
    | none => rfl
    | some q =>
      rw [hdir] at hroom
      refine congrArg (fun pdos => some (q, pdos)) (pdoAddrs_of_ok h ?_ (hroom _ rfl))
      change offset + 2 < offset + lenAt e offset + 2
      omega

/-- **The categories with PDOs**: those that are read, and those behind the size. -/
theorem pdoCats_split (hroom : ∀ q, ∀ pdo ∈ imagePdos e q,
    pdo.nEntry.toNat ≤ lecMaxEepromCatPdoEntries) : ∃ behind, pdoCats e = readCats e ++ behind ∧
      (behind = [] ↔ ∀ offset ∈ headers e, pdoCatAt e offset ≠ none →
        2 * offset < announced e % 2 ^ 16) := by
  obtain ⟨rest, hheaders, hcats, hrest⟩ := headers_split h
  have hread : readCats e = ((categories e).map Cat.offset).filterMap (pdoCatAt e) := by
    rw [readCats, List.filterMap_map]
    refine List.filterMap_congr fun c hc => ?_
    rw [Function.comp, (hcats c hc).1]
    refine catAt_pdos h fun b hb pdo hpdo => hroom b.1 pdo ?_
    refine List.mem_flatMap.2 ⟨b, List.mem_filter.2 ⟨?_, decide_eq_true rfl⟩, hpdo⟩
    refine List.mem_filterMap.2 ⟨c.offset, ?_, hb⟩
    rw [hheaders]
    exact List.mem_append_left _ (List.mem_map_of_mem hc)
  refine ⟨rest.filterMap (pdoCatAt e), ?_, ?_⟩
  · rw [pdoCats, hheaders, List.filterMap_append, hread]
  · rw [List.filterMap_eq_nil_iff, hheaders]
    constructor
    · intro hnone offset hoffset hsome
      rcases List.mem_append.1 hoffset with hoffset | hoffset
      · obtain ⟨c, hc, rfl⟩ := List.mem_map.1 hoffset
        exact (hcats c hc).2
      · exact absurd (hnone offset hoffset) hsome
    · intro hahead r hr
      by_contra hsome
      have hlt := hahead r (List.mem_append_right _ hr) hsome
      exact absurd hlt (Nat.not_lt.2 (hrest r hr))

end

theorem pdoCats_ne_nil (e : Rom) : ∀ b ∈ pdoCats e, b.2 ≠ [] := by
  intro b hb
  obtain ⟨offset, -, hb⟩ := List.mem_filterMap.1 hb
  unfold pdoCatAt at hb
  split_ifs at hb with hlen
  obtain ⟨q, -, rfl⟩ := Option.map_eq_some_iff.1 hb
  dsimp only
  rw [pdosFrom, if_pos (by omega)]
  exact List.cons_ne_nil _ _

/-- **When all PDOs are stored.** -/
theorem stored_iff {e : Rom} (h : ∀ a, e.ok a = true) (hroom : ∀ q, ∀ pdo ∈ imagePdos e q,
    pdo.nEntry.toNat ≤ lecMaxEepromCatPdoEntries) :
    (∀ q, Refill.left lecMaxEepromCatPdoEntries (readCats e) q = imagePdos e q) ↔ PdosKept e := by
  obtain ⟨behind, hcats, hbehind⟩ := pdoCats_split h hroom
  have hne := pdoCats_ne_nil e
  have hiff := Refill.left_eq_all_append_iff (n := lecMaxEepromCatPdoEntries) (hcats ▸ hne)
  rw [← hcats, hbehind] at hiff
  exact hiff.trans ⟨fun hkept => ⟨hkept.2.2, hkept.2.1, hkept.1⟩,
    fun hkept => ⟨hkept.ahead, hkept.once, hkept.few⟩⟩

end LibEthercat.Sii
