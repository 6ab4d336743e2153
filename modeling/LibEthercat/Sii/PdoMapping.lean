import LibEthercat.Sii.Kept
import LibEthercat.Sii.Pdos
import Mathlib.Algebra.Group.Action.Defs
import Mathlib.Algebra.Order.BigOperators.Group.List
import Mathlib.Algebra.Order.Ring.Nat
import Mathlib.Data.List.Flatten

/-!
# The mapping from the EEPROM

For a slave with neither CoE nor SoE, `ec_slave_generate_mapping` adds up the bits of the PDOs in
both queues that are assigned to a sync manager.

**Theorem (`pdos_mapped`).** All PDOs are stored and the sync managers get the lengths of theirs if
and only if the dump has places for all PDOs and comes to them.
-/

namespace LibEthercat.Sii

open LibEthercat.Coe (Message u16)

/-! ## What the EEPROM assigns -/

def pdoBits (pdo : Pdo) : ℕ :=
  ((List.range pdo.nEntry.toNat).map fun j => (pdo.entries j).bitLen.toNat).sum

/-- The bits of those PDOs that are assigned to a sync manager. -/
def bitsOf (pdos : List Pdo) (sm : ℕ) : ℕ :=
  ((pdos.filter fun pdo => sm = pdo.smNr.toNat).map pdoBits).sum

/-- The bits that the EEPROM assigns to a sync manager. -/
def imageBits (e : Rom) (sm : ℕ) : ℕ := bitsOf (imagePdos e .tx ++ imagePdos e .rx) sm

/-! ## The mapping -/

/-- `bit_len` with the PDOs of a queue that are assigned to the sync manager. -/
def queueBits (i : EepromInfo) (smIdx : ℕ) (q : Queue) (bitLen : ℕ) : ℕ :=
  (i.pdos q).foldl (fun n k =>
    let pdo := i.freePdos k
    if smIdx = pdo.smNr.toNat then
      (List.range pdo.nEntry.toNat).foldl (fun n j => n + (pdo.entries j).bitLen.toNat) n
    else n) bitLen

def eepromPass (slv : Slave) (smIdx : ℕ) : Slave :=
  let bitLen := queueBits slv.eeprom smIdx .rx (queueBits slv.eeprom smIdx .tx 0)
  if 0 < bitLen then
    { slv with
      sm := Function.update slv.sm smIdx
        { slv.sm smIdx with len := UInt16.ofNat ((bitLen + 7) / 8) } }
  else slv

def ecEepromMbxCoe : ℕ := 0x04
def ecEepromMbxSoe : ℕ := 0x10

/-- With what `ec_coe_generate_mapping` and `ec_soe_generate_mapping` do. -/
def ecSlaveGenerateMapping (ecCoeGenerateMapping ecSoeGenerateMapping : Slave → ℤ × Slave)
    (smSetByUser : Bool) (slv : Slave) : ℤ × Slave :=
  if smSetByUser then (0, slv)
  else if slv.eeprom.ident.mbxSupported &&& ecEepromMbxCoe ≠ 0 then ecCoeGenerateMapping slv
  else if slv.eeprom.ident.mbxSupported &&& ecEepromMbxSoe ≠ 0 then ecSoeGenerateMapping slv
  else (0, (List.range slv.smCh.toNat).foldl eepromPass slv)

/-! ## What is expected -/

/-- `mbx_supported` as the EEPROM has it. -/
def mailboxes (e : Rom) : ℕ := u16 (bytesAt e 0x001C) 0

/-- All PDOs are stored, and whatever has become of the slave since, the sync managers that the user
has not set get the lengths of their PDOs from them. -/
structure PdosMapped (e : Rom) (buf : Message) (slv : Slave) : Prop where
  stored : ∀ q, ((ecEepromDump e buf slv).slv.eeprom.pdos q).map
    (ecEepromDump e buf slv).slv.eeprom.freePdos = imagePdos e q
  mapped : ∀ coe soe (slv' : Slave), slv'.eeprom = (ecEepromDump e buf slv).slv.eeprom →
    mailboxes e &&& ecEepromMbxCoe = 0 → mailboxes e &&& ecEepromMbxSoe = 0 →
      ∀ i < slv'.smCh.toNat, imageBits e i ≠ 0 →
        ((ecSlaveGenerateMapping coe soe false slv').2.sm i).len.toNat = (imageBits e i + 7) / 8

/-! ## The fixed words -/

theorem dump_ident (e : Rom) (buf : Message) {slv : Slave} (hread : slv.eeprom.readEeprom = false) :
    (ecEepromDump e buf slv).slv.eeprom.ident = readIdent e slv.eeprom.ident := by
  unfold ecEepromDump
  rw [hread, if_neg Bool.false_ne_true]
  refine List.foldlRecOn
    (motive := fun s : Dump => s.slv.eeprom.ident = readIdent e slv.eeprom.ident) _ _ ?_ ?_
  · rw [mbxSupportedText_slv]
  · exact fun s hs c _ => (category_kept s c).ident.trans hs

theorem dump_mbxSupported {e : Rom} (h : ∀ a, e.ok a = true) (buf : Message) {slv : Slave}
    (hread : slv.eeprom.readEeprom = false) :
    (ecEepromDump e buf slv).slv.eeprom.ident.mbxSupported = mailboxes e := by
  have hread16 : ∀ v, read16 e 0x001C v = mailboxes e := by
    intro v
    unfold read16
    dsimp only
    rw [if_pos (read_ok_of_ok h _ _ _), mailboxes, u16, read_bytesAt h _ (by decide),
      read_bytesAt h _ (by decide)]
    rfl
  exact (congrArg Ident.mbxSupported (dump_ident e buf hread)).trans (hread16 _)

/-! ## The bits -/

theorem queueBits_eq (i : EepromInfo) (sm : ℕ) (q : Queue) (n : ℕ) :
    queueBits i sm q n = n + bitsOf ((i.pdos q).map i.freePdos) sm := by
  unfold queueBits
  induction i.pdos q generalizing n with
  | nil => rfl
  | cons k ks ih =>
    rw [List.foldl_cons, ih, List.map_cons]
    unfold bitsOf
    rw [List.filter_cons]
    dsimp only
    by_cases hsm : sm = (i.freePdos k).smNr.toNat
    · rw [if_pos hsm, if_pos (decide_eq_true hsm), List.map_cons, List.sum_cons,
        Folds.foldl_add, Nat.add_assoc]
      rfl
    · rw [if_neg hsm, if_neg (by simpa using hsm)]

theorem bitsOf_append (pdos pdos' : List Pdo) (sm : ℕ) :
    bitsOf (pdos ++ pdos') sm = bitsOf pdos sm + bitsOf pdos' sm := by
  unfold bitsOf
  rw [List.filter_append, List.map_append, List.sum_append]

/-- An entry has 255 bits at most. -/
theorem pdoBits_le {pdo : Pdo} (h : pdo.nEntry.toNat ≤ lecMaxEepromCatPdoEntries) :
    pdoBits pdo ≤ lecMaxEepromCatPdoEntries * 255 := by
  have hsum : pdoBits pdo ≤ pdo.nEntry.toNat * 255 := by
    refine (List.sum_le_card_nsmul _ 255 fun n hn => ?_).trans ?_
    · obtain ⟨j, -, rfl⟩ := List.mem_map.1 hn
      exact Nat.le_of_lt_succ (pdo.entries j).bitLen.toNat_lt
    · rw [List.length_map, List.length_range, smul_eq_mul]
  exact hsum.trans (Nat.mul_le_mul_right 255 h)

theorem bitsOf_le {pdos : List Pdo} (sm : ℕ)
    (h : ∀ pdo ∈ pdos, pdo.nEntry.toNat ≤ lecMaxEepromCatPdoEntries) :
    bitsOf pdos sm ≤ pdos.length * (lecMaxEepromCatPdoEntries * 255) := by
  refine (List.sum_le_card_nsmul _ (lecMaxEepromCatPdoEntries * 255) fun n hn => ?_).trans ?_
  · obtain ⟨pdo, hpdo, rfl⟩ := List.mem_map.1 hn
    exact pdoBits_le (h pdo (List.mem_filter.1 hpdo).1)
  · rw [List.length_map, smul_eq_mul]
    exact Nat.mul_le_mul_right _ (List.length_filter_le _ _)

/-- The length of a sync manager fits into 16 bits. -/
theorem imageBits_fit {e : Rom} (hroom : ∀ q, ∀ pdo ∈ imagePdos e q,
    pdo.nEntry.toNat ≤ lecMaxEepromCatPdoEntries) (h : PdosKept e) (sm : ℕ) :
    (imageBits e sm + 7) / 8 < 2 ^ 16 := by
  have hlen : ∀ q, bitsOf (imagePdos e q) sm ≤ 32 * (32 * 255) := by
    intro q
    refine (bitsOf_le sm (hroom q)).trans (Nat.mul_le_mul_right _ ?_)
    exact (List.filter_sublist.flatMap Prod.snd).length_le.trans h.few
  have htx := hlen .tx
  have hrx := hlen .rx
  rw [imageBits, bitsOf_append]
  omega

/-- **The loop over the sync managers** gives each the length of its bits, if it has some. -/
theorem eepromLoop_len (slv : Slave) (n j : ℕ) :
    (((List.range n).foldl eepromPass slv).sm j).len =
      if j < n ∧ 0 < queueBits slv.eeprom j .rx (queueBits slv.eeprom j .tx 0) then
        UInt16.ofNat ((queueBits slv.eeprom j .rx (queueBits slv.eeprom j .tx 0) + 7) / 8)
      else (slv.sm j).len := by
  let bits : ℕ → ℕ := fun j => queueBits slv.eeprom j .rx (queueBits slv.eeprom j .tx 0)
  have hkeep : ∀ (s : Slave) i, s.eeprom = slv.eeprom → (eepromPass s i).eeprom = slv.eeprom := by
    intro s i hs
    unfold eepromPass
    dsimp only
    split_ifs <;> exact hs
  have hpass : ∀ (s : Slave) i j, s.eeprom = slv.eeprom → ((eepromPass s i).sm j).len =
      if j = 0 + i ∧ 0 < bits i then UInt16.ofNat ((bits i + 7) / 8) else (s.sm j).len := by
    intro s i j hs
    unfold eepromPass
    dsimp only
    rw [hs, Nat.zero_add]
    by_cases hbits : 0 < bits i
    · rw [if_pos hbits]
      by_cases hj : j = i
      · rw [if_pos ⟨hj, hbits⟩, hj]
        dsimp only
        rw [Function.update_self]
      · rw [if_neg fun h => hj h.1]
        dsimp only
        rw [Function.update_of_ne hj]
    · rw [if_neg hbits, if_neg fun h => hbits h.2]
  have hloop := (Folds.foldl_range_at (g := fun (s : Slave) j => (s.sm j).len) (b := 0) hkeep hpass
    rfl n j).2
  rw [hloop, Nat.zero_add]
  exact if_congr ⟨fun h => h.2, fun h => ⟨Nat.zero_le j, h⟩⟩ rfl rfl

/-! ## The mapping from the EEPROM -/

/-- **The lengths** come from the stored PDOs. -/
theorem generateMapping_len {e : Rom} (hroom : ∀ q,
    ∀ pdo ∈ imagePdos e q, pdo.nEntry.toNat ≤ lecMaxEepromCatPdoEntries) (hkept : PdosKept e)
    (coe soe : Slave → ℤ × Slave) {slv : Slave} (hmbx : slv.eeprom.ident.mbxSupported = mailboxes e)
    (hstored : ∀ q, (slv.eeprom.pdos q).map slv.eeprom.freePdos = imagePdos e q)
    (hcoe : mailboxes e &&& ecEepromMbxCoe = 0) (hsoe : mailboxes e &&& ecEepromMbxSoe = 0) {i : ℕ}
    (hi : i < slv.smCh.toNat) (hbits : imageBits e i ≠ 0) :
    ((ecSlaveGenerateMapping coe soe false slv).2.sm i).len.toNat = (imageBits e i + 7) / 8 := by
  have hsum : queueBits slv.eeprom i .rx (queueBits slv.eeprom i .tx 0) = imageBits e i := by
    rw [queueBits_eq, queueBits_eq, hstored, hstored, Nat.zero_add, imageBits, bitsOf_append]
  unfold ecSlaveGenerateMapping
  rw [if_neg Bool.false_ne_true, hmbx, if_neg (not_not.2 hcoe), if_neg (not_not.2 hsoe)]
  dsimp only
  rw [eepromLoop_len, hsum, if_pos ⟨hi, Nat.pos_of_ne_zero hbits⟩, UInt16.toNat_ofNat']
  exact Nat.mod_eq_of_lt (imageBits_fit hroom hkept i)

/-- **PDOs and mapping**, for every EEPROM whose PDOs have room for their entries. -/
theorem pdos_mapped {e : Rom} (h : ∀ a, e.ok a = true) (hroom : ∀ q, ∀ pdo ∈ imagePdos e q,
    pdo.nEntry.toNat ≤ lecMaxEepromCatPdoEntries) (buf : Message) {slv : Slave}
    (hscan : Scanned e slv) (hread : slv.eeprom.readEeprom = false) :
    PdosMapped e buf slv ↔ PdosKept e := by
  rw [← stored_iff h hroom]
  have hleft := stored_eq_left buf hscan hread
  constructor
  · intro hmapped q
    rw [← hleft]
    exact hmapped.stored q
  · intro hkept
    have hstored : ∀ q, ((ecEepromDump e buf slv).slv.eeprom.pdos q).map
        (ecEepromDump e buf slv).slv.eeprom.freePdos = imagePdos e q :=
      fun q => (hleft q).trans (hkept q)
    refine ⟨hstored, fun coe soe slv' heq hcoe hsoe i hi hbits => ?_⟩
    refine generateMapping_len hroom ((stored_iff h hroom).1 hkept) coe soe ?_ ?_ hcoe hsoe hi
      hbits
    · rw [heq]
      exact dump_mbxSupported h buf hread
    · intro q
      rw [heq]
      exact hstored q

/-! ## One category of PDOs -/

/-- An EEPROM of 768 bytes with one category, of `n` TxPDOs with one entry of 12 bits each, all
assigned to sync manager 3. -/
def pdosRom (n : ℕ) : Rom where
  byte k :=
    if k = 124 then 5 else if k = 125 then 0
    else if k = 128 then 50 else if k = 129 then 0
    else if k = 130 then UInt8.ofNat (8 * n) else if k = 131 then UInt8.ofNat (8 * n / 256)
    else if 132 ≤ k ∧ k < 132 + 16 * n then
      if k % 16 = 6 then 1 else if k % 16 = 7 then 3 else if k % 16 = 1 then 12 else 0
    else if k < 132 then 0 else 0xFF
  ok _ := true
  stack _ _ := 0

section
variable {n : ℕ}

theorem pdosRom_entries {j : ℕ} (hj : j < n) : entriesAt (pdosRom n) (0x42 + 8 * j) = 1 := by
  have hbyte : bytesAt (pdosRom n) (0x42 + 8 * j) 2 = 1 := by
    unfold bytesAt pdosRom
    dsimp only
    rw [if_neg (by omega), if_neg (by omega), if_neg (by omega), if_neg (by omega),
      if_neg (by omega), if_neg (by omega), if_pos (by omega), if_pos (by omega)]
  rw [entriesAt, hbyte]
  rfl

theorem pdosFrom_pdosRom (m : ℕ) : ∀ j, j + m = n →
    pdosFrom (pdosRom n) (0x42 + 8 * n) (0x42 + 8 * j) =
      (List.range' j m).map fun j => imagePdo (pdosRom n) (0x42 + 8 * j) := by
  induction m with
  | zero =>
    intro j hj
    rw [pdosFrom, if_neg (by omega)]
    rfl
  | succ m ih =>
    intro j hj
    rw [pdosFrom, if_pos (by omega), pdosRom_entries (by omega), List.range'_succ, List.map_cons,
      ← ih (j + 1) (by omega)]
    rfl

theorem lenAt_pdosRom (hn : n ≤ 39) : lenAt (pdosRom n) 0x40 = 8 * n := by
  change (UInt8.ofNat (8 * n)).toNat + 2 ^ 8 * (UInt8.ofNat (8 * n / 256)).toNat = _
  rw [UInt8.toNat_ofNat', UInt8.toNat_ofNat']
  omega

theorem typeAt_pdosRom : typeAt (pdosRom n) (0x42 + 8 * n) = ecEepromCatEnd := by
  have hbyte : ∀ k < 2, bytesAt (pdosRom n) (0x42 + 8 * n) k = 0xFF := by
    intro k hk
    unfold bytesAt pdosRom
    dsimp only
    rw [if_neg (by omega), if_neg (by omega), if_neg (by omega), if_neg (by omega),
      if_neg (by omega), if_neg (by omega), if_neg (by omega), if_neg (by omega)]
  rw [typeAt, u16, hbyte 0 (by decide), hbyte (0 + 1) (by decide)]
  rfl

theorem announced_pdosRom : announced (pdosRom n) = 768 := by
  have hlow : bytesAt (pdosRom n) 0x3E 0 = 5 := rfl
  have hhigh : bytesAt (pdosRom n) 0x3E (0 + 1) = 0 := rfl
  rw [announced, u16, hlow, hhigh]
  rfl

theorem headers_pdosRom (h0 : 0 < n) (hn : n ≤ 39) : headers (pdosRom n) = [0x40, 0x42 + 8 * n] := by
  have hfirst : typeAt (pdosRom n) 0x40 ≠ ecEepromCatEnd := by
    change 50 ≠ 0xFFFF
    decide
  have hnext : 0x40 + 8 * n + 2 = 0x42 + 8 * n := by omega
  rw [headers, announced_pdosRom, if_pos (by decide), headersFrom_eq, lenAt_pdosRom hn, hnext,
    if_pos ⟨by omega, hfirst⟩, headersFrom_eq, typeAt_pdosRom, if_neg fun h => h.2 rfl]

theorem pdoCats_pdosRom (h0 : 0 < n) (hn : n ≤ 39) : pdoCats (pdosRom n) =
    [(.tx, (List.range n).map fun j => imagePdo (pdosRom n) (0x42 + 8 * j))] := by
  have hlen : lenAt (pdosRom n) 0x40 = 8 * n := lenAt_pdosRom hn
  have hfirst : typeAt (pdosRom n) 0x40 = 50 := rfl
  have hend : pdoCatAt (pdosRom n) (0x42 + 8 * n) = none := by
    have hdir : directionAt (pdosRom n) (0x42 + 8 * n) = none := by
      rw [directionAt, typeAt_pdosRom]
      rfl
    rw [pdoCatAt, hdir, Option.map_none, ite_self]
  have hcat : pdoCatAt (pdosRom n) 0x40 =
      some (.tx, (List.range n).map fun j => imagePdo (pdosRom n) (0x42 + 8 * j)) := by
    have hfin : 0x40 + 8 * n + 2 = 0x42 + 8 * n := by omega
    unfold pdoCatAt directionAt
    rw [hlen, if_neg (by omega), hfirst, if_pos rfl, hfin, List.range_eq_range',
      ← pdosFrom_pdosRom n 0 (Nat.zero_add n)]
    rfl
  rw [pdoCats, headers_pdosRom h0 hn, List.filterMap_cons_some hcat, List.filterMap_cons_none hend]
  rfl

/-- Each PDO has room for its entry. -/
theorem pdosRom_room (h0 : 0 < n) (hn : n ≤ 39) : ∀ q, ∀ pdo ∈ imagePdos (pdosRom n) q,
    pdo.nEntry.toNat ≤ lecMaxEepromCatPdoEntries := by
  intro q pdo hpdo
  obtain ⟨b, hb, hpdo⟩ := List.mem_flatMap.1 hpdo
  have hmem := (List.mem_filter.1 hb).1
  rw [pdoCats_pdosRom h0 hn, List.mem_singleton] at hmem
  rw [hmem] at hpdo
  obtain ⟨j, hj, rfl⟩ := List.mem_map.1 hpdo
  have hone : (imagePdo (pdosRom n) (0x42 + 8 * j)).nEntry.toNat = 1 :=
    pdosRom_entries (List.mem_range.1 hj)
  rw [hone]
  decide

theorem pdosRom_kept_iff (h0 : 0 < n) (hn : n ≤ 39) : PdosKept (pdosRom n) ↔ n ≤ 32 := by
  have hlen : ((pdoCats (pdosRom n)).flatMap Prod.snd).length = n := by
    rw [pdoCats_pdosRom h0 hn, List.flatMap_singleton, List.length_map, List.length_range]
  have hfew : ((pdoCats (pdosRom n)).flatMap Prod.snd).length ≤ lecMaxEepromCatPdoEntries ↔
      n ≤ 32 := by
    rw [hlen]
    rfl
  refine ⟨fun h => hfew.1 h.few, fun h => ⟨hfew.2 h, fun q => ?_, fun offset hoffset _ => ?_⟩⟩
  · rw [pdoCats_pdosRom h0 hn]
    exact List.length_filter_le _ _
  · rw [announced_pdosRom]
    rw [headers_pdosRom h0 hn, List.mem_cons, List.mem_singleton] at hoffset
    omega

end

/-- With 2 TxPDOs, sync manager 3 has 3 bytes. -/
theorem pdos_mapped_two : imageBits (pdosRom 2) 3 = 24 ∧
    PdosMapped (pdosRom 2) (fun _ => 0) zeroSlave := by
  have hroom := pdosRom_room (n := 2) (by decide) (by decide)
  refine ⟨?_, (pdos_mapped (fun _ => rfl) hroom (fun _ => 0) (.scan fun _ => rfl) rfl).2
    ((pdosRom_kept_iff (by decide) (by decide)).2 (by decide))⟩
  rw [imageBits, imagePdos, imagePdos, Refill.all, Refill.all, Refill.blocks, Refill.blocks,
    pdoCats_pdosRom (by decide) (by decide)]
  rfl

/-- The last of 33 TxPDOs is not stored. -/
theorem pdos_not_mapped : ¬ ∀ (e : Rom), (∀ a, e.ok a = true) →
    ((pdoCats e).flatMap Prod.snd).length ≤ lecMaxEepromCatPdo →
    (∀ q, ∀ pdo ∈ imagePdos e q, pdo.nEntry.toNat ≤ lecMaxEepromCatPdoEntries) →
    ∀ (buf : Message) (slv : Slave), Scanned e slv → slv.eeprom.readEeprom = false →
      PdosMapped e buf slv := by
  intro h
  have hroom := pdosRom_room (n := 33) (by decide) (by decide)
  have hscan : Scanned (pdosRom 33) zeroSlave := .scan fun _ => rfl
  have hmapped := h (pdosRom 33) (fun _ => rfl)
    (by rw [pdoCats_pdosRom (by decide) (by decide)]; decide) hroom (fun _ => 0) zeroSlave hscan rfl
  have hkept := (stored_iff (fun _ => rfl) hroom).1 fun q => by
    rw [← stored_eq_left (fun _ => 0) hscan rfl]
    exact hmapped.stored q
  exact absurd ((pdosRom_kept_iff (by decide) (by decide)).1 hkept) (by decide)

end LibEthercat.Sii
