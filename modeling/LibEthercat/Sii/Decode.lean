import LibEthercat.Lib.Folds
import LibEthercat.Lib.Layout
import LibEthercat.Sii.Image
import LibEthercat.Sii.Kept
import Mathlib.Data.List.GetD
import Mathlib.Data.List.TakeWhile

/-!
# Reading a well-formed image

The categories of an image are written with their types and lengths, one behind the other, and the
end marker behind them: `Content` is what is in a category, and `encode` how it is written.

**Theorem (`dump_decodes`).** From every image of less than 64 KiB with strings, general data and sync
managers, each at most once and with any other categories before, between and behind, the dump reads
what was written.

No other dump is assumed to use `ec_eeprom_buf` in the meantime: the strings of the image lie there
until the last of them is copied (`buf` below).
-/

namespace LibEthercat.Sii

open LibEthercat.Coe (Message u16)
open Layout (Lies lies_append lies_cons lies_singleton length_flatMap_of_length)

/-! ## Images -/

structure SmEntry where
  adr : UInt16
  len : UInt16
  ctrlReg : UInt8
  statusReg : UInt8
  activate : UInt8
  pdiCtrl : UInt8

/-- The sync manager of the slave, with the activation above the control register. -/
def SmEntry.slaveSm (sm : SmEntry) : EcSlaveSm :=
  ⟨sm.adr, sm.len, sm.activate.toUInt32 <<< 16 ||| sm.ctrlReg.toUInt32⟩

/-- What is in a category. Behind the strings there may be any bytes, and `other` is a category that
is none of the first three, `NOP` among them. -/
inductive Content
  | strings (ss : List (List UInt8)) (rest : List UInt8)
  | general (bytes : List UInt8)
  | sm (sms : List SmEntry)
  | other (type : ℕ) (bytes : List UInt8)

def le16 (n : ℕ) : List UInt8 := [UInt8.ofNat n, UInt8.ofNat (n / 2 ^ 8)]

def SmEntry.bytes (sm : SmEntry) : List UInt8 :=
  le16 sm.adr.toNat ++ le16 sm.len.toNat ++ [sm.ctrlReg, sm.statusReg, sm.activate, sm.pdiCtrl]

/-- A string behind its length. -/
def stringBytes (s : List UInt8) : List UInt8 := UInt8.ofNat s.length :: s

def Content.type : Content → ℕ
  | .strings _ _ => 10
  | .general _ => 30
  | .sm _ => 41
  | .other type _ => type

def Content.data : Content → List UInt8
  | .strings ss rest => UInt8.ofNat ss.length :: (ss.flatMap stringBytes ++ rest)
  | .general bytes => bytes
  | .sm sms => sms.flatMap SmEntry.bytes
  | .other _ bytes => bytes

/-- The header with type and length, and the data. -/
def Content.bytes (c : Content) : List UInt8 := le16 c.type ++ le16 (c.data.length / 2) ++ c.data

def encode (cs : List Content) : List UInt8 := cs.flatMap Content.bytes ++ le16 ecEepromCatEnd

/-! ### Well-formed ones -/

structure StringsFit (ss : List (List UInt8)) : Prop where
  count : ss.length ≤ lecMaxEepromCatStrings
  length : ∀ s ∈ ss, s.length < lecMaxStringLen
  noNul : ∀ s ∈ ss, 0 ∉ s

def Content.Fits : Content → Prop
  | .strings ss rest => StringsFit ss ∧ (Content.strings ss rest).data.length ≤ 4096
  | .general bytes => 14 ≤ bytes.length
  | .sm sms => sms.length ≤ lecMaxEepromCatSm
  | .other type _ => type < 2 ^ 16 ∧ type ∉ [10, 30, 41, ecEepromCatEnd]

/-- Categories have whole words, and only the others come more than once. -/
structure WellFormed (cs : List Content) : Prop where
  fits : ∀ c ∈ cs, c.Fits
  even : ∀ c ∈ cs, 2 ∣ c.data.length
  once : ∀ type ∈ [10, 30, 41], (cs.filter fun c => c.type = type).length ≤ 1

/-- The EEPROM announces a size that 16 bits hold, and has the image in it from word 0x40 on. -/
structure Image (e : Rom) (cs : List Content) : Prop where
  wellFormed : WellFormed cs
  announced_ge : 256 ≤ announced e
  announced_le : announced e ≤ 65535
  lies : Lies e.byte (2 * 0x0040) (encode cs)
  inside : 2 * 0x0040 + (encode cs).length ≤ announced e

/-! ### What is read -/

/-- The string with its NUL. -/
def IsString (row : Message) (s : List UInt8) : Prop := Lies row 0 (s ++ [0])

/-- The slave has what is in the image. -/
structure Decoded (cs : List Content) (slv : Slave) : Prop where
  strings : ∀ ss rest, .strings ss rest ∈ cs → ∀ i (h : i < ss.length),
    IsString (slv.eeprom.strings i) ss[i]
  general : ∀ bytes, .general bytes ∈ cs → Lies slv.eeprom.general 0 (bytes.take 14)
  sm : ∀ sms, .sm sms ∈ cs → ∀ j (h : j < sms.length), slv.sm j = sms[j].slaveSm

/-! ## The walk -/

@[simp] theorem length_le16 (n : ℕ) : (le16 n).length = 2 := rfl

theorem u16_of_lies {m : Message} {a n : ℕ} (h : Lies m a (le16 n)) (hn : n < 2 ^ 16) :
    u16 m a = n := by
  have hlow : m a = UInt8.ofNat n := h 0 Nat.two_pos
  have hhigh : m (a + 1) = UInt8.ofNat (n / 2 ^ 8) := h 1 Nat.one_lt_two
  rw [u16, hlow, hhigh, UInt8.toNat_ofNat', UInt8.toNat_ofNat']
  omega

/-- The category has what is written of it. -/
structure Carries (e : Rom) (c : Content) (cat : Cat) : Prop where
  type : cat.type = c.type
  len : 2 * cat.len = c.data.length
  data : Lies (bytesAt e (cat.offset + 2)) 0 c.data

theorem lies_bytesAt {e : Rom} {adr k : ℕ} {l : List UInt8} (h : Lies e.byte (2 * adr + k) l) :
    Lies (bytesAt e adr) k l := h.congr fun i _ => by rw [bytesAt, Nat.add_assoc]

theorem encode_cons (c : Content) (cs : List Content) :
    encode (c :: cs) = c.bytes ++ encode cs := by
  rw [encode, List.flatMap_cons, List.append_assoc]
  rfl

theorem length_bytes (c : Content) : c.bytes.length = 4 + c.data.length := by
  rw [Content.bytes, List.length_append, List.length_append, length_le16, length_le16]

/-- What is written at `offset` is the category there. -/
theorem carries_catAt {e : Rom} (h : ∀ a, e.ok a = true) {c : Content} {offset : ℕ}
    (htype : c.type < 2 ^ 16) (heven : 2 ∣ c.data.length) (hlen : c.data.length < 2 ^ 17)
    (hlies : Lies e.byte (2 * offset) c.bytes) : Carries e c (catAt e offset) := by
  obtain ⟨hheader, hdata⟩ := lies_append.1 hlies
  obtain ⟨hlow, hhigh⟩ := lies_append.1 hheader
  rw [length_le16] at hhigh
  constructor
  · rw [catAt_typeAt h]
    exact u16_of_lies (lies_bytesAt (k := 0) hlow) htype
  · have hwords : lenAt e offset = c.data.length / 2 :=
      u16_of_lies (lies_bytesAt hhigh) (by omega)
    rw [catAt_lenAt h, hwords]
    exact Nat.mul_div_cancel' heven
  · refine hdata.congr fun k _ => ?_
    rw [bytesAt, List.length_append, length_le16, length_le16]
    exact congrArg e.byte (by change 2 * (offset + 2) + (0 + k) = _; omega)

/-- **The walk** comes to what has been written, and then to the end marker. -/
theorem categoriesFrom_encode {e : Rom} (h : ∀ a, e.ok a = true) {size : ℕ} (hsize : size < 2 ^ 16)
    (cs : List Content) : ∀ offset, (∀ c ∈ cs, c.type < ecEepromCatEnd ∧ 2 ∣ c.data.length) →
      Lies e.byte (2 * offset) (encode cs) → 2 * offset + (encode cs).length ≤ size →
      ∃ (placed : List (Content × Cat)) (last : Cat), placed.map Prod.fst = cs ∧
        categoriesFrom e size offset = placed.map Prod.snd ++ [last] ∧ last.type = ecEepromCatEnd ∧
        ∀ p ∈ placed, Carries e p.1 p.2 := by
  induction cs with
  | nil =>
    intro offset _ hlies _
    have htype : typeAt e offset = ecEepromCatEnd :=
      u16_of_lies (lies_bytesAt (k := 0) hlies) (by decide)
    refine ⟨[], catAt e offset, rfl, ?_, (catAt_typeAt h offset).trans htype, nofun⟩
    rw [categoriesFrom_of_ok h, if_neg fun hgo => hgo.2 htype]
    rfl
  | cons c cs ih =>
    intro offset hcs hlies hinside
    obtain ⟨⟨htype, heven⟩, hcs⟩ := List.forall_mem_cons.1 hcs
    rw [encode_cons] at hlies hinside
    obtain ⟨hc, hrest⟩ := lies_append.1 hlies
    rw [length_bytes] at hrest
    rw [List.length_append, length_bytes] at hinside
    have hend : 2 ≤ (encode cs).length := by
      rw [encode, List.length_append, length_le16]
      exact Nat.le_add_left 2 _
    have hcarries := carries_catAt h (Nat.lt_trans htype (by decide)) heven (by omega) hc
    have hlen := hcarries.len
    rw [catAt_lenAt h] at hlen
    have hnext : 2 * (offset + lenAt e offset + 2) = 2 * offset + (4 + c.data.length) := by omega
    have hne : typeAt e offset ≠ ecEepromCatEnd := by
      rw [← catAt_typeAt h, hcarries.type]
      exact Nat.ne_of_lt htype
    obtain ⟨placed, last, hfst, hsnd, hlast, hall⟩ := ih (offset + lenAt e offset + 2) hcs
      (by rw [hnext]; exact hrest) (by omega)
    refine ⟨(c, catAt e offset) :: placed, last, ?_, ?_, hlast,
      List.forall_mem_cons.2 ⟨hcarries, hall⟩⟩
    · rw [List.map_cons, hfst]
    · rw [categoriesFrom_of_ok h, if_pos ⟨by omega, hne⟩, hsnd]
      rfl

/-! ## General data and sync managers -/

section
variable {e : Rom} (h : ∀ a, e.ok a = true)
include h

theorem catGeneral_reads {bytes : List UInt8} {s : Dump} {c : Cat}
    (hdata : Lies (bytesAt e (c.offset + 2)) 0 bytes) :
    Lies (catGeneral e s c).slv.eeprom.general 0 (bytes.take 14) := by
  have hlies : Lies (bytesAt e (c.offset + 2)) 0 (bytes.take 14) := by
    rw [← List.take_append_drop 14 bytes] at hdata
    exact (lies_append.1 hdata).1
  refine hlies.congr fun k hk => read_bytesAt h _ ?_
  rw [List.length_take] at hk
  omega

/-- An entry is read as it is written. -/
theorem readSm_reads {sms : List SmEntry} {c : Cat}
    (hdata : Lies (bytesAt e (c.offset + 2)) 0 (sms.flatMap SmEntry.bytes)) {j : ℕ}
    (hj : j < sms.length) : CatSm.ofBytes (readSm e c j).buf = ⟨sms[j].adr.toNat, sms[j].len.toNat,
      sms[j].ctrlReg, sms[j].statusReg, sms[j].activate, sms[j].pdiCtrl⟩ := by
  have hentry : Lies (readSm e c j).buf 0 sms[j].bytes := by
    refine (hdata.flatMap (n := 8) (fun _ _ => rfl) hj).congr fun k (hk : k < 8) => ?_
    rw [readSm, Nat.zero_add, read_bytesAt h _ hk, bytesAt, bytesAt]
    exact congrArg e.byte (by omega)
  obtain ⟨hwords, hregs⟩ := lies_append.1 hentry
  obtain ⟨hadr, (hlen : Lies (readSm e c j).buf 2 (le16 sms[j].len.toNat))⟩ := lies_append.1 hwords
  obtain ⟨(hctrl : (readSm e c j).buf 4 = _), hregs⟩ := lies_cons.1 hregs
  obtain ⟨(hstatus : (readSm e c j).buf 5 = _), hregs⟩ := lies_cons.1 hregs
  obtain ⟨(hactivate : (readSm e c j).buf 6 = _), hregs⟩ := lies_cons.1 hregs
  obtain ⟨(hpdi : (readSm e c j).buf 7 = _), -⟩ := lies_cons.1 hregs
  rw [CatSm.ofBytes, u16_of_lies hadr sms[j].adr.toNat_lt, u16_of_lies hlen sms[j].len.toNat_lt,
    hctrl, hstatus, hactivate, hpdi]

omit h in
theorem setSm_sm {s : Dump} {j : ℕ} (hzero : (s.slv.sm j).adr = 0) (tmp : CatSm) :
    (setSm s j tmp).slv.sm = Function.update s.slv.sm j ⟨UInt16.ofNat tmp.adr,
      UInt16.ofNat tmp.len, tmp.activate.toUInt32 <<< 16 ||| tmp.ctrlReg.toUInt32⟩ := by
  have htouched : ((s.touch [⟨.sm, j, 1⟩]).slv.sm j).adr = 0 := hzero
  unfold setSm
  dsimp only
  rw [if_pos htouched]
  rfl

theorem smPass_reads {sms : List SmEntry} {c : Cat}
    (hdata : Lies (bytesAt e (c.offset + 2)) 0 (sms.flatMap SmEntry.bytes)) {j : ℕ}
    (hj : j < sms.length) {s : Dump} (hzero : s.slv.sm j = ⟨0, 0, 0⟩) :
    (smPass e c s j).slv.sm = Function.update s.slv.sm j sms[j].slaveSm := by
  have hstore : ∀ s tmp, (storeSm s j tmp).slv.sm = s.slv.sm := by
    intro s tmp
    unfold storeSm
    split_ifs <;> rfl
  have htouched : ((s.touch [⟨.tmpSms, 0, (readSm e c j).offset⟩]).slv.sm j).adr = 0 :=
    congrArg EcSlaveSm.adr hzero
  rw [smPass, hstore, readSm_reads h hdata hj, setSm_sm htouched]
  dsimp only
  rw [UInt16.ofNat_toNat, UInt16.ofNat_toNat]
  rfl

/-- **The loop** over the sync managers: so far as it has come, they are as written. -/
theorem smLoop_reads {sms : List SmEntry} {c : Cat}
    (hdata : Lies (bytesAt e (c.offset + 2)) 0 (sms.flatMap SmEntry.bytes)) {s : Dump}
    (hzero : ∀ j, s.slv.sm j = ⟨0, 0, 0⟩) (n : ℕ) (hn : n ≤ sms.length) :
    (∀ j (hj : j < sms.length), j < n →
        ((List.range n).foldl (smPass e c) s).slv.sm j = sms[j].slaveSm) ∧
      ∀ j, n ≤ j → ((List.range n).foldl (smPass e c) s).slv.sm j = ⟨0, 0, 0⟩ := by
  induction n with
  | zero => exact ⟨fun j _ hj => absurd hj (Nat.not_lt_zero j), fun j _ => hzero j⟩
  | succ n ih =>
    obtain ⟨hdone, hnext⟩ := ih (Nat.le_of_succ_le hn)
    rw [List.range_succ, List.foldl_append, List.foldl_cons, List.foldl_nil,
      smPass_reads h hdata hn (hnext n (Nat.le_refl n))]
    refine ⟨fun j hj hlt => ?_, fun j hle => ?_⟩
    · by_cases hjn : j = n
      · subst hjn
        exact Function.update_self ..
      · rw [Function.update_of_ne hjn]
        exact hdone j hj (by omega)
    · rw [Function.update_of_ne (by omega)]
      exact hnext j (by omega)

theorem catSm_reads {sms : List SmEntry} (hfits : sms.length ≤ lecMaxEepromCatSm) {c : Cat}
    (hcarries : Carries e (.sm sms) c) {s : Dump} (hzero : ∀ j, s.slv.sm j = ⟨0, 0, 0⟩) (j : ℕ)
    (hj : j < sms.length) : (catSm e s c).slv.sm j = sms[j].slaveSm := by
  have hlen : 2 * c.len = sms.length * 8 := by
    rw [hcarries.len]
    exact length_flatMap_of_length fun _ _ => rfl
  have hcount : c.len / 4 = sms.length := by omega
  have hfits8 : sms.length ≤ 8 := hfits
  have hcnt : c.smsCnt ≠ 0 := by
    rw [ne_eq, ← UInt8.toNat_inj, Cat.smsCnt_toNat, hcount]
    change ¬ sms.length % 256 = 0
    omega
  have hrealloc : ∀ (s : Dump) n, s.slv.sm = (fun _ => ⟨0, 0, 0⟩) →
      (smReallocate s c).slv.sm n = ⟨0, 0, 0⟩ := by
    intro s n hs
    unfold smReallocate
    split_ifs
    · change (if n < c.smsCnt.toNat then _ else s.slv.sm n) = _
      rw [hs, ite_self]
    · rw [hs]
  have hpasses : (c.len + 3) / 4 = sms.length := by omega
  unfold catSm
  dsimp only
  rw [if_neg hcnt, hpasses]
  have hstart := fun n =>
    hrealloc (s.setEeprom { s.slv.eeprom with smsCnt := c.smsCnt }) n (funext hzero)
  exact (smLoop_reads h hcarries.data hstart sms.length (Nat.le_refl _)).1 j hj hj

end

/-! ## Strings -/

section
variable {buf : Message}

theorem strnlen_of_noNul {src : Message} {n : ℕ} (h : ∀ k < n, src k ≠ 0) : strnlen src n = n := by
  have hall : (List.range n).takeWhile (fun k => src k ≠ 0) = List.range n := by
    rw [List.takeWhile_eq_self_iff]
    intro k hk
    exact decide_eq_true (h k (List.mem_range.1 hk))
  rw [strnlen, hall, List.length_range]

theorem stringLen_of_lies {str : List UInt8} {off : ℕ} (hlen : str.length < lecMaxStringLen)
    (hlies : Lies buf off (stringBytes str)) : stringLen buf off = str.length := by
  have hlen8 : str.length < 128 := hlen
  rw [stringLen, (lies_cons.1 hlies).1, UInt8.toNat_ofNat']
  omega

/-- A string is copied to its row. -/
theorem stringPass_reads {s : Dump} {str : List UInt8} {i off : ℕ}
    (hi : i < lecMaxEepromCatStrings) (hlen : str.length < lecMaxStringLen) (hnul : 0 ∉ str)
    (hlies : Lies s.buf off (stringBytes str)) :
    IsString ((stringPass s (i, off)).slv.eeprom.strings i) str ∧
      (∀ j, j ≠ i → (stringPass s (i, off)).slv.eeprom.strings j = s.slv.eeprom.strings j) ∧
      (stringPass s (i, off)).buf = s.buf := by
  have hbytes := (lies_cons.1 hlies).2
  have hread : readStringLen s.buf i off = str.length := by
    rw [readStringLen, stringLen_of_lies hlen hlies, if_neg (Nat.not_le.2 hi)]
    exact Nat.min_eq_left (Nat.le_of_lt_succ hlen)
  have hstrnlen : strnlen (fun k => s.buf (off + 1 + k)) str.length = str.length := by
    refine strnlen_of_noNul fun k hk h0 => hnul ?_
    rw [← h0, hbytes k hk]
    exact List.getElem_mem hk
  unfold stringPass
  dsimp only
  rw [hread, if_neg (Nat.not_le.2 hi)]
  refine ⟨?_, fun j hj => Function.update_of_ne hj .., rfl⟩
  change IsString (Function.update s.slv.eeprom.strings i _ i) str
  rw [Function.update_self]
  refine lies_append.2 ⟨fun k hk => ?_, lies_singleton.2 ?_⟩
  · rw [Nat.zero_add, Function.update_of_ne (Nat.ne_of_lt hk), strncpy, if_pos hk, hstrnlen,
      if_pos hk, hbytes k hk]
  · rw [Nat.zero_add, Function.update_self]

/-- **The loop** over the strings copies them all. -/
theorem stringLoop_reads (catLen : ℕ) (ss : List (List UInt8)) : ∀ (s : Dump) (i off : ℕ),
    (∀ str ∈ ss, str.length < lecMaxStringLen ∧ 0 ∉ str) → i + ss.length ≤ lecMaxEepromCatStrings →
    Lies s.buf off (ss.flatMap stringBytes) →
    off + (ss.flatMap stringBytes).length ≤ 2 * catLen →
    (∀ j (hj : j < ss.length), IsString (((stringCursors s.buf catLen ss.length i off).foldl
      stringPass s).slv.eeprom.strings (i + j)) ss[j]) ∧
    ∀ j < i, ((stringCursors s.buf catLen ss.length i off).foldl stringPass s).slv.eeprom.strings j =
      s.slv.eeprom.strings j := by
  induction ss with
  | nil => exact fun s i off _ _ _ _ => ⟨fun j hj => absurd hj (Nat.not_lt_zero j), fun _ _ => rfl⟩
  | cons str ss ih =>
    intro s i off hss hi hlies hinside
    obtain ⟨⟨hlen, hnul⟩, hss⟩ := List.forall_mem_cons.1 hss
    rw [List.length_cons] at hi
    rw [List.flatMap_cons] at hlies hinside
    obtain ⟨hstr, hrest⟩ := lies_append.1 hlies
    rw [List.length_append] at hinside
    have hbytes : (stringBytes str).length = 1 + str.length := by
      rw [stringBytes, List.length_cons, Nat.add_comm]
    rw [hbytes] at hrest hinside
    have hpass := stringPass_reads (i := i) (by omega) hlen hnul hstr
    have hbuf := hpass.2.2
    have hcursors : stringCursors s.buf catLen (str :: ss).length i off =
        (i, off) :: stringCursors s.buf catLen ss.length (i + 1) (off + (1 + str.length)) := by
      rw [List.length_cons, stringCursors, stringLen_of_lies hlen hstr, Nat.add_assoc off,
        if_neg (by omega)]
    have hloop := ih (stringPass s (i, off)) (i + 1) (off + (1 + str.length)) hss (by omega)
      (by rw [hbuf]; exact hrest) (by omega)
    rw [hbuf] at hloop
    rw [hcursors, List.foldl_cons]
    refine ⟨fun j hj => ?_, fun j hj => ?_⟩
    · cases j with
      | zero =>
        have hrow := hloop.2 i (Nat.lt_succ_self i)
        exact (congrArg (IsString · str) hrow).mpr hpass.1
      | succ j =>
        have hnext := hloop.1 j (Nat.lt_of_succ_lt_succ hj)
        rwa [Nat.add_assoc i 1 j, Nat.add_comm 1 j] at hnext
    · rw [hloop.2 j (Nat.lt_succ_of_lt hj), hpass.2.1 j (Nat.ne_of_lt hj)]

end

theorem catStrings_reads {e : Rom} (h : ∀ a, e.ok a = true) {ss : List (List UInt8)}
    {rest : List UInt8} (hfits : StringsFit ss) {c : Cat} (hcarries : Carries e (.strings ss rest) c)
    (s : Dump) (i : ℕ) (hi : i < ss.length) :
    IsString ((catStrings e s c).slv.eeprom.strings i) ss[i] := by
  have hbuf : Lies (stringsRead e s.buf c).buf 0 (Content.strings ss rest).data := by
    refine hcarries.data.congr fun k hk => ?_
    rw [← hcarries.len] at hk
    rw [Nat.zero_add, stringsRead, read_bytesAt h _ hk]
  obtain ⟨hcount, hstrings⟩ := lies_cons.1 hbuf
  have hcount128 : ss.length ≤ 128 := hfits.count
  have hcnt : ((stringsRead e s.buf c).buf 0).toNat = ss.length := by
    rw [hcount, UInt8.toNat_ofNat']
    omega
  have hlen := hcarries.len
  rw [Content.data, List.length_cons, List.length_append] at hlen
  have hloop := stringLoop_reads c.len ss (stringsBegin (stringsRead e s.buf c) s) 0 1
    (fun str hstr => ⟨hfits.length str hstr, hfits.noNul str hstr⟩)
    (by rw [Nat.zero_add]; exact hfits.count) (lies_append.1 hstrings).1 (by omega)
  have hstring := hloop.1 i hi
  rw [Nat.zero_add] at hstring
  rw [catStrings, stringsOf, hcnt]
  exact hstring

/-! ## The dump -/

/-- The kind of a category is that of what it carries. -/
theorem kind_of_type {e : Rom} {content : Content} {c : Cat} (h : Carries e content c) :
    (c.kind = .strings ↔ content.type = 10) ∧ (c.kind = .general ↔ content.type = 30) ∧
      (c.kind = .sm ↔ content.type = 41) := by
  rw [← h.type]
  unfold Cat.kind
  split <;> simp_all

theorem Content.Fits.type_lt {c : Content} (h : c.Fits) : c.type < ecEepromCatEnd := by
  cases c with
  | strings => exact (by decide : 10 < 0xFFFF)
  | general => exact (by decide : 30 < 0xFFFF)
  | sm => exact (by decide : 41 < 0xFFFF)
  | other type bytes =>
    have hne : type ≠ ecEepromCatEnd := fun heq => h.2 (by rw [heq]; decide)
    have hlt : type < 2 ^ 16 := h.1
    change type < 0xFFFF
    change type ≠ 0xFFFF at hne
    omega

theorem image_categories {e : Rom} (h : ∀ a, e.ok a = true) {cs : List Content}
    (himage : Image e cs) : ∃ (placed : List (Content × Cat)) (last : Cat),
      placed.map Prod.fst = cs ∧ categories e = placed.map Prod.snd ++ [last] ∧
        last.type = ecEepromCatEnd ∧ ∀ p ∈ placed, Carries e p.1 p.2 := by
  have hge := himage.announced_ge
  have hle := himage.announced_le
  have hsize : eepromSize e = announced e := by
    rw [eepromSize_of_ok h]
    exact Nat.mod_eq_of_lt (Nat.lt_succ_of_le hle)
  rw [categories, hsize, if_pos (by omega)]
  exact categoriesFrom_encode h (Nat.lt_succ_of_le hle) cs 0x0040
    (fun c hc => ⟨(himage.wellFormed.fits c hc).type_lt, himage.wellFormed.even c hc⟩) himage.lies
    himage.inside

/-- **One category decides**: what only the categories of one kind touch is as that category leaves
it, and it finds it as it was before the dump. -/
theorem dump_once {e : Rom} (h : ∀ a, e.ok a = true) {cs : List Content} (himage : Image e cs)
    (buf : Message) {slv : Slave} (hread : slv.eeprom.readEeprom = false) {τ : Type}
    {m : Dump → τ} {kind : CatKind} {type : ℕ} (htype : type ∈ [10, 30, 41]) (hkind : kind ≠ .other)
    (hiff : ∀ {content c}, Carries e content c → (c.kind = kind ↔ content.type = type))
    (hkeep : ∀ {k s s'}, k ≠ kind → Kept k s s' → m s' = m s) {content : Content}
    (hmem : content ∈ cs) (hcontent : content.type = type) :
    ∃ c s₀ s, Carries e content c ∧ s₀.slv.sm = slv.sm ∧ m s = m s₀ ∧
      m (ecEepromDump e buf slv) = m (category e s c) := by
  obtain ⟨placed, last, hfst, hcats, hlast, hcarries⟩ := image_categories h himage
  have hcount : (placed.filter fun p => p.1.type = type).length ≤ 1 := by
    have hone := himage.wellFormed.once type htype
    rwa [← hfst, List.filter_map, List.length_map] at hone
  obtain ⟨p, hp, rfl⟩ : ∃ p ∈ placed, p.1 = content := List.mem_map.1 (hfst ▸ hmem)
  have hlastKind : last.kind ≠ kind := by
    rw [Cat.kind, hlast]
    exact fun heq => hkind heq.symm
  unfold ecEepromDump
  rw [hread, if_neg Bool.false_ne_true, hcats]
  dsimp only
  generalize hs₀ : mbxSupportedText _ _ = s₀
  have hsm : s₀.slv.sm = slv.sm := by
    rw [← hs₀, mbxSupportedText_slv]
  obtain ⟨s, hs, hfold⟩ := Folds.foldl_once (f := fun s (p : Content × Cat) => category e s p.2)
    (m := m) (fun q hq hne s => hkeep (fun heq => of_decide_eq_false hne
      ((hiff (hcarries q hq)).1 heq)) (category_kept s q.2)) hcount hp (decide_eq_true hcontent) s₀
  refine ⟨p.2, s₀, s, hcarries p hp, hsm, hs, ?_⟩
  rw [List.foldl_append, List.foldl_map, List.foldl_cons, List.foldl_nil,
    hkeep hlastKind (category_kept _ last)]
  exact hfold

/-- **The dump reads what is written**, for every image and whatever the slave holds but in its sync
managers. -/
theorem dump_decodes {e : Rom} (h : ∀ a, e.ok a = true) {cs : List Content} (himage : Image e cs)
    (buf : Message) {slv : Slave} (hread : slv.eeprom.readEeprom = false)
    (hzero : ∀ j, slv.sm j = ⟨0, 0, 0⟩) : Decoded cs (ecEepromDump e buf slv).slv := by
  constructor
  · intro ss rest hmem i hi
    obtain ⟨c, -, s, hcarries, -, -, hdump⟩ := dump_once h himage buf hread
      (m := fun s => s.slv.eeprom.strings) (by decide) (by decide)
      (fun hc => (kind_of_type hc).1) (fun hk hkept => hkept.strings hk) hmem rfl
    have hkind := (kind_of_type hcarries).1.2 rfl
    have hrows := catStrings_reads h (himage.wellFormed.fits _ hmem).1 hcarries s i hi
    rw [hdump, category, hkind]
    exact hrows
  · intro bytes hmem
    obtain ⟨c, -, s, hcarries, -, -, hdump⟩ := dump_once h himage buf hread
      (m := fun s => s.slv.eeprom.general) (by decide) (by decide)
      (fun hc => (kind_of_type hc).2.1) (fun hk hkept => hkept.general hk) hmem rfl
    have hkind := (kind_of_type hcarries).2.1.2 rfl
    rw [hdump, category, hkind]
    exact catGeneral_reads h hcarries.data
  · intro sms hmem j hj
    obtain ⟨c, s₀, s, hcarries, hs₀, hs, hdump⟩ := dump_once h himage buf hread
      (m := fun s => s.slv.sm) (by decide) (by decide)
      (fun hc => (kind_of_type hc).2.2) (fun hk hkept => hkept.sm hk) hmem rfl
    have hkind := (kind_of_type hcarries).2.2.2 rfl
    rw [hdump, category, hkind]
    refine catSm_reads h (himage.wellFormed.fits _ hmem) hcarries (fun n => ?_) j hj
    rw [hs, hs₀, hzero]

/-- Two sync managers, a category of an unknown type, two strings, and general data. -/
def sampleContents : List Content :=
  [.sm [⟨0x1000, 0x80, 0x26, 0, 1, 0⟩, ⟨0x1080, 0x80, 0x22, 0, 1, 0⟩], .other 0x0800 [1, 2],
    .strings [[0x41, 0x42], [0x43]] [],
    .general [1, 2, 0, 2, 0, 1, 0, 0, 0, 0, 0, 0, 0x10, 0x27, 0, 0]]

/-- An EEPROM of 512 bytes. -/
def sampleRom : Rom where
  byte k := if k = 124 then 3 else if 128 ≤ k then (encode sampleContents).getD (k - 128) 0xFF else 0
  ok _ := true
  stack _ _ := 0

theorem dump_decodes_sample :
    Decoded sampleContents (ecEepromDump sampleRom (fun _ => 0) zeroSlave).slv := by
  have hannounced : announced sampleRom = 512 := by decide
  have hfits : ∀ c ∈ sampleContents, c.Fits := by
    unfold sampleContents
    simp only [List.forall_mem_cons, Content.Fits]
    exact ⟨by decide, by decide, ⟨⟨by decide, by decide, by decide⟩, by decide⟩, by decide, nofun⟩
  have hlies : Lies sampleRom.byte (2 * 0x0040) (encode sampleContents) := by
    intro k hk
    have hge : 128 ≤ 2 * 0x0040 + k := by omega
    have hne : 2 * 0x0040 + k ≠ 124 := by omega
    have hsub : 2 * 0x0040 + k - 128 = k := by omega
    unfold sampleRom
    dsimp only
    rw [if_neg hne, if_pos hge, hsub, List.getD_eq_getElem _ _ hk]
  exact dump_decodes (fun _ => rfl) ⟨⟨hfits, by decide, by decide⟩, by rw [hannounced]; decide,
    by rw [hannounced]; decide, hlies, by rw [hannounced]; decide⟩ (fun _ => 0) rfl fun _ => rfl

end LibEthercat.Sii
