import LibEthercat.Coe.Message
import LibEthercat.Mapping.Model
import Mathlib.Logic.Function.Basic

/-!
# Reading the EEPROM of a slave

`eeprom.c`: `ec_eepromread_len` and `ec_eeprom_dump`, which reads the fixed words of the SII and
then goes over its categories; and the part of the INIT transition in `slave.c` that presets
`sm_ch` and `fmmu_ch` and calls it.

Where the cursors of the loops come to depends on the EEPROM, or on the string buffer, and on
nothing that the loops store. So each loop goes over the list of what its cursor comes to:
`categoriesFrom`, `stringCursors`, `pdoAddrs`, and ranges where each pass moves the cursor by as
much. Addresses of the EEPROM are word addresses, 2 bytes each.

The dump keeps a list of all that it touches in its arrays and local structures.

`ec_eeprom_buf`, to which a category of strings is read, is static: all slaves share it. A dump has
it for itself here, as it is without `threaded_startup`; the dumps of two slaves at the same time,
each in its own thread, are not modelled.
-/

namespace LibEthercat.Sii

open LibEthercat.Coe (Message u16 u32)

def lecMaxEepromCatSm : ℕ := lecMaxSlaveSm
def lecMaxEepromCatFmmu : ℕ := lecMaxSlaveFmmu
def lecMaxEepromCatPdo : ℕ := 128
def lecMaxEepromCatPdoEntries : ℕ := 32
def lecMaxEepromCatStrings : ℕ := 128
def lecMaxEepromCatDc : ℕ := 8
def lecMaxStringLen : ℕ := 128

/-! ## The EEPROM -/

/-- The bytes, the word addresses from which `ec_eepromread` gets its 4 bytes, and what lies in a
local that is not initialised when it is read to from a word address. -/
structure Rom where
  byte : ℕ → UInt8
  ok : ℕ → Bool
  stack : ℕ → Message

/-- What `ec_eepromread_len` leaves: whether it returns `EC_OK`, how many bytes it has written, and
the memory at `buf`. -/
structure Read where
  ok : Bool
  offset : ℕ
  buf : Message

/-- The 4 bytes at the word address of `offset`, copied as far as `len`. -/
def readChunk (e : Rom) (adr len offset : ℕ) (buf : Message) : Message := fun k =>
  if offset ≤ k ∧ k < min len (offset + 4) then e.byte (2 * (adr + offset / 2) + (k - offset))
  else buf k

/-- The loop of `ec_eepromread_len`. -/
def readFrom (e : Rom) (adr len offset : ℕ) (buf : Message) : Read :=
  if offset < len then
    if e.ok (adr + offset / 2) then
      readFrom e adr len (min len (offset + 4)) (readChunk e adr len offset buf)
    else ⟨false, offset, buf⟩
  else ⟨true, offset, buf⟩
termination_by len - offset

def ecEepromreadLen (e : Rom) (adr len : ℕ) (buf : Message) : Read := readFrom e adr len 0 buf

section Reading

variable {e : Rom} {adr len offset : ℕ} {buf : Message}

theorem readFrom_step (h : offset < len) (hok : e.ok (adr + offset / 2) = true) :
    readFrom e adr len offset buf =
      readFrom e adr len (min len (offset + 4)) (readChunk e adr len offset buf) := by
  rw [readFrom, if_pos h, if_pos hok]

theorem readFrom_fail (h : offset < len) (hok : ¬e.ok (adr + offset / 2) = true) :
    readFrom e adr len offset buf = ⟨false, offset, buf⟩ := by
  rw [readFrom, if_pos h, if_neg hok]

theorem readFrom_done (h : ¬offset < len) : readFrom e adr len offset buf = ⟨true, offset, buf⟩ := by
  rw [readFrom, if_neg h]

theorem readFrom_offset (e : Rom) (adr len offset : ℕ) (buf : Message) : offset ≤ len →
    offset ≤ (readFrom e adr len offset buf).offset ∧
      (readFrom e adr len offset buf).offset ≤ len := by
  induction offset, buf using readFrom.induct e adr len with
  | case1 offset buf h hok ih =>
    intro _
    rw [readFrom_step h hok]
    have := ih (Nat.min_le_left _ _)
    omega
  | case2 offset buf h hok => intro hle; rw [readFrom_fail h hok]; exact ⟨Nat.le_refl _, hle⟩
  | case3 offset buf h => intro hle; rw [readFrom_done h]; exact ⟨Nat.le_refl _, hle⟩

/-- A read that succeeds is one that has come to the end. -/
theorem readFrom_ok (e : Rom) (adr len offset : ℕ) (buf : Message) : offset ≤ len →
    ((readFrom e adr len offset buf).ok = true ↔ (readFrom e adr len offset buf).offset = len) := by
  induction offset, buf using readFrom.induct e adr len with
  | case1 offset buf h hok ih =>
    intro _
    rw [readFrom_step h hok]
    exact ih (Nat.min_le_left _ _)
  | case2 offset buf h hok =>
    intro _
    rw [readFrom_fail h hok]
    exact ⟨nofun, fun he => absurd he (Nat.ne_of_lt h)⟩
  | case3 offset buf h =>
    intro hle
    rw [readFrom_done h]
    exact ⟨fun _ => Nat.le_antisymm hle (Nat.le_of_not_lt h), fun _ => rfl⟩

/-- What is read are the bytes from `adr` on. All chunks but the last are of 4 bytes, so `offset / 2`
is exact. -/
theorem readFrom_buf (e : Rom) (adr len offset : ℕ) (buf : Message) :
    (offset % 4 = 0 ∨ len ≤ offset) → ∀ k, (readFrom e adr len offset buf).buf k =
      if offset ≤ k ∧ k < (readFrom e adr len offset buf).offset then e.byte (2 * adr + k)
      else buf k := by
  induction offset, buf using readFrom.induct e adr len with
  | case1 offset buf h hok ih =>
    intro hmod k
    have hle := (readFrom_offset e adr len _ (readChunk e adr len offset buf)
      (Nat.min_le_left len (offset + 4))).1
    rw [readFrom_step h hok, ih (by omega)]
    generalize (readFrom e adr len _ _).offset = n at hle ⊢
    by_cases hk : offset ≤ k ∧ k < min len (offset + 4)
    · rw [if_neg (by omega), if_pos (by omega), readChunk, if_pos hk]
      congr 1
      omega
    · rw [readChunk, if_neg hk]
      refine if_congr ?_ rfl rfl
      omega
  | case2 offset buf h hok =>
    intro _ k
    rw [readFrom_fail h hok, if_neg fun hk => absurd hk.2 (Nat.not_lt.2 hk.1)]
  | case3 offset buf h =>
    intro _ k
    rw [readFrom_done h, if_neg fun hk => absurd hk.2 (Nat.not_lt.2 hk.1)]

theorem read_offset_le (e : Rom) (adr len : ℕ) (buf : Message) :
    (ecEepromreadLen e adr len buf).offset ≤ len :=
  (readFrom_offset e adr len 0 buf (Nat.zero_le _)).2

theorem read_ok (e : Rom) (adr len : ℕ) (buf : Message) :
    (ecEepromreadLen e adr len buf).ok = true ↔ (ecEepromreadLen e adr len buf).offset = len :=
  readFrom_ok e adr len 0 buf (Nat.zero_le _)

theorem read_buf (e : Rom) (adr len : ℕ) (buf : Message) (k : ℕ) :
    (ecEepromreadLen e adr len buf).buf k =
      if k < (ecEepromreadLen e adr len buf).offset then e.byte (2 * adr + k) else buf k := by
  rw [ecEepromreadLen, readFrom_buf e adr len 0 buf (.inl rfl) k]
  simp only [Nat.zero_le, true_and]

/-- The first byte is there when there is one to read and the first chunk can be read. -/
theorem read_offset_pos (e : Rom) (adr len : ℕ) (buf : Message) :
    0 < (ecEepromreadLen e adr len buf).offset ↔ 0 < len ∧ e.ok adr = true := by
  rw [ecEepromreadLen]
  by_cases h : 0 < len
  · by_cases hok : e.ok (adr + 0 / 2) = true
    · rw [readFrom_step h hok]
      have := (readFrom_offset e adr len _ (readChunk e adr len 0 buf)
        (Nat.min_le_left len (0 + 4))).1
      exact ⟨fun _ => ⟨h, hok⟩, fun _ => by omega⟩
    · rw [readFrom_fail h hok]
      exact ⟨fun h => absurd h (Nat.lt_irrefl 0), fun h => absurd h.2 hok⟩
  · rw [readFrom_done h]
    exact ⟨fun h => absurd h (Nat.lt_irrefl 0), fun h' => absurd h'.1 h⟩

/-- An EEPROM that can be read everywhere. -/
theorem read_offset_of_ok (h : ∀ a, e.ok a = true) (adr len : ℕ) (buf : Message) :
    (ecEepromreadLen e adr len buf).offset = len := by
  have hfrom : ∀ offset buf, offset ≤ len → (readFrom e adr len offset buf).offset = len := by
    intro offset buf
    induction offset, buf using readFrom.induct e adr len with
    | case1 offset buf hlt hok ih =>
      intro _
      rw [readFrom_step hlt hok]
      exact ih (Nat.min_le_left _ _)
    | case2 offset buf hlt hok => exact absurd (h _) hok
    | case3 offset buf hlt =>
      intro hle
      rw [readFrom_done hlt]
      exact Nat.le_antisymm hle (Nat.le_of_not_lt hlt)
  exact hfrom 0 buf (Nat.zero_le _)

theorem read_ok_of_ok (h : ∀ a, e.ok a = true) (adr len : ℕ) (buf : Message) :
    (ecEepromreadLen e adr len buf).ok = true :=
  (read_ok e adr len buf).2 (read_offset_of_ok h adr len buf)

end Reading

/-! ## What is touched -/

/-- The tables of the slave, the string buffer and the local structures. `string` is one row of
`strings`, `pdo` the header of `tmp_pdo` and `entries` its entries. -/
inductive Arr
  | mbxSupportedBuf
  | ecEepromBuf
  | strings
  | string
  | tmpString
  | general
  | tmpFmmu
  | fmmu
  | fmmus
  | tmpSms
  | sm
  | sms
  | pdo
  | entry
  | entries
  | freePdos
  | tmpDc
  | dcs
deriving DecidableEq

/-- Elements of a table, bytes of a structure. -/
def Arr.size : Arr → ℕ
  | .mbxSupportedBuf => 128
  | .ecEepromBuf => 4096
  | .strings => lecMaxEepromCatStrings
  | .string => lecMaxStringLen
  | .tmpString => 65
  | .general => 14
  | .tmpFmmu => 4
  | .fmmu => lecMaxSlaveFmmu
  | .fmmus => lecMaxEepromCatFmmu
  | .tmpSms => 8
  | .sm => lecMaxSlaveSm
  | .sms => lecMaxEepromCatSm
  | .pdo => 8
  | .entry => 8
  | .entries => lecMaxEepromCatPdoEntries
  | .freePdos => lecMaxEepromCatPdo
  | .tmpDc => 24
  | .dcs => lecMaxEepromCatDc

structure Access where
  arr : Arr
  pos : ℕ
  len : ℕ

def Access.Inside (a : Access) : Prop := a.pos + a.len ≤ a.arr.size

/-! ## The slave -/

structure PdoEntry where
  entryIndex : ℕ
  subIndex : UInt8
  entryNameIdx : UInt8
  dataType : UInt8
  bitLen : UInt8
  flags : ℕ

/-- `ec_eeprom_cat_pdo_entry_t` in memory. -/
def PdoEntry.ofBytes (m : Message) : PdoEntry := ⟨u16 m 0, m 2, m 3, m 4, m 5, u16 m 6⟩

structure Pdo where
  pdoIndex : ℕ
  nEntry : UInt8
  smNr : UInt8
  dcSync : UInt8
  nameIdx : UInt8
  flags : ℕ
  entries : ℕ → PdoEntry

structure CatSm where
  adr : ℕ
  len : ℕ
  ctrlReg : UInt8
  statusReg : UInt8
  activate : UInt8
  pdiCtrl : UInt8

/-- `ec_eeprom_cat_sm_t` in memory. -/
def CatSm.ofBytes (m : Message) : CatSm := ⟨u16 m 0, u16 m 2, m 4, m 5, m 6, m 7⟩

/-- The fixed words of the SII. -/
structure Ident where
  vendorId : ℕ
  productCode : ℕ
  revisionNumer : ℕ
  serialNumber : ℕ
  mbxSupported : ℕ
  mbxReceiveOffset : ℕ
  mbxReceiveSize : ℕ
  mbxSendOffset : ℕ
  mbxSendSize : ℕ
  bootMbxReceiveOffset : ℕ
  bootMbxReceiveSize : ℕ
  bootMbxSendOffset : ℕ
  bootMbxSendSize : ℕ

/-- The two PDO queues, which are lists of elements of `free_pdos`. -/
inductive Queue
  | tx
  | rx
deriving DecidableEq

/-- `eeprom_info_t`. `general` and the elements of `dcs` are the bytes of their structures, and
`fmmus` the types. -/
structure EepromInfo where
  readEeprom : Bool
  ident : Ident
  general : Message
  stringsCnt : UInt8
  strings : ℕ → Message
  smsCnt : UInt8
  sms : ℕ → CatSm
  fmmusCnt : UInt8
  fmmus : ℕ → UInt8
  freePdos : ℕ → Pdo
  pdos : Queue → List ℕ
  dcsCnt : UInt8
  dcs : ℕ → Message

/-- The part of `ec_slave_t` that the dump works on; of the FMMUs this is the type. -/
structure Slave where
  smCh : UInt8
  sm : ℕ → EcSlaveSm
  fmmuCh : UInt8
  fmmu : ℕ → UInt8
  eeprom : EepromInfo

/-- A dump on its way: the slave, `ec_eeprom_buf`, which is static, `free_pdo_index`, and what has
been touched. -/
structure Dump where
  slv : Slave
  buf : Message
  freePdoIndex : ℕ
  touched : List Access

def Dump.touch (s : Dump) (as : List Access) : Dump := { s with touched := s.touched ++ as }

def Dump.setSlv (s : Dump) (slv : Slave) : Dump := { s with slv := slv }

def Dump.setEeprom (s : Dump) (eeprom : EepromInfo) : Dump :=
  s.setSlv { s.slv with eeprom := eeprom }

/-! ## Categories -/

/-- A category with the word address of its header, and the 4 bytes of the header. -/
structure Cat where
  offset : ℕ
  value32 : Message

def Cat.type (c : Cat) : ℕ := u16 c.value32 0

/-- The categories that are read: the `EC_EEPROM_CAT_*` with a case of their own in the `switch`.
Of the others nothing is stored. -/
inductive CatKind
  | strings
  | general
  | fmmu
  | sm
  | txpdo
  | rxpdo
  | dc
  | other
deriving DecidableEq

def Cat.kind (c : Cat) : CatKind :=
  match c.type with
  | 10 => .strings
  | 30 => .general
  | 40 => .fmmu
  | 41 => .sm
  | 50 => .txpdo
  | 51 => .rxpdo
  | 60 => .dc
  | _ => .other

def Cat.len (c : Cat) : ℕ := u16 c.value32 2

/-- Where the category ends: the word address of the header behind it. -/
def Cat.fin (c : Cat) : ℕ := c.offset + c.len + 2

/-! ### Strings -/

/-- The bytes before the first NUL, at most `n`. -/
def strnlen (src : Message) (n : ℕ) : ℕ := ((List.range n).takeWhile fun k => src k ≠ 0).length

/-- The bytes of the source that `strncpy` looks at. -/
def strncpyReads (src : Message) (n : ℕ) : ℕ := min n (strnlen src n + 1)

def strncpy (dst src : Message) (n : ℕ) : Message :=
  fun k => if k < n then if k < strnlen src n then src k else 0 else dst k

/-- `string_len` of the string at `off`. -/
def stringLen (buf : Message) (off : ℕ) : ℕ := (buf off).toNat

/-- `read_string_len` of string `i`, which is at `off`. -/
def readStringLen (buf : Message) (i off : ℕ) : ℕ :=
  let n := min (stringLen buf off) (lecMaxStringLen - 1)
  if lecMaxEepromCatStrings ≤ i then min 64 n else n

/-- The strings that the loop comes to, `n` at most: their numbers, and where their length bytes
are. -/
def stringCursors (buf : Message) (catLen : ℕ) : ℕ → ℕ → ℕ → List (ℕ × ℕ)
  | 0, _, _ => []
  | n + 1, i, off =>
    let next := off + 1 + stringLen buf off
    (i, off) :: if 2 * catLen < next then [] else stringCursors buf catLen n (i + 1) next

/-- String `i`, with its length byte at `off`: copied to `strings`, or to `tmp`. -/
def stringPass (s : Dump) (cursor : ℕ × ℕ) : Dump :=
  let (i, off) := cursor
  let n := readStringLen s.buf i off
  let src : Message := fun k => s.buf (off + 1 + k)
  let s := s.touch [⟨.ecEepromBuf, off, 1⟩, ⟨.ecEepromBuf, off + 1, strncpyReads src n⟩]
  if lecMaxEepromCatStrings ≤ i then s.touch [⟨.tmpString, 0, n⟩, ⟨.tmpString, n, 1⟩]
  else
    let row := Function.update (strncpy (s.slv.eeprom.strings i) src n) n 0
    let s := s.touch [⟨.strings, i, 1⟩, ⟨.string, 0, n⟩, ⟨.string, n, 1⟩]
    s.setEeprom
      { s.slv.eeprom with strings := Function.update s.slv.eeprom.strings i row }

/-- The category in the string buffer. -/
def stringsRead (e : Rom) (buf : Message) (c : Cat) : Read :=
  ecEepromreadLen e (c.offset + 2) (2 * c.len) buf

/-- The strings that the loop comes to with the category in the buffer. -/
def stringsOf (buf : Message) (c : Cat) : List (ℕ × ℕ) :=
  stringCursors buf c.len (buf 0).toNat 0 1

/-- What comes before the loop. -/
def stringsBegin (r : Read) (s : Dump) : Dump :=
  let s := s.touch [⟨.ecEepromBuf, 0, r.offset⟩, ⟨.ecEepromBuf, 0, 1⟩]
  { s.setEeprom { s.slv.eeprom with stringsCnt := r.buf 0 } with buf := r.buf }

def catStrings (e : Rom) (s : Dump) (c : Cat) : Dump :=
  let r := stringsRead e s.buf c
  (stringsOf r.buf c).foldl stringPass (stringsBegin r s)

/-! ### General -/

def catGeneral (e : Rom) (s : Dump) (c : Cat) : Dump :=
  let r := ecEepromreadLen e (c.offset + 2) 14 s.slv.eeprom.general
  (s.touch [⟨.general, 0, r.offset⟩]).setEeprom { s.slv.eeprom with general := r.buf }

/-! ### FMMUs -/

/-- The type `t` for the FMMU `fmmuIdx`. -/
def fmmuByte (s : Dump) (fmmuIdx : ℕ) (t : UInt8) : Dump :=
  if fmmuIdx < lecMaxEepromCatFmmu ∧ fmmuIdx < s.slv.fmmuCh.toNat ∧ 1 ≤ t ∧ t ≤ 3 then
    (s.touch [⟨.fmmu, fmmuIdx, 1⟩, ⟨.fmmus, fmmuIdx, 1⟩]).setSlv
      { s.slv with
        fmmu := Function.update s.slv.fmmu fmmuIdx t
        eeprom.fmmus := Function.update s.slv.eeprom.fmmus fmmuIdx t }
  else s

/-- How many bytes of each 4 the inner loop takes. -/
def fmmuBytes (c : Cat) : ℕ := min 4 (2 * c.len)

/-- Pass `k` of the loop, with `value32`, which keeps what it holds when the read fails. -/
def fmmuPass (e : Rom) (c : Cat) (st : Message × Dump) (k : ℕ) : Message × Dump :=
  let value32 := (ecEepromreadLen e (c.offset + 2 + 2 * k) 4 st.1).buf
  (value32, (List.range (fmmuBytes c)).foldl
    (fun s i => fmmuByte (s.touch [⟨.tmpFmmu, i, 1⟩]) (fmmuBytes c * k + i) (value32 i)) st.2)

/-- `fmmus_cnt`, which has 8 bits. -/
def Cat.fmmusCnt (c : Cat) : UInt8 := UInt8.ofNat (2 * c.len)

def catFmmu (e : Rom) (s : Dump) (c : Cat) : Dump :=
  let s := s.setEeprom { s.slv.eeprom with fmmusCnt := c.fmmusCnt }
  if c.fmmusCnt = 0 then s
  else ((List.range ((c.len + 1) / 2)).foldl (fmmuPass e c) (c.value32, s)).2

/-! ### Sync managers -/

/-- Entry `j` of the category, read into `tmp_sms`. -/
def readSm (e : Rom) (c : Cat) (j : ℕ) : Read :=
  let adr := c.offset + 2 + 4 * j
  ecEepromreadLen e adr 8 (e.stack adr)

/-- A sync manager without an address is set. -/
def setSm (s : Dump) (j : ℕ) (tmp : CatSm) : Dump :=
  let s := s.touch [⟨.sm, j, 1⟩]
  if (s.slv.sm j).adr = 0 then
    let sm : EcSlaveSm := ⟨UInt16.ofNat tmp.adr, UInt16.ofNat tmp.len,
      tmp.activate.toUInt32 <<< 16 ||| tmp.ctrlReg.toUInt32⟩
    s.setSlv { s.slv with sm := Function.update s.slv.sm j sm }
  else s

def storeSm (s : Dump) (j : ℕ) (tmp : CatSm) : Dump :=
  if j < lecMaxEepromCatSm then
    (s.touch [⟨.sms, j, 1⟩]).setEeprom
      { s.slv.eeprom with sms := Function.update s.slv.eeprom.sms j tmp }
  else s

def smPass (e : Rom) (c : Cat) (s : Dump) (j : ℕ) : Dump :=
  let r := readSm e c j
  let tmp := CatSm.ofBytes r.buf
  storeSm (setSm (s.touch [⟨.tmpSms, 0, r.offset⟩]) j tmp) j tmp

/-- `sms_cnt`, which has 8 bits. -/
def Cat.smsCnt (c : Cat) : UInt8 := UInt8.ofNat (c.len / 4)

theorem Cat.smsCnt_toNat (c : Cat) : c.smsCnt.toNat = c.len / 4 % 256 := UInt8.toNat_ofNat'

/-- More sync managers than the slave has told: all of them are forgotten. -/
def smReallocate (s : Dump) (c : Cat) : Dump :=
  if s.slv.smCh.toNat < c.len / 4 then
    (s.touch [⟨.sm, 0, c.smsCnt.toNat⟩]).setSlv
      { s.slv with
        smCh := c.smsCnt
        sm := fun j => if j < c.smsCnt.toNat then ⟨0, 0, 0⟩ else s.slv.sm j }
  else s

def catSm (e : Rom) (s : Dump) (c : Cat) : Dump :=
  let s := s.setEeprom { s.slv.eeprom with smsCnt := c.smsCnt }
  if c.smsCnt = 0 then s
  else (List.range ((c.len + 3) / 4)).foldl (smPass e c) (smReallocate s c)

/-! ### PDOs -/

/-- The header of the PDO at `adr`, read into `tmp_pdo`, which is zero. -/
def pdoHeader (e : Rom) (adr : ℕ) : Message := (ecEepromreadLen e adr 8 fun _ => 0).buf

/-- `n_entry` of the PDO at `adr`. -/
def nEntry (e : Rom) (adr : ℕ) : ℕ := (pdoHeader e adr 2).toNat

/-- Entry `j` of the PDO at `adr`. -/
def readEntry (e : Rom) (adr j : ℕ) : Read :=
  ecEepromreadLen e (adr + 4 + 4 * j) 8 (e.stack (adr + 4 + 4 * j))

/-- `tmp_pdo` when the PDO at `adr` has been read. -/
def tmpPdo (e : Rom) (adr : ℕ) : Pdo :=
  let m := pdoHeader e adr
  ⟨u16 m 0, m 2, m 3, m 4, m 5, u16 m 6, fun j =>
    if j < nEntry e adr ∧ j < lecMaxEepromCatPdoEntries then
      PdoEntry.ofBytes (readEntry e adr j).buf
    else ⟨0, 0, 0, 0, 0, 0⟩⟩

/-- What is touched while the PDO at `adr` is read. -/
def pdoTouches (e : Rom) (adr : ℕ) : List Access :=
  ⟨.pdo, 0, (ecEepromreadLen e adr 8 fun _ => 0).offset⟩ ::
    (List.range (nEntry e adr)).flatMap fun j =>
      ⟨.entry, 0, (readEntry e adr j).offset⟩ ::
        if j < lecMaxEepromCatPdoEntries then [⟨.entries, j, 1⟩] else []

/-- The element of `free_pdos` that comes next, if `free_pdo_index` still allows one. -/
def storePdo (q : Queue) (s : Dump) (pdo : Pdo) : Dump :=
  if s.freePdoIndex < lecMaxEepromCatPdoEntries then
    let i := s.freePdoIndex
    let s := s.setEeprom
      { s.slv.eeprom with
        freePdos := Function.update s.slv.eeprom.freePdos i pdo
        pdos := Function.update s.slv.eeprom.pdos q (s.slv.eeprom.pdos q ++ [i]) }
    { s.touch [⟨.freePdos, i, 1⟩] with freePdoIndex := i + 1 }
  else s

/-- The addresses at which the `do`-loop reads a PDO. -/
def pdoAddrs (e : Rom) (fin adr : ℕ) : List ℕ :=
  let next := adr + 4 + 4 * nEntry e adr
  adr :: if next < fin then pdoAddrs e fin next else []
termination_by fin - adr

def catPdo (q : Queue) (e : Rom) (s : Dump) (c : Cat) : Dump :=
  if c.len = 0 then s
  else
    let s := s.setEeprom
      { s.slv.eeprom with pdos := Function.update s.slv.eeprom.pdos q [] }
    (pdoAddrs e c.fin (c.offset + 2)).foldl
      (fun s adr => storePdo q (s.touch (pdoTouches e adr)) (tmpPdo e adr)) s

def catTxpdo : Rom → Dump → Cat → Dump := catPdo .tx

def catRxpdo : Rom → Dump → Cat → Dump := catPdo .rx

/-! ### Distributed clocks -/

/-- `EC_EEPROM_CAT_DC_LEN` -/
def ecEepromCatDcLen : ℕ := 25

/-- Setting `j` of the category, read into `tmp_dc`. -/
def readDc (e : Rom) (c : Cat) (j : ℕ) : Read :=
  let adr := c.offset + 2 + ecEepromCatDcLen / 2 * j
  ecEepromreadLen e adr ecEepromCatDcLen (e.stack adr)

def dcPass (e : Rom) (c : Cat) (s : Dump) (j : ℕ) : Dump :=
  let r := readDc e c j
  let s := s.touch [⟨.tmpDc, 0, r.offset⟩]
  if j < lecMaxEepromCatDc then
    (s.touch [⟨.dcs, j, 1⟩]).setEeprom
      { s.slv.eeprom with dcs := Function.update s.slv.eeprom.dcs j r.buf }
  else s

/-- `dcs_cnt`, a local of 8 bits. -/
def Cat.dcsCnt (c : Cat) : ℕ := c.len / (ecEepromCatDcLen / 2) % 256

def catDc (e : Rom) (s : Dump) (c : Cat) : Dump :=
  let s := s.setEeprom
    { s.slv.eeprom with dcsCnt := UInt8.ofNat (min c.dcsCnt lecMaxEepromCatDc) }
  (List.range c.dcsCnt).foldl (dcPass e c) s

/-! ## The dump -/

/-- The `switch` on `cat_type`. -/
def category (e : Rom) (s : Dump) (c : Cat) : Dump :=
  match c.kind with
  | .strings => catStrings e s c
  | .general => catGeneral e s c
  | .fmmu => catFmmu e s c
  | .sm => catSm e s c
  | .txpdo => catTxpdo e s c
  | .rxpdo => catRxpdo e s c
  | .dc => catDc e s c
  | .other => s

def ecEepromCatEnd : ℕ := 0xFFFF

/-- The category with its header at `offset`. -/
def catAt (e : Rom) (offset : ℕ) : Cat := ⟨offset, (ecEepromreadLen e offset 4 fun _ => 0).buf⟩

/-- The categories that the walk comes to from the header at `offset` on. -/
def categoriesFrom (e : Rom) (size offset : ℕ) : List Cat :=
  if (ecEepromreadLen e offset 4 fun _ => 0).ok then
    let next := offset + (catAt e offset).len + 2
    catAt e offset ::
      if 2 * next < size ∧ (catAt e offset).type ≠ ecEepromCatEnd then categoriesFrom e size next
      else []
  else []
termination_by size - 2 * offset

/-- A fixed word of 4 or 2 bytes, which is read in one piece or not at all. -/
def read32 (e : Rom) (adr v : ℕ) : ℕ :=
  let r := ecEepromreadLen e adr 4 fun _ => 0
  if r.ok then u32 r.buf 0 else v

def read16 (e : Rom) (adr v : ℕ) : ℕ :=
  let r := ecEepromreadLen e adr 2 fun _ => 0
  if r.ok then u16 r.buf 0 else v

def readIdent (e : Rom) (i : Ident) : Ident where
  vendorId := read32 e 0x0008 i.vendorId
  productCode := read32 e 0x000A i.productCode
  revisionNumer := read32 e 0x000C i.revisionNumer
  serialNumber := read32 e 0x000E i.serialNumber
  mbxSupported := read16 e 0x001C i.mbxSupported
  mbxReceiveOffset := read16 e 0x0018 i.mbxReceiveOffset
  mbxReceiveSize := read16 e 0x0019 i.mbxReceiveSize
  mbxSendOffset := read16 e 0x001A i.mbxSendOffset
  mbxSendSize := read16 e 0x001B i.mbxSendSize
  bootMbxReceiveOffset := read16 e 0x0014 i.bootMbxReceiveOffset
  bootMbxReceiveSize := read16 e 0x0015 i.bootMbxReceiveSize
  bootMbxSendOffset := read16 e 0x0016 i.bootMbxSendOffset
  bootMbxSendSize := read16 e 0x0017 i.bootMbxSendSize

/-- `size`, which has 16 bits. -/
def eepromSize (e : Rom) : ℕ := (read32 e 0x003E 0 % 2 ^ 16 + 1) * 128 % 2 ^ 16

/-- All categories of the EEPROM that the dump comes to. -/
def categories (e : Rom) : List Cat :=
  if 128 < eepromSize e then categoriesFrom e (eepromSize e) 0x0040 else []

/-- `ADD_MBX_SUPP_TEXT`: one of the texts, which have 3 characters each, with a comma and a blank
before it unless it is the first, and a NUL. -/
def addMbxSuppText (supported : ℕ) (st : ℕ × Dump) (flag : ℕ) : ℕ × Dump :=
  if supported &&& flag ≠ 0 then
    let n := if st.1 = 0 then 3 else 5
    (st.1 + n, st.2.touch [⟨.mbxSupportedBuf, st.1, min (n + 1) (128 - st.1)⟩])
  else st

def mbxSupportedText (supported : ℕ) (s : Dump) : Dump :=
  ([0x01, 0x02, 0x04, 0x08, 0x10, 0x20].foldl (addMbxSuppText supported) (0, s)).2

def ecEepromDump (e : Rom) (buf : Message) (slv : Slave) : Dump :=
  if slv.eeprom.readEeprom then ⟨slv, buf, 0, []⟩
  else
    let ident := readIdent e slv.eeprom.ident
    let slv := { slv with eeprom.ident := ident, eeprom.readEeprom := true }
    (categories e).foldl (category e) (mbxSupportedText ident.mbxSupported ⟨slv, buf, 0, []⟩)

section Readable

variable {e : Rom} (h : ∀ a, e.ok a = true)
include h

theorem read_buf_of_ok {adr len k : ℕ} (buf : Message) (hk : k < len) :
    (ecEepromreadLen e adr len buf).buf k = e.byte (2 * adr + k) := by
  rw [read_buf, read_offset_of_ok h, if_pos hk]

theorem catAt_value32 (offset : ℕ) {k : ℕ} (hk : k < 4) :
    (catAt e offset).value32 k = e.byte (2 * offset + k) := read_buf_of_ok h _ hk

theorem catAt_type (offset : ℕ) : (catAt e offset).type = u16 e.byte (2 * offset) := by
  rw [Cat.type, u16, catAt_value32 h _ (by decide), catAt_value32 h _ (by decide)]
  rfl

theorem catAt_len (offset : ℕ) : (catAt e offset).len = u16 e.byte (2 * offset + 2) := by
  rw [Cat.len, u16, catAt_value32 h _ (by decide), catAt_value32 h _ (by decide)]
  rfl

theorem read32_of_ok (adr v : ℕ) : read32 e adr v = u32 e.byte (2 * adr) := by
  unfold read32
  simp only [read_ok_of_ok h, if_true, u32, u16]
  rw [read_buf_of_ok h _ (by decide), read_buf_of_ok h _ (by decide),
    read_buf_of_ok h _ (by decide), read_buf_of_ok h _ (by decide)]
  rfl

/-- The first category of an EEPROM of more than 128 bytes is at the start of the categories. -/
theorem categories_head (hsize : 128 < eepromSize e) :
    ∃ cats, categories e = catAt e 0x0040 :: cats := by
  rw [categories, if_pos hsize, categoriesFrom, if_pos (read_ok_of_ok h _ _ _)]
  exact ⟨_, rfl⟩

end Readable

/-! ## The INIT transition -/

/-- A slave as `ec_scan` leaves it. -/
def zeroSlave : Slave where
  smCh := 0
  sm _ := ⟨0, 0, 0⟩
  fmmuCh := 0
  fmmu _ := 0
  eeprom := {
    readEeprom := false
    ident := ⟨0, 0, 0, 0, 0, 0, 0, 0, 0, 0, 0, 0, 0⟩
    general _ := 0
    stringsCnt := 0
    strings _ _ := 0
    smsCnt := 0
    sms _ := ⟨0, 0, 0, 0, 0, 0⟩
    fmmusCnt := 0
    fmmus _ := 0
    freePdos _ := ⟨0, 0, 0, 0, 0, 0, fun _ => ⟨0, 0, 0, 0, 0, 0⟩⟩
    pdos _ := []
    dcsCnt := 0
    dcs _ _ := 0 }

/-- A number of channels: the byte that the slave answers with, or what was there before, and no
more than the table has. -/
def channels (answer : Option UInt8) (old : UInt8) (max : ℕ) : UInt8 :=
  if max < (answer.getD old).toNat then UInt8.ofNat max else answer.getD old

/-- The slave before the dump, with the answers to `EC_REG_SM_CH` and `EC_REG_FMMU_CH`. -/
def Slave.preset (slv : Slave) (smCh fmmuCh : Option UInt8) : Slave :=
  { slv with
    smCh := channels smCh slv.smCh lecMaxSlaveSm
    fmmuCh := channels fmmuCh slv.fmmuCh lecMaxSlaveFmmu
    eeprom.readEeprom := false }

/-- `BOOT_2_INIT` and `INIT_2_INIT` as far as the dump. -/
def initTransition (e : Rom) (buf : Message) (slv : Slave) (smCh fmmuCh : Option UInt8) : Dump :=
  ecEepromDump e buf (slv.preset smCh fmmuCh)

end LibEthercat.Sii
