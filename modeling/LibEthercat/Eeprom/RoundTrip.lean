import LibEthercat.Eeprom.Device
import LibEthercat.Eeprom.WriteEnds

/-!
# Writing a buffer and reading it back

**Theorem (`round_trip_iff`).** On a slave whose EEPROM accepts all commands, `ec_eepromwrite_len`
followed by `ec_eepromread_len` gives the buffer back if and only if its length is even, or its
last byte is in the EEPROM already (`Recoverable`). Neither function leaves its buffer, and no
other words of the EEPROM change.

Writing goes word by word up to `buflen / 2`, so it drops the last byte of an odd length, which
`ec_eepromread_len` reads. (Buffers of more than `2 ^ 32` words come to the same address again.)
-/

namespace LibEthercat.Eeprom

variable {σ ε : Type} {pec : Ec σ} {slave : ℕ} {eepadr a : BitVec 32} {w : World σ}
  {mem : BitVec 32 → BitVec 16} {buf : List (BitVec 8)} {i j k : ℕ}

/-! ## The words of the EEPROM -/

/-- The EEPROM after `k` words of the buffer. -/
def burnt (mem : BitVec 32 → BitVec 16) (eepadr : BitVec 32) (buf : List (BitVec 8)) :
    ℕ → BitVec 32 → BitVec 16
  | 0 => mem
  | k + 1 => Function.update (burnt mem eepadr buf k) (eepadr + BitVec.ofNat 32 k) (wordAt buf k)

/-- Byte `j` from the address on. -/
def readByte (mem : BitVec 32 → BitVec 16) (eepadr : BitVec 32) (j : ℕ) : BitVec 8 :=
  (mem (eepadr + BitVec.ofNat 32 (j / 2))).extractLsb' (8 * (j % 2)) 8

theorem address_eq_iff : eepadr + BitVec.ofNat 32 i = eepadr + BitVec.ofNat 32 j ↔
    i % 2 ^ 32 = j % 2 ^ 32 := by
  rw [BitVec.add_right_inj, ← BitVec.toNat_inj, BitVec.toNat_ofNat, BitVec.toNat_ofNat]

theorem burnt_of_ne (h : ∀ i < k, a ≠ eepadr + BitVec.ofNat 32 i) :
    burnt mem eepadr buf k a = mem a := by
  induction k with
  | zero => rfl
  | succ k ih =>
    rw [burnt, Function.update_of_ne (h k (Nat.lt_succ_self k))]
    exact ih fun i hi => h i (Nat.lt_succ_of_lt hi)

/-- Words of the buffer that come to the same address are the same. -/
def Consistent (buf : List (BitVec 8)) (k : ℕ) : Prop :=
  ∀ i < k, ∀ j < k, i % 2 ^ 32 = j % 2 ^ 32 → wordAt buf i = wordAt buf j

theorem burnt_eq (h : Consistent buf k) (hi : i < k) :
    burnt mem eepadr buf k (eepadr + BitVec.ofNat 32 i) = wordAt buf i := by
  induction k with
  | zero => cases hi
  | succ k ih =>
    by_cases hik : i % 2 ^ 32 = k % 2 ^ 32
    · rw [burnt, address_eq_iff.2 hik, Function.update_self]
      exact h k (Nat.lt_succ_self k) i hi hik.symm
    · rw [burnt, Function.update_of_ne (mt address_eq_iff.1 hik)]
      refine ih (fun i hi j hj => h i (Nat.lt_succ_of_lt hi) j (Nat.lt_succ_of_lt hj)) ?_
      exact Nat.lt_of_le_of_ne (Nat.le_of_lt_succ hi) fun heq => hik (heq ▸ rfl)

/-- What is read from the word behind the last one that has been written. -/
def wordBehind (mem : BitVec 32 → BitVec 16) (eepadr : BitVec 32) (buf : List (BitVec 8)) (k : ℕ) :
    BitVec 16 :=
  if k < 2 ^ 32 then mem (eepadr + BitVec.ofNat 32 k) else wordAt buf (k - 2 ^ 32)

theorem burnt_behind (h : Consistent buf k) :
    burnt mem eepadr buf k (eepadr + BitVec.ofNat 32 k) = wordBehind mem eepadr buf k := by
  by_cases hk : k < 2 ^ 32
  · rw [wordBehind, if_pos hk]
    refine burnt_of_ne fun i hi heq => ?_
    have hmod := address_eq_iff.1 heq
    rw [Nat.mod_eq_of_lt hk, Nat.mod_eq_of_lt (hi.trans hk)] at hmod
    exact absurd hmod.symm hi.ne
  · rw [wordBehind, if_neg hk]
    have hmod : k % 2 ^ 32 = (k - 2 ^ 32) % 2 ^ 32 := Nat.mod_eq_sub_mod (Nat.le_of_not_lt hk)
    rw [address_eq_iff.2 hmod]
    exact burnt_eq h (by omega)

/-- No word is overwritten with another one, and the last byte of an odd length is in the EEPROM
already. -/
structure Recoverable (mem : BitVec 32 → BitVec 16) (eepadr : BitVec 32) (buf : List (BitVec 8)) :
    Prop where
  consistent : Consistent buf (buf.length / 2)
  last : buf.length % 2 = 1 → buf.getD (buf.length - 1) 0#8 =
    (wordBehind mem eepadr buf (buf.length / 2)).extractLsb' 0 8

theorem readByte_low (mem : BitVec 32 → BitVec 16) (eepadr : BitVec 32) (i : ℕ) :
    readByte mem eepadr (i * 2) = (mem (eepadr + BitVec.ofNat 32 i)).extractLsb' 0 8 := by
  rw [readByte, Nat.mul_div_cancel _ (by decide), Nat.mul_mod_left]

theorem readByte_high (mem : BitVec 32 → BitVec 16) (eepadr : BitVec 32) (i : ℕ) :
    readByte mem eepadr (i * 2 + 1) = (mem (eepadr + BitVec.ofNat 32 i)).extractLsb' 8 8 := by
  rw [readByte, show (i * 2 + 1) / 2 = i by omega, show (i * 2 + 1) % 2 = 1 by omega]

/-- A byte of a word that has been written. -/
theorem readByte_burnt (h : Consistent buf k) (hj : j / 2 < k) :
    readByte (burnt mem eepadr buf k) eepadr j = buf.getD j 0#8 := by
  rw [readByte, burnt_eq h hj, wordAt]
  rcases Nat.mod_two_eq_zero_or_one j with heven | hodd
  · rw [heven, BitVec.extractLsb'_append_eq_right,
      Nat.div_mul_cancel (Nat.dvd_of_mod_eq_zero heven)]
  · rw [hodd, BitVec.extractLsb'_append_eq_left, show j / 2 * 2 + 1 = j by omega]

/-- **When the bytes of the EEPROM are those of the buffer.** -/
theorem bytes_eq_iff : (∀ j < buf.length,
      buf.getD j 0#8 = readByte (burnt mem eepadr buf (buf.length / 2)) eepadr j) ↔
    Recoverable mem eepadr buf := by
  constructor
  · intro h
    have hword : ∀ i < buf.length / 2, wordAt buf i =
        burnt mem eepadr buf (buf.length / 2) (eepadr + BitVec.ofNat 32 i) := by
      intro i hi
      rw [wordAt, h (i * 2 + 1) (by omega), h (i * 2) (by omega), readByte_low, readByte_high]
      exact BitVec.extractLsb'_append_extractLsb'
    have hcons : Consistent buf (buf.length / 2) := by
      intro i hi j hj hmod
      rw [hword i hi, hword j hj, address_eq_iff.2 hmod]
    refine ⟨hcons, fun hodd => ?_⟩
    rw [h _ (by omega), show buf.length - 1 = buf.length / 2 * 2 by omega, readByte_low,
      burnt_behind hcons]
  · intro h j hj
    by_cases hlt : j / 2 < buf.length / 2
    · exact (readByte_burnt h.consistent hlt).symm
    · have hlast : j = buf.length - 1 := by omega
      rw [hlast, h.last (by omega), show buf.length - 1 = buf.length / 2 * 2 by omega, readByte_low,
        burnt_behind h.consistent]

/-! ## Writing the buffer -/

theorem Device.writeWord (D : Device pec slave) (hticks : pec.Ticks) (eepadr : BitVec 32) :
    (Eeprom.writeWord pec slave eepadr : Prog _ ε _).Total w fun r t => r = .ok () ∧ D.idle t.env ∧
      (D.regs t.env).mem = Function.update (D.regs w.env).mem eepadr w.data := by
  obtain ⟨r, t, hends, rfl, hrest⟩ := D.eepromwrite hticks eepadr w
  exact ⟨.ok (), t, Prog.ends_untilOk.2 ⟨w, (), .refl, hends, rfl⟩, rfl, hrest⟩

theorem Device.eepromwriteLen (D : Device pec slave) (hticks : pec.Ticks) (eepadr : BitVec 32)
    (buf : List (BitVec 8)) (hidle : D.idle w.env) :
    (ecEepromwriteLen pec slave eepadr buf buf.length).Total w fun r t => r = .ok .ok ∧
      D.idle t.env ∧ (D.regs t.env).mem = burnt (D.regs w.env).mem eepadr buf (buf.length / 2) := by
  rw [eepromwriteLen_eq buf D.found]
  refine Prog.total_loop (I := fun i t => i ≤ buf.length / 2 ∧ D.idle t.env ∧
    (D.regs t.env).mem = burnt (D.regs w.env).mem eepadr buf i) (fun i _ => buf.length / 2 - i)
    (fun i t h => ?_) ⟨Nat.zero_le _, hidle, rfl⟩
  obtain ⟨hi, hidle, hmem⟩ := h
  refine Prog.total_ite (fun hlt => ?_) fun hend => Prog.total_ret.2 ⟨rfl, hidle, ?_⟩
  · refine Prog.total_bind.2 (Prog.total_act.2 (Prog.total_bind.2 ?_))
    refine (D.writeWord hticks (eepadr + BitVec.ofNat 32 i)).imp fun r u h => ?_
    obtain ⟨rfl, hidle', hmem'⟩ := h
    refine Prog.total_ret.2 ⟨⟨hlt, hidle', ?_⟩, by omega⟩
    rw [hmem', hmem]
    rfl
  · rw [hmem, Nat.le_antisymm hi (Nat.le_of_not_lt hend)]

/-! ## Reading the buffer -/

theorem getD_set (l : List (BitVec 8)) (b : BitVec 8) (hi : i < l.length) (j : ℕ) :
    (l.set i b).getD j 0#8 = if j = i then b else l.getD j 0#8 := by
  rw [List.getD_eq_getElem?_getD, List.getD_eq_getElem?_getD, List.getElem?_set]
  by_cases hij : i = j
  · rw [if_pos hij, if_pos hi, if_pos hij.symm]
    rfl
  · rw [if_neg hij, if_neg (Ne.symm hij)]

/-- The inner loop copies the bytes of the value from `4 - left` on, up to the end of the buffer. -/
theorem copyOut_total (val : BitVec 32) {n left offset : ℕ} {buf : List (BitVec 8)}
    (hlen : buf.length = n) (hleft : left ≤ 4) (hoffset : offset ≤ n) (w : World σ) :
    (copyOut val n left offset buf).Total w fun r t => t = w ∧
      ∃ buf', r = .ok (buf', min (offset + left) n) ∧ buf'.length = n ∧
        ∀ j, buf'.getD j 0#8 = if offset ≤ j ∧ j < min (offset + left) n then
          val.extractLsb' (8 * (4 - left + (j - offset))) 8 else buf.getD j 0#8 := by
  induction left generalizing offset buf with
  | zero =>
    refine Prog.total_ret.2 ⟨rfl, buf, ?_, hlen, fun j => ?_⟩
    · rw [Nat.add_zero, Nat.min_eq_left hoffset]
    · rw [if_neg (by omega)]
  | succ left ih =>
    refine Prog.total_ite (fun hlt => ?_)
      fun hend => Prog.total_ret.2 ⟨rfl, buf, ?_, hlen, fun j => ?_⟩
    · rw [Prog.bind_eq, store, if_pos (by omega), Prog.ret_bind]
      refine (ih (by rw [List.length_set, hlen]) (by omega) hlt).imp fun r t h => ?_
      obtain ⟨rfl, buf', rfl, hlen', hbuf'⟩ := h
      have hmin : min (offset + 1 + left) n = min (offset + (left + 1)) n := by omega
      refine ⟨rfl, buf', by rw [hmin], hlen', fun j => ?_⟩
      rw [hbuf', getD_set _ _ (by omega), hmin]
      by_cases hj : j = offset
      · subst hj
        have hbyte : 3 - left = 4 - (left + 1) + (j - j) := by omega
        rw [if_neg (by omega), if_pos rfl, if_pos (by omega), hbyte]
      · by_cases hin : offset ≤ j ∧ j < min (offset + (left + 1)) n
        · rw [if_pos (by omega), if_pos hin, show 4 - left + (j - (offset + 1)) =
            4 - (left + 1) + (j - offset) by omega]
        · rw [if_neg (by omega), if_neg hj, if_neg hin]
    · rw [Nat.min_eq_right (by omega), Nat.le_antisymm hoffset (Nat.le_of_not_lt hend)]
    · rw [if_neg (by omega)]

/-- The bytes of two words. -/
theorem extract_two_words (mem : BitVec 32 → BitVec 16) (eepadr : BitVec 32) {offset : ℕ}
    (hoffset : offset % 4 = 0) (hi : i < 4) :
    (mem (eepadr + BitVec.ofNat 32 (offset / 2) + 1#32) ++
      mem (eepadr + BitVec.ofNat 32 (offset / 2))).extractLsb' (8 * i) 8 =
    readByte mem eepadr (offset + i) := by
  rw [readByte]
  by_cases hlow : i < 2
  · rw [BitVec.extractLsb'_append_eq_of_add_le (by omega),
      show (offset + i) / 2 = offset / 2 by omega, show (offset + i) % 2 = i by omega]
  · rw [BitVec.extractLsb'_append_eq_of_le (by omega),
      show (offset + i) / 2 = offset / 2 + 1 by omega,
      show 8 * i - 16 = 8 * ((offset + i) % 2) by omega, BitVec.ofNat_add, BitVec.add_assoc]

theorem Device.eepromreadLen (D : Device pec slave) (hticks : pec.Ticks) (eepadr : BitVec 32)
    (buf : List (BitVec 8)) (hidle : D.idle w.env) :
    (ecEepromreadLen pec slave eepadr buf buf.length).Total w fun r t =>
      (∃ buf', r = .ok (.ok, buf') ∧ buf'.length = buf.length ∧
        ∀ j < buf.length, buf'.getD j 0#8 = readByte (D.regs w.env).mem eepadr j) ∧
      (D.regs t.env).mem = (D.regs w.env).mem := by
  rw [ecEepromreadLen, if_neg (Nat.not_le.2 D.found)]
  refine Prog.total_loop (I := fun x t => x.1.length = buf.length ∧ x.2 ≤ buf.length ∧
    (x.2 < buf.length → x.2 % 4 = 0) ∧ D.idle t.env ∧ (D.regs t.env).mem = (D.regs w.env).mem ∧
    ∀ j < x.2, x.1.getD j 0#8 = readByte (D.regs w.env).mem eepadr j)
    (fun x _ => buf.length - x.2) ?_ ⟨rfl, Nat.zero_le _, fun _ => rfl, hidle, rfl, nofun⟩
  rintro ⟨b, offset⟩ t ⟨hlen, hoffset, hfour, hidle, hmem, hbytes⟩
  refine Prog.total_ite (fun hlt => ?_) fun hend => Prog.total_ret.2 ⟨⟨b, rfl, hlen, ?_⟩, hmem⟩
  · have hread := D.eepromread hticks (eepadr + BitVec.ofNat 32 (offset / 2)) hidle
    refine Prog.total_bind.2 (Prog.total_attempt.2 (hread.imp fun r u h => ?_))
    obtain ⟨rfl, hidle', hmem', -⟩ := h
    refine Prog.total_bind.2 ((copyOut_total _ hlen (by decide) hoffset u).imp fun r v h => ?_)
    obtain ⟨rfl, b', rfl, hlen', hb'⟩ := h
    refine Prog.total_ret.2 ⟨⟨hlen', Nat.min_le_right .., ?_, hidle', hmem'.trans hmem, ?_⟩, ?_⟩
    · have hmod := hfour hlt
      intro hmin
      omega
    · intro j hj
      show b'.getD j 0#8 = _
      rw [hb']
      by_cases hold : offset ≤ j
      · have hin : j - offset < 4 := by omega
        rw [if_pos ⟨hold, hj⟩, show 4 - 4 + (j - offset) = j - offset by omega,
          extract_two_words _ _ (hfour hlt) hin, hmem, Nat.add_sub_cancel' hold]
      · rw [if_neg fun h => hold h.1]
        exact hbytes j (by omega)
    · show buf.length - min (offset + 4) buf.length < buf.length - offset
      omega
  · exact fun j hj => hbytes j (by omega)

theorem eq_of_bytes {b buf : List (BitVec 8)} (hlen : b.length = buf.length)
    (h : ∀ j < buf.length, b.getD j 0#8 = buf.getD j 0#8) : b = buf := by
  refine List.ext_getElem hlen fun j hb hbuf => ?_
  have hj := h j hbuf
  rwa [List.getD_eq_getElem?_getD, List.getD_eq_getElem?_getD, List.getElem?_eq_getElem hb,
    List.getElem?_eq_getElem hbuf] at hj

/-- Writing the buffer, and reading into another one of this length: this gives the buffer back, and
all other words stay as they are. Neither function leaves its buffer, or it would not return
(`Fault.outside`). -/
def RoundTrip (D : Device pec slave) (eepadr : BitVec 32) (buf buf₀ : List (BitVec 8))
    (w : World σ) : Prop :=
  (ecEepromwriteLen pec slave eepadr buf buf.length).Total w fun r t => r = .ok .ok ∧
    (∀ a, (∀ i < buf.length / 2, a ≠ eepadr + BitVec.ofNat 32 i) →
      (D.regs t.env).mem a = (D.regs w.env).mem a) ∧
    (ecEepromreadLen pec slave eepadr buf₀ buf.length).Total t fun r u => r = .ok (.ok, buf) ∧
      (D.regs u.env).mem = (D.regs t.env).mem

/-- **When a buffer is read back.** -/
theorem round_trip_iff (D : Device pec slave) (hticks : pec.Ticks) (hidle : D.idle w.env)
    (eepadr : BitVec 32) {buf buf₀ : List (BitVec 8)} (hlen : buf₀.length = buf.length) :
    RoundTrip D eepadr buf buf₀ w ↔ Recoverable (D.regs w.env).mem eepadr buf := by
  rw [← bytes_eq_iff]
  have hwrite := D.eepromwriteLen hticks eepadr buf hidle
  constructor
  · rintro ⟨r, t, hends, -, -, r', u, hends', rfl, -⟩ j hj
    obtain ⟨-, hidle', hmem⟩ := hwrite.post r t hends
    have hread := D.eepromreadLen hticks eepadr buf₀ hidle'
    rw [hlen] at hread
    obtain ⟨⟨b, hb, -, hbytes⟩, -⟩ := hread.post _ _ hends'
    cases hb
    rw [hbytes j hj, hmem]
  · intro h
    refine hwrite.imp fun r t ht => ?_
    obtain ⟨rfl, hidle', hmem⟩ := ht
    refine ⟨rfl, fun a ha => by rw [hmem]; exact burnt_of_ne ha, ?_⟩
    have hread := D.eepromreadLen hticks eepadr buf₀ hidle'
    rw [hlen] at hread
    refine hread.imp fun r u hu => ?_
    obtain ⟨⟨b, rfl, hb, hbytes⟩, hmem'⟩ := hu
    have heq : b = buf := eq_of_bytes hb fun j hj => by rw [hbytes j hj, hmem, h j hj]
    exact ⟨by rw [heq], hmem'⟩

/-! ## A slave that is never busy -/

/-- What a datagram changes, if each command is done at once. -/
def Regs.takes (x : Regs) (q : Request) : Regs :=
  if q.cmd = .fprd then x
  else if q.ado = regEepadr then { x with adr := q.data }
  else if q.ado = regEepdat then { x with dat := q.data.setWidth 16 }
  else if q.ado = regEepctl ∧ q.data = 0x0100#32 then x.load
  else if q.ado = regEepctl ∧ q.data = 0x0201#32 then x.program
  else x

/-- One slave, which has given the EEPROM to ECAT, and is never busy. -/
def neverBusy : Ec (ℕ × Regs) where
  slaveCnt := 1
  fixedAddress := fun _ => 1001#16
  send := fun q s => (.answer 1 (if q.cmd = .fpwr then q.data
    else if q.ado = regEepdat then s.2.out else 0#32), s.1 + 1, s.2.takes q)
  sleep := fun ns s => (s.1 + ns, s.2)
  now := Prod.fst

theorem neverBusy_ticks : neverBusy.Ticks :=
  ⟨fun _ s => Nat.lt_succ_self s.1, fun ns s => Nat.le_add_right s.1 ns⟩

def neverBusyDevice : Device neverBusy 0 where
  regs := Prod.snd
  own := fun _ => True
  idle := fun _ => True
  found := by decide
  quick := fun _ s => Nat.add_le_add_left (by decide : 1 ≤ 100000000) s.1
  readCfg := fun s v => ⟨0#32, (s.1 + 1, s.2), rfl, rfl, id, fun _ => trivial, fun _ => by decide⟩
  writeCfg := fun s v => ⟨v.setWidth 32, (s.1 + 1, s.2), rfl, rfl, id, fun _ => trivial⟩
  status := fun s _ => ⟨0#32, (s.1 + 1, s.2), rfl, rfl, trivial, fun _ => rfl,
    fun _ => ⟨trivial, rfl⟩⟩
  completes := fun s _ => ⟨0, fun h => absurd h (by show ¬ s.1 + 100000000 < s.1 + 1; omega), 0#32,
    rfl, rfl⟩
  address := fun s v _ _ => ⟨_, (s.1 + 1, { s.2 with adr := v }), by
    show (Reply.answer 1 (v.setWidth 32), s.1 + 1, { s.2 with adr := v.setWidth 32 }) = _
    rw [BitVec.setWidth_eq], rfl, trivial, trivial⟩
  data := fun s v _ _ => ⟨_, (s.1 + 1, { s.2 with dat := v }), by
    show (Reply.answer 1 (v.setWidth 32), s.1 + 1,
      { s.2 with dat := (v.setWidth 32).setWidth 16 }) = _
    rw [BitVec.setWidth_setWidth_of_le _ (by decide), BitVec.setWidth_eq], rfl, trivial, trivial⟩
  readCommand := fun s _ _ => ⟨_, (s.1 + 1, s.2.load), rfl, rfl, trivial⟩
  writeCommand := fun s _ _ => ⟨_, (s.1 + 1, s.2.program), rfl, rfl, trivial⟩
  readData := fun s _ _ => ⟨(s.1 + 1, s.2), rfl, rfl, trivial, trivial⟩

/-- An EEPROM with zeros everywhere. -/
def zeros : World (ℕ × Regs) := ⟨(0, ⟨fun _ => 0#16, 0#32, 0#16, 0#32⟩), [], 0#16⟩

theorem round_trip_neverBusy :
    RoundTrip neverBusyDevice 16#32 [1#8, 2#8, 3#8, 4#8] [0#8, 0#8, 0#8, 0#8] zeros ↔
      Recoverable (fun _ => 0#16) 16#32 [1#8, 2#8, 3#8, 4#8] :=
  round_trip_iff neverBusyDevice neverBusy_ticks trivial 16#32 rfl

/-- A single byte is not written. -/
theorem not_round_trip_neverBusy : ¬ RoundTrip neverBusyDevice 16#32 [1#8] [0#8] zeros := by
  rintro ⟨r, t, hends, -, -, r', u, hends', rfl, -⟩
  have hidle : neverBusyDevice.idle zeros.env := trivial
  have hwrite := neverBusyDevice.eepromwriteLen neverBusy_ticks 16#32 [1#8] hidle
  obtain ⟨-, hidle', hmem⟩ := hwrite.post r t hends
  have hread := neverBusyDevice.eepromreadLen neverBusy_ticks 16#32 [0#8] hidle'
  obtain ⟨⟨b, hb, -, hbytes⟩, -⟩ := hread.post _ _ hends'
  cases hb
  have hbyte := hbytes 0 (by decide)
  rw [hmem] at hbyte
  exact absurd hbyte (by decide)

end LibEthercat.Eeprom
