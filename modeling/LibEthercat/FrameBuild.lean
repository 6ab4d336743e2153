import Mathlib.Data.List.Induction
import LibEthercat.Datagram

/-!
# Building a frame

`ec_frame_init`, `ec_frame_add_datagram_phys` and `ec_frame_add_datagram_log` on the bytes of a frame.
The end of the list is found by the `next` flags and the length of the frame. A new datagram is put
behind the one that is found there, and in a frame without datagrams that is an empty one.

**Theorem (`frame_laid`).** When the datagrams have been added, there is an empty one of 12 bytes in
front of them, the `next` flag is set on all but the last, and the length of the frame is 12 bytes
short. The address of a physical datagram is 0 or 1.

**Theorem (`walks_iff`).** So the walk over the frame yields what has been added just if nothing has.
-/

namespace LibEthercat.FrameBuild

/-! ## The functions -/

/-- `ec_frame_init`. The ethertype is stored as the host does. -/
def ecFrameInit (m : Mem) : Mem := fun i =>
  if i < 6 then 0xFF
  else if i < 12 then UInt8.ofNat (i - 6)
  else if i = 12 then 0xA4
  else if i = 13 then 0x88
  else if i = 14 then UInt8.ofNat ecFrameHdrLength
  -- type 4, in the upper bits
  else if i = 15 then 0x40
  else if i < 1518 then 0
  else m i

/-- The loop over the datagrams that are there. -/
def lastDatagram (m : Mem) (d : ℕ) : ℕ :=
  if d < ecFrameLen m ∧ dgNext m d = true then lastDatagram m (ecDatagramNext m d) else d
termination_by ecFrameLen m - d
decreasing_by
  have := ecDatagramLength_pos m d
  unfold ecDatagramNext
  omega

/-- Assign to the `len` field of a datagram: it keeps 11 bits, and the other 5 stay. -/
def setDgLen (m : Mem) (d v : ℕ) : Mem := fun i =>
  if i = d + 6 then UInt8.ofNat (v % 256)
  else if i = d + 7 then UInt8.ofNat ((m (d + 7)).toNat / 8 * 8 + v / 256 % 8)
  else m i

/-- The bytes of an address, the lowest first. -/
def adrBytes (adr : UInt32) : Mem := fun i => UInt8.ofNat (adr.toNat / 256 ^ i)

/-- The fields and the payload of a new datagram. -/
def putFields (m : Mem) (d : ℕ) (cmd idx : UInt8) (adr : UInt32) (payload : List UInt8) : Mem :=
  let m : Mem := Function.update m d cmd
  let m : Mem := Function.update m (d + 1) idx
  let m := m.copy (d + 2) (adrBytes adr) 4
  let m := m.copy (d + ecDatagramHdrLength) (fun i => payload.getD i 0) payload.length
  setDgLen m d payload.length

def ecFrameAddDatagramLog (m : Mem) (cmd idx : UInt8) (adr : UInt32) (payload : List UInt8) : Mem :=
  let d := lastDatagram m ecDatagramFirst
  let m := ecDatagramMarkNext m d
  let d := ecDatagramNext m d
  let m := putFields m d cmd idx adr payload
  setFrameLen m (ecFrameLen m + ecDatagramLength m d)

/-- The address that is handed on: `(ado << 16u) || adp`. -/
def physAdr (adp ado : UInt16) : UInt32 :=
  if ado.toUInt32 <<< 16 ≠ 0 ∨ adp.toUInt32 ≠ 0 then 1 else 0

def ecFrameAddDatagramPhys (m : Mem) (cmd idx : UInt8) (adp ado : UInt16) (payload : List UInt8) :
    Mem :=
  ecFrameAddDatagramLog m cmd idx (physAdr adp ado) payload

/-! ## Calls and datagrams -/

inductive Call
  | phys (cmd idx : UInt8) (adp ado : UInt16) (payload : List UInt8)
  | log (cmd idx : UInt8) (adr : UInt32) (payload : List UInt8)

def Call.add (m : Mem) : Call → Mem
  | phys cmd idx adp ado payload => ecFrameAddDatagramPhys m cmd idx adp ado payload
  | log cmd idx adr payload => ecFrameAddDatagramLog m cmd idx adr payload

/-- A frame with these datagrams. -/
def build (m : Mem) (calls : List Call) : Mem := calls.foldl Call.add (ecFrameInit m)

structure Datagram where
  cmd : UInt8
  idx : UInt8
  adr : ℕ
  payload : List UInt8

/-- The datagram at this place; its length is that of its payload. -/
def datagramAt (m : Mem) (d : ℕ) : Datagram where
  cmd := m d
  idx := dgIdx m d
  adr := (m (d + 2)).toNat + 256 * (m (d + 3)).toNat + 256 ^ 2 * (m (d + 4)).toNat +
    256 ^ 3 * (m (d + 5)).toNat
  payload := (List.range (dgLen m d)).map fun i => m (d + ecDatagramHdrLength + i)

/-- What is to be in the frame. -/
def Call.datagram : Call → Datagram
  | phys cmd idx adp ado payload => ⟨cmd, idx, 2 ^ 16 * ado.toNat + adp.toNat, payload⟩
  | log cmd idx adr payload => ⟨cmd, idx, adr.toNat, payload⟩

/-- What is written. -/
def Call.written : Call → Datagram
  | phys cmd idx adp ado payload => ⟨cmd, idx, (physAdr adp ado).toNat, payload⟩
  | log cmd idx adr payload => ⟨cmd, idx, adr.toNat, payload⟩

/-- The bytes of a datagram: header, payload and working counter. -/
def Call.length (c : Call) : ℕ := 12 + c.written.payload.length

/-- All of them fit into a frame. -/
def Fits (calls : List Call) : Prop := ecFrameHdrLength + (calls.map Call.length).sum ≤ 1518

instance (calls : List Call) : Decidable (Fits calls) := inferInstanceAs (Decidable (_ ≤ _))

/-- The walk yields the datagrams, and `next` is set on all but the last. -/
structure Walks (calls : List Call) (m : Mem) : Prop where
  datagrams : (frameOffsets m).map (datagramAt m) = calls.map Call.datagram
  next : ∀ pre d post, frameOffsets m = pre ++ d :: post → (dgNext m d = true ↔ post ≠ [])

section
variable {m : Mem} {d i : ℕ} {cmd idx : UInt8} {adr : UInt32} {payload : List UInt8}

/-! ## Bytes -/

theorem setDgLen_of_ne {v : ℕ} (h6 : i ≠ d + 6) (h7 : i ≠ d + 7) : setDgLen m d v i = m i := by
  unfold setDgLen
  rw [if_neg h6, if_neg h7]

theorem setDgLen_low {v : ℕ} : (setDgLen m d v (d + 6)).toNat = v % 256 := by
  unfold setDgLen
  rw [if_pos rfl, UInt8.toNat_ofNat']
  omega

theorem setDgLen_high {v : ℕ} :
    (setDgLen m d v (d + 7)).toNat = (m (d + 7)).toNat / 8 * 8 + v / 256 % 8 := by
  have hlt := (m (d + 7)).toNat_lt
  unfold setDgLen
  rw [if_neg (by omega), if_pos rfl, UInt8.toNat_ofNat']
  omega

theorem dgLen_setDgLen {v : ℕ} : dgLen (setDgLen m d v) d = v % 2048 := by
  unfold dgLen
  rw [setDgLen_low, setDgLen_high]
  omega

theorem dgNext_setDgLen {v : ℕ} : dgNext (setDgLen m d v) d = dgNext m d := by
  unfold dgNext
  rw [setDgLen_high, decide_eq_decide]
  omega

theorem putFields_of_lt (h : i < d) : putFields m d cmd idx adr payload i = m i := by
  unfold putFields
  rw [setDgLen_of_ne (by omega) (by omega), Mem.copy_of_lt _ _ _ (by omega),
    Mem.copy_of_lt _ _ _ (by omega), Function.update_of_ne (by omega),
    Function.update_of_ne (by omega)]

/-- The bytes behind the payload stay, and so do those of `irq`. -/
theorem putFields_of_ge (h : d + 10 + payload.length ≤ i) :
    putFields m d cmd idx adr payload i = m i := by
  unfold putFields ecDatagramHdrLength
  rw [setDgLen_of_ne (by omega) (by omega), Mem.copy_of_ge _ _ h, Mem.copy_of_ge _ _ (by omega),
    Function.update_of_ne (by omega), Function.update_of_ne (by omega)]

theorem dgLen_putFields : dgLen (putFields m d cmd idx adr payload) d = payload.length % 2048 :=
  dgLen_setDgLen

theorem dgNext_putFields : dgNext (putFields m d cmd idx adr payload) d = dgNext m d := by
  refine dgNext_setDgLen.trans ?_
  unfold dgNext ecDatagramHdrLength
  rw [Mem.copy_of_lt _ _ _ (by omega), Mem.copy_of_ge _ _ (by omega), Function.update_of_ne (by omega),
    Function.update_of_ne (by omega)]

theorem adrBytes_sum : (adrBytes adr 0).toNat + 256 * (adrBytes adr 1).toNat +
    256 ^ 2 * (adrBytes adr 2).toNat + 256 ^ 3 * (adrBytes adr 3).toNat = adr.toNat := by
  have hlt := adr.toNat_lt
  simp only [adrBytes, UInt8.toNat_ofNat']
  omega

/-- What has been put there is there. -/
theorem datagramAt_putFields (h : payload.length < 2048) :
    datagramAt (putFields m d cmd idx adr payload) d = ⟨cmd, idx, adr.toNat, payload⟩ := by
  have hcmd : putFields m d cmd idx adr payload d = cmd := by
    unfold putFields ecDatagramHdrLength
    rw [setDgLen_of_ne (by omega) (by omega), Mem.copy_of_lt _ _ _ (by omega),
      Mem.copy_of_lt _ _ _ (by omega), Function.update_of_ne (by omega), Function.update_self]
  have hidx : putFields m d cmd idx adr payload (d + 1) = idx := by
    unfold putFields ecDatagramHdrLength
    rw [setDgLen_of_ne (by omega) (by omega), Mem.copy_of_lt _ _ _ (by omega),
      Mem.copy_of_lt _ _ _ (by omega), Function.update_self]
  have hadr : ∀ i < 4, putFields m d cmd idx adr payload (d + 2 + i) = adrBytes adr i := by
    intro i hi
    unfold putFields ecDatagramHdrLength
    rw [setDgLen_of_ne (by omega) (by omega), Mem.copy_of_lt _ _ _ (by omega),
      Mem.copy_add _ _ _ _ hi]
  have hpayload : ∀ i < payload.length,
      putFields m d cmd idx adr payload (d + ecDatagramHdrLength + i) = payload.getD i 0 := by
    intro i hi
    unfold putFields
    rw [setDgLen_of_ne (by unfold ecDatagramHdrLength; omega) (by unfold ecDatagramHdrLength; omega),
      Mem.copy_add _ _ _ _ hi]
  have hbytes : (List.range payload.length).map
      (fun i => putFields m d cmd idx adr payload (d + ecDatagramHdrLength + i)) = payload := by
    apply List.ext_getElem (by simp)
    intro i hi hi'
    rw [List.getElem_map, List.getElem_range, hpayload i hi']
    simp [List.getD, hi']
  unfold datagramAt dgIdx
  rw [dgLen_putFields, Nat.mod_eq_of_lt h, hbytes, hcmd, hidx, hadr 0 (by decide),
    show d + 3 = d + 2 + 1 from rfl, hadr 1 (by decide), show d + 4 = d + 2 + 2 from rfl,
    hadr 2 (by decide), show d + 5 = d + 2 + 3 from rfl, hadr 3 (by decide), adrBytes_sum]

theorem dgLen_setFrameLen {v : ℕ} (h : 16 ≤ d) : dgLen (setFrameLen m v) d = dgLen m d := by
  unfold dgLen
  rw [setFrameLen_of_ge _ _ (by omega), setFrameLen_of_ge _ _ (by omega)]

theorem dgNext_setFrameLen {v : ℕ} (h : 16 ≤ d) : dgNext (setFrameLen m v) d = dgNext m d := by
  unfold dgNext
  rw [setFrameLen_of_ge _ _ (by omega)]

/-- The bytes of a datagram, but for its `next` flag. -/
theorem datagramAt_congr {m' : Mem} (h : ∀ i < ecDatagramLength m d, i ≠ 7 → m' (d + i) = m (d + i))
    (h7 : m' (d + 7) % 128 = m (d + 7) % 128) : datagramAt m' d = datagramAt m d := by
  have hge := ecDatagramLength_ge m d
  have hlength := ecDatagramLength_congr (h 6 (by omega) (by decide)) h7
  have hlen : dgLen m' d = dgLen m d := by
    unfold ecDatagramLength at hlength
    omega
  have hpayload : (List.range (dgLen m d)).map (fun i => m' (d + ecDatagramHdrLength + i)) =
      (List.range (dgLen m d)).map fun i => m (d + ecDatagramHdrLength + i) := by
    apply List.map_congr_left
    intro i hi
    rw [List.mem_range] at hi
    rw [Nat.add_assoc]
    refine h _ ?_ (by unfold ecDatagramHdrLength; omega)
    unfold ecDatagramLength
    omega
  unfold datagramAt dgIdx
  rw [hlen, hpayload, show m' d = m d from h 0 (by omega) (by decide),
    h 1 (by omega) (by decide), h 2 (by omega) (by decide), h 3 (by omega) (by decide),
    h 4 (by omega) (by decide), h 5 (by omega) (by decide)]

theorem datagramAt_setFrameLen {v : ℕ} (h : 16 ≤ d) :
    datagramAt (setFrameLen m v) d = datagramAt m d := by
  refine datagramAt_congr (fun i _ _ => setFrameLen_of_ge _ _ (by omega)) ?_
  rw [setFrameLen_of_ge _ _ (by omega)]

end

/-! ## The invariant -/

/-- Slots of these sizes lie behind the header, and behind them one of size `last`, with these
datagrams. The `next` flag is set on all but the last, and the frame ends 12 bytes too early. What
lies behind is empty. -/
structure Built (m : Mem) (sizes : List ℕ) (last : ℕ) (ds : List Datagram) : Prop where
  laid : Records.Laid (ecDatagramLength m) 16 (sizes ++ [last])
  datagrams : (Records.starts 16 (sizes ++ [last])).map (datagramAt m) = ds
  marked : ∀ d ∈ Records.starts 16 sizes, dgNext m d = true
  unmarked : 16 + sizes.sum + 7 < 1518 → dgNext m (16 + sizes.sum) = false
  len : ecFrameLen m + 12 = 16 + sizes.sum + last
  zero : ∀ i, 16 + sizes.sum + last ≤ i + 2 → i < 1518 → m i = 0

section
variable {m : Mem} {sizes : List ℕ} {last : ℕ} {ds : List Datagram}

/-- The slot of a frame without datagrams. -/
def emptyDatagram : Datagram := ⟨0, 0, 0, []⟩

theorem built_ecFrameInit : Built (ecFrameInit m) [] 12 [emptyDatagram] := by
  have hzero : ∀ i, 16 ≤ i → i < 1518 → ecFrameInit m i = 0 := by
    intro i hge hlt
    unfold ecFrameInit
    rw [if_neg (by omega), if_neg (by omega), if_neg (by omega), if_neg (by omega),
      if_neg (by omega), if_neg (by omega), if_pos hlt]
  have hlen : dgLen (ecFrameInit m) 16 = 0 := by
    unfold dgLen
    rw [hzero 22 (by decide) (by decide), hzero 23 (by decide) (by decide)]
    rfl
  refine ⟨⟨?_, trivial⟩, ?_, by simp, fun _ => ?_, ?_, fun i hi hlt => ?_⟩
  · unfold ecDatagramLength
    rw [hlen]
    rfl
  · have hdatagram : datagramAt (ecFrameInit m) 16 = emptyDatagram := by
      unfold datagramAt dgIdx
      rw [hlen, hzero 16 (by decide) (by decide), hzero 17 (by decide) (by decide),
        hzero 18 (by decide) (by decide), hzero 19 (by decide) (by decide),
        hzero 20 (by decide) (by decide), hzero 21 (by decide) (by decide)]
      rfl
    simp [hdatagram]
  · unfold dgNext
    rw [show 16 + ([] : List ℕ).sum + 7 = 23 from rfl, hzero 23 (by decide) (by decide)]
    rfl
  · simp [ecFrameLen, ecFrameInit, ecFrameHdrLength]
  · rw [List.sum_nil] at hi
    exact hzero i (by omega) hlt

theorem Built.ge (h : Built m sizes last ds) : ∀ l ∈ sizes ++ [last], 12 ≤ l := by
  obtain ⟨hlaid, -⟩ := h
  generalize sizes ++ [last] = ls at hlaid
  generalize 16 = o at hlaid
  induction ls generalizing o with
  | nil => simp
  | cons l ls ih =>
    obtain ⟨hl, hrest⟩ := hlaid
    exact List.forall_mem_cons.2 ⟨hl ▸ ecDatagramLength_ge m o, ih _ hrest⟩

/-- The loop ends at the slot that has no flag. -/
theorem Built.lastDatagram (h : Built m sizes last ds) (hfit : ecFrameLen m + 12 ≤ 1518) :
    lastDatagram m ecDatagramFirst = 16 + sizes.sum := by
  have hge := h.ge
  have hlast : 12 ≤ last := hge last (by simp)
  have hstop : dgNext m (16 + sizes.sum) = false := by
    have := h.len
    exact h.unmarked (by omega)
  have hlen : 16 + sizes.sum ≤ ecFrameLen m := by
    have := h.len
    omega
  have hlaid := (Records.laid_append.1 h.laid).1
  have hmarked := h.marked
  have hloop : ∀ ls o, Records.Laid (ecDatagramLength m) o ls →
      (∀ d ∈ Records.starts o ls, dgNext m d = true) → (∀ l ∈ ls, 12 ≤ l) →
      o + ls.sum = 16 + sizes.sum → FrameBuild.lastDatagram m o = o + ls.sum := by
    intro ls
    induction ls with
    | nil =>
      intro o _ _ _ hsum
      rw [List.sum_nil, Nat.add_zero] at hsum ⊢
      rw [FrameBuild.lastDatagram, hsum, if_neg (by simp [hstop])]
    | cons l ls ih =>
      intro o hlaid hmarked hge hsum
      obtain ⟨hl, hrest⟩ := hlaid
      rw [Records.starts_cons, List.forall_mem_cons] at hmarked
      rw [List.forall_mem_cons] at hge
      rw [List.sum_cons] at hsum ⊢
      have hnext : ecDatagramNext m o = o + l := by rw [ecDatagramNext, hl]
      rw [FrameBuild.lastDatagram, if_pos ⟨by omega, hmarked.1⟩, hnext,
        ih (o + l) hrest hmarked.2 hge.2 (by omega), Nat.add_assoc]
  exact hloop sizes 16 hlaid hmarked (fun l hl => hge l (List.mem_append_left _ hl)) rfl

variable {cmd idx : UInt8} {adr : UInt32} {payload : List UInt8}

/-- The flag of the last slot is set, and the datagram is put behind it. -/
theorem Built.add_eq (h : Built m sizes last ds)
    (hfit : ecFrameLen m + 12 + payload.length ≤ 1518) :
    ecFrameAddDatagramLog m cmd idx adr payload =
      setFrameLen (putFields (ecDatagramMarkNext m (16 + sizes.sum)) (16 + sizes.sum + last) cmd idx
        adr payload) (ecFrameLen m + 12 + payload.length) := by
  have hlast : 12 ≤ last := h.ge last (by simp)
  have hmark : ecDatagramLength (ecDatagramMarkNext m (16 + sizes.sum)) (16 + sizes.sum) = last := by
    rw [← dgBytes_length, dgBytes_ecDatagramMarkNext, dgBytes_length]
    exact (Records.laid_append.1 h.laid).2.1
  unfold ecFrameAddDatagramLog
  rw [h.lastDatagram (by omega)]
  dsimp only
  rw [ecDatagramNext, hmark]
  congr 1
  have hlen : ecFrameLen (putFields (ecDatagramMarkNext m (16 + sizes.sum)) (16 + sizes.sum + last)
      cmd idx adr payload) = ecFrameLen m := by
    unfold ecDatagramMarkNext
    apply ecFrameLen_congr
    · rw [putFields_of_lt (by omega), Function.update_of_ne (by omega)]
    · rw [putFields_of_lt (by omega), Function.update_of_ne (by omega)]
  unfold ecDatagramLength ecDatagramHdrLength ecWkcSize
  rw [hlen, dgLen_putFields, Nat.mod_eq_of_lt (by omega)]
  omega

/-- A slot with a flag ends where the last one begins or before. -/
theorem Built.slot (h : Built m sizes last ds) {d : ℕ}
    (hd : d ∈ Records.starts 16 (sizes ++ [last])) :
    16 ≤ d ∧ (d = 16 + sizes.sum ∧ ecDatagramLength m d = last ∨
      d ∈ Records.starts 16 sizes ∧ d + ecDatagramLength m d ≤ 16 + sizes.sum) := by
  obtain ⟨hlaid, hlast, -⟩ := Records.laid_append.1 h.laid
  rw [Records.starts_append, List.mem_append] at hd
  rcases hd with hd | hd
  · obtain ⟨hge, hle⟩ := hlaid.le d hd
    exact ⟨hge, Or.inr ⟨hd, hle⟩⟩
  · obtain rfl : d = 16 + sizes.sum := by simpa using hd
    exact ⟨by omega, Or.inl ⟨rfl, hlast⟩⟩

/-- A new datagram leaves the slots as they are, but for the flag of the last one. -/
theorem Built.keep (h : Built m sizes last ds) (hfit : ecFrameLen m + 12 + payload.length ≤ 1518)
    {d : ℕ} (hd : d ∈ Records.starts 16 (sizes ++ [last])) :
    (∀ i < ecDatagramLength m d, i ≠ 7 →
      ecFrameAddDatagramLog m cmd idx adr payload (d + i) = m (d + i)) ∧
    ecFrameAddDatagramLog m cmd idx adr payload (d + 7) =
      if d = 16 + sizes.sum then m (d + 7) % 128 + 128 else m (d + 7) := by
  have hlast : 12 ≤ last := h.ge last (by simp)
  have hge := ecDatagramLength_ge m d
  obtain ⟨h16, hslot⟩ := h.slot hd
  have hle : d + ecDatagramLength m d ≤ 16 + sizes.sum + last := by omega
  rw [h.add_eq hfit]
  unfold ecDatagramMarkNext
  refine ⟨fun i hi h7 => ?_, ?_⟩
  · rw [setFrameLen_of_ge _ _ (by omega), putFields_of_lt (by omega),
      Function.update_of_ne (by omega)]
  · rw [setFrameLen_of_ge _ _ (by omega), putFields_of_lt (by omega)]
    split_ifs with heq
    · rw [heq, Function.update_self]
    · rw [Function.update_of_ne (by omega)]

theorem mark_mod (x : UInt8) : (x % 128 + 128) % 128 = x % 128 :=
  UInt8.toNat_inj.1 (by simp [UInt8.toNat_mod, UInt8.toNat_add])

theorem Built.add (h : Built m sizes last ds) (hfit : ecFrameLen m + 12 + payload.length ≤ 1518) :
    Built (ecFrameAddDatagramLog m cmd idx adr payload) (sizes ++ [last]) (12 + payload.length)
      (ds ++ [⟨cmd, idx, adr.toNat, payload⟩]) := by
  have hlast : 12 ≤ last := h.ge last (by simp)
  have hlen := h.len
  have hsum : (sizes ++ [last]).sum = sizes.sum + last := by simp
  have hkeep (d : ℕ) (hd : d ∈ Records.starts 16 (sizes ++ [last])) :
      (∀ i < ecDatagramLength m d, i ≠ 7 →
        ecFrameAddDatagramLog m cmd idx adr payload (d + i) = m (d + i)) ∧
      ecFrameAddDatagramLog m cmd idx adr payload (d + 7) =
        if d = 16 + sizes.sum then m (d + 7) % 128 + 128 else m (d + 7) := h.keep hfit hd
  have h7 : ∀ d ∈ Records.starts 16 (sizes ++ [last]),
      ecFrameAddDatagramLog m cmd idx adr payload (d + 7) % 128 = m (d + 7) % 128 := by
    intro d hd
    rw [(hkeep d hd).2]
    split_ifs
    · exact mark_mod _
    · rfl
  have hfields : dgLen (ecFrameAddDatagramLog m cmd idx adr payload) (16 + sizes.sum + last) =
        payload.length ∧
      datagramAt (ecFrameAddDatagramLog m cmd idx adr payload) (16 + sizes.sum + last) =
        ⟨cmd, idx, adr.toNat, payload⟩ := by
    rw [h.add_eq hfit, dgLen_setFrameLen (by omega), datagramAt_setFrameLen (by omega),
      dgLen_putFields, datagramAt_putFields (by omega), Nat.mod_eq_of_lt (by omega)]
    exact ⟨rfl, rfl⟩
  refine ⟨Records.laid_append.2 ⟨?_, ?_, trivial⟩, ?_, fun d hd => ?_, fun hlt => ?_, ?_,
    fun i hi hlt => ?_⟩
  · refine h.laid.congr fun d hd => ecDatagramLength_congr ?_ (h7 d hd)
    have hge := ecDatagramLength_ge m d
    exact (hkeep d hd).1 6 (by omega) (by decide)
  · rw [hsum, ← Nat.add_assoc, ecDatagramLength, hfields.1]
    unfold ecDatagramHdrLength ecWkcSize
    omega
  · rw [Records.starts_append, List.map_append, hsum, ← Nat.add_assoc, ← h.datagrams]
    congr 1
    · exact List.map_congr_left fun d hd => datagramAt_congr (hkeep d hd).1 (h7 d hd)
    · simp [hfields.2]
  · unfold dgNext
    rw [(hkeep d hd).2]
    split_ifs with heq
    · exact decide_eq_true (by simp [UInt8.toNat_add]; omega)
    · obtain ⟨-, ⟨hd', -⟩ | ⟨hd', -⟩⟩ := h.slot hd
      · exact absurd hd' heq
      · exact h.marked d hd'
  · rw [hsum] at hlt ⊢
    rw [← Nat.add_assoc] at hlt ⊢
    have hnext : dgNext (ecDatagramMarkNext m (16 + sizes.sum)) (16 + sizes.sum + last) = false := by
      unfold dgNext ecDatagramMarkNext
      rw [Function.update_of_ne (by omega), h.zero _ (by omega) hlt]
      rfl
    rw [h.add_eq hfit, dgNext_setFrameLen (by omega), dgNext_putFields, hnext]
  · rw [h.add_eq hfit, ecFrameLen_setFrameLen, Nat.mod_eq_of_lt (by omega), hsum]
    omega
  · rw [hsum] at hi
    rw [h.add_eq hfit, setFrameLen_of_ge _ _ (by omega), putFields_of_ge (by omega)]
    unfold ecDatagramMarkNext
    rw [Function.update_of_ne (by omega), h.zero i (by omega) hlt]

/-- **What is in the frame** when these datagrams have been added. -/
theorem frame_laid (m : Mem) {calls : List Call} (hfit : Fits calls) :
    ∃ sizes last, sizes ++ [last] = 12 :: calls.map Call.length ∧
      Built (build m calls) sizes last (emptyDatagram :: calls.map Call.written) := by
  induction calls using List.reverseRecOn with
  | nil => exact ⟨[], 12, rfl, built_ecFrameInit⟩
  | append_singleton calls c ih =>
    unfold Fits at hfit ih
    rw [List.map_append, List.sum_append, List.map_singleton, List.sum_singleton] at hfit
    obtain ⟨sizes, last, hsizes, hbuilt⟩ := ih (by omega)
    have hsum : sizes.sum + last = 12 + (calls.map Call.length).sum := by
      have := congrArg List.sum hsizes
      simpa using this
    have hlen : ecFrameLen (build m calls) + 12 + c.written.payload.length ≤ 1518 := by
      have := hbuilt.len
      unfold ecFrameHdrLength Call.length at *
      omega
    refine ⟨sizes ++ [last], c.length, by rw [hsizes]; simp, ?_⟩
    have hbuild : build m (calls ++ [c]) = c.add (build m calls) := by
      unfold build
      rw [List.foldl_append]
      rfl
    rw [hbuild, List.map_append, ← List.cons_append]
    cases c with
    | phys => exact hbuilt.add hlen
    | log => exact hbuilt.add hlen

/-- The slots that the walk visits: the last one only if it has a payload. -/
theorem Built.frameOffsets (h : Built m sizes last ds) :
    frameOffsets m = Records.starts 16 sizes ++ if 12 < last then [16 + sizes.sum] else [] := by
  have hge := h.ge
  have hlen := h.len
  have hlt := ecFrameLen_lt m
  have hpos : ∀ l ∈ sizes ++ [last], 0 < l := fun l hl => (by decide : 0 < 12).trans_le (hge l hl)
  have hwalk : Records.walk (ecDatagramLength m) (ecFrameLen m) 2048 16 =
      some ((Records.starts 16 (sizes ++ [last])).takeWhile fun x => decide (x < ecFrameLen m)) :=
    Records.walk_eq_takeWhile hpos h.laid (by simp; omega) (by omega)
  have hfirst : ∀ d ∈ Records.starts 16 sizes, decide (d < ecFrameLen m) = true := by
    intro d hd
    have hlast : 12 ≤ last := hge last (by simp)
    have := Records.starts_lt (fun l hl => hpos l (List.mem_append_left _ hl)) d hd
    exact decide_eq_true (by omega)
  unfold LibEthercat.frameOffsets walkFrame
  rw [show ecDatagramFirst = 16 from rfl, hwalk, Option.getD_some, Records.starts_append,
    List.takeWhile_append_of_pos hfirst]
  congr 1
  by_cases h12 : 12 < last
  · simp [h12, show 16 + sizes.sum < ecFrameLen m by omega]
  · simp [h12, show ¬ 16 + sizes.sum < ecFrameLen m by omega]

end

section
variable {m : Mem} {calls : List Call}

/-- The walk begins with the empty slot, and the flag is set on all slots but the last, where the walk
only gets if there is a payload. -/
theorem not_walks (hfit : Fits calls) (hne : calls ≠ []) : ¬ Walks calls (build m calls) := by
  intro hwalks
  obtain ⟨sizes, last, hsizes, hbuilt⟩ := frame_laid m hfit
  have hlength : sizes.length = calls.length := by
    have := congrArg List.length hsizes
    simpa using this
  have hcount : (frameOffsets (build m calls)).length = calls.length := by
    have := congrArg List.length hwalks.datagrams
    simpa using this
  have hoffsets := hbuilt.frameOffsets
  by_cases h12 : 12 < last
  · rw [hoffsets, if_pos h12, List.length_append, Records.starts_length, hlength] at hcount
    simp at hcount
  · rw [if_neg h12, List.append_nil] at hoffsets
    have hstarts : Records.starts 16 sizes ≠ [] := by
      intro hnil
      have := congrArg List.length hnil
      rw [Records.starts_length, hlength] at this
      exact hne (List.length_eq_zero_iff.1 this)
    have hsplit := (List.dropLast_concat_getLast hstarts).symm
    have hmarked := hbuilt.marked _ (List.getLast_mem hstarts)
    exact (hwalks.next _ _ [] (hoffsets.trans hsplit)).1 hmarked rfl

/-- **The walk yields what has been added** just if nothing has. -/
theorem walks_iff (m : Mem) (calls : List Call) (hfit : Fits calls) :
    Walks calls (build m calls) ↔ calls = [] := by
  constructor
  · intro hwalks
    by_contra hne
    exact not_walks hfit hne hwalks
  · rintro rfl
    have hoffsets : frameOffsets (build m []) = [] := built_ecFrameInit.frameOffsets
    refine ⟨by simp [hoffsets], fun pre d post h => ?_⟩
    rw [hoffsets] at h
    simp at h

end

/-- A read of the AL status of the slave with address 1001. -/
def statusRead : Call := .phys 4 0 1001 0x130 [0, 0]

theorem walks_statusRead :
    Walks [] (build (fun _ => 0) []) ∧ ¬ Walks [statusRead] (build (fun _ => 0) [statusRead]) :=
  ⟨(walks_iff _ [] (by decide)).2 rfl,
    fun hwalks => by simpa using (walks_iff _ [statusRead] (by decide)).1 hwalks⟩

/-- The walk over the frame with this datagram yields an empty one before it. -/
theorem statusRead_not_walks : ¬ ∀ m calls, Fits calls → Walks calls (build m calls) := by
  intro hall
  have hfit : Fits [statusRead] := by decide
  exact not_walks hfit (by simp) (hall (fun _ => 0) [statusRead] hfit)

end LibEthercat.FrameBuild
