import LibEthercat.Lib.Records

/-!
# Frames and datagrams as bytes

`datagram.h` on the bytes themselves. A memory gives a byte for every offset from the start of a
frame buffer; what lies behind a frame is there as well, as it is for the code. Both length
fields have 11 bits: the low byte and the low three bits of the byte behind it.

* `frameOffsets` — the datagrams of a frame, by `ec_datagram_first` and `ec_datagram_next`.
* `walk_frame_isSome` — this walk ends, whatever the bytes are.
-/

namespace LibEthercat

/-- The bytes from some address on. -/
abbrev Mem := ℕ → UInt8

/-- The bytes of a pool entry, from `pool.h`. -/
def lecMaxPoolDataSize : ℕ := 1600

def ecFrameHdrLength : ℕ := 16
def ecDatagramHdrLength : ℕ := 10
def ecWkcSize : ℕ := 2

/-! ## Frames -/

/-- The ethertype is that of EtherCAT. -/
def isEcatFrame (m : Mem) : Bool := m 12 == 0x88 && m 13 == 0xA4

def ecFrameLen (m : Mem) : ℕ := (m 14).toNat + 256 * ((m 15).toNat % 8)

/-- Assign to the `len` field of a frame: it keeps 11 bits. -/
def setFrameLen (m : Mem) (v : ℕ) : Mem := fun i =>
  if i = 14 then UInt8.ofNat (v % 256)
  else if i = 15 then UInt8.ofNat ((m 15).toNat / 8 * 8 + v / 256 % 8)
  else m i

/-! ## Datagrams -/

def dgIdx (m : Mem) (d : ℕ) : UInt8 := m (d + 1)

def dgLen (m : Mem) (d : ℕ) : ℕ := (m (d + 6)).toNat + 256 * ((m (d + 7)).toNat % 8)

/-- The `next` flag is the top bit. -/
def dgNext (m : Mem) (d : ℕ) : Bool := decide (128 ≤ (m (d + 7)).toNat)

def ecDatagramLength (m : Mem) (d : ℕ) : ℕ := ecDatagramHdrLength + dgLen m d + ecWkcSize

def ecDatagramFirst : ℕ := ecFrameHdrLength

def ecDatagramNext (m : Mem) (d : ℕ) : ℕ := d + ecDatagramLength m d

def ecDatagramMarkNext (m : Mem) (d : ℕ) : Mem :=
  Function.update m (d + 7) (m (d + 7) % 128 + 128)

/-- Assign 0 to the `next` field. -/
def clearNext (m : Mem) (d : ℕ) : Mem := Function.update m (d + 7) (m (d + 7) % 128)

/-- The bytes of a datagram: header, payload and working counter, with the `next` flag clear. -/
def dgBytes (m : Mem) (d : ℕ) : List UInt8 :=
  (List.range (ecDatagramLength m d)).map fun i => if i = 7 then m (d + 7) % 128 else m (d + i)

/-- Copy `len` bytes of `src` to offset `d`. -/
def Mem.copy (m : Mem) (d : ℕ) (src : Mem) (len : ℕ) : Mem := fun i =>
  if d ≤ i ∧ i < d + len then src (i - d) else m i

/-! ## Fields -/

theorem ecFrameLen_lt (m : Mem) : ecFrameLen m < 2048 := by
  have h1 := (m 14).toNat_lt
  have h2 : (m 15).toNat % 8 < 8 := Nat.mod_lt _ (by decide)
  unfold ecFrameLen
  omega

theorem ecDatagramLength_pos (m : Mem) (d : ℕ) : 0 < ecDatagramLength m d := by
  unfold ecDatagramLength ecWkcSize
  omega

theorem ecDatagramLength_ge (m : Mem) (d : ℕ) : 12 ≤ ecDatagramLength m d := by
  unfold ecDatagramLength ecDatagramHdrLength ecWkcSize
  omega

/-- The field holds what is assigned to it, without the bits above the eleventh. -/
theorem ecFrameLen_setFrameLen (m : Mem) (v : ℕ) : ecFrameLen (setFrameLen m v) = v % 2048 := by
  have h := (m 15).toNat_lt
  have hlow : (setFrameLen m v 14).toNat = v % 256 := by
    show (UInt8.ofNat (v % 256)).toNat = _
    rw [UInt8.toNat_ofNat']
    omega
  have hhigh : (setFrameLen m v 15).toNat = (m 15).toNat / 8 * 8 + v / 256 % 8 := by
    show (UInt8.ofNat ((m 15).toNat / 8 * 8 + v / 256 % 8)).toNat = _
    rw [UInt8.toNat_ofNat']
    omega
  unfold ecFrameLen
  rw [hlow, hhigh]
  omega

theorem setFrameLen_of_ge (m : Mem) (v : ℕ) {i : ℕ} (h : 16 ≤ i) : setFrameLen m v i = m i := by
  unfold setFrameLen
  rw [if_neg (by omega), if_neg (by omega)]

theorem ecFrameLen_congr {m m' : Mem} (h14 : m' 14 = m 14) (h15 : m' 15 = m 15) :
    ecFrameLen m' = ecFrameLen m := by
  unfold ecFrameLen
  rw [h14, h15]

/-! ## Bytes of a datagram -/

theorem toNat_mod_mod (x : UInt8) : (x % 128).toNat % 8 = x.toNat % 8 := by
  have hmod : (x % 128).toNat = x.toNat % 128 := UInt8.toNat_mod x 128
  omega

/-- The length of a datagram does not depend on its `next` flag. -/
theorem ecDatagramLength_congr {m m' : Mem} {d d' : ℕ} (h6 : m' (d' + 6) = m (d + 6))
    (h7 : m' (d' + 7) % 128 = m (d + 7) % 128) :
    ecDatagramLength m' d' = ecDatagramLength m d := by
  have hlen : dgLen m' d' = dgLen m d := by
    unfold dgLen
    rw [h6, ← toNat_mod_mod (m' (d' + 7)), h7, toNat_mod_mod]
  unfold ecDatagramLength
  rw [hlen]

@[simp] theorem dgBytes_length (m : Mem) (d : ℕ) : (dgBytes m d).length = ecDatagramLength m d := by
  simp [dgBytes]

theorem dgBytes_congr {m m' : Mem} {d d' : ℕ}
    (h : ∀ i < ecDatagramLength m d, i ≠ 7 → m' (d' + i) = m (d + i))
    (h7 : m' (d' + 7) % 128 = m (d + 7) % 128) : dgBytes m' d' = dgBytes m d := by
  have hge := ecDatagramLength_ge m d
  have hlen := ecDatagramLength_congr (h 6 (by omega) (by decide)) h7
  unfold dgBytes
  rw [hlen]
  apply List.map_congr_left
  intro i hi
  rw [List.mem_range] at hi
  by_cases h7' : i = 7
  · rw [if_pos h7', if_pos h7', h7]
  · rw [if_neg h7', if_neg h7', h i hi h7']

/-- The bytes give the length, and any byte but the one with the flag. -/
theorem length_of_dgBytes {m m' : Mem} {d d' : ℕ} (h : dgBytes m' d' = dgBytes m d) :
    ecDatagramLength m' d' = ecDatagramLength m d := by
  rw [← dgBytes_length m' d', h, dgBytes_length]

theorem dgIdx_of_dgBytes {m m' : Mem} {d d' : ℕ} (h : dgBytes m' d' = dgBytes m d) :
    dgIdx m' d' = dgIdx m d := by
  have hge := ecDatagramLength_ge m d
  have hge' := ecDatagramLength_ge m' d'
  have hbyte : ∀ n e, 12 ≤ ecDatagramLength n e → (dgBytes n e)[1]? = some (dgIdx n e) := by
    intro n e hlen
    unfold dgBytes
    rw [List.getElem?_map, List.getElem?_range (by omega)]
    rfl
  have heq := hbyte m' d' hge'
  rw [h, hbyte m d hge] at heq
  exact (Option.some.inj heq).symm

theorem dgBytes_clearNext (m : Mem) (d : ℕ) : dgBytes (clearNext m d) d = dgBytes m d := by
  unfold clearNext
  refine dgBytes_congr (fun i _ h7 => Function.update_of_ne (by omega) _ _) ?_
  rw [Function.update_self]
  exact UInt8.toNat_inj.1 (by simp [UInt8.toNat_mod])

theorem dgBytes_ecDatagramMarkNext (m : Mem) (d : ℕ) :
    dgBytes (ecDatagramMarkNext m d) d = dgBytes m d := by
  unfold ecDatagramMarkNext
  refine dgBytes_congr (fun i _ h7 => Function.update_of_ne (by omega) _ _) ?_
  rw [Function.update_self]
  exact UInt8.toNat_inj.1 (by simp [UInt8.toNat_mod, UInt8.toNat_add])

theorem dgNext_clearNext (m : Mem) (d : ℕ) : dgNext (clearNext m d) d = false := by
  have hmod : (m (d + 7) % 128).toNat = (m (d + 7)).toNat % 128 := UInt8.toNat_mod _ _
  unfold dgNext clearNext
  rw [Function.update_self, hmod]
  exact decide_eq_false (by omega)

theorem dgNext_ecDatagramMarkNext (m : Mem) (d : ℕ) : dgNext (ecDatagramMarkNext m d) d = true := by
  have hmod : (m (d + 7) % 128).toNat = (m (d + 7)).toNat % 128 := UInt8.toNat_mod _ _
  have hadd : (m (d + 7) % 128 + 128).toNat = ((m (d + 7) % 128).toNat + 128) % 256 :=
    UInt8.toNat_add _ _
  unfold dgNext ecDatagramMarkNext
  rw [Function.update_self, hadd, hmod]
  exact decide_eq_true (by omega)

/-- What `memcpy` leaves at the place it writes to. -/
theorem Mem.copy_add (m src : Mem) (d len : ℕ) {i : ℕ} (h : i < len) :
    m.copy d src len (d + i) = src i := by
  unfold Mem.copy
  rw [if_pos ⟨by omega, by omega⟩, Nat.add_sub_cancel_left]

theorem Mem.copy_of_lt (m src : Mem) (len : ℕ) {d i : ℕ} (h : i < d) : m.copy d src len i = m i := by
  unfold Mem.copy
  rw [if_neg (by omega)]

theorem Mem.copy_of_ge (m src : Mem) {d len i : ℕ} (h : d + len ≤ i) :
    m.copy d src len i = m i := by
  unfold Mem.copy
  rw [if_neg (by omega)]

theorem dgBytes_copy (m src : Mem) (d : ℕ) :
    dgBytes (m.copy d src (ecDatagramLength src 0)) d = dgBytes src 0 := by
  have hge := ecDatagramLength_ge src 0
  apply dgBytes_congr
  · intro i hi _
    rw [Mem.copy_add _ _ _ _ hi, Nat.zero_add]
  · rw [Mem.copy_add _ _ _ _ (by omega)]

/-! ## The datagrams of a frame -/

/-- The walk over the datagrams of a frame. A frame of less than 2048 bytes has fewer
datagrams than bytes, so the fuel is enough. -/
def walkFrame (m : Mem) : Option (List ℕ) :=
  Records.walk (ecDatagramLength m) (ecFrameLen m) 2048 ecDatagramFirst

/-- Where the datagrams of a frame start. -/
def frameOffsets (m : Mem) : List ℕ := (walkFrame m).getD []

/-- **The walk ends**, whatever the bytes are. -/
theorem walkFrame_eq (m : Mem) : walkFrame m = some (frameOffsets m) := by
  have hlt := ecFrameLen_lt m
  have hsome : (walkFrame m).isSome = true :=
    Records.walk_isSome (ecDatagramLength_pos m) (by omega)
  obtain ⟨os, hos⟩ := Option.isSome_iff_exists.1 hsome
  unfold frameOffsets
  rw [hos]
  rfl

/-- A datagram of a frame that is not the last one ends inside the frame; the last one ends
where the frame does or behind it. -/
theorem frameOffsets_split {m : Mem} {pre post : List ℕ} {d : ℕ}
    (h : frameOffsets m = pre ++ d :: post) :
    (post ≠ [] → ecDatagramNext m d < ecFrameLen m) ∧
      (post = [] → ecFrameLen m ≤ ecDatagramNext m d) := by
  have hwalk := walkFrame_eq m
  rw [h] at hwalk
  obtain ⟨hnext, hlast⟩ := Records.walk_split hwalk
  refine ⟨fun hpost => ?_, hlast⟩
  obtain ⟨y, ys, rfl⟩ := List.exists_cons_of_ne_nil hpost
  have hy : y ∈ frameOffsets m := by
    rw [h]
    simp
  have hlt := Records.walk_mem_lt (walkFrame_eq m) y hy
  rwa [hnext y ys rfl] at hlt

theorem frameOffsets_lt (m : Mem) : ∀ d ∈ frameOffsets m, d < ecFrameLen m :=
  Records.walk_mem_lt (walkFrame_eq m)

/-- A datagram ends before a later one starts. -/
theorem ecDatagramNext_le {m : Mem} {d d' : ℕ} (hd : d ∈ frameOffsets m) (hd' : d' ∈ frameOffsets m)
    (hlt : d < d') : ecDatagramNext m d ≤ d' := by
  have hpair := (Records.walk_pairwise (walkFrame_eq m)).2
  obtain ⟨pre, post, hsplit⟩ := List.append_of_mem hd
  rw [hsplit, List.pairwise_append, List.pairwise_cons] at hpair
  rw [hsplit, List.mem_append, List.mem_cons] at hd'
  obtain ⟨-, ⟨hpost, -⟩, hpre⟩ := hpair
  rcases hd' with hd' | rfl | hd'
  · have := hpre d' hd' d List.mem_cons_self
    omega
  · omega
  · exact hpost d' hd'

end LibEthercat
