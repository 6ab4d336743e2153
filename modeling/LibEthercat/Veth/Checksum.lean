import LibEthercat.Gateway.Model
import LibEthercat.Lib.OnesComplement

/-!
# Internet checksums

The checksum functions of `veth.c` add up words in the byte order of the master, with accumulators
of 32 bits, and of 64 for UDP. They fold the carries in a loop, and in two steps for the IP header.

**Theorem (`checksums_verify`).** What a receiver adds up, in network byte order, is 0xFFFF, and the
checksum of a UDP datagram is never 0.
-/

namespace LibEthercat.Veth

open LibEthercat.Coe Gateway OnesComplement

/-! ## The functions -/

def htons (v : ℕ) : ℕ := v % 2 ^ 8 * 2 ^ 8 + v / 2 ^ 8 % 2 ^ 8

def LOWORD (l : ℕ) : ℕ := l % 2 ^ 16

def HIWORD (l : ℕ) : ℕ := l / 2 ^ 16 % 2 ^ 16

/-- The loop over the words, and the odd byte behind them; `w` is the width of `sum`. -/
def addWords (w : ℕ) (m : Mem) (data sum : ℕ) : ℕ → ℕ
  | 0 => sum
  | 1 => (sum + (u16 m data &&& htons 0xFF00)) % 2 ^ w
  | len + 2 => addWords w m (data + 2) ((sum + u16 m data) % 2 ^ w) len

theorem fold_lt {sum : ℕ} (h : sum / 2 ^ 16 ≠ 0) : LOWORD sum + HIWORD sum < sum := by
  simp only [LOWORD, HIWORD]
  omega

/-- The loop that folds the sum to 16 bits. -/
def foldWords (sum : ℕ) : ℕ :=
  if h : sum / 2 ^ 16 = 0 then sum else
    have := fold_lt h
    foldWords (LOWORD sum + HIWORD sum)

/-- `calculate_icmp_checksum` -/
def calculateIcmpChecksum (icmp : Mem) (len : ℕ) : Mem :=
  let icmp := setU16 icmp 2 0
  let sum := foldWords (addWords 32 icmp 0 0 len)
  setU16 icmp 2 (2 ^ 32 - 1 - sum)

/-- The source and destination address, the protocol and the length; `udp->len` is as it is sent. -/
def pseudoHeader (ip udp : Mem) : ℕ :=
  (HIWORD (u32 ip 12) + LOWORD (u32 ip 12)) + (HIWORD (u32 ip 16) + LOWORD (u32 ip 16)) +
    htons 17 + u16 udp 4

/-- `calculate_udp_checksum` -/
def calculateUdpChecksum (ip udp : Mem) : Mem :=
  let udpLen := htons (u16 udp 4)
  let udp' := setU16 udp 6 0
  let sum := foldWords (addWords 64 udp' 0 (pseudoHeader ip udp) udpLen)
  let sum := 2 ^ 64 - 1 - sum
  setU16 udp' 6 (if sum % 2 ^ 16 = 0 then 0xFFFF else sum % 2 ^ 16)

/-- `calculate_ip_checksum` -/
def calculateIpChecksum (ip : Mem) : Mem :=
  let ip := setU16 ip 10 0
  let sum := addWords 32 ip 0 0 20
  let sum := HIWORD sum + LOWORD sum
  let sum := sum + HIWORD sum
  setU16 ip 10 (2 ^ 32 - 1 - sum)

/-! ## What a receiver adds up -/

/-- A 16-bit number in network byte order. -/
def net16 (m : Mem) (i : ℕ) : ℕ := 2 ^ 8 * (m i).toNat + (m (i + 1)).toNat

def bytes (m : Mem) (pos : ℕ) : ℕ → List ℕ
  | 0 => []
  | len + 1 => (m pos).toNat :: bytes m (pos + 1) len

/-- The words of some bytes, an odd one with a zero behind it. -/
def netWords (m : Mem) (pos len : ℕ) : List ℕ := bigWords (2 ^ 8) (bytes m pos len)

/-- The words of the pseudo header. -/
def netPseudoHeader (ip udp : Mem) : List ℕ :=
  [net16 ip 12, net16 ip 14, net16 ip 16, net16 ip 18, 17, net16 udp 4]

/-- The sum of the words, with end-around carry, has all bits set. -/
def Verifies (words : List ℕ) : Prop := fold (2 ^ 16) words.sum = 0xFFFF

/-! ## The loops -/

/-- What `addWords` adds up without overflow. -/
def wordSum (m : Mem) (pos len : ℕ) : ℕ := (littleWords (2 ^ 8) (bytes m pos len)).sum

section
variable {w : ℕ} {m m' : Mem} {pos len sum i v : ℕ}

theorem oddByte (m : Mem) (i : ℕ) : u16 m i &&& htons 0xFF00 = (m i).toNat := by
  have hmask : htons 0xFF00 = 2 ^ 8 - 1 := by decide
  have hlow := (m i).toNat_lt
  rw [hmask, Nat.and_two_pow_sub_one_eq_mod, u16]
  omega

@[simp] theorem wordSum_zero (m : Mem) (pos : ℕ) : wordSum m pos 0 = 0 := rfl

@[simp] theorem wordSum_one (m : Mem) (pos : ℕ) : wordSum m pos 1 = (m pos).toNat := rfl

@[simp] theorem wordSum_add_two (m : Mem) (pos len : ℕ) :
    wordSum m pos (len + 2) = u16 m pos + wordSum m (pos + 2) len := rfl

/-- **The loop over the words** adds them up as long as the sum fits into the accumulator. -/
theorem addWords_eq (h : sum + wordSum m pos len < 2 ^ w) :
    addWords w m pos sum len = sum + wordSum m pos len := by
  fun_induction addWords w m pos sum len with
  | case1 => rfl
  | case2 =>
    rw [oddByte]
    exact Nat.mod_eq_of_lt h
  | case3 pos sum len ih =>
    rw [wordSum_add_two, ← Nat.add_assoc] at h
    have hfits : (sum + u16 m pos) % 2 ^ w = sum + u16 m pos := Nat.mod_eq_of_lt (by omega)
    rw [hfits] at ih
    rw [hfits, ih h, wordSum_add_two, Nat.add_assoc]

theorem wordSum_le (m : Mem) (pos len : ℕ) : wordSum m pos len ≤ 0xFFFF * ((len + 1) / 2) := by
  induction len using Nat.twoStepInduction generalizing pos with
  | zero => exact Nat.zero_le _
  | one =>
    have hlow := (m pos).toNat_lt
    rw [wordSum_one]
    omega
  | more len ih _ =>
    have hword := u16_lt m pos
    have hrest := ih (pos + 2)
    rw [wordSum_add_two]
    omega

theorem wordSum_congr (h : ∀ j, pos ≤ j → m' j = m j) : wordSum m' pos len = wordSum m pos len := by
  induction len using Nat.twoStepInduction generalizing pos with
  | zero => rfl
  | one => rw [wordSum_one, wordSum_one, h pos le_rfl]
  | more len ih _ =>
    rw [wordSum_add_two, wordSum_add_two, ih fun j hj => h j (by omega), u16, u16, h pos le_rfl,
      h (pos + 1) (by omega)]

/-- **A word of the message** that is zero yet, at an even place. -/
theorem wordSum_setU16 (v : ℕ) {k : ℕ} (h : u16 m i = 0) (hi : i = pos + 2 * k)
    (hlen : 2 * k + 2 ≤ len) :
    wordSum (setU16 m i v) pos len = wordSum m pos len + v % 2 ^ 16 := by
  induction k generalizing pos len with
  | zero =>
    obtain ⟨len, rfl⟩ := Nat.exists_eq_add_of_le' hlen
    obtain rfl : i = pos := hi
    have hrest : wordSum (setU16 m i v) (i + 2) len = wordSum m (i + 2) len :=
      wordSum_congr fun j hj => setU16_of_ne m v (by omega) (by omega)
    rw [show len + (2 * 0 + 2) = len + 2 from rfl, wordSum_add_two, wordSum_add_two, hrest,
      u16_setU16, h]
    omega
  | succ k ih =>
    obtain ⟨len, rfl⟩ := Nat.exists_eq_add_of_le' (show 2 ≤ len by omega)
    have hword : u16 (setU16 m i v) pos = u16 m pos := by
      rw [u16, u16, setU16_of_ne m v (by omega) (by omega), setU16_of_ne m v (by omega) (by omega)]
    have hrest : wordSum (setU16 m i v) (pos + 2) len = wordSum m (pos + 2) len + v % 2 ^ 16 :=
      ih (by omega) (by omega)
    rw [wordSum_add_two, wordSum_add_two, hword, hrest, Nat.add_assoc]

/-- **Folding in a loop** loses no carry of a sum of 32 bits. -/
theorem isFold_foldWords (h : sum < 2 ^ 32) : IsFold (2 ^ 16) sum (foldWords sum) := by
  induction sum using foldWords.induct with
  | case1 sum hsmall =>
    rw [foldWords, dif_pos hsmall]
    exact isFold_self (by omega)
  | case2 sum hcarry hlt ih =>
    have hhigh : LOWORD sum + HIWORD sum = carry (2 ^ 16) sum := by
      simp only [LOWORD, HIWORD, carry]
      omega
    rw [foldWords, dif_neg hcarry]
    exact (isFold_carry (by decide)).1 (hhigh ▸ ih (by omega))

theorem add_HIWORD (h : sum < 2 ^ 32) : HIWORD sum + LOWORD sum = carry (2 ^ 16) sum := by
  simp only [HIWORD, LOWORD, carry]
  omega

/-- Two steps are enough for the few words of an IP header. -/
theorem isFold_twoSteps (h : sum < 2 ^ 24) :
    IsFold (2 ^ 16) sum
      ((HIWORD sum + LOWORD sum + HIWORD (HIWORD sum + LOWORD sum)) % 2 ^ 16) := by
  rw [add_HIWORD (by omega)]
  have hone : carry (2 ^ 16) sum < 2 ^ 16 + 2 ^ 8 := by
    simp only [carry]
    omega
  have htwo : (carry (2 ^ 16) sum + HIWORD (carry (2 ^ 16) sum)) % 2 ^ 16 =
      carry (2 ^ 16) (carry (2 ^ 16) sum) := by
    generalize carry (2 ^ 16) sum = t at hone ⊢
    simp only [HIWORD, carry]
    omega
  have hsmall : carry (2 ^ 16) (carry (2 ^ 16) sum) < 2 ^ 16 := htwo ▸ Nat.mod_lt _ (by decide)
  rw [htwo]
  exact (isFold_carry (by decide)).1 ((isFold_carry (by decide)).1 (isFold_self hsmall))

end

/-! ## The order of the bytes -/

theorem net16_modEq (m : Mem) (i : ℕ) : net16 m i ≡ 2 ^ 8 * u16 m i [MOD 2 ^ 16 - 1] :=
  sum_bigWords_modEq (d := 2 ^ 8) (by decide) [(m i).toNat, (m (i + 1)).toNat]

/-- The words in network byte order verify if those in the order of the master do, with a pseudo
header in front of them. -/
theorem verifies_of_wordSum {ps : List ℕ} {p : ℕ} (hp : ps.sum ≡ 2 ^ 8 * p [MOD 2 ^ 16 - 1])
    (hzero : ps.sum = 0 → p = 0) {m : Mem} {pos len : ℕ}
    (h : 0 < p + wordSum m pos len ∧ 2 ^ 16 - 1 ∣ p + wordSum m pos len) :
    Verifies (ps ++ netWords m pos len) := by
  obtain ⟨hpos, hdvd⟩ := h
  refine (fold_eq_pred_iff (by decide)).2 ⟨?_, ?_⟩
  · by_contra hnot
    rw [List.sum_append] at hnot
    have hwords : wordSum m pos len = 0 :=
      (sum_bigWords_eq_zero (by decide) _).1 (show (netWords m pos len).sum = 0 by omega)
    have := hzero (by omega)
    omega
  · have hmod : (ps ++ netWords m pos len).sum ≡ 2 ^ 8 * (p + wordSum m pos len)
        [MOD 2 ^ 16 - 1] := by
      rw [List.sum_append, Nat.mul_add]
      exact hp.add (sum_bigWords_modEq (d := 2 ^ 8) (by decide) _)
    exact (hmod.dvd_iff dvd_rfl).2 (hdvd.mul_left _)

/-! ## The checksums -/

theorem complement_mod {w r : ℕ} (hw : w = 32 ∨ w = 64) (h : r < 2 ^ 32) :
    (2 ^ w - 1 - r) % 2 ^ 16 = 2 ^ 16 - 1 - r % 2 ^ 16 := by
  rcases hw with rfl | rfl <;> omega

/-- A message whose checksum is the complement of what its other words fold to. -/
theorem verifies_complement {m : Mem} {i k len r v : ℕ} (hi : i = 2 * k) (hlen : i + 2 ≤ len)
    (hr : IsFold (2 ^ 16) (wordSum (setU16 m i 0) 0 len) r) (hv : v % 2 ^ 16 = 2 ^ 16 - 1 - r) :
    Verifies (netWords (setU16 (setU16 m i 0) i v) 0 len) := by
  have hnone : ([] : List ℕ).sum ≡ 2 ^ 8 * 0 [MOD 2 ^ 16 - 1] := rfl
  refine verifies_of_wordSum hnone (fun _ => rfl) ?_
  have hzero : u16 (setU16 m i 0) i = 0 := u16_setU16 m i 0
  rw [Nat.zero_add, wordSum_setU16 (k := k) v hzero (by omega) (by omega), hv]
  exact isFold_add_complement (by decide) hr

theorem calculateIpChecksum_verifies (ip : Mem) :
    Verifies (netWords (calculateIpChecksum ip) 0 20) := by
  have hle := wordSum_le (setU16 ip 10 0) 0 20
  have hsum : addWords 32 (setU16 ip 10 0) 0 0 20 = wordSum (setU16 ip 10 0) 0 20 := by
    rw [addWords_eq (by omega), Nat.zero_add]
  refine verifies_complement (k := 5) rfl (by decide) (isFold_twoSteps (by omega)) ?_
  rw [hsum]
  exact complement_mod (.inl rfl) (by simp only [HIWORD, LOWORD]; omega)

theorem calculateIcmpChecksum_verifies (icmp : Mem) {len : ℕ} (hlow : 4 ≤ len)
    (hhigh : len < 2 ^ 17) : Verifies (netWords (calculateIcmpChecksum icmp len) 0 len) := by
  have hle := wordSum_le (setU16 icmp 2 0) 0 len
  have hsum : addWords 32 (setU16 icmp 2 0) 0 0 len = wordSum (setU16 icmp 2 0) 0 len := by
    rw [addWords_eq (by omega), Nat.zero_add]
  have hfold : IsFold (2 ^ 16) (wordSum (setU16 icmp 2 0) 0 len)
      (foldWords (addWords 32 (setU16 icmp 2 0) 0 0 len)) := by
    rw [hsum]
    exact isFold_foldWords (by omega)
  have hlt := hfold.lt
  refine verifies_complement (k := 1) rfl hlow hfold ?_
  rw [complement_mod (.inl rfl) (by omega), Nat.mod_eq_of_lt hlt]

theorem HIWORD_add_LOWORD (m : Mem) (i : ℕ) :
    HIWORD (u32 m i) + LOWORD (u32 m i) = u16 m (i + 2) + u16 m i := by
  have hlow := u16_lt m i
  have hhigh := u16_lt m (i + 2)
  simp only [u32, HIWORD, LOWORD]
  omega

/-- The words of the pseudo header are those the loop starts with. -/
theorem netPseudoHeader_modEq (ip udp : Mem) :
    (netPseudoHeader ip udp).sum ≡ 2 ^ 8 * pseudoHeader ip udp [MOD 2 ^ 16 - 1] := by
  have hprotocol : 17 ≡ 2 ^ 8 * htons 17 [MOD 2 ^ 16 - 1] := by decide
  have hwords : pseudoHeader ip udp =
      u16 ip 12 + (u16 ip 14 + (u16 ip 16 + (u16 ip 18 + (htons 17 + u16 udp 4)))) := by
    rw [pseudoHeader, HIWORD_add_LOWORD, HIWORD_add_LOWORD, show 12 + 2 = 14 from rfl,
      show 16 + 2 = 18 from rfl]
    omega
  rw [hwords]
  simp only [netPseudoHeader, List.sum_cons, List.sum_nil, Nat.add_zero, Nat.mul_add]
  exact (net16_modEq ip 12).add <| (net16_modEq ip 14).add <| (net16_modEq ip 16).add <|
    (net16_modEq ip 18).add <| hprotocol.add (net16_modEq udp 4)

theorem pseudoHeader_lt (ip udp : Mem) : pseudoHeader ip udp < 2 ^ 19 := by
  have hlen := u16_lt udp 4
  simp only [pseudoHeader, HIWORD, LOWORD, show htons 17 = 0x1100 from rfl]
  omega

theorem htons_u16 (m : Mem) (i : ℕ) : htons (u16 m i) = net16 m i := by
  have hlow := (m i).toNat_lt
  have hhigh := (m (i + 1)).toNat_lt
  simp only [htons, u16, net16]
  omega

theorem htons_lt (v : ℕ) : htons v < 2 ^ 16 := by
  rw [htons]
  omega

theorem net16_lt (m : Mem) (i : ℕ) : net16 m i < 2 ^ 16 := htons_u16 m i ▸ htons_lt _

/-- 0 stands for no checksum, and is sent as the other zero. -/
def udpCheck (r : ℕ) : ℕ :=
  if (2 ^ 64 - 1 - r) % 2 ^ 16 = 0 then 0xFFFF else (2 ^ 64 - 1 - r) % 2 ^ 16

theorem isFold_add_udpCheck {s r : ℕ} (h : IsFold (2 ^ 16) s r) :
    0 < s + udpCheck r % 2 ^ 16 ∧ 2 ^ 16 - 1 ∣ s + udpCheck r % 2 ^ 16 := by
  have hlt := h.lt
  obtain ⟨hpos, hdvd⟩ := isFold_add_complement (by decide) h
  have hcomplement : (2 ^ 64 - 1 - r) % 2 ^ 16 = 2 ^ 16 - 1 - r := by
    rw [complement_mod (.inr rfl) (by omega), Nat.mod_eq_of_lt hlt]
  rw [udpCheck, hcomplement]
  split
  case isTrue hzero =>
    rw [hzero] at hpos hdvd
    exact ⟨by omega, Nat.dvd_add hdvd dvd_rfl⟩
  case isFalse =>
    rw [Nat.mod_eq_of_lt (by omega)]
    exact ⟨hpos, hdvd⟩

theorem calculateUdpChecksum_verifies (ip udp : Mem) (h : 8 ≤ net16 udp 4) :
    Verifies (netPseudoHeader ip udp ++
      netWords (calculateUdpChecksum ip udp) 0 (net16 udp 4)) := by
  have hhigh := net16_lt udp 4
  have hpseudo := pseudoHeader_lt ip udp
  have hle := wordSum_le (setU16 udp 6 0) 0 (net16 udp 4)
  have hfold : IsFold (2 ^ 16) (pseudoHeader ip udp + wordSum (setU16 udp 6 0) 0 (net16 udp 4))
      (foldWords (pseudoHeader ip udp + wordSum (setU16 udp 6 0) 0 (net16 udp 4))) :=
    isFold_foldWords (by omega)
  have hsum : addWords 64 (setU16 udp 6 0) 0 (pseudoHeader ip udp) (net16 udp 4) =
      pseudoHeader ip udp + wordSum (setU16 udp 6 0) 0 (net16 udp 4) := addWords_eq (by omega)
  have hlt := hfold.lt
  refine verifies_of_wordSum (netPseudoHeader_modEq ip udp) ?_ ?_
  · intro hsum
    simp only [netPseudoHeader, List.sum_cons] at hsum
    omega
  · simp only [calculateUdpChecksum, htons_u16, hsum]
    rw [wordSum_setU16 (k := 3) _ (u16_setU16 udp 6 0) rfl h, ← Nat.add_assoc]
    exact isFold_add_udpCheck hfold

theorem calculateUdpChecksum_ne_zero (ip udp : Mem) :
    net16 (calculateUdpChecksum ip udp) 6 ≠ 0 := by
  have hword : u16 (calculateUdpChecksum ip udp) 6 ≠ 0 := by
    rw [calculateUdpChecksum, u16_setU16]
    split <;> omega
  simp only [u16, net16] at hword ⊢
  omega

/-- **Internet checksums verify**: for every IP header, every ICMP message and every UDP datagram.
The message reaches beyond its checksum and fits into an IP packet; the length of a datagram is its
own field, and not less than its header. -/
theorem checksums_verify :
    (∀ ip, Verifies (netWords (calculateIpChecksum ip) 0 20)) ∧
      (∀ icmp len, 4 ≤ len → len < 2 ^ 17 →
        Verifies (netWords (calculateIcmpChecksum icmp len) 0 len)) ∧
      ∀ ip udp, (8 ≤ net16 udp 4 → Verifies (netPseudoHeader ip udp ++
          netWords (calculateUdpChecksum ip udp) 0 (net16 udp 4))) ∧
        net16 (calculateUdpChecksum ip udp) 6 ≠ 0 :=
  ⟨calculateIpChecksum_verifies, fun icmp _ => calculateIcmpChecksum_verifies icmp,
    fun ip udp => ⟨calculateUdpChecksum_verifies ip udp, calculateUdpChecksum_ne_zero ip udp⟩⟩

/-- A datagram of nine bytes. -/
def nineBytes : Mem := fun i => if i = 5 then 9 else UInt8.ofNat i

theorem checksums_verify_nine :
    Verifies (netWords (calculateIcmpChecksum nineBytes 9) 0 9) ∧
      Verifies (netPseudoHeader nineBytes nineBytes ++
        netWords (calculateUdpChecksum nineBytes nineBytes) 0 (net16 nineBytes 4)) :=
  ⟨checksums_verify.2.1 nineBytes 9 (by decide) (by decide),
    (checksums_verify.2.2 nineBytes nineBytes).1 (by decide)⟩

end LibEthercat.Veth
