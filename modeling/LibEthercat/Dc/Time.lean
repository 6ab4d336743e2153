import Mathlib.Data.List.Chain
import LibEthercat.Dc.Diff

/-!
# The time of a 32 bit reference clock

`cb_distributed_clocks` (`ec.c`) takes the time of the reference clock out of the cyclic datagram. A
clock that counts 32 bits only is continued in software: the callback splits the time it has into
quotient and remainder, and takes one round more if the new reading is less than the remainder.

The rounds are taken as `UINT_MAX = 2^32 - 1` long, the counter goes through `2^32` values.

**Theorem (`dc_time_reconstructs_iff`).** The differences of the times are the elapsed times just if
the counter neither wraps between two readings nor shows `UINT_MAX` before the last one.
-/

namespace LibEthercat.Dc

variable {γ : Type}

/-! ## The callback -/

inductive DcMode
  | masterClock
  | refClock
  | masterAsRefClock
  deriving DecidableEq, Repr

/-- What the callback computes in floating point: the PI controller, with `timer_correction` in its
state, and `dc_sto += act_diff / 2.`. -/
structure Doubles (γ : Type) where
  control : γ → ℤ → γ
  addHalf : ℤ → ℤ → ℤ

/-- `pec->dc`, as far as the callback is concerned. -/
structure Clock (γ : Type) where
  have64bit : Bool
  masterAddress : UInt16
  mode : DcMode
  dcTime : BitVec 64
  rtcTime : BitVec 64
  actDiff : ℤ
  dcSto : ℤ
  sentTimeNsec : BitVec 64
  packetDuration : BitVec 64
  control : γ

/-- The datagram that comes back, the eight bytes of its payload as one number; `now` is the time at
which it comes, and `entry` says whether an index and a pool entry are free for another datagram. -/
structure Received where
  wkc : UInt16
  payload : BitVec 64
  now : BitVec 64
  entry : Bool

/-- The datagram with the offset for the reference clock. -/
structure OffsetDatagram where
  adr : BitVec 32
  dcSto : ℤ
  deriving DecidableEq

def EC_REG_DCSYSOFFSET : BitVec 32 := 0x0920

/-- `UINT_MAX`, as a 64 bit operand. -/
def uintMax : BitVec 64 := 0xFFFFFFFF

/-- Correct the upper 32 bits. -/
def extendTime (oldDcTime payload : BitVec 64) : BitVec 64 :=
  if payload < oldDcTime % uintMax then
    payload + (oldDcTime / uintMax * uintMax + uintMax)
  else payload + oldDcTime / uintMax * uintMax

/-- The time after a datagram that has been answered. -/
def Clock.nextTime (dc : Clock γ) (payload : BitVec 64) : BitVec 64 :=
  if dc.have64bit then payload else extendTime dc.dcTime payload

/-- The new time, and how far it is from the other clock. -/
def Clock.store (dc : Clock γ) (payload : BitVec 64) : Clock γ :=
  { dc with
    dcTime := dc.nextTime payload
    actDiff := signed64Diff (dc.rtcTime % BitVec.allOnes 64) (dc.nextTime payload) }

/-- Regulate one of the two clocks. -/
def Clock.regulate (fp : Doubles γ) (entry : Bool) (dc : Clock γ) :
    Clock γ × Option OffsetDatagram :=
  match dc.mode with
  | .refClock => ({ dc with control := fp.control dc.control dc.actDiff }, none)
  | .masterClock =>
    if entry then
      let dcSto := fp.addHalf dc.dcSto dc.actDiff
      ({ dc with dcSto },
        some ⟨(EC_REG_DCSYSOFFSET <<< 16) ||| dc.masterAddress.toBitVec.zeroExtend 32, dcSto⟩)
    else (dc, none)
  | .masterAsRefClock => (dc, none)

/-- `cb_distributed_clocks`, and the datagram that it queues. -/
def cbDistributedClocks (fp : Doubles γ) (p : Received) (dc : Clock γ) :
    Clock γ × Option OffsetDatagram :=
  let dc := { dc with packetDuration := p.now - dc.sentTimeNsec }
  if p.wkc ≠ 0 then (dc.store p.payload).regulate fp p.entry else (dc, none)

/-! ## Runs of the callback -/

/-- A reading of the clock: the true time at which the clock shows what the datagram brings, and the
rest of the datagram. -/
structure Reading where
  time : ℕ
  wkc : UInt16
  now : BitVec 64
  entry : Bool

def Reading.answered (r : Reading) : Bool := r.wkc ≠ 0

/-- A 32 bit clock shows the time modulo `2^32`, and the upper half of the payload is zero. -/
def Reading.received (r : Reading) : Received :=
  ⟨r.wkc, BitVec.ofNat 64 (r.time % 2 ^ 32), r.now, r.entry⟩

/-- The true times of the readings, each with the `dc_time` that is computed from it. -/
def readTimes (fp : Doubles γ) : Clock γ → List Reading → List (ℕ × BitVec 64)
  | _, [] => []
  | dc, r :: rs =>
    let dc' := (cbDistributedClocks fp r.received dc).1
    if r.answered then (r.time, dc'.dcTime) :: readTimes fp dc' rs else readTimes fp dc' rs

/-- The difference of the two values is the time that has elapsed. -/
def Elapsed (x y : ℕ × BitVec 64) : Prop := (y.2.toNat : ℤ) - x.2.toNat = (y.1 : ℤ) - x.1

instance (x y : ℕ × BitVec 64) : Decidable (Elapsed x y) := inferInstanceAs (Decidable (_ = _))

instance : Trans Elapsed Elapsed Elapsed where
  trans {x y z} h h' := by
    simp only [Elapsed] at *
    omega

/-- Any two values have the right difference. -/
def Reconstructs (l : List (ℕ × BitVec 64)) : Prop := l.Pairwise Elapsed

/-- The reading `t'` comes after `t`, less than `2^32` nanoseconds later. -/
def Successive (t t' : ℕ) : Prop := t ≤ t' ∧ t' < t + 2 ^ 32

instance (t t' : ℕ) : Decidable (Successive t t') := inferInstanceAs (Decidable (_ ∧ _))

/-- The counter does not wrap between two readings, and does not show `UINT_MAX` at the first. -/
def SameRound (t t' : ℕ) : Prop := t' / 2 ^ 32 = t / 2 ^ 32 ∧ t % 2 ^ 32 ≠ 2 ^ 32 - 1

instance (t t' : ℕ) : Decidable (SameRound t t') := inferInstanceAs (Decidable (_ ∧ _))

/-- The times of the readings that were answered. -/
def answeredTimes (rs : List Reading) : List ℕ := (rs.filter Reading.answered).map Reading.time

/-! ## One reading -/

theorem regulate_keeps (fp : Doubles γ) (entry : Bool) (dc : Clock γ) :
    (dc.regulate fp entry).1.have64bit = dc.have64bit ∧
      (dc.regulate fp entry).1.dcTime = dc.dcTime := by
  unfold Clock.regulate
  cases dc.mode with
  | refClock => exact ⟨rfl, rfl⟩
  | masterClock => split_ifs <;> exact ⟨rfl, rfl⟩
  | masterAsRefClock => exact ⟨rfl, rfl⟩

theorem cb_have64bit (fp : Doubles γ) (p : Received) (dc : Clock γ) :
    (cbDistributedClocks fp p dc).1.have64bit = dc.have64bit := by
  unfold cbDistributedClocks
  split_ifs
  · rw [(regulate_keeps fp _ _).1, Clock.store]
  · rfl

theorem cb_dcTime (fp : Doubles γ) (p : Received) (dc : Clock γ) :
    (cbDistributedClocks fp p dc).1.dcTime =
      if p.wkc ≠ 0 then dc.nextTime p.payload else dc.dcTime := by
  unfold cbDistributedClocks
  split_ifs
  · rw [(regulate_keeps fp _ _).2, Clock.store]
    rfl
  · rfl

/-- No round is full before the counter shows `UINT_MAX`. -/
theorem extendTime_of_lt {x y : BitVec 64} (h : x < uintMax) :
    extendTime x y = if y < x then y + uintMax else y := by
  have hmod : x % uintMax = x := BitVec.umod_eq_of_lt h
  have hdiv : x / uintMax = 0#64 := BitVec.udiv_eq_zero_iff_eq_zero_or_lt.2 (.inr h)
  rw [extendTime, hmod, hdiv, BitVec.zero_mul, BitVec.zero_add, BitVec.add_zero]

/-- At `UINT_MAX` one is. -/
theorem extendTime_max (y : BitVec 64) : extendTime uintMax y = y + uintMax := by
  have hmod : uintMax % uintMax = 0#64 := rfl
  have hdiv : uintMax / uintMax * uintMax = uintMax := rfl
  rw [extendTime, hmod, hdiv, if_neg BitVec.not_lt_zero]

/-- The extension of a reading by the next one, in numbers. -/
theorem toNat_extendTime {old new : ℕ} (ho : old < 2 ^ 32) (hn : new < 2 ^ 32) :
    (extendTime (BitVec.ofNat 64 old) (BitVec.ofNat 64 new)).toNat =
      if old = 2 ^ 32 - 1 ∨ new < old then new + (2 ^ 32 - 1) else new := by
  have hold : (BitVec.ofNat 64 old).toNat = old := Nat.mod_eq_of_lt (by omega)
  have hnew : (BitVec.ofNat 64 new).toNat = new := Nat.mod_eq_of_lt (by omega)
  have hmax : uintMax.toNat = 2 ^ 32 - 1 := rfl
  have hsum : (BitVec.ofNat 64 new + uintMax).toNat = new + (2 ^ 32 - 1) := by
    rw [BitVec.toNat_add, hnew, hmax, Nat.mod_eq_of_lt (by omega)]
  by_cases hfull : old = 2 ^ 32 - 1
  · have holdmax : BitVec.ofNat 64 old = uintMax :=
      BitVec.eq_of_toNat_eq (by rw [hold, hmax, hfull])
    rw [holdmax, extendTime_max, hsum, if_pos (.inl hfull)]
  · rw [extendTime_of_lt (BitVec.lt_def.2 (by omega))]
    by_cases hlt : new < old
    · rw [if_pos (BitVec.lt_def.2 (by omega)), hsum, if_pos (.inr hlt)]
    · rw [if_neg (by rw [BitVec.lt_def]; omega), hnew, if_neg (by omega)]

/-- From a value that is the reading itself, the next one is right just in the same round. -/
theorem elapsed_iff {t t' : ℕ} (h : Successive t t') :
    Elapsed (t, BitVec.ofNat 64 (t % 2 ^ 32))
      (t', extendTime (BitVec.ofNat 64 (t % 2 ^ 32)) (BitVec.ofNat 64 (t' % 2 ^ 32))) ↔
      SameRound t t' := by
  have hold : (BitVec.ofNat 64 (t % 2 ^ 32)).toNat = t % 2 ^ 32 := by
    rw [BitVec.toNat_ofNat]
    omega
  simp only [Successive, Elapsed, SameRound] at *
  rw [toNat_extendTime (Nat.mod_lt _ (by omega)) (Nat.mod_lt _ (by omega)), hold]
  split_ifs <;> omega

/-- In the same round the next value is the next reading. -/
theorem extendTime_of_sameRound {t t' : ℕ} (h : Successive t t') (hs : SameRound t t') :
    extendTime (BitVec.ofNat 64 (t % 2 ^ 32)) (BitVec.ofNat 64 (t' % 2 ^ 32)) =
      BitVec.ofNat 64 (t' % 2 ^ 32) := by
  apply BitVec.eq_of_toNat_eq
  simp only [Successive, SameRound] at *
  rw [toNat_extendTime (Nat.mod_lt _ (by omega)) (Nat.mod_lt _ (by omega)), BitVec.toNat_ofNat]
  split_ifs <;> omega

theorem extendTime_zero (x : BitVec 64) : extendTime 0#64 x = x := by
  rw [extendTime_of_lt (by decide), if_neg BitVec.not_lt_zero]

/-! ## All readings -/

/-- A datagram that is not answered does not count. -/
theorem readTimes_lost (fp : Doubles γ) (dc : Clock γ) {r : Reading} (rs : List Reading)
    (h : r.answered = false) :
    readTimes fp dc (r :: rs) = readTimes fp (cbDistributedClocks fp r.received dc).1 rs ∧
      (cbDistributedClocks fp r.received dc).1.dcTime = dc.dcTime ∧
      answeredTimes (r :: rs) = answeredTimes rs := by
  have hwkc : r.wkc = 0 := by simpa [Reading.answered] using h
  refine ⟨by rw [readTimes, if_neg (by simp [h])], ?_, by simp [answeredTimes, h]⟩
  rw [cb_dcTime, if_neg (by simp [Reading.received, hwkc])]

theorem readTimes_answered (fp : Doubles γ) (dc : Clock γ) {r : Reading} (rs : List Reading)
    (h : r.answered = true) :
    readTimes fp dc (r :: rs) = (r.time, (cbDistributedClocks fp r.received dc).1.dcTime) ::
        readTimes fp (cbDistributedClocks fp r.received dc).1 rs ∧
      (cbDistributedClocks fp r.received dc).1.dcTime =
        dc.nextTime (BitVec.ofNat 64 (r.time % 2 ^ 32)) ∧
      answeredTimes (r :: rs) = r.time :: answeredTimes rs := by
  have hwkc : r.wkc ≠ 0 := by simpa [Reading.answered] using h
  refine ⟨by rw [readTimes, if_pos h], ?_, by simp [answeredTimes, h]⟩
  rw [cb_dcTime, if_pos (by simpa [Reading.received] using hwkc)]
  rfl

/-- The readings after one whose value was right. -/
theorem readTimes_isChain (fp : Doubles γ) {dc : Clock γ} {t : ℕ} {rs : List Reading}
    (h32 : dc.have64bit = false) (hdc : dc.dcTime = BitVec.ofNat 64 (t % 2 ^ 32))
    (hs : (t :: answeredTimes rs).IsChain Successive) :
    ((t, dc.dcTime) :: readTimes fp dc rs).IsChain Elapsed ↔
      (t :: answeredTimes rs).IsChain SameRound := by
  induction rs generalizing dc t with
  | nil => simp [readTimes, answeredTimes]
  | cons r rs ih =>
    have h32' : (cbDistributedClocks fp r.received dc).1.have64bit = false := by
      rw [cb_have64bit, h32]
    cases hr : r.answered with
    | false =>
      obtain ⟨hread, htime, hans⟩ := readTimes_lost fp dc rs hr
      rw [hans] at hs ⊢
      rw [hread, ← htime]
      exact ih h32' (htime.trans hdc) hs
    | true =>
      obtain ⟨hread, htime, hans⟩ := readTimes_answered fp dc rs hr
      rw [Clock.nextTime, h32, if_neg Bool.false_ne_true, hdc] at htime
      rw [hans, List.isChain_cons_cons] at hs ⊢
      rw [hread, List.isChain_cons_cons]
      by_cases hround : SameRound t r.time
      · have hnext := htime.trans (extendTime_of_sameRound hs.1 hround)
        rw [ih h32' hnext hs.2, htime, hdc, elapsed_iff hs.1]
      · -- The value is wrong already.
        have hwrong := mt (elapsed_iff hs.1).1 hround
        rw [← htime, ← hdc] at hwrong
        simp only [hround, hwrong, false_and]

theorem readTimes_isChain_iff (fp : Doubles γ) {dc : Clock γ} {rs : List Reading}
    (h32 : dc.have64bit = false) (hzero : dc.dcTime = 0#64)
    (hs : (answeredTimes rs).IsChain Successive) :
    (readTimes fp dc rs).IsChain Elapsed ↔ (answeredTimes rs).IsChain SameRound := by
  induction rs generalizing dc with
  | nil => simp [readTimes, answeredTimes]
  | cons r rs ih =>
    have h32' : (cbDistributedClocks fp r.received dc).1.have64bit = false := by
      rw [cb_have64bit, h32]
    cases hr : r.answered with
    | false =>
      obtain ⟨hread, htime, hans⟩ := readTimes_lost fp dc rs hr
      rw [hans] at hs ⊢
      rw [hread]
      exact ih h32' (htime.trans hzero) hs
    | true =>
      obtain ⟨hread, htime, hans⟩ := readTimes_answered fp dc rs hr
      rw [Clock.nextTime, h32, if_neg Bool.false_ne_true, hzero, extendTime_zero] at htime
      rw [hans] at hs ⊢
      rw [hread]
      exact readTimes_isChain fp h32' htime hs

/-- **The time of a 32 bit clock is right until its counter wraps.** -/
theorem dc_time_reconstructs_iff (fp : Doubles γ) {dc : Clock γ} {rs : List Reading}
    (h32 : dc.have64bit = false) (hzero : dc.dcTime = 0#64)
    (hs : (answeredTimes rs).IsChain Successive) :
    Reconstructs (readTimes fp dc rs) ↔ (answeredTimes rs).IsChain SameRound := by
  rw [Reconstructs, ← List.isChain_iff_pairwise]
  exact readTimes_isChain_iff fp h32 hzero hs

/-- A 32 bit reference clock before its first reading; nothing is regulated. -/
def freshClock : Clock Unit :=
  ⟨false, 0x1000, .masterAsRefClock, 0#64, 0#64, 0, 0, 0#64, 0#64, ()⟩

def noDoubles : Doubles Unit := ⟨fun c _ => c, fun x _ => x⟩

/-- Two cycles and a lost datagram between them. -/
theorem dc_time_reconstructs_two_cycles :
    Reconstructs (readTimes noDoubles freshClock
      [⟨2 ^ 32 + 1000000, 1, 0, true⟩, ⟨2 ^ 32 + 2000000, 0, 0, true⟩,
        ⟨2 ^ 32 + 3000000, 1, 0, true⟩]) :=
  (dc_time_reconstructs_iff noDoubles rfl rfl (by decide)).2 (by decide)

/-- Ten nanoseconds over the wrap are taken for nine. -/
theorem dc_time_loses_a_nanosecond :
    (answeredTimes [⟨2 ^ 32 - 6, 1, 0, true⟩, ⟨2 ^ 32 + 4, 1, 0, true⟩]).IsChain Successive ∧
    readTimes noDoubles freshClock [⟨2 ^ 32 - 6, 1, 0, true⟩, ⟨2 ^ 32 + 4, 1, 0, true⟩] =
      [(2 ^ 32 - 6, 4294967290#64), (2 ^ 32 + 4, 4294967299#64)] ∧
    ¬ Reconstructs [(2 ^ 32 - 6, 4294967290#64), (2 ^ 32 + 4, 4294967299#64)] :=
  ⟨by decide, by decide, by unfold Reconstructs; decide⟩

end LibEthercat.Dc
