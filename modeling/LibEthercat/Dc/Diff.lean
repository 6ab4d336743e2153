import Mathlib.Algebra.GroupWithZero.Nat
import Mathlib.Data.Int.Init
import Mathlib.Data.Nat.Notation
import Mathlib.Tactic.SplitIfs

/-!
# The signed difference of two clock readings

`signed64_diff` and `signed32_diff` (`ec.c`) subtract unsigned clock values. If the two lie more
than half of the range apart, one of them is complemented first, `UINT64_MAX - a`, so that the
absolute difference fits into the signed type again.

**Theorem (`signed_diff_eq_iff`).** The result is the two's complement value of `a - b` just if the
values are at most half of the range apart. Otherwise it never is: the complement gives
`UINT64_MAX - a - b`, which differs from `a - b` by the odd number `UINT64_MAX - 2 * a`.
-/

namespace LibEthercat.Dc

variable {w : ℕ}

/-! ## The functions -/

/-- `abs_diff`. -/
def absDiff (a b : BitVec w) : BitVec w := if a < b then b - a else a - b

/-- `tmp_a` and `tmp_b`, as they are in the end. -/
def tmpPair (a b : BitVec w) : BitVec w × BitVec w :=
  if BitVec.intMax w < absDiff a b then
    if BitVec.intMax w < a then (BitVec.allOnes w - a, b)
    else if BitVec.intMax w < b then (a, BitVec.allOnes w - b)
    else (a, b)
  else (a, b)

/-- Both functions, which differ in the width of their type only. -/
def signedDiff (a b : BitVec w) : ℤ :=
  let tmp := tmpPair a b
  if tmp.2 < tmp.1 then (absDiff tmp.1 tmp.2).toInt else -(absDiff tmp.1 tmp.2).toInt

def signed64Diff (a b : BitVec 64) : ℤ := signedDiff a b

def signed32Diff (a b : BitVec 32) : ℤ := signedDiff a b

/-! ## In numbers -/

/-- Less than half of the range apart. -/
def Near (a b : BitVec w) : Prop :=
  a.toNat < b.toNat + 2 ^ (w - 1) ∧ b.toNat < a.toNat + 2 ^ (w - 1)

instance (a b : BitVec w) : Decidable (Near a b) := inferInstanceAs (Decidable (_ ∧ _))

theorem toNat_absDiff (a b : BitVec w) :
    (absDiff a b).toNat = (a.toNat - b.toNat) + (b.toNat - a.toNat) := by
  unfold absDiff
  split_ifs with h
  · rw [BitVec.toNat_sub_of_le (BitVec.le_of_lt h)]
    have := BitVec.lt_def.1 h
    omega
  · rw [BitVec.toNat_sub_of_le (BitVec.not_lt.1 h)]
    have := BitVec.le_def.1 (BitVec.not_lt.1 h)
    omega

theorem intMax_lt {k : ℕ} {x : BitVec (k + 1)} : BitVec.intMax (k + 1) < x ↔ 2 ^ k ≤ x.toNat := by
  have := Nat.two_pow_pos k
  rw [BitVec.lt_def, BitVec.toNat_intMax, Nat.add_sub_cancel]
  omega

theorem toNat_complement {k : ℕ} (x : BitVec (k + 1)) :
    (BitVec.allOnes (k + 1) - x).toNat = 2 * 2 ^ k - 1 - x.toNat := by
  rw [BitVec.toNat_sub_of_le (BitVec.le_def.2 (by rw [BitVec.toNat_allOnes]; omega)),
    BitVec.toNat_allOnes, Nat.pow_succ, Nat.mul_comm (2 ^ k)]

theorem toInt_succ {k : ℕ} (x : BitVec (k + 1)) :
    x.toInt = if x.toNat < 2 ^ k then (x.toNat : ℤ) else x.toNat - 2 * (2 ^ k : ℕ) := by
  rw [BitVec.toInt_eq_toNat_cond, Nat.pow_succ, Nat.mul_comm (2 ^ k) 2]
  split_ifs <;> omega

/-! ## Both results as numbers -/

/-- After the complement the values are near, so that neither the conversion to the signed type nor
the negation overflows. -/
theorem near_tmpPair {k : ℕ} (a b : BitVec (k + 1)) :
    Near (tmpPair a b).1 (tmpPair a b).2 := by
  have ha := a.isLt
  have hb := b.isLt
  rw [Nat.pow_succ] at ha hb
  simp only [tmpPair, intMax_lt, toNat_absDiff]
  split_ifs with hfar hA hB <;>
    simp only [Near, Nat.add_sub_cancel, toNat_complement] <;> omega

theorem signedDiff_eq {k : ℕ} (a b : BitVec (k + 1)) :
    signedDiff a b = ((tmpPair a b).1.toNat : ℤ) - (tmpPair a b).2.toNat := by
  have hnear := near_tmpPair a b
  simp only [Near, Nat.add_sub_cancel] at hnear
  simp only [signedDiff, toInt_succ, toNat_absDiff, BitVec.lt_def]
  split_ifs <;> omega

/-- The signed value of a difference that wraps, in its three cases. -/
theorem toInt_sub_eq {k : ℕ} (a b : BitVec (k + 1)) :
    (a - b).toInt = (a.toNat : ℤ) - b.toNat +
      if b.toNat + 2 ^ k ≤ a.toNat then -((2 * 2 ^ k : ℕ) : ℤ)
      else if a.toNat + 2 ^ k < b.toNat then (2 * 2 ^ k : ℕ) else 0 := by
  have ha := a.isLt
  have hb := b.isLt
  rw [toInt_succ, BitVec.toNat_sub]
  rw [Nat.pow_succ] at ha hb ⊢
  generalize 2 ^ k = P at *
  by_cases hab : b.toNat ≤ a.toNat
  · have hsub : (P * 2 - b.toNat + a.toNat) % (P * 2) = a.toNat - b.toNat := by
      rw [show P * 2 - b.toNat + a.toNat = (a.toNat - b.toNat) + P * 2 by omega,
        Nat.add_mod_right, Nat.mod_eq_of_lt (by omega)]
    rw [hsub]
    split_ifs <;> omega
  · rw [Nat.mod_eq_of_lt (by omega)]
    split_ifs <;> omega

/-! ## Where they agree -/

theorem signedDiff_of_near {k : ℕ} {a b : BitVec (k + 1)} (h : Near a b) :
    signedDiff a b = (a - b).toInt := by
  simp only [Near, Nat.add_sub_cancel] at h
  have hle : ¬ BitVec.intMax (k + 1) < absDiff a b := by
    rw [intMax_lt, toNat_absDiff]
    omega
  have htmp : tmpPair a b = (a, b) := by rw [tmpPair, if_neg hle]
  rw [signedDiff_eq, htmp, toInt_sub_eq]
  dsimp only
  split_ifs <;> omega

/-- Twice a value is never `UINT64_MAX`. -/
theorem signedDiff_of_not_near {k : ℕ} {a b : BitVec (k + 1)} (h : ¬ Near a b) :
    signedDiff a b ≠ (a - b).toInt := by
  have ha := a.isLt
  have hb := b.isLt
  rw [Nat.pow_succ] at ha hb
  simp only [Near, Nat.add_sub_cancel] at h
  have hfar : BitVec.intMax (k + 1) < absDiff a b := by
    rw [intMax_lt, toNat_absDiff]
    omega
  rw [signedDiff_eq, toInt_sub_eq, tmpPair, if_pos hfar]
  simp only [intMax_lt]
  by_cases hab : b.toNat < a.toNat
  · rw [if_pos (show 2 ^ k ≤ a.toNat by omega), if_pos (show b.toNat + 2 ^ k ≤ a.toNat by omega),
      toNat_complement]
    dsimp only
    omega
  · rw [if_neg (show ¬ 2 ^ k ≤ a.toNat by omega), if_pos (show 2 ^ k ≤ b.toNat by omega),
      if_neg (show ¬ b.toNat + 2 ^ k ≤ a.toNat by omega), toNat_complement]
    dsimp only
    split_ifs <;> omega

theorem signedDiff_eq_iff {k : ℕ} (a b : BitVec (k + 1)) :
    signedDiff a b = (a - b).toInt ↔ Near a b :=
  ⟨fun h => Decidable.of_not_not fun hn => signedDiff_of_not_near hn h, signedDiff_of_near⟩

/-! ## The two widths -/

/-- **The signed difference is right within half of the range, and never beyond.** -/
theorem signed_diff_eq_iff (a b : BitVec 64) (c d : BitVec 32) :
    (signed64Diff a b = (a - b).toInt ↔
      a.toNat < b.toNat + 2 ^ 63 ∧ b.toNat < a.toNat + 2 ^ 63) ∧
    (signed32Diff c d = (c - d).toInt ↔
      c.toNat < d.toNat + 2 ^ 31 ∧ d.toNat < c.toNat + 2 ^ 31) :=
  ⟨signedDiff_eq_iff a b, signedDiff_eq_iff c d⟩

/-- One nanosecond after the wrap the clock seems to have gone back. -/
theorem signed_diff_wraps_wrong :
    signed64Diff 0 (BitVec.allOnes 64) = 0 ∧ (0 - BitVec.allOnes 64).toInt = 1 ∧
    signed32Diff 0 (BitVec.allOnes 32) = 0 ∧ (0 - BitVec.allOnes 32).toInt = 1 := by
  decide

end LibEthercat.Dc
