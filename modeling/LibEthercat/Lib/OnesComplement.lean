import Mathlib.Data.Nat.ModEq

/-!
# One's complement sums

A sum is folded to one digit of base `b` by adding its carries to the last digit until there are
none. It only counts whether it is zero, and what it leaves modulo `b - 1`.

* `fold_eq_pred_iff` — the sums that fold to the greatest digit.
* `isFold_add_complement` — a sum with the complement of what it folds to is one of them.
* `sum_bigWords_modEq` — the words of a string of digits, in either order.
-/

namespace OnesComplement

variable {b s t r r' : ℕ}

/-- The carries are added to the last digit. -/
def carry (b s : ℕ) : ℕ := s % b + s / b

theorem carry_lt (hb : 2 ≤ b) (h : b ≤ s) : carry b s < s := by
  have hdiv : 0 < s / b := Nat.div_pos h (by omega)
  have hmod := Nat.mod_add_div s b
  have hmul : 2 * (s / b) ≤ b * (s / b) := Nat.mul_le_mul_right _ hb
  rw [carry]
  omega

/-- End-around carry, until there is none. -/
def fold (b s : ℕ) : ℕ := if 2 ≤ b ∧ b ≤ s then fold b (carry b s) else s
termination_by s
decreasing_by exact carry_lt (by omega) (by omega)

/-- One digit that is the same sum up to its carries. -/
structure IsFold (b s r : ℕ) : Prop where
  lt : r < b
  modEq : r ≡ s [MOD b - 1]
  zero : r = 0 ↔ s = 0

theorem carry_modEq (hb : 1 ≤ b) (s : ℕ) : carry b s ≡ s [MOD b - 1] := by
  have hsplit : s = carry b s + (b - 1) * (s / b) := by
    have hmod := Nat.mod_add_div s b
    have hmul := Nat.sub_one_mul b (s / b)
    have hle : s / b ≤ b * (s / b) := Nat.le_mul_of_pos_left _ hb
    rw [carry]
    omega
  have hzero : (b - 1) * (s / b) ≡ 0 [MOD b - 1] := Nat.modEq_zero_iff_dvd.2 (Nat.dvd_mul_right _ _)
  calc carry b s ≡ carry b s + (b - 1) * (s / b) [MOD b - 1] := (hzero.add_left (carry b s)).symm
    _ = s := hsplit.symm

theorem carry_eq_zero (b s : ℕ) : carry b s = 0 ↔ s = 0 := by
  constructor
  · intro h
    have hmod := Nat.mod_add_div s b
    obtain ⟨hlow, hhigh⟩ := Nat.add_eq_zero_iff.1 h
    rw [hlow, hhigh, Nat.mul_zero] at hmod
    exact hmod.symm
  · rintro rfl
    rw [carry, Nat.zero_mod, Nat.zero_div]

theorem isFold_self (h : s < b) : IsFold b s s := ⟨h, rfl, Iff.rfl⟩

theorem isFold_carry (hb : 1 ≤ b) : IsFold b (carry b s) r ↔ IsFold b s r := by
  constructor
  · exact fun h => ⟨h.lt, h.modEq.trans (carry_modEq hb s), h.zero.trans (carry_eq_zero b s)⟩
  · exact fun h => ⟨h.lt, h.modEq.trans (carry_modEq hb s).symm,
      h.zero.trans (carry_eq_zero b s).symm⟩

theorem isFold_fold (hb : 2 ≤ b) (s : ℕ) : IsFold b s (fold b s) := by
  induction s using fold.induct b with
  | case1 s h ih =>
    rw [fold, if_pos h]
    exact (isFold_carry (by omega)).1 ih
  | case2 s h =>
    rw [fold, if_neg h]
    exact isFold_self (by omega)

/-- The greatest digit is what the sums fold to that are not zero but divisible. -/
theorem IsFold.eq_pred_iff (hb : 2 ≤ b) (h : IsFold b s r) : r = b - 1 ↔ 0 < s ∧ b - 1 ∣ s := by
  have hdvd : b - 1 ∣ r ↔ b - 1 ∣ s := h.modEq.dvd_iff dvd_rfl
  have hzero := h.zero
  have hlt := h.lt
  constructor
  · intro hr
    have hdigit : b - 1 ∣ r := hr ▸ dvd_rfl
    exact ⟨by omega, hdvd.1 hdigit⟩
  · rintro ⟨hpos, hs⟩
    have hle : b - 1 ≤ r := Nat.le_of_dvd (by omega) (hdvd.2 hs)
    omega

/-- **The sums that fold to the greatest digit.** -/
theorem fold_eq_pred_iff (hb : 2 ≤ b) : fold b s = b - 1 ↔ 0 < s ∧ b - 1 ∣ s :=
  (isFold_fold hb s).eq_pred_iff hb

/-- **A sum with its complement.** -/
theorem isFold_add_complement (hb : 2 ≤ b) (h : IsFold b s r) :
    0 < s + (b - 1 - r) ∧ b - 1 ∣ s + (b - 1 - r) := by
  have hlt := h.lt
  have hzero := h.zero
  refine ⟨by omega, Nat.modEq_zero_iff_dvd.1 ?_⟩
  calc s + (b - 1 - r) ≡ r + (b - 1 - r) [MOD b - 1] := h.modEq.symm.add_right _
    _ = b - 1 := by omega
    _ ≡ 0 [MOD b - 1] := Nat.modEq_zero_iff_dvd.2 dvd_rfl

/-! ## Words of two digits -/

variable {d : ℕ}

/-- The words of a string of digits, low digit first. An odd digit is the low one of a word. -/
def littleWords (d : ℕ) : List ℕ → List ℕ
  | [] => []
  | [x] => [x]
  | x :: y :: xs => (x + d * y) :: littleWords d xs

/-- The words, high digit first. An odd digit is the high one of a word. -/
def bigWords (d : ℕ) : List ℕ → List ℕ
  | [] => []
  | [x] => [d * x]
  | x :: y :: xs => (d * x + y) :: bigWords d xs

/-- **The order of the digits** multiplies the sum by `d`. -/
theorem sum_bigWords_modEq (hd : 1 ≤ d) (xs : List ℕ) :
    (bigWords d xs).sum ≡ d * (littleWords d xs).sum [MOD d * d - 1] := by
  induction xs using littleWords.induct with
  | case1 => rfl
  | case2 x => simp [bigWords, littleWords, Nat.ModEq.refl]
  | case3 x y xs ih =>
    rw [bigWords, littleWords, List.sum_cons, List.sum_cons, Nat.mul_add]
    refine Nat.ModEq.add ?_ ih
    have hone : d * d ≡ 1 [MOD d * d - 1] := by
      have hle : 1 ≤ d * d := Nat.mul_pos hd hd
      exact ((Nat.modEq_iff_dvd' hle).2 dvd_rfl).symm
    calc d * x + y = d * x + 1 * y := by rw [Nat.one_mul]
      _ ≡ d * x + d * d * y [MOD d * d - 1] := (hone.symm.mul_right y).add_left _
      _ = d * (x + d * y) := by rw [Nat.mul_add, Nat.mul_assoc]

theorem sum_bigWords_eq_zero (hd : 1 ≤ d) (xs : List ℕ) :
    (bigWords d xs).sum = 0 ↔ (littleWords d xs).sum = 0 := by
  induction xs using littleWords.induct with
  | case1 => rfl
  | case2 x =>
    simp only [bigWords, littleWords, List.sum_cons, List.sum_nil, Nat.add_zero, Nat.mul_eq_zero]
    omega
  | case3 x y xs ih =>
    simp only [bigWords, littleWords, List.sum_cons, Nat.add_eq_zero_iff, Nat.mul_eq_zero, ih]
    omega

end OnesComplement
