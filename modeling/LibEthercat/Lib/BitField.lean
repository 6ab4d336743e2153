import Mathlib.Algebra.GroupWithZero.Nat

/-!
# Bit fields

A field of a number is some bits from a bit `lo` on. To assign to it leaves the bits below and above
as they are; what is cut off at the top (`get_mod`) belongs to no field that is left.
-/

namespace BitField

/-- The field of `width` bits from bit `lo` on. -/
def get (x lo width : ℕ) : ℕ := x / 2 ^ lo % 2 ^ width

/-- Assign to this field. -/
def set (x lo width v : ℕ) : ℕ :=
  x % 2 ^ lo + 2 ^ lo * (v % 2 ^ width) + x / 2 ^ (lo + width) * 2 ^ (lo + width)

variable {k lo width lo' width' : ℕ}

/-- A field does not depend on what is above it. -/
theorem get_mod (x : ℕ) (h : lo + width ≤ k) : get (x % 2 ^ k) lo width = get x lo width := by
  have hdvd : 2 ^ lo * 2 ^ width ∣ 2 ^ k := by
    rw [← Nat.pow_add]
    exact Nat.pow_dvd_pow 2 h
  rw [get, get, ← Nat.mod_mul_right_div_self, ← Nat.mod_mul_right_div_self,
    Nat.mod_mod_of_dvd _ hdvd]

/-- The part below the field, and the rest. -/
theorem set_eq (x lo width v : ℕ) : set x lo width v =
    x % 2 ^ lo + 2 ^ lo * (v % 2 ^ width + 2 ^ width * (x / 2 ^ (lo + width))) := by
  rw [set, Nat.mul_add, ← Nat.mul_assoc, ← Nat.pow_add, Nat.mul_comm (2 ^ (lo + width)),
    Nat.add_assoc]

theorem set_div (x lo width v : ℕ) :
    set x lo width v / 2 ^ lo = v % 2 ^ width + 2 ^ width * (x / 2 ^ (lo + width)) := by
  have hlow : x % 2 ^ lo / 2 ^ lo = 0 := Nat.div_eq_of_lt (Nat.mod_lt _ (Nat.two_pow_pos lo))
  rw [set_eq, Nat.add_mul_div_left _ _ (Nat.two_pow_pos lo), hlow, Nat.zero_add]

/-- A field has the value that is assigned to it. -/
theorem get_set_self (x lo width v : ℕ) : get (set x lo width v) lo width = v % 2 ^ width := by
  rw [get, set_div, Nat.add_mul_mod_self_left, Nat.mod_mod]

/-- A field below it is as before. -/
theorem get_set_below (x v : ℕ) (h : lo' + width' ≤ lo) :
    get (set x lo width v) lo' width' = get x lo' width' := by
  rw [← get_mod _ h, set_eq, Nat.add_mul_mod_self_left, Nat.mod_mod, get_mod _ h]

/-- A field above it is as before. -/
theorem get_set_above (x v : ℕ) (h : lo + width ≤ lo') :
    get (set x lo width v) lo' width' = get x lo' width' := by
  have hdiv : set x lo width v / 2 ^ lo / 2 ^ width = x / 2 ^ lo / 2 ^ width := by
    have hval : v % 2 ^ width / 2 ^ width = 0 :=
      Nat.div_eq_of_lt (Nat.mod_lt _ (Nat.two_pow_pos width))
    rw [set_div, Nat.add_mul_div_left _ _ (Nat.two_pow_pos width), hval, Nat.zero_add, Nat.pow_add,
      ← Nat.div_div_eq_div_mul]
  obtain ⟨d, rfl⟩ := Nat.exists_eq_add_of_le h
  have hshift (y : ℕ) : y / 2 ^ (lo + width + d) = y / 2 ^ lo / 2 ^ width / 2 ^ d := by
    rw [Nat.pow_add, Nat.pow_add, ← Nat.div_div_eq_div_mul, ← Nat.div_div_eq_div_mul]
  rw [get, get, hshift, hshift, hdiv]

end BitField
