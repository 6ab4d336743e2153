import Mathlib.Algebra.GroupWithZero.Nat

/-!
# Bits of a memory of bytes

Bit `i` of a memory is bit `i % 8` of its byte `i / 8`. `overlay m f` is the memory `m` with the
bits that `f` gives in place of its own.

* `overlay_of_none` — a byte of which no bit is given stays.
* `overlay_of_bits` — a byte whose bits are those of another byte becomes that byte.
-/

namespace BitOverlay

variable {m m' : ℕ → UInt8} {f : ℕ → Option Bool} {a c k : ℕ}

def bitAt (m : ℕ → UInt8) (i : ℕ) : Bool := (m (i / 8)).toBitVec.getLsbD (i % 8)

theorem bitAt_byte (hk : k < 8) : bitAt m (8 * a + k) = (m a).toBitVec.getLsbD k := by
  rw [bitAt, Nat.mul_add_div (by decide), Nat.div_eq_of_lt hk, Nat.mul_add_mod, Nat.mod_eq_of_lt hk,
    Nat.add_zero]

/-- The byte with these bits. -/
def byteOf (b : ℕ → Bool) : UInt8 := ⟨.setWidth 8 (BitVec.ofBoolListLE ((List.range 8).map b))⟩

theorem byteOf_eq {b : ℕ → Bool} {v : UInt8} (h : ∀ k < 8, b k = v.toBitVec.getLsbD k) :
    byteOf b = v := by
  refine UInt8.toBitVec_inj.1 (BitVec.eq_of_getLsbD_eq fun k hk => ?_)
  rw [byteOf, BitVec.getLsbD_setWidth, BitVec.getLsbD_ofBoolListLE]
  simp [hk, h]

def overlay (m : ℕ → UInt8) (f : ℕ → Option Bool) (a : ℕ) : UInt8 :=
  byteOf fun k => (f (8 * a + k)).getD ((m a).toBitVec.getLsbD k)

theorem overlay_of_none (h : ∀ k < 8, f (8 * a + k) = none) : overlay m f a = m a :=
  byteOf_eq fun k hk => by rw [h k hk, Option.getD_none]

theorem overlay_of_bits (h : ∀ k < 8, f (8 * a + k) = some (bitAt m' (8 * c + k))) :
    overlay m f a = m' c :=
  byteOf_eq fun k hk => by rw [h k hk, Option.getD_some, bitAt_byte hk]

end BitOverlay
