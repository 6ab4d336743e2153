import Mathlib.Algebra.GroupWithZero.Nat
import Mathlib.Data.List.Basic

/-!
# Lists in a memory

`Lies m a l` says that the elements of `l` are in the memory `m` one behind the other from `a` on. A
list lies where its parts do (`lies_append`, `lies_cons`), and `Lies.congr` carries it from one memory
to another.
-/

namespace Layout

variable {α : Type*} {m m' : ℕ → α} {a b : ℕ} {l l' : List α}

def Lies (m : ℕ → α) (a : ℕ) (l : List α) : Prop := ∀ k (h : k < l.length), m (a + k) = l[k]

theorem lies_append : Lies m a (l ++ l') ↔ Lies m a l ∧ Lies m (a + l.length) l' := by
  constructor
  · intro h
    refine ⟨fun k hk => ?_, fun k hk => ?_⟩
    · rw [h k (by rw [List.length_append]; omega), List.getElem_append_left hk]
    · rw [Nat.add_assoc, h (l.length + k) (by rw [List.length_append]; omega),
        List.getElem_append_right (Nat.le_add_right _ _)]
      congr 1
      omega
  · rintro ⟨hl, hl'⟩ k hk
    rw [List.length_append] at hk
    by_cases hlt : k < l.length
    · rw [List.getElem_append_left hlt, hl k hlt]
    · rw [List.getElem_append_right (Nat.le_of_not_lt hlt), ← hl' (k - l.length) (by omega)]
      congr 1
      omega

theorem lies_singleton {x : α} : Lies m a [x] ↔ m a = x := by
  refine ⟨fun h => h 0 (Nat.zero_lt_one), fun h k hk => ?_⟩
  obtain rfl : k = 0 := by simpa using hk
  exact h

theorem lies_cons {x : α} : Lies m a (x :: l) ↔ m a = x ∧ Lies m (a + 1) l := by
  rw [← List.singleton_append, lies_append, lies_singleton]
  rfl

theorem Lies.congr (h : Lies m a l) (heq : ∀ k < l.length, m' (b + k) = m (a + k)) : Lies m' b l :=
  fun k hk => (heq k hk).trans (h k hk)

theorem length_flatMap_of_length {β : Type*} {f : β → List α} {n : ℕ} {bs : List β}
    (hlen : ∀ b ∈ bs, (f b).length = n) : (bs.flatMap f).length = bs.length * n := by
  rw [List.length_flatMap, List.map_congr_left hlen, List.map_const', List.sum_replicate_nat]

/-- Parts of the same length lie at multiples of it. -/
theorem Lies.flatMap {β : Type*} {f : β → List α} {n : ℕ} {bs : List β}
    (hlen : ∀ b ∈ bs, (f b).length = n) (h : Lies m a (bs.flatMap f)) {j : ℕ} (hj : j < bs.length) :
    Lies m (a + n * j) (f bs[j]) := by
  induction bs generalizing a j with
  | nil => exact absurd hj (Nat.not_lt_zero j)
  | cons b bs ih =>
    obtain ⟨hb, hbs⟩ := List.forall_mem_cons.1 hlen
    obtain ⟨hhead, htail⟩ := lies_append.1 h
    rw [hb] at htail
    cases j with
    | zero => exact hhead
    | succ j =>
      have hnext := ih hbs htail (Nat.lt_of_succ_lt_succ hj)
      rwa [Nat.add_assoc, Nat.add_comm n, ← Nat.mul_succ] at hnext

/-- Parts of the given lengths, taken one behind the other, are the whole. -/
theorem flatten_parts (l : List α) (len : ℕ → ℕ) (a s n : ℕ) :
    ((List.range' s n).map fun i =>
      (l.drop (a + ((List.range' s (i - s)).map len).sum)).take (len i)).flatten =
      (l.drop a).take ((List.range' s n).map len).sum := by
  induction n with
  | zero => rfl
  | succ n ih =>
    rw [List.range'_concat, Nat.one_mul, List.map_append, List.flatten_append, ih, List.map_append,
      List.sum_append, List.take_add, List.drop_drop]
    simp

/-- A part lies behind the lengths of those in front of it. -/
theorem flatten_part {parts : List (List α)} {i : ℕ} (hi : i < parts.length) :
    (parts.flatten.drop ((parts.map List.length).take i).sum).take parts[i].length = parts[i] := by
  induction parts generalizing i with
  | nil => exact absurd hi (Nat.not_lt_zero i)
  | cons part parts ih =>
    cases i with
    | zero => simp
    | succ i =>
      have hnext := ih (Nat.lt_of_succ_lt_succ hi)
      rw [List.map_cons, List.take_succ_cons, List.sum_cons, List.flatten_cons,
        List.drop_length_add_append]
      exact hnext

end Layout
