import Mathlib.Algebra.GroupWithZero.Nat
import Mathlib.Data.List.Basic

/-!
# Cutting a list into chunks

A sender that cuts off pieces of a fixed size as long as something is left behind them. Even the
empty list is sent, as one empty chunk.

* `chunks_flatten` — the chunks are the list.
* `length_of_mem_dropLast` — all chunks but the last have the full size.
* `length_getLast` — the last one is shorter unless the size divides a list that is not empty.
-/

namespace Chunks

variable {α : Type*} {d : ℕ} {xs : List α}

/-- Cut off `d` elements as long as there are more; `d = 0` cuts nothing. -/
def chunks (d : ℕ) (xs : List α) : List (List α) :=
  if 0 < d ∧ d < xs.length then xs.take d :: chunks d (xs.drop d) else [xs]
termination_by xs.length
decreasing_by rw [List.length_drop]; omega

theorem chunks_of_le (h : xs.length ≤ d) : chunks d xs = [xs] := by
  rw [chunks, if_neg (by omega)]

theorem chunks_of_lt (hd : 0 < d) (h : d < xs.length) :
    chunks d xs = xs.take d :: chunks d (xs.drop d) := by
  rw [chunks, if_pos ⟨hd, h⟩]

theorem chunks_ne_nil (d : ℕ) (xs : List α) : chunks d xs ≠ [] := by
  rw [chunks]
  split_ifs <;> exact List.cons_ne_nil _ _

/-- **The chunks are the list.** -/
@[simp] theorem chunks_flatten (d : ℕ) (xs : List α) : (chunks d xs).flatten = xs := by
  induction xs using chunks.induct d with
  | case1 xs h ih => rw [chunks_of_lt h.1 h.2, List.flatten_cons, ih, List.take_append_drop]
  | case2 xs h => rw [chunks, if_neg h, List.flatten_singleton]

theorem length_chunks_le (d : ℕ) (xs : List α) : (chunks d xs).length ≤ xs.length + 1 := by
  induction xs using chunks.induct d with
  | case1 xs h ih =>
    rw [chunks_of_lt h.1 h.2, List.length_cons]
    rw [List.length_drop] at ih
    omega
  | case2 xs h => rw [chunks, if_neg h]; simp

/-- **All chunks but the last are full.** -/
theorem length_of_mem_dropLast (d : ℕ) (xs : List α) :
    ∀ c ∈ (chunks d xs).dropLast, c.length = d := by
  induction xs using chunks.induct d with
  | case1 xs h ih =>
    rw [chunks_of_lt h.1 h.2, List.dropLast_cons_of_ne_nil (chunks_ne_nil _ _)]
    intro c hc
    rcases List.mem_cons.1 hc with rfl | hc
    · rw [List.length_take]
      omega
    · exact ih c hc
  | case2 xs h => rw [chunks, if_neg h]; simp

theorem drop_ne_nil (h : d < xs.length) : xs.drop d ≠ [] := by
  rw [← List.length_pos_iff, List.length_drop]
  omega

theorem dvd_length_drop (h : d < xs.length) : d ∣ (xs.drop d).length ↔ d ∣ xs.length := by
  rw [List.length_drop, Nat.dvd_add_iff_left (Nat.dvd_refl d), Nat.sub_add_cancel (Nat.le_of_lt h)]

/-- **When the last chunk is full.** -/
theorem length_getLast (hd : 0 < d) (xs : List α) :
    ((chunks d xs).getLast (chunks_ne_nil d xs)).length = d ↔ xs ≠ [] ∧ d ∣ xs.length := by
  induction xs using chunks.induct d with
  | case1 xs h ih =>
    simp only [chunks_of_lt h.1 h.2, List.getLast_cons (chunks_ne_nil _ _), ih, dvd_length_drop h.2]
    exact ⟨fun hx => ⟨List.ne_nil_of_length_pos (by omega), hx.2⟩,
      fun hx => ⟨drop_ne_nil h.2, hx.2⟩⟩
  | case2 xs h =>
    have hle : xs.length ≤ d := by omega
    simp only [chunks_of_le hle, List.getLast_singleton, ← List.length_pos_iff]
    exact ⟨fun he => ⟨by omega, by simp [he]⟩, fun hx => by have := Nat.le_of_dvd hx.1 hx.2; omega⟩

/-- No chunk is longer than the size, or than the list. -/
theorem length_of_mem_chunks (hd : 0 < d) (xs : List α) :
    ∀ c ∈ chunks d xs, c.length ≤ min xs.length d := by
  induction xs using chunks.induct d with
  | case1 xs h ih =>
    rw [chunks_of_lt h.1 h.2]
    intro c hc
    rcases List.mem_cons.1 hc with rfl | hc
    · rw [List.length_take]
      omega
    · have := ih c hc
      rw [List.length_drop] at this
      omega
  | case2 xs h =>
    have hle : xs.length ≤ d := by omega
    simp only [chunks_of_le hle, List.mem_singleton, forall_eq]
    omega

/-- Only the empty list has an empty chunk. -/
theorem length_pos_of_mem_chunks (hxs : xs ≠ []) : ∀ c ∈ chunks d xs, 0 < c.length := by
  induction xs using chunks.induct d with
  | case1 xs h ih =>
    rw [chunks_of_lt h.1 h.2]
    intro c hc
    rcases List.mem_cons.1 hc with rfl | hc
    · rw [List.length_take]
      omega
    · exact ih (drop_ne_nil h.2) c hc
  | case2 xs h =>
    rw [chunks, if_neg h]
    intro c hc
    rw [List.mem_singleton.1 hc]
    exact List.length_pos_iff.2 hxs

/-- **What is behind a chunk** has been cut into chunks as the list has. -/
theorem chunks_rest {pre post : List (List α)} {c : List α} (h : chunks d xs = pre ++ c :: post)
    (hpost : post ≠ []) :
    post = chunks d post.flatten ∧ post.flatten ≠ [] ∧ (d ∣ post.flatten.length ↔ d ∣ xs.length) := by
  induction xs using chunks.induct d generalizing pre with
  | case1 xs hlt ih =>
    rw [chunks_of_lt hlt.1 hlt.2] at h
    cases pre with
    | nil =>
      obtain ⟨-, rfl⟩ := List.cons.inj h
      rw [chunks_flatten]
      exact ⟨rfl, drop_ne_nil hlt.2, dvd_length_drop hlt.2⟩
    | cons p pre =>
      obtain ⟨hflat, hne, hdvd⟩ := ih (List.cons.inj h).2
      exact ⟨hflat, hne, hdvd.trans (dvd_length_drop hlt.2)⟩
  | case2 xs hno =>
    rw [chunks, if_neg hno] at h
    cases pre with
    | nil => exact absurd (List.cons.inj h).2.symm hpost
    | cons p pre => cases pre <;> cases (List.cons.inj h).2

/-! ## Chunks by their number -/

theorem length_getElem {i : ℕ} (hi : i < (chunks d xs).length)
    (hne : i + 1 ≠ (chunks d xs).length) : ((chunks d xs)[i]).length = d := by
  have hlt : i < (chunks d xs).dropLast.length := by
    rw [List.length_dropLast]
    omega
  rw [← List.getElem_dropLast hlt]
  exact length_of_mem_dropLast d xs _ (List.getElem_mem hlt)

theorem length_getElem_last_lt (hd : 0 < d) (hxs : xs ≠ []) {i : ℕ} (hi : i < (chunks d xs).length)
    (hlast : i + 1 = (chunks d xs).length) :
    ((chunks d xs)[i]).length < d ↔ ¬ d ∣ xs.length := by
  have hget : (chunks d xs)[i] = (chunks d xs).getLast (chunks_ne_nil d xs) := by
    rw [List.getLast_eq_getElem]
    congr 1
    omega
  have hle := length_of_mem_chunks hd xs _ (List.getElem_mem hi)
  have hiff := length_getLast hd xs
  rw [← hget, and_iff_right hxs] at hiff
  rw [← hiff]
  omega

theorem length_flatten_take_le (d : ℕ) (xs : List α) (i : ℕ) :
    ((chunks d xs).take i).flatten.length ≤ xs.length := by
  conv_rhs => rw [← chunks_flatten d xs, ← List.take_append_drop i (chunks d xs)]
  rw [List.flatten_append, List.length_append]
  omega

/-- In front of a chunk there are full ones. -/
theorem length_flatten_take {i : ℕ} (hi : i < (chunks d xs).length) :
    ((chunks d xs).take i).flatten.length = i * d := by
  rw [List.length_flatten, List.eq_replicate_of_mem (a := d) (l := ((chunks d xs).take i).map _)]
  · rw [List.sum_replicate_nat, List.length_map, List.length_take, Nat.min_eq_left (by omega)]
  · intro n hn
    obtain ⟨c, hc, rfl⟩ := List.mem_map.1 hn
    obtain ⟨j, hj, rfl⟩ := List.getElem_of_mem hc
    rw [List.length_take] at hj
    rw [List.getElem_take]
    exact length_getElem (by omega) (by omega)

/-- One chunk, and one more for each full one that has something behind it. -/
theorem length_chunks (hd : 0 < d) (xs : List α) :
    (chunks d xs).length = 1 + (xs.length - 1) / d := by
  induction xs using chunks.induct d with
  | case1 xs h ih =>
    rw [chunks_of_lt h.1 h.2, List.length_cons, ih, List.length_drop]
    have : xs.length - 1 = (xs.length - d - 1) + d := by omega
    rw [this, Nat.add_div_right _ hd]
    omega
  | case2 xs h =>
    have hle : xs.length ≤ d := by omega
    rw [chunks_of_le hle, List.length_singleton, Nat.div_eq_of_lt (by omega)]

end Chunks
