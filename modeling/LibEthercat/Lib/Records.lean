import Mathlib.Algebra.BigOperators.Group.List.Defs
import Mathlib.Algebra.GroupWithZero.Nat
import Mathlib.Data.List.TakeWhile

/-!
# Records one behind the other

A reader that finds the next record from the size of the one at hand, until it reaches the end
it was given. `walk` is that reader on a `size` function, with fuel.

* `walk_isSome` — with sizes above zero the reader terminates, whatever the sizes are.
* `walk_eq_takeWhile` — on records laid out one behind the other it visits their starts, as far
  as they come before the end.
-/

namespace Records

/-- The records found from `o` on: the offsets visited before `fin`. -/
def walk (size : ℕ → ℕ) (fin : ℕ) : ℕ → ℕ → Option (List ℕ)
  | 0, o => if o < fin then none else some []
  | n + 1, o => if o < fin then (walk size fin n (o + size o)).map (o :: ·) else some []

variable {size : ℕ → ℕ} {fin : ℕ}

theorem walk_of_le {o : ℕ} (h : fin ≤ o) (n : ℕ) : walk size fin n o = some [] := by
  cases n <;> exact if_neg (Nat.not_lt.2 h)

theorem walk_of_lt {o : ℕ} (h : o < fin) (n : ℕ) :
    walk size fin (n + 1) o = (walk size fin n (o + size o)).map (o :: ·) := if_pos h

/-- **The reader terminates**: every record takes it at least one step further. -/
theorem walk_isSome (hsize : ∀ o, 0 < size o) {n o : ℕ} (h : fin ≤ o + n) :
    (walk size fin n o).isSome = true := by
  induction n generalizing o with
  | zero =>
    rw [walk_of_le (show fin ≤ o from h)]
    rfl
  | succ n ih =>
    by_cases ho : o < fin
    · have hstep := hsize o
      rw [walk_of_lt ho, Option.isSome_map]
      exact ih (by omega)
    · simp [walk_of_le (Nat.le_of_not_lt ho)]

theorem walk_congr {size' : ℕ → ℕ} {n o : ℕ} {os : List ℕ} (h : walk size fin n o = some os)
    (hsize : ∀ x ∈ os, size' x = size x) : walk size' fin n o = some os := by
  induction n generalizing o os with
  | zero => exact h
  | succ n ih =>
    by_cases ho : o < fin
    · rw [walk_of_lt ho] at h ⊢
      obtain ⟨xs, hxs, rfl⟩ := Option.map_eq_some_iff.1 h
      rw [hsize o List.mem_cons_self, ih hxs fun x hx => hsize x (List.mem_cons_of_mem o hx)]
      rfl
    · rw [walk_of_le (Nat.le_of_not_lt ho)] at h ⊢
      exact h

theorem walk_mem_lt {n o : ℕ} {os : List ℕ} (h : walk size fin n o = some os) :
    ∀ x ∈ os, x < fin := by
  induction n generalizing o os with
  | zero =>
    by_cases ho : o < fin
    · simp [walk, ho] at h
    · rw [walk_of_le (Nat.le_of_not_lt ho)] at h
      cases h
      simp
  | succ n ih =>
    by_cases ho : o < fin
    · rw [walk_of_lt ho] at h
      obtain ⟨xs, hxs, rfl⟩ := Option.map_eq_some_iff.1 h
      exact List.forall_mem_cons.2 ⟨ho, ih hxs⟩
    · rw [walk_of_le (Nat.le_of_not_lt ho)] at h
      cases h
      simp

/-- The first record visited is the one at the start. -/
theorem walk_head {n o y : ℕ} {ys : List ℕ} (h : walk size fin n o = some (y :: ys)) : y = o := by
  by_cases ho : o < fin
  · cases n with
    | zero => simp [walk, ho] at h
    | succ n =>
      rw [walk_of_lt ho] at h
      obtain ⟨xs, -, heq⟩ := Option.map_eq_some_iff.1 h
      exact (List.cons.inj heq).1.symm
  · simp [walk_of_le (Nat.le_of_not_lt ho)] at h

/-- The reader stops at the end, not before it. -/
theorem walk_nil {n o : ℕ} (h : walk size fin n o = some []) : fin ≤ o := by
  by_cases ho : o < fin
  · cases n with
    | zero => simp [walk, ho] at h
    | succ n => simp [walk_of_lt ho] at h
  · exact Nat.le_of_not_lt ho

/-- The records behind the first one. -/
theorem walk_tail {n o x : ℕ} {xs : List ℕ} (h : walk size fin n o = some (x :: xs)) :
    ∃ k, walk size fin k (x + size x) = some xs := by
  by_cases ho : o < fin
  · cases n with
    | zero => simp [walk, ho] at h
    | succ n =>
      rw [walk_of_lt ho] at h
      obtain ⟨ys, hys, heq⟩ := Option.map_eq_some_iff.1 h
      obtain ⟨rfl, rfl⟩ := List.cons.inj heq
      exact ⟨n, hys⟩
  · simp [walk_of_le (Nat.le_of_not_lt ho)] at h

/-- A record that the reader visits ends where the next one starts, or, if it is the last one,
at the end or behind it. -/
theorem walk_split {n o : ℕ} {pre post : List ℕ} {x : ℕ}
    (h : walk size fin n o = some (pre ++ x :: post)) :
    (∀ y ys, post = y :: ys → y = x + size x) ∧ (post = [] → fin ≤ x + size x) := by
  induction pre generalizing n o with
  | nil =>
    obtain ⟨k, hk⟩ := walk_tail h
    refine ⟨fun y ys hpost => ?_, fun hpost => ?_⟩
    · subst hpost
      exact walk_head hk
    · subst hpost
      exact walk_nil hk
  | cons a pre ih =>
    obtain ⟨k, hk⟩ := walk_tail h
    exact ih hk

/-- Records do not overlap: each ends before a later one starts. -/
theorem walk_pairwise {n o : ℕ} {os : List ℕ} (h : walk size fin n o = some os) :
    (∀ x ∈ os, o ≤ x) ∧ os.Pairwise fun x y => x + size x ≤ y := by
  induction n generalizing o os with
  | zero =>
    by_cases ho : o < fin
    · simp [walk, ho] at h
    · rw [walk_of_le (Nat.le_of_not_lt ho)] at h
      cases h
      simp
  | succ n ih =>
    by_cases ho : o < fin
    · rw [walk_of_lt ho] at h
      obtain ⟨xs, hxs, rfl⟩ := Option.map_eq_some_iff.1 h
      obtain ⟨hge, hpair⟩ := ih hxs
      refine ⟨List.forall_mem_cons.2 ⟨le_rfl, fun x hx => ?_⟩, List.pairwise_cons.2 ⟨hge, hpair⟩⟩
      exact (Nat.le_add_right o (size o)).trans (hge x hx)
    · rw [walk_of_le (Nat.le_of_not_lt ho)] at h
      cases h
      simp

/-! ## Records that are laid out -/

/-- Where records of these lengths start, the first one at `o`. -/
def starts : ℕ → List ℕ → List ℕ
  | _, [] => []
  | o, l :: ls => o :: starts (o + l) ls

/-- Records of these lengths lie one behind the other from `o` on. -/
def Laid (size : ℕ → ℕ) : ℕ → List ℕ → Prop
  | _, [] => True
  | o, l :: ls => size o = l ∧ Laid size (o + l) ls

@[simp] theorem starts_nil (o : ℕ) : starts o [] = [] := rfl

@[simp] theorem starts_cons (o l : ℕ) (ls : List ℕ) :
    starts o (l :: ls) = o :: starts (o + l) ls := rfl

@[simp] theorem starts_length (o : ℕ) (ls : List ℕ) : (starts o ls).length = ls.length := by
  induction ls generalizing o with
  | nil => rfl
  | cons l ls ih => simp [ih]

theorem starts_append (o : ℕ) (ls ls' : List ℕ) :
    starts o (ls ++ ls') = starts o ls ++ starts (o + ls.sum) ls' := by
  induction ls generalizing o with
  | nil => simp
  | cons l ls ih => simp [ih, Nat.add_assoc]

theorem laid_append {o : ℕ} {ls ls' : List ℕ} :
    Laid size o (ls ++ ls') ↔ Laid size o ls ∧ Laid size (o + ls.sum) ls' := by
  induction ls generalizing o with
  | nil => simp [Laid]
  | cons l ls ih => simp [Laid, ih, and_assoc, Nat.add_assoc]

theorem Laid.congr {size' : ℕ → ℕ} {o : ℕ} {ls : List ℕ} (h : Laid size o ls)
    (heq : ∀ x ∈ starts o ls, size' x = size x) : Laid size' o ls := by
  induction ls generalizing o with
  | nil => trivial
  | cons l ls ih =>
    obtain ⟨hl, hrest⟩ := h
    exact ⟨(heq o List.mem_cons_self).trans hl,
      ih hrest fun x hx => heq x (List.mem_cons_of_mem o hx)⟩

/-- Records that are laid out lie between the start of the first and the end of the last one. -/
theorem Laid.le {o : ℕ} {ls : List ℕ} (h : Laid size o ls) :
    ∀ x ∈ starts o ls, o ≤ x ∧ x + size x ≤ o + ls.sum := by
  induction ls generalizing o with
  | nil => simp
  | cons l ls ih =>
    obtain ⟨hl, hrest⟩ := h
    rw [starts_cons, List.sum_cons]
    refine List.forall_mem_cons.2 ⟨by omega, fun x hx => ?_⟩
    have := ih hrest x hx
    omega

/-- The reader visits the records that start before the end. -/
theorem walk_eq_takeWhile {ls : List ℕ} (hpos : ∀ l ∈ ls, 0 < l) {n o : ℕ} (hlaid : Laid size o ls)
    (hfin : fin ≤ o + ls.sum) (hn : fin ≤ o + n) :
    walk size fin n o = some ((starts o ls).takeWhile fun x => decide (x < fin)) := by
  induction ls generalizing n o with
  | nil => simp [walk_of_le (show fin ≤ o by simpa using hfin)]
  | cons l ls ih =>
    by_cases ho : o < fin
    · obtain ⟨k, rfl⟩ : ∃ k, n = k + 1 := ⟨n - 1, by omega⟩
      obtain ⟨hl, hrest⟩ := hlaid
      have hl0 := hpos l List.mem_cons_self
      rw [List.sum_cons] at hfin
      have hnext := ih (fun x hx => hpos x (List.mem_cons_of_mem l hx)) hrest (by omega)
        (show fin ≤ o + l + k by omega)
      rw [walk_of_lt ho, hl, hnext]
      simp [ho]
    · rw [walk_of_le (Nat.le_of_not_lt ho)]
      simp [ho]

theorem starts_lt {ls : List ℕ} (hpos : ∀ l ∈ ls, 0 < l) {o : ℕ} :
    ∀ x ∈ starts o ls, x < o + ls.sum := by
  induction ls generalizing o with
  | nil => simp
  | cons l ls ih =>
    have hl := hpos l List.mem_cons_self
    rw [starts_cons, List.sum_cons]
    refine List.forall_mem_cons.2 ⟨by omega, fun x hx => ?_⟩
    have := ih (fun y hy => hpos y (List.mem_cons_of_mem l hy)) x hx
    omega

end Records
