import Mathlib.Data.List.Nodup
import Mathlib.Logic.Function.Basic

/-!
# Things in places

Every place has a list of things. The things are placed (`Placed`) if each of them is in the list of
one place, once. That stays so when a thing is moved (`Placed.move`), and is lost when a list is
forgotten.
-/

namespace Places

open Function (update)

variable {L R : Type*}

/-- Of all these things, each is in one place, and there are no others. -/
structure Placed (all : R → Prop) (content : L → List R) : Prop where
  nodup : ∀ l, (content l).Nodup
  place : ∀ r, all r → ∃ l, r ∈ content l
  all : ∀ l, ∀ r ∈ content l, all r
  alone : ∀ l l' r, r ∈ content l → r ∈ content l' → l = l'

/-- A thing comes to the front or to the back. -/
def add (head : Bool) (r : R) (rs : List R) : List R := if head then r :: rs else rs ++ [r]

theorem mem_add {head : Bool} {r x : R} {rs : List R} : x ∈ add head r rs ↔ x = r ∨ x ∈ rs := by
  cases head <;> simp [add, or_comm]

theorem nodup_add {head : Bool} {r : R} {rs : List R} (h : rs.Nodup) (hr : r ∉ rs) :
    (add head r rs).Nodup := by
  cases head with
  | true => exact List.nodup_cons.2 ⟨hr, h⟩
  | false =>
    show (rs ++ [r]).Nodup
    rw [List.nodup_append_comm]
    exact List.nodup_cons.2 ⟨hr, h⟩

theorem Placed.existsUnique {all : R → Prop} {content : L → List R} (h : Placed all content) {r : R}
    (hr : all r) : ∃! l, r ∈ content l := by
  obtain ⟨l, hl⟩ := h.place r hr
  exact ⟨l, hl, fun l' hl' => h.alone l' l r hl' hl⟩

variable [DecidableEq L] [DecidableEq R]

/-- A thing is taken out of one list and added to another. -/
def move (content : L → List R) (l l' : L) (r : R) (head : Bool) : L → List R :=
  update (update content l ((content l).erase r)) l' (add head r (content l'))

variable {all : R → Prop} {content : L → List R} {l l' k : L} {r x : R} {head : Bool}

theorem move_to : move content l l' r head l' = add head r (content l') := by
  simp [move]

theorem move_from (hne : l ≠ l') : move content l l' r head l = (content l).erase r := by
  simp [move, hne]

theorem move_of_ne (hl : k ≠ l) (hl' : k ≠ l') : move content l l' r head k = content k := by
  simp [move, hl, hl']

/-- What is where after a move. -/
theorem Placed.mem_move (h : Placed all content) (hne : l ≠ l') (hr : r ∈ content l) :
    x ∈ move content l l' r head k ↔ if x = r then k = l' else x ∈ content k := by
  by_cases hl' : k = l'
  · subst hl'
    rw [move_to, mem_add]
    by_cases hx : x = r <;> simp [hx]
  · by_cases hl : k = l
    · subst hl
      rw [move_from hne, (h.nodup k).mem_erase_iff]
      by_cases hx : x = r <;> simp [hx, hl']
    · rw [move_of_ne hl hl']
      by_cases hx : x = r
      · subst hx
        simp only [if_true, hl', iff_false]
        exact fun hk => hl (h.alone k l x hk hr)
      · rw [if_neg hx]

theorem Placed.move (h : Placed all content) (hne : l ≠ l') (hr : r ∈ content l) :
    Placed all (move content l l' r head) where
  nodup k := by
    by_cases hl' : k = l'
    · subst hl'
      rw [move_to]
      exact nodup_add (h.nodup k) fun hmem => hne (h.alone l k r hr hmem)
    · by_cases hl : k = l
      · subst hl
        rw [move_from hne]
        exact (h.nodup k).erase r
      · rw [move_of_ne hl hl']
        exact h.nodup k
  place x hx := by
    by_cases hxr : x = r
    · exact ⟨l', by rw [h.mem_move hne hr, if_pos hxr]⟩
    · obtain ⟨k, hk⟩ := h.place x hx
      exact ⟨k, by rwa [h.mem_move hne hr, if_neg hxr]⟩
  all k x hx := by
    rw [h.mem_move hne hr] at hx
    split_ifs at hx with hxr
    · exact h.all l x (hxr ▸ hr)
    · exact h.all k x hx
  alone k k' x hk hk' := by
    rw [h.mem_move hne hr] at hk hk'
    split_ifs at hk hk' with hxr
    · exact hk.trans hk'.symm
    · exact h.alone k k' x hk hk'

end Places
