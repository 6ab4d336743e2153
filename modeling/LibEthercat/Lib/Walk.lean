import Mathlib.Data.List.Basic

/-!
# Walks that stop at the first failure

A walk takes steps one after the other. Each step may leave a value in a register, whether it fails
or not, and the walk ends at the first step that fails. What is in the register afterwards is the
last value that was written on the way (`walk_snd`).
-/

namespace Walk

variable {X : Type*}

/-- What a step writes, if anything, and whether the walk goes on. -/
structure Step (X : Type*) where
  value : Option X
  ok : Bool

/-- A step that writes nothing. -/
def check (ok : Bool) : Step X := ⟨none, ok⟩

/-- Whether all steps went well, and the register. -/
def walk : List (Step X) → X → Bool × X
  | [], x => (true, x)
  | st :: k, x => if st.ok then walk k (st.value.getD x) else (false, st.value.getD x)

/-- The values that are written, up to the first failure. -/
def written : List (Step X) → List X
  | [] => []
  | st :: k => st.value.toList ++ if st.ok then written k else []

variable {st : Step X} {j k : List (Step X)} {x y : X}

@[simp] theorem check_value {ok : Bool} : (check ok : Step X).value = none := rfl
@[simp] theorem check_ok {ok : Bool} : (check ok : Step X).ok = ok := rfl

@[simp] theorem walk_nil : walk [] x = (true, x) := rfl

theorem walk_cons_of_ok (h : st.ok = true) : walk (st :: k) x = walk k (st.value.getD x) := by
  rw [walk, if_pos h]

theorem walk_cons_of_not_ok (h : st.ok = false) :
    walk (st :: k) x = (false, st.value.getD x) := by
  simp [walk, h]

/-- The second walk begins when the first one has gone well. -/
theorem walk_append :
    walk (j ++ k) x = if (walk j x).1 then walk k (walk j x).2 else walk j x := by
  induction j generalizing x with
  | nil => simp
  | cons st j ih =>
    cases hok : st.ok with
    | true => rw [List.cons_append, walk_cons_of_ok hok, walk_cons_of_ok hok, ih]
    | false => simp [walk_cons_of_not_ok hok]

theorem ok_of_walk (h : (walk k x).1 = true) : ∀ st ∈ k, st.ok = true := by
  induction k generalizing x with
  | nil => simp
  | cons st k ih =>
    cases hok : st.ok with
    | true =>
      rw [walk_cons_of_ok hok] at h
      exact List.forall_mem_cons.2 ⟨hok, ih h⟩
    | false =>
      rw [walk_cons_of_not_ok hok] at h
      cases h

theorem getLast?_toList_append (o : Option X) (l : List X) :
    (o.toList ++ l).getLast?.getD x = l.getLast?.getD (o.getD x) := by
  cases o <;> cases l <;> simp [List.getLast?_cons]

/-- **The last value written.** -/
theorem walk_snd : (walk k x).2 = (written k).getLast?.getD x := by
  induction k generalizing x with
  | nil => rfl
  | cons st k ih =>
    rw [written, getLast?_toList_append]
    cases hok : st.ok with
    | true => simp [walk_cons_of_ok hok, ih]
    | false => simp [walk_cons_of_not_ok hok]

theorem mem_written (h : y ∈ written k) : ∃ st ∈ k, st.value = some y := by
  induction k with
  | nil => cases h
  | cons st k ih =>
    rw [written, List.mem_append] at h
    rcases h with h | h
    · exact ⟨st, List.mem_cons_self, Option.mem_toList.1 h⟩
    · split_ifs at h with hok
      · obtain ⟨st', hst', hval⟩ := ih h
        exact ⟨st', List.mem_cons_of_mem _ hst', hval⟩
      · cases h

/-- What holds of the register at first and of everything that the steps may write. -/
theorem walk_snd_induction {P : X → Prop} (hx : P x)
    (hk : ∀ st ∈ k, ∀ y, st.value = some y → P y) : P (walk k x).2 := by
  rw [walk_snd]
  cases hlast : (written k).getLast? with
  | none => exact hx
  | some y =>
    obtain ⟨st, hst, hval⟩ := mem_written (List.mem_of_getLast? hlast)
    exact hk st hst y hval

/-! ## Walks to a goal -/

/-- The walk gets as far as a step that writes `x`. -/
def Reaches (k : List (Step X)) (x : X) : Prop :=
  ∃ j st l, k = j ++ st :: l ∧ (∀ t ∈ j, t.ok = true) ∧ st.value = some x

/-- After `x` nothing else is written. -/
def Final (x : X) (k : List (Step X)) : Prop :=
  k.Pairwise fun st t => st.value = some x → ∀ y, t.value = some y → y = x

theorem Final.singleton : Final x [st] := List.pairwise_singleton _ _

theorem Final.cons (hst : st.value ≠ some x) (hk : Final x k) : Final x (st :: k) :=
  List.pairwise_cons.2 ⟨fun _ _ h => absurd h hst, hk⟩

theorem Final.check {ok : Bool} (hk : Final x k) : Final x (check ok :: k) :=
  .cons (Option.some_ne_none x).symm hk

theorem Final.cons_silent (hk : ∀ t ∈ k, t.value = none) : Final x (st :: k) := by
  refine List.pairwise_cons.2 ⟨fun t ht _ y hy => ?_, ?_⟩
  · rw [hk t ht] at hy
    cases hy
  · refine List.pairwise_of_forall_mem_list fun _ _ t ht _ y hy => ?_
    rw [hk t ht] at hy
    cases hy

theorem Final.of_forall (h : ∀ st ∈ k, ∀ y, st.value = some y → y = x) : Final x k :=
  List.pairwise_of_forall_mem_list fun _ _ t ht _ => h t ht

theorem Final.append (hk : Final x k) (hj : ∀ st ∈ j, st.value ≠ some x) : Final x (j ++ k) := by
  refine List.pairwise_append.2 ⟨?_, hk, fun st hst t _ h => absurd h (hj st hst)⟩
  exact List.pairwise_of_forall_mem_list fun st hst t _ h => absurd h (hj st hst)

end Walk
