import Mathlib.Data.List.Basic

/-!
# Packing in order of arrival

Items go into the open bin as long as they fit; the first one that does not closes the bin and
opens the next. What fits is left to a predicate on the open bin and the item.

* `pack_flatten` — no item is lost, doubled or moved.
* `packFrom_forall` — what holds of a single item, and of a bin with one more fitting item, holds
  of all bins.
* `pack_forall_iff` — two predicates that agree on good bins agree on whether all bins are good.
-/

namespace NextFit

variable {α : Type*} {fits fits' : List α → α → Bool}

/-- Pack the items behind the bin `cur`, which is open unless it is empty. -/
def packFrom (fits : List α → α → Bool) : List α → List α → List (List α)
  | cur, [] => if cur.isEmpty then [] else [cur]
  | cur, a :: as =>
    if cur.isEmpty || fits cur a then packFrom fits (cur ++ [a]) as
    else cur :: packFrom fits [a] as

def pack (fits : List α → α → Bool) (as : List α) : List (List α) := packFrom fits [] as

@[simp] theorem packFrom_nil_nil : packFrom fits [] [] = [] := rfl

theorem packFrom_nil {cur : List α} (h : cur ≠ []) : packFrom fits cur [] = [cur] := by
  cases cur with
  | nil => exact absurd rfl h
  | cons => rfl

theorem packFrom_empty_cons (a : α) (as : List α) :
    packFrom fits [] (a :: as) = packFrom fits [a] as := rfl

theorem packFrom_cons {cur : List α} (h : cur ≠ []) (a : α) (as : List α) :
    packFrom fits cur (a :: as) =
      if fits cur a then packFrom fits (cur ++ [a]) as else cur :: packFrom fits [a] as := by
  cases cur with
  | nil => exact absurd rfl h
  | cons => simp [packFrom]

/-- The bins hold the items, in order. -/
theorem packFrom_flatten (cur as : List α) : (packFrom fits cur as).flatten = cur ++ as := by
  induction as generalizing cur with
  | nil =>
    by_cases h : cur = []
    · simp [h]
    · simp [packFrom_nil h]
  | cons a as ih =>
    by_cases h : cur = []
    · subst h
      rw [packFrom_empty_cons, ih]
      rfl
    · rw [packFrom_cons h]
      split_ifs
      · rw [ih, List.append_assoc]
        rfl
      · rw [List.flatten_cons, ih]
        rfl

theorem pack_flatten (as : List α) : (pack fits as).flatten = as := packFrom_flatten [] as

theorem packFrom_forall {P : List α → Prop} {cur as : List α} (hcur : cur ≠ [] → P cur)
    (hone : ∀ a ∈ as, P [a])
    (hfit : ∀ bin, ∀ a ∈ as, bin ≠ [] → P bin → fits bin a = true → P (bin ++ [a])) :
    ∀ bin ∈ packFrom fits cur as, P bin := by
  induction as generalizing cur with
  | nil =>
    intro bin hbin
    by_cases h : cur = []
    · simp [h] at hbin
    · rw [packFrom_nil h, List.mem_singleton] at hbin
      rw [hbin]
      exact hcur h
  | cons a as ih =>
    have hone' : ∀ b ∈ as, P [b] := fun b hb => hone b (List.mem_cons_of_mem a hb)
    have hfit' : ∀ bin, ∀ b ∈ as, bin ≠ [] → P bin → fits bin b = true → P (bin ++ [b]) :=
      fun bin b hb => hfit bin b (List.mem_cons_of_mem a hb)
    have ha := hone a List.mem_cons_self
    by_cases h : cur = []
    · subst h
      rw [packFrom_empty_cons]
      exact ih (fun _ => ha) hone' hfit'
    · rw [packFrom_cons h]
      split_ifs with hf
      · have hnext := hfit cur a List.mem_cons_self h (hcur h) hf
        exact ih (fun _ => hnext) hone' hfit'
      · intro bin hbin
        rcases List.mem_cons.1 hbin with rfl | hbin
        · exact hcur h
        · exact ih (fun _ => ha) hone' hfit' bin hbin

/-- The open bin only grows. -/
theorem exists_prefix_mem_packFrom {cur : List α} (h : cur ≠ []) (as : List α) :
    ∃ bin ∈ packFrom fits cur as, cur <+: bin := by
  induction as generalizing cur with
  | nil => exact ⟨cur, by simp [packFrom_nil h], List.prefix_rfl⟩
  | cons a as ih =>
    rw [packFrom_cons h]
    split_ifs
    · obtain ⟨bin, hbin, hpre⟩ := ih (List.append_ne_nil_of_left_ne_nil h [a])
      exact ⟨bin, hbin, (List.prefix_append cur [a]).trans hpre⟩
    · exact ⟨cur, List.mem_cons_self, List.prefix_rfl⟩

/-- **Predicates that agree on good bins.** If a bin is good only when all its beginnings are,
and the two predicates agree on what fits into a good bin, then one packing has only good bins
if and only if the other one has. -/
theorem packFrom_forall_iff {P : List α → Prop} (hP : ∀ {bin bin'}, bin <+: bin' → P bin' → P bin)
    (hfits : ∀ {bin}, bin ≠ [] → P bin → ∀ a, fits bin a = fits' bin a) (cur as : List α) :
    (∀ bin ∈ packFrom fits cur as, P bin) ↔ ∀ bin ∈ packFrom fits' cur as, P bin := by
  induction as generalizing cur with
  | nil => rfl
  | cons a as ih =>
    by_cases h : cur = []
    · subst h
      rw [packFrom_empty_cons, packFrom_empty_cons]
      exact ih [a]
    by_cases hcur : P cur
    · rw [packFrom_cons h, packFrom_cons h, hfits h hcur]
      split_ifs
      · exact ih (cur ++ [a])
      · rw [List.forall_mem_cons, List.forall_mem_cons, ih [a]]
    · have hbad : ∀ f : List α → α → Bool, ¬ ∀ bin ∈ packFrom f cur (a :: as), P bin := by
        intro f hall
        obtain ⟨bin, hbin, hpre⟩ : ∃ bin ∈ packFrom f cur (a :: as), cur <+: bin :=
          exists_prefix_mem_packFrom h (a :: as)
        exact hcur (hP hpre (hall bin hbin))
      exact iff_of_false (hbad fits) (hbad fits')

theorem pack_forall_iff {P : List α → Prop} (hP : ∀ {bin bin'}, bin <+: bin' → P bin' → P bin)
    (hfits : ∀ {bin}, bin ≠ [] → P bin → ∀ a, fits bin a = fits' bin a) (as : List α) :
    (∀ bin ∈ pack fits as, P bin) ↔ ∀ bin ∈ pack fits' as, P bin :=
  packFrom_forall_iff hP hfits [] as

end NextFit
