import Mathlib.Data.List.Induction
import Mathlib.Logic.Function.Basic

/-!
# Queues that are filled again

Blocks of elements come one after the other, each for one of the queues. A block empties its queue
before its elements are queued, and elements are queued as long as there are places left: `n` for
all queues together, none of which is ever given back.

**Theorem (`kept_eq_all_iff`).** Every queue ends with all elements that have come for it if and only
if no queue gets a second block and there are no more than `n` elements.
-/

namespace Refill

variable {κ α : Type*} [DecidableEq κ] {n : ℕ}

/-- How many elements have come, and what is left in the queues that had a block. -/
structure Filled (κ α : Type*) where
  come : ℕ
  kept : κ → Option (List α)

def fill (n : ℕ) (s : Filled κ α) (b : κ × List α) : Filled κ α :=
  ⟨s.come + b.2.length, Function.update s.kept b.1 (some (b.2.take (n - s.come)))⟩

def filled (n : ℕ) (bs : List (κ × List α)) : Filled κ α := bs.foldl (fill n) ⟨0, fun _ => none⟩

/-- The blocks for a queue. -/
def blocks (bs : List (κ × List α)) (k : κ) : List (κ × List α) := bs.filter fun b => b.1 = k

/-- All elements for a queue. -/
def all (bs : List (κ × List α)) (k : κ) : List α := (blocks bs k).flatMap Prod.snd

/-- What is left in a queue, which may never have had a block. -/
def left (n : ℕ) (bs : List (κ × List α)) (k : κ) : List α := ((filled n bs).kept k).getD []

theorem filled_concat (n : ℕ) (bs : List (κ × List α)) (b : κ × List α) :
    filled n (bs ++ [b]) = fill n (filled n bs) b := by
  rw [filled, List.foldl_append]
  rfl

theorem fill_kept (s : Filled κ α) (b : κ × List α) (k : κ) :
    (fill n s b).kept k = if b.1 = k then some (b.2.take (n - s.come)) else s.kept k := by
  unfold fill
  split_ifs with hk
  · rw [← hk]
    exact Function.update_self ..
  · exact Function.update_of_ne (fun h => hk h.symm) ..

theorem come_filled (n : ℕ) (bs : List (κ × List α)) :
    (filled n bs).come = (bs.flatMap Prod.snd).length := by
  induction bs using List.reverseRecOn with
  | nil => rfl
  | append_singleton bs b ih =>
    rw [filled_concat, fill, List.flatMap_append, List.length_append, List.flatMap_singleton, ih]

/-! ## One more block -/

theorem blocks_concat (bs : List (κ × List α)) (b : κ × List α) (k : κ) :
    blocks (bs ++ [b]) k = if b.1 = k then blocks bs k ++ [b] else blocks bs k := by
  unfold blocks
  rw [List.filter_append]
  split_ifs with hk <;> simp [hk]

theorem all_concat (bs : List (κ × List α)) (b : κ × List α) (k : κ) :
    all (bs ++ [b]) k = if b.1 = k then all bs k ++ b.2 else all bs k := by
  unfold all
  rw [blocks_concat]
  split_ifs with hk
  · rw [List.flatMap_append, List.flatMap_singleton]
  · rfl

theorem all_append (bs cs : List (κ × List α)) (k : κ) :
    all (bs ++ cs) k = all bs k ++ all cs k := by
  unfold all blocks
  rw [List.filter_append, List.flatMap_append]

theorem left_concat (n : ℕ) (bs : List (κ × List α)) (b : κ × List α) (k : κ) :
    left n (bs ++ [b]) k =
      if b.1 = k then b.2.take (n - (bs.flatMap Prod.snd).length) else left n bs k := by
  unfold left
  rw [filled_concat, fill_kept, come_filled]
  split_ifs <;> rfl

/-- A queue without a block has not been touched. -/
theorem kept_eq_none_iff (bs : List (κ × List α)) (k : κ) :
    (filled n bs).kept k = none ↔ blocks bs k = [] := by
  induction bs using List.reverseRecOn with
  | nil => exact iff_of_true rfl rfl
  | append_singleton bs b ih =>
    rw [filled_concat, fill_kept, blocks_concat]
    by_cases hk : b.1 = k
    · rw [if_pos hk, if_pos hk]
      exact iff_of_false nofun (List.append_ne_nil_of_right_ne_nil _ (List.cons_ne_nil _ _))
    · rw [if_neg hk, if_neg hk]
      exact ih

theorem length_left_le (bs : List (κ × List α)) (k : κ) :
    (left n bs k).length ≤ (all bs k).length := by
  induction bs using List.reverseRecOn with
  | nil => exact Nat.le_refl 0
  | append_singleton bs b ih =>
    rw [left_concat, all_concat]
    split_ifs with hk
    · rw [List.length_append, List.length_take]
      omega
    · exact ih

/-! ## When everything is left -/

section
variable {bs : List (κ × List α)}

theorem all_eq_nil_iff (hne : ∀ b ∈ bs, b.2 ≠ []) (k : κ) : all bs k = [] ↔ blocks bs k = [] := by
  refine ⟨fun h => ?_, fun h => by rw [all, h]; rfl⟩
  refine List.eq_nil_iff_forall_not_mem.2 fun b hb => ?_
  exact hne b (List.mem_filter.1 hb).1 (List.flatMap_eq_nil_iff.1 h b hb)

/-- A new block leaves all elements of its queue when it is the first for that queue, and finds
places for all of its own. -/
theorem take_eq_all_iff (hne : ∀ b ∈ bs, b.2 ≠ []) {b : κ × List α} (hb : b.2 ≠ []) (m : ℕ) :
    b.2.take (n - m) = all bs b.1 ++ b.2 ↔ blocks bs b.1 = [] ∧ m + b.2.length ≤ n := by
  have hpos : 0 < b.2.length := List.length_pos_iff.2 hb
  constructor
  · intro h
    have hlen := congrArg List.length h
    rw [List.length_take, List.length_append] at hlen
    refine ⟨(all_eq_nil_iff hne b.1).1 (List.length_eq_zero_iff.1 ?_), ?_⟩
    · omega
    · omega
  · rintro ⟨hfirst, hroom⟩
    rw [(all_eq_nil_iff hne b.1).2 hfirst, List.nil_append]
    exact List.take_of_length_le (by omega)

/-- **All that has come is left.** -/
theorem kept_eq_all_iff (hne : ∀ b ∈ bs, b.2 ≠ []) : (∀ k, left n bs k = all bs k) ↔
    (∀ k, (blocks bs k).length ≤ 1) ∧ (bs.flatMap Prod.snd).length ≤ n := by
  induction bs using List.reverseRecOn with
  | nil => exact iff_of_true (fun _ => rfl) ⟨fun _ => Nat.zero_le 1, Nat.zero_le n⟩
  | append_singleton bs b ih =>
    have hbs : ∀ c ∈ bs, c.2 ≠ [] := fun c hc => hne c (List.mem_append_left _ hc)
    have hb : b.2 ≠ [] := hne b (List.mem_append_right _ (List.mem_singleton_self b))
    have hstep := take_eq_all_iff (n := n) hbs hb (bs.flatMap Prod.snd).length
    have hlen : ((bs ++ [b]).flatMap Prod.snd).length =
        (bs.flatMap Prod.snd).length + b.2.length := by
      rw [List.flatMap_append, List.length_append, List.flatMap_singleton]
    rw [hlen]
    constructor
    · intro h
      have hself := h b.1
      rw [left_concat, all_concat, if_pos rfl, if_pos rfl] at hself
      obtain ⟨hfirst, hroom⟩ := hstep.1 hself
      have hold : ∀ k, left n bs k = all bs k := by
        intro k
        by_cases hk : b.1 = k
        · -- nothing has come for the queue of `b` before
          have hnone := (kept_eq_none_iff (n := n) bs b.1).2 hfirst
          rw [← hk, left, hnone, (all_eq_nil_iff hbs b.1).2 hfirst]
          rfl
        · have hother := h k
          rwa [left_concat, all_concat, if_neg hk, if_neg hk] at hother
      refine ⟨fun k => ?_, hroom⟩
      rw [blocks_concat]
      split_ifs with hk
      · rw [← hk, hfirst]
        exact Nat.le_refl 1
      · exact ((ih hbs).1 hold).1 k
    · rintro ⟨honce, hroom⟩ k
      have hself := honce b.1
      rw [blocks_concat, if_pos rfl, List.length_append, List.length_singleton] at hself
      have hfirst : blocks bs b.1 = [] := List.length_eq_zero_iff.1 (by omega)
      rw [left_concat, all_concat]
      split_ifs with hk
      · rw [← hk]
        exact hstep.2 ⟨hfirst, hroom⟩
      · refine (ih hbs).2 ⟨fun k' => ?_, by omega⟩ k
        have hle := honce k'
        rw [blocks_concat] at hle
        split_ifs at hle with hk'
        · rw [← hk', hfirst]
          exact Nat.zero_le 1
        · exact hle

/-- Nothing is left of blocks that do not come. -/
theorem left_eq_all_append_iff {cs : List (κ × List α)} (hne : ∀ b ∈ bs ++ cs, b.2 ≠ []) :
    (∀ k, left n bs k = all (bs ++ cs) k) ↔ cs = [] ∧
      (∀ k, (blocks (bs ++ cs) k).length ≤ 1) ∧ ((bs ++ cs).flatMap Prod.snd).length ≤ n := by
  constructor
  · intro h
    have hcs : cs = [] := by
      refine List.eq_nil_iff_forall_not_mem.2 fun c hc => ?_
      have hlen := congrArg List.length (h c.1)
      have hle := length_left_le (n := n) bs c.1
      rw [all_append, List.length_append] at hlen
      have hnil : all cs c.1 = [] := List.length_eq_zero_iff.1 (by omega)
      refine hne c (List.mem_append_right _ hc) (List.flatMap_eq_nil_iff.1 hnil c ?_)
      exact List.mem_filter.2 ⟨hc, decide_eq_true rfl⟩
    subst hcs
    rw [List.append_nil] at h hne ⊢
    exact ⟨rfl, (kept_eq_all_iff hne).1 h⟩
  · rintro ⟨rfl, h⟩
    rw [List.append_nil] at h hne ⊢
    exact (kept_eq_all_iff hne).2 h

end

end Refill
