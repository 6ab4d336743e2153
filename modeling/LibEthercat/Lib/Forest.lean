import Mathlib.Data.Int.Init
import Mathlib.Data.List.Basic

/-!
# Finding parents from degrees

A tree numbered in depth-first order is determined by the numbers of children of its nodes. The
parent of a node is found by walking back from it: every node on the way adds its degree less
one, and the parent is the first node with children at which the sum is not negative.

* `search_skip` — a completed forest is walked over and counts one for each of its trees, down.
* `search_parents` — the search stops at the parent of every node.

The first holds because every node of a forest but the roots is a child of an earlier node, so
what the walk has seen of a forest has fewer children than nodes.
-/

/-- An ordered forest: the first tree by the forest of its children, and the remaining trees. -/
inductive Forest where
  | nil : Forest
  | node (children rest : Forest) : Forest
  deriving DecidableEq, Repr

namespace Forest

/-- The number of trees. -/
def width : Forest → ℕ
  | nil => 0
  | node _ rest => rest.width + 1

/-- The number of nodes. -/
def size : Forest → ℕ
  | nil => 0
  | node children rest => children.size + rest.size + 1

/-- The number of children of each node, in depth-first order. -/
def degrees : Forest → List ℕ
  | nil => []
  | node children rest => children.width :: (children.degrees ++ rest.degrees)

/-- The parent of each node, in depth-first order, when the first node has number `n` and the
roots have parent `p`. -/
def parents (p : Option ℕ) (n : ℕ) : Forest → List (Option ℕ)
  | nil => []
  | node children rest =>
    p :: (children.parents (some n) (n + 1) ++ rest.parents p (n + 1 + children.size))

@[simp] theorem length_degrees (f : Forest) : f.degrees.length = f.size := by
  induction f with
  | nil => rfl
  | node children rest ihc ihr =>
    simp only [degrees, size, List.length_cons, List.length_append, ihc, ihr]

@[simp] theorem length_parents (p : Option ℕ) (n : ℕ) (f : Forest) :
    (f.parents p n).length = f.size := by
  induction f generalizing p n with
  | nil => rfl
  | node children rest ihc ihr =>
    simp only [parents, size, List.length_cons, List.length_append, ihc, ihr]

/-- `deg` gives the degrees of the forest whose first node has number `n`. -/
def Laid (deg : ℕ → ℕ) : ℕ → Forest → Prop
  | _, nil => True
  | n, node children rest =>
    deg n = children.width ∧ Laid deg (n + 1) children ∧ Laid deg (n + 1 + children.size) rest

theorem laid_of_degrees {deg : ℕ → ℕ} {n : ℕ} {f : Forest}
    (h : ∀ i d, f.degrees[i]? = some d → deg (n + i) = d) : Laid deg n f := by
  induction f generalizing n with
  | nil => trivial
  | node children rest ihc ihr =>
    refine ⟨h 0 _ rfl, ihc fun i d hd => ?_, ihr fun i d hd => ?_⟩
    · have hi : i < children.degrees.length := List.getElem?_eq_some_iff.1 hd |>.1
      have := h (i + 1) d (by rw [degrees, List.getElem?_cons_succ, List.getElem?_append_left hi, hd])
      rwa [Nat.add_assoc n 1 i, Nat.add_comm 1 i]
    · have := h (children.size + i + 1) d (by
        rw [degrees, List.getElem?_cons_succ, List.getElem?_append_right (by simp)]
        simpa using hd)
      rw [← this]
      congr 1
      omega

/-! ## The search -/

/-- Walk back from node `m` on, with the sum `t`. -/
def search (deg : ℕ → ℕ) : ℕ → ℤ → ℕ
  | 0, _ => 0
  | m + 1, t =>
    if 0 ≤ t + (deg m - 1) ∧ 0 < deg m then m else search deg m (t + (deg m - 1))

variable {deg : ℕ → ℕ} {n : ℕ} {f : Forest}

/-- **A completed forest is walked over.** -/
theorem search_skip (hf : Laid deg n f) {t : ℤ} (ht : t ≤ 0) :
    search deg (n + f.size) t = search deg n (t - f.width) := by
  induction f generalizing n t with
  | nil => simp [size, width]
  | node children rest ihc ihr =>
    obtain ⟨hn, hc, hr⟩ := hf
    calc search deg (n + (children.size + rest.size + 1)) t
        = search deg (n + 1 + children.size + rest.size) t := by congr 1; omega
      _ = search deg (n + 1 + children.size) (t - rest.width) := ihr hr ht
      _ = search deg (n + 1) (t - rest.width - children.width) := ihc hc (by omega)
      _ = search deg n (t - (node children rest).width) := by
        -- the root brings its children back and takes one for itself
        have hsum : t - rest.width - children.width + ((deg n : ℤ) - 1) =
            t - (node children rest).width := by
          simp only [hn, width]
          omega
        rw [search, if_neg (by rw [hsum]; simp only [width]; omega), hsum]

/-- **The search stops at the parent**, when it does so from between the trees of the forest. -/
theorem search_parents (hf : Laid deg n f) {p : ℕ}
    (hp : ∀ j : ℕ, j < f.width → search deg n (-j) = p) {i : ℕ} {q : Option ℕ}
    (hi : (f.parents (some p) n)[i]? = some q) : q = some (search deg (n + i) 0) := by
  induction f generalizing n p i with
  | nil => simp [parents] at hi
  | node children rest ihc ihr =>
    obtain ⟨hn, hc, hr⟩ := hf
    cases i with
    | zero =>
      have h0 := hp 0 (by simp [width])
      simp only [parents, List.getElem?_cons_zero, Option.some.injEq] at hi
      rw [← hi, ← h0]
      rfl
    | succ i =>
      rw [parents, List.getElem?_cons_succ] at hi
      by_cases hlt : i < children.size
      · rw [List.getElem?_append_left (by simpa using hlt)] at hi
        have hstop : ∀ j : ℕ, j < children.width → search deg (n + 1) (-j) = n := by
          intro j hj
          rw [search, if_pos (by rw [hn]; omega)]
        rw [ihc hc hstop hi]
        congr 2
        omega
      · rw [List.getElem?_append_right (by simpa using hlt)] at hi
        have hstop : ∀ j : ℕ, j < rest.width → search deg (n + 1 + children.size) (-j) = p := by
          intro j hj
          have hskip := search_skip (f := node children nil) (t := -j) ⟨hn, hc, trivial⟩ (by omega)
          simp only [size, width] at hskip
          rw [show n + 1 + children.size = n + (children.size + 0 + 1) by omega, hskip,
            ← hp (j + 1) (by simp only [width]; omega)]
          congr 1
          push_cast
          omega
        rw [ihr hr hstop hi, length_parents]
        congr 2
        omega

/-- The parents below a root with number `n`. -/
theorem search_root {children : Forest} (hf : Laid deg n (node children nil)) {i : ℕ}
    {q : Option ℕ} (hi : (children.parents (some n) (n + 1))[i]? = some q) :
    q = some (search deg (n + 1 + i) 0) := by
  refine search_parents hf.2.1 (fun j hj => ?_) hi
  rw [search, if_pos (by rw [hf.1]; omega)]

end Forest
