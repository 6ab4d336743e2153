import Mathlib.Data.Nat.ModEq
import Mathlib.Logic.Function.Basic

/-!
# Queues in a ring

A queue `q` lies in `n` slots, from `read` on and around the end; the next one is written behind it.
One slot stays free, so the positions to read and to write are the same only if the queue is empty.

* `Holds.push` — a slot behind the queue is written.
* `Holds.pop` — the first one is taken out.
* `pushLast` — the queue after a write, which forgets its first one if there is no room.
-/

namespace RingBuffer

open Function (update)

variable {A B : Type*}

/-- The slots hold the queue, each `b` of it in the form of an `a`. -/
structure Holds (R : A → B → Prop) (n : ℕ) (slot : ℕ → A) (read : ℕ) (q : List B) : Prop where
  read_lt : read < n
  length_lt : q.length < n
  get : ∀ i (h : i < q.length), R (slot ((read + i) % n)) q[i]

/-- Where the next one is written. -/
def next (n read : ℕ) (q : List B) : ℕ := (read + q.length) % n

variable {R : A → B → Prop} {n read : ℕ} {slot : ℕ → A} {q : List B} {a : A} {b : B}

theorem index_ne {r i k : ℕ} (hik : i < k) (hk : k < n) : (r + i) % n ≠ (r + k) % n := by
  intro h
  have hmod : i % n = k % n := Nat.ModEq.add_left_cancel' r h
  rw [Nat.mod_eq_of_lt (hik.trans hk), Nat.mod_eq_of_lt hk] at hmod
  omega

theorem Holds.next_lt (h : Holds R n slot read q) : next n read q < n :=
  Nat.mod_lt _ (Nat.zero_lt_of_lt h.read_lt)

theorem Holds.next_eq_read (h : Holds R n slot read q) : next n read q = read ↔ q = [] := by
  constructor
  · intro heq
    by_contra hne
    have hpos := List.length_pos_iff.2 hne
    have hidx := index_ne (r := read) hpos h.length_lt
    rw [Nat.add_zero, Nat.mod_eq_of_lt h.read_lt] at hidx
    exact hidx heq.symm
  · rintro rfl
    exact Nat.mod_eq_of_lt h.read_lt

/-- The slot behind the queue is none of its slots. -/
theorem Holds.get_update (h : Holds R n slot read q) {i : ℕ} (hi : i < q.length) :
    R (update slot (next n read q) a ((read + i) % n)) q[i] := by
  have hne : (read + i) % n ≠ next n read q := index_ne hi h.length_lt
  rw [Function.update_of_ne hne]
  exact h.get i hi

theorem Holds.push (h : Holds R n slot read q) (hab : R a b) (hroom : q.length + 1 < n) :
    Holds R n (update slot (next n read q) a) read (q ++ [b]) where
  read_lt := h.read_lt
  length_lt := by simpa using hroom
  get i hi := by
    rcases Nat.lt_or_ge i q.length with hlt | hge
    · rw [List.getElem_append_left hlt]
      exact h.get_update hlt
    · have hlast : i = q.length := by
        simp at hi
        omega
      subst hlast
      rw [List.getElem_append_right (Nat.le_refl _)]
      simpa [next] using hab

theorem Holds.pop (h : Holds R n slot read (b :: q)) :
    Holds R n slot ((read + 1) % n) q ∧ next n ((read + 1) % n) q = next n read (b :: q) := by
  have hmod : ∀ i, ((read + 1) % n + i) % n = (read + (i + 1)) % n := by
    intro i
    rw [Nat.mod_add_mod, Nat.add_assoc, Nat.add_comm 1 i]
  refine ⟨⟨Nat.mod_lt _ (Nat.zero_lt_of_lt h.read_lt), ?_, fun i hi => ?_⟩, hmod q.length⟩
  · have hlength := h.length_lt
    simp only [List.length_cons] at hlength
    omega
  · rw [hmod i]
    exact h.get (i + 1) (by simpa using hi)

/-- The first one of the queue is in the slot to read. -/
theorem Holds.head (h : Holds R n slot read (b :: q)) : R (slot read) b := by
  have hget := h.get 0 (by simp)
  rwa [Nat.add_zero, Nat.mod_eq_of_lt h.read_lt] at hget

/-- One more in the queue; the first one goes if there are as many as fit. -/
def pushLast (n : ℕ) (q : List B) (b : B) : List B :=
  if q.length + 1 < n then q ++ [b] else (q ++ [b]).tail

theorem Holds.next_push_eq_read (h : Holds R n slot read q) :
    (next n read q + 1) % n = read ↔ ¬ q.length + 1 < n := by
  have hnext : (next n read q + 1) % n = (read + (q.length + 1)) % n := by
    rw [next, Nat.mod_add_mod, Nat.add_assoc]
  rw [hnext]
  constructor
  · intro heq hroom
    have hne := index_ne (r := read) (Nat.zero_lt_succ q.length) hroom
    rw [Nat.add_zero, Nat.mod_eq_of_lt h.read_lt] at hne
    exact hne heq.symm
  · intro hfull
    have hn : q.length + 1 = n := by
      have hlength := h.length_lt
      omega
    rw [hn, Nat.add_mod_right, Nat.mod_eq_of_lt h.read_lt]

/-- **A write**, with the position to read moved on if the position to write has reached it. -/
theorem Holds.write (h : Holds R n slot read q) (hab : R a b) {read' : ℕ}
    (hread : read' = if (next n read q + 1) % n = read then (read + 1) % n else read) :
    Holds R n (update slot (next n read q) a) read' (pushLast n q b) ∧
      next n read' (pushLast n q b) = (next n read q + 1) % n := by
  have hnext : ∀ r q', next n r (q' ++ [b]) = (next n r q' + 1) % n := by
    intro r q'
    rw [next, next, Nat.mod_add_mod, List.length_append, List.length_singleton, Nat.add_assoc]
  by_cases hroom : q.length + 1 < n
  · rw [if_neg (fun heq => h.next_push_eq_read.1 heq hroom)] at hread
    rw [hread, pushLast, if_pos hroom]
    exact ⟨h.push hab hroom, hnext read q⟩
  · rw [if_pos (h.next_push_eq_read.2 hroom)] at hread
    rw [hread, pushLast, if_neg hroom]
    cases q with
    | nil =>
      -- the only slot is written and forgotten at once
      have hn : n = 1 := by
        have hlength := h.length_lt
        simp at hroom hlength
        omega
      subst hn
      refine ⟨⟨Nat.mod_lt _ Nat.one_pos, Nat.one_pos, fun i hi => ?_⟩, ?_⟩
      · simp at hi
      · simp [next, Nat.mod_one]
    | cons c q =>
      obtain ⟨hpop, hsame⟩ := h.pop
      rw [← hsame, List.cons_append, List.tail_cons]
      refine ⟨hpop.push hab ?_, hnext _ q⟩
      have hlength := h.length_lt
      simpa using hlength

end RingBuffer
