import Mathlib.Logic.Function.Basic
import Mathlib.Data.List.Basic

/-!
# Doubly linked lists in place

The nodes of a list are the indices of two tables, `next` and `prev`, and a third value says where
it begins. The list is built in one pass over its nodes: a node is linked behind the last one, or
is the first.

* `foldl_push_follows_iff` — the links lead through the nodes and end behind them just if the link
  that is left alone, that of the last node or the first of all if there is no node, leads nowhere.
* `foldl_push_backs` — the links back are right in any case.
-/

namespace Links

variable {ι ν : Type*} [DecidableEq ι]

/-- Where the list begins, and the links of every node. -/
structure Table (ι ν : Type*) where
  head : ν
  next : ι → ν
  prev : ι → ν

/-- From `v` the links lead to these nodes, in this order, and then nowhere. -/
def Follows (dest : ν → Option ι) (next : ι → ν) : ν → List ι → Prop
  | v, [] => dest v = none
  | v, a :: l => dest v = some a ∧ Follows dest next (next a) l

/-- The first node has this link back, and every other one leads to the one before it. -/
def Backs (link : ι → ν) (prev : ι → ν) : ν → List ι → Prop
  | _, [] => True
  | v, a :: l => prev a = v ∧ Backs link prev (link a) l

/-- Link a node behind `last`. -/
def push (link : ι → ν) (nil : ν) (st : Table ι ν × Option ι) (a : ι) : Table ι ν × Option ι :=
  match st.2 with
  | none => ({ st.1 with head := link a, prev := Function.update st.1.prev a nil }, some a)
  | some p =>
    ({ st.1 with
        next := Function.update st.1.next p (link a)
        prev := Function.update st.1.prev a (link p) }, some a)

/-- The link that is not set when these nodes have been linked. -/
def stale (t : Table ι ν) (l : List ι) : ν :=
  match l.getLast? with
  | none => t.head
  | some a => t.next a

variable {link : ι → ν} {nil : ν} {dest : ν → Option ι} {t : Table ι ν} {p : ι} {l : List ι}

/-- The list goes on behind `p`. -/
theorem foldl_push_cons (t : Table ι ν) (p a : ι) (l : List ι) :
    (a :: l).foldl (push link nil) (t, some p) =
      l.foldl (push link nil)
        (⟨t.head, Function.update t.next p (link a), Function.update t.prev a (link p)⟩, some a) :=
  rfl

/-- Nodes behind the last one leave the links of the others alone. -/
theorem foldl_push_of_ne {i : ι} (hp : i ≠ p) (hi : i ∉ l) :
    (l.foldl (push link nil) (t, some p)).1.next i = t.next i := by
  induction l generalizing t p with
  | nil => rfl
  | cons a l ih =>
    obtain ⟨hia, hil⟩ := not_or.1 (mt List.mem_cons.2 hi)
    rw [foldl_push_cons, ih hia hil]
    exact Function.update_of_ne hp ..

theorem foldl_push_prev {i : ι} (hi : i ∉ l) :
    (l.foldl (push link nil) (t, some p)).1.prev i = t.prev i := by
  induction l generalizing t p with
  | nil => rfl
  | cons a l ih =>
    obtain ⟨hia, hil⟩ := not_or.1 (mt List.mem_cons.2 hi)
    rw [foldl_push_cons, ih hil]
    exact Function.update_of_ne hia ..

theorem foldl_push_head : (l.foldl (push link nil) (t, some p)).1.head = t.head := by
  induction l generalizing t p with
  | nil => rfl
  | cons a l ih => rw [foldl_push_cons, ih]

/-! ## Behind a node -/

theorem follows_behind_iff (hdest : ∀ a ∈ l, dest (link a) = some a)
    (hnodup : (p :: l).Nodup) :
    Follows dest (l.foldl (push link nil) (t, some p)).1.next
        ((l.foldl (push link nil) (t, some p)).1.next p) l ↔
      dest (t.next ((p :: l).getLast (List.cons_ne_nil p l))) = none := by
  induction l generalizing t p with
  | nil => rfl
  | cons a l ih =>
    obtain ⟨hp, hl⟩ := List.nodup_cons.1 hnodup
    have hpa : p ≠ a := fun h => hp (h ▸ List.mem_cons_self)
    have hpl : p ∉ l := fun h => hp (List.mem_cons_of_mem a h)
    have hlast : (a :: l).getLast (List.cons_ne_nil a l) ≠ p := fun h =>
      hp (h ▸ List.getLast_mem _)
    rw [foldl_push_cons, foldl_push_of_ne hpa hpl]
    dsimp only
    rw [Function.update_self, Follows, ih (fun b hb => hdest b (List.mem_cons_of_mem a hb)) hl,
      List.getLast_cons (List.cons_ne_nil a l)]
    dsimp only
    rw [Function.update_of_ne hlast]
    exact and_iff_right (hdest a List.mem_cons_self)

theorem backs_behind (hnodup : (p :: l).Nodup) :
    Backs link (l.foldl (push link nil) (t, some p)).1.prev (link p) l := by
  induction l generalizing t p with
  | nil => trivial
  | cons a l ih =>
    obtain ⟨-, hl⟩ := List.nodup_cons.1 hnodup
    rw [foldl_push_cons]
    refine ⟨?_, ih hl⟩
    rw [foldl_push_prev (List.nodup_cons.1 hl).1]
    exact Function.update_self ..

/-! ## The whole list -/

/-- **The links that are built lead to the end just if the one left alone does.** -/
theorem foldl_push_follows_iff (hdest : ∀ a ∈ l, dest (link a) = some a) (hnodup : l.Nodup) :
    Follows dest (l.foldl (push link nil) (t, none)).1.next
        (l.foldl (push link nil) (t, none)).1.head l ↔ dest (stale t l) = none := by
  cases l with
  | nil => rfl
  | cons a l =>
    have hfold : (a :: l).foldl (push link nil) (t, none) = l.foldl (push link nil)
        (⟨link a, t.next, Function.update t.prev a nil⟩, some a) := rfl
    rw [hfold, foldl_push_head, Follows,
      follows_behind_iff (fun b hb => hdest b (List.mem_cons_of_mem a hb)) hnodup, stale,
      List.getLast?_eq_some_getLast (List.cons_ne_nil a l)]
    exact and_iff_right (hdest a List.mem_cons_self)

/-- The links back are always right. -/
theorem foldl_push_backs (hnodup : l.Nodup) :
    Backs link (l.foldl (push link nil) (t, none)).1.prev nil l := by
  cases l with
  | nil => trivial
  | cons a l =>
    have hfold : (a :: l).foldl (push link nil) (t, none) = l.foldl (push link nil)
        (⟨link a, t.next, Function.update t.prev a nil⟩, some a) := rfl
    rw [hfold]
    refine ⟨?_, backs_behind hnodup⟩
    rw [foldl_push_prev (List.nodup_cons.1 hnodup).1]
    exact Function.update_self ..

/-- What all links meet they meet still, if those to the nodes of the list do. -/
theorem foldl_push_forall (nil : ν) {P : ν → Prop} (hlink : ∀ a ∈ l, P (link a)) {o : Option ι}
    (hhead : P t.head) (hnext : ∀ i, P (t.next i)) :
    P (l.foldl (push link nil) (t, o)).1.head ∧
      ∀ i, P ((l.foldl (push link nil) (t, o)).1.next i) := by
  induction l generalizing t o with
  | nil => exact ⟨hhead, hnext⟩
  | cons a l ih =>
    have ha := hlink a List.mem_cons_self
    have hrest := fun b hb => hlink b (List.mem_cons_of_mem a hb)
    cases o with
    | none => exact ih hrest ha hnext
    | some p =>
      refine ih hrest hhead fun i => ?_
      show P (Function.update t.next p (link a) i)
      by_cases hi : i = p
      · subst hi
        rw [Function.update_self]
        exact ha
      · rw [Function.update_of_ne hi]
        exact hnext i

end Links
