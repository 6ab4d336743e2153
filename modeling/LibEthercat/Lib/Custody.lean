import Mathlib.Data.List.Nodup
import Mathlib.Logic.Function.Basic

/-!
# Things in the hands of one owner

Things are taken from a free list, held and put back. Who has what is said twice: by the free list
and the holders (`held`, one thing each), and by an owner for every thing. A thing has one owner,
so nobody holds what is free, or what somebody else holds (`Custody.inj`).
Owners other than the holders can be added to follow things that nobody holds.

* `Custody.take`, `Custody.put` — from the free list to a holder and back.
* `Custody.release`, `Custody.pass`, `Custody.adopt` — from a holder to another owner, from there to
  yet another, and to the free list.
-/

namespace Custodian

open Function (update)

variable {R H X : Type*}

inductive Owner (H X : Type*)
  | free
  | holder (h : H)
  | other (x : X)

structure Custody (free : List R) (held : H → Option R) (owner : R → Owner H X) : Prop where
  ownerFree : ∀ r ∈ free, owner r = .free
  nodup : free.Nodup
  ownerHolder : ∀ h r, held h = some r ↔ owner r = .holder h

/-- A change between two other values does not show. -/
theorem update_eq_iff {A B : Type*} [DecidableEq A] {f : A → B} {a k : A} {o b : B} (ho : o ≠ b)
    (hf : f a ≠ b) : update f a o k = b ↔ f k = b := by
  by_cases hk : k = a
  · rw [hk, Function.update_self]
    exact iff_of_false ho hf
  · rw [Function.update_of_ne hk]

variable {free : List R} {held : H → Option R} {owner : R → Owner H X}

theorem Custody.inj (c : Custody free held owner) {h h' : H} {r : R} (hr : held h = some r)
    (hr' : held h' = some r) : h = h' :=
  Owner.holder.inj (((c.ownerHolder h r).1 hr).symm.trans ((c.ownerHolder h' r).1 hr'))

theorem Custody.not_mem_free (c : Custody free held owner) {h : H} {r : R}
    (hr : held h = some r) : r ∉ free := by
  intro hfree
  have heq := (c.ownerFree r hfree).symm.trans ((c.ownerHolder h r).1 hr)
  cases heq

section
variable [DecidableEq R] [DecidableEq H]

theorem Custody.take {r : R} {rest : List R} (c : Custody (r :: rest) held owner) {h : H}
    (hnone : held h = none) :
    Custody rest (update held h (some r)) (update owner r (.holder h)) where
  ownerFree x hx := by
    have hne : x ≠ r := fun heq => (List.nodup_cons.1 c.nodup).1 (heq ▸ hx)
    rw [Function.update_of_ne hne]
    exact c.ownerFree x (List.mem_cons_of_mem r hx)
  nodup := (List.nodup_cons.1 c.nodup).2
  ownerHolder h' x := by
    by_cases hh : h' = h
    · subst hh
      rw [Function.update_self]
      by_cases hx : x = r
      · subst hx
        simp
      · rw [Function.update_of_ne hx, ← c.ownerHolder h' x, hnone]
        simp [Ne.symm hx]
    · rw [Function.update_of_ne hh, c.ownerHolder h' x]
      by_cases hx : x = r
      · subst hx
        rw [Function.update_self, c.ownerFree x List.mem_cons_self]
        simp [Ne.symm hh]
      · rw [Function.update_of_ne hx]

/-- From a holder to an owner that is not a holder. -/
theorem Custody.drop (c : Custody free held owner) {h : H} {r : R} (hr : held h = some r)
    {o : Owner H X} (ho : ∀ h', o ≠ .holder h') :
    (∀ x ∈ free, update owner r o x = .free) ∧
      ∀ h' x, update held h none h' = some x ↔ update owner r o x = .holder h' := by
  refine ⟨fun x hx => ?_, fun h' x => ?_⟩
  · have hne : x ≠ r := fun heq => c.not_mem_free hr (heq ▸ hx)
    rw [Function.update_of_ne hne]
    exact c.ownerFree x hx
  · by_cases hx : x = r
    · subst hx
      rw [Function.update_self]
      refine iff_of_false ?_ (ho h')
      by_cases hh : h' = h
      · rw [hh, Function.update_self]
        simp
      · rw [Function.update_of_ne hh]
        exact fun hr' => hh (c.inj hr' hr)
    · rw [Function.update_of_ne hx, ← c.ownerHolder h' x]
      by_cases hh : h' = h
      · rw [hh, Function.update_self, hr]
        simp [Ne.symm hx]
      · rw [Function.update_of_ne hh]

theorem Custody.release (c : Custody free held owner) {h : H} {r : R} (hr : held h = some r)
    (x : X) : Custody free (update held h none) (update owner r (.other x)) := by
  have ho : ∀ h', (.other x : Owner H X) ≠ .holder h' := by simp
  obtain ⟨hfree, hheld⟩ := c.drop hr ho
  exact ⟨hfree, c.nodup, hheld⟩

theorem Custody.put (c : Custody free held owner) {h : H} {r : R} (hr : held h = some r) :
    Custody (free ++ [r]) (update held h none) (update owner r .free) := by
  have ho : ∀ h', (.free : Owner H X) ≠ .holder h' := by simp
  obtain ⟨hfree, hheld⟩ := c.drop hr ho
  refine ⟨?_, ?_, hheld⟩
  · intro x hx
    rcases List.mem_append.1 hx with hx | hx
    · exact hfree x hx
    · rw [List.mem_singleton.1 hx, Function.update_self]
  · rw [List.nodup_append_comm]
    exact List.nodup_cons.2 ⟨c.not_mem_free hr, c.nodup⟩

end

section
variable [DecidableEq R]

theorem Custody.adopt (c : Custody free held owner) {r : R} {x : X} (hr : owner r = .other x) :
    Custody (free ++ [r]) held (update owner r .free) where
  ownerFree y hy := by
    by_cases hyr : y = r
    · rw [hyr, Function.update_self]
    · rw [Function.update_of_ne hyr]
      rcases List.mem_append.1 hy with hy | hy
      · exact c.ownerFree y hy
      · exact absurd (List.mem_singleton.1 hy) hyr
  nodup := by
    rw [List.nodup_append_comm]
    refine List.nodup_cons.2 ⟨fun hmem => ?_, c.nodup⟩
    rw [c.ownerFree r hmem] at hr
    cases hr
  ownerHolder h y := by
    by_cases hyr : y = r
    · subst hyr
      rw [Function.update_self, c.ownerHolder h y, hr]
      simp
    · rw [Function.update_of_ne hyr]
      exact c.ownerHolder h y

/-- From one owner that is not a holder to another. -/
theorem Custody.pass (c : Custody free held owner) {r : R} {x : X} (hr : owner r = .other x)
    (y : X) : Custody free held (update owner r (.other y)) where
  ownerFree z hz := by
    have hne : z ≠ r := by
      rintro rfl
      rw [c.ownerFree z hz] at hr
      cases hr
    rw [Function.update_of_ne hne]
    exact c.ownerFree z hz
  nodup := c.nodup
  ownerHolder h z := by
    by_cases hzr : z = r
    · subst hzr
      rw [Function.update_self, c.ownerHolder h z, hr]
      simp
    · rw [Function.update_of_ne hzr]
      exact c.ownerHolder h z

end

end Custodian
