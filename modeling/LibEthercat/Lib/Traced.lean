import Mathlib.Data.Nat.Notation

/-!
# Computations with a trace

A computation leaves a trace of events, and a result if it comes to an end. What it does after a
part that does not end is not done.

* `all_bind`, `all_fold` — what holds of all events of a sequence, and of a loop.
* `isSome_fold` — a loop of passes that come to an end.
-/

/-- What has happened, and the result, if there is one. -/
structure Traced (ε α : Type*) where
  events : List ε
  result : Option α

namespace Traced

variable {ε α β σ : Type*}

def pure (a : α) : Traced ε α := ⟨[], some a⟩

def event (e : ε) : Traced ε Unit := ⟨[e], some ()⟩

/-- A result that is not there is never reached. -/
def ofOption (o : Option α) : Traced ε α := ⟨[], o⟩

def bind (t : Traced ε α) (f : α → Traced ε β) : Traced ε β :=
  match t.result with
  | none => ⟨t.events, none⟩
  | some a => ⟨t.events ++ (f a).events, (f a).result⟩

/-- A loop over a list. -/
def fold (f : σ → α → Traced ε σ) : σ → List α → Traced ε σ
  | s, [] => pure s
  | s, a :: as => (f s a).bind fun s => fold f s as

/-- All events have the property. -/
def All (P : ε → Prop) (t : Traced ε α) : Prop := ∀ e ∈ t.events, P e

variable {P : ε → Prop} {t : Traced ε α} {f : α → Traced ε β} {a : α} {e : ε}

theorem bind_of_some (h : t.result = some a) :
    t.bind f = ⟨t.events ++ (f a).events, (f a).result⟩ := by
  unfold bind
  rw [h]

theorem bind_of_none (h : t.result = none) : t.bind f = ⟨t.events, none⟩ := by
  unfold bind
  rw [h]

@[simp] theorem pure_bind (a : α) (f : α → Traced ε β) : (pure a).bind f = f a := rfl

@[simp] theorem ofOption_some (a : α) : (ofOption (some a) : Traced ε α) = pure a := rfl

@[simp] theorem all_pure : (pure a : Traced ε α).All P ↔ True := by
  simp [All, pure]

@[simp] theorem all_event : (event e).All P ↔ P e := by
  simp [All, event]

@[simp] theorem all_ofOption (o : Option α) : (ofOption o : Traced ε α).All P ↔ True := by
  simp [All, ofOption]

/-- **A sequence.** -/
theorem all_bind : (t.bind f).All P ↔ t.All P ∧ ∀ a, t.result = some a → (f a).All P := by
  cases h : t.result with
  | none =>
    rw [bind_of_none h]
    exact ⟨fun hall => ⟨hall, nofun⟩, fun hall => hall.1⟩
  | some a =>
    rw [bind_of_some h]
    refine List.forall_mem_append.trans (and_congr_right fun _ => ?_)
    constructor
    · rintro hall b ⟨⟩
      exact hall
    · intro hall
      exact hall a rfl

@[simp] theorem all_event_bind {f : Unit → Traced ε β} :
    ((event e).bind f).All P ↔ P e ∧ (f ()).All P := by
  rw [all_bind, all_event]
  exact and_congr_right fun _ => ⟨fun h => h () rfl, fun h _ _ => h⟩

@[simp] theorem all_ofOption_bind {o : Option α} :
    ((ofOption o).bind f).All P ↔ ∀ a, o = some a → (f a).All P := by
  rw [all_bind, all_ofOption, true_and]
  rfl

theorem bind_result_eq_some {b : β} :
    (t.bind f).result = some b ↔ ∃ a, t.result = some a ∧ (f a).result = some b := by
  cases h : t.result with
  | none => simp [bind_of_none h]
  | some a => simp [bind_of_some h]

@[simp] theorem isSome_pure : (pure a : Traced ε α).result.isSome = true := rfl

theorem isSome_bind (ht : t.result.isSome = true) (hf : ∀ a, (f a).result.isSome = true) :
    (t.bind f).result.isSome = true := by
  obtain ⟨a, ha⟩ := Option.isSome_iff_exists.1 ht
  rw [bind_of_some ha]
  exact hf a

/-! ## Loops -/

variable {g : σ → α → Traced ε σ} {as : List α} {Q : α → Prop}

/-- A loop whose passes come to an end. -/
theorem isSome_fold (h : ∀ s, ∀ a ∈ as, (g s a).result.isSome = true) (s : σ) :
    (fold g s as).result.isSome = true := by
  induction as generalizing s with
  | nil => rfl
  | cons a as ih =>
    obtain ⟨t, ht⟩ := Option.isSome_iff_exists.1 (h s a List.mem_cons_self)
    rw [fold, bind_of_some ht]
    exact ih (fun s b hb => h s b (List.mem_cons_of_mem a hb)) t

theorem all_fold_of (h : ∀ s, ∀ a ∈ as, (g s a).All P) (s : σ) : (fold g s as).All P := by
  induction as generalizing s with
  | nil => exact all_pure.2 trivial
  | cons a as ih =>
    rw [fold, all_bind]
    exact ⟨h s a List.mem_cons_self, fun t _ => ih (fun s b hb => h s b (List.mem_cons_of_mem a hb)) t⟩

/-- What the passes must meet when they come to an end, whatever they begin with. -/
theorem forall_of_all_fold (hend : ∀ s, ∀ a ∈ as, (g s a).result.isSome = true)
    (h : ∀ s, ∀ a ∈ as, (g s a).All P → Q a) {s : σ} (hall : (fold g s as).All P) :
    ∀ a ∈ as, Q a := by
  induction as generalizing s with
  | nil => exact nofun
  | cons a as ih =>
    rw [fold, all_bind] at hall
    obtain ⟨t, ht⟩ := Option.isSome_iff_exists.1 (hend s a List.mem_cons_self)
    refine List.forall_mem_cons.2 ⟨h s a List.mem_cons_self hall.1, ?_⟩
    exact ih (fun s b hb => hend s b (List.mem_cons_of_mem a hb))
      (fun s b hb => h s b (List.mem_cons_of_mem a hb)) (hall.2 t ht)

end Traced
