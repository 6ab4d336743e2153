import LibEthercat.Lib.ThreadViews
import LibEthercat.Lib.Runs

/-!
# Destroying a lock that is held

`not_sound_of_destroy_key` — a function that destroys the key only while it holds it is not sound
there, whatever the other threads do and whatever is asked of the run.
-/

namespace Lifecycle

open Function (update)
open Handoff (Stmt flow Safe)

/-! ## Following the key -/

section
variable {O F : Type*} [DecidableEq O] (c : Component O F) (frees : Bool)

/-- Does the thread hold the key? -/
def keyAct (locked : Bool) : Act O → Option Bool
  | .lock o => some (locked || o = c.key)
  | .unlock o => if o = c.key then if locked then some false else none else some locked
  | .init o => if o = c.key then none else some locked
  | .destroy o => if o = c.key ∧ !locked ∧ !frees then none else some locked
  | _ => some locked

def keyNext : List (Code O) × Bool → Option (List (List (Code O) × Bool))
  | ([], _) => some []
  | (.op (.other a) :: k, locked) => (keyAct c frees locked a).map fun locked' => [(k, locked')]
  | (.op _ :: _, _) => none
  | (st :: k, locked) =>
    some [(flow Empty.elim true st k, locked), (flow Empty.elim false st k, locked)]

structure KeyChecked (c : Component O F) : Prop where
  fn : ∀ f, Safe (keyNext c (c.frees f)) ([c.code f], false)
  worker : Safe (keyNext c false) ([c.worker], false)

end

section
variable {O F : Type*} [DecidableEq O] {c : Component O F} {frees b locked : Bool}
  {k : List (Code O)} {a : Act O} {st : Code O}

theorem keySafe_nil : Safe (keyNext c frees) ([], locked) := by
  intro d hd
  rcases hd.cases_head with rfl | ⟨e, ⟨l, hl, he⟩, -⟩
  · simp [keyNext]
  · obtain rfl : [] = l := Option.some.inj hl
    cases he

theorem keySafe_act (h : Safe (keyNext c frees) (act a :: k, locked)) :
    ∃ locked', keyAct c frees locked a = some locked' ∧ Safe (keyNext c frees) (k, locked') := by
  obtain ⟨l, hl, hsafe⟩ := h.allowed
  obtain ⟨locked', hlocked', rfl⟩ := Option.map_eq_some_iff.1 hl
  exact ⟨locked', hlocked', hsafe _ (List.mem_singleton_self _)⟩

theorem keySafe_flow (h : Safe (keyNext c frees) (st :: k, locked)) (hst : ∀ o, st ≠ .op o) :
    Safe (keyNext c frees) (flow Empty.elim b st k, locked) := by
  obtain ⟨l, hl, hsafe⟩ := h.allowed
  cases st with
  | op o => exact absurd rfl (hst o)
  | _ =>
    obtain rfl := Option.some.inj hl
    cases b <;> exact hsafe _ (by simp)

end

/-! ## Runs -/

section
variable {N K O F : Type*} [DecidableEq O]

/-- The function of a thread frees objects. -/
def State.frees (c : Component O F) (s : State N K O F) (t : Tid N K) : Bool :=
  (s.thread t).fn.elim false c.frees

/-- A thread that has locked the key holds it. -/
def KeyFits (c : Component O F) (s : State N K O F) (t : Tid N K) : Prop :=
  ∃ locked, Safe (keyNext c (s.frees c t)) ((s.thread t).code, locked) ∧
    (locked = true → s.holder ((s.thread t).group, c.key) = some t)

variable {c : Component O F} {s s' : State N K O F} {t t' : Tid N K} {n : N} {a : Act O}
  {k : List (Code O)} {b locked locked' : Bool} {j : K} {f : F}

/-- A thread that starts. -/
theorem keyFits_of_safe (hsafe : Safe (keyNext c (s.frees c t)) ((s.thread t).code, false)) :
    KeyFits c s t := ⟨false, hsafe, fun h => absurd h Bool.false_ne_true⟩

/-- A thread that does not take the step. -/
theorem KeyFits.frame (h : KeyFits c s t) (hthread : s'.thread t = s.thread t)
    (hholder : ∀ m, s.holder (m, c.key) = some t → s'.holder (m, c.key) = some t) :
    KeyFits c s' t := by
  obtain ⟨locked, hsafe, hlocked⟩ := h
  refine ⟨locked, ?_, fun hl => ?_⟩
  · rw [State.frees, hthread]
    exact hsafe
  · rw [hthread]
    exact hholder _ (hlocked hl)

theorem Start.keyFits (hc : KeyChecked c) (h : Start c s) (t : Tid N K) : KeyFits c s t := by
  refine keyFits_of_safe ?_
  cases t with
  | client j =>
    rw [h.client]
    exact keySafe_nil
  | worker n =>
    rcases h.worker n with hcode | ⟨hcode, -⟩
    · rw [hcode]
      exact keySafe_nil
    · rw [hcode, State.frees, h.fn]
      exact hc.worker

variable [DecidableEq N] [DecidableEq K]

/-- Only the thread that holds the key lets go of it. -/
theorem keyAct_holder {frees : Bool} (hact : (s.goOn t k).act c t n a = some s')
    (hnext : keyAct c frees locked a = some locked')
    (hlocked : locked = true → s.holder (n, c.key) = some t) :
    (locked' = true → s'.holder (n, c.key) = some t) ∧
      ∀ t', t' ≠ t → ∀ m, s.holder (m, c.key) = some t' → s'.holder (m, c.key) = some t' := by
  cases a with
  | lock o =>
    simp only [State.act] at hact
    split_ifs at hact with hfree
    obtain rfl := Option.some.inj hact
    obtain rfl := Option.some.inj hnext
    refine ⟨fun h => ?_, fun t' _ m hm => ?_⟩
    · by_cases ho : o = c.key
      · rw [ho]
        exact Function.update_self _ _ _
      · refine (Function.update_of_ne (by simpa using Ne.symm ho) _ _).trans (hlocked ?_)
        simpa [ho] using h
    · have hne : (m, c.key) ≠ (n, o) := by
        intro heq
        rw [heq] at hm
        exact absurd (hm.symm.trans hfree) (Option.some_ne_none t')
      exact (Function.update_of_ne hne _ _).trans hm
  | unlock o =>
    obtain rfl := Option.some.inj hact
    simp only [keyAct] at hnext
    split_ifs at hnext with ho hl
    · obtain rfl := Option.some.inj hnext
      refine ⟨fun h => absurd h Bool.false_ne_true, fun t' hne m hm => ?_⟩
      refine (Function.update_of_ne ?_ _ _).trans hm
      rintro heq
      obtain ⟨rfl, -⟩ := Prod.mk.inj heq
      exact hne (Option.some.inj (hm.symm.trans (hlocked hl)))
    · obtain rfl := Option.some.inj hnext
      have hsame : ∀ m, update s.holder (n, o) none (m, c.key) = s.holder (m, c.key) := fun m =>
        Function.update_of_ne (fun heq => ho (Prod.mk.inj heq).2.symm) _ _
      exact ⟨fun h => (hsame n).trans (hlocked h), fun t' _ m hm => (hsame m).trans hm⟩
  | init o =>
    obtain rfl := Option.some.inj hact
    simp only [keyAct] at hnext
    split_ifs at hnext with ho
    obtain rfl := Option.some.inj hnext
    have hsame : ∀ m, update s.holder (n, o) none (m, c.key) = s.holder (m, c.key) := fun m =>
      Function.update_of_ne (fun heq => ho (Prod.mk.inj heq).2.symm) _ _
    exact ⟨fun h => (hsame n).trans (hlocked h), fun t' _ m hm => (hsame m).trans hm⟩
  | destroy o =>
    obtain rfl := Option.some.inj hact
    simp only [keyAct] at hnext
    split_ifs at hnext
    obtain rfl := Option.some.inj hnext
    exact ⟨hlocked, fun _ _ _ h => h⟩
  | join =>
    simp only [State.act] at hact
    split_ifs at hact
    obtain rfl := Option.some.inj hact
    obtain rfl := Option.some.inj hnext
    exact ⟨hlocked, fun _ _ _ h => h⟩
  | _ =>
    obtain rfl := Option.some.inj hact
    obtain rfl := Option.some.inj hnext
    exact ⟨hlocked, fun _ _ _ h => h⟩

/-- A step keeps what is known of all threads. -/
theorem KeyFits.step (hc : KeyChecked c) (h : ∀ t, KeyFits c s t) {x : Action N K F}
    (hstep : step c s x = some s') (t : Tid N K) : KeyFits c s' t := by
  cases x with
  | call j n f =>
    simp only [Lifecycle.step] at hstep
    split_ifs at hstep with hnone
    obtain rfl := Option.some.inj hstep
    by_cases ht : t = .client j
    · subst ht
      refine keyFits_of_safe ?_
      rw [State.frees, setThread_self]
      exact hc.fn f
    · exact (h t).frame (setThread_of_ne _ ht) fun _ h => h
  | leave j =>
    simp only [Lifecycle.step] at hstep
    split_ifs at hstep with hend
    obtain rfl := Option.some.inj hstep
    by_cases ht : t = .client j
    · subst ht
      refine keyFits_of_safe ?_
      rw [setThread_self]
      have hcode : (s.thread (.client j)).code = [] := List.isEmpty_iff.1 hend.2
      rw [hcode]
      exact keySafe_nil
    · exact (h t).frame (setThread_of_ne _ ht) fun _ h => h
  | go t' b =>
    obtain ⟨locked, hsafe, hlocked⟩ := h t'
    obtain ⟨st, k, hcode, ⟨a, rfl, hact⟩ | ⟨hst, -, rfl⟩⟩ := step_go hstep
    · obtain ⟨locked', hnext, hrest⟩ := keySafe_act (hcode ▸ hsafe)
      obtain ⟨hself, hothers⟩ := keyAct_holder hact hnext hlocked
      rcases act_thread t hact with hthread | ⟨rfl, rfl, hthread⟩
      · by_cases ht : t = t'
        · subst ht
          refine ⟨locked', ?_, fun hl => ?_⟩
          · rw [State.frees, hthread, goOn_code, goOn_fn]
            exact hrest
          · rw [hthread, goOn_group]
            exact hself hl
        · exact (h t).frame (hthread.trans (goOn_of_ne ht)) (hothers t ht)
      · refine keyFits_of_safe ?_
        rw [State.frees, hthread]
        exact hc.worker
    · by_cases ht : t = t'
      · subst ht
        refine ⟨locked, ?_, fun hl => ?_⟩
        · rw [State.frees, goOn_code, goOn_fn]
          exact keySafe_flow (hcode ▸ hsafe) hst
        · rw [goOn_group]
          exact hlocked hl
      · exact (h t).frame (goOn_of_ne ht) fun _ h => h

/-- **The key is destroyed by its holder.** -/
theorem not_sound_of_destroy_key (hc : KeyChecked c) (hstart : Start c s)
    {xs : List (Action N K F)} (hrun : Runs.run (step c) s xs = some s')
    (hf : (s'.thread (.client j)).fn = some f) (hfrees : c.frees f = false)
    (hcode : (s'.thread (.client j)).code = act (.destroy c.key) :: k) :
    ¬ Sound s' (.go (.client j) b) := by
  have hinv := Runs.run_induction (I := fun s => ∀ t, KeyFits c s t)
    (fun _ _ _ h hstep => KeyFits.step hc h hstep) (fun t => hstart.keyFits hc t) hrun
  obtain ⟨locked, hsafe, hholder⟩ := hinv (.client j)
  obtain ⟨locked', hnext, -⟩ := keySafe_act (hcode ▸ hsafe)
  intro hsound
  obtain ⟨-, hfree, -⟩ := hsound _ k hcode
  cases locked with
  | true => simp [hfree] at hholder
  | false => simp [keyAct, State.frees, hf, hfrees] at hnext

end

end Lifecycle
