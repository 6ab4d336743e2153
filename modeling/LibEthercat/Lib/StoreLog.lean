import Mathlib.Logic.Function.Basic
import LibEthercat.Lib.Runs

/-!
# Stores and what is read from them

A store holds a value for every key. What clients do with it is a log of writes and reads, and the
log tells what the store holds: for each key the value that has been written last. A log in which
every read gives that value is one of a store that loses and invents nothing.

* `after_eq` — the store in the end, from the last writes.
* `runOk_valid` — a system whose steps add to the log what they do with its store has a valid log.
-/

namespace StoreLog

variable {K V : Type*}

inductive Op (K V : Type*) where
  | write (key : K) (value : V)
  | read (key : K) (value : V)

variable [DecidableEq K]

def Op.apply (s : K → V) : Op K V → K → V
  | .write k v => Function.update s k v
  | .read _ _ => s

/-- The store after these operations. -/
def after (s : K → V) (log : List (Op K V)) : K → V := log.foldl Op.apply s

/-- The value that has been written to a key last. -/
def lastWrite (k : K) : List (Op K V) → Option V
  | [] => none
  | .write k' v :: log => (lastWrite k log).or (if k' = k then some v else none)
  | .read _ _ :: log => lastWrite k log

/-- Every read gives what has been written to its key last, or what was there before. -/
def Valid (s : K → V) (log : List (Op K V)) : Prop :=
  ∀ pre k v post, log = pre ++ .read k v :: post → v = (lastWrite k pre).getD (s k)

variable {s : K → V} {log : List (Op K V)}

/-- **The last writes** are what the store holds. -/
theorem after_eq (s : K → V) (log : List (Op K V)) (k : K) :
    after s log k = (lastWrite k log).getD (s k) := by
  induction log generalizing s with
  | nil => rfl
  | cons op log ih =>
    cases op with
    | write k' v =>
      show after (Function.update s k' v) log k = _
      rw [ih, lastWrite, Function.update_apply]
      cases lastWrite k log with
      | some w => rfl
      | none =>
        by_cases h : k = k'
        · simp [h]
        · simp [h, Ne.symm h]
    | read k' v => exact ih s

@[simp] theorem after_append (s : K → V) (log : List (Op K V)) (op : Op K V) :
    after s (log ++ [op]) = op.apply (after s log) := by
  rw [after, List.foldl_append]
  rfl

theorem valid_nil : Valid s [] := fun pre _ _ _ h => absurd h.symm (by simp)

theorem Valid.write (h : Valid s log) (k : K) (v : V) : Valid s (log ++ [.write k v]) := by
  intro pre k' v' post heq
  obtain rfl | ⟨post, op, rfl⟩ := List.eq_nil_or_concat post
  · have hlast := congrArg List.getLast? heq
    simp at hlast
  · rw [List.concat_eq_append, ← List.cons_append, ← List.append_assoc] at heq
    exact h pre k' v' post (List.append_inj_left' heq rfl)

theorem Valid.read (h : Valid s log) (k : K) :
    Valid s (log ++ [.read k (after s log k)]) := by
  intro pre k' v' post heq
  obtain rfl | ⟨post, op, rfl⟩ := List.eq_nil_or_concat post
  · obtain ⟨rfl, hop⟩ := List.append_inj' heq rfl
    cases hop
    exact after_eq s log k
  · rw [List.concat_eq_append, ← List.cons_append, ← List.append_assoc] at heq
    exact h pre k' v' post (List.append_inj_left' heq rfl)

section
variable {S A : Type*} {step : S → A → Option S} {ok : S → A → Prop} {I : S → Prop}
  {store : S → K → V} {history : S → List (Op K V)}

/-- What a step does to the store and to the log. -/
inductive Logs (store : S → K → V) (history : S → List (Op K V)) (s s' : S) : Prop
  | write (k : K) (v : V) (hstore : store s' = Function.update (store s) k v)
      (hlog : history s' = history s ++ [.write k v])
  | read (k : K) (hstore : store s' = store s)
      (hlog : history s' = history s ++ [.read k (store s k)])

/-- **Runs.** A system whose steps write to its store, or read from it, as they log: one operation
for each step. -/
theorem runOk_valid
    (hstep : ∀ s a s', I s → ok s a → step s a = some s' → I s' ∧ Logs store history s s')
    {s₀ s : S} {as : List A} (hinit : I s₀) (hnil : history s₀ = [])
    (hok : Runs.RunOk step ok s₀ as) (hrun : Runs.run step s₀ as = some s) :
    I s ∧ Valid (store s₀) (history s) ∧ store s = after (store s₀) (history s) ∧
      (history s).length = as.length := by
  have hgeneral : ∀ t, I t → Valid (store s₀) (history t) → store t = after (store s₀) (history t) →
      Runs.RunOk step ok t as → Runs.run step t as = some s →
      I s ∧ Valid (store s₀) (history s) ∧ store s = after (store s₀) (history s) ∧
        (history s).length = (history t).length + as.length := by
    clear hok hrun
    induction as with
    | nil =>
      intro t hi hvalid hstore _ hrun
      cases hrun
      exact ⟨hi, hvalid, hstore, rfl⟩
    | cons a as ih =>
      intro t hi hvalid hstore hok hrun
      obtain ⟨u, hu, hrest⟩ := Runs.run_cons_eq_some.1 hrun
      obtain ⟨hi', hlogs⟩ := hstep t a u hi hok.1 hu
      obtain ⟨hvalid', hstore', hlen⟩ : Valid (store s₀) (history u) ∧
          store u = after (store s₀) (history u) ∧
          (history u).length = (history t).length + 1 := by
        cases hlogs with
        | write k v hstore' hlog =>
          rw [hlog, hstore', hstore, after_append, List.length_append]
          exact ⟨hvalid.write k v, rfl, rfl⟩
        | read k hstore' hlog =>
          rw [hlog, hstore', hstore, after_append, List.length_append]
          exact ⟨hvalid.read k, rfl, rfl⟩
      obtain ⟨hs, hvalid'', hstore'', hlen'⟩ := ih u hi' hvalid' hstore' (hok.2 u hu) hrest
      exact ⟨hs, hvalid'', hstore'', by rw [hlen', hlen, List.length_cons]; omega⟩
  obtain ⟨hs, hvalid, hstore, hlen⟩ :=
    hgeneral s₀ hinit (hnil ▸ valid_nil) (by rw [hnil]; rfl) hok hrun
  exact ⟨hs, hvalid, hstore, by rw [hlen, hnil, List.length_nil, Nat.zero_add]⟩

end

end StoreLog
