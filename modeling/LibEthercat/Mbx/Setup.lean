import LibEthercat.Mbx.Buffers

/-!
# `ec_mbx_init` and `ec_mbx_deinit`

The two functions of a slave are called under `transition_mutex`. What they do to `handler_running`
and to the thread of the mailbox is followed in every case (`setupNext`), while that thread may come
to its end. So, in all runs, the thread is created only when there is none, and without a client under
the mutex there is no thread unless `handler_running` is set (`Transitions`).
-/

namespace LibEthercat.Mbx.Buffers

open Function (update)
open Handoff

/-! ## Init and deinit -/

/-- What can follow under `transition_mutex`: what there is to do, whether `handler_running` is set, and
whether there is no thread. The thread may come to its end at any time. -/
def setupNext : List Code × Bool × Bool → Option (List (List Code × Bool × Bool))
  | (code, running, idle) =>
    (match code with
    | [] => if running || idle then some [] else none
    | .op (.other (.setRunning r)) :: k => some [(k, r, idle)]
    | .op (.other .create) :: k => if idle then some [(k, running, false)] else none
    | .op (.other .join) :: k => some (if idle then [(k, running, idle)] else [])
    | .op _ :: k => some [(k, running, idle)]
    | .test .running a d :: k => some [((if running then a else d) :: k, running, idle)]
    | .test _ a d :: k | .ifNull _ a d :: k =>
      some [(a :: k, running, idle), (d :: k, running, idle)]
    | st :: k => some [(flow (fun _ => true) true st k, running, idle)]).map fun l =>
      (code, running, true) :: l

section
variable {code k : List Code} {running idle idle' b : Bool}

set_option maxRecDepth 20000 in
theorem check_setup {f : Fn} (hf : f.transition = true) (h : (running || idle) = true) :
    explore setupNext (fun _ => true) 1000 [([f.code], running, idle)] [] = true := by
  cases f <;> cases hf <;> cases running <;> cases idle <;>
    first | exact absurd h Bool.false_ne_true | decide +kernel

theorem setup_start {f : Fn} (hf : f.transition = true) (h : (running || idle) = true) :
    Safe setupNext ([f.code], running, idle) :=
  safe_of_explore (check_setup hf h) (List.mem_singleton_self _)

theorem setup_ended (h : Safe setupNext ([], running, idle)) : (running || idle) = true := by
  obtain ⟨l, hl, -⟩ := h.allowed
  by_contra hnot
  simp [setupNext, hnot] at hl

/-- The thread is created when there is none. -/
theorem setup_create (h : Safe setupNext (.op (.other .create) :: k, running, idle)) :
    idle = true := by
  obtain ⟨l, hl, -⟩ := h.allowed
  by_contra hnot
  simp [setupNext, hnot] at hl

/-- The thread comes to its end. -/
theorem setup_idle (h : Safe setupNext (code, running, idle)) (hle : idle = true → idle' = true) :
    Safe setupNext (code, running, idle') := by
  cases idle' with
  | false =>
    cases idle with
    | false => exact h
    | true => exact absurd (hle rfl) Bool.false_ne_true
  | true =>
    obtain ⟨l, hl, hsafe⟩ := h.allowed
    obtain ⟨l', -, rfl⟩ := Option.map_eq_some_iff.1 hl
    exact hsafe _ List.mem_cons_self

theorem setup_op {o : Op Queue Var Effect} (h : Safe setupNext (.op o :: k, running, idle))
    (ho : ∀ e, o ≠ .other e) : Safe setupNext (k, running, idle) := by
  obtain ⟨l, hl, hsafe⟩ := h.allowed
  apply hsafe
  cases o with
  | other e => exact absurd rfl (ho e)
  | _ =>
    obtain rfl := Option.some.inj hl
    simp

theorem setup_flow {st : Code} {isNull : Var → Bool}
    (h : Safe setupNext (st :: k, running, idle)) (hst : ∀ o, st ≠ .op o)
    (htest : ∀ a d, st = .test .running a d → b = running) :
    Safe setupNext (flow isNull b st k, running, idle) := by
  obtain ⟨l, hl, hsafe⟩ := h.allowed
  apply hsafe
  cases st with
  | op o => exact absurd rfl (hst o)
  | ifNull x a d =>
    obtain rfl := Option.some.inj hl
    cases hx : isNull x <;> simp [Handoff.flow, hx]
  | test c a d =>
    cases c with
    | running =>
      obtain rfl := htest a d rfl
      obtain rfl := Option.some.inj hl
      simp [Handoff.flow]
    | data | supports q =>
      obtain rfl := Option.some.inj hl
      cases b <;> simp [Handoff.flow]
  | _ =>
    obtain rfl := Option.some.inj hl
    simp [Handoff.flow]

end

/-! ## Who has `transition_mutex` -/

section
variable {supports : ℕ → Queue → Bool} {s s' : State} {t : Tid}

/-- The client that is in `ec_mbx_init` or `ec_mbx_deinit`, and what is known of the thread of the
mailbox. -/
structure Transitions (s : State) : Prop where
  handler : ∀ n, (s.thread (.handler n)).slave = n ∧ (s.thread (.handler n)).fn = none
  owner : ∀ k f, (s.thread (.client k)).fn = some f → f.transition = true →
    s.transition (s.thread (.client k)).slave = some k
  free : ∀ n, s.transition n = none → (s.running n || s.idle n) = true
  setup : ∀ n k, s.transition n = some k → (s.thread (.client k)).slave = n ∧
    (∃ f, (s.thread (.client k)).fn = some f ∧ f.transition = true) ∧
    Safe setupNext ((s.thread (.client k)).code, s.running n, s.idle n)

variable {code k : List Code} {vars : Var → Option Buf} {content : Place → List Buf} {n c c' : ℕ}

section
variable (s t)

@[simp] theorem setThread_slave (t' : Tid) :
    ((s.setThread t { s.thread t with code := code, vars := vars }).thread t').slave =
      (s.thread t').slave := by
  by_cases ht : t' = t
  · rw [ht, State.setThread_self]
  · rw [State.setThread_of_ne _ _ ht]

@[simp] theorem setThread_fn (t' : Tid) :
    ((s.setThread t { s.thread t with code := code, vars := vars }).thread t').fn =
      (s.thread t').fn := by
  by_cases ht : t' = t
  · rw [ht, State.setThread_self]
  · rw [State.setThread_of_ne _ _ ht]

end

theorem idle_congr (h : s'.thread (.handler n) = s.thread (.handler n)) : s'.idle n = s.idle n := by
  rw [State.idle, State.idle, h]

/-- A thread goes on, but for the effects of `ec_mbx_init` and `ec_mbx_deinit`. -/
theorem Transitions.go (h : Transitions s) (hcode : (s.thread t).code ≠ [])
    (hgo : ∀ idle, Safe setupNext ((s.thread t).code, s.running (s.thread t).slave, idle) →
      Safe setupNext (code, s.running (s.thread t).slave, idle)) :
    Transitions { s.setThread t { s.thread t with code := code, vars := vars } with
      content := content } := by
  have hidle : ∀ n, s.idle n = true →
      (s.setThread t { s.thread t with code := code, vars := vars }).idle n = true := by
    intro n hn
    have ht : Tid.handler n ≠ t := by
      rintro rfl
      exact hcode (List.isEmpty_iff.1 hn)
    simpa only [State.idle, State.setThread_of_ne _ _ ht] using hn
  refine ⟨fun n => ?_, fun k f hf htr => ?_, fun n hn => ?_, fun n k hk => ?_⟩
  · simpa using h.handler n
  · simpa using h.owner k f (by simpa using hf) htr
  · have hfree := h.free n hn
    rw [Bool.or_eq_true] at hfree ⊢
    exact hfree.imp_right (hidle n)
  · obtain ⟨hslave, hfn, hsafe⟩ := h.setup n k hk
    refine ⟨by simpa using hslave, by simpa using hfn, ?_⟩
    by_cases ht : Tid.client k = t
    · subst ht hslave
      simp only [State.setThread_self]
      exact hgo _ hsafe
    · simp only [State.setThread_of_ne _ _ ht]
      exact setup_idle hsafe (hidle n)

/-- What a client does under `transition_mutex` concerns its slave. -/
theorem Transitions.under (h : Transitions s) {f : Fn} {running idle : Bool}
    (hf : (s.thread (.client c)).fn = some f)
    (htr : f.transition = true) (htransition : s'.transition = s.transition)
    (hclient : ∀ k', s'.thread (.client k') =
      (s.setThread (.client c) { s.thread (.client c) with code := k }).thread (.client k'))
    (hhandler : ∀ n, (s'.thread (.handler n)).slave = n ∧ (s'.thread (.handler n)).fn = none)
    (hother : ∀ n, n ≠ (s.thread (.client c)).slave →
      s'.running n = s.running n ∧ s'.idle n = s.idle n)
    (hrunning : s'.running (s.thread (.client c)).slave = running)
    (hidle : s'.idle (s.thread (.client c)).slave = idle)
    (hsafe : Safe setupNext (k, running, idle)) : Transitions s' := by
  have howner := h.owner c f hf htr
  refine ⟨hhandler, fun k' f' hf' htr' => ?_, fun n hn => ?_, fun n k' hk' => ?_⟩
  · rw [hclient] at hf' ⊢
    simpa [htransition] using h.owner k' f' (by simpa using hf') htr'
  · rw [htransition] at hn
    have hne : n ≠ (s.thread (.client c)).slave := by
      rintro rfl
      rw [howner] at hn
      cases hn
    rw [(hother n hne).1, (hother n hne).2]
    exact h.free n hn
  · rw [htransition] at hk'
    obtain ⟨hslave, hfn, hsafe'⟩ := h.setup n k' hk'
    rw [hclient]
    refine ⟨by simpa using hslave, by simpa using hfn, ?_⟩
    by_cases hkc : k' = c
    · subst hkc hslave
      rw [State.setThread_self, hrunning, hidle]
      exact hsafe
    · have hne : n ≠ (s.thread (.client c)).slave := by
        rintro rfl
        exact hkc (Option.some.inj (hk'.symm.trans howner))
      rw [State.setThread_of_ne _ _ (by simpa using hkc), (hother n hne).1, (hother n hne).2]
      exact hsafe'

theorem Transitions.effect (h : Transitions s) {e : Effect} {f : Fn}
    (hcode : (s.thread (.client c)).code = .op (.other e) :: k)
    (hf : (s.thread (.client c)).fn = some f) (htr : f.transition = true)
    (heff : (s.setThread (.client c) { s.thread (.client c) with code := k }).effect
      (s.thread (.client c)).slave e = some s') : Transitions s' := by
  obtain ⟨-, -, hsafe⟩ := h.setup _ c (h.owner c f hf htr)
  rw [hcode] at hsafe
  have hcreate := hsafe
  obtain ⟨l, hl, hsafe⟩ := hsafe.allowed
  have hthread : ∀ n, (s.setThread (.client c) { s.thread (.client c) with code := k }).thread
      (.handler n) = s.thread (.handler n) := fun n => State.setThread_of_ne _ _ (by simp)
  cases e with
  | setRunning running =>
    obtain rfl := Option.some.inj heff
    obtain rfl := Option.some.inj hl
    refine h.under hf htr rfl (fun _ => rfl) (fun n => ?_) (fun n hne => ?_)
      (Function.update_self _ _ _) (idle_congr (hthread _)) (hsafe _ (by simp))
    · simpa only [hthread] using h.handler n
    · exact ⟨Function.update_of_ne hne _ _, idle_congr (hthread n)⟩
  | create =>
    obtain rfl := Option.some.inj heff
    have hidle := setup_create hcreate
    simp only [setupNext, hidle, if_true] at hl
    obtain rfl := Option.some.inj hl
    refine h.under hf htr rfl (fun k' => State.setThread_of_ne _ _ (by simp)) (fun n => ?_)
      (fun n hne => ⟨rfl, idle_congr ?_⟩) rfl ?_
      (hsafe (k, s.running (s.thread (.client c)).slave, false) (by simp))
    · have hsame := h.handler n
      rw [← hthread n] at hsame
      exact ⟨(setThread_slave _ _ _).trans hsame.1, (setThread_fn _ _ _).trans hsame.2⟩
    · rw [State.setThread_of_ne _ _ (by simpa using hne), hthread]
    · simp [State.idle]
  | join =>
    simp only [State.effect] at heff
    split_ifs at heff with hidle
    obtain rfl := Option.some.inj heff
    rw [idle_congr (hthread _)] at hidle
    simp only [setupNext, hidle, if_true] at hl
    obtain rfl := Option.some.inj hl
    refine h.under hf htr rfl (fun _ => rfl) (fun n => ?_)
      (fun n _ => ⟨rfl, idle_congr (hthread n)⟩) rfl ((idle_congr (hthread _)).trans hidle)
      (hsafe _ (by simp))
    simpa only [hthread] using h.handler n
  | poolOpen q | poolClose q =>
    obtain rfl := Option.some.inj heff
    obtain rfl := Option.some.inj hl
    refine h.under hf htr rfl (fun _ => rfl) (fun n => ?_)
      (fun n _ => ⟨rfl, idle_congr (hthread n)⟩) rfl (idle_congr (hthread _)) (hsafe _ (by simp))
    simpa only [hthread] using h.handler n

/-- A client in another function does not have the mutex. -/
theorem Transitions.ne (h : Transitions s) (hk : s.transition n = some c')
    (hc : ∀ f, (s.thread (.client c)).fn = some f → f.transition ≠ true) : c' ≠ c := by
  intro heq
  obtain ⟨-, ⟨f, hf, htr⟩, -⟩ := h.setup n c' hk
  exact hc f (heq ▸ hf) htr

/-- A client calls or leaves another function. -/
theorem Transitions.outside (h : Transitions s) {th : Thread}
    (hbefore : ∀ f, (s.thread (.client c)).fn = some f → f.transition ≠ true)
    (hafter : ∀ f, th.fn = some f → f.transition ≠ true) :
    Transitions (s.setThread (.client c) th) := by
  refine ⟨fun n => ?_, fun k f hf htr => ?_, h.free, fun n k hk => ?_⟩
  · simpa using h.handler n
  · by_cases hkc : k = c
    · subst hkc
      exact absurd htr (hafter f (by simpa using hf))
    · rw [State.setThread_of_ne _ _ (by simpa using hkc)] at hf ⊢
      exact h.owner k f hf htr
  · rw [State.setThread_of_ne _ _ (by simpa using h.ne hk hbefore)]
    exact h.setup n k hk

theorem Transitions.call (h : Transitions s) {f : Fn}
    (hstep : step supports s (.call c n f) = some s') : Transitions s' := by
  simp only [step] at hstep
  split_ifs at hstep with hguard htr
  all_goals
    obtain rfl := Option.some.inj hstep
    obtain ⟨hfree, hlock⟩ := hguard
  · have hnone := hlock htr
    refine ⟨fun n' => ?_, fun k f' hf' htr' => ?_, fun n' hn' => ?_, fun n' k hk => ?_⟩
    · simpa using h.handler n'
    · by_cases hk : k = c
      · subst hk
        simp
      · rw [State.setThread_of_ne _ _ (by simpa using hk)] at hf' ⊢
        have howner := h.owner k f' hf' htr'
        have hne : (s.thread (.client k)).slave ≠ n := by
          intro heq
          rw [heq, hnone] at howner
          cases howner
        simpa [hne] using howner
    · have hne : n' ≠ n := by
        rintro rfl
        simp at hn'
      exact h.free n' (by simpa [hne] using hn')
    · by_cases hne : n' = n
      · subst hne
        obtain rfl : c = k := by simpa using hk
        rw [State.setThread_self]
        exact ⟨rfl, ⟨f, rfl, htr⟩, setup_start htr (h.free n' hnone)⟩
      · have hk' : s.transition n' = some k := by simpa [hne] using hk
        rw [State.setThread_of_ne _ _ (by simpa using h.ne hk' (by simp [hfree]))]
        exact h.setup n' k hk'
  · refine h.outside (fun f' hf' => ?_) (fun f' hf' => ?_)
    · rw [hfree] at hf'
      cases hf'
    · cases hf'
      exact htr

theorem Transitions.leave (h : Transitions s) (hstep : step supports s (.leave c) = some s') :
    Transitions s' := by
  simp only [step] at hstep
  cases hf : (s.thread (.client c)).fn with
  | none => simp [hf] at hstep
  | some f =>
    simp only [hf] at hstep
    split_ifs at hstep with hempty htr
    all_goals obtain rfl := Option.some.inj hstep
    · have howner := h.owner c f hf htr
      obtain ⟨-, -, hsafe⟩ := h.setup _ c howner
      refine ⟨fun n => ?_, fun k f' hf' htr' => ?_, fun n hn => ?_, fun n k hk => ?_⟩
      · simpa using h.handler n
      · have hkc : k ≠ c := by
          rintro rfl
          simp at hf'
        rw [State.setThread_of_ne _ _ (by simpa using hkc)] at hf' ⊢
        have howner' := h.owner k f' hf' htr'
        have hne : (s.thread (.client k)).slave ≠ (s.thread (.client c)).slave := by
          intro heq
          rw [heq, howner] at howner'
          exact hkc (Option.some.inj howner').symm
        simpa [hne] using howner'
      · by_cases hne : n = (s.thread (.client c)).slave
        · subst hne
          rw [List.isEmpty_iff.1 hempty] at hsafe
          exact setup_ended hsafe
        · exact h.free n (by simpa [hne] using hn)
      · have hne : n ≠ (s.thread (.client c)).slave := by
          rintro rfl
          simp at hk
        have hk' : s.transition n = some k := by simpa [hne] using hk
        obtain ⟨hslave, hfn, hsafe'⟩ := h.setup n k hk'
        have hkc : k ≠ c := by
          rintro rfl
          exact hne hslave.symm
        rw [State.setThread_of_ne _ _ (by simpa using hkc)]
        exact ⟨hslave, hfn, hsafe'⟩
    · refine h.outside (fun f' hf' => ?_) (fun f' hf' => by cases hf')
      rw [hf] at hf'
      cases hf'
      exact htr

end

end LibEthercat.Mbx.Buffers
