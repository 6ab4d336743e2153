import LibEthercat.Lib.Lifecycle

/-!
# What is known of a thread

The `View` that a program is followed with says something of the state (`Fits`). The steps of the
other threads leave it so (`Fits.frame`, `act_frame`), and the thread's own steps lead from one view
to the next (`act_fits`).
-/

namespace Lifecycle

open Function (update)
open Handoff (Stmt flow Safe)

/-! ## Threads -/

section
variable {N K O F : Type*} [DecidableEq N] [DecidableEq K] {s : State N K O F} {t t' : Tid N K}
  {n : N} {k : List (Code O)}

@[simp] theorem setThread_self (th : Thread N O F) : (s.setThread t th).thread t = th :=
  Function.update_self _ _ _

theorem setThread_of_ne (th : Thread N O F) (h : t' ≠ t) :
    (s.setThread t th).thread t' = s.thread t' := Function.update_of_ne h _ _

@[simp] theorem goOn_group : ((s.goOn t k).thread t').group = (s.thread t').group := by
  by_cases h : t' = t
  · rw [h, State.goOn, setThread_self]
  · rw [State.goOn, setThread_of_ne _ h]

@[simp] theorem goOn_fn : ((s.goOn t k).thread t').fn = (s.thread t').fn := by
  by_cases h : t' = t
  · rw [h, State.goOn, setThread_self]
  · rw [State.goOn, setThread_of_ne _ h]

theorem goOn_of_ne (h : t' ≠ t) : (s.goOn t k).thread t' = s.thread t' := setThread_of_ne _ h

@[simp] theorem goOn_code : ((s.goOn t k).thread t).code = k := by
  rw [State.goOn, setThread_self]

@[simp] theorem goOn_holder : (s.goOn t k).holder = s.holder := rfl

@[simp] theorem goOn_life : (s.goOn t k).life = s.life := rfl

@[simp] theorem goOn_running : (s.goOn t k).running = s.running := rfl

/-- A thread that goes on is not idle before. -/
theorem idle_goOn (hcode : (s.thread t).code ≠ []) (h : s.idle n = true) :
    (s.goOn t k).idle n = true := by
  have hne : Tid.worker n ≠ t := by
    rintro rfl
    exact hcode (List.isEmpty_iff.1 h)
  rwa [State.idle, goOn_of_ne hne]

end

/-! ## What is known of a thread -/

section
variable {N K O F : Type*}

/-- What is known of a thread is so. -/
structure Fits (c : Component O F) (s : State N K O F) (t : Tid N K) (v : View O) : Prop where
  held : ∀ p, s.holder p = some t → p.1 = (s.thread t).group ∧ p.2 ∈ v.held
  key : c.key ∈ v.held → s.holder ((s.thread t).group, c.key) = some t
  idle : v.idle = true → c.key ∈ v.held ∧ s.idle (s.thread t).group = true
  started : v.started = true → c.key ∈ v.held ∧ s.running (s.thread t).group = true

/-- No client is in a function, and the workers run with their objects. -/
structure Start (c : Component O F) (s : State N K O F) : Prop where
  group : ∀ n, (s.thread (.worker n)).group = n
  fn : ∀ t, (s.thread t).fn = none
  client : ∀ k, (s.thread (.client k)).code = []
  holder : ∀ p, s.holder p = none
  worker : ∀ n, (s.thread (.worker n)).code = [] ∨ (s.thread (.worker n)).code = [c.worker] ∧
    s.running n = true ∧ ∀ o ∈ c.workerObjects, s.life (n, o) ≠ .destroyed

/-- What the other threads know stays so. -/
structure Frame (c : Component O F) (s s' : State N K O F) (t : Tid N K) : Prop where
  held : ∀ t', t' ≠ t → ∀ p, s'.holder p = some t' → s.holder p = some t'
  key : ∀ t', t' ≠ t → ∀ n, s.holder (n, c.key) = some t' → s'.holder (n, c.key) = some t'
  idle : ∀ t', t' ≠ t → ∀ n, s.holder (n, c.key) = some t' → s.idle n = true → s'.idle n = true
  running : ∀ t', t' ≠ t → ∀ n, s.holder (n, c.key) = some t' → s.running n = true →
    s'.running n = true

variable {c : Component O F} {s s' : State N K O F} {t t' : Tid N K} {v : View O}

theorem Start.fits (h : Start c s) : Fits c s t .start :=
  ⟨fun p hp => by simp [h.holder] at hp, fun hk => absurd hk List.not_mem_nil,
    fun hi => absurd hi Bool.false_ne_true, fun hs => absurd hs Bool.false_ne_true⟩

theorem Fits.frame (h : Fits c s t' v) (hframe : Frame c s s' t) (hne : t' ≠ t)
    (hgroup : (s'.thread t').group = (s.thread t').group) : Fits c s' t' v := by
  refine ⟨fun p hp => ?_, fun hkey => ?_, fun hidle => ?_, fun hstarted => ?_⟩
  · rw [hgroup]
    exact h.held p (hframe.held t' hne p hp)
  · rw [hgroup]
    exact hframe.key t' hne _ (h.key hkey)
  · obtain ⟨hkey, hidle⟩ := h.idle hidle
    rw [hgroup]
    exact ⟨hkey, hframe.idle t' hne _ (h.key hkey) hidle⟩
  · obtain ⟨hkey, hrun⟩ := h.started hstarted
    rw [hgroup]
    exact ⟨hkey, hframe.running t' hne _ (h.key hkey) hrun⟩

/-- The key is held, and the worker is found to have stopped. -/
theorem Fits.learn (h : Fits c s t v) (hkey : c.key ∈ v.held)
    (hidle : s.idle (s.thread t).group = true) : Fits c s t { v with idle := true } :=
  ⟨h.held, h.key, fun _ => ⟨hkey, hidle⟩, h.started⟩

variable [DecidableEq N] [DecidableEq K] {k : List (Code O)}

theorem goOn_frame (hcode : (s.thread t).code ≠ []) : Frame c s (s.goOn t k) t :=
  ⟨fun _ _ _ h => h, fun _ _ _ h => h, fun _ _ _ _ => idle_goOn hcode, fun _ _ _ _ h => h⟩

theorem Fits.goOn (h : Fits c s t v) (hcode : (s.thread t).code ≠ []) : Fits c (s.goOn t k) t v := by
  refine ⟨?_, ?_, fun hidle => ?_, ?_⟩
  · rw [goOn_group]
    exact h.held
  · rw [goOn_group]
    exact h.key
  · rw [goOn_group]
    exact (h.idle hidle).imp_right (idle_goOn hcode)
  · rw [goOn_group]
    exact h.started

end
/-! ## Operations -/

section
variable {N K O F : Type*} [DecidableEq O]
variable {c : Component O F} {s s' : State N K O F} {t t' : Tid N K} {v v' : View O} {n : N}
  {a : Act O} {k : List (Code O)} {frees b : Bool}

/-- What is used has not been destroyed. -/
theorem actNext_object (h : actNext c frees v a = some v') {o : O} (ho : a.object = some o) :
    o ∉ v.gone := by
  cases a with
  | lock o' | unlock o' | use o' | destroy o' =>
    obtain rfl := Option.some.inj ho
    simp only [actNext] at h
    split_ifs at h with hcond
    all_goals tauto
  | _ => cases ho

/-- What is known to be destroyed. -/
theorem actNext_gone (h : actNext c frees v a = some v') :
    v'.gone = v.gone ∧ (∀ o, a ≠ .destroy o) ∨ ∃ o, a = .destroy o ∧ frees = true ∧
      v'.gone = o :: v.gone ∧ o ∉ v.held ∧ o ∉ v.gone ∧ (o ∈ c.workerObjects → v.joined = true) := by
  cases a with
  | destroy o =>
    simp only [actNext] at h
    split_ifs at h with hcond
    obtain rfl := Option.some.inj h
    exact .inr ⟨o, rfl, hcond.1, rfl, hcond.2⟩
  | _ =>
    simp only [actNext] at h
    split_ifs at h
    all_goals
      obtain rfl := Option.some.inj h
      exact .inl ⟨rfl, fun o ho => by cases ho⟩
/-- What a function that frees objects may do with the worker. -/
theorem actNext_frees (h : actNext c true v a = some v') (hstarted : v.started = false) :
    a ≠ .create ∧ v'.started = false ∧
      (a = .join ∧ v'.pending = false ∨
        a = .setRunning false ∧ v'.pending = true ∧ v'.joined = v.joined ∨
        (∀ r, a ≠ .setRunning r) ∧ v'.pending = v.pending ∧ v'.joined = v.joined) := by
  cases a with
  | setRunning r =>
    simp only [actNext, if_true] at h
    split_ifs at h with hr
    obtain rfl := Option.some.inj h
    exact ⟨by simp, hstarted, .inr (.inl ⟨by simpa using hr, rfl, rfl⟩)⟩
  | join =>
    obtain rfl := Option.some.inj h
    exact ⟨by simp, hstarted, .inl ⟨rfl, rfl⟩⟩
  | create =>
    simp only [actNext] at h
    split_ifs at h with hfalse
    exact absurd hfalse.1 Bool.false_ne_true
  | _ =>
    simp only [actNext] at h
    split_ifs at h
    all_goals
      obtain rfl := Option.some.inj h
      exact ⟨by simp, by simp [hstarted], .inr (.inr ⟨by simp, rfl, rfl⟩)⟩

theorem actNext_held (h : actNext c frees v a = some v') {o : O} (ho : o ∈ v'.held) :
    o ∈ v.held ∨ a = .lock o := by
  cases a with
  | lock o' =>
    simp only [actNext] at h
    split_ifs at h
    obtain rfl := Option.some.inj h
    rcases List.mem_cons.1 ho with rfl | ho
    · exact .inr rfl
    · exact .inl ho
  | unlock o' =>
    simp only [actNext] at h
    split_ifs at h
    obtain rfl := Option.some.inj h
    exact .inl (List.mem_filter.1 ho).1
  | _ =>
    simp only [actNext] at h
    split_ifs at h
    all_goals
      obtain rfl := Option.some.inj h
      exact .inl ho

variable [DecidableEq N] [DecidableEq K]

/-- A change to something else. -/
theorem of_update {P T : Type*} [DecidableEq P] {f : P → Option T} {p q : P} {o : Option T} {x : T}
    (ho : o ≠ some x) (h : update f q o p = some x) : p ≠ q ∧ f p = some x := by
  by_cases hp : p = q
  · rw [hp, Function.update_self] at h
    exact absurd h ho
  · rw [Function.update_of_ne hp] at h
    exact ⟨hp, h⟩

/-- What an operation does to the other threads. -/
theorem act_frame (hfits : Fits c s t v) (hcode : (s.thread t).code = act a :: k)
    (hnext : actNext c frees v a = some v')
    (halone : frees = true → ∀ t', t' ≠ t → s.holder ((s.thread t).group, c.key) ≠ some t')
    (hact : (s.goOn t k).act c t (s.thread t).group a = some s') : Frame c s s' t := by
  have hidle : ∀ n, s.idle n = true → (s.goOn t k).idle n = true := fun n =>
    idle_goOn (by simp [hcode])
  have hother : ∀ {t' n}, t' ≠ t → c.key ∈ v.held → s.holder (n, c.key) = some t' →
      n ≠ (s.thread t).group := by
    rintro t' n hne hkey hholder rfl
    exact hne (Option.some.inj (hholder.symm.trans (hfits.key hkey)))
  cases a with
  | lock o =>
    simp only [State.act] at hact
    split_ifs at hact with hfree
    obtain rfl := Option.some.inj hact
    refine ⟨fun t' hne p hp => (of_update (fun h => hne (Option.some.inj h).symm) hp).2,
      fun t' _ n hk => ?_, fun _ _ n _ => hidle n, fun _ _ n _ hrun => hrun⟩
    have hne : (n, c.key) ≠ ((s.thread t).group, o) := by
      intro heq
      rw [heq] at hk
      exact absurd (hk.symm.trans hfree) (Option.some_ne_none t')
    exact (Function.update_of_ne hne _ _).trans hk
  | unlock o =>
    obtain rfl := Option.some.inj hact
    simp only [actNext] at hnext
    split_ifs at hnext with hheld
    refine ⟨fun t' _ p hp => (of_update (Option.some_ne_none t').symm hp).2, fun t' hne n hk => ?_,
      fun _ _ n _ => hidle n, fun _ _ n _ hrun => hrun⟩
    refine (Function.update_of_ne ?_ _ _).trans hk
    rintro heq
    obtain ⟨hn, ho⟩ := Prod.mk.inj heq
    exact hother hne (by rw [ho]; exact hheld.1) hk hn
  | init o =>
    obtain rfl := Option.some.inj hact
    simp only [actNext] at hnext
    split_ifs at hnext with hnot
    refine ⟨fun t' _ p hp => (of_update (Option.some_ne_none t').symm hp).2, fun t' hne n hk => ?_,
      fun _ _ n _ => hidle n, fun _ _ n _ hrun => hrun⟩
    refine (Function.update_of_ne ?_ _ _).trans hk
    rintro heq
    exact hnot (.inr (.inl (Prod.mk.inj heq).2.symm))
  | use o | destroy o =>
    obtain rfl := Option.some.inj hact
    exact ⟨fun _ _ _ h => h, fun _ _ _ h => h, fun _ _ n _ => hidle n, fun _ _ _ _ h => h⟩
  | setRunning running =>
    obtain rfl := Option.some.inj hact
    refine ⟨fun _ _ _ h => h, fun _ _ _ h => h, fun _ _ n _ => hidle n, fun t' hne n hk hrun => ?_⟩
    by_cases hn : n = (s.thread t).group
    · subst hn
      simp only [actNext] at hnext
      split_ifs at hnext with hfrees hrunning hrunning
      · exact absurd hk (halone hfrees t' hne)
      · exact (Function.update_self _ _ _).trans hrunning.1
    · exact (Function.update_of_ne hn _ _).trans hrun
  | create =>
    obtain rfl := Option.some.inj hact
    refine ⟨fun _ _ _ h => h, fun _ _ _ h => h, fun t' hne n hk hn => ?_, fun _ _ _ _ h => h⟩
    simp only [actNext] at hnext
    split_ifs at hnext with hcreate
    have hg := hother hne (hfits.idle hcreate.2.1).1 hk
    rw [State.idle, setThread_of_ne _ (by simpa using hg)]
    exact hidle n hn
  | join =>
    simp only [State.act] at hact
    split_ifs at hact
    obtain rfl := Option.some.inj hact
    exact ⟨fun _ _ _ h => h, fun _ _ _ h => h, fun _ _ n _ => hidle n, fun _ _ _ _ h => h⟩

/-- A thread is changed by itself, and a worker when it is created. -/
theorem act_thread (t' : Tid N K) (hact : (s.goOn t k).act c t n a = some s') :
    s'.thread t' = (s.goOn t k).thread t' ∨
      a = .create ∧ t' = .worker n ∧ s'.thread t' = ⟨n, none, [c.worker]⟩ := by
  cases a with
  | lock o | join =>
    simp only [State.act] at hact
    split_ifs at hact
    obtain rfl := Option.some.inj hact
    exact .inl rfl
  | create =>
    obtain rfl := Option.some.inj hact
    by_cases ht : t' = .worker n
    · subst ht
      exact .inr ⟨rfl, rfl, setThread_self _⟩
    · exact .inl (setThread_of_ne _ ht)
  | _ =>
    obtain rfl := Option.some.inj hact
    exact .inl rfl

/-- What an operation does to its own thread. -/
theorem act_fits (hfits : Fits c s t v) (hcode : (s.thread t).code = act a :: k)
    (hnext : actNext c frees v a = some v') (hstarted : frees = true → v.started = false)
    (hact : (s.goOn t k).act c t (s.thread t).group a = some s') : Fits c s' t v' := by
  have hidle : ∀ n, s.idle n = true → (s.goOn t k).idle n = true := fun n =>
    idle_goOn (by simp [hcode])
  have hgroup : (s'.thread t).group = (s.thread t).group := by
    rcases act_thread t hact with h | ⟨-, ht, h⟩
    · rw [h, goOn_group]
    · rw [h]
  have hkeep : s'.holder = s.holder → v'.held = v.held →
      (v'.idle = true → v.idle = true ∧ s'.idle (s.thread t).group = true) →
      (v'.started = true → c.key ∈ v.held ∧ s'.running (s.thread t).group = true) →
      Fits c s' t v' := by
    intro hholder hheld hi hs
    refine ⟨fun p hp => ?_, fun hkey => ?_, fun h => ?_, fun h => ?_⟩
    · rw [hgroup, hheld]
      exact hfits.held p (hholder ▸ hp)
    · rw [hgroup, hholder]
      exact hfits.key (hheld ▸ hkey)
    · rw [hgroup, hheld]
      obtain ⟨h, hempty⟩ := hi h
      exact ⟨(hfits.idle h).1, hempty⟩
    · rw [hgroup, hheld]
      exact hs h
  cases a with
  | lock o =>
    simp only [State.act] at hact
    split_ifs at hact with hfree
    obtain rfl := Option.some.inj hact
    simp only [actNext] at hnext
    split_ifs at hnext with hnot
    obtain rfl := Option.some.inj hnext
    refine ⟨fun p hp => ?_, fun hkey => ?_, fun hi => ?_, fun hs => ?_⟩
    · rw [hgroup]
      by_cases hpo : p = ((s.thread t).group, o)
      · subst hpo
        exact ⟨rfl, List.mem_cons_self⟩
      · obtain ⟨hg, hmem⟩ := hfits.held p ((Function.update_of_ne hpo _ _).symm.trans hp)
        exact ⟨hg, List.mem_cons_of_mem _ hmem⟩
    · rw [hgroup]
      by_cases hko : c.key = o
      · rw [hko]
        exact Function.update_self _ _ _
      · refine (Function.update_of_ne (by simpa using hko) _ _).trans (hfits.key ?_)
        exact (List.mem_cons.1 hkey).resolve_left hko
    · rw [hgroup]
      obtain ⟨hkey, hi⟩ := hfits.idle hi
      exact ⟨List.mem_cons_of_mem _ hkey, hidle _ hi⟩
    · rw [hgroup]
      obtain ⟨hkey, hs⟩ := hfits.started hs
      exact ⟨List.mem_cons_of_mem _ hkey, hs⟩
  | unlock o =>
    obtain rfl := Option.some.inj hact
    simp only [actNext] at hnext
    split_ifs at hnext with hheld
    obtain rfl := Option.some.inj hnext
    have hfilter : ∀ {x}, x ∈ v.held → x ≠ o → x ∈ v.held.filter (· ≠ o) := by
      intro x hx hxo
      exact List.mem_filter.2 ⟨hx, by simpa using hxo⟩
    refine ⟨fun p hp => ?_, fun hkey => ?_, fun hi => ?_, fun hs => ?_⟩
    · rw [hgroup]
      obtain ⟨hpo, hp⟩ := of_update (Option.some_ne_none t).symm hp
      obtain ⟨hg, hmem⟩ := hfits.held p hp
      exact ⟨hg, hfilter hmem fun ho => hpo (Prod.ext hg ho)⟩
    · rw [hgroup]
      obtain ⟨hkey, hko⟩ := List.mem_filter.1 hkey
      refine (Function.update_of_ne ?_ _ _).trans (hfits.key hkey)
      simpa using hko
    · rw [hgroup]
      simp only [Bool.and_eq_true, decide_eq_true_eq] at hi
      obtain ⟨hkey, hempty⟩ := hfits.idle hi.1
      exact ⟨hfilter hkey (Ne.symm hi.2), hidle _ hempty⟩
    · rw [hgroup]
      simp only [Bool.and_eq_true, decide_eq_true_eq] at hs
      obtain ⟨hkey, hrun⟩ := hfits.started hs.1
      exact ⟨hfilter hkey (Ne.symm hs.2), hrun⟩
  | init o =>
    obtain rfl := Option.some.inj hact
    simp only [actNext] at hnext
    split_ifs at hnext with hnot
    obtain rfl := Option.some.inj hnext
    refine ⟨fun p hp => ?_, fun hkey => ?_, fun hi => ?_, fun hs => ?_⟩
    · rw [hgroup]
      exact hfits.held p (of_update (Option.some_ne_none t).symm hp).2
    · rw [hgroup]
      refine (Function.update_of_ne ?_ _ _).trans (hfits.key hkey)
      intro heq
      exact hnot (.inr (.inl (Prod.mk.inj heq).2.symm))
    · rw [hgroup]
      exact (hfits.idle hi).imp_right (hidle _)
    · rw [hgroup]
      exact hfits.started hs
  | use o | destroy o =>
    obtain rfl := Option.some.inj hact
    simp only [actNext] at hnext
    split_ifs at hnext
    all_goals
      obtain rfl := Option.some.inj hnext
      exact hkeep rfl rfl (fun hi => ⟨hi, hidle _ (hfits.idle hi).2⟩) hfits.started
  | setRunning running =>
    obtain rfl := Option.some.inj hact
    simp only [actNext] at hnext
    split_ifs at hnext with hfrees hrunning hrunning
    all_goals obtain rfl := Option.some.inj hnext
    · refine hkeep rfl rfl (fun hi => ⟨hi, hidle _ (hfits.idle hi).2⟩) fun hs => ?_
      rw [hstarted hfrees] at hs
      cases hs
    · refine hkeep rfl rfl (fun hi => ⟨hi, hidle _ (hfits.idle hi).2⟩) fun _ => ?_
      exact ⟨hrunning.2, (Function.update_self _ _ _).trans hrunning.1⟩
  | create =>
    obtain rfl := Option.some.inj hact
    simp only [actNext] at hnext
    split_ifs at hnext
    obtain rfl := Option.some.inj hnext
    exact hkeep rfl rfl (fun hi => by cases hi) hfits.started
  | join =>
    simp only [State.act] at hact
    split_ifs at hact
    obtain rfl := Option.some.inj hact
    simp only [actNext] at hnext
    split_ifs at hnext
    obtain rfl := Option.some.inj hnext
    exact hkeep rfl rfl (fun hi => ⟨hi, hidle _ (hfits.idle hi).2⟩) hfits.started

theorem act_idle (hcode : (s.thread t).code ≠ []) (hact : (s.goOn t k).act c t n a = some s')
    {m : N} (ha : a = .create → m ≠ n) (h : s.idle m = true) : s'.idle m = true := by
  rcases act_thread (.worker m) hact with hthread | ⟨rfl, hm, -⟩
  · rw [State.idle, hthread]
    exact idle_goOn hcode h
  · exact absurd (Tid.worker.inj hm) (ha rfl)

theorem act_running (hact : (s.goOn t k).act c t n a = some s') :
    s'.running = s.running ∨ ∃ r, a = .setRunning r ∧ s'.running = update s.running n r := by
  cases a with
  | lock o | join =>
    simp only [State.act] at hact
    split_ifs at hact
    obtain rfl := Option.some.inj hact
    exact .inl rfl
  | setRunning r =>
    obtain rfl := Option.some.inj hact
    exact .inr ⟨r, rfl, rfl⟩
  | _ =>
    obtain rfl := Option.some.inj hact
    exact .inl rfl

/-- Only what is destroyed becomes unusable. -/
theorem act_life (hact : (s.goOn t k).act c t n a = some s') {p : N × O}
    (h : s'.life p = .destroyed) :
    s.life p = .destroyed ∨ ∃ o, a = .destroy o ∧ p = (n, o) := by
  cases a with
  | lock o | join =>
    simp only [State.act] at hact
    split_ifs at hact
    obtain rfl := Option.some.inj hact
    exact .inl h
  | init o =>
    obtain rfl := Option.some.inj hact
    by_cases hp : p = (n, o)
    · subst hp
      have hlive := (Function.update_self _ _ _).symm.trans h
      cases hlive
    · exact .inl ((Function.update_of_ne hp _ _).symm.trans h)
  | destroy o =>
    obtain rfl := Option.some.inj hact
    by_cases hp : p = (n, o)
    · exact .inr ⟨o, rfl, hp⟩
    · exact .inl ((Function.update_of_ne hp _ _).symm.trans h)
  | _ =>
    obtain rfl := Option.some.inj hact
    exact .inl h

/-- A step of a thread is an operation, or leads on to the next one. -/
theorem step_go (h : step c s (.go t b) = some s') :
    ∃ st k, (s.thread t).code = st :: k ∧
      ((∃ a, st = act a ∧ (s.goOn t k).act c t (s.thread t).group a = some s') ∨
        (∀ o, st ≠ .op o) ∧ s.tested (s.thread t).group b st = true ∧
          s' = s.goOn t (flow Empty.elim b st k)) := by
  cases hcode : (s.thread t).code with
  | nil => simp [step, hcode] at h
  | cons st k =>
    refine ⟨st, k, rfl, ?_⟩
    cases st with
    | op o =>
      cases o with
      | other a =>
        simp only [step, hcode] at h
        exact .inl ⟨a, rfl, h⟩
      | _ => simp [step, hcode] at h
    | _ =>
      simp only [step, hcode] at h
      split_ifs at h with htested
      exact .inr ⟨fun o ho => (by cases ho), htested, (Option.some.inj h).symm⟩

theorem act_join (hact : (s.goOn t k).act c t n .join = some s') : s'.idle n = true := by
  simp only [State.act] at hact
  split_ifs at hact with hidle
  obtain rfl := Option.some.inj hact
  exact hidle

end

end Lifecycle
