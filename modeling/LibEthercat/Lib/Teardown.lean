import LibEthercat.Lib.ThreadViews
import LibEthercat.Lib.Runs

/-!
# Freeing objects alone

The threads of a component (`Lifecycle.Component`) whose programs have been checked. If a function
that frees the objects of a group runs alone there, and nothing is called afterwards that uses what
has been destroyed, then nothing is destroyed while it is in use, and nothing that has been destroyed
is used (`sound_of_guarded`).
-/

namespace Lifecycle

open Handoff (Stmt flow Safe)

/-! ## The invariant -/

section
variable {N K O F : Type*} [DecidableEq O]

/-- A client that has called a function. -/
structure ClientFits (c : Component O F) (s : State N K O F) (k : K) (f : F) (v : View O) :
    Prop where
  safe : Safe (next c (c.frees f)) ((s.thread (.client k)).code, v)
  fits : Fits c s (.client k) v
  objects : ∀ o ∈ (s.thread (.client k)).code.flatMap (objectsOf c.workerObjects), o ∈ c.objects f
  alive : ∀ o ∈ c.objects f, o ∉ v.gone → s.life ((s.thread (.client k)).group, o) ≠ .destroyed
  user : c.frees f = false → v.gone = []
  started : c.frees f = true → v.started = false
  joined : c.frees f = true → v.joined = true → s.idle (s.thread (.client k)).group = true
  stopped : c.frees f = true → s.running (s.thread (.client k)).group = false →
    v.pending = true ∨ s.idle (s.thread (.client k)).group = true

structure WorkerFits (c : Component O F) (s : State N K O F) (n : N) (v : View O) : Prop where
  safe : Safe (next c false) ((s.thread (.worker n)).code, v)
  fits : Fits c s (.worker n) v
  gone : v.gone = []
  held : ∀ o ∈ v.held, o ∈ c.workerObjects
  objects : ∀ o ∈ (s.thread (.worker n)).code.flatMap (objectsOf c.workerObjects),
    o ∈ c.workerObjects
  alive : s.idle n = false → ∀ o ∈ c.workerObjects, s.life (n, o) ≠ .destroyed

structure Inv (c : Component O F) (s : State N K O F) : Prop where
  group : ∀ n, (s.thread (.worker n)).group = n
  client : ∀ k f, (s.thread (.client k)).fn = some f → ∃ v, ClientFits c s k f v
  away : ∀ k, (s.thread (.client k)).fn = none →
    (s.thread (.client k)).code = [] ∧ ∀ p, s.holder p ≠ some (.client k)
  worker : ∀ n, ∃ v, WorkerFits c s n v
  /-- A function that frees the objects of a group runs alone there. -/
  alone : ∀ k f, (s.thread (.client k)).fn = some f → c.frees f = true →
    ∀ k', k' ≠ k → (s.thread (.client k')).fn ≠ none →
      (s.thread (.client k')).group ≠ (s.thread (.client k)).group
  stopped : ∀ n, (∀ k f, (s.thread (.client k)).fn = some f →
    (s.thread (.client k)).group = n → c.frees f = false) →
      s.running n = false → s.idle n = true

variable {c : Component O F} {s s' : State N K O F} {t t' : Tid N K} {v v' w : View O} {n : N}
  {a : Act O} {k : List (Code O)} {st : Code O} {frees b : Bool} {j : K} {f : F}

theorem Start.inv (hc : Checked c) (h : Start c s) : Inv c s := by
  refine ⟨h.group, fun k f hf => ?_, fun k _ => ⟨h.client k, fun p hp => ?_⟩, fun n => ?_,
    fun k f hf => ?_, fun n _ hrun => ?_⟩
  · rw [h.fn] at hf
    cases hf
  · rw [h.holder] at hp
    cases hp
  · refine ⟨.start, ?_⟩
    rcases h.worker n with hcode | ⟨hcode, -, halive⟩
    · refine ⟨hcode ▸ safe_nil rfl rfl, h.fits, rfl, fun o ho => absurd ho List.not_mem_nil,
        fun o ho => ?_, fun hidle => ?_⟩
      · rw [hcode] at ho
        cases ho
      · simp [State.idle, hcode] at hidle
    · refine ⟨hcode ▸ hc.worker, h.fits, rfl, fun o ho => absurd ho List.not_mem_nil,
        fun o ho => ?_, fun _ => halive⟩
      rw [hcode, List.flatMap_singleton] at ho
      exact hc.workerObjects o ho
  · rw [h.fn] at hf
    cases hf
  · rcases h.worker n with hcode | ⟨-, htrue, -⟩
    · rw [State.idle, hcode]
      rfl
    · rw [hrun] at htrue
      cases htrue

/-! ## The threads that do not take the step -/

/-- Two clients of a group that frees. -/
theorem Inv.apart (h : Inv c s) {i : K} {g : F} (hij : i ≠ j)
    (hf : (s.thread (.client j)).fn = some f) (hg : (s.thread (.client i)).fn = some g)
    (hfrees : c.frees f = true ∨ c.frees g = true) :
    (s.thread (.client i)).group ≠ (s.thread (.client j)).group := by
  rcases hfrees with hfrees | hfrees
  · exact h.alone j f hf hfrees i hij (by simp [hg])
  · exact (h.alone i g hg hfrees j hij.symm (by simp [hf])).symm

/-- A client that does not take the step. -/
theorem ClientFits.frame (h : ClientFits c s j f v) (hframe : Frame c s s' t) (hne : .client j ≠ t)
    (hthread : s'.thread (.client j) = s.thread (.client j))
    (hlife : ∀ o, s'.life ((s.thread (.client j)).group, o) = .destroyed →
      s.life ((s.thread (.client j)).group, o) = .destroyed)
    (hfrees : c.frees f = true →
      (s.idle (s.thread (.client j)).group = true → s'.idle (s.thread (.client j)).group = true) ∧
        s'.running (s.thread (.client j)).group = s.running (s.thread (.client j)).group) :
    ClientFits c s' j f v := by
  refine ⟨hthread ▸ h.safe, h.fits.frame hframe hne (by rw [hthread]), hthread ▸ h.objects,
    fun o ho hgone => ?_, h.user, h.started, fun hf hjoined => ?_, fun hf hrun => ?_⟩
  · rw [hthread]
    exact fun hdestroyed => h.alive o ho hgone (hlife o hdestroyed)
  · rw [hthread]
    exact (hfrees hf).1 (h.joined hf hjoined)
  · rw [hthread] at hrun ⊢
    rw [(hfrees hf).2] at hrun
    exact (h.stopped hf hrun).imp_right (hfrees hf).1

theorem WorkerFits.frame (h : WorkerFits c s n v) (hframe : Frame c s s' t) (hne : .worker n ≠ t)
    (hthread : s'.thread (.worker n) = s.thread (.worker n))
    (hlife : s.idle n = false → ∀ o ∈ c.workerObjects,
      s'.life (n, o) = .destroyed → s.life (n, o) = .destroyed) : WorkerFits c s' n v := by
  refine ⟨hthread ▸ h.safe, h.fits.frame hframe hne (by rw [hthread]), h.gone, h.held,
    hthread ▸ h.objects, fun hidle o ho hdestroyed => ?_⟩
  rw [State.idle, hthread] at hidle
  exact h.alive hidle o ho (hlife hidle o ho hdestroyed)

/-- A worker does not hold the key. -/
theorem WorkerFits.key (hc : Checked c) (h : WorkerFits c s n v) : c.key ∉ v.held :=
  fun hkey => hc.key (h.held _ hkey)

/-- A worker that is not there holds nothing. -/
theorem WorkerFits.holder (h : WorkerFits c s n v) (hidle : s.idle n = true) (p : N × O) :
    s.holder p ≠ some (.worker n) := by
  intro hp
  have hmem := (h.fits.held p hp).2
  have hcode : (s.thread (.worker n)).code = [] := List.isEmpty_iff.1 hidle
  rw [(safe_ended (hcode ▸ h.safe)).1] at hmem
  cases hmem

/-- What a worker does. -/
theorem WorkerFits.next_act (hc : Checked c) (h : WorkerFits c s n v)
    (hnext : actNext c false v a = some v') :
    a ≠ .create ∧ (∀ r, a ≠ .setRunning r) ∧ (∀ o, a ≠ .destroy o) := by
  refine ⟨?_, fun r => ?_, fun o => ?_⟩
  · rintro rfl
    simp only [actNext] at hnext
    split_ifs at hnext with hcreate
    exact h.key hc (h.fits.idle hcreate.2.1).1
  · rintro rfl
    simp only [actNext, Bool.false_eq_true, if_false] at hnext
    split_ifs at hnext with hset
    exact h.key hc hset.2
  · rintro rfl
    simp only [actNext, Bool.false_eq_true, false_and, if_false] at hnext
    cases hnext

/-- A thread that can go on is a worker, or a client in a function. -/
theorem Inv.client_in (h : Inv c s) (hcode : (s.thread (.client j)).code = st :: k) :
    ∃ f, (s.thread (.client j)).fn = some f := by
  refine Option.ne_none_iff_exists'.1 fun hnone => ?_
  rw [(h.away j hnone).1] at hcode
  cases hcode

/-- What is used is there. -/
theorem ClientFits.actSound (h : ClientFits c s j f v)
    (hcode : (s.thread (.client j)).code = act a :: k) {o : O} (ho : a.object = some o) :
    s.life ((s.thread (.client j)).group, o) ≠ .destroyed := by
  obtain ⟨v', hnext, -⟩ := safe_act (hcode ▸ h.safe)
  exact h.alive o (h.objects o (hcode ▸ mem_objects_act ho)) (actNext_object hnext ho)

theorem WorkerFits.actSound (h : WorkerFits c s n v)
    (hcode : (s.thread (.worker n)).code = act a :: k) {o : O} (ho : a.object = some o) :
    s.life (n, o) ≠ .destroyed :=
  h.alive (by simp [State.idle, hcode]) o (h.objects o (hcode ▸ mem_objects_act ho))
variable [DecidableEq N] [DecidableEq K]

/-! ## The threads after a step -/

theorem ClientFits.acts (h : ClientFits c s j f v)
    (hcode : (s.thread (.client j)).code = act a :: k)
    (hact : (s.goOn (.client j) k).act c (.client j) (s.thread (.client j)).group a = some s') :
    ∃ v', actNext c (c.frees f) v a = some v' ∧ ClientFits c s' j f v' := by
  obtain ⟨v', hnext, hsafe⟩ := safe_act (hcode ▸ h.safe)
  have hne : (s.thread (.client j)).code ≠ [] := by simp [hcode]
  have hthread : s'.thread (.client j) = (s.goOn (.client j) k).thread (.client j) :=
    (act_thread _ hact).resolve_right fun h => by cases h.2.1
  have hgroup : (s'.thread (.client j)).group = (s.thread (.client j)).group := by
    rw [hthread, goOn_group]
  have hrest : (s'.thread (.client j)).code = k := by rw [hthread, goOn_code]
  refine ⟨v', hnext, hrest ▸ hsafe, act_fits h.fits hcode hnext h.started hact, fun o ho => ?_,
    fun o ho hgone => ?_, fun hf => ?_, fun hf => ?_, fun hf hjoined => ?_, fun hf hrun => ?_⟩
  · rw [hrest] at ho
    exact h.objects o (hcode ▸ mem_objects_of_cons ho)
  · rw [hgroup]
    intro hlife
    rcases actNext_gone hnext with ⟨hsame, hdestroy⟩ | ⟨o', rfl, -, hcons, -⟩
    · rcases act_life hact hlife with hlife | ⟨o', ha, -⟩
      · exact h.alive o ho (hsame ▸ hgone) hlife
      · exact hdestroy o' ha
    · rw [hcons, List.mem_cons, not_or] at hgone
      rcases act_life hact hlife with hlife | ⟨o'', ha, hp⟩
      · exact h.alive o ho hgone.2 hlife
      · cases ha
        exact hgone.1 (Prod.mk.inj hp).2
  · rcases actNext_gone hnext with ⟨hsame, -⟩ | ⟨-, -, hfrees, -⟩
    · exact hsame.trans (h.user hf)
    · rw [hf] at hfrees
      cases hfrees
  · rw [hf] at hnext
    exact (actNext_frees hnext (h.started hf)).2.1
  · rw [hgroup]
    rw [hf] at hnext
    obtain ⟨hcreate, -, ⟨rfl, -⟩ | ⟨-, -, hsame⟩ | ⟨-, -, hsame⟩⟩ :=
      actNext_frees hnext (h.started hf)
    · exact act_join hact
    · exact act_idle hne hact (absurd · hcreate) (h.joined hf (hsame ▸ hjoined))
    · exact act_idle hne hact (absurd · hcreate) (h.joined hf (hsame ▸ hjoined))
  · rw [hgroup] at hrun ⊢
    rw [hf] at hnext
    obtain ⟨hcreate, -, ⟨rfl, -⟩ | ⟨-, hpending, -⟩ | ⟨hset, hpending, -⟩⟩ :=
      actNext_frees hnext (h.started hf)
    · exact .inr (act_join hact)
    · exact .inl hpending
    · rw [(act_running hact).resolve_right fun ⟨r, hr, _⟩ => hset r hr] at hrun
      rw [hpending]
      exact (h.stopped hf hrun).imp_right (act_idle hne hact (absurd · hcreate))

theorem WorkerFits.acts (hc : Checked c) (h : WorkerFits c s n v)
    (hcode : (s.thread (.worker n)).code = act a :: k)
    (hact : (s.goOn (.worker n) k).act c (.worker n) (s.thread (.worker n)).group a = some s') :
    ∃ v', actNext c false v a = some v' ∧ WorkerFits c s' n v' := by
  obtain ⟨v', hnext, hsafe⟩ := safe_act (hcode ▸ h.safe)
  obtain ⟨hcreate, -, hdestroy⟩ := h.next_act hc hnext
  have hrest : (s'.thread (.worker n)).code = k := by
    rw [(act_thread _ hact).resolve_right fun h => hcreate h.1, goOn_code]
  have hmem : ∀ o ∈ (act a :: k).flatMap (objectsOf c.workerObjects), o ∈ c.workerObjects :=
    hcode ▸ h.objects
  refine ⟨v', hnext, hrest ▸ hsafe,
    act_fits h.fits hcode hnext (fun hf => absurd hf Bool.false_ne_true) hact, ?_, fun o ho => ?_,
    fun o ho => ?_, fun _ o ho hlife => ?_⟩
  · rcases actNext_gone hnext with ⟨hsame, -⟩ | ⟨o, ha, -⟩
    · exact hsame.trans h.gone
    · exact absurd ha (hdestroy o)
  · rcases actNext_held hnext ho with ho | rfl
    · exact h.held o ho
    · exact hmem o (mem_objects_act rfl)
  · rw [hrest] at ho
    exact hmem o (mem_objects_of_cons ho)
  · rcases act_life hact hlife with hlife | ⟨o', ha, -⟩
    · exact h.alive (by simp [State.idle, hcode]) o ho hlife
    · exact hdestroy o' ha

/-- The worker that a client creates. -/
theorem ClientFits.created (hc : Checked c) (h : ClientFits c s j f v)
    (hcode : (s.thread (.client j)).code = act .create :: k)
    (hnext : actNext c (c.frees f) v .create = some v')
    (hw : WorkerFits c s (s.thread (.client j)).group w)
    (hact : (s.goOn (.client j) k).act c (.client j) (s.thread (.client j)).group .create =
      some s') : WorkerFits c s' (s.thread (.client j)).group .start := by
  simp only [actNext] at hnext
  split_ifs at hnext with hcreate
  have hholder := hw.holder (h.fits.idle hcreate.2.1).2
  obtain rfl := Option.some.inj hact
  have hcode' : ((s.goOn (.client j) k).setThread (.worker (s.thread (.client j)).group)
      ⟨(s.thread (.client j)).group, none, [c.worker]⟩).thread
        (.worker (s.thread (.client j)).group) =
      ⟨(s.thread (.client j)).group, none, [c.worker]⟩ := setThread_self _
  refine ⟨?_, ⟨fun p hp => absurd hp (hholder p), fun hk => absurd hk List.not_mem_nil,
      fun hi => absurd hi Bool.false_ne_true, fun hs => absurd hs Bool.false_ne_true⟩, rfl,
    fun o ho => absurd ho List.not_mem_nil, fun o ho => ?_, fun _ o ho => ?_⟩
  · rw [hcode']
    exact hc.worker
  · rw [hcode', List.flatMap_singleton] at ho
    exact hc.workerObjects o ho
  · refine h.alive o (h.objects o ?_) ?_
    · rw [hcode, List.flatMap_cons]
      exact List.mem_append_left _ ho
    · rw [h.user (by simpa using hcreate.1)]
      exact List.not_mem_nil

/-! ## A step -/

/-- What a thread does in its function. -/
structure Moves (c : Component O F) (s s' : State N K O F) (t : Tid N K) : Prop where
  frame : Frame c s s' t
  others : ∀ j, .client j ≠ t → s'.thread (.client j) = s.thread (.client j)
  group : ∀ t', (s'.thread t').group = (s.thread t').group
  fn : ∀ j, (s'.thread (.client j)).fn = (s.thread (.client j)).fn
  clients : ∀ j f, .client j ≠ t → (s.thread (.client j)).fn = some f →
    (∀ o, s'.life ((s.thread (.client j)).group, o) = .destroyed →
      s.life ((s.thread (.client j)).group, o) = .destroyed) ∧
    (c.frees f = true →
      (s.idle (s.thread (.client j)).group = true → s'.idle (s.thread (.client j)).group = true) ∧
        s'.running (s.thread (.client j)).group = s.running (s.thread (.client j)).group)
  own : ∀ j, t = .client j → ∃ f v, (s.thread (.client j)).fn = some f ∧ ClientFits c s' j f v
  worker : ∀ n, ∃ v, WorkerFits c s' n v
  stopped : ∀ n, (∀ j f, (s.thread (.client j)).fn = some f →
    (s.thread (.client j)).group = n → c.frees f = false) →
      s'.running n = false → s'.idle n = true

theorem Inv.moves (h : Inv c s) (hm : Moves c s s' t) : Inv c s' := by
  refine ⟨fun n => ?_, fun j f hf => ?_, fun j hj => ?_, hm.worker, fun j f hf hfrees i hij hi => ?_,
    fun n hn => hm.stopped n fun j f hf hgroup => ?_⟩
  · rw [hm.group]
    exact h.group n
  · rw [hm.fn] at hf
    by_cases hj : t = .client j
    · obtain ⟨f', v, hf', hfits⟩ := hm.own j hj
      obtain rfl : f = f' := Option.some.inj (hf.symm.trans hf')
      exact ⟨v, hfits⟩
    · obtain ⟨v, hfits⟩ := h.client j f hf
      obtain ⟨hlife, hfrees⟩ := hm.clients j f (Ne.symm hj) hf
      exact ⟨v, hfits.frame hm.frame (Ne.symm hj) (hm.others j (Ne.symm hj)) hlife hfrees⟩
  · rw [hm.fn] at hj
    have hne : .client j ≠ t := by
      rintro rfl
      obtain ⟨f, -, hf, -⟩ := hm.own j rfl
      rw [hf] at hj
      cases hj
    rw [hm.others j hne]
    obtain ⟨hcode, hholder⟩ := h.away j hj
    exact ⟨hcode, fun p hp => hholder p (hm.frame.held _ hne p hp)⟩
  · rw [hm.group, hm.group]
    rw [hm.fn] at hf hi
    exact h.alone j f hf hfrees i hij hi
  · rw [← hm.group] at hgroup
    rw [← hm.fn] at hf
    exact hn j f hf hgroup

/-- Who holds an object of a group whose objects are freed. -/
theorem Inv.holder_alone (h : Inv c s) (hf : (s.thread (.client j)).fn = some f)
    (hfrees : c.frees f = true) {o : O}
    (hp : s.holder ((s.thread (.client j)).group, o) = some t) :
    t = .client j ∨ t = .worker (s.thread (.client j)).group := by
  cases t with
  | worker n =>
    obtain ⟨v, hfits⟩ := h.worker n
    have hgroup := (hfits.fits.held _ hp).1
    rw [h.group] at hgroup
    exact .inr (congrArg _ hgroup.symm)
  | client i =>
    by_contra hne
    have hij : i ≠ j := fun hij => hne (.inl (congrArg _ hij))
    cases hg : (s.thread (.client i)).fn with
    | none => exact (h.away i hg).2 _ hp
    | some g =>
      obtain ⟨v, hfits⟩ := h.client i g hg
      exact h.apart hij hf hg (.inl hfrees) (hfits.fits.held _ hp).1.symm

theorem Inv.client_act (hc : Checked c) (h : Inv c s) (hf : (s.thread (.client j)).fn = some f)
    (hcode : (s.thread (.client j)).code = act a :: k)
    (hact : (s.goOn (.client j) k).act c (.client j) (s.thread (.client j)).group a = some s') :
    Moves c s s' (.client j) := by
  obtain ⟨v, hfits⟩ := h.client j f hf
  obtain ⟨v', hnext, hfits'⟩ := hfits.acts hcode hact
  have hne : (s.thread (.client j)).code ≠ [] := by simp [hcode]
  have halone : c.frees f = true → ∀ t', t' ≠ .client j →
      s.holder ((s.thread (.client j)).group, c.key) ≠ some t' := by
    intro hfrees t' ht' hp
    rcases h.holder_alone hf hfrees hp with rfl | rfl
    · exact ht' rfl
    · obtain ⟨w, hw⟩ := h.worker (s.thread (.client j)).group
      exact hw.key hc (hw.fits.held _ hp).2
  have hframe := act_frame hfits.fits hcode hnext halone hact
  have hothers : ∀ i, s'.thread (.client i) = (s.goOn (.client j) k).thread (.client i) := fun i =>
    (act_thread _ hact).resolve_right fun h => by cases h.2.1
  have hcreate : a = .create → c.frees f = false ∧ v.started = true := by
    rintro rfl
    simp only [actNext] at hnext
    split_ifs at hnext with hcreate
    exact ⟨by simpa using hcreate.1, hcreate.2.2⟩
  refine ⟨hframe, fun i hi => (hothers i).trans (goOn_of_ne hi), fun t' => ?_, fun i => ?_,
    fun i g hi hg => ⟨fun o hlife => ?_, fun hfrees => ⟨fun hidle => ?_, ?_⟩⟩, fun i hi => ?_,
    fun n => ?_, fun n hn hrun => ?_⟩
  · rcases act_thread t' hact with hthread | ⟨-, rfl, hthread⟩
    · rw [hthread, goOn_group]
    · rw [hthread, h.group]
  · rw [hothers, goOn_fn]
  · rcases act_life hact hlife with hlife | ⟨o', rfl, hp⟩
    · exact hlife
    · rcases actNext_gone hnext with ⟨-, hnot⟩ | ⟨-, -, hfrees, -⟩
      · exact absurd rfl (hnot o')
      · exact absurd (Prod.mk.inj hp).1
          (h.apart (fun hij => hi (congrArg _ hij)) hf hg (.inl hfrees))
  · have hgroup := h.apart (fun hij => hi (congrArg _ hij)) hf hg (.inr hfrees)
    exact act_idle hne hact (fun _ => hgroup) hidle
  · have hgroup := h.apart (fun hij => hi (congrArg _ hij)) hf hg (.inr hfrees)
    rcases act_running hact with hsame | ⟨r, -, hsame⟩
    · rw [hsame]
    · rw [hsame, Function.update_of_ne hgroup]
  · obtain rfl := Tid.client.inj hi
    exact ⟨f, v', hf, hfits'⟩
  · obtain ⟨w, hw⟩ := h.worker n
    rcases act_thread (.worker n) hact with hthread | ⟨rfl, hn, -⟩
    · rw [goOn_of_ne (by simp)] at hthread
      refine ⟨w, hw.frame hframe (by simp) hthread fun hidle o ho hlife => ?_⟩
      rcases act_life hact hlife with hlife | ⟨o', rfl, hp⟩
      · exact hlife
      · obtain ⟨rfl, rfl⟩ := Prod.mk.inj hp
        rcases actNext_gone hnext with ⟨-, hnot⟩ | ⟨o', ha, hfrees, -, -, -, hjoined⟩
        · exact absurd rfl (hnot o)
        · obtain rfl := Act.destroy.inj ha
          rw [hfits.joined hfrees (hjoined ho)] at hidle
          cases hidle
    · obtain rfl := Tid.worker.inj hn
      exact ⟨.start, hfits.created hc hcode hnext hw hact⟩
  · have hsame : s.running n = false := by
      rcases act_running hact with hsame | ⟨r, rfl, hsame⟩
      · rwa [hsame] at hrun
      · by_cases hgroup : n = (s.thread (.client j)).group
        · subst hgroup
          rw [hsame, Function.update_self] at hrun
          rw [hn j f hf rfl, hrun] at hnext
          simp [actNext] at hnext
        · rwa [hsame, Function.update_of_ne hgroup] at hrun
    refine act_idle hne hact (fun ha hgroup => ?_) (h.stopped n hn hsame)
    rw [hgroup, (hfits.fits.started (hcreate ha).2).2] at hsame
    cases hsame

theorem Inv.worker_act (hc : Checked c) (h : Inv c s)
    (hcode : (s.thread (.worker n)).code = act a :: k)
    (hact : (s.goOn (.worker n) k).act c (.worker n) (s.thread (.worker n)).group a = some s') :
    Moves c s s' (.worker n) := by
  obtain ⟨v, hfits⟩ := h.worker n
  obtain ⟨v', hnext, hfits'⟩ := hfits.acts hc hcode hact
  obtain ⟨hcreate, hset, hdestroy⟩ := hfits.next_act hc hnext
  have hne : (s.thread (.worker n)).code ≠ [] := by simp [hcode]
  have hframe := act_frame hfits.fits hcode hnext (fun hf => absurd hf Bool.false_ne_true) hact
  have hthread : ∀ t', s'.thread t' = (s.goOn (.worker n) k).thread t' := fun t' =>
    (act_thread _ hact).resolve_right fun h => hcreate h.1
  have hlife : ∀ p, s'.life p = .destroyed → s.life p = .destroyed := fun p hp =>
    (act_life hact hp).resolve_right fun ⟨o, ha, _⟩ => hdestroy o ha
  have hrunning : s'.running = s.running :=
    (act_running hact).resolve_right fun ⟨r, ha, _⟩ => hset r ha
  have hidle : ∀ m, s.idle m = true → s'.idle m = true := fun m =>
    act_idle hne hact (absurd · hcreate)
  refine ⟨hframe, fun i hi => (hthread _).trans (goOn_of_ne hi), fun t' => ?_, fun i => ?_,
    fun i g _ _ => ⟨fun o => hlife _, fun _ => ⟨hidle _, by rw [hrunning]⟩⟩,
    fun i hi => (by cases hi), fun m => ?_, fun m hm hrun => hidle m (h.stopped m hm ?_)⟩
  · rw [hthread, goOn_group]
  · rw [hthread, goOn_fn]
  · by_cases hm : m = n
    · subst hm
      exact ⟨v', hfits'⟩
    · have hmn : Tid.worker m ≠ (.worker n : Tid N K) := fun hmn => hm (Tid.worker.inj hmn)
      obtain ⟨w, hw⟩ := h.worker m
      exact ⟨w, hw.frame hframe hmn ((hthread _).trans (goOn_of_ne hmn)) fun _ o _ => hlife _⟩
  · rwa [hrunning] at hrun

/-! ## Steps that are no operations -/

theorem ClientFits.flows (h : ClientFits c s j f v) (hcode : (s.thread (.client j)).code = st :: k)
    (hst : ∀ o, st ≠ .op o) (hb : avoids (st :: k) = true → b = false)
    (hidle : c.frees f = false → (∃ a d, st = .test .running a d) → b = false →
      s.idle (s.thread (.client j)).group = true) :
    ∃ v', ClientFits c (s.goOn (.client j) (flow Empty.elim b st k)) j f v' := by
  obtain ⟨v', hsafe, hv'⟩ := safe_flow (hcode ▸ h.safe) hst hb
  have hne : (s.thread (.client j)).code ≠ [] := by simp [hcode]
  have hfits : Fits c s (.client j) v' ∧ v'.gone = v.gone ∧ v'.started = v.started ∧
      v'.joined = v.joined ∧ v'.pending = v.pending := by
    rcases hv' with rfl | ⟨rfl, ⟨hfrees, hkey⟩, htest, hb⟩
    · exact ⟨h.fits, rfl, rfl, rfl, rfl⟩
    · exact ⟨h.fits.learn hkey (hidle hfrees htest hb), rfl, rfl, rfl, rfl⟩
  obtain ⟨hfits, hgone, hstarted, hjoined, hpending⟩ := hfits
  refine ⟨v', ?_, hfits.goOn hne, fun o ho => ?_, fun o ho hnot => ?_, fun hf => ?_, fun hf => ?_,
    fun hf hj => ?_, fun hf hrun => ?_⟩
  · rw [goOn_code]
    exact hsafe
  · rw [goOn_code] at ho
    exact h.objects o (hcode ▸ mem_flow hb ho)
  · rw [goOn_group]
    exact h.alive o ho (hgone ▸ hnot)
  · rw [hgone, h.user hf]
  · rw [hstarted, h.started hf]
  · rw [goOn_group]
    exact idle_goOn hne (h.joined hf (hjoined ▸ hj))
  · rw [goOn_group] at hrun ⊢
    rw [hpending]
    exact (h.stopped hf hrun).imp_right (idle_goOn hne)

theorem WorkerFits.flows (hc : Checked c) (h : WorkerFits c s n v)
    (hcode : (s.thread (.worker n)).code = st :: k) (hst : ∀ o, st ≠ .op o)
    (hb : avoids (st :: k) = true → b = false) :
    WorkerFits c (s.goOn (.worker n) (flow Empty.elim b st k)) n v := by
  obtain ⟨v', hsafe, hv'⟩ := safe_flow (hcode ▸ h.safe) hst hb
  obtain rfl : v' = v := hv'.resolve_right fun hkey => h.key hc hkey.2.1.2
  have hne : (s.thread (.worker n)).code ≠ [] := by simp [hcode]
  refine ⟨?_, h.fits.goOn hne, h.gone, h.held, fun o ho => ?_, fun _ => ?_⟩
  · rw [goOn_code]
    exact hsafe
  · rw [goOn_code] at ho
    exact h.objects o (hcode ▸ mem_flow hb ho)
  · exact h.alive (by simp [State.idle, hcode])

theorem Inv.flows (hc : Checked c) (h : Inv c s) (hcode : (s.thread t).code = st :: k)
    (hst : ∀ o, st ≠ .op o) (hb : avoids (st :: k) = true → b = false)
    (htested : s.tested (s.thread t).group b st = true) :
    Moves c s (s.goOn t (flow Empty.elim b st k)) t := by
  have hne : (s.thread t).code ≠ [] := by simp [hcode]
  refine ⟨goOn_frame hne, fun i hi => goOn_of_ne hi, fun t' => goOn_group, fun i => goOn_fn,
    fun i g _ _ => ⟨fun _ h => h, fun _ => ⟨idle_goOn hne, rfl⟩⟩, fun j hj => ?_, fun n => ?_,
    fun n hn hrun => idle_goOn hne (h.stopped n hn hrun)⟩
  · subst hj
    cases hf : (s.thread (.client j)).fn with
    | none => exact absurd (h.away j hf).1 hne
    | some f =>
      obtain ⟨v, hfits⟩ := h.client j f hf
      obtain ⟨v', hfits'⟩ := hfits.flows hcode hst hb fun hfrees ⟨a, d, hrunning⟩ hfalse => by
        refine h.stopped _ (fun i g hg hgroup => ?_) ?_
        · by_cases hij : i = j
          · subst hij
            obtain rfl : f = g := Option.some.inj (hf.symm.trans hg)
            exact hfrees
          · by_contra hgfrees
            exact h.apart hij hf hg (.inr (by simpa using hgfrees)) hgroup
        · subst hrunning hfalse
          simpa [State.tested] using htested
      exact ⟨f, v', rfl, hfits'⟩
  · obtain ⟨v, hfits⟩ := h.worker n
    by_cases ht : t = .worker n
    · subst ht
      exact ⟨v, hfits.flows hc hcode hst hb⟩
    · exact ⟨v, hfits.frame (goOn_frame hne) (Ne.symm ht) (goOn_of_ne (Ne.symm ht)) fun _ _ _ h => h⟩

/-! ## Calls -/

theorem Inv.call (hc : Checked c) (h : Inv c s) (hnone : (s.thread (.client j)).fn = none)
    (hguard : Guarded c s (.call j n f)) :
    Inv c (s.setThread (.client j) ⟨n, some f, [c.code f]⟩) := by
  obtain ⟨halive, halone⟩ := hguard
  obtain ⟨-, hholder⟩ := h.away j hnone
  have hself : (s.setThread (.client j) ⟨n, some f, [c.code f]⟩).thread (.client j) =
      ⟨n, some f, [c.code f]⟩ := setThread_self _
  have hother : ∀ t, t ≠ .client j →
      (s.setThread (.client j) ⟨n, some f, [c.code f]⟩).thread t = s.thread t :=
    fun t ht => setThread_of_ne _ ht
  have hframe : Frame c s (s.setThread (.client j) ⟨n, some f, [c.code f]⟩) (.client j) :=
    ⟨fun _ _ _ h => h, fun _ _ _ h => h,
      fun _ _ m _ hm => by rwa [State.idle, hother _ (by simp)], fun _ _ _ _ h => h⟩
  refine ⟨fun m => ?_, fun i g hg => ?_, fun i hi => ?_, fun m => ?_,
    fun i g hg hfrees i' hi' hfn hgroup => ?_, fun m hm hrun => ?_⟩
  · rw [hother _ (by simp)]
    exact h.group m
  · by_cases hij : i = j
    · subst hij
      rw [hself] at hg
      obtain rfl := Option.some.inj hg
      refine ⟨.start, ?_, ⟨fun p hp => absurd hp (hholder p), fun hk => absurd hk List.not_mem_nil,
          fun hi => absurd hi Bool.false_ne_true, fun hs => absurd hs Bool.false_ne_true⟩,
        fun o ho => ?_, fun o ho _ => ?_, fun _ => rfl, fun _ => rfl,
        fun _ hjoined => absurd hjoined Bool.false_ne_true, fun hfrees hrun => .inr ?_⟩
      · rw [hself]
        exact hc.fn f
      · rw [hself, List.flatMap_singleton] at ho
        exact ho
      · rw [hself]
        exact halive o ho
      · rw [hself] at hrun ⊢
        rw [State.idle, hother _ (by simp)]
        refine h.stopped n (fun k g hg hgroup => ?_) hrun
        exact (halone k g hg hgroup).2
    · have hne : Tid.client i ≠ (.client j : Tid N K) := fun hne => hij (Tid.client.inj hne)
      rw [hother _ hne] at hg
      obtain ⟨v, hfits⟩ := h.client i g hg
      exact ⟨v, hfits.frame hframe hne (hother _ hne) (fun _ h => h) fun _ =>
        ⟨fun hidle => by rwa [State.idle, hother _ (by simp)], rfl⟩⟩
  · have hne : Tid.client i ≠ (.client j : Tid N K) := by
      intro hne
      rw [hne, hself] at hi
      cases hi
    rw [hother _ hne] at hi ⊢
    exact h.away i hi
  · obtain ⟨v, hfits⟩ := h.worker m
    exact ⟨v, hfits.frame hframe (by simp) (hother _ (by simp)) fun _ _ _ h => h⟩
  · have hne : ∀ i, i ≠ j → Tid.client i ≠ (.client j : Tid N K) := fun i hij hne =>
      hij (Tid.client.inj hne)
    by_cases hij : i = j
    · subst hij
      rw [hself] at hg hgroup
      rw [hother _ (hne i' hi')] at hfn hgroup
      obtain ⟨g', hg'⟩ := Option.ne_none_iff_exists'.1 hfn
      obtain rfl := Option.some.inj hg
      rw [(halone i' g' hg' hgroup).1] at hfrees
      cases hfrees
    · rw [hother _ (hne i hij)] at hg hgroup
      by_cases hi'j : i' = j
      · subst hi'j
        rw [hself] at hgroup
        rw [(halone i g hg hgroup.symm).2] at hfrees
        cases hfrees
      · rw [hother _ (hne i' hi'j)] at hfn hgroup
        exact h.alone i g hg hfrees i' hi' hfn hgroup
  · rw [State.idle, hother _ (by simp)]
    refine h.stopped m (fun i g hg hgroup => ?_) hrun
    have hne : Tid.client i ≠ (.client j : Tid N K) := by
      intro hne
      rw [hne, hnone] at hg
      cases hg
    exact hm i g (by rw [hother _ hne, hg]) (by rw [hother _ hne, hgroup])

theorem Inv.leave (h : Inv c s) (hf : (s.thread (.client j)).fn = some f)
    (hcode : (s.thread (.client j)).code = []) :
    Inv c (s.setThread (.client j) { s.thread (.client j) with fn := none }) := by
  obtain ⟨v, hfits⟩ := h.client j f hf
  obtain ⟨hheld, hpending⟩ := safe_ended (hcode ▸ hfits.safe)
  have hself : (s.setThread (.client j) { s.thread (.client j) with fn := none }).thread
      (.client j) = { s.thread (.client j) with fn := none } := setThread_self _
  have hother : ∀ t, t ≠ .client j →
      (s.setThread (.client j) { s.thread (.client j) with fn := none }).thread t = s.thread t :=
    fun t ht => setThread_of_ne _ ht
  have hframe : Frame c s (s.setThread (.client j) { s.thread (.client j) with fn := none })
      (.client j) :=
    ⟨fun _ _ _ h => h, fun _ _ _ h => h,
      fun _ _ m _ hm => by rwa [State.idle, hother _ (by simp)], fun _ _ _ _ h => h⟩
  have hin : ∀ i g, ((s.setThread (.client j) { s.thread (.client j) with fn := none }).thread
      (.client i)).fn = some g → Tid.client i ≠ (.client j : Tid N K) := by
    rintro i g hg hne
    rw [hne, hself] at hg
    cases hg
  refine ⟨fun m => ?_, fun i g hg => ?_, fun i hi => ?_, fun m => ?_,
    fun i g hg hfrees i' hi' hfn => ?_, fun m hm hrun => ?_⟩
  · rw [hother _ (by simp)]
    exact h.group m
  · have hne := hin i g hg
    rw [hother _ hne] at hg
    obtain ⟨v, hfits⟩ := h.client i g hg
    exact ⟨v, hfits.frame hframe hne (hother _ hne) (fun _ h => h) fun _ =>
      ⟨fun hidle => by rwa [State.idle, hother _ (by simp)], rfl⟩⟩
  · by_cases hij : i = j
    · subst hij
      rw [hself]
      refine ⟨hcode, fun p hp => ?_⟩
      have hmem := (hfits.fits.held p hp).2
      rw [hheld] at hmem
      cases hmem
    · have hne : Tid.client i ≠ (.client j : Tid N K) := fun hne => hij (Tid.client.inj hne)
      rw [hother _ hne] at hi ⊢
      exact h.away i hi
  · obtain ⟨v, hfits⟩ := h.worker m
    exact ⟨v, hfits.frame hframe (by simp) (hother _ (by simp)) fun _ _ _ h => h⟩
  · obtain ⟨g', hg'⟩ := Option.ne_none_iff_exists'.1 hfn
    have hne' := hin i' g' hg'
    have hne := hin i g hg
    rw [hother _ hne] at hg ⊢
    rw [hother _ hne'] at hfn ⊢
    exact h.alone i g hg hfrees i' hi' hfn
  · rw [State.idle, hother _ (by simp)]
    by_cases hthis : (s.thread (.client j)).group = m ∧ c.frees f = true
    · obtain ⟨rfl, hfrees⟩ := hthis
      exact (hfits.stopped hfrees hrun).resolve_left (by simp [hpending])
    · refine h.stopped m (fun i g hg hgroup => ?_) hrun
      by_cases hij : i = j
      · subst hij
        obtain rfl : f = g := Option.some.inj (hf.symm.trans hg)
        simpa [hgroup] using hthis
      · have hne : Tid.client i ≠ (.client j : Tid N K) := fun hne => hij (Tid.client.inj hne)
        exact hm i g (by rw [hother _ hne, hg]) (by rw [hother _ hne, hgroup])

/-! ## Runs -/

/-- **A step.** -/
theorem Inv.step (hc : Checked c) (h : Inv c s) {x : Action N K F} (hguard : Guarded c s x)
    (hstep : Lifecycle.step c s x = some s') : Inv c s' := by
  cases x with
  | call j n f =>
    simp only [Lifecycle.step] at hstep
    split_ifs at hstep with hnone
    obtain rfl := Option.some.inj hstep
    exact h.call hc hnone hguard
  | leave j =>
    simp only [Lifecycle.step] at hstep
    split_ifs at hstep with hend
    obtain rfl := Option.some.inj hstep
    obtain ⟨f, hf⟩ := Option.ne_none_iff_exists'.1 hend.1
    exact h.leave hf (List.isEmpty_iff.1 hend.2)
  | go t b =>
    obtain ⟨st, k, hcode, ⟨a, rfl, hact⟩ | ⟨hst, htested, rfl⟩⟩ := step_go hstep
    · cases t with
      | worker n => exact h.moves (h.worker_act hc hcode hact)
      | client j =>
        obtain ⟨f, hf⟩ := h.client_in hcode
        exact h.moves (h.client_act hc hf hcode hact)
    · exact h.moves (h.flows hc hcode hst (fun hb => hguard (by rwa [hcode])) htested)

/-- What is destroyed is neither held nor waited for. -/
theorem Inv.destroy (h : Inv c s) (hf : (s.thread (.client j)).fn = some f) {o : O}
    (hcode : (s.thread (.client j)).code = act (.destroy o) :: k) :
    s.holder ((s.thread (.client j)).group, o) = none ∧
      ∀ t, t ≠ .client j → ¬ At s t (s.thread (.client j)).group o := by
  obtain ⟨v, hfits⟩ := h.client j f hf
  obtain ⟨v', hnext, -⟩ := safe_act (hcode ▸ hfits.safe)
  obtain ⟨-, hnot⟩ | ⟨o', ha, hfrees, -, hheld, hgone, hjoined⟩ := actNext_gone hnext
  · exact absurd rfl (hnot o)
  obtain rfl := Act.destroy.inj ha
  obtain ⟨w, hw⟩ := h.worker (s.thread (.client j)).group
  constructor
  · refine Option.eq_none_iff_forall_ne_some.2 fun t hp => ?_
    rcases h.holder_alone hf hfrees hp with rfl | rfl
    · exact hheld (hfits.fits.held _ hp).2
    · have hidle := hfits.joined hfrees (hjoined (hw.held _ (hw.fits.held _ hp).2))
      exact hw.holder hidle _ hp
  · rintro t hne ⟨hgroup, a, k', hat, ho⟩
    cases t with
    | client i =>
      obtain ⟨g, hg⟩ := h.client_in hat
      exact h.apart (fun hij => hne (congrArg _ hij)) hf hg (.inl hfrees) hgroup
    | worker n =>
      rw [h.group] at hgroup
      subst hgroup
      have hidle := hfits.joined hfrees (hjoined (hw.objects o (hat ▸ mem_objects_act ho)))
      rw [State.idle, hat] at hidle
      cases hidle

theorem Inv.sound (hc : Checked c) (h : Inv c s) (x : Action N K F) : Sound s x := by
  cases x with
  | call j n f => trivial
  | leave j => trivial
  | go t b =>
    intro a k hcode
    have hlife : ∀ o, a.object = some o → s.life ((s.thread t).group, o) ≠ .destroyed := by
      intro o ho
      cases t with
      | worker n =>
        obtain ⟨w, hw⟩ := h.worker n
        rw [h.group]
        exact hw.actSound hcode ho
      | client j =>
        obtain ⟨f, hf⟩ := h.client_in hcode
        obtain ⟨v, hfits⟩ := h.client j f hf
        exact hfits.actSound hcode ho
    cases a with
    | lock o => exact hlife o rfl
    | unlock o => exact hlife o rfl
    | use o => exact hlife o rfl
    | destroy o =>
      cases t with
      | worker n =>
        obtain ⟨w, hw⟩ := h.worker n
        obtain ⟨v', hnext, -⟩ := safe_act (hcode ▸ hw.safe)
        exact absurd rfl ((hw.next_act hc hnext).2.2 o)
      | client j =>
        obtain ⟨f, hf⟩ := h.client_in hcode
        exact ⟨hlife o rfl, h.destroy hf hcode⟩
    | _ => trivial

/-- **Runs that keep to what is asked of them.** -/
theorem sound_of_guarded (hc : Checked c) (hstart : Start c s) {xs : List (Action N K F)}
    (hguard : Runs.RunOk (step c) (Guarded c) s xs) : Runs.RunOk (step c) Sound s xs :=
  hguard.imp_of_inv (fun _ _ _ hinv hok hstep => hinv.step hc hok hstep)
    (fun _ x hinv _ => hinv.sound hc x) (hstart.inv hc)

end

end Lifecycle
