import LibEthercat.Mbx.Setup

/-!
# The mailbox buffers are conserved

The programs of `Mbx.Programs` are checked one by one, so that, in all runs, every thread is at a
place in a program that keeps to the rules (`Inv`).

**Theorem (`conserved_run`).** No buffer is lost, put back twice or used when it has been put back,
provided that nothing is queued for a slave when its queues are closed, `ec_soe_read` gets no message,
and `ec_foe_read` no buffer for an acknowledgement (`StepOk`). A request that is queued when
`ec_mbx_deinit` is called is lost (`queued_not_returned`).
-/

namespace LibEthercat.Mbx.Buffers

open Function (update)
open Handoff
open Places

/-! ## Rules -/

/-- Only the handler takes EoE fragments. What is denied is what `StepOk` excludes. -/
def rules (handler : Bool) (fn : Option Fn) : Rules Queue Var Cond Effect Dir where
  sort := Queue.dir
  takes q := handler || q ≠ .eoe
  mine q := handler && q = .eoe
  needs q := q.protocol.map .supports
  stable
    | .supports _ => true
    | _ => false
  denied q p := fn = some .soeRead && q = .soe || fn = some .foeRead && q = .sendFree && p .recv
  denied_mono q p p' h := by
    simp only [Bool.or_eq_true, Bool.and_eq_true, decide_eq_true_eq]
    rintro (hq | ⟨hq, hp⟩)
    · exact Or.inl hq
    · exact Or.inr ⟨hq, h _ hp⟩
  allows _ := fn = some .mbxInit || fn = some .mbxDeinit

set_option maxRecDepth 20000 in
theorem check_code (f : Fn) : (rules false (some f)).check 3000 f.code = true := by
  cases f <;> decide +kernel

set_option maxRecDepth 20000 in
theorem check_mbxHandler : (rules true none).check 3000 mbxHandler = true := by decide +kernel

/-! ## The invariant -/

section
variable (supports : ℕ → Queue → Bool) (cnt : ℕ)

structure Stored (content : Place → List Buf) : Prop where
  placed : Placed (fun b : Buf => b.idx < cnt) content
  dir : ∀ n q, ∀ b ∈ content (place n q), b.dir = q.dir
  unsupported : ∀ n q p, q.protocol = some p → supports n p = false → content (place n q) = []

structure Inv (s : State) : Prop where
  stored : Stored supports cnt s.content
  fine : ∀ t, Fine (rules t.isHandler (s.thread t).fn) (env supports t (s.thread t).slave) Buf.dir
    s.content (s.thread t).code (s.thread t).vars
  client : ∀ k, (s.thread (.client k)).fn = none → (s.thread (.client k)).code = []
  transitions : Transitions s

end

section
variable {supports : ℕ → Queue → Bool} {cnt : ℕ} {s s' : State} {t t' : Tid} {b : Bool}
  {content content' : Place → List Buf} {code k : List Code} {vars : Var → Option Buf} {n c : ℕ}
  {fn : Option Fn}

theorem Stored.moved (h : Stored supports cnt content)
    (hmoved : Moved (rules t.isHandler fn) (env supports t n) Buf.dir content content') :
    Stored supports cnt content' := by
  refine ⟨hmoved.placed h.placed, fun n' q b hb => ?_, fun n' q p hq hp => ?_⟩
  · rcases hmoved.added h.placed (place_ne_hand n' q t) hb with hb | ⟨q', hplace, hdir, -⟩
    · exact h.dir n' q b hb
    · rw [place_inj hplace]
      exact hdir
  · rw [List.eq_nil_iff_forall_not_mem]
    intro b hb
    rcases hmoved.added h.placed (place_ne_hand n' q t) hb with hb | ⟨q', hplace, -, hneeds⟩
    · rw [h.unsupported n' q p hq hp] at hb
      cases hb
    · obtain rfl := place_inj hplace
      obtain rfl : n' = n := slave_of_place (by simp [hq]) hplace
      obtain ⟨p', hp', hsupports⟩ := hneeds (.supports p) (by simp [rules, hq])
      cases hp'
      rw [hp] at hsupports
      cases hsupports

/-- The other threads are not disturbed. -/
theorem fine_frame (hplaced : Placed (fun b : Buf => b.idx < cnt) content)
    (hmoved : Moved (rules t.isHandler fn) (env supports t n) Buf.dir content content')
    (hn : ∀ m, t = .handler m → n = m) {n' : ℕ} {fn' : Option Fn}
    (hn' : ∀ m, t' = .handler m → n' = m) (hne : t' ≠ t)
    (h : Fine (rules t'.isHandler fn') (env supports t' n') Buf.dir content code vars) :
    Fine (rules t'.isHandler fn') (env supports t' n') Buf.dir content' code vars := by
  apply h.frame
  · exact hmoved.other (by simpa [env] using hne) fun q => place_ne_hand n q t'
  · intro q hq r hr
    refine hmoved.kept hplaced (place_ne_hand n' q t) (fun q' htakes heq => ?_) hr
    obtain rfl := place_inj heq
    simp only [rules, Bool.and_eq_true, decide_eq_true_eq] at hq
    obtain ⟨hhandler', rfl⟩ := hq
    have hhandler : t.isHandler = true := by simpa [rules] using htakes
    have hslave : n = n' := slave_of_place (q := .eoe) (by simp [Queue.protocol]) heq
    cases t with
    | client k => cases hhandler
    | handler m =>
      cases t' with
      | client k => cases hhandler'
      | handler m' =>
        obtain rfl := hn m rfl
        obtain rfl := hn' m' rfl
        exact hne (by rw [hslave])

theorem Transitions.slave (h : Transitions s) : ∀ m, t = .handler m → (s.thread t).slave = m := by
  rintro m rfl
  exact (h.handler m).1

/-- A client that has something to do has called something. -/
theorem Inv.client_go (h : Inv supports cnt s) (hcode : (s.thread t).code ≠ []) (c : ℕ) :
    ((s.setThread t { s.thread t with code := code, vars := vars }).thread (.client c)).fn = none →
      ((s.setThread t { s.thread t with code := code, vars := vars }).thread (.client c)).code =
        [] := by
  intro hc
  rw [setThread_fn] at hc
  have hne : Tid.client c ≠ t := by
    intro heq
    exact hcode (heq ▸ h.client c hc)
  rw [State.setThread_of_ne _ _ hne]
  exact h.client c hc

/-- A buffer is taken, handed on or used. -/
theorem Inv.op (h : Inv supports cnt s) {o : Op Queue Var Effect}
    (hcode : (s.thread t).code = .op o :: k) (ho : ∀ e, o ≠ .other e)
    (hok : StepOk supports s (.run t b))
    (hexec : exec (env supports t (s.thread t).slave) b s.content (s.thread t).vars o =
      some (content, vars)) :
    Inv supports cnt
      { s.setThread t { s.thread t with code := k, vars := vars } with content := content } := by
  have hdenied : ∀ q x w, o = .get q x w → b = true →
      (rules t.isHandler (s.thread t).fn).denied q
        (has (env supports t (s.thread t).slave) s.content (s.thread t).vars) = false := by
    rintro q x w rfl rfl
    have hget := hok.2 rfl q (by simp [hcode, gets])
    simpa [rules] using hget
  obtain ⟨hmoved, hfine⟩ := Fine.op (hcode ▸ h.fine t) h.stored.placed
    (fun q r hr => h.stored.dir _ q r hr) hdenied hexec
  refine ⟨h.stored.moved hmoved, fun t' => ?_, h.client_go (by simp [hcode]), ?_⟩
  · by_cases ht : t' = t
    · subst ht
      simpa using hfine
    · simp only [State.setThread_of_ne _ _ ht]
      exact fine_frame h.stored.placed hmoved h.transitions.slave h.transitions.slave ht
        (h.fine t')
  · refine h.transitions.go (by simp [hcode]) fun idle hsafe => ?_
    rw [hcode] at hsafe
    exact setup_op hsafe ho

theorem Inv.flow (h : Inv supports cnt s) {st : Code} (hcode : (s.thread t).code = st :: k)
    (hst : ∀ o, st ≠ .op o)
    (htest : ∀ c a d, st = .test c a d → s.tested supports (s.thread t).slave b c = true) :
    Inv supports cnt (s.setThread t { s.thread t with
      code := flow (fun x => ((s.thread t).vars x).isNone) b st k }) := by
  have hfine := Fine.flow (b := b) (hcode ▸ h.fine t) hst fun c a d heq hb hstable => by
    have htested := htest c a d heq
    cases c with
    | supports q =>
      subst hb
      exact ⟨q, rfl, (beq_iff_eq.1 htested).symm⟩
    | data | running => simp [rules] at hstable
  refine ⟨h.stored, fun t' => ?_, h.client_go (by simp [hcode]), ?_⟩
  · by_cases ht : t' = t
    · subst ht
      simpa using hfine
    · simp only [State.setThread_of_ne _ _ ht]
      exact h.fine t'
  · refine h.transitions.go (by simp [hcode]) fun idle hsafe => ?_
    rw [hcode] at hsafe
    refine setup_flow hsafe hst fun a d heq => ?_
    simpa [State.tested] using htest _ a d heq

theorem Inv.effect (h : Inv supports cnt s) {e : Effect}
    (hcode : (s.thread t).code = .op (.other e) :: k) (hok : StepOk supports s (.run t b))
    (heff : (s.setThread t { s.thread t with code := k }).effect (s.thread t).slave e = some s') :
    Inv supports cnt s' := by
  obtain ⟨hallows, hgo⟩ := Fine.other (hcode ▸ h.fine t)
  have hfn : ∃ f, (s.thread t).fn = some f ∧ f.transition = true := by
    rcases Bool.or_eq_true_iff.1 hallows with hf | hf
    · exact ⟨.mbxInit, of_decide_eq_true hf, rfl⟩
    · exact ⟨.mbxDeinit, of_decide_eq_true hf, rfl⟩
  obtain ⟨f, hf, htr⟩ := hfn
  cases t with
  | handler n =>
    rw [(h.transitions.handler n).2] at hf
    cases hf
  | client c =>
    have htransitions := h.transitions.effect hcode hf htr heff
    have hfine : ∀ t', Fine (rules t'.isHandler (s.thread t').fn)
        (env supports t' (s.thread t').slave) Buf.dir s.content
        ((s.setThread (.client c) { s.thread (.client c) with code := k }).thread t').code
        ((s.setThread (.client c) { s.thread (.client c) with code := k }).thread t').vars := by
      intro t'
      by_cases ht : t' = .client c
      · subst ht
        simpa using hgo
      · rw [State.setThread_of_ne _ _ ht]
        exact h.fine t'
    have hclient : ∀ c', (s.thread (.client c')).fn = none →
        ((s.setThread (.client c) { s.thread (.client c) with code := k }).thread
          (.client c')).code = [] := by
      intro c' hc'
      have hne : Tid.client c' ≠ .client c := by
        intro heq
        rw [heq, hf] at hc'
        cases hc'
      rw [State.setThread_of_ne _ _ hne]
      exact h.client c' hc'
    cases e with
    | setRunning running =>
      obtain rfl := Option.some.inj heff
      exact ⟨h.stored, by simpa using hfine, by simpa using hclient, htransitions⟩
    | create =>
      obtain rfl := Option.some.inj heff
      obtain ⟨-, -, hsafe⟩ := h.transitions.setup _ c (h.transitions.owner c f hf htr)
      rw [hcode] at hsafe
      have hended := List.isEmpty_iff.1 (setup_create hsafe)
      refine ⟨h.stored, fun t' => ?_, fun c' hc' => ?_, htransitions⟩
      · by_cases ht : t' = .handler (s.thread (.client c)).slave
        · subst ht
          have hself := Fine.ended (hended ▸ h.fine (.handler (s.thread (.client c)).slave))
          simpa [Tid.isHandler, (h.transitions.handler _).2] using
            Fine.start hself (Rules.safe_of_check check_mbxHandler)
        · rw [State.setThread_of_ne _ _ ht]
          simpa using hfine t'
      · rw [State.setThread_of_ne _ _ (by simp)] at hc' ⊢
        exact hclient c' (by simpa using hc')
    | join =>
      simp only [State.effect] at heff
      split_ifs at heff
      obtain rfl := Option.some.inj heff
      exact ⟨h.stored, by simpa using hfine, by simpa using hclient, htransitions⟩
    | poolOpen q | poolClose q =>
      have hcontent : update s.content (place (s.thread (.client c)).slave q) [] = s.content :=
        Function.update_eq_self_iff.2 (hok.1 q (by simp [hcode, resets])).symm
      simp only [State.effect, State.setThread_content, hcontent] at heff
      obtain rfl := Option.some.inj heff
      exact ⟨h.stored, by simpa using hfine, by simpa using hclient, htransitions⟩

/-! ## Runs -/

theorem Inv.call (h : Inv supports cnt s) {f : Fn}
    (hstep : step supports s (.call c n f) = some s') : Inv supports cnt s' := by
  have htransitions := h.transitions.call hstep
  simp only [step] at hstep
  split_ifs at hstep with hguard
  all_goals
    obtain rfl := Option.some.inj hstep
    refine ⟨h.stored, fun t' => ?_, fun c' hc' => ?_, htransitions⟩
    · by_cases ht : t' = .client c
      · subst ht
        have hself := Fine.ended (h.client c hguard.1 ▸ h.fine (.client c))
        simp only [State.setThread_self]
        exact Fine.start hself (Rules.safe_of_check (check_code f))
      · simpa [ht] using h.fine t'
    · by_cases hc : c' = c
      · subst hc
        simp at hc'
      · simpa [hc] using h.client c' (by simpa [hc] using hc')

theorem Inv.leave (h : Inv supports cnt s) (hstep : step supports s (.leave c) = some s') :
    Inv supports cnt s' := by
  have htransitions := h.transitions.leave hstep
  simp only [step] at hstep
  cases hf : (s.thread (.client c)).fn with
  | none => simp [hf] at hstep
  | some f =>
    simp only [hf] at hstep
    split_ifs at hstep with hempty
    all_goals
      have hcode := List.isEmpty_iff.1 hempty
      obtain rfl := Option.some.inj hstep
      refine ⟨h.stored, fun t' => ?_, fun c' hc' => ?_, htransitions⟩
      · by_cases ht : t' = .client c
        · subst ht
          have hself := Fine.ended (hcode ▸ h.fine (.client c))
          simpa [hcode] using Fine.nil hself
        · simpa [ht] using h.fine t'
      · by_cases hc : c' = c
        · subst hc
          simpa using hcode
        · simpa [hc] using h.client c' (by simpa [hc] using hc')

theorem Inv.step {a : Action} (h : Inv supports cnt s) (hok : StepOk supports s a)
    (hstep : step supports s a = some s') : Inv supports cnt s' := by
  cases a with
  | call c n f => exact h.call hstep
  | leave c => exact h.leave hstep
  | run t b =>
    rcases run_cases hstep with ⟨e, k, hcode, heff⟩ | ⟨o, k, content, vars, hcode, ho, hexec, rfl⟩ |
      ⟨st, k, hcode, hst, htest, rfl⟩
    · exact h.effect hcode hok heff
    · exact h.op hcode ho hok hexec
    · exact h.flow hcode hst htest

/-- At the start all buffers are free. -/
theorem mem_init {buf : Buf} {l : Place} :
    buf ∈ (init cnt).content l ↔ buf.idx < cnt ∧ l = buf.free := by
  obtain ⟨dir, idx⟩ := buf
  cases l with
  | hand t => simp [init, Buf.free]
  | pool slave q =>
    cases slave with
    | some n => simp [init, Buf.free]
    | none => cases q <;> cases dir <;> simp [init, Buf.free]

theorem inv_init : Inv supports cnt (init cnt) := by
  refine ⟨⟨⟨fun l => ?_, fun buf hbuf => ?_, fun l buf hbuf => ?_, fun l l' buf hl hl' => ?_⟩,
    fun n q buf hbuf => ?_, fun n q p hq hp => ?_⟩, fun t => ?_, fun c hc => rfl, ?_⟩
  · have hinj : ∀ dir, ((List.range cnt).map (Buf.mk dir)).Nodup := fun dir =>
      List.nodup_range.map fun i j hij => (Buf.mk.inj hij).2
    cases l with
    | hand t => exact List.nodup_nil
    | pool slave q => cases slave <;> cases q <;> first | exact hinj _ | exact List.nodup_nil
  · exact ⟨buf.free, mem_init.2 ⟨hbuf, rfl⟩⟩
  · exact (mem_init.1 hbuf).1
  · exact (mem_init.1 hl).2.trans (mem_init.1 hl').2.symm
  · obtain ⟨-, hfree⟩ := mem_init.1 hbuf
    obtain ⟨dir, idx⟩ := buf
    cases q <;> cases dir <;> first | rfl | cases hfree
  · cases q <;> first | rfl | cases hq
  · cases t <;> exact Fine.nil rfl
  · refine ⟨fun n => ⟨rfl, rfl⟩, fun k f hf => ?_, fun n _ => rfl, fun n k hk => ?_⟩
    · cases hf
    · cases hk

theorem conserved_of_inv (h : Inv supports cnt s) : Conserved supports cnt s where
  unique _ hb := h.stored.placed.existsUnique hb
  nodup := h.stored.placed.nodup
  dir := h.stored.dir
  puts t q x head k b hcode hb := Fine.puts (hcode ▸ h.fine t) hb
  uses t x k b hcode hb := by
    rcases Fine.uses (hcode ▸ h.fine t) hb with hself | ⟨q, hmine, hqueue⟩
    · exact Or.inl hself
    · simp only [rules, Bool.and_eq_true, decide_eq_true_eq] at hmine
      obtain ⟨hhandler, rfl⟩ := hmine
      exact Or.inr ⟨(s.thread t).slave, by
        cases t with
        | client c => cases hhandler
        | handler n => rw [(h.transitions.handler n).1], hqueue⟩
  ended t hcode := Fine.ended (hcode ▸ h.fine t)
  unsupported := h.stored.unsupported

/-- When a queue is closed, nothing is in it. -/
theorem returned_of_ok {a : Action} (hok : StepOk supports s a) : Returned s a s' := by
  rintro t b q k buf rfl hcode hbuf
  rw [hok.1 q (by simp [hcode, resets])] at hbuf
  cases hbuf

/-- What is in a queue that is closed does not get back into the free pools. -/
theorem not_returned {q : Queue} (h : Inv supports cnt s)
    (hcode : (s.thread t).code = .op (.other (.poolClose q)) :: k)
    (hqueue : s.content (place (s.thread t).slave q) ≠ [])
    (hstep : step supports s (.run t b) = some s') : ¬ Returned s (.run t b) s' := by
  intro hreturned
  obtain ⟨buf, hbuf⟩ := List.exists_mem_of_ne_nil _ hqueue
  simp only [step, hcode, State.effect] at hstep
  obtain rfl := Option.some.inj hstep
  have hmem : buf ∈ update s.content (place (s.thread t).slave q) [] buf.free :=
    hreturned t b q k buf rfl hcode hbuf
  by_cases heq : buf.free = place (s.thread t).slave q
  · rw [heq, Function.update_self] at hmem
    cases hmem
  · rw [Function.update_of_ne heq] at hmem
    exact heq (h.stored.placed.alone _ _ buf hmem hbuf)

/-- **Mailbox buffers are conserved** in every run whose steps meet the condition, and what is queued
when `ec_mbx_deinit` closes the queues is back in the free pools. -/
theorem conserved_run {acts : List Action}
    (hok : Runs.RunOk (step supports) (StepOk supports) (init cnt) acts)
    (hrun : Runs.run (step supports) (init cnt) acts = some s) :
    Conserved supports cnt s ∧
      Runs.RunOk (step supports) (fun s a => ∀ s', step supports s a = some s' → Returned s a s')
        (init cnt) acts := by
  constructor
  · apply conserved_of_inv
    exact Runs.runOk_induction (I := Inv supports cnt) (fun _ _ _ h hok hstep => h.step hok hstep)
      inv_init hok hrun
  · exact hok.mono fun s a hok s' _ => returned_of_ok hok

end

/-- A slave that supports CoE only. -/
def coeOnly (_ : ℕ) (q : Queue) : Bool := q = .coe

def steps (t : Tid) (bs : List Bool) : List Action := bs.map (.run t)

/-- The mailbox is initialised, and a client puts the request of `ec_coe_sdo_read` into the queue. -/
def requestRun : List Action :=
  .call 0 0 .mbxInit :: steps (.client 0) ([false, true, true, true, true, true, true] ++
    [false, true, true, false, true, true, false, true, true, true, true]) ++
  [.leave 0, .call 1 0 .coeSdoRead] ++
  steps (.client 1) ([true, true, true, false] ++ List.replicate 16 true)

/-- The handler sends the request and receives the answer, which the client takes. -/
def answerRun : List Action :=
  steps (.handler 0) (List.replicate 8 true ++ [false] ++ List.replicate 7 true ++ [false] ++
    List.replicate 7 true ++ List.replicate 14 true ++ [false] ++ List.replicate 5 true ++
    [false] ++ List.replicate 5 true) ++
  steps (.client 1) (List.replicate 14 true) ++ [.leave 1]

/-- `ec_mbx_deinit`, and the handler comes to its end, having made these choices. -/
def deinitRun (bs : List Bool) : List Action :=
  .call 0 0 .mbxDeinit :: steps (.client 0) [true, true, true, true] ++ steps (.handler 0) bs ++
  steps (.client 0) [true, true, true, true, true, false, true, true, false, true, true, false, true]

theorem conserved_answerRun :
    ∃ s, Runs.run (step coeOnly) (init 1)
        (requestRun ++ answerRun ++ deinitRun [false, true, true, true, false, true]) = some s ∧
      Conserved coeOnly 1 s := by
  obtain ⟨s, hs⟩ := Option.isSome_iff_exists.1 (show (Runs.run (step coeOnly) (init 1)
    (requestRun ++ answerRun ++ deinitRun [false, true, true, true, false, true])).isSome = true by
      decide +kernel)
  exact ⟨s, hs, (conserved_run (by decide +kernel) hs).1⟩

/-- The request is still in the queue. -/
def closingRun : List Action := requestRun ++ deinitRun [true, true, false, true]

/-- It is neither sent nor back in the pool when the queue has been closed. -/
theorem queued_not_returned :
    ¬ ∀ supports cnt acts s, Runs.run (step supports) (init cnt) acts = some s →
      Conserved supports cnt s ∧ Runs.RunOk (step supports)
        (fun s a => ∀ s', step supports s a = some s' → Returned s a s') (init cnt) acts := by
  intro hall
  have hbefore : (Runs.run (step coeOnly) (init 1) closingRun).map (fun s =>
      ((s.thread (.client 0)).code, s.content (place (s.thread (.client 0)).slave .sendQueued),
        (step coeOnly s (.run (.client 0) true)).map fun s' => s'.content (.pool none .sendFree))) =
      some ([.op (.other (.poolClose .sendQueued))], [⟨.send, 0⟩], some []) := by
    decide +kernel
  obtain ⟨s, hs, heq⟩ := Option.map_eq_some_iff.1 hbefore
  simp only [Prod.mk.injEq, Option.map_eq_some_iff] at heq
  obtain ⟨hcode, hqueue, s', hs', hfree⟩ := heq
  have hrun : Runs.run (step coeOnly) (init 1) (closingRun ++ [.run (.client 0) true]) = some s' := by
    rw [Runs.run_append hs]
    exact Runs.run_cons_eq_some.2 ⟨s', hs', rfl⟩
  have hreturned := (hall coeOnly 1 _ s' hrun).2.of_append hs s' hs'
  have hmem := hreturned _ _ _ _ ⟨.send, 0⟩ rfl hcode (by rw [hqueue]; exact List.mem_cons_self)
  rw [Buf.free, hfree] at hmem
  cases hmem

end LibEthercat.Mbx.Buffers
