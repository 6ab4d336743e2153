import Mathlib.Data.List.Chain
import Mathlib.Data.UInt
import LibEthercat.Lib.Throttle
import LibEthercat.Slave.State

/-!
# The checks of the groups

`ec_async_check_group` schedules a check of a group, but not within a second of the check before;
all groups share the timer. The callbacks for process data call it when the working counter of a
group is not as expected, and `ec_async_check_all` calls it for one group after the other, when the
slaves are not in the state of the master (`async_loop.c`, `ec.c`). All of them are called where the
frames are received, one after the other.

**Theorem (`check_groups_iff`).** `ec_async_check_all` reaches every group, just if the second of
each group is over when it comes to the next; and no mismatch suppresses the check of another
group, just if no other group asks for one in the second after it.
-/

namespace LibEthercat.Async

open SlaveState (EC_STATE_SAFEOP EC_STATE_OP)

/-- `osal_timer_init` with the clock and a timeout, and `osal_timer_expired` with the clock. -/
structure OsalTimer (τ : Type*) where
  init : ℕ → ℕ → τ
  expired : τ → ℕ → Bool

/-! ## `ec_async_check_group` -/

/-- The group, and whether it is checked because of its working counter. -/
structure Requester where
  gid : UInt16
  mismatch : Bool
deriving DecidableEq

/-- What a call finds: the clock when it looks at the timer and when it sets it, and whether there
is a free message in time. -/
structure Consult where
  now : ℕ
  set : ℕ
  free : Bool

/-- The source does not keep who has set the timer. -/
structure CheckState (τ : Type*) where
  nextCheckGroup : τ
  setBy : Option Requester
  ecStateMismatchCnt : ℕ

/-- What becomes of a call. -/
inductive CheckResult
  | scheduled
  | noMessage
  | held (holder : Option Requester)
deriving DecidableEq

/-- The results of calls, each with its caller. -/
abbrev Results := List (Requester × CheckResult)

section
variable {τ : Type*} (T : OsalTimer τ)

/-- `ec_async_check_group`. The timer is set before there is a message. -/
def ecAsyncCheckGroup (q : Requester) (c : Consult) (s : CheckState τ) :
    Results × CheckState τ :=
  if T.expired s.nextCheckGroup c.now then
    ([(q, if c.free then .scheduled else .noMessage)],
      { s with nextCheckGroup := T.init c.set 1000000000, setBy := some q })
  else ([(q, .held s.setBy)], s)

/-- The loop of `ec_async_check_all` from the group `i` on. -/
def checkAllFrom : ℕ → List Consult → CheckState τ → Results × CheckState τ
  | _, [], s => ([], s)
  | i, c :: cs, s =>
    let r := ecAsyncCheckGroup T ⟨UInt16.ofNat i, false⟩ c s
    let rest := checkAllFrom (i + 1) cs r.2
    (r.1 ++ rest.1, rest.2)

/-- `ec_async_check_all`, with a call for each group of the master. -/
def ecAsyncCheckAll (cs : List Consult) (s : CheckState τ) : Results × CheckState τ :=
  checkAllFrom T 0 cs s

/-! ## The callbacks -/

/-- An answer with process data, and what the callback looks at. -/
structure PdAnswer where
  transitionPending : Bool
  masterState : UInt16
  wkc : UInt16
  wkcExpected : UInt16
  /-- Some slave is in a transition. -/
  transitionActive : Bool

def PdAnswer.mismatch (a : PdAnswer) : Bool :=
  (a.masterState = EC_STATE_SAFEOP || a.masterState = EC_STATE_OP) && a.wkc != a.wkcExpected

/-- `cb_process_data_group`. -/
def cbProcessDataGroup (gid : UInt16) (a : PdAnswer) (c : Consult) (s : CheckState τ) :
    Results × CheckState τ :=
  if !a.transitionPending && a.mismatch then ecAsyncCheckGroup T ⟨gid, true⟩ c s else ([], s)

/-- `cb_process_data_group_lwr`, which does not disturb the transition of a slave. -/
def cbProcessDataGroupLwr (gid : UInt16) (a : PdAnswer) (c : Consult) (s : CheckState τ) :
    Results × CheckState τ :=
  if a.mismatch && !a.transitionPending && !a.transitionActive then
    ecAsyncCheckGroup T ⟨gid, true⟩ c s
  else ([], s)

/-- An answer with the state of all slaves. -/
structure StateAnswer where
  transitionPending : Bool
  masterState : UInt16
  alStatus : UInt16

def StateAnswer.mismatch (a : StateAnswer) : Bool :=
  !a.transitionPending && a.alStatus != a.masterState

/-- `cb_brd_ec_state`. One in a thousand mismatches leads to a check. -/
def cbBrdEcState (a : StateAnswer) (cs : List Consult) (s : CheckState τ) :
    Results × CheckState τ :=
  if a.mismatch then
    let s' := { s with ecStateMismatchCnt := s.ecStateMismatchCnt + 1 }
    if s.ecStateMismatchCnt % 1000 = 0 then ecAsyncCheckAll T cs s' else ([], s')
  else ([], s)

/-! ## Runs -/

inductive Event
  | processData (gid : UInt16) (a : PdAnswer) (c : Consult)
  | processDataLwr (gid : UInt16) (a : PdAnswer) (c : Consult)
  | ecState (a : StateAnswer) (cs : List Consult)
  /-- The user may call the functions as well. -/
  | checkGroup (gid : UInt16) (c : Consult)
  | checkAll (cs : List Consult)

def handleEvent (s : CheckState τ) : Event → Results × CheckState τ
  | .processData gid a c => cbProcessDataGroup T gid a c s
  | .processDataLwr gid a c => cbProcessDataGroupLwr T gid a c s
  | .ecState a cs => cbBrdEcState T a cs s
  | .checkGroup gid c => ecAsyncCheckGroup T ⟨gid, false⟩ c s
  | .checkAll cs => ecAsyncCheckAll T cs s

def runEvents : CheckState τ → List Event → Results
  | _, [] => []
  | s, e :: es => (handleEvent T s e).1 ++ runEvents (handleEvent T s e).2 es

/-! ## The calls as requests -/

/-- The calls of `ec_async_check_group`, each with what it finds. -/
abbrev Calls := List (Requester × Consult)

def allCalls : ℕ → List Consult → Calls
  | _, [] => []
  | i, c :: cs => (⟨UInt16.ofNat i, false⟩, c) :: allCalls (i + 1) cs

/-- The calls in an event; it depends on the mismatches so far whether the state leads to a check.
-/
def Event.calls (cnt : ℕ) : Event → Calls
  | .processData gid a c =>
    if !a.transitionPending && a.mismatch then [(⟨gid, true⟩, c)] else []
  | .processDataLwr gid a c =>
    if a.mismatch && !a.transitionPending && !a.transitionActive then [(⟨gid, true⟩, c)] else []
  | .ecState a cs => if a.mismatch && cnt % 1000 = 0 then allCalls 0 cs else []
  | .checkGroup gid c => [(⟨gid, false⟩, c)]
  | .checkAll cs => allCalls 0 cs

def Event.count (cnt : ℕ) : Event → ℕ
  | .ecState a _ => if a.mismatch then cnt + 1 else cnt
  | _ => cnt

def callsOf : ℕ → List Event → Calls
  | _, [] => []
  | cnt, e :: es => e.calls cnt ++ callsOf (e.count cnt) es

/-- A call finds the timer expired or not, and may set it for a second. -/
def OsalTimer.request (q : Requester × Consult) : Throttle.Request Requester τ where
  key := q.1
  expired t := T.expired t q.2.now
  timer := T.init q.2.set 1000000000

def CheckState.throttle (s : CheckState τ) : Throttle.State Requester τ :=
  ⟨s.nextCheckGroup, s.setBy⟩

/-- A message or none: the timer has been set. -/
def CheckResult.outcome : CheckResult → Throttle.Outcome Requester
  | .scheduled | .noMessage => .granted
  | .held holder => .held holder

/-- The results and the state are those of these requests. -/
structure Serves (q : Calls) (s : CheckState τ) (r : Results × CheckState τ) : Prop where
  results : (r.1.map fun p => (p.1, p.2.outcome)) =
    (Throttle.outcomes s.throttle (q.map T.request)).map fun p => (p.1.key, p.2)
  state : r.2.throttle = (q.map T.request).foldl Throttle.next s.throttle

variable {T} {q q' : Calls} {s s' : CheckState τ} {r r' : Results × CheckState τ}

theorem Serves.nil (h : s'.throttle = s.throttle) : Serves T [] s ([], s') := ⟨rfl, h⟩

theorem Serves.append (h : Serves T q s r) (h' : Serves T q' r.2 r') :
    Serves T (q ++ q') s (r.1 ++ r'.1, r'.2) := by
  refine ⟨?_, ?_⟩
  · rw [List.map_append, List.map_append, Throttle.outcomes_append, List.map_append, h.results,
      h'.results, h.state]
  · rw [List.map_append, List.foldl_append, ← h.state, h'.state]

theorem ecAsyncCheckGroup_serves (p : Requester) (c : Consult) :
    Serves T [(p, c)] s (ecAsyncCheckGroup T p c s) := by
  unfold ecAsyncCheckGroup
  cases hexp : T.expired s.nextCheckGroup c.now with
  | true =>
    rw [if_pos rfl]
    refine ⟨?_, ?_⟩
    · cases hfree : c.free <;>
        simp [Throttle.outcomes, Throttle.outcome, OsalTimer.request, CheckState.throttle,
          CheckResult.outcome, hexp]
    · simp [Throttle.next, OsalTimer.request, CheckState.throttle, hexp]
  | false =>
    rw [if_neg Bool.false_ne_true]
    refine ⟨?_, ?_⟩
    · simp [Throttle.outcomes, Throttle.outcome, OsalTimer.request, CheckState.throttle,
        CheckResult.outcome, hexp]
    · simp [Throttle.next, OsalTimer.request, CheckState.throttle, hexp]

theorem ecAsyncCheckGroup_cnt (p : Requester) (c : Consult) :
    (ecAsyncCheckGroup T p c s).2.ecStateMismatchCnt = s.ecStateMismatchCnt := by
  unfold ecAsyncCheckGroup
  split_ifs <;> rfl

theorem checkAllFrom_serves (i : ℕ) (cs : List Consult) :
    Serves T (allCalls i cs) s (checkAllFrom T i cs s) ∧
      (checkAllFrom T i cs s).2.ecStateMismatchCnt = s.ecStateMismatchCnt := by
  induction cs generalizing i s with
  | nil => exact ⟨.nil rfl, rfl⟩
  | cons c cs ih =>
    have hfirst := ecAsyncCheckGroup_serves (T := T) (s := s) ⟨UInt16.ofNat i, false⟩ c
    have hcnt := ecAsyncCheckGroup_cnt (T := T) (s := s) ⟨UInt16.ofNat i, false⟩ c
    obtain ⟨hrest, hcnt'⟩ :=
      ih (i + 1) (s := (ecAsyncCheckGroup T ⟨UInt16.ofNat i, false⟩ c s).2)
    exact ⟨hfirst.append hrest, hcnt'.trans hcnt⟩

/-- **An event.** -/
theorem handleEvent_serves (e : Event) :
    Serves T (e.calls s.ecStateMismatchCnt) s (handleEvent T s e) ∧
      (handleEvent T s e).2.ecStateMismatchCnt = e.count s.ecStateMismatchCnt := by
  cases e with
  | processData gid a c =>
    simp only [handleEvent, cbProcessDataGroup, Event.calls, Event.count]
    split_ifs
    · exact ⟨ecAsyncCheckGroup_serves .., ecAsyncCheckGroup_cnt ..⟩
    · exact ⟨.nil rfl, rfl⟩
  | processDataLwr gid a c =>
    simp only [handleEvent, cbProcessDataGroupLwr, Event.calls, Event.count]
    split_ifs
    · exact ⟨ecAsyncCheckGroup_serves .., ecAsyncCheckGroup_cnt ..⟩
    · exact ⟨.nil rfl, rfl⟩
  | ecState a cs =>
    simp only [handleEvent, cbBrdEcState, Event.calls, Event.count]
    cases hmis : a.mismatch with
    | false => exact ⟨.nil rfl, rfl⟩
    | true =>
      by_cases hcnt : s.ecStateMismatchCnt % 1000 = 0
      · have hall := checkAllFrom_serves (T := T) 0 cs
          (s := { s with ecStateMismatchCnt := s.ecStateMismatchCnt + 1 })
        simp only [Bool.true_and, hcnt, decide_true, if_true]
        exact ⟨⟨hall.1.results, hall.1.state⟩, hall.2⟩
      · simp only [Bool.true_and, hcnt, decide_false, if_true, if_false, Bool.false_eq_true]
        exact ⟨.nil rfl, trivial⟩
  | checkGroup gid c => exact ⟨ecAsyncCheckGroup_serves .., ecAsyncCheckGroup_cnt ..⟩
  | checkAll cs => exact checkAllFrom_serves 0 cs

/-- **A run.** -/
theorem runEvents_results (es : List Event) :
    ((runEvents T s es).map fun p => (p.1, p.2.outcome)) =
      (Throttle.outcomes s.throttle ((callsOf s.ecStateMismatchCnt es).map T.request)).map
        fun p => (p.1.key, p.2) := by
  induction es generalizing s with
  | nil => rfl
  | cons e es ih =>
    obtain ⟨hserves, hcnt⟩ := handleEvent_serves (T := T) (s := s) e
    rw [runEvents, callsOf, List.map_append, List.map_append, Throttle.outcomes_append,
      List.map_append, hserves.results, ih, hserves.state, hcnt]

/-! ## Groups that are reached -/

/-- The calls with these results, for the groups from `i` on. -/
def allScheduled (i n : ℕ) : Results :=
  (List.range' i n).map fun i => (⟨UInt16.ofNat i, false⟩, .scheduled)

/-- When the group is looked at, the second of the group before is over. -/
def SecondOver (T : OsalTimer τ) (c c' : Consult) : Prop :=
  T.expired (T.init c.set 1000000000) c'.now = true

/-- With free messages, the first group is scheduled if the timer is expired, and then each group
whose predecessor's second is over. -/
theorem checkAllFrom_eq_allScheduled {cs : List Consult} (hfree : ∀ c ∈ cs, c.free = true) (i : ℕ) :
    (checkAllFrom T i cs s).1 = allScheduled i cs.length ↔
      (∀ c ∈ cs.head?, T.expired s.nextCheckGroup c.now = true) ∧ cs.IsChain (SecondOver T) := by
  induction cs generalizing i s with
  | nil => simp [checkAllFrom, allScheduled]
  | cons c cs ih =>
    have hc := hfree c List.mem_cons_self
    cases hexp : T.expired s.nextCheckGroup c.now with
    | true =>
      have hrest := ih (fun c hc => hfree c (List.mem_cons_of_mem _ hc)) (i + 1)
        (s := { s with nextCheckGroup := T.init c.set 1000000000,
                       setBy := some ⟨UInt16.ofNat i, false⟩ })
      rw [allScheduled] at hrest
      simpa [checkAllFrom, ecAsyncCheckGroup, hexp, hc, allScheduled, List.range'_succ,
        List.isChain_cons, SecondOver] using hrest
    | false => simp [checkAllFrom, ecAsyncCheckGroup, hexp, allScheduled, List.range'_succ]

/-- While there are free messages, a call that schedules the first group schedules every group. -/
def ReachesAll (T : OsalTimer τ) (cs : List Consult) (s : CheckState τ) : Prop :=
  (∀ c ∈ cs, c.free = true) →
    (∀ p ∈ (ecAsyncCheckAll T cs s).1.head?, p.2 = .scheduled) →
    (ecAsyncCheckAll T cs s).1 = allScheduled 0 cs.length

/-- If the timer is expired at first, the second of each group is over before the next one. -/
def Slow (T : OsalTimer τ) (cs : List Consult) (s : CheckState τ) : Prop :=
  (∀ c ∈ cs, c.free = true) →
    (∀ c ∈ cs.head?, T.expired s.nextCheckGroup c.now = true) → cs.IsChain (SecondOver T)

theorem reachesAll_iff {cs : List Consult} : ReachesAll T cs s ↔ Slow T cs s := by
  refine forall_congr' fun hfree => ?_
  rw [ecAsyncCheckAll, checkAllFrom_eq_allScheduled hfree]
  have hfirst : (∀ p ∈ (checkAllFrom T 0 cs s).1.head?, p.2 = .scheduled) ↔
      ∀ c ∈ cs.head?, T.expired s.nextCheckGroup c.now = true := by
    cases cs with
    | nil => simp [checkAllFrom]
    | cons c cs =>
      cases hexp : T.expired s.nextCheckGroup c.now <;>
        simp [checkAllFrom, ecAsyncCheckGroup, hexp, hfree]
  rw [hfirst]
  exact ⟨fun h hexp => (h hexp).2, fun h hexp => ⟨hexp, h hexp⟩⟩

/-! ## Groups that are suppressed -/

/-- No check of a group is suppressed by a mismatch in another one. -/
def NeverSuppressed (r : Results) : Prop :=
  ∀ p ∈ r, ∀ q, p.2 = .held (some q) → q.mismatch = true → q.gid = p.1.gid

/-- In the second after a check that a mismatch has led to, all calls are for the same group. The
windows are those of the calls: one that finds the timer expired opens a window, with the calls that
come before its second is over. -/
def Undisturbed (T : OsalTimer τ) (timer : τ) (q : Calls) : Prop :=
  ∀ w ∈ Throttle.windows timer (q.map T.request), w.1.key.mismatch = true →
    ∀ r ∈ w.2, r.key.gid = w.1.key.gid

/-- After `ec_async_loop_create`, the timer has been set by nobody. -/
def CheckState.created (timer : τ) (cnt : ℕ) : CheckState τ := ⟨timer, none, cnt⟩

theorem outcome_eq_held {x : CheckResult} {q : Requester} :
    x.outcome = .held (some q) ↔ x = .held (some q) := by
  cases x <;> simp [CheckResult.outcome]

theorem neverSuppressed_iff {timer : τ} {cnt : ℕ} {es : List Event} :
    NeverSuppressed (runEvents T (.created timer cnt) es) ↔
      Undisturbed T timer (callsOf cnt es) := by
  have hresults := runEvents_results (T := T) (s := .created timer cnt) es
  have hmap : NeverSuppressed (runEvents T (.created timer cnt) es) ↔
      ∀ p ∈ (runEvents T (.created timer cnt) es).map fun p => (p.1, p.2.outcome),
        ∀ q, p.2 = .held (some q) → q.mismatch = true → q.gid = p.1.gid := by
    simp only [NeverSuppressed, List.forall_mem_map, outcome_eq_held]
  rw [hmap, hresults, List.forall_mem_map]
  have hheld := Throttle.heldOnly_iff_windows
    (s := (CheckState.created timer cnt).throttle)
    (R := fun (k : Requester) r => k.mismatch = true → k.gid = r.key.gid)
    ((callsOf cnt es).map T.request) rfl
  exact hheld.trans (forall₂_congr fun w _ =>
    ⟨fun h hm r hr => (h r hr hm).symm, fun h r hr hm => (h hm r hr).symm⟩)

/-- **The checks of all groups.** -/
theorem check_groups_iff (T : OsalTimer τ) (s : CheckState τ) (cs : List Consult) (timer : τ)
    (cnt : ℕ) (es : List Event) :
    (ReachesAll T cs s ↔ Slow T cs s) ∧
      (NeverSuppressed (runEvents T (.created timer cnt) es) ↔
        Undisturbed T timer (callsOf cnt es)) :=
  ⟨reachesAll_iff, neverSuppressed_iff⟩

end

/-- A timer as a number of nanoseconds. -/
def osalTimer : OsalTimer ℕ where
  init now timeout := now + timeout
  expired timer now := timer < now

/-- Two groups: the first one keeps the second from being checked, in a call for all of them, and
after a mismatch. -/
theorem check_groups_two :
    ¬ ReachesAll osalTimer [⟨1, 1, true⟩, ⟨2, 2, true⟩] (.created 0 0) ∧
      ¬ NeverSuppressed (runEvents osalTimer (.created 0 0)
        [.processData 0 ⟨false, EC_STATE_OP, 0, 1, false⟩ ⟨1, 1, true⟩,
          .processData 1 ⟨false, EC_STATE_OP, 0, 1, false⟩ ⟨2, 2, true⟩]) := by
  constructor
  · intro h
    exact absurd (h (by decide) (by decide)) (by decide)
  · intro h
    exact absurd (h (⟨1, true⟩, .held (some ⟨0, true⟩)) (by decide) ⟨0, true⟩ rfl rfl) (by decide)

end LibEthercat.Async
