import Mathlib.Algebra.Group.Int.Defs
import Mathlib.Data.Int.Init
import LibEthercat.Lib.While
import LibEthercat.Soe.Model

/-!
# `ec_soe_read` and its buffers

A message that has been received lies in a buffer that goes back to the free pool when it has been
handled. The function looks at it once more after that: for the `incomplete` flag of a response, and
at all of it if it was no response, as the loop goes on without fetching the next message.

**Theorem (`readsCleanly_iff`).** The function ends, gives each buffer back once, and looks at none
after that, just if it gets no message.
-/

namespace LibEthercat.Soe

open LibEthercat.Coe (Message)

namespace Read

/-! ## The function -/

/-- What the call finds: the slave and a send buffer, the messages that arrive, and what the buffer of
the `k`-th message holds when the function looks at it after it has given it back `n + 1` times. -/
structure Env where
  present : Bool
  soe : Bool
  sendBuffer : Bool
  counter : UInt8
  queue : List Message
  later : ℕ → ℕ → Message

/-- The arguments; `elements` and `len` are the values behind the pointers. -/
structure Args where
  atn : UInt8
  idn : UInt16
  elements : UInt8
  len : UInt64

/-- What happens to the buffer of the `k`-th message. -/
inductive Event
  | take (k : ℕ)
  | access (k : ℕ)
  | giveBack (k : ℕ)
deriving DecidableEq

/-- `p_entry`: the number of its message, the message, and how often it has been given back. -/
structure Held where
  k : ℕ
  msg : Message
  returned : ℕ

/-- The locals, what the caller sees, and `writes`, the `memcpy`s into `buf` with their offsets; `toPos`
is the place in `buf` to which `to` points. -/
structure State where
  held : Option Held
  queue : List Message
  taken : ℕ
  trace : List Event
  sent : List Request
  first : Bool
  elements : UInt8
  len : ℕ
  leftLen : ℤ
  toPos : ℕ
  writes : List (ℕ × List UInt8)
  ret : Ret

/-- What is in the buffer. -/
def look (env : Env) (h : Held) : Message :=
  match h.returned with
  | 0 => h.msg
  | n + 1 => env.later h.k n

def Held.giveBack (h : Held) : Held := { h with returned := h.returned + 1 }

/-- A `size_t` as an `osal_ssize_t`. -/
def ssize (n : ℕ) : ℤ := Int.bmod n (2 ^ 64)

theorem ssize_eq (n : ℕ) : ssize n = Int.bmod n (2 ^ 64) := rfl

attribute [irreducible] ssize

/-- The length that the first of many fragments stands for. -/
def announcedLen (m : Message) : ℕ := (idnFragmentsLeft m + 1) * dataLen m % 2 ^ 64

namespace State

/-- `ec_soe_wait`: without a message `p_entry` is `NULL`. -/
def wait (st : State) : State :=
  match st.queue with
  | [] => { st with held := none }
  | m :: queue =>
    { st with
      held := some ⟨st.taken, m, 0⟩
      queue := queue
      taken := st.taken + 1
      trace := st.trace ++ [.take st.taken] }

def event (st : State) (e : Event) : State := { st with trace := st.trace ++ [e] }

/-- The first fragment: its elements are returned, and without a length, that of the answer. -/
def firstFragment (st : State) (m : Message) : State :=
  if st.first = false then st
  else if st.leftLen ≠ 0 then { st with elements := Soe.elements m, first := false }
  else if idnFragmentsLeft m = 0 then
    { st with elements := Soe.elements m, first := false, len := dataLen m }
  else
    { st with
      elements := Soe.elements m
      first := false
      len := announcedLen m
      leftLen := ssize (announcedLen m) }

/-- Copy the data of a fragment, as far as there is room. -/
def copy (st : State) (m : Message) : State :=
  if 0 < st.leftLen then
    { st with
      writes := st.writes ++ [(st.toPos, dataBytes m (min (dataLen m) st.leftLen.toNat))]
      toPos := st.toPos + dataLen m
      leftLen := st.leftLen - ssize (dataLen m) }
  else st

end State

/-- A pass of the loop. -/
def step (env : Env) (st : State) : State ⊕ State :=
  match st.held with
  | none => .inr st
  | some h =>
    let m := look env h
    let st := st.event (.access h.k)
    if opCode m ≠ EC_SOE_READ_RES then
      -- `continue`, without another message
      .inl { st.event (.giveBack h.k) with held := some h.giveBack }
    else
      let st := ((st.firstFragment m).copy m).event (.giveBack h.k)
      let st := st.event (.access h.k)
      if incomplete (look env h.giveBack) then .inl st.wait else .inr { st with ret := .ok }

def request (env : Env) (a : Args) : Request where
  length := soeHdrLen
  counter := env.counter
  opCode := EC_SOE_READ_REQ
  incomplete := false
  atn := a.atn.toNat % 8
  elements := a.elements
  idnFragmentsLeft := a.idn.toNat
  data := []

def init (env : Env) (a : Args) : State where
  held := none
  queue := env.queue
  taken := 0
  trace := []
  sent := []
  first := true
  elements := a.elements
  len := a.len.toNat
  leftLen := ssize a.len.toNat
  toPos := 0
  writes := []
  ret := .mailboxTimeout

/-- When the request has been sent and the first message has been waited for. -/
def begun (env : Env) (a : Args) : State := { init env a with sent := [request env a] }.wait

/-- Why the function ends before it sends anything. -/
def Env.refusal (env : Env) : Option Ret :=
  if env.present = false then some .slaveNotFound
  else if env.soe = false then some .mailboxNotSupportedSoe
  else if env.sendBuffer = false then some .mailboxOutOfWriteBuffers
  else none

end Read

open Read in
def ecSoeRead (fuel : ℕ) (env : Env) (a : Args) : Option State :=
  match env.refusal with
  | some ret => some { init env a with ret := ret }
  | none => While.run (step env) fuel (begun env a)

namespace Read

/-! ## Property -/

/-- Each buffer that is taken is given back once, and not looked at after that. -/
structure Clean (trace : List Event) : Prop where
  once : ∀ k, .take k ∈ trace → trace.count (.giveBack k) = 1
  after : ∀ pre k post, trace = pre ++ .access k :: post → .giveBack k ∉ pre

def ReadsCleanly (env : Env) (a : Args) : Prop :=
  ∃ fuel r, ecSoeRead fuel env a = some r ∧ Clean r.trace

/-! ## What has happened stays -/

section
variable {env : Env} {a : Args} {st st' r : State}

theorem trace_firstFragment (st : State) (m : Message) : (st.firstFragment m).trace = st.trace := by
  unfold State.firstFragment
  split_ifs <;> rfl

theorem trace_copy (st : State) (m : Message) : (st.copy m).trace = st.trace := by
  unfold State.copy
  split_ifs <;> rfl

theorem trace_wait (st : State) : st.trace <+: st.wait.trace := by
  unfold State.wait
  split
  · exact List.prefix_rfl
  · exact List.prefix_append _ _

/-- The state after a response has been handled, but for the end of the pass. -/
def State.handled (st : State) (m : Message) (k : ℕ) : State :=
  ((((st.event (.access k)).firstFragment m).copy m).event (.giveBack k)).event (.access k)

theorem trace_handled (st : State) (m : Message) (k : ℕ) :
    (st.handled m k).trace = st.trace ++ [.access k, .giveBack k, .access k] := by
  simp [State.handled, State.event, trace_copy, trace_firstFragment]

theorem step_of_response {h : Held} (hheld : st.held = some h)
    (hop : opCode (look env h) = EC_SOE_READ_RES) :
    step env st = if incomplete (look env h.giveBack) then .inl (st.handled (look env h) h.k).wait
      else .inr { st.handled (look env h) h.k with ret := .ok } := by
  rw [step, hheld]
  exact if_neg (not_not_intro hop)

theorem step_of_other {h : Held} (hheld : st.held = some h)
    (hop : opCode (look env h) ≠ EC_SOE_READ_RES) :
    step env st = .inl { st with
      held := some h.giveBack
      trace := st.trace ++ [.access h.k, .giveBack h.k] } := by
  rw [step, hheld]
  simp only [State.event, List.append_assoc]
  exact if_pos hop

/-- A pass looks at the buffer that is held. -/
theorem trace_step (env : Env) {h : Held} (hheld : st.held = some h) :
    (∀ st', step env st = .inl st' → st.trace ++ [.access h.k] <+: st'.trace) ∧
      ∀ r, step env st = .inr r → st.trace ++ [.access h.k] <+: r.trace := by
  have hhandled : st.trace ++ [.access h.k] <+: (st.handled (look env h) h.k).trace := by
    rw [trace_handled]
    exact List.prefix_append_right_inj _ |>.2 ⟨[.giveBack h.k, .access h.k], rfl⟩
  by_cases hop : opCode (look env h) = EC_SOE_READ_RES
  · rw [step_of_response hheld hop]
    constructor
    · intro st' hst'
      split_ifs at hst'
      cases hst'
      exact hhandled.trans (trace_wait _)
    · intro r hr
      split_ifs at hr
      cases hr
      exact hhandled
  · rw [step_of_other hheld hop]
    constructor
    · intro st' hst'
      cases hst'
      exact List.prefix_append_right_inj _ |>.2 ⟨[.giveBack h.k], rfl⟩
    · intro r hr
      cases hr

theorem trace_prefix_of_ends {t : List Event} (ht : t <+: st.trace)
    (hends : While.Ends (step env) st r) : t <+: r.trace := by
  have hstep : ∀ s, (∀ st', step env s = .inl st' → s.trace <+: st'.trace) ∧
      ∀ r, step env s = .inr r → s.trace <+: r.trace := by
    intro s
    cases hheld : s.held with
    | none =>
      rw [step, hheld]
      refine ⟨fun st' h => ?_, fun r h => ?_⟩
      · cases h
      · cases h
        exact List.prefix_rfl
    | some h =>
      have hpre : s.trace <+: s.trace ++ [.access h.k] := List.prefix_append _ _
      obtain ⟨hinl, hinr⟩ := trace_step env hheld
      exact ⟨fun st' hst => hpre.trans (hinl st' hst), fun r hr => hpre.trans (hinr r hr)⟩
  exact hends.induction (I := fun s => t <+: s.trace) (Q := fun r => t <+: r.trace)
    (fun s s' hs h => hs.trans ((hstep s).1 s' h)) (fun s r hs h => hs.trans ((hstep s).2 r h)) ht

/-- A buffer that is held is looked at before the function ends. -/
theorem access_of_ends {h : Held} (hheld : st.held = some h)
    (hends : While.Ends (step env) st r) : st.trace ++ [.access h.k] <+: r.trace := by
  obtain ⟨hinl, hinr⟩ := trace_step env hheld
  cases hst : step env st with
  | inl st' => exact trace_prefix_of_ends (hinl st' hst) ((While.ends_of_next hst).1 hends)
  | inr r' =>
    obtain rfl : r' = r := (While.ends_of_done hst).1 hends
    exact hinr r' hst

/-- The first message is looked at after its buffer has been given back. -/
theorem access_after_giveBack {m : Message} (hheld : st.held = some ⟨0, m, 0⟩)
    (hends : While.Ends (step env) st r) :
    st.trace ++ [.access 0, .giveBack 0] ++ [.access 0] <+: r.trace := by
  by_cases hop : opCode (look env ⟨0, m, 0⟩) = EC_SOE_READ_RES
  · have hstep := step_of_response hheld hop
    have htrace := trace_handled st (look env ⟨0, m, 0⟩) 0
    rw [List.append_assoc]
    split_ifs at hstep
    · refine trace_prefix_of_ends ?_ ((While.ends_of_next hstep).1 hends)
      exact htrace ▸ trace_wait _
    · obtain rfl := (While.ends_of_done hstep).1 hends
      exact htrace ▸ List.prefix_rfl
  · have hstep := step_of_other hheld hop
    exact access_of_ends (h := Held.giveBack ⟨0, m, 0⟩) rfl ((While.ends_of_next hstep).1 hends)

end

theorem not_clean_of_prefix {pre trace : List Event} {k : ℕ} (hk : .giveBack k ∈ pre)
    (h : pre ++ [.access k] <+: trace) : ¬ Clean trace := by
  rintro ⟨-, hafter⟩
  obtain ⟨post, rfl⟩ := h
  exact hafter pre k post (List.append_assoc _ _ _) hk

end Read

open Read

/-- **Buffers**: handled cleanly, and to an end, just if there is no message. -/
theorem readsCleanly_iff (env : Env) (a : Args) :
    ReadsCleanly env a ↔ env.refusal ≠ none ∨ env.queue = [] := by
  constructor
  · rintro ⟨fuel, r, hrun, hclean⟩
    by_contra hno
    obtain ⟨hready, hne⟩ := not_or.1 hno
    rw [not_not] at hready
    rw [ecSoeRead, hready] at hrun
    cases hq : env.queue with
    | nil => exact hne hq
    | cons m q =>
      have hbegun : (begun env a).held = some ⟨0, m, 0⟩ ∧ (begun env a).trace = [.take 0] := by
        simp [begun, init, State.wait, hq]
      have hpre := access_after_giveBack hbegun.1 ⟨fuel, hrun⟩
      rw [hbegun.2] at hpre
      exact not_clean_of_prefix (by simp) hpre hclean
  · intro h
    cases hready : env.refusal with
    | some ret =>
      refine ⟨0, { init env a with ret := ret }, by rw [ecSoeRead, hready], ?_, ?_⟩
      · simp [init]
      · simp [init]
    | none =>
      have hq := h.resolve_left (not_not_intro hready)
      have hbegun : (begun env a).held = none ∧ (begun env a).trace = [] := by
        simp [begun, init, State.wait, hq]
      refine ⟨1, begun env a, ?_, ?_, ?_⟩
      · rw [ecSoeRead, hready]
        show While.run (step env) 1 (begun env a) = _
        rw [While.run, step, hbegun.1]
      · simp [hbegun.2]
      · simp [hbegun.2]

/-- A complete response of no data. -/
def emptyResponse : Message := fun i => if i = 0 then 4 else if i = 6 then 2 else 0

/-- One response is enough. -/
theorem response_not_clean : ¬ ∀ env a, ReadsCleanly env a := by
  intro hall
  obtain ⟨fuel, r, hrun, hclean⟩ :=
    hall ⟨true, true, true, 0, [emptyResponse], fun _ _ => emptyResponse⟩ ⟨0, 0, 0, 0⟩
  have hpre := access_after_giveBack (m := emptyResponse) rfl ⟨fuel, hrun⟩
  exact not_clean_of_prefix (by simp) hpre hclean

end LibEthercat.Soe
