import LibEthercat.Coe.Emergency

/-!
# What `ec_coe_emergency_get_next` reports

The application polls until it gets an error, so `EC_OK` has to mean that `msg` is the oldest
emergency, with all its fields.

**Theorem (`reports_iff`).** In any order of calls, that is so just if the application asks only when
a message is there that is not in the last slot, and its `msg` already has the length of that
message: `EC_OK` is also returned for an empty ring, and `msg_len` is not copied
(`emptyRing_reports_ok`).
-/

namespace LibEthercat.Coe.Emergencies

section
variable (maxEmergencies maxMsgLen : ℕ)

/-- The oldest message is handed out as it was enqueued, and taken out of the ring. -/
structure Delivers (s : State) (r : Ret × EmergencyMessage × EmergencyRing) : Prop where
  oldest : ∃ e q, s.pending = e :: q ∧ Returned r.2.1 e ∧ r.2.1.msgLen = e.data.length
  ring : r.2.2 = { s.ring with nextRead := (s.ring.nextRead + 1) % maxEmergencies }

/-- What is returned says whether a message has been delivered. -/
structure Reports (s : State) (c : LockedCall) : Prop where
  ok_iff : ∀ msg, c.call = .getNext msg →
    ((ecCoeEmergencyGetNext maxMsgLen c.lock s.ring msg).1 = .ok ↔
      Delivers maxEmergencies s (ecCoeEmergencyGetNext maxMsgLen c.lock s.ring msg))
  unchanged : ∀ msg, c.call = .getNext msg →
    (ecCoeEmergencyGetNext maxMsgLen c.lock s.ring msg).1 ≠ .ok →
      (ecCoeEmergencyGetNext maxMsgLen c.lock s.ring msg).2 = (msg, s.ring)

/-- The application that gets the lock asks when there is a message, it is not in the last slot, and
`msg` has its length. -/
def ReportOk (s : State) (c : LockedCall) : Prop :=
  c.lock = true → GetOk maxEmergencies s c.call ∧
    ∀ msg, c.call = .getNext msg → msg.msgLen = (s.ring.emergencies s.ring.nextRead).msgLen

end

section
variable {maxEmergencies maxMsgLen : ℕ} {s : State}

/-- In a ring that holds a message, the next index is another one. -/
theorem next_ne_nextRead (h : Inv maxEmergencies maxMsgLen s) (hne : s.pending ≠ []) :
    (s.ring.nextRead + 1) % maxEmergencies ≠ s.ring.nextRead := by
  have hpos := List.length_pos_iff.2 hne
  have hidx := RingBuffer.index_ne (r := s.ring.nextRead) (i := 0) (k := 1) (by decide)
    (n := maxEmergencies) (by have := h.holds.length_lt; omega)
  rw [Nat.add_zero, Nat.mod_eq_of_lt h.holds.read_lt] at hidx
  exact hidx.symm

theorem add_one_mod_eq_iff {n i : ℕ} (hi : i < n) : i + 1 = (i + 1) % n ↔ i + 1 < n := by
  constructor
  · intro heq
    rw [heq]
    exact Nat.mod_lt _ (by omega)
  · intro hlt
    rw [Nat.mod_eq_of_lt hlt]

/-- Without the lock, the ring stays. -/
theorem not_delivers_of_unlocked (h : Inv maxEmergencies maxMsgLen s) (msg : EmergencyMessage) :
    ¬ Delivers maxEmergencies s (ecCoeEmergencyGetNext maxMsgLen false s.ring msg) := by
  rintro ⟨⟨e, q, hq, -, -⟩, hring⟩
  have hread : s.ring.nextRead = (s.ring.nextRead + 1) % maxEmergencies :=
    congrArg EmergencyRing.nextRead hring
  exact next_ne_nextRead h (by simp [hq]) hread.symm

/-- **Delivery**, with the lock: what the condition leaves out is not delivered. -/
theorem delivers_iff (h : Inv maxEmergencies maxMsgLen s) (msg : EmergencyMessage) :
    Delivers maxEmergencies s (emergencyGetNext maxMsgLen s.ring msg) ↔
      GetOk maxEmergencies s (.getNext msg) ∧
        msg.msgLen = (s.ring.emergencies s.ring.nextRead).msgLen := by
  cases hq : s.pending with
  | nil =>
    have hempty : ¬ s.ring.nextRead ≠ s.ring.nextWrite := fun hne => (pending_ne_nil h).1 hne hq
    refine iff_of_false ?_ fun hok => hempty (hok.1 msg rfl).1
    rintro ⟨⟨e, q, hcons, -, -⟩, -⟩
    rw [hq] at hcons
    cases hcons
  | cons e q =>
    have hne : s.ring.nextRead ≠ s.ring.nextWrite := (pending_ne_nil h).2 (by simp [hq])
    have hret := (@fetches_iff _ _ _ msg h).2 hne
    unfold Fetches at hret
    rw [hq] at hret
    have hhead := h.holds
    rw [hq] at hhead
    have hlen := hhead.head.msgLen
    have hlast := add_one_mod_eq_iff h.holds.read_lt
    have hget : (emergencyGetNext maxMsgLen s.ring msg).2.1.msgLen = msg.msgLen ∧
        (emergencyGetNext maxMsgLen s.ring msg).2.2 =
          { s.ring with nextRead := s.ring.nextRead + 1 } := by
      rw [emergencyGetNext, if_pos hne.symm]
      exact ⟨rfl, rfl⟩
    constructor
    · rintro ⟨⟨e', q', hcons, -, hmsgLen⟩, hring⟩
      rw [hq] at hcons
      cases hcons
      rw [hget.1] at hmsgLen
      rw [hget.2] at hring
      have hread := hlast.1 (congrArg EmergencyRing.nextRead hring)
      refine ⟨fun msg' hmsg' => ⟨hne, hread⟩, ?_⟩
      rw [hmsgLen, hlen]
    · rintro ⟨hok, hmsgLen⟩
      refine ⟨⟨e, q, hq, hret.2, ?_⟩, ?_⟩
      · rw [hget.1, hmsgLen, hlen]
      · rw [hget.2, ← hlast.2 (hok msg rfl).2]

theorem reports_iff_reportOk {c : LockedCall} (h : Inv maxEmergencies maxMsgLen s) :
    Reports maxEmergencies maxMsgLen s c ↔ ReportOk maxEmergencies s c := by
  obtain ⟨lock, c⟩ := c
  cases lock with
  | false =>
    refine iff_of_true ⟨fun msg _ => iff_of_false ?_ (not_delivers_of_unlocked h msg),
      fun msg _ _ => rfl⟩ fun hlock => by cases hlock
    intro hok
    cases hok
  | true =>
    cases c with
    | enqueue length data now =>
      refine iff_of_true ⟨?_, ?_⟩ fun _ => ⟨?_, ?_⟩ <;> intro msg hmsg <;> cases hmsg
    | getNext msg =>
      -- `EC_OK`, whatever the ring holds
      have hret : (ecCoeEmergencyGetNext maxMsgLen true s.ring msg).1 = .ok := by
        rw [ecCoeEmergencyGetNext, if_pos rfl, emergencyGetNext]
        split_ifs <;> rfl
      have hdel := delivers_iff h msg
      constructor
      · rintro ⟨hiff, -⟩ -
        obtain ⟨hget, hlen⟩ := hdel.1 ((hiff msg rfl).1 hret)
        refine ⟨hget, fun msg' hmsg' => ?_⟩
        cases hmsg'
        exact hlen
      · intro hok
        obtain ⟨hget, hlen⟩ := hok rfl
        refine ⟨fun msg' hmsg' => ?_, fun msg' hmsg' hne => ?_⟩
        · cases hmsg'
          exact iff_of_true hret (hdel.2 ⟨hget, hlen msg rfl⟩)
        · cases hmsg'
          exact absurd hret hne

/-- **Delivery is reported**, in any order of calls, just if nobody asks for what is not there or
lies in the last slot, or with another length in `msg`. -/
theorem reports_iff (hpos : 0 < maxEmergencies) (emergencies : ℕ → EmergencyMessage)
    (calls : List LockedCall) :
    Runs.RunOk (lockedStep maxEmergencies maxMsgLen) (Reports maxEmergencies maxMsgLen)
        (opened emergencies) calls ↔
      Runs.RunOk (lockedStep maxEmergencies maxMsgLen) (ReportOk maxEmergencies)
        (opened emergencies) calls := by
  refine Runs.runOk_congr (I := Inv maxEmergencies maxMsgLen) (fun s c s' h hok hstep => ?_)
    (fun s c h => reports_iff_reportOk h) (inv_opened hpos emergencies)
  cases hstep
  exact inv_lockedCall h fun hlock => (hok hlock).1

end

/-- A message of 2 bytes is received, one call does not get the lock, and the next one fetches it
into a `msg` with this length. -/
theorem reports_fetchTwo :
    Runs.RunOk (lockedStep 10 32) (Reports 10 32) (opened fun _ => ⟨⟨0, 0⟩, 0, fun _ => 0⟩)
      [⟨true, .enqueue 4 (fun _ => 7) ⟨1, 0⟩⟩, ⟨false, .getNext ⟨⟨0, 0⟩, 0, fun _ => 0⟩⟩,
        ⟨true, .getNext ⟨⟨0, 0⟩, 2, fun _ => 0⟩⟩] := by
  refine (reports_iff (by decide) _ _).2 ?_
  refine .cons (fun _ => ⟨fun msg h => (by cases h), fun msg h => by cases h⟩) rfl
    (.cons (fun h => by cases h) rfl (.cons (fun _ => ⟨fun msg _ => ?_, fun msg h => ?_⟩) rfl trivial))
  · exact ⟨by decide, by decide⟩
  · cases h
    decide

/-- `EC_OK` from a ring into which nothing has been put. -/
theorem emptyRing_reports_ok :
    ¬ ∀ maxEmergencies maxMsgLen emergencies calls, 0 < maxEmergencies →
      Runs.RunOk (lockedStep maxEmergencies maxMsgLen) (Reports maxEmergencies maxMsgLen)
        (opened emergencies) calls := by
  intro hall
  have hok := hall 10 32 (fun _ => ⟨⟨0, 0⟩, 0, fun _ => 0⟩)
    [⟨true, .getNext ⟨⟨0, 0⟩, 0, fun _ => 0⟩⟩] (by decide)
  obtain ⟨e, q, hq, -⟩ := ((hok.1.ok_iff _ rfl).1 rfl).oldest
  cases hq

end LibEthercat.Coe.Emergencies
