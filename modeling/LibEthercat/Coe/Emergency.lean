import LibEthercat.Lib.Ring
import LibEthercat.Lib.Runs
import LibEthercat.Coe.Message

/-!
# CoE emergencies

The mailbox handler stores the emergencies of a slave in a ring of `LEC_MAX_COE_EMERGENCIES`
messages, the application fetches them. Both move `emergency_next_read`: the application when it
has taken a message, the handler when it has overwritten the oldest one. Without `coe.lock` neither
does anything: the handler has not enqueued its message, and the application gets an error.

**Theorem (`emergency_fifo_iff`).** The ring is a queue that forgets its oldest message when it is
full, just if the application that gets the lock asks only when a message is there, and not for the
one in the last slot (`GetOk`): `ec_coe_emergency_get_next` does not wrap around
(`lastSlot_not_fifo`).
-/

namespace LibEthercat.Coe.Emergencies

open Function (update)

/-! ## The ring -/

/-- `osal_timer_t` -/
structure Timer where
  sec : ℕ
  nsec : ℕ
deriving DecidableEq

/-- `ec_coe_emergency_message_t` -/
structure EmergencyMessage where
  timestamp : Timer
  msgLen : ℕ
  msg : ℕ → UInt8

/-- What `ec_coe_t` has of emergencies. The array is followed by other memory. -/
structure EmergencyRing where
  nextRead : ℕ
  nextWrite : ℕ
  emergencies : ℕ → EmergencyMessage

/-- `ec_coe_init` does not touch the messages. -/
def coeInit (emergencies : ℕ → EmergencyMessage) : EmergencyRing := ⟨0, 0, emergencies⟩

section
variable (maxEmergencies maxMsgLen : ℕ)

/-- `hdr->length - 2u` is an unsigned difference. -/
def msgLen (length : UInt16) : ℕ := min maxMsgLen ((length.toNat + 2 ^ 32 - 2) % 2 ^ 32)

/-- `ec_coe_emergency_enqueue` under the lock, for a buffer with this mailbox length and these
bytes. -/
def emergencyEnqueue (s : EmergencyRing) (length : UInt16) (data : ℕ → UInt8) (now : Timer) : EmergencyRing :=
  let nextWrite := (s.nextWrite + 1) % maxEmergencies
  { nextWrite
    nextRead := if nextWrite = s.nextRead then (s.nextRead + 1) % maxEmergencies else s.nextRead
    emergencies := update s.emergencies s.nextWrite
      { timestamp := now
        msgLen := msgLen maxMsgLen length
        -- behind the mailbox and the CoE header
        msg := fun i =>
          if i < msgLen maxMsgLen length then data (6 + 2 + i)
          else (s.emergencies s.nextWrite).msg i } }

/-- `ec_coe_emergency_get_next` under the lock, with the caller's `msg`: what it returns, what `msg`
is then, and the ring. -/
def emergencyGetNext (s : EmergencyRing) (msg : EmergencyMessage) : Ret × EmergencyMessage × EmergencyRing :=
  if s.nextWrite ≠ s.nextRead then
    let msgTmp := s.emergencies s.nextRead
    (.ok,
      { msg with
        timestamp := msgTmp.timestamp
        msg := fun i => if i < maxMsgLen then msgTmp.msg i else msg.msg i },
      { s with nextRead := s.nextRead + 1 })
  else (.ok, msg, s)

/-- `ec_coe_emergency_get_next`, with what `osal_mutex_lock` does. -/
def ecCoeEmergencyGetNext (lock : Bool) (s : EmergencyRing) (msg : EmergencyMessage) :
    Ret × EmergencyMessage × EmergencyRing :=
  if lock then emergencyGetNext maxMsgLen s msg else (.unavailable, msg, s)

/-- `ec_coe_emergency_enqueue`; the buffer goes back to its pool in either case. -/
def ecCoeEmergencyEnqueue (lock : Bool) (s : EmergencyRing) (length : UInt16) (data : ℕ → UInt8)
    (now : Timer) : EmergencyRing :=
  if lock then emergencyEnqueue maxEmergencies maxMsgLen s length data now else s

/-! ## The queue it should be -/

/-- An emergency, as it was received. -/
structure Emergency where
  timestamp : Timer
  data : List UInt8
deriving DecidableEq

def received (length : UInt16) (data : ℕ → UInt8) (now : Timer) : Emergency :=
  ⟨now, (List.range (msgLen maxMsgLen length)).map fun i => data (6 + 2 + i)⟩

/-- The message in a slot of the ring. -/
structure Stored (m : EmergencyMessage) (e : Emergency) : Prop where
  timestamp : m.timestamp = e.timestamp
  msgLen : m.msgLen = e.data.length
  le : e.data.length ≤ maxMsgLen
  msg : ∀ i (h : i < e.data.length), m.msg i = e.data[i]

/-- The message in the hands of the application. Its length is not returned. -/
structure Returned (m : EmergencyMessage) (e : Emergency) : Prop where
  timestamp : m.timestamp = e.timestamp
  msg : ∀ i (h : i < e.data.length), m.msg i = e.data[i]

/-- The ring, and beside it the queue it should be. -/
structure State where
  ring : EmergencyRing
  pending : List Emergency

inductive Call
  | enqueue (length : UInt16) (data : ℕ → UInt8) (now : Timer)
  | getNext (msg : EmergencyMessage)

def opened (emergencies : ℕ → EmergencyMessage) : State := ⟨coeInit emergencies, []⟩

/-- The queue forgets its oldest message when `maxEmergencies - 1` are pending. -/
def call (s : State) : Call → State
  | .enqueue length data now =>
    ⟨emergencyEnqueue maxEmergencies maxMsgLen s.ring length data now,
      RingBuffer.pushLast maxEmergencies s.pending (received maxMsgLen length data now)⟩
  | .getNext msg => ⟨(emergencyGetNext maxMsgLen s.ring msg).2.2, s.pending.tail⟩

/-- A call, and whether it gets the lock. -/
structure LockedCall where
  lock : Bool
  call : Call

/-- Without the lock nothing is enqueued and nothing is taken out. -/
def lockedCall (s : State) : LockedCall → State
  | ⟨lock, .enqueue length data now⟩ =>
    ⟨ecCoeEmergencyEnqueue maxEmergencies maxMsgLen lock s.ring length data now,
      if lock then RingBuffer.pushLast maxEmergencies s.pending (received maxMsgLen length data now)
      else s.pending⟩
  | ⟨lock, .getNext msg⟩ =>
    ⟨(ecCoeEmergencyGetNext maxMsgLen lock s.ring msg).2.2,
      if lock then s.pending.tail else s.pending⟩

def lockedStep (s : State) (c : LockedCall) : Option State :=
  some (lockedCall maxEmergencies maxMsgLen s c)

/-! ## Property and condition -/

/-- What the application gets is the oldest message, or an error if there is none. -/
def Fetches (s : State) (msg : EmergencyMessage) : Prop :=
  match s.pending with
  | [] => (emergencyGetNext maxMsgLen s.ring msg).1 ≠ .ok
  | e :: _ => (emergencyGetNext maxMsgLen s.ring msg).1 = .ok ∧
      Returned (emergencyGetNext maxMsgLen s.ring msg).2.1 e

/-- A call answers as the queue does, without the lock with an error, and leaves both indices in the
array. -/
structure Fifo (s : State) (c : LockedCall) : Prop where
  nextRead : (lockedCall maxEmergencies maxMsgLen s c).ring.nextRead < maxEmergencies
  nextWrite : (lockedCall maxEmergencies maxMsgLen s c).ring.nextWrite < maxEmergencies
  fetches : ∀ msg, c = ⟨true, .getNext msg⟩ → Fetches maxMsgLen s msg
  refuses : ∀ msg, c = ⟨false, .getNext msg⟩ →
    (ecCoeEmergencyGetNext maxMsgLen c.lock s.ring msg).1 ≠ .ok

/-- The application asks when there is a message, and it is not in the last slot. -/
def GetOk (s : State) (c : Call) : Prop :=
  ∀ msg, c = .getNext msg →
    s.ring.nextRead ≠ s.ring.nextWrite ∧ s.ring.nextRead + 1 < maxEmergencies

/-- The same of an application that gets the lock. -/
def LockedGetOk (s : State) (c : LockedCall) : Prop := c.lock = true → GetOk maxEmergencies s c.call

end

/-! ## The ring holds the queue -/

section
variable {maxEmergencies maxMsgLen : ℕ} {s : State}

/-- The invariant. -/
structure Inv (maxEmergencies maxMsgLen : ℕ) (s : State) : Prop where
  holds : RingBuffer.Holds (Stored maxMsgLen) maxEmergencies s.ring.emergencies s.ring.nextRead s.pending
  nextWrite : s.ring.nextWrite = RingBuffer.next maxEmergencies s.ring.nextRead s.pending

theorem inv_opened (hpos : 0 < maxEmergencies) (emergencies : ℕ → EmergencyMessage) :
    Inv maxEmergencies maxMsgLen (opened emergencies) := by
  refine ⟨⟨hpos, hpos, fun i hi => ?_⟩, ?_⟩
  · simp [opened] at hi
  · simp [opened, coeInit, RingBuffer.next]

/-- The slot after a `memcpy` into it. -/
theorem stored_received (length : UInt16) (data : ℕ → UInt8) (now : Timer) (old : ℕ → UInt8) :
    Stored maxMsgLen
      { timestamp := now
        msgLen := msgLen maxMsgLen length
        msg := fun i => if i < msgLen maxMsgLen length then data (6 + 2 + i) else old i }
      (received maxMsgLen length data now) := by
  refine ⟨rfl, by simp [received], ?_, fun i hi => ?_⟩
  · simp [received, msgLen]
  · have hlt : i < msgLen maxMsgLen length := by simpa [received] using hi
    simp [received, hlt]

theorem inv_enqueue (h : Inv maxEmergencies maxMsgLen s) (length : UInt16) (data : ℕ → UInt8)
    (now : Timer) :
    Inv maxEmergencies maxMsgLen (call maxEmergencies maxMsgLen s (.enqueue length data now)) := by
  obtain ⟨hholds, hwrite⟩ := h
  obtain ⟨hholds', hwrite'⟩ := hholds.write
    (stored_received length data now (s.ring.emergencies s.ring.nextWrite).msg) rfl
  rw [← hwrite] at hholds' hwrite'
  exact ⟨hholds', hwrite'.symm⟩

theorem pending_ne_nil (h : Inv maxEmergencies maxMsgLen s) :
    s.ring.nextRead ≠ s.ring.nextWrite ↔ s.pending ≠ [] := by
  rw [h.nextWrite, ne_comm, ne_eq, h.holds.next_eq_read]

theorem inv_getNext {msg : EmergencyMessage} (h : Inv maxEmergencies maxMsgLen s)
    (hok : GetOk maxEmergencies s (.getNext msg)) :
    Inv maxEmergencies maxMsgLen (call maxEmergencies maxMsgLen s (.getNext msg)) := by
  obtain ⟨hne, hlt⟩ := hok msg rfl
  have hpending := (pending_ne_nil h).1 hne
  obtain ⟨hholds, hwrite⟩ := h
  have hring : (emergencyGetNext maxMsgLen s.ring msg).2.2 =
      { s.ring with nextRead := s.ring.nextRead + 1 } := by
    rw [emergencyGetNext, if_pos hne.symm]
  rw [call, hring]
  cases hq : s.pending with
  | nil => exact absurd hq hpending
  | cons e q =>
    rw [hq] at hholds hwrite
    obtain ⟨hpop, hsame⟩ := hholds.pop
    rw [Nat.mod_eq_of_lt hlt] at hpop hsame
    exact ⟨hpop, hwrite.trans hsame.symm⟩

theorem inv_call {c : Call} (h : Inv maxEmergencies maxMsgLen s) (hok : GetOk maxEmergencies s c) :
    Inv maxEmergencies maxMsgLen (call maxEmergencies maxMsgLen s c) := by
  cases c with
  | enqueue length data now => exact inv_enqueue h length data now
  | getNext msg => exact inv_getNext h hok

theorem fetches_iff {msg : EmergencyMessage} (h : Inv maxEmergencies maxMsgLen s) :
    Fetches maxMsgLen s msg ↔ s.ring.nextRead ≠ s.ring.nextWrite := by
  unfold Fetches
  rw [pending_ne_nil h]
  cases hq : s.pending with
  | nil =>
    -- the call returns `EC_OK` all the same
    have hok : (emergencyGetNext maxMsgLen s.ring msg).1 = .ok := by
      unfold emergencyGetNext
      split_ifs <;> rfl
    simp [hok]
  | cons e q =>
    have hne : s.ring.nextRead ≠ s.ring.nextWrite := (pending_ne_nil h).2 (by simp [hq])
    have hholds := h.holds
    rw [hq] at hholds
    obtain ⟨htime, -, hle, hmsg⟩ := hholds.head
    refine iff_of_true ?_ (by simp)
    rw [emergencyGetNext, if_pos hne.symm]
    refine ⟨rfl, htime, fun i hi => ?_⟩
    show (if i < maxMsgLen then _ else _) = _
    rw [if_pos (Nat.lt_of_lt_of_le hi hle)]
    exact hmsg i hi

/-- With the lock the calls are those of `call`, without it nothing changes. -/
theorem lockedCall_eq (s : State) (c : LockedCall) :
    lockedCall maxEmergencies maxMsgLen s c =
      if c.lock then call maxEmergencies maxMsgLen s c.call else s := by
  obtain ⟨lock, c⟩ := c
  cases lock <;> cases c <;> rfl

theorem inv_lockedCall {c : LockedCall} (h : Inv maxEmergencies maxMsgLen s)
    (hok : LockedGetOk maxEmergencies s c) :
    Inv maxEmergencies maxMsgLen (lockedCall maxEmergencies maxMsgLen s c) := by
  rw [lockedCall_eq]
  split_ifs with hlock
  · exact inv_call h (hok hlock)
  · exact h

theorem fifo_iff_getOk {c : LockedCall} (h : Inv maxEmergencies maxMsgLen s) :
    Fifo maxEmergencies maxMsgLen s c ↔ LockedGetOk maxEmergencies s c := by
  constructor
  · intro hfifo hlock msg hmsg
    obtain ⟨lock, c⟩ := c
    cases hlock
    cases hmsg
    have hne := (fetches_iff h).1 (hfifo.fetches msg rfl)
    refine ⟨hne, ?_⟩
    have hread := hfifo.nextRead
    rw [lockedCall_eq, if_pos rfl] at hread
    rwa [call, emergencyGetNext, if_pos hne.symm] at hread
  · intro hok
    have hinv := inv_lockedCall h hok
    refine ⟨hinv.holds.read_lt, ?_, ?_, ?_⟩
    · rw [hinv.nextWrite]
      exact hinv.holds.next_lt
    · intro msg hc
      cases hc
      exact (fetches_iff h).2 (hok rfl msg rfl).1
    · intro msg hc
      cases hc
      simp [ecCoeEmergencyGetNext]

/-- **A bounded queue**, in any order of calls, just if nobody asks for what is not there or lies in
the last slot. -/
theorem emergency_fifo_iff (hpos : 0 < maxEmergencies) (emergencies : ℕ → EmergencyMessage)
    (calls : List LockedCall) :
    Runs.RunOk (lockedStep maxEmergencies maxMsgLen) (Fifo maxEmergencies maxMsgLen)
        (opened emergencies) calls ↔
      Runs.RunOk (lockedStep maxEmergencies maxMsgLen) (LockedGetOk maxEmergencies)
        (opened emergencies) calls := by
  refine Runs.runOk_congr (I := Inv maxEmergencies maxMsgLen) (fun s c s' h hok hstep => ?_)
    (fun s c h => fifo_iff_getOk h) (inv_opened hpos emergencies)
  cases hstep
  exact inv_lockedCall h hok

end

/-- A message of 2 bytes is received, and fetched by the second call, which gets the lock. -/
def fetchOne : List LockedCall :=
  [⟨true, .enqueue 4 (fun _ => 7) ⟨1, 0⟩⟩, ⟨false, .getNext ⟨⟨0, 0⟩, 0, fun _ => 0⟩⟩,
    ⟨true, .getNext ⟨⟨0, 0⟩, 0, fun _ => 0⟩⟩]

theorem emergency_fifo_fetchOne :
    Runs.RunOk (lockedStep 10 32) (Fifo 10 32) (opened fun _ => ⟨⟨0, 0⟩, 0, fun _ => 0⟩)
      fetchOne := by
  refine (emergency_fifo_iff (by decide) _ fetchOne).2 ?_
  refine .cons (fun _ msg h => by cases h) rfl (.cons (fun h => by cases h) rfl
    (.cons (fun _ msg _ => ?_) rfl trivial))
  exact ⟨by decide, by decide⟩

/-- Nine messages are received and fetched, and a tenth is received. -/
def nineFetched : List LockedCall :=
  (List.replicate 9 fetchOne).flatten ++ [⟨true, .enqueue 4 (fun _ => 7) ⟨1, 0⟩⟩]

/-- In a ring of ten, the tenth message is in the last slot: the index to read leaves the array. -/
theorem lastSlot_not_fifo :
    ¬ ∀ maxEmergencies maxMsgLen emergencies calls, 0 < maxEmergencies →
      Runs.RunOk (lockedStep maxEmergencies maxMsgLen) (Fifo maxEmergencies maxMsgLen)
        (opened emergencies) calls := by
  intro hall
  have hok := hall 10 32 (fun _ => ⟨⟨0, 0⟩, 0, fun _ => 0⟩)
    (nineFetched ++ [⟨true, .getNext ⟨⟨0, 0⟩, 0, fun _ => 0⟩⟩]) (by decide)
  have hread := (hok.of_append rfl).nextRead
  revert hread
  decide

end LibEthercat.Coe.Emergencies
