import Mathlib.Algebra.GroupWithZero.Nat
import LibEthercat.Lib.Places
import LibEthercat.Lib.Runs

/-!
# Counters of mailbox messages

A client of a slave's mailbox gets a send buffer, has `ec_mbx_next_counter` give it the counter of the
message, writes the message and its header by hand, and puts the buffer into the queue of the slave,
from where the handler writes it to the mailbox and returns it. Any number of clients call the
functions of coe.c, soe.c, foe.c and eoe.c, for any slave, and a run is any order of their steps and
those of the handlers. Here only the instructions that build messages are left of the functions;
`Mbx.Programs` has all that is done with the buffers.

`ec_mbx_next_counter` has no lock of its own, and is called under four locks of a slave: it reads
`seq_counter`, writes it, perhaps writes it again, and reads it again. `ec_foe_read` keeps the pointer
`write_buf` to its request, and writes the counter of an acknowledgement there.

This module has the messages and their buffers: nobody writes to a buffer that he has put into a
queue, just if acknowledgements lie in the buffers of their requests (`noLateWrite_iff`), and then
each message has the four bits of what has been obtained for it. `Mbx.Numbers` has the counters
themselves.
-/

namespace LibEthercat.Mbx.Counters

open Function (update)
open Places Runs

/-! ## Messages -/

/-- An entry of `mbx_mp_send_free_entries`. -/
abbrev Buf := ℕ

inductive Var
  /-- `p_entry`, or `p_entry_send`. -/
  | entry
  /-- `write_buf` of `ec_foe_read`. -/
  | writeBuf
deriving DecidableEq

inductive Instr
  /-- `ec_mbx_get_free_send_buffer`; is it checked that there is one? -/
  | get (checked : Bool)
  | setWriteBuf
  /-- `++seq_counter`: what is found there, and one more. -/
  | loadSeq
  | storeSeq
  /-- 1, if the value was above 7. -/
  | wrapSeq
  /-- What is found there now is the counter. -/
  | fetchSeq
  /-- Anything but `mbx_hdr.counter`. -/
  | write (x : Var)
  | writeCounter (x : Var)
  /-- `ec_mbx_enqueue_head`, or `ec_mbx_enqueue_tail`. -/
  | enqueue (head : Bool)
deriving DecidableEq

/-- The messages of a function: first one, and then others, as long as it goes on. -/
structure Messages where
  first : List Instr
  more : Option (List Instr)

/-- `ec_mbx_next_counter` -/
def nextCounter : List Instr := [.loadSeq, .storeSeq, .wrapSeq, .fetchSeq]

/-- Length and type come before the counter, and what is behind the header comes after it. -/
def message : List Instr :=
  [.get true] ++ nextCounter ++
    [.write .entry, .writeCounter .entry, .write .entry, .enqueue true]

def coeSdoRead : Messages := ⟨message, none⟩

def coeSdoWriteExpedited : Messages := ⟨message, none⟩

/-- The others are segments. -/
def coeSdoWriteNormal : Messages := ⟨message, some message⟩

def coeOdlistRead : Messages := ⟨message, none⟩

def coeSdoDescRead : Messages := ⟨message, none⟩

def coeSdoEntryDescRead : Messages := ⟨message, none⟩

def soeRead : Messages := ⟨message, none⟩

def soeWrite : Messages := ⟨[], some message⟩

/-- The others are acknowledgements. -/
def foeRead : Messages where
  first := [.get true, .setWriteBuf] ++ nextCounter ++
    [.write .writeBuf, .writeCounter .writeBuf, .write .writeBuf, .enqueue true]
  more := some ([.get true] ++ nextCounter ++
    [.write .entry, .writeCounter .writeBuf, .write .entry, .enqueue true])

/-- The data of the file are written before the counter is obtained. -/
def foeWrite : Messages where
  first := message
  more := some ([.get true, .write .entry] ++ nextCounter ++
    [.write .entry, .writeCounter .entry, .write .entry, .enqueue true])

def eoeSetIpParameter : Messages where
  first := [.get true] ++ nextCounter ++
    [.write .entry, .writeCounter .entry, .write .entry, .enqueue false]
  more := none

/-- A fragment begins with `user_cb`. -/
def eoeSendFrame : Messages :=
  let fragment := [.get false, .write .entry] ++ nextCounter ++
    [.write .entry, .writeCounter .entry, .write .entry, .enqueue false]
  ⟨fragment, some fragment⟩

inductive Fn
  | coeSdoRead
  | coeSdoWriteExpedited
  | coeSdoWriteNormal
  | coeOdlistRead
  | coeSdoDescRead
  | coeSdoEntryDescRead
  | soeRead
  | soeWrite
  | foeRead
  | foeWrite
  | eoeSetIpParameter
  | eoeSendFrame
deriving DecidableEq

def Fn.messages : Fn → Messages
  | .coeSdoRead => Counters.coeSdoRead
  | .coeSdoWriteExpedited => Counters.coeSdoWriteExpedited
  | .coeSdoWriteNormal => Counters.coeSdoWriteNormal
  | .coeOdlistRead => Counters.coeOdlistRead
  | .coeSdoDescRead => Counters.coeSdoDescRead
  | .coeSdoEntryDescRead => Counters.coeSdoEntryDescRead
  | .soeRead => Counters.soeRead
  | .soeWrite => Counters.soeWrite
  | .foeRead => Counters.foeRead
  | .foeWrite => Counters.foeWrite
  | .eoeSetIpParameter => Counters.eoeSetIpParameter
  | .eoeSendFrame => Counters.eoeSendFrame

/-! ## Steps -/

inductive Place
  /-- `mbx_message_pool_send_free` -/
  | free
  /-- `message_pool_send_queued` -/
  | queued (slave : ℕ)
  | handler (slave : ℕ)
  | hand (k : ℕ)
deriving DecidableEq

structure Client where
  slave : ℕ
  code : List Instr
  /-- What the function that is called does when it goes on. -/
  more : Option (List Instr)
  entry : Option Buf
  writeBuf : Option Buf
  /-- The value of `++seq_counter`. -/
  incremented : ℕ
  counter : ℕ

def Client.buf (c : Client) : Var → Option Buf
  | .entry => c.entry
  | .writeBuf => c.writeBuf

structure State where
  content : Place → List Buf
  /-- `mbx_hdr.counter` -/
  counter : Buf → ℕ
  /-- What has been obtained for the message in the buffer. -/
  obtained : Buf → Option ℕ
  client : ℕ → Client
  /-- `seq_counter` -/
  seqCounter : ℕ → ℕ
  /-- Who has obtained which counter for a slave, the last one first. -/
  values : ℕ → List (ℕ × ℕ)
  /-- The messages written to the mailbox: their counters, and what has been obtained for them. -/
  mailbox : ℕ → List (ℕ × Option ℕ)

/-- `LEC_MAX_MBX_ENTRIES` buffers, and `ec_mbx_init` has been called for the slaves. -/
def init (cnt : ℕ) : State where
  content
    | .free => List.range cnt
    | _ => []
  counter _ := 0
  obtained _ := none
  client _ := ⟨0, [], none, none, none, 0, 0⟩
  seqCounter _ := 1
  values _ := []
  mailbox _ := []

inductive Action
  | call (k slave : ℕ) (f : Fn)
  | run (k : ℕ)
  /-- The function builds another message. -/
  | more (k : ℕ)
  | leave (k : ℕ)
  /-- The handler takes a message out of the queue. -/
  | take (slave : ℕ)
  /-- `ec_mbx_send` is done, or has failed. -/
  | sent (slave : ℕ) (ok : Bool)
deriving DecidableEq

namespace State

def setClient (s : State) (k : ℕ) (c : Client) : State :=
  { s with client := update s.client k c }

@[simp] theorem setClient_self (s : State) (k : ℕ) (c : Client) :
    (s.setClient k c).client k = c := Function.update_self _ _ _

@[simp] theorem setClient_of_ne (s : State) {k k' : ℕ} (c : Client) (h : k' ≠ k) :
    (s.setClient k c).client k' = s.client k' := Function.update_of_ne h _ _

end State

/-- An instruction of a client; the rest of its code is in `c`. -/
def exec (s : State) (k : ℕ) (c : Client) : Instr → Option State
  | .get checked =>
    match s.content .free with
    | [] =>
      if checked then some (s.setClient k { c with code := [], more := none, entry := none })
      else none
    | b :: _ =>
      some { s.setClient k { c with entry := some b } with
        content := move s.content .free (.hand k) b true
        counter := update s.counter b 0
        obtained := update s.obtained b none }
  | .setWriteBuf => some (s.setClient k { c with writeBuf := c.entry })
  | .loadSeq => some (s.setClient k { c with incremented := s.seqCounter c.slave + 1 })
  | .storeSeq =>
    some { s.setClient k c with seqCounter := update s.seqCounter c.slave c.incremented }
  | .wrapSeq =>
    some { s.setClient k c with
      seqCounter := if c.incremented > 7 then update s.seqCounter c.slave 1 else s.seqCounter }
  | .fetchSeq =>
    let v := s.seqCounter c.slave
    c.entry.map fun b =>
      { s.setClient k { c with counter := v } with
        values := update s.values c.slave ((k, v) :: s.values c.slave)
        obtained := update s.obtained b (some v) }
  | .write x => (c.buf x).map fun _ => s.setClient k c
  | .writeCounter x =>
    (c.buf x).map fun b =>
      -- four bits
      { s.setClient k c with counter := update s.counter b (c.counter % 2 ^ 4) }
  | .enqueue head =>
    c.entry.map fun b =>
      { s.setClient k c with content := move s.content (.hand k) (.queued c.slave) b head }

def step (s : State) : Action → Option State
  | .call k slave f =>
    match (s.client k).code, (s.client k).more with
    | [], none =>
      some (s.setClient k { s.client k with
        slave := slave, code := f.messages.first, more := f.messages.more })
    | _, _ => none
  | .run k =>
    match (s.client k).code with
    | [] => none
    | i :: code => exec s k { s.client k with code := code } i
  | .more k =>
    match (s.client k).code, (s.client k).more with
    | [], some code => some (s.setClient k { s.client k with code := code })
    | _, _ => none
  | .leave k =>
    match (s.client k).code with
    | [] => some (s.setClient k { s.client k with more := none })
    | _ :: _ => none
  | .take slave =>
    match s.content (.queued slave), s.content (.handler slave) with
    | b :: _, [] =>
      some { s with content := move s.content (.queued slave) (.handler slave) b true }
    | _, _ => none
  | .sent slave ok =>
    match s.content (.handler slave) with
    | [] => none
    | b :: _ =>
      if ok then
        some { s with
          content := move s.content (.handler slave) .free b false
          mailbox := update s.mailbox slave ((s.counter b, s.obtained b) :: s.mailbox slave) }
      else some { s with content := move s.content (.handler slave) (.queued slave) b true }

/-! ## What the clients owe the slaves -/

/-- What the next instruction writes to. -/
def written : List Instr → List Var
  | .write x :: _ | .writeCounter x :: _ => [x]
  | _ => []

/-- What a client writes to is still in its hand. -/
def NoLateWrite (s : State) : Action → Prop
  | .run k =>
    ∀ x ∈ written (s.client k).code, ∀ b ∈ (s.client k).buf x, b ∈ s.content (.hand k)
  | _ => True

/-- When `ec_foe_read` writes through `write_buf`, that is the buffer it has got last: an
acknowledgement is in the same buffer as the request. -/
def AckOk (s : State) : Action → Prop
  | .run k =>
    .writeBuf ∈ written (s.client k).code →
      ∀ b ∈ (s.client k).writeBuf, (s.client k).entry = some b
  | _ => True

instance (s : State) : ∀ a, Decidable (AckOk s a)
  | .run k => inferInstanceAs (Decidable (.writeBuf ∈ written (s.client k).code →
      ∀ b ∈ (s.client k).writeBuf, (s.client k).entry = some b))
  | .call _ _ _ | .more _ | .leave _ | .take _ | .sent _ _ => .isTrue trivial

/-! ## What is known of a message while it is built -/

inductive Stage
  | empty
  | got
  | loaded
  | stored
  | wrapped
  | counted
  | stamped
deriving DecidableEq

def Stage.next : Stage → Instr → Option Stage
  | .empty, .get _ => some .got
  | .got, .setWriteBuf => some .got
  | .got, .loadSeq => some .loaded
  | .loaded, .storeSeq => some .stored
  | .stored, .wrapSeq => some .wrapped
  | .wrapped, .fetchSeq => some .counted
  | .counted, .writeCounter _ => some .stamped
  | .stamped, .enqueue _ => some .empty
  | .empty, .write _ | .loaded, .write _ | .stored, .write _ | .wrapped, .write _ => none
  | st, .write _ => some st
  | _, _ => none

/-- From here on, messages are built from their buffer to the queue. -/
def Stage.Builds : Stage → List Instr → Prop
  | st, [] => st = .empty
  | st, i :: code => ∃ st', st.next i = some st' ∧ st'.Builds code

instance Stage.decidableBuilds : ∀ st code, Decidable (Stage.Builds st code)
  | st, [] => inferInstanceAs (Decidable (st = .empty))
  | st, i :: code =>
    match hnext : st.next i with
    | none => .isFalse fun ⟨_, h, _⟩ => by cases hnext.symm.trans h
    | some st' =>
      have := Stage.decidableBuilds st' code
      decidable_of_iff (st'.Builds code)
        ⟨fun h => ⟨st', hnext, h⟩, fun ⟨_, h, hb⟩ => Option.some.inj (hnext.symm.trans h) ▸ hb⟩

/-- Every function builds its messages so. -/
theorem builds_messages (f : Fn) : Stage.empty.Builds f.messages.first ∧
    ∀ code ∈ f.messages.more, Stage.empty.Builds code := by
  cases f <;> decide

/-- The client has one buffer, and it has this property. -/
def State.Has (s : State) (k : ℕ) (P : Buf → Prop) : Prop :=
  ∃ b, (s.client k).entry = some b ∧ s.content (.hand k) = [b] ∧ P b

/-- A message has the lower four bits of what has been obtained for it. -/
def Stamped (counter : ℕ) (obtained : Option ℕ) : Prop := ∃ v, obtained = some v ∧ counter = v % 2 ^ 4

def State.At (s : State) (k : ℕ) : Stage → Prop
  | .empty => s.content (.hand k) = []
  | .got | .loaded | .stored | .wrapped => s.Has k fun _ => True
  | .counted => s.Has k fun b => s.obtained b = some (s.client k).counter
  | .stamped => s.Has k fun b => Stamped (s.counter b) (s.obtained b)

/-- A stage that is not the first one. -/
theorem State.At.has {s : State} {k : ℕ} {st : Stage} (h : s.At k st) (hst : st ≠ .empty) :
    s.Has k fun _ => True := by
  cases st with
  | empty => exact absurd rfl hst
  | got | loaded | stored | wrapped => exact h
  | counted | stamped =>
    obtain ⟨b, hb, hhand, -⟩ := h
    exact ⟨b, hb, hhand, trivial⟩

/-- What a client knows does not depend on what is done elsewhere. -/
theorem State.At.congr {s s' : State} {k : ℕ} {st : Stage} (h : s.At k st)
    (hentry : (s'.client k).entry = (s.client k).entry)
    (hcounter : (s'.client k).counter = (s.client k).counter)
    (hhand : s'.content (.hand k) = s.content (.hand k))
    (hsame : ∀ b ∈ s.content (.hand k), s'.counter b = s.counter b ∧ s'.obtained b = s.obtained b) :
    s'.At k st := by
  have has : ∀ {P Q : Buf → Prop}, (∀ b ∈ s.content (.hand k), P b → Q b) → s.Has k P →
      s'.Has k Q := by
    rintro P Q hPQ ⟨b, hb, hcontent, hP⟩
    exact ⟨b, by rw [hentry, hb], by rw [hhand, hcontent], hPQ b (by simp [hcontent]) hP⟩
  cases st with
  | empty => exact hhand.trans h
  | got | loaded | stored | wrapped => exact has (fun _ _ _ => trivial) h
  | counted =>
    refine has (fun b hb hP => ?_) h
    rw [(hsame b hb).2, hcounter]
    exact hP
  | stamped =>
    refine has (fun b hb hP => ?_) h
    rw [(hsame b hb).1, (hsame b hb).2]
    exact hP

/-- **Invariant.** A buffer is in one place; a client has the one whose message it builds, and a
message that is queued has its counter. -/
structure Inv (cnt : ℕ) (s : State) : Prop where
  placed : Placed (· < cnt) s.content
  building : ∀ k, ∃ st : Stage, st.Builds (s.client k).code ∧ s.At k st
  more : ∀ k, ∀ code ∈ (s.client k).more, Stage.empty.Builds code
  queued : ∀ n, ∀ b ∈ s.content (.queued n), Stamped (s.counter b) (s.obtained b)
  handled : ∀ n, ∀ b ∈ s.content (.handler n), Stamped (s.counter b) (s.obtained b)
  carried : ∀ n, ∀ m ∈ s.mailbox n, Stamped m.1 m.2

theorem inv_init (cnt : ℕ) : Inv cnt (init cnt) where
  placed := by
    refine ⟨fun l => ?_, fun b hb => ⟨.free, List.mem_range.2 hb⟩, fun l b hb => ?_,
      fun l l' b hl hl' => ?_⟩
    · cases l with
      | free => exact List.nodup_range
      | queued _ | handler _ | hand _ => exact List.nodup_nil
    · cases l with
      | free => exact List.mem_range.1 hb
      | queued _ | handler _ | hand _ => cases hb
    · cases l <;> cases l' <;> first | rfl | cases hl | cases hl'
  building _ := ⟨.empty, rfl, rfl⟩
  more _ _ h := by cases h
  queued _ _ h := by cases h
  handled _ _ h := by cases h
  carried _ _ h := by cases h

/-! ## Steps of a client -/

section
variable {cnt k : ℕ} {s s' : State} {code : List Instr}

/-- What remains to be seen of a step of a client: its own part, and what it adds to the queue. -/
theorem Inv.client_step (h : Inv cnt s) (hplaced : Placed (· < cnt) s'.content)
    (hclient : ∀ k' ≠ k, s'.client k' = s.client k')
    (hhand : ∀ k' ≠ k, s'.content (.hand k') = s.content (.hand k'))
    (hhandler : ∀ n, s'.content (.handler n) = s.content (.handler n))
    (hsame : ∀ l, l ≠ .free → l ≠ .hand k → ∀ b ∈ s.content l,
      s'.counter b = s.counter b ∧ s'.obtained b = s.obtained b)
    (hbuilding : ∃ st : Stage, st.Builds (s'.client k).code ∧ s'.At k st)
    (hmore : ∀ code ∈ (s'.client k).more, Stage.empty.Builds code)
    (hqueued : ∀ n, ∀ b ∈ s'.content (.queued n),
      b ∈ s.content (.queued n) ∨ Stamped (s'.counter b) (s'.obtained b))
    (hmailbox : s'.mailbox = s.mailbox) : Inv cnt s' where
  placed := hplaced
  building k' := by
    by_cases hk : k' = k
    · rw [hk]
      exact hbuilding
    · obtain ⟨st, hbuilds, hat⟩ := h.building k'
      refine ⟨st, by rwa [hclient k' hk], hat.congr ?_ ?_ (hhand k' hk) ?_⟩
      · rw [hclient k' hk]
      · rw [hclient k' hk]
      · exact hsame _ (by simp) (by simpa using hk)
  more k' := by
    by_cases hk : k' = k
    · rw [hk]
      exact hmore
    · rw [hclient k' hk]
      exact h.more k'
  queued n b hb := by
    obtain hb | hb := hqueued n b hb
    · obtain ⟨hcounter, hobtained⟩ := hsame _ (by simp) (by simp) b hb
      rw [hcounter, hobtained]
      exact h.queued n b hb
    · exact hb
  handled n b hb := by
    rw [hhandler] at hb
    obtain ⟨hcounter, hobtained⟩ := hsame _ (by simp) (by simp) b hb
    rw [hcounter, hobtained]
    exact h.handled n b hb
  carried := by
    rw [hmailbox]
    exact h.carried

/-- The client moves nothing, and writes to its own buffer at most. -/
theorem Inv.client_writes (h : Inv cnt s) (hcontent : s'.content = s.content)
    (hclient : ∀ k' ≠ k, s'.client k' = s.client k')
    (hsame : ∀ b, b ∉ s.content (.hand k) →
      s'.counter b = s.counter b ∧ s'.obtained b = s.obtained b)
    (hbuilding : ∃ st : Stage, st.Builds (s'.client k).code ∧ s'.At k st)
    (hmore : ∀ code ∈ (s'.client k).more, Stage.empty.Builds code)
    (hmailbox : s'.mailbox = s.mailbox) : Inv cnt s' := by
  refine h.client_step (by rw [hcontent]; exact h.placed) hclient (fun _ _ => by rw [hcontent])
    (fun _ => by rw [hcontent]) (fun l _ hl b hb => hsame b fun hhand => ?_) hbuilding hmore
    (fun n b hb => Or.inl (by rwa [hcontent] at hb)) hmailbox
  exact hl (h.placed.alone l _ b hb hhand)

/-- The client does something that has to do with no buffer. -/
theorem Inv.setClient (h : Inv cnt s) {c : Client} {st : Stage} (hbuilds : st.Builds c.code)
    (hat : (s.setClient k c).At k st) (hmore : ∀ code ∈ c.more, Stage.empty.Builds code) :
    Inv cnt (s.setClient k c) :=
  h.client_writes (k := k) rfl (fun _ hk => State.setClient_of_ne s c hk) (fun _ _ => ⟨rfl, rfl⟩)
    ⟨st, by rwa [State.setClient_self], hat⟩ (by rwa [State.setClient_self]) rfl

/-- Through the other pointer, a client writes to the buffer it has got last anyway. -/
theorem ackOk_run : AckOk s (.run k) ↔
    ∀ x ∈ written (s.client k).code, ∀ b ∈ (s.client k).buf x, (s.client k).entry = some b := by
  refine ⟨fun h x hx b hb => ?_, fun h hx b hb => h .writeBuf hx b hb⟩
  cases x with
  | entry => exact hb
  | writeBuf => exact h hx b hb

theorem Inv.get (h : Inv cnt s) {checked : Bool} (hat : s.At k .empty)
    (hbuilds : Stage.got.Builds code)
    (hexec : exec s k { s.client k with code := code } (.get checked) = some s') : Inv cnt s' := by
  cases hfree : s.content .free with
  | nil =>
    simp only [exec, hfree, Option.ite_none_right_eq_some, Option.some.injEq] at hexec
    obtain ⟨-, rfl⟩ := hexec
    exact h.setClient (show Stage.empty.Builds _ from rfl) hat (by simp)
  | cons b bs =>
    have hb : b ∈ s.content .free := by simp [hfree]
    simp only [exec, hfree, Option.some.injEq] at hexec
    subst hexec
    have hhand : move s.content .free (.hand k) b true (.hand k) = [b] := by
      rw [move_to]
      show b :: s.content (.hand k) = [b]
      rw [hat]
    have hmoved : ∀ l, l ≠ .free → l ≠ .hand k →
        move s.content .free (.hand k) b true l = s.content l := fun l hl hl' => move_of_ne hl hl'
    refine h.client_step (k := k) (h.placed.move (by simp) hb) (fun k' hk => ?_)
      (fun k' hk => hmoved (.hand k') (by simp) (by simpa using hk))
      (fun n => hmoved (.handler n) (by simp) (by simp)) (fun l hl _ b' hb' => ?_)
      ⟨.got, ?_, b, ?_, hhand, trivial⟩ ?_ (fun n b' hb' => Or.inl ?_) rfl
    · exact State.setClient_of_ne s _ hk
    · have hne : b' ≠ b := fun heq => hl (h.placed.alone l _ b' hb' (heq ▸ hb))
      exact ⟨Function.update_of_ne hne _ _, Function.update_of_ne hne _ _⟩
    · rwa [State.setClient_self]
    · rw [State.setClient_self]
    · rw [State.setClient_self]
      exact h.more k
    · rwa [← hmoved (.queued n) (by simp) (by simp)]

/-- `seq_counter` has to do with no buffer. -/
theorem Inv.setSeq (h : Inv cnt s) {c : Client} {seqCounter : ℕ → ℕ} {st : Stage}
    (hbuilds : st.Builds c.code) (hat : (s.setClient k c).At k st)
    (hmore : ∀ code ∈ c.more, Stage.empty.Builds code) :
    Inv cnt { s.setClient k c with seqCounter := seqCounter } :=
  h.client_writes (k := k) rfl (fun _ hk => State.setClient_of_ne s c hk) (fun _ _ => ⟨rfl, rfl⟩)
    ⟨st, by rwa [State.setClient_self], hat.congr rfl rfl rfl fun _ _ => ⟨rfl, rfl⟩⟩
    (by rwa [State.setClient_self]) rfl

theorem Inv.fetchSeq (h : Inv cnt s) (hat : s.At k .wrapped) (hbuilds : Stage.counted.Builds code)
    (hexec : exec s k { s.client k with code := code } .fetchSeq = some s') : Inv cnt s' := by
  obtain ⟨b, hentry, hhand, -⟩ := hat
  simp only [exec, hentry, Option.map_some, Option.some.injEq] at hexec
  subst hexec
  refine h.client_writes (k := k) rfl (fun k' hk => State.setClient_of_ne s _ hk)
    (fun b' hb' => ⟨rfl, Function.update_of_ne ?_ _ _⟩) ⟨.counted, ?_, b, ?_, hhand, ?_⟩ ?_ rfl
  · rintro rfl
    exact hb' (by simp [hhand])
  · rwa [State.setClient_self]
  · rw [State.setClient_self]
  · rw [State.setClient_self]
    exact Function.update_self _ _ _
  · rw [State.setClient_self]
    exact h.more k

/-- The pointer through which the counter is written is to the buffer in the hand. -/
theorem Inv.writeCounter (h : Inv cnt s) {x : Var} (hat : s.At k .counted)
    (hbuilds : Stage.stamped.Builds code)
    (hown : ∀ b ∈ (s.client k).buf x, (s.client k).entry = some b)
    (hexec : exec s k { s.client k with code := code } (.writeCounter x) = some s') :
    Inv cnt s' := by
  obtain ⟨b, hentry, hhand, hobtained⟩ := hat
  obtain ⟨b', hb', rfl⟩ := Option.map_eq_some_iff.1 hexec
  have hbuf : (s.client k).buf x = some b' := by
    cases x <;> exact hb'
  obtain rfl : b = b' := Option.some.inj (hentry.symm.trans (hown b' hbuf))
  refine h.client_writes (k := k) rfl (fun k' hk => State.setClient_of_ne s _ hk)
    (fun b' hne => ⟨Function.update_of_ne ?_ _ _, rfl⟩) ⟨.stamped, ?_, b, ?_, hhand, ?_⟩ ?_ rfl
  · rintro rfl
    exact hne (by simp [hhand])
  · rwa [State.setClient_self]
  · rw [State.setClient_self, hentry]
  · exact ⟨_, hobtained, Function.update_self _ _ _⟩
  · rw [State.setClient_self]
    exact h.more k

theorem Inv.enqueue (h : Inv cnt s) {head : Bool} (hat : s.At k .stamped)
    (hbuilds : Stage.empty.Builds code)
    (hexec : exec s k { s.client k with code := code } (.enqueue head) = some s') : Inv cnt s' := by
  obtain ⟨b, hentry, hhand, hobtained⟩ := hat
  simp only [exec, hentry, Option.map_some, Option.some.injEq] at hexec
  subst hexec
  have hb : b ∈ s.content (.hand k) := by simp [hhand]
  have hmoved : ∀ l, l ≠ .hand k → l ≠ .queued (s.client k).slave →
      move s.content (.hand k) (.queued (s.client k).slave) b head l = s.content l :=
    fun l hl hl' => move_of_ne hl hl'
  refine h.client_step (k := k) (h.placed.move (by simp) hb)
    (fun k' hk => State.setClient_of_ne s _ hk)
    (fun k' hk => hmoved (.hand k') (by simpa using hk) (by simp))
    (fun n => hmoved (.handler n) (by simp) (by simp)) (fun _ _ _ _ _ => ⟨rfl, rfl⟩)
    ⟨.empty, ?_, ?_⟩ ?_ (fun n b' hb' => ?_) rfl
  · rwa [State.setClient_self]
  · show move s.content (.hand k) (.queued (s.client k).slave) b head (.hand k) = []
    rw [move_from (by simp), hhand]
    simp
  · rw [State.setClient_self]
    exact h.more k
  · rw [h.placed.mem_move (by simp) hb] at hb'
    split_ifs at hb' with heq
    · rw [heq]
      exact Or.inr hobtained
    · exact Or.inl hb'

/-- **A step of a client.** -/
theorem inv_run (h : Inv cnt s) (hok : AckOk s (.run k)) (hstep : step s (.run k) = some s') :
    Inv cnt s' := by
  obtain ⟨st, hbuilds, hat⟩ := h.building k
  cases hcode : (s.client k).code with
  | nil => simp [step, hcode] at hstep
  | cons i code =>
    simp only [step, hcode] at hstep
    rw [hcode] at hbuilds
    obtain ⟨st', hnext, hbuilds⟩ := hbuilds
    have hown := ackOk_run.1 hok
    rw [hcode] at hown
    cases i with
    | get checked =>
      cases st <;> cases hnext
      exact h.get hat hbuilds hstep
    | setWriteBuf =>
      cases st <;> cases hnext
      cases hstep
      refine h.setClient hbuilds ?_ (h.more k)
      exact hat.congr (by simp) (by simp) rfl fun _ _ => ⟨rfl, rfl⟩
    | loadSeq =>
      cases st <;> cases hnext
      cases hstep
      refine h.setClient hbuilds ?_ (h.more k)
      exact hat.congr (by simp) (by simp) rfl fun _ _ => ⟨rfl, rfl⟩
    | storeSeq | wrapSeq =>
      cases st <;> cases hnext
      cases hstep
      refine h.setSeq hbuilds ?_ (h.more k)
      exact hat.congr (by simp) (by simp) rfl fun _ _ => ⟨rfl, rfl⟩
    | fetchSeq =>
      cases st <;> cases hnext
      exact h.fetchSeq hat hbuilds hstep
    | write x =>
      obtain ⟨b, -, rfl⟩ := Option.map_eq_some_iff.1 hstep
      have hst : st' = st := by
        cases st <;> cases hnext <;> rfl
      subst hst
      refine h.setClient hbuilds ?_ (h.more k)
      exact hat.congr (by simp) (by simp) rfl fun _ _ => ⟨rfl, rfl⟩
    | writeCounter x =>
      cases st <;> cases hnext
      exact h.writeCounter hat hbuilds (hown x (by simp [written])) hstep
    | enqueue head =>
      cases st <;> cases hnext
      exact h.enqueue hat hbuilds hstep

end

/-! ## Runs -/

section
variable {cnt : ℕ} {s s' : State}

/-- A buffer goes from one place to another, neither of them the hand of a client. -/
theorem Inv.move (h : Inv cnt s) {l l' : Place} {b : Buf} {head : Bool} (hne : l ≠ l')
    (hl : ∀ k, l ≠ .hand k) (hl' : ∀ k, l' ≠ .hand k) (hb : b ∈ s.content l)
    (hcarried : Stamped (s.counter b) (s.obtained b)) :
    Inv cnt { s with content := Places.move s.content l l' b head } where
  placed := h.placed.move hne hb
  building k := by
    obtain ⟨st, hbuilds, hat⟩ := h.building k
    exact ⟨st, hbuilds, hat.congr rfl rfl (move_of_ne (hl k).symm (hl' k).symm)
      fun _ _ => ⟨rfl, rfl⟩⟩
  more := h.more
  queued n b' hb' := by
    rw [h.placed.mem_move hne hb] at hb'
    split_ifs at hb' with heq
    · exact heq ▸ hcarried
    · exact h.queued n b' hb'
  handled n b' hb' := by
    rw [h.placed.mem_move hne hb] at hb'
    split_ifs at hb' with heq
    · exact heq ▸ hcarried
    · exact h.handled n b' hb'
  carried := h.carried

theorem Inv.mailbox (h : Inv cnt s) {n : ℕ} {m : ℕ × Option ℕ} (hm : Stamped m.1 m.2) :
    Inv cnt { s with mailbox := update s.mailbox n (m :: s.mailbox n) } where
  placed := h.placed
  building k := by
    obtain ⟨st, hbuilds, hat⟩ := h.building k
    exact ⟨st, hbuilds, hat.congr rfl rfl rfl fun _ _ => ⟨rfl, rfl⟩⟩
  more := h.more
  queued := h.queued
  handled := h.handled
  carried n' m' hm' := by
    by_cases hn : n' = n
    · subst hn
      simp only [Function.update_self, List.mem_cons] at hm'
      obtain rfl | hm' := hm'
      · exact hm
      · exact h.carried n' m' hm'
    · simp only [Function.update_of_ne hn] at hm'
      exact h.carried n' m' hm'

theorem inv_sent (h : Inv cnt s) {n : ℕ} {ok : Bool} (hstep : step s (.sent n ok) = some s') :
    Inv cnt s' := by
  cases hhandler : s.content (.handler n) with
  | nil => simp [step, hhandler] at hstep
  | cons b bs =>
    have hb : b ∈ s.content (.handler n) := by simp [hhandler]
    have hcarried := h.handled n b hb
    simp only [step, hhandler] at hstep
    split_ifs at hstep with hok
    · cases hstep
      exact (h.move (by simp) (by simp) (by simp) hb hcarried).mailbox hcarried
    · cases hstep
      exact h.move (by simp) (by simp) (by simp) hb hcarried

theorem At.of_nil {s : State} {k : ℕ} {st : Stage} (hcode : (s.client k).code = [])
    (hbuilds : st.Builds (s.client k).code) (hat : s.At k st) : s.content (.hand k) = [] := by
  rw [hcode] at hbuilds
  obtain rfl : st = .empty := hbuilds
  exact hat

/-- A client between two messages. -/
theorem Inv.between (h : Inv cnt s) {k : ℕ} {c : Client} (hcode : (s.client k).code = [])
    (hbuilds : Stage.empty.Builds c.code) (hmore : ∀ code ∈ c.more, Stage.empty.Builds code) :
    Inv cnt (s.setClient k c) := by
  obtain ⟨st, hst, hat⟩ := h.building k
  have hhand : s.content (.hand k) = [] := At.of_nil hcode hst hat
  exact h.setClient hbuilds hhand hmore

/-- **Every step.** -/
theorem inv_step (s : State) (a : Action) (s' : State) (h : Inv cnt s) (hok : AckOk s a)
    (hstep : step s a = some s') : Inv cnt s' := by
  cases a with
  | call k slave f =>
    simp only [step] at hstep
    split at hstep
    · rename_i hcode _
      cases hstep
      exact h.between hcode (builds_messages f).1 (builds_messages f).2
    · cases hstep
  | run k => exact inv_run h hok hstep
  | more k =>
    simp only [step] at hstep
    split at hstep
    · rename_i code hcode hmore
      cases hstep
      exact h.between hcode (h.more k code hmore) (h.more k)
    · cases hstep
  | leave k =>
    simp only [step] at hstep
    split at hstep
    · rename_i hcode
      cases hstep
      exact h.between hcode (by rw [hcode]; rfl) (by simp)
    · cases hstep
  | take n =>
    simp only [step] at hstep
    split at hstep
    · rename_i b bs hqueued _
      cases hstep
      have hb : b ∈ s.content (.queued n) := by simp [hqueued]
      exact h.move (by simp) (by simp) (by simp) hb (h.queued n b hb)
    · cases hstep
  | sent n ok => exact inv_sent h hstep

/-- Under the invariant, who writes to the buffer he has got last writes to what is in his hand. -/
theorem noLateWrite_iff (s : State) (a : Action) (h : Inv cnt s) : NoLateWrite s a ↔ AckOk s a := by
  cases a with
  | run k =>
    rw [ackOk_run]
    refine forall₂_congr fun x hx => forall₂_congr fun b _ => ?_
    obtain ⟨st, hbuilds, hat⟩ := h.building k
    have hst : st ≠ .empty := by
      rintro rfl
      cases hcode : (s.client k).code with
      | nil => simp [hcode, written] at hx
      | cons i code =>
        rw [hcode] at hbuilds hx
        obtain ⟨st', hnext, -⟩ := hbuilds
        cases i with
        | get _ => simp [written] at hx
        | _ => cases hnext
    obtain ⟨own, hentry, hhand, -⟩ := hat.has hst
    rw [hhand, hentry, List.mem_singleton, Option.some_inj, eq_comm]
  | call _ _ _ | more _ | leave _ | take _ | sent _ _ => exact Iff.rfl

end

end LibEthercat.Mbx.Counters
