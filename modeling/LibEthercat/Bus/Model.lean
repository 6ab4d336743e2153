import Mathlib.Data.Nat.Notation
import Mathlib.Logic.Function.Basic
import LibEthercat.Lib.Runs

/-!
# The senders of a master and the datagrams between them

Indices, pool entries and the two transmit queues, and everybody who moves them: `ec_transceive`
and `get_packet_duration` on any number of threads, the cyclic senders (process data, mailbox
state, distributed clocks, broadcast state), the answer-less datagram of `cb_distributed_clocks`,
`hw_tx_pool`, `hw_process_rx_frame` with its callbacks, and the clean-up in `ec_set_state`.

Each of them is a sequence of steps, cut where another thread can come in between; a run is any
order of all these steps. An action carries what the step reads (the index or the entry it is
about), and `enabled` says when it reads that.

The queues are intrusive lists. They are lists here, so the model follows the code as long as an
entry is put into a queue only when it is in none.
-/

namespace LibEthercat.Bus

/-! ## State -/

/-- An `idx_entry`: there is one for every value of the byte. -/
abbrev Idx := UInt8

/-- The address of a pool entry. -/
abbrev Entry := ℕ

/-- The cyclic datagrams: `cdg`, `cdg_lwr`, `cdg_lrd` and `cdg_lrd_mbx_state` of a group, `dc.cdg`
and `cdg_state`. -/
inductive Cyclic
  | lrw (group : ℕ)
  | lwr (group : ℕ)
  | lrd (group : ℕ)
  | mbxState (group : ℕ)
  | dc
  | brdState
deriving DecidableEq

/-- Who builds and queues a datagram: `ec_transceive` and `get_packet_duration` on some thread,
`cb_distributed_clocks` (the system time offset), and the senders of the cyclic datagrams. -/
inductive Sender
  | transceive (thread : ℕ)
  | duration (thread : ℕ)
  | noReply
  | cyclic (c : Cyclic)
deriving DecidableEq

/-- `user_cb`. The callbacks of the process data and state datagrams do not touch what is modelled
here, `cb_distributed_clocks` builds a datagram. -/
inductive Callback
  | block
  | anon
  | noReply
  | cyclic (c : Cyclic)
deriving DecidableEq

def Sender.callback : Sender → Callback
  | transceive _ => .block
  | duration _ => .anon
  | noReply => .noReply
  | cyclic c => .cyclic c

/-- Where a sender is. -/
inductive Pc
  | idle
  /-- It has an index, `pool_get` is next. -/
  | gotIdx
  | gotEntry
  /-- After the `memset` of the datagram. -/
  | cleared
  /-- The datagram is complete. -/
  | filled
  /-- In `hw_enqueue`, before `pool_put`. -/
  | unsent
  | waiting
  /-- The wait has returned an error, `pool_remove` is next. -/
  | failed
  /-- After `pool_remove`. -/
  | removed
  /-- `pool_put` is next. -/
  | ended
  /-- `ec_index_put` is next. -/
  | entryPut
deriving DecidableEq

/-- What the receiver is doing: for the datagram with index `j` it has found `e`, whose callback
has still to start or to post the waiter; the entry of an answer-less datagram is back in the pool,
its index not yet; it is in `cb_distributed_clocks`. -/
inductive Rx
  | idle
  | called (e : Entry) (j : Idx)
  | posting (e : Entry) (j : Idx)
  | freed (e : Entry)
  | distributedClocks
deriving DecidableEq

/-- A datagram on its way round the bus. -/
structure Datagram where
  idx : Idx
  entry : Entry
deriving DecidableEq

structure State where
  /-- `idx_q` -/
  idxQ : List Idx
  waiter : Idx → Bool
  /-- `pool`, the entries that are free -/
  pool : List Entry
  txHigh : List Entry
  txLow : List Entry
  txSend : Idx → Option Entry
  /-- The `idx` byte of the datagram in an entry. -/
  dgIdx : Entry → Idx
  /-- `p_idx` of an entry. -/
  pIdx : Entry → Option Idx
  userCb : Entry → Option Callback
  pc : Sender → Pc
  /-- `p_idx` of a sender: a local variable, or the field of the cyclic datagram. -/
  idxOf : Sender → Option Idx
  /-- `p_entry` of a sender. -/
  entryOf : Sender → Option Entry
  /-- The entry `hw_tx_pool` has taken out of a queue. -/
  tx : Option Entry
  rx : Rx
  wire : List Datagram

/-- After `ec_open`, with `n` datagrams in the pool. -/
def init (n : ℕ) : State where
  idxQ := (List.range 256).map UInt8.ofNat
  waiter := fun _ => false
  pool := List.range n
  txHigh := []
  txLow := []
  txSend := fun _ => none
  dgIdx := fun _ => 0
  pIdx := fun _ => none
  userCb := fun _ => none
  pc := fun _ => .idle
  idxOf := fun _ => none
  entryOf := fun _ => none
  tx := none
  rx := .idle
  wire := []

/-! ## Steps -/

inductive Action
  /-- `ec_index_get` hands out an index. -/
  | indexGet (c : Sender) (j : Idx)
  /-- A cyclic datagram has its index already. -/
  | indexKeep (c : Cyclic)
  | poolGet (c : Sender) (e : Entry)
  | entryKeep (c : Cyclic)
  /-- The pool is empty: the index goes back. -/
  | poolFail (c : Sender) (j : Idx)
  /-- Nothing is sent: `log_len` is 0, or a datagram of the group before this one has failed. -/
  | skip (c : Cyclic)
  | memset (c : Sender) (e : Entry)
  | fill (c : Sender) (e : Entry) (j : Idx)
  /-- The first half of `hw_enqueue`: whatever is still marked as sent is given up. -/
  | unsend (c : Sender) (e : Entry) (j : Idx)
  /-- `pool_put` into a transmit queue. -/
  | enqueue (c : Sender) (e : Entry)
  | waitOk (c : Sender) (j : Idx)
  | waitFail (c : Sender)
  | poolRemove (t : ℕ) (e : Entry)
  /-- The loop of `ec_transceive` ends; `expired` is the overall timer. -/
  | loopEnd (t : ℕ) (e : Entry) (expired : Bool)
  | poolPut (c : Sender) (e : Entry)
  | indexPut (c : Sender) (j : Idx)
  /-- `ec_set_state` returns the index of a cyclic datagram. -/
  | cleanIdx (c : Cyclic) (j : Idx)
  | cleanEntry (c : Cyclic) (e : Entry)
  /-- `ec_create_pd_groups` initialises a cyclic datagram. -/
  | create (c : Cyclic)
  /-- `hw_tx_pool` takes an entry out of a queue. -/
  | txPop (high : Bool) (e : Entry)
  | txSend (e : Entry)
  /-- There is no transmit buffer. -/
  | txDrop (e : Entry)
  /-- A datagram comes back. -/
  | rxTake (d : Datagram)
  /-- A datagram arrives that this master has not sent, or not now. -/
  | rxForeign (j : Idx)
  | lost (d : Datagram)
  | rxCall (e : Entry) (j : Idx)
  | rxPost (e : Entry) (i j : Idx)
  | rxIndexPut (e : Entry) (j : Idx)
  | rxReturn
deriving DecidableEq

/-- Those that `ec_set_state` returns. -/
def Cyclic.cleanedUp : Cyclic → Bool
  | lrw _ | dc | brdState => true
  | lwr _ | lrd _ | mbxState _ => false

/-- Those that `ec_create_pd_groups` initialises. -/
def Cyclic.initialised : Cyclic → Bool
  | lrw _ | mbxState _ => true
  | lwr _ | lrd _ | dc | brdState => false

/-- Those of a process data group. Their sender has nothing to send if the length is 0, and
forgets the index when it has to put it back. -/
def Cyclic.ofGroup : Cyclic → Bool
  | lrw _ | lwr _ | lrd _ | mbxState _ => true
  | dc | brdState => false

/-- Those that are sent after another one of their group, by the same call and with the same `ret`:
with an error in it they get an index and nothing else. -/
def Cyclic.follows : Cyclic → Bool
  | lrd _ | mbxState _ => true
  | lrw _ | lwr _ | dc | brdState => false

/-- The sender has no index any more once it has put it back because the pool was empty. -/
def Sender.rollsBack : Sender → Bool
  | transceive _ | duration _ | noReply => true
  | cyclic c => c.ofGroup

/-- Senders that wait for the answer. -/
def Sender.waits : Sender → Bool
  | transceive _ | duration _ => true
  | noReply | cyclic _ => false

/-- Senders that queue with `hw_enqueue`; the others use `pool_put`. -/
def Sender.hwEnqueue : Sender → Bool
  | transceive _ | cyclic _ => true
  | duration _ | noReply => false

def Sender.isCyclic : Sender → Bool
  | cyclic _ => true
  | transceive _ | duration _ | noReply => false

/-- The queue a sender uses. -/
def Sender.high : Sender → Bool
  | transceive _ | noReply => false
  | duration _ | cyclic _ => true

/-- Is this the next step, with these values? -/
def enabled (s : State) : Action → Bool
  | .indexGet c j =>
    s.pc c = .idle ∧ s.idxOf c = none ∧ s.idxQ.head? = some j ∧
      (c = .noReply → s.rx = .distributedClocks)
  | .indexKeep c => s.pc (.cyclic c) = .idle ∧ s.idxOf (.cyclic c) ≠ none
  | .poolGet c e => s.pc c = .gotIdx ∧ s.entryOf c = none ∧ s.pool.head? = some e
  | .entryKeep c => s.pc (.cyclic c) = .gotIdx ∧ s.entryOf (.cyclic c) ≠ none
  | .poolFail c j =>
    s.pc c = .gotIdx ∧ s.entryOf c = none ∧ s.pool = [] ∧ s.idxOf c = some j
  | .skip c =>
    (c.ofGroup ∧ s.pc (.cyclic c) = .gotEntry) ∨ (c.follows ∧ s.pc (.cyclic c) = .gotIdx)
  | .memset c e => s.pc c = .gotEntry ∧ s.entryOf c = some e
  | .fill c e j => s.pc c = .cleared ∧ s.entryOf c = some e ∧ s.idxOf c = some j
  | .unsend c e j =>
    c.hwEnqueue ∧ s.pc c = .filled ∧ s.entryOf c = some e ∧ s.pIdx e = some j
  | .enqueue c e =>
    s.pc c = (if c.hwEnqueue then .unsent else .filled) ∧ s.entryOf c = some e
  | .waitOk c j => c.waits ∧ s.pc c = .waiting ∧ s.idxOf c = some j ∧ s.waiter j
  | .waitFail c => c.waits ∧ s.pc c = .waiting
  | .poolRemove t e => s.pc (.transceive t) = .failed ∧ s.entryOf (.transceive t) = some e
  | .loopEnd t e _ => s.pc (.transceive t) = .removed ∧ s.entryOf (.transceive t) = some e
  | .poolPut c e => s.pc c = .ended ∧ s.entryOf c = some e
  | .indexPut c j => s.pc c = .entryPut ∧ s.idxOf c = some j
  | .cleanIdx c j => c.cleanedUp ∧ s.idxOf (.cyclic c) = some j
  | .cleanEntry c e => c.cleanedUp ∧ s.entryOf (.cyclic c) = some e
  | .create c => c.initialised
  | .txPop high e => s.tx = none ∧ (if high then s.txHigh else s.txLow).head? = some e
  | .txSend e => s.tx = some e
  | .txDrop e => s.tx = some e
  | .rxTake d => s.rx = .idle ∧ d ∈ s.wire
  | .rxForeign _ => s.rx = .idle
  | .lost d => d ∈ s.wire
  | .rxCall e j => s.rx = .called e j
  | .rxPost e i j => s.rx = .posting e i ∧ s.pIdx e = some j
  | .rxIndexPut e j => s.rx = .freed e ∧ s.pIdx e = some j
  | .rxReturn => s.rx = .distributedClocks ∧ s.pc .noReply = .idle

open Function (update)

/-- What a callback does first: `cb_block` copies the datagram, with the index it came with,
into the entry; `cb_no_reply` puts the entry back. -/
def rxCall (s : State) (e : Entry) (j : Idx) : State :=
  match s.userCb e with
  | none => { s with rx := .idle }
  | some .block => { s with dgIdx := update s.dgIdx e j, rx := .posting e j }
  | some .anon => { s with rx := .posting e j }
  | some .noReply => { s with pool := s.pool ++ [e], rx := .freed e }
  | some (.cyclic .dc) => { s with rx := .distributedClocks }
  | some (.cyclic _) => { s with rx := .idle }

/-- The receiver takes an entry out of `tx_send`. -/
def rxTake (s : State) (j : Idx) : State :=
  match s.txSend j with
  | none => s
  | some e => { s with txSend := update s.txSend j none, rx := .called e j }

/-- After `pool_put` into a transmit queue a sender waits for the answer or is done. Nobody looks
after the datagram of `cb_distributed_clocks` any more. -/
def afterEnqueue (s : State) (c : Sender) : State :=
  match c with
  | .transceive _ | .duration _ => { s with pc := update s.pc c .waiting }
  | .noReply =>
    { s with
      pc := update s.pc c .idle
      idxOf := update s.idxOf c none
      entryOf := update s.entryOf c none }
  | .cyclic _ => { s with pc := update s.pc c .idle }

/-- What a step does. -/
def effect (s : State) : Action → State
  | .indexGet c j =>
    { s with
      idxQ := s.idxQ.tail
      waiter := update s.waiter j false
      idxOf := update s.idxOf c (some j)
      pc := update s.pc c .gotIdx }
  | .indexKeep c => { s with pc := update s.pc (.cyclic c) .gotIdx }
  | .poolGet c e =>
    { s with
      pool := s.pool.tail
      entryOf := update s.entryOf c (some e)
      -- a cyclic sender sets these at once, the others when the datagram is complete
      pIdx := if c.isCyclic then update s.pIdx e (s.idxOf c) else s.pIdx
      userCb := if c.isCyclic then update s.userCb e (some c.callback) else s.userCb
      pc := update s.pc c .gotEntry }
  | .entryKeep c => { s with pc := update s.pc (.cyclic c) .gotEntry }
  | .poolFail c j =>
    { s with
      idxQ := s.idxQ ++ [j]
      idxOf := if c.rollsBack then update s.idxOf c none else s.idxOf
      pc := update s.pc c .idle }
  | .skip c => { s with pc := update s.pc (.cyclic c) .idle }
  | .memset c e => { s with dgIdx := update s.dgIdx e 0, pc := update s.pc c .cleared }
  | .fill c e j =>
    { s with
      -- `get_packet_duration` writes 0, whatever its index is
      dgIdx := update s.dgIdx e (match c with | .duration _ => 0 | _ => j)
      pIdx := if c.isCyclic then s.pIdx else update s.pIdx e (some j)
      userCb := if c.isCyclic then s.userCb else update s.userCb e (some c.callback)
      pc := update s.pc c .filled }
  | .unsend c _ j => { s with txSend := update s.txSend j none, pc := update s.pc c .unsent }
  | .enqueue c e =>
    afterEnqueue
      (if c.high then { s with txHigh := s.txHigh ++ [e] } else { s with txLow := s.txLow ++ [e] }) c
  | .waitOk c j => { s with waiter := update s.waiter j false, pc := update s.pc c .ended }
  | .waitFail c =>
    { s with pc := update s.pc c (match c with | .transceive _ => .failed | _ => .ended) }
  | .poolRemove t e =>
    { s with txLow := s.txLow.erase e, pc := update s.pc (.transceive t) .removed }
  | .loopEnd t e expired =>
    { s with
      txSend := if expired then update s.txSend (s.dgIdx e) none else s.txSend
      pc := update s.pc (.transceive t) .ended }
  | .poolPut c e =>
    { s with
      pool := s.pool ++ [e]
      entryOf := update s.entryOf c none
      pc := update s.pc c .entryPut }
  | .indexPut c j =>
    { s with
      idxQ := s.idxQ ++ [j]
      idxOf := update s.idxOf c none
      pc := update s.pc c .idle }
  | .cleanIdx c j =>
    { s with
      txSend := update s.txSend j none
      idxQ := s.idxQ ++ [j]
      idxOf := update s.idxOf (.cyclic c) none }
  | .cleanEntry c e =>
    { s with pool := s.pool ++ [e], entryOf := update s.entryOf (.cyclic c) none }
  | .create c =>
    { s with
      idxOf := update s.idxOf (.cyclic c) none
      entryOf := update s.entryOf (.cyclic c) none }
  | .txPop high e =>
    if high then { s with txHigh := s.txHigh.tail, tx := some e }
    else { s with txLow := s.txLow.tail, tx := some e }
  | .txSend e =>
    { s with
      txSend := update s.txSend (s.dgIdx e) (some e)
      wire := s.wire ++ [⟨s.dgIdx e, e⟩]
      tx := none }
  | .txDrop _ => { s with tx := none }
  | .rxTake d => rxTake { s with wire := s.wire.erase d } d.idx
  | .rxForeign j => rxTake s j
  | .lost d => { s with wire := s.wire.erase d }
  | .rxCall e j => rxCall s e j
  | .rxPost _ _ j => { s with waiter := update s.waiter j true, rx := .idle }
  | .rxIndexPut _ j => { s with idxQ := s.idxQ ++ [j], rx := .idle }
  | .rxReturn => { s with rx := .idle }

def step (s : State) (a : Action) : Option State := if enabled s a then some (effect s a) else none

theorem step_eq_some {s s' : State} {a : Action} :
    step s a = some s' ↔ enabled s a = true ∧ s' = effect s a := by
  unfold step
  by_cases h : enabled s a = true
  · simp [h, eq_comm]
  · simp [h]

end LibEthercat.Bus
