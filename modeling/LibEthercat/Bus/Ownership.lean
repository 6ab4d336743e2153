import LibEthercat.Bus.Model
import LibEthercat.Lib.Custody

/-!
# Who owns an index and an entry

What the steps of all senders keep together, as long as none of them gives back something that is
still referred to. An owner is assigned to every index and to every entry; with that, nobody has
what somebody else has (`Owners`). Every reference to an entry, be it in a queue, in `tx_send` or
in the receiver, goes with an index that belongs to the same owner (`Inv.uses`).

* `Inv.fewer` — a step that makes no new reference.
* `Inv.index_unique` — two entries that are referred to with one index are the same entry.
-/

namespace LibEthercat.Bus

open Function (update)
open Custodian (Owner Custody)

/-! ## References -/

/-- In a transmit queue, or just taken out of it. -/
def Queued (s : State) (e : Entry) : Prop := e ∈ s.txHigh ∨ e ∈ s.txLow ∨ s.tx = some e

instance (s : State) (e : Entry) : Decidable (Queued s e) :=
  inferInstanceAs (Decidable (_ ∨ _ ∨ _))

/-- The entry in the hands of the receiver, and the index that led to it. -/
def Rx.use : Rx → Option (Entry × Idx)
  | called e j | posting e j => some (e, j)
  | idle | freed _ | distributedClocks => none

/-- The entry is referred to, with this index; if `late`, also by a datagram on the bus. -/
inductive Uses (late : Bool) (s : State) (e : Entry) : Idx → Prop
  | queued : Queued s e → Uses late s e (s.dgIdx e)
  | sent {j : Idx} : s.txSend j = some e → Uses late s e j
  | rx {j : Idx} : s.rx.use = some (e, j) → Uses late s e j
  | wire {j : Idx} : late = true → ⟨j, e⟩ ∈ s.wire → Uses late s e j

/-- No reference is in `s'` that was not in `s`. -/
structure Fewer (s s' : State) : Prop where
  high : s'.txHigh.Sublist s.txHigh
  low : s'.txLow.Sublist s.txLow
  tx : ∀ e, s'.tx = some e → s.tx = some e
  sent : ∀ j e, s'.txSend j = some e → s.txSend j = some e
  rx : ∀ e j, s'.rx.use = some (e, j) → s.rx.use = some (e, j)
  wire : s'.wire.Sublist s.wire

theorem Fewer.queued {s s' : State} (h : Fewer s s') {e : Entry} (he : Queued s' e) :
    Queued s e := by
  rcases he with he | he | he
  · exact Or.inl (h.high.subset he)
  · exact Or.inr (Or.inl (h.low.subset he))
  · exact Or.inr (Or.inr (h.tx e he))

theorem Fewer.used {late : Bool} {s s' : State} (h : Fewer s s') {e : Entry} {j : Idx}
    (he : Uses late s' e j) : ∃ k, Uses late s e k := by
  cases he with
  | queued he => exact ⟨_, Uses.queued (h.queued he)⟩
  | sent he => exact ⟨_, Uses.sent (h.sent _ e he)⟩
  | rx he => exact ⟨_, Uses.rx (h.rx e _ he)⟩
  | wire hl he => exact ⟨_, Uses.wire hl (h.wire.subset he)⟩

/-- A datagram that is queued keeps its index. -/
theorem Fewer.uses {late : Bool} {s s' : State} (h : Fewer s s')
    (hdg : ∀ e, Queued s' e → s'.dgIdx e = s.dgIdx e) {e : Entry} {j : Idx}
    (he : Uses late s' e j) : Uses late s e j := by
  cases he with
  | queued he =>
    rw [hdg e he]
    exact Uses.queued (h.queued he)
  | sent he => exact Uses.sent (h.sent j e he)
  | rx he => exact Uses.rx (h.rx e j he)
  | wire hl he => exact Uses.wire hl (h.wire.subset he)

/-! ## Owners -/

/-- Owners of indices other than the senders: a datagram that nobody looks after, the receiver
that has put back such an entry and has still to put back the index, and nobody. -/
inductive IdxTrust
  | entry (e : Entry)
  | receiver
  | lost

abbrev IdxOwner := Owner Sender IdxTrust

/-- An entry that is in use without a sender is on its own. -/
abbrev EntryOwner := Owner Sender Unit

/-- The entry and the index belong together: to a sender that has both, or to nobody. -/
structure Owns (s : State) (io : Idx → IdxOwner) (eo : Entry → EntryOwner) (e : Entry) (j : Idx) :
    Prop where
  pIdx : s.pIdx e = some j
  owner : (∃ c, c ≠ .noReply ∧ eo e = .holder c ∧ io j = .holder c ∧ s.userCb e = some c.callback) ∨
    (eo e = .other () ∧ io j = .other (.entry e))

/-- Senders without an entry: those that have not got one yet, or have put it back. -/
def Sender.noEntry (c : Sender) : Pc → Bool
  | .entryPut => true
  | .idle | .gotIdx => !c.isCyclic
  | _ => false

/-- Everybody has what belongs to him. -/
structure Owners (s : State) (io : Idx → IdxOwner) (eo : Entry → EntryOwner) : Prop where
  idx : Custody s.idxQ s.idxOf io
  entry : Custody s.pool s.entryOf eo
  noEntry : ∀ c, c.noEntry (s.pc c) = true → s.entryOf c = none
  freed : ∀ e, s.rx = .freed e →
    ∃ j, s.pIdx e = some j ∧ io j = .other .receiver ∧ eo e = .free

/-! ## Senders and places -/

/-- `p_idx` and `user_cb` of the entry have not been set yet. -/
def Pc.unset : Pc → Bool
  | gotEntry | cleared => true
  | _ => false

/-- The datagram is complete, but not queued yet. -/
def Pc.complete : Pc → Bool
  | filled | unsent => true
  | _ => false

/-- The datagram has its index. -/
def Pc.indexed : Pc → Bool
  | filled | unsent | waiting | failed | removed | ended => true
  | _ => false

/-- What a sender knows about its entry. -/
structure SenderOk (late : Bool) (s : State) (c : Sender) : Prop where
  matched : ∀ e j, s.entryOf c = some e → s.idxOf c = some j →
    c.isCyclic = true ∨ (s.pc c).unset = false → s.pIdx e = some j
  callback : ∀ e, s.entryOf c = some e →
    c.isCyclic = true ∨ (s.pc c).unset = false → s.userCb e = some c.callback
  indexed : ∀ e, s.entryOf c = some e → (s.pc c).indexed = true →
    s.idxOf c = some (s.dgIdx e)
  notQueued : ∀ e, s.entryOf c = some e → s.pc c = .cleared ∨ (s.pc c).complete = true →
    ¬ Queued s e
  notSent : ∀ e, s.entryOf c = some e → s.pc c = .unsent → ∀ j, s.txSend j ≠ some e
  fresh : ∀ e, s.entryOf c = some e → c.isCyclic = false →
    (s.pc c).unset = true ∨ (s.pc c).complete = true → ∀ j, ¬ Uses late s e j

/-- Callbacks of datagrams that are sent once. -/
def Callback.once : Callback → Bool
  | block | anon | noReply => true
  | cyclic _ => false

/-- An entry is in one place at a time. A cyclic datagram may be queued again while the receiver
is still busy with the previous one. -/
structure Places (late : Bool) (s : State) : Prop where
  highNodup : s.txHigh.Nodup
  lowNodup : s.txLow.Nodup
  highLow : ∀ e ∈ s.txHigh, e ∉ s.txLow
  highTx : ∀ e ∈ s.txHigh, s.tx ≠ some e
  lowTx : ∀ e ∈ s.txLow, s.tx ≠ some e
  queuedSent : ∀ e, Queued s e → ∀ j, s.txSend j ≠ some e
  once : ∀ e j cb, s.rx.use = some (e, j) → s.userCb e = some cb → cb.once = true →
    ¬ Queued s e ∧ ∀ k, s.txSend k ≠ some e
  onWire : late = true → ∀ d ∈ s.wire, ∀ cb, s.userCb d.entry = some cb → cb.once = true →
    s.txSend d.idx = some d.entry ∧ s.wire.count d ≤ 1

/-- **The invariant** of the bus. -/
structure Inv (late : Bool) (s : State) (io : Idx → IdxOwner) (eo : Entry → EntryOwner) : Prop where
  owners : Owners s io eo
  uses : ∀ e j, Uses late s e j → Owns s io eo e j
  senders : ∀ c, SenderOk late s c
  places : Places late s

section
variable {late : Bool} {s s' : State} {io io' : Idx → IdxOwner} {eo eo' : Entry → EntryOwner}

/-- What nobody uses does not matter. -/
theorem Owns.congr {e : Entry} {j : Idx} (h : Owns s io eo e j) (hp : s'.pIdx e = s.pIdx e)
    (hcb : s'.userCb e = s.userCb e) (heo : eo' e = eo e) (hio : io' j = io j) :
    Owns s' io' eo' e j := by
  obtain ⟨hpIdx, howner⟩ := h
  refine ⟨hp.trans hpIdx, ?_⟩
  rw [heo, hio, hcb]
  exact howner

theorem Owns.not_free {e : Entry} {j : Idx} (h : Owns s io eo e j) :
    eo e ≠ .free ∧ eo e ≠ .holder .noReply ∧ io j ≠ .free ∧ io j ≠ .other .receiver := by
  rcases h.owner with ⟨c, hc, heo, hio, -⟩ | ⟨heo, hio⟩
  · rw [heo, hio]
    simpa using hc
  · rw [heo, hio]
    simp

/-- Whoever has the entry has the index. -/
theorem Owns.holder {e : Entry} {j : Idx} (h : Owns s io eo e j) {c : Sender}
    (hc : eo e = .holder c) : io j = .holder c ∧ s.userCb e = some c.callback := by
  rcases h.owner with ⟨c', -, heo, hio, hcb⟩ | ⟨heo, -⟩
  · rw [hc] at heo
    cases heo
    exact ⟨hio, hcb⟩
  · rw [hc] at heo
    cases heo

/-- The other way round: an index leads to the entry of its sender. -/
theorem Inv.entry_eq (h : Inv late s io eo) {c : Sender} {e : Entry} {j : Idx}
    (howns : Owns s io eo e j) (hj : s.idxOf c = some j) : s.entryOf c = some e := by
  have hio := (h.owners.idx.ownerHolder c j).1 hj
  rcases howns.owner with ⟨c', -, heo, hio', -⟩ | ⟨-, hio'⟩
  · rw [hio] at hio'
    cases hio'
    exact (h.owners.entry.ownerHolder c e).2 heo
  · rw [hio] at hio'
    cases hio'

/-- **No index clash.** -/
theorem Inv.index_unique (h : Inv late s io eo) {e e' : Entry} {j : Idx} (he : Uses late s e j)
    (he' : Uses late s e' j) : e = e' := by
  rcases (h.uses e j he).owner with ⟨c, -, heo, hio, -⟩ | ⟨-, hio⟩
  · rcases (h.uses e' j he').owner with ⟨c', -, heo', hio', -⟩ | ⟨-, hio'⟩
    · have hc : c = c' := Owner.holder.inj (hio.symm.trans hio')
      subst hc
      have hentry := (h.owners.entry.ownerHolder c e).2 heo
      have hentry' := (h.owners.entry.ownerHolder c e').2 heo'
      exact Option.some.inj (hentry.symm.trans hentry')
    · rw [hio] at hio'
      cases hio'
  · rcases (h.uses e' j he').owner with ⟨c', -, -, hio', -⟩ | ⟨-, hio'⟩
    · rw [hio] at hio'
      cases hio'
    · exact IdxTrust.entry.inj (Owner.other.inj (hio.symm.trans hio'))

/-! ## Steps that make no new reference -/

/-- A datagram that is sent once keeps its mark in `tx_send` while it is on the bus. -/
def KeepsSent (late : Bool) (s s' : State) : Prop :=
  late = true → ∀ d ∈ s.wire, ∀ cb, s.userCb d.entry = some cb → cb.once = true →
    s'.txSend d.idx = s.txSend d.idx

theorem KeepsSent.of_eq (h : s'.txSend = s.txSend) : KeepsSent late s s' := by
  intro _ d _ _ _ _
  rw [h]

theorem Places.fewer (h : Places late s) (hf : Fewer s s') (hs : KeepsSent late s s')
    (hcb : ∀ e j, Uses late s' e j → s'.userCb e = s.userCb e) : Places late s' where
  highNodup := h.highNodup.sublist hf.high
  lowNodup := h.lowNodup.sublist hf.low
  highLow e he hlow := h.highLow e (hf.high.subset he) (hf.low.subset hlow)
  highTx e he htx := h.highTx e (hf.high.subset he) (hf.tx e htx)
  lowTx e he htx := h.lowTx e (hf.low.subset he) (hf.tx e htx)
  queuedSent e he j hj := h.queuedSent e (hf.queued he) j (hf.sent j e hj)
  once e j cb hrx hcb' honce := by
    rw [hcb e j (Uses.rx hrx)] at hcb'
    obtain ⟨hqueued, hsent⟩ := h.once e j cb (hf.rx e j hrx) hcb' honce
    exact ⟨fun he => hqueued (hf.queued he), fun k hk => hsent k (hf.sent k e hk)⟩
  onWire hl d hd cb hcb' honce := by
    rw [hcb d.entry d.idx (Uses.wire hl hd)] at hcb'
    have hd' := hf.wire.subset hd
    obtain ⟨hmark, hcount⟩ := h.onWire hl d hd' cb hcb' honce
    exact ⟨(hs hl d hd' cb hcb' honce).trans hmark, Nat.le_trans (hf.wire.count_le d) hcount⟩

/-- A sender that the step is not about. -/
theorem SenderOk.fewer {c : Sender} (h : SenderOk late s c) (hf : Fewer s s') (hpc : s'.pc c = s.pc c)
    (hidx : s'.idxOf c = s.idxOf c) (hentry : s'.entryOf c = s.entryOf c)
    (hdata : ∀ e, s.entryOf c = some e → s'.pIdx e = s.pIdx e ∧ s'.userCb e = s.userCb e ∧
      s'.dgIdx e = s.dgIdx e) : SenderOk late s' c := by
  obtain ⟨hmatched, hcallback, hindexed, hqueued, hsent, hfresh⟩ := h
  constructor
  · intro e j he hj hset
    rw [hentry] at he
    rw [hidx] at hj
    rw [hpc] at hset
    rw [(hdata e he).1]
    exact hmatched e j he hj hset
  · intro e he hset
    rw [hentry] at he
    rw [hpc] at hset
    rw [(hdata e he).2.1]
    exact hcallback e he hset
  · intro e he hset
    rw [hentry] at he
    rw [hpc] at hset
    rw [hidx, (hdata e he).2.2]
    exact hindexed e he hset
  · intro e he hset
    rw [hentry] at he
    rw [hpc] at hset
    exact fun hq => hqueued e he hset (hf.queued hq)
  · intro e he hset j hj
    rw [hentry] at he
    rw [hpc] at hset
    exact hsent e he hset j (hf.sent j e hj)
  · intro e he hcyc hset j hj
    rw [hentry] at he
    rw [hpc] at hset
    obtain ⟨k, hk⟩ := hf.used hj
    exact hfresh e he hcyc hset k hk

theorem Inv.fewer (h : Inv late s io eo) (hf : Fewer s s') (hs : KeepsSent late s s')
    (howners : Owners s' io' eo')
    (hdg : ∀ e, Queued s' e → s'.dgIdx e = s.dgIdx e)
    (huses : ∀ e j, Uses late s' e j → Owns s io eo e j → Owns s' io' eo' e j)
    (hcb : ∀ e j, Uses late s' e j → s'.userCb e = s.userCb e)
    (hsenders : ∀ c, SenderOk late s' c) : Inv late s' io' eo' where
  owners := howners
  uses e j he := huses e j he (h.uses e j (hf.uses hdg he))
  senders := hsenders
  places := h.places.fewer hf hs hcb

end

end LibEthercat.Bus
