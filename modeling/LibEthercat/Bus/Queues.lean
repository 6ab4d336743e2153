import LibEthercat.Bus.Steps

/-!
# The transmit queues

An entry in a queue is a new reference to it, the only one that a sender makes; the transmitter
then moves it on to `tx_send`, under the index that its datagram has.
-/

namespace LibEthercat.Bus

open Function (update)
open Custodian (Owner Custody)

section
variable {late : Bool} {s s' : State} {io : Idx → IdxOwner} {eo : Entry → EntryOwner}

/-! ## Into a transmit queue -/

/-- The entry has got in at the end of a queue, and nothing else of the datagrams has changed. -/
structure Enqueued (s s' : State) (e : Entry) : Prop where
  queue : (s'.txHigh = s.txHigh ++ [e] ∧ s'.txLow = s.txLow) ∨
    (s'.txHigh = s.txHigh ∧ s'.txLow = s.txLow ++ [e])
  tx : s'.tx = s.tx
  sent : s'.txSend = s.txSend
  rx : s'.rx = s.rx
  wire : s'.wire = s.wire
  data : s'.pIdx = s.pIdx ∧ s'.userCb = s.userCb ∧ s'.dgIdx = s.dgIdx

theorem Enqueued.queued {e x : Entry} (h : Enqueued s s' e) :
    Queued s' x ↔ Queued s x ∨ x = e := by
  unfold Queued
  rw [h.tx]
  rcases h.queue with ⟨hh, hl⟩ | ⟨hh, hl⟩ <;> rw [hh, hl, List.mem_append, List.mem_singleton] <;>
    tauto

theorem Enqueued.uses {e x : Entry} {j : Idx} (h : Enqueued s s' e) (hu : Uses late s' x j) :
    Uses late s x j ∨ (x = e ∧ j = s.dgIdx e) := by
  cases hu with
  | queued hq =>
    rw [h.data.2.2]
    rcases h.queued.1 hq with hq | rfl
    · exact Or.inl (Uses.queued hq)
    · exact Or.inr ⟨rfl, rfl⟩
  | sent hs =>
    rw [h.sent] at hs
    exact Or.inl (Uses.sent hs)
  | rx hr =>
    rw [h.rx] at hr
    exact Or.inl (Uses.rx hr)
  | wire hl hd =>
    rw [h.wire] at hd
    exact Or.inl (Uses.wire hl hd)

theorem Enqueued.nodup {e : Entry} (h : Enqueued s s' e) (hp : Places late s) (hq : ¬ Queued s e) :
    s'.txHigh.Nodup ∧ s'.txLow.Nodup ∧ ∀ x ∈ s'.txHigh, x ∉ s'.txLow := by
  have hhigh : e ∉ s.txHigh := fun he => hq (Or.inl he)
  have hlow : e ∉ s.txLow := fun he => hq (Or.inr (Or.inl he))
  rcases h.queue with ⟨hh, hl⟩ | ⟨hh, hl⟩ <;> rw [hh, hl]
  · refine ⟨?_, hp.lowNodup, ?_⟩
    · rw [List.nodup_append_comm]
      exact List.nodup_cons.2 ⟨hhigh, hp.highNodup⟩
    · intro x hx
      rcases List.mem_append.1 hx with hx | hx
      · exact hp.highLow x hx
      · rw [List.mem_singleton.1 hx]
        exact hlow
  · refine ⟨hp.highNodup, ?_, ?_⟩
    · rw [List.nodup_append_comm]
      exact List.nodup_cons.2 ⟨hlow, hp.lowNodup⟩
    · intro x hx hx'
      rcases List.mem_append.1 hx' with hx' | hx'
      · exact hp.highLow x hx hx'
      · exact hhigh (List.mem_singleton.1 hx' ▸ hx)

theorem Enqueued.places {e : Entry} (h : Enqueued s s' e) (hp : Places late s) (hq : ¬ Queued s e)
    (hs : ∀ j, s.txSend j ≠ some e)
    (hr : ∀ j cb, s.rx.use = some (e, j) → s.userCb e = some cb → cb.once = false) : Places late s' := by
  obtain ⟨hhigh, hlow, hdisjoint⟩ := h.nodup hp hq
  have htx : ∀ x, s'.tx = some x → x ∉ s'.txHigh ∧ x ∉ s'.txLow := by
    intro x hx
    rw [h.tx] at hx
    have hxe : x ≠ e := by
      rintro rfl
      exact hq (Or.inr (Or.inr hx))
    have hnot : x ∉ s.txHigh ∧ x ∉ s.txLow :=
      ⟨fun hm => hp.highTx x hm hx, fun hm => hp.lowTx x hm hx⟩
    rcases h.queue with ⟨hh, hl⟩ | ⟨hh, hl⟩ <;> rw [hh, hl] <;> simpa [hxe] using hnot
  refine ⟨hhigh, hlow, hdisjoint, fun x hx hx' => (htx x hx').1 hx,
    fun x hx hx' => (htx x hx').2 hx, fun x hx j => ?_, fun x j cb hx hcb honce => ?_, ?_⟩
  · rw [h.sent]
    rcases h.queued.1 hx with hx | rfl
    · exact hp.queuedSent x hx j
    · exact hs j
  · rw [h.rx] at hx
    rw [h.data.2.1] at hcb
    have hxe : x ≠ e := by
      rintro rfl
      rw [hr j cb hx hcb] at honce
      cases honce
    obtain ⟨hnot, hsent⟩ := hp.once x j cb hx hcb honce
    rw [h.sent]
    refine ⟨fun hq' => ?_, hsent⟩
    rcases h.queued.1 hq' with hq' | rfl
    · exact hnot hq'
    · exact hxe rfl
  · rw [h.wire, h.data.2.1, h.sent]
    exact hp.onWire

/-- A sender whose entry is another one. -/
theorem Enqueued.senderOk {e : Entry} {c : Sender} (h : Enqueued s s' e) (hc : SenderOk late s c)
    (he : s.entryOf c ≠ some e) (hpc : s'.pc c = s.pc c) (hidx : s'.idxOf c = s.idxOf c)
    (hentry : s'.entryOf c = s.entryOf c) : SenderOk late s' c := by
  obtain ⟨hp, hcb, hdg⟩ := h.data
  obtain ⟨hmatched, hcallback, hindexed, hqueued, hsent, hfresh⟩ := hc
  have hne : ∀ x, s.entryOf c = some x → x ≠ e := by
    rintro x hx rfl
    exact he hx
  constructor
  · rw [hpc, hidx, hentry, hp]
    exact hmatched
  · rw [hpc, hentry, hcb]
    exact hcallback
  · rw [hpc, hidx, hentry, hdg]
    exact hindexed
  · rw [hpc, hentry]
    intro x hx hset hq
    rcases h.queued.1 hq with hq | rfl
    · exact hqueued x hx hset hq
    · exact hne x hx rfl
  · rw [hpc, hentry, h.sent]
    exact hsent
  · rw [hpc, hentry]
    intro x hx hcyc hset j hu
    rcases h.uses hu with hu | ⟨rfl, -⟩
    · exact hfresh x hx hcyc hset j hu
    · exact hne x hx rfl

/-- What a sender has when it queues its entry. -/
theorem enqueue_ready {c : Sender} {e : Entry} (h : Inv late s io eo)
    (hen : enabled s (.enqueue c e) = true) :
    s.entryOf c = some e ∧ s.idxOf c = some (s.dgIdx e) ∧ s.pIdx e = some (s.dgIdx e) ∧
      s.userCb e = some c.callback ∧ ¬ Queued s e ∧ (∀ j, s.txSend j ≠ some e) ∧
      (c.isCyclic = false → ∀ j, ¬ Uses late s e j) := by
  obtain ⟨hpc, hentry⟩ := of_decide_eq_true hen
  obtain ⟨hmatched, hcallback, hindexed, hqueued, hsent, hfresh⟩ := h.senders c
  have hdone : (s.pc c).complete = true := by
    rw [hpc]
    by_cases hc : c.hwEnqueue = true <;> simp [hc, Pc.complete]
  have hset : (s.pc c).unset = false := by
    rw [hpc]
    by_cases hc : c.hwEnqueue = true <;> simp [hc, Pc.unset]
  have hidx : s.idxOf c = some (s.dgIdx e) := by
    refine hindexed e hentry ?_
    rw [hpc]
    by_cases hc : c.hwEnqueue = true <;> simp [hc, Pc.indexed]
  have hnew : c.isCyclic = false → ∀ j, ¬ Uses late s e j := fun hcyc =>
    hfresh e hentry hcyc (Or.inr hdone)
  refine ⟨hentry, hidx, hmatched e _ hentry hidx (Or.inr hset), hcallback e hentry (Or.inr hset),
    hqueued e hentry (Or.inr hdone), ?_, hnew⟩
  by_cases hc : c.hwEnqueue = true
  · exact hsent e hentry (by rw [hpc, if_pos hc])
  · intro j hj
    refine hnew ?_ j (Uses.sent hj)
    cases c with
    | cyclic c => exact absurd rfl hc
    | transceive | duration | noReply => rfl

/-- What is left to show once an entry is queued: who has it, and what its sender knows. -/
theorem Inv.enqueued {c : Sender} {e : Entry} {io' : Idx → IdxOwner} {eo' : Entry → EntryOwner}
    (h : Inv late s io eo) (hen : enabled s (.enqueue c e) = true) (hs : Enqueued s s' e)
    (hother : ∀ c', c' ≠ c →
      s'.pc c' = s.pc c' ∧ s'.idxOf c' = s.idxOf c' ∧ s'.entryOf c' = s.entryOf c')
    (howners : Owners s' io' eo')
    (hkeep : ∀ x j, x ≠ e ∨ c.isCyclic = true → Owns s io eo x j → Owns s' io' eo' x j)
    (hown : Owns s' io' eo' e (s.dgIdx e)) (hc : SenderOk late s' c) : Inv late s' io' eo' := by
  obtain ⟨hentry, -, -, hcb, hqueued, hsent, hnew⟩ := enqueue_ready h hen
  refine ⟨howners, fun x j hu => ?_, fun c' => ?_, hs.places h.places hqueued hsent ?_⟩
  · rcases hs.uses hu with hu | ⟨rfl, rfl⟩
    · refine hkeep x j ?_ (h.uses x j hu)
      by_cases hx : x = e
      · subst hx
        by_cases hcyc : c.isCyclic = true
        · exact Or.inr hcyc
        · exact absurd hu (hnew (by simpa using hcyc) j)
      · exact Or.inl hx
    · exact hown
  · by_cases hc' : c' = c
    · subst hc'
      exact hc
    · obtain ⟨hpc', hidx', hentry'⟩ := hother c' hc'
      exact hs.senderOk (h.senders c') (fun he => hc' (h.owners.entry.inj he hentry)) hpc' hidx'
        hentry'
  · intro j cb hr hcb'
    obtain rfl : c.callback = cb := Option.some.inj (hcb.symm.trans hcb')
    cases c with
    | cyclic c => rfl
    | transceive | duration | noReply => exact absurd (Uses.rx hr) (hnew rfl j)

theorem enqueued_effect (s : State) (c : Sender) (e : Entry) :
    Enqueued s (effect s (.enqueue c e)) e := by
  constructor <;> cases c <;> simp [effect, afterEnqueue, Sender.high]

theorem inv_enqueue {c : Sender} {e : Entry} (hc : c ≠ .noReply) (h : Inv late s io eo)
    (hen : enabled s (.enqueue c e) = true) : Inv late (effect s (.enqueue c e)) io eo := by
  obtain ⟨hentry, hidx, hp, hcb, -, -, -⟩ := enqueue_ready h hen
  have hs := enqueued_effect s c e
  have hrest : (effect s (.enqueue c e)).idxQ = s.idxQ ∧ (effect s (.enqueue c e)).pool = s.pool ∧
      (effect s (.enqueue c e)).idxOf = s.idxOf ∧
      (effect s (.enqueue c e)).entryOf = s.entryOf := by
    cases c with
    | noReply => exact absurd rfl hc
    | transceive | duration | cyclic => simp [effect, afterEnqueue, Sender.high]
  obtain ⟨hidxQ, hpool, hidxOf, hentryOf⟩ := hrest
  have hpc : (effect s (.enqueue c e)).pc =
      update s.pc c (if c.isCyclic then .idle else .waiting) := by
    cases c with
    | noReply => exact absurd rfl hc
    | transceive | duration | cyclic => simp [effect, afterEnqueue, Sender.high, Sender.isCyclic]
  have howns : ∀ x j, Owns s io eo x j → Owns (effect s (.enqueue c e)) io eo x j :=
    fun x j ho => ho.congr (by rw [hs.data.1]) (by rw [hs.data.2.1]) rfl rfl
  refine h.enqueued hen hs (fun c' hc' => ?_) ⟨?_, ?_, fun c' => ?_, ?_⟩
    (fun x j _ ho => howns x j ho) (howns e _ ⟨hp, Or.inl ⟨c, hc, ?_, ?_, hcb⟩⟩) ?_
  · rw [hpc, hidxOf, hentryOf, Function.update_of_ne hc']
    exact ⟨rfl, rfl, rfl⟩
  · rw [hidxQ, hidxOf]
    exact h.owners.idx
  · rw [hpool, hentryOf]
    exact h.owners.entry
  · rw [hpc, hentryOf]
    by_cases hc' : c' = c
    · subst hc'
      rw [Function.update_self]
      by_cases hcyc : c'.isCyclic = true <;> simp [hcyc, Sender.noEntry]
    · rw [Function.update_of_ne hc']
      exact h.owners.noEntry c'
  · rw [hs.rx, hs.data.1]
    exact h.owners.freed
  · exact (h.owners.entry.ownerHolder c e).1 hentry
  · exact (h.owners.idx.ownerHolder c _).1 hidx
  · have hsame : ∀ x, s.entryOf c = some x → x = e := fun x hx =>
      Option.some.inj (hx.symm.trans hentry)
    have hdone : (effect s (.enqueue c e)).pc c = .idle ∨
        (effect s (.enqueue c e)).pc c = .waiting := by
      rw [hpc, Function.update_self]
      by_cases hcyc : c.isCyclic = true <;> simp [hcyc]
    constructor
    · rw [hidxOf, hentryOf, hs.data.1]
      intro x j hx hj _
      rw [hsame x hx, hp]
      exact hidx.symm.trans hj
    · rw [hentryOf, hs.data.2.1]
      intro x hx _
      rw [hsame x hx]
      exact hcb
    · rw [hidxOf, hentryOf, hs.data.2.2]
      intro x hx _
      rw [hsame x hx]
      exact hidx
    all_goals rcases hdone with hdone | hdone <;> simp [hdone, Pc.complete, Pc.unset]

theorem inv_enqueue_noReply {e : Entry} (h : Inv late s io eo)
    (hen : enabled s (.enqueue .noReply e) = true) :
    Inv late (effect s (.enqueue .noReply e)) (update io (s.dgIdx e) (.other (.entry e)))
      (update eo e (.other ())) := by
  obtain ⟨hentry, hidx, hp, -, -, -, -⟩ := enqueue_ready h hen
  have hs := enqueued_effect s .noReply e
  have hio : io (s.dgIdx e) = .holder .noReply := (h.owners.idx.ownerHolder _ _).1 hidx
  have heo : eo e = .holder .noReply := (h.owners.entry.ownerHolder _ _).1 hentry
  have hgone : (effect s (.enqueue .noReply e)).entryOf .noReply = none := by
    simp [effect, afterEnqueue]
  refine h.enqueued hen hs (fun c' hc' => ?_) ⟨?_, ?_, fun c' => ?_, fun x hx => ?_⟩
    (fun x j hx ho => ?_) ⟨?_, Or.inr ⟨?_, ?_⟩⟩ (SenderOk.of_none hgone)
  · exact ⟨Function.update_of_ne hc' _ _, Function.update_of_ne hc' _ _,
      Function.update_of_ne hc' _ _⟩
  · exact h.owners.idx.release hidx _
  · exact h.owners.entry.release hentry _
  · by_cases hc' : c' = .noReply
    · subst hc'
      exact fun _ => hgone
    · have hpc : (effect s (.enqueue .noReply e)).pc c' = s.pc c' := Function.update_of_ne hc' _ _
      have hentry' : (effect s (.enqueue .noReply e)).entryOf c' = s.entryOf c' :=
        Function.update_of_ne hc' _ _
      rw [hpc, hentry']
      exact h.owners.noEntry c'
  · obtain ⟨j, hj, hrec, hfree⟩ := h.owners.freed x hx
    refine ⟨j, hj, ?_, ?_⟩
    · rw [Function.update_of_ne, hrec]
      rintro rfl
      rw [hio] at hrec
      cases hrec
    · rw [Function.update_of_ne, hfree]
      rintro rfl
      rw [heo] at hfree
      cases hfree
  · have hx : x ≠ e := by
      rcases hx with hx | hx
      · exact hx
      · cases hx
    refine ho.congr rfl rfl (Function.update_of_ne hx _ _) (Function.update_of_ne ?_ _ _)
    rintro rfl
    rcases ho.owner with ⟨c', hc', -, hio', -⟩ | ⟨-, hio'⟩
    · rw [hio] at hio'
      exact hc' (Owner.holder.inj hio').symm
    · rw [hio] at hio'
      cases hio'
  · exact hp
  · exact Function.update_self ..
  · exact Function.update_self ..

/-! ## The transmitter -/

/-- A step that is not a sender's: references move from one place to the next. -/
structure Moved (late : Bool) (s s' : State) : Prop where
  senders : s'.pc = s.pc ∧ s'.idxOf = s.idxOf ∧ s'.entryOf = s.entryOf
  pIdx : s'.pIdx = s.pIdx
  userCb : s'.userCb = s.userCb
  indexed : ∀ c e, s.entryOf c = some e → (s.pc c).indexed = true → s'.dgIdx e = s.dgIdx e
  queued : ∀ e, Queued s' e → Queued s e
  uses : ∀ e j, Uses late s' e j → Uses late s e j
  sent : ∀ e j, s'.txSend j = some e → s.txSend j = some e ∨ Queued s e

theorem Moved.senderOk {c : Sender} (hm : Moved late s s') (h : SenderOk late s c) : SenderOk late s' c := by
  obtain ⟨hpc, hidx, hentry⟩ := hm.senders
  obtain ⟨hmatched, hcallback, hindexed, hqueued, hsent, hfresh⟩ := h
  constructor
  · rw [hpc, hidx, hentry, hm.pIdx]
    exact hmatched
  · rw [hpc, hentry, hm.userCb]
    exact hcallback
  · rw [hpc, hidx, hentry]
    intro e he hset
    rw [hm.indexed c e he hset]
    exact hindexed e he hset
  · rw [hpc, hentry]
    exact fun e he hset hq => hqueued e he hset (hm.queued e hq)
  · rw [hpc, hentry]
    intro e he hset j hj
    rcases hm.sent e j hj with hj | hq
    · exact hsent e he hset j hj
    · exact hqueued e he (Or.inr (by rw [hset]; rfl)) hq
  · rw [hpc, hentry]
    exact fun e he hcyc hset j hu => hfresh e he hcyc hset j (hm.uses e j hu)

theorem Inv.moved {io' : Idx → IdxOwner} {eo' : Entry → EntryOwner} (h : Inv late s io eo)
    (hm : Moved late s s') (hidx : Custody s'.idxQ s.idxOf io') (hentry : Custody s'.pool s.entryOf eo')
    (hfreed : ∀ e, s'.rx = .freed e →
      ∃ j, s.pIdx e = some j ∧ io' j = .other .receiver ∧ eo' e = .free)
    (howner : ∀ e j, Uses late s' e j → Owns s io eo e j → eo' e = eo e ∧ io' j = io j)
    (hplaces : Places late s') : Inv late s' io' eo' := by
  obtain ⟨hpc, hidxOf, hentryOf⟩ := hm.senders
  refine ⟨⟨?_, ?_, fun c => ?_, ?_⟩, fun e j hu => ?_, fun c => hm.senderOk (h.senders c), hplaces⟩
  · rw [hidxOf]
    exact hidx
  · rw [hentryOf]
    exact hentry
  · rw [hpc, hentryOf]
    exact h.owners.noEntry c
  · rw [hm.pIdx]
    exact hfreed
  · have howns := h.uses e j (hm.uses e j hu)
    obtain ⟨heo, hio⟩ := howner e j hu howns
    exact howns.congr (by rw [hm.pIdx]) (by rw [hm.userCb]) heo hio

/-- The same, where the pool and the indices stay as they are. -/
theorem Inv.moved_same (h : Inv late s io eo) (hm : Moved late s s') (hidx : s'.idxQ = s.idxQ)
    (hentry : s'.pool = s.pool) (hfreed : ∀ e, s'.rx = .freed e → s.rx = .freed e)
    (hplaces : Places late s') : Inv late s' io eo := by
  refine h.moved hm ?_ ?_ (fun e he => h.owners.freed e (hfreed e he)) (fun _ _ _ _ => ⟨rfl, rfl⟩)
    hplaces
  · rw [hidx]
    exact h.owners.idx
  · rw [hentry]
    exact h.owners.entry

theorem Moved.of_fewer (hf : Fewer s s')
    (hsenders : s'.pc = s.pc ∧ s'.idxOf = s.idxOf ∧ s'.entryOf = s.entryOf)
    (hp : s'.pIdx = s.pIdx) (hcb : s'.userCb = s.userCb) (hdg : s'.dgIdx = s.dgIdx) :
    Moved late s s' := by
  refine ⟨hsenders, hp, hcb, fun _ e _ _ => by rw [hdg], fun e => hf.queued,
    fun e j => hf.uses fun x _ => by rw [hdg], fun e j hj => Or.inl (hf.sent j e hj)⟩

/-- The transmitter has taken the first entry of a queue. -/
structure Popped (s s' : State) (e : Entry) : Prop where
  tx : s'.tx = some e
  queue : (s.txHigh = e :: s'.txHigh ∧ s'.txLow = s.txLow) ∨
    (s.txLow = e :: s'.txLow ∧ s'.txHigh = s.txHigh)
  senders : s'.pc = s.pc ∧ s'.idxOf = s.idxOf ∧ s'.entryOf = s.entryOf
  data : s'.pIdx = s.pIdx ∧ s'.userCb = s.userCb ∧ s'.dgIdx = s.dgIdx
  sent : s'.txSend = s.txSend
  rx : s'.rx = s.rx
  wire : s'.wire = s.wire
  idx : s'.idxQ = s.idxQ
  entry : s'.pool = s.pool

theorem Popped.queued {e x : Entry} (h : Popped s s' e) (hx : Queued s' x) : Queued s x := by
  unfold Queued at hx ⊢
  rw [h.tx] at hx
  rcases h.queue with ⟨hh, hl⟩ | ⟨hl, hh⟩ <;> grind

theorem Popped.moved {e : Entry} (h : Popped s s' e) : Moved late s s' := by
  obtain ⟨hp, hcb, hdg⟩ := h.data
  refine ⟨h.senders, hp, hcb, fun _ _ _ _ => by rw [hdg], fun _ => h.queued, ?_, fun x j hj => ?_⟩
  · intro x j hu
    cases hu with
    | queued hx =>
      rw [hdg]
      exact Uses.queued (h.queued hx)
    | sent hx => exact Uses.sent (h.sent ▸ hx)
    | rx hx => exact Uses.rx (h.rx ▸ hx)
    | wire hl hx => exact Uses.wire hl (h.wire ▸ hx)
  · rw [h.sent] at hj
    exact Or.inl hj

/-- It is queued as before. -/
theorem Inv.popped {e : Entry} (h : Inv late s io eo) (hpop : Popped s s' e) :
    Inv late s' io eo := by
  refine h.moved_same (hpop.moved) hpop.idx hpop.entry (fun x hx => hpop.rx ▸ hx) ?_
  obtain ⟨hhigh, hlow, hdisjoint, -, -, hqs, honce, honWire⟩ := h.places
  have hnodup : s'.txHigh.Nodup ∧ s'.txLow.Nodup ∧ e ∉ s'.txHigh ∧ e ∉ s'.txLow ∧
      ∀ x ∈ s'.txHigh, x ∉ s'.txLow := by
    rcases hpop.queue with ⟨hh, hl⟩ | ⟨hl, hh⟩
    · rw [hh] at hhigh hdisjoint
      rw [hl]
      obtain ⟨hnot, hrest⟩ := List.nodup_cons.1 hhigh
      exact ⟨hrest, hlow, hnot, hdisjoint e List.mem_cons_self,
        fun x hx => hdisjoint x (List.mem_cons_of_mem e hx)⟩
    · rw [hl] at hlow hdisjoint
      rw [hh]
      obtain ⟨hnot, hrest⟩ := List.nodup_cons.1 hlow
      exact ⟨hhigh, hrest, fun he => hdisjoint e he List.mem_cons_self, hnot,
        fun x hx hx' => hdisjoint x hx (List.mem_cons_of_mem e hx')⟩
  obtain ⟨hhigh', hlow', heh, hel, hdisjoint'⟩ := hnodup
  refine ⟨hhigh', hlow', hdisjoint', fun x hx hx' => ?_, fun x hx hx' => ?_, fun x hx j => ?_,
    fun x j cb hx hcb' hone => ?_, ?_⟩
  · obtain rfl : e = x := Option.some.inj (hpop.tx.symm.trans hx')
    exact heh hx
  · obtain rfl : e = x := Option.some.inj (hpop.tx.symm.trans hx')
    exact hel hx
  · rw [hpop.sent]
    exact hqs x (hpop.queued hx) j
  · rw [hpop.rx] at hx
    rw [hpop.data.2.1] at hcb'
    rw [hpop.sent]
    obtain ⟨hnot, hnever⟩ := honce x j cb hx hcb' hone
    exact ⟨fun hq => hnot (hpop.queued hq), hnever⟩
  · rw [hpop.wire, hpop.data.2.1, hpop.sent]
    exact honWire

theorem popped_txPop {high : Bool} {e : Entry} (hen : enabled s (.txPop high e) = true) :
    Popped s (effect s (.txPop high e)) e := by
  obtain ⟨-, hhead⟩ := of_decide_eq_true hen
  cases high with
  | true =>
    have hq : s.txHigh = e :: s.txHigh.tail := head?_eq hhead
    exact ⟨rfl, Or.inl ⟨hq, rfl⟩, ⟨rfl, rfl, rfl⟩, ⟨rfl, rfl, rfl⟩, rfl, rfl, rfl, rfl, rfl⟩
  | false =>
    have hq : s.txLow = e :: s.txLow.tail := head?_eq hhead
    exact ⟨rfl, Or.inr ⟨hq, rfl⟩, ⟨rfl, rfl, rfl⟩, ⟨rfl, rfl, rfl⟩, rfl, rfl, rfl, rfl, rfl⟩

theorem inv_txPop {high : Bool} {e : Entry} (h : Inv late s io eo)
    (hen : enabled s (.txPop high e) = true) : Inv late (effect s (.txPop high e)) io eo :=
  h.popped (popped_txPop hen)

theorem txSend_sent {e x : Entry} {j : Idx} (hx : (effect s (.txSend e)).txSend j = some x) :
    s.txSend j = some x ∨ (x = e ∧ j = s.dgIdx e) := by
  by_cases hje : j = s.dgIdx e
  · rw [hje] at hx ⊢
    simp only [effect, Function.update_self, Option.some.injEq] at hx
    exact Or.inr ⟨hx.symm, rfl⟩
  · simp only [effect, Function.update_of_ne hje] at hx
    exact Or.inl hx

theorem txSend_queued {e x : Entry} (hplaces : Places late s) (htx : s.tx = some e)
    (hx : Queued (effect s (.txSend e)) x) : Queued s x ∧ x ≠ e := by
  rcases hx with hx | hx | hx
  · refine ⟨Or.inl hx, ?_⟩
    rintro rfl
    exact hplaces.highTx x hx htx
  · refine ⟨Or.inr (Or.inl hx), ?_⟩
    rintro rfl
    exact hplaces.lowTx x hx htx
  · cases hx

theorem moved_txSend {e : Entry} (hplaces : Places late s) (htx : s.tx = some e) :
    Moved late s (effect s (.txSend e)) := by
  have hq : Queued s e := Or.inr (Or.inr htx)
  refine ⟨⟨rfl, rfl, rfl⟩, rfl, rfl, fun _ _ _ _ => rfl,
    fun x hx => (txSend_queued hplaces htx hx).1, ?_, ?_⟩
  · intro x j hu
    cases hu with
    | queued hx => exact Uses.queued (txSend_queued hplaces htx hx).1
    | sent hx =>
      rcases txSend_sent hx with hx | ⟨rfl, rfl⟩
      · exact Uses.sent hx
      · exact Uses.queued hq
    | rx hx => exact Uses.rx hx
    | wire hl hx =>
      rcases List.mem_append.1 hx with hx | hx
      · exact Uses.wire hl hx
      · cases List.mem_singleton.1 hx
        exact Uses.queued hq
  · intro x j hx
    rcases txSend_sent hx with hx | ⟨rfl, -⟩
    · exact Or.inl hx
    · exact Or.inr hq

theorem inv_txSend {e : Entry} (h : Inv late s io eo) (hen : enabled s (.txSend e) = true) :
    Inv late (effect s (.txSend e)) io eo := by
  have htx : s.tx = some e := of_decide_eq_true hen
  have hq : Queued s e := Or.inr (Or.inr htx)
  refine h.moved_same (moved_txSend h.places htx) rfl rfl (fun _ => id) ?_
  obtain ⟨hhigh, hlow, hdisjoint, -, -, hqs, honce, honWire⟩ := h.places
  refine ⟨hhigh, hlow, hdisjoint, by simp [effect], by simp [effect], fun x hx j hj => ?_,
    fun x j cb hx hcb hone => ?_, fun hl d hd cb hcb hone => ?_⟩
  · obtain ⟨hx, hne⟩ := txSend_queued h.places htx hx
    rcases txSend_sent hj with hj | ⟨rfl, -⟩
    · exact hqs x hx j hj
    · exact hne rfl
  · obtain ⟨hnot, hnever⟩ := honce x j cb hx hcb hone
    refine ⟨fun hx => hnot (txSend_queued h.places htx hx).1, fun k hk => ?_⟩
    rcases txSend_sent hk with hk | ⟨rfl, -⟩
    · exact hnever k hk
    · exact hnot hq
  · -- no datagram that is sent once is on the bus with the index of one that is queued
    have hold : ∀ d ∈ s.wire, ∀ cb, s.userCb d.entry = some cb → cb.once = true →
        d.idx ≠ s.dgIdx e := by
      intro d hd cb hcb hone hde
      have hu : Uses late s d.entry (s.dgIdx e) := hde ▸ Uses.wire hl hd
      have hentry : d.entry = e := h.index_unique hu (Uses.queued hq)
      have hmark := (honWire hl d hd cb hcb hone).1
      rw [hentry] at hmark
      exact hqs e hq d.idx hmark
    show update s.txSend (s.dgIdx e) (some e) d.idx = some d.entry ∧
      (s.wire ++ [Datagram.mk (s.dgIdx e) e]).count d ≤ 1
    rw [List.count_append]
    rcases List.mem_append.1 hd with hd | hd
    · have hne := hold d hd cb hcb hone
      have hnew : d ≠ ⟨s.dgIdx e, e⟩ := fun heq => hne (congrArg Datagram.idx heq)
      obtain ⟨hmark, hcount⟩ := honWire hl d hd cb hcb hone
      rw [Function.update_of_ne hne, List.count_singleton, if_neg (by simpa using hnew.symm)]
      exact ⟨hmark, hcount⟩
    · obtain rfl : d = (⟨s.dgIdx e, e⟩ : Datagram) := List.mem_singleton.1 hd
      have hnot : (⟨s.dgIdx e, e⟩ : Datagram) ∉ s.wire := fun hd' => hold _ hd' cb hcb hone rfl
      rw [Function.update_self, List.count_eq_zero_of_not_mem hnot, List.count_singleton_self]
      exact ⟨rfl, Nat.le_refl 1⟩

theorem inv_txDrop {e : Entry} (h : Inv late s io eo) : Inv late (effect s (.txDrop e)) io eo := by
  have hf : Fewer s (effect s (.txDrop e)) :=
    ⟨List.Sublist.refl _, List.Sublist.refl _, by simp [effect], fun _ _ => id, fun _ _ => id,
      List.Sublist.refl _⟩
  exact h.moved_same (Moved.of_fewer hf ⟨rfl, rfl, rfl⟩ rfl rfl rfl) rfl rfl (fun _ => id)
    (h.places.fewer hf (.of_eq rfl) fun _ _ _ => rfl)

end

end LibEthercat.Bus
