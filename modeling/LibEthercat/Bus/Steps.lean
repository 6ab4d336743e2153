import LibEthercat.Bus.Ownership

/-!
# The invariant of the bus

What each step needs so that the invariant survives it (`StepOk`), and that it does, for the steps
of the senders and of the clean-up. What the senders have belongs to them without a condition;
conditions are needed where something is given back, or a datagram is written, that may still be
referred to.
-/

namespace LibEthercat.Bus

open Function (update)
open Custodian (Owner Custody)

/-- Condition on a step and the state before it. If `late`, what is given back must not be on the
bus either, and nobody else sends with an index that is in use. -/
def StepOk (late : Bool) (s : State) : Action → Prop
  -- `ec_set_state` has not stopped between the index and the entry of this datagram
  | .indexGet c _ => c.isCyclic = true → s.entryOf c = none
  -- `cb_no_reply` is not about to read `p_idx` of this entry
  | .poolGet _ e => s.rx ≠ .freed e
  -- the senders of the other two keep an index that they have put back
  | .poolFail c _ => c.rollsBack = true
  | .memset _ e => ¬ Queued s e
  -- `get_packet_duration` writes 0 into the datagram
  | .fill c _ j => ∀ t, c = .duration t → j = 0
  | .poolRemove _ e => e ∈ s.txLow
  | .loopEnd _ e expired => late = true → expired = true → ∀ j, ¬ Uses late s e j
  | .poolPut _ e => ∀ j, ¬ Uses late s e j
  | .cleanIdx c j => s.pc (.cyclic c) = .idle ∧ (late = true → ∀ d ∈ s.wire, d.idx ≠ j) ∧
    ∀ e, s.entryOf (.cyclic c) = some e → ¬ Queued s e ∧ ∀ k, s.rx.use ≠ some (e, k)
  | .cleanEntry c e => s.pc (.cyclic c) = .idle ∧ ∀ j, ¬ Uses late s e j
  | .rxForeign j => late = true → s.txSend j = none
  | _ => True

section
variable {late : Bool} {s s' : State} {io : Idx → IdxOwner} {eo : Entry → EntryOwner}

theorem head?_eq {α : Type*} {l : List α} {a : α} (h : l.head? = some a) : l = a :: l.tail := by
  cases l with
  | nil => cases h
  | cons b l =>
    cases h
    rfl

/-- The queues, `tx_send` and the receiver are as before, but for slots that were emptied. -/
theorem Fewer.of_eq (hhigh : s'.txHigh = s.txHigh) (hlow : s'.txLow = s.txLow) (htx : s'.tx = s.tx)
    (hrx : s'.rx = s.rx) (hwire : s'.wire = s.wire)
    (hsent : ∀ j e, s'.txSend j = some e → s.txSend j = some e) : Fewer s s' := by
  refine ⟨?_, ?_, ?_, hsent, ?_, ?_⟩
  · rw [hhigh]
  · rw [hlow]
  · rw [htx]
    exact fun _ h => h
  · rw [hrx]
    exact fun _ _ h => h
  · rw [hwire]

theorem SenderOk.of_none {c : Sender} (h : s.entryOf c = none) : SenderOk late s c := by
  constructor <;> simp [h]

theorem update_none_eq_some {j k : Idx} {e : Entry} {f : Idx → Option Entry}
    (h : update f j none k = some e) : f k = some e := by
  by_cases hk : k = j
  · rw [hk, Function.update_self] at h
    cases h
  · rwa [Function.update_of_ne hk] at h

/-! ## Steps of a sender -/

/-- A step of `c`: it touches nothing that belongs to others, and makes no new reference. -/
structure SenderStep (s s' : State) (io io' : Idx → IdxOwner) (eo eo' : Entry → EntryOwner)
    (c : Sender) : Prop where
  fewer : Fewer s s'
  rx : s'.rx = s.rx
  other : ∀ c', c' ≠ c →
    s'.pc c' = s.pc c' ∧ s'.idxOf c' = s.idxOf c' ∧ s'.entryOf c' = s.entryOf c'
  data : ∀ e, s.entryOf c ≠ some e → eo e ≠ .free →
    s'.pIdx e = s.pIdx e ∧ s'.userCb e = s.userCb e ∧ s'.dgIdx e = s.dgIdx e
  queued : ∀ e, Queued s' e → s'.dgIdx e = s.dgIdx e
  idxOwner : ∀ j, io j ≠ .free → io j ≠ .holder c → io' j = io j
  entryOwner : ∀ e, eo e ≠ .free → eo e ≠ .holder c → eo' e = eo e
  freed : ∀ e, s.rx = .freed e → s'.pIdx e = s.pIdx e ∧ eo' e = eo e

/-- The invariant after such a step: what is left to show is about `c` alone. -/
theorem Inv.sender {c : Sender} {io' : Idx → IdxOwner} {eo' : Entry → EntryOwner} (h : Inv late s io eo)
    (hstep : SenderStep s s' io io' eo eo' c) (hs : KeepsSent late s s') (hidx : Custody s'.idxQ s'.idxOf io')
    (hentry : Custody s'.pool s'.entryOf eo')
    (hnone : c.noEntry (s'.pc c) = true → s'.entryOf c = none)
    (hown : ∀ e j, s.entryOf c = some e → Uses late s' e j → Owns s io eo e j →
      Owns s' io' eo' e j ∧ s'.userCb e = s.userCb e)
    (hc : SenderOk late s' c) : Inv late s' io' eo' := by
  have hkeep : ∀ e j, Uses late s' e j → Owns s io eo e j →
      Owns s' io' eo' e j ∧ s'.userCb e = s.userCb e := by
    intro e j hu howns
    by_cases he : s.entryOf c = some e
    · exact hown e j he hu howns
    · obtain ⟨hfree, -, hifree, -⟩ := howns.not_free
      obtain ⟨hp, hcb, -⟩ := hstep.data e he hfree
      have heo : eo e ≠ .holder c := fun heq => he ((h.owners.entry.ownerHolder c e).2 heq)
      have hio : io j ≠ .holder c := by
        rcases howns.owner with ⟨c', -, heo', hio', -⟩ | ⟨-, hio'⟩
        · rw [hio']
          rintro ⟨rfl⟩
          exact heo heo'
        · rw [hio']
          simp
      exact ⟨howns.congr hp hcb (hstep.entryOwner e hfree heo) (hstep.idxOwner j hifree hio), hcb⟩
  refine h.fewer hstep.fewer hs ⟨hidx, hentry, fun c' => ?_, fun e he => ?_⟩ hstep.queued
    (fun e j hu howns => (hkeep e j hu howns).1) (fun e j hu => ?_) fun c' => ?_
  · by_cases hc' : c' = c
    · subst hc'
      exact hnone
    · obtain ⟨hpc', -, hentry'⟩ := hstep.other c' hc'
      rw [hpc', hentry']
      exact h.owners.noEntry c'
  · rw [hstep.rx] at he
    obtain ⟨j, hj, hrec, hfree⟩ := h.owners.freed e he
    obtain ⟨hp, heo⟩ := hstep.freed e he
    refine ⟨j, hp.trans hj, ?_, heo.trans hfree⟩
    rw [hstep.idxOwner j (by simp [hrec]) (by simp [hrec]), hrec]
  · exact (hkeep e j hu (h.uses e j (hstep.fewer.uses hstep.queued hu))).2
  · by_cases hc' : c' = c
    · subst hc'
      exact hc
    · obtain ⟨hpc', hidx', hentry'⟩ := hstep.other c' hc'
      refine (h.senders c').fewer hstep.fewer hpc' hidx' hentry' fun e he => hstep.data e ?_ ?_
      · exact fun he' => hc' (h.owners.entry.inj he he')
      · rw [(h.owners.entry.ownerHolder c' e).1 he]
        simp

/-- A step of `c` that changes its program counter and nothing that the invariant is about. -/
theorem Inv.pc_step {c : Sender} {p : Pc} (h : Inv late s io eo) (hf : Fewer s s')
    (hs : KeepsSent late s s') (hrx : s'.rx = s.rx) (hpc : s'.pc = update s.pc c p)
    (hidx : s'.idxQ = s.idxQ ∧ s'.idxOf = s.idxOf) (hentry : s'.pool = s.pool ∧ s'.entryOf = s.entryOf)
    (hdata : s'.pIdx = s.pIdx ∧ s'.userCb = s.userCb ∧ s'.dgIdx = s.dgIdx)
    (hnone : c.noEntry p = true → s.entryOf c = none) (hc : SenderOk late s' c) : Inv late s' io eo := by
  obtain ⟨hidxQ, hidxOf⟩ := hidx
  obtain ⟨hpool, hentryOf⟩ := hentry
  obtain ⟨hpIdx, huserCb, hdgIdx⟩ := hdata
  refine h.sender ⟨hf, hrx, fun c' hc' => ?_, fun e _ _ => ?_, fun e _ => by rw [hdgIdx],
    fun _ _ _ => rfl, fun _ _ _ => rfl, fun e _ => ⟨by rw [hpIdx], rfl⟩⟩ hs ?_ ?_ ?_ ?_ hc
  · rw [hpc, hidxOf, hentryOf, Function.update_of_ne hc']
    exact ⟨rfl, rfl, rfl⟩
  · rw [hpIdx, huserCb, hdgIdx]
    exact ⟨rfl, rfl, rfl⟩
  · rw [hidxQ, hidxOf]
    exact h.owners.idx
  · rw [hpool, hentryOf]
    exact h.owners.entry
  · rw [hpc, hentryOf, Function.update_self]
    exact hnone
  · exact fun e j _ _ howns => ⟨howns.congr (by rw [hpIdx]) (by rw [huserCb]) rfl rfl, by rw [huserCb]⟩

theorem inv_indexGet {c : Sender} {j : Idx} (h : Inv late s io eo)
    (hen : enabled s (.indexGet c j) = true) (hok : StepOk late s (.indexGet c j)) :
    Inv late (effect s (.indexGet c j)) (update io j (.holder c)) eo := by
  obtain ⟨hpc, hidx, hhead, -⟩ := of_decide_eq_true hen
  have hq : s.idxQ = j :: s.idxQ.tail := head?_eq hhead
  have hfree : io j = .free := h.owners.idx.ownerFree j (by rw [hq]; exact List.mem_cons_self)
  have hnone : s.entryOf c = none := by
    by_cases hc : c.isCyclic = true
    · exact hok hc
    · exact h.owners.noEntry c (by simp [Sender.noEntry, hpc, hc])
  refine h.sender ⟨Fewer.of_eq rfl rfl rfl rfl rfl fun _ _ => id, rfl, fun c' hc' => ?_,
    fun _ _ _ => ⟨rfl, rfl, rfl⟩, fun _ _ => rfl, fun k hk _ => ?_, fun _ _ _ => rfl,
    fun _ _ => ⟨rfl, rfl⟩⟩ (.of_eq rfl) ?_ h.owners.entry (fun _ => hnone) ?_
    (SenderOk.of_none hnone)
  · exact ⟨Function.update_of_ne hc' _ _, Function.update_of_ne hc' _ _, rfl⟩
  · refine Function.update_of_ne ?_ _ _
    rintro rfl
    exact hk hfree
  · have hcustody := h.owners.idx
    rw [hq] at hcustody
    exact hcustody.take hidx
  · intro e k he
    rw [hnone] at he
    cases he

theorem inv_indexKeep {c : Cyclic} (h : Inv late s io eo) (hen : enabled s (.indexKeep c) = true) :
    Inv late (effect s (.indexKeep c)) io eo := by
  obtain ⟨hpc, -⟩ := of_decide_eq_true hen
  refine h.pc_step (Fewer.of_eq rfl rfl rfl rfl rfl fun _ _ => id) (.of_eq rfl) rfl rfl ⟨rfl, rfl⟩ ⟨rfl, rfl⟩
    ⟨rfl, rfl, rfl⟩ (by simp [Sender.noEntry, Sender.isCyclic]) ?_
  obtain ⟨hmatched, hcallback, -⟩ := h.senders (.cyclic c)
  constructor <;> simp_all [effect, Pc.complete, Pc.indexed, Pc.unset, Sender.isCyclic]

theorem inv_poolGet {c : Sender} {e : Entry} (h : Inv late s io eo)
    (hen : enabled s (.poolGet c e) = true) (hok : StepOk late s (.poolGet c e)) :
    Inv late (effect s (.poolGet c e)) io (update eo e (.holder c)) := by
  obtain ⟨hpc, hnone, hhead⟩ := of_decide_eq_true hen
  have hq : s.pool = e :: s.pool.tail := head?_eq hhead
  have hfree : eo e = .free := h.owners.entry.ownerFree e (by rw [hq]; exact List.mem_cons_self)
  have hunused : ∀ j, ¬ Uses late s e j := fun j hu => (h.uses e j hu).not_free.1 hfree
  have hf : Fewer s (effect s (.poolGet c e)) := Fewer.of_eq rfl rfl rfl rfl rfl fun _ _ => id
  have hunused' : ∀ j, ¬ Uses late (effect s (.poolGet c e)) e j := by
    intro j hu
    obtain ⟨k, hk⟩ := hf.used hu
    exact hunused k hk
  have hdata : ∀ x, x ≠ e → (effect s (.poolGet c e)).pIdx x = s.pIdx x ∧
      (effect s (.poolGet c e)).userCb x = s.userCb x := by
    intro x hx
    simp only [effect]
    split_ifs
    · exact ⟨Function.update_of_ne hx _ _, Function.update_of_ne hx _ _⟩
    · exact ⟨rfl, rfl⟩
  have hne : ∀ x, eo x ≠ .free → x ≠ e := by
    rintro x hx rfl
    exact hx hfree
  have hentry : (effect s (.poolGet c e)).entryOf c = some e := Function.update_self ..
  have hpc' : (effect s (.poolGet c e)).pc c = .gotEntry := Function.update_self ..
  have hstep : SenderStep s (effect s (.poolGet c e)) io io eo (update eo e (.holder c)) c := by
    refine ⟨hf, rfl, fun c' hc' => ?_, fun x _ hx => ?_, fun _ _ => rfl, fun _ _ _ => rfl,
      fun x hx _ => Function.update_of_ne (hne x hx) _ _, fun x hx => ?_⟩
    · exact ⟨Function.update_of_ne hc' _ _, rfl, Function.update_of_ne hc' _ _⟩
    · obtain ⟨hp, hcb⟩ := hdata x (hne x hx)
      exact ⟨hp, hcb, rfl⟩
    · have hxe : x ≠ e := by
        rintro rfl
        exact hok hx
      exact ⟨(hdata x hxe).1, Function.update_of_ne hxe _ _⟩
  refine h.sender hstep (.of_eq rfl) h.owners.idx ?_ ?_ ?_ ?_
  · have hcustody := h.owners.entry
    rw [hq] at hcustody
    exact hcustody.take hnone
  · rw [hpc']
    simp [Sender.noEntry]
  · intro x j hx
    rw [hnone] at hx
    cases hx
  · constructor
    · intro x j hx hj hset
      obtain rfl : e = x := Option.some.inj (hentry.symm.trans hx)
      have hcyc : c.isCyclic = true := by simpa [hpc', Pc.unset] using hset
      simpa [effect, hcyc] using hj
    · intro x hx hset
      obtain rfl : e = x := Option.some.inj (hentry.symm.trans hx)
      have hcyc : c.isCyclic = true := by simpa [hpc', Pc.unset] using hset
      simp [effect, hcyc]
    · simp [hpc', Pc.indexed]
    · simp [hpc', Pc.complete]
    · simp [hpc']
    · intro x hx _ _
      obtain rfl : e = x := Option.some.inj (hentry.symm.trans hx)
      exact hunused'

theorem inv_entryKeep {c : Cyclic} (h : Inv late s io eo) (hen : enabled s (.entryKeep c) = true) :
    Inv late (effect s (.entryKeep c)) io eo := by
  obtain ⟨hpc, -⟩ := of_decide_eq_true hen
  refine h.pc_step (Fewer.of_eq rfl rfl rfl rfl rfl fun _ _ => id) (.of_eq rfl) rfl rfl ⟨rfl, rfl⟩ ⟨rfl, rfl⟩
    ⟨rfl, rfl, rfl⟩ (by simp [Sender.noEntry]) ?_
  obtain ⟨hmatched, hcallback, -⟩ := h.senders (.cyclic c)
  constructor <;> simp_all [effect, Pc.complete, Pc.indexed, Pc.unset, Sender.isCyclic]

theorem inv_poolFail {c : Sender} {j : Idx} (h : Inv late s io eo)
    (hen : enabled s (.poolFail c j) = true) (hok : StepOk late s (.poolFail c j)) :
    Inv late (effect s (.poolFail c j)) (update io j .free) eo := by
  obtain ⟨hpc, hnone, -, hidx⟩ := of_decide_eq_true hen
  have hj : io j = .holder c := (h.owners.idx.ownerHolder c j).1 hidx
  have hback : (effect s (.poolFail c j)).idxOf = update s.idxOf c none := if_pos hok
  have hstep : SenderStep s (effect s (.poolFail c j)) io (update io j .free) eo eo c := by
    refine ⟨Fewer.of_eq rfl rfl rfl rfl rfl fun _ _ => id, rfl, fun c' hc' => ?_,
      fun _ _ _ => ⟨rfl, rfl, rfl⟩, fun _ _ => rfl, fun k _ hk => ?_, fun _ _ _ => rfl,
      fun _ _ => ⟨rfl, rfl⟩⟩
    · rw [hback]
      exact ⟨Function.update_of_ne hc' _ _, Function.update_of_ne hc' _ _, rfl⟩
    · refine Function.update_of_ne ?_ _ _
      rintro rfl
      exact hk hj
  refine h.sender hstep (.of_eq rfl) ?_ h.owners.entry (fun _ => hnone) ?_ (SenderOk.of_none hnone)
  · rw [hback]
    exact h.owners.idx.put hidx
  · intro e k he
    rw [hnone] at he
    cases he

theorem inv_skip {c : Cyclic} (h : Inv late s io eo) (hen : enabled s (.skip c) = true) :
    Inv late (effect s (.skip c)) io eo := by
  have hpc : s.pc (.cyclic c) = .gotEntry ∨ s.pc (.cyclic c) = .gotIdx := by
    rcases of_decide_eq_true hen with ⟨-, hpc⟩ | ⟨-, hpc⟩
    · exact Or.inl hpc
    · exact Or.inr hpc
  refine h.pc_step (Fewer.of_eq rfl rfl rfl rfl rfl fun _ _ => id) (.of_eq rfl) rfl rfl ⟨rfl, rfl⟩ ⟨rfl, rfl⟩
    ⟨rfl, rfl, rfl⟩ (by simp [Sender.noEntry, Sender.isCyclic]) ?_
  obtain ⟨hmatched, hcallback, -⟩ := h.senders (.cyclic c)
  constructor <;> simp_all [effect, Pc.complete, Pc.indexed, Pc.unset, Sender.isCyclic]

theorem inv_memset {c : Sender} {e : Entry} (h : Inv late s io eo)
    (hen : enabled s (.memset c e) = true) (hok : StepOk late s (.memset c e)) :
    Inv late (effect s (.memset c e)) io eo := by
  obtain ⟨hpc, hentry⟩ := of_decide_eq_true hen
  have hc : (effect s (.memset c e)).pc c = .cleared := Function.update_self ..
  have hf : Fewer s (effect s (.memset c e)) := Fewer.of_eq rfl rfl rfl rfl rfl fun _ _ => id
  have hstep : SenderStep s (effect s (.memset c e)) io io eo eo c := by
    refine ⟨hf, rfl, fun c' hc' => ⟨Function.update_of_ne hc' _ _, rfl, rfl⟩, fun x hx _ => ?_,
      fun x hx => ?_, fun _ _ _ => rfl, fun _ _ _ => rfl, fun _ _ => ⟨rfl, rfl⟩⟩
    · refine ⟨rfl, rfl, Function.update_of_ne ?_ _ _⟩
      rintro rfl
      exact hx hentry
    · refine Function.update_of_ne ?_ _ _
      rintro rfl
      exact hok (hf.queued hx)
  refine h.sender hstep (.of_eq rfl) h.owners.idx h.owners.entry ?_ ?_ ?_
  · simp [hc, Sender.noEntry]
  · exact fun x j _ _ howns => ⟨howns.congr rfl rfl rfl rfl, rfl⟩
  · obtain ⟨hmatched, hcallback, -, -, -, hfresh⟩ := h.senders c
    constructor
    · simpa [effect, hpc, Pc.unset] using hmatched
    · simpa [effect, hpc, Pc.unset] using hcallback
    · simp [hc, Pc.indexed]
    · intro x hx _ hq
      obtain rfl : e = x := Option.some.inj (hentry.symm.trans hx)
      exact hok (hf.queued hq)
    · simp [hc]
    · intro x hx hcyc _ j hu
      obtain ⟨k, hk⟩ := hf.used hu
      exact hfresh x hx hcyc (Or.inl (by rw [hpc]; rfl)) k hk

theorem inv_fill {c : Sender} {e : Entry} {j : Idx} (h : Inv late s io eo)
    (hen : enabled s (.fill c e j) = true) (hok : StepOk late s (.fill c e j)) :
    Inv late (effect s (.fill c e j)) io eo := by
  obtain ⟨hpc, hentry, hidx⟩ := of_decide_eq_true hen
  have hc : (effect s (.fill c e j)).pc c = .filled := Function.update_self ..
  have hf : Fewer s (effect s (.fill c e j)) := Fewer.of_eq rfl rfl rfl rfl rfl fun _ _ => id
  obtain ⟨hmatched, hcallback, -, hqueued, -, hfresh⟩ := h.senders c
  have hnotQueued : ¬ Queued s e := hqueued e hentry (Or.inl hpc)
  have hdg : (effect s (.fill c e j)).dgIdx e = j := by
    cases c with
    | duration t => simpa [effect] using (hok t rfl).symm
    | transceive | noReply | cyclic => simp [effect]
  have hset : (effect s (.fill c e j)).pIdx e = some j ∧
      (effect s (.fill c e j)).userCb e = some c.callback := by
    by_cases hcyc : c.isCyclic = true
    · simpa [effect, hcyc] using
        ⟨hmatched e j hentry hidx (Or.inl hcyc), hcallback e hentry (Or.inl hcyc)⟩
    · simp [effect, hcyc]
  have hother : ∀ x, x ≠ e → (effect s (.fill c e j)).pIdx x = s.pIdx x ∧
      (effect s (.fill c e j)).userCb x = s.userCb x ∧
      (effect s (.fill c e j)).dgIdx x = s.dgIdx x := by
    intro x hx
    by_cases hcyc : c.isCyclic = true <;> simp [effect, hcyc, hx]
  have hstep : SenderStep s (effect s (.fill c e j)) io io eo eo c := by
    refine ⟨hf, rfl, fun c' hc' => ⟨Function.update_of_ne hc' _ _, rfl, rfl⟩, fun x hx _ => ?_,
      fun x hx => ?_, fun _ _ _ => rfl, fun _ _ _ => rfl, fun x hx => ⟨?_, rfl⟩⟩
    · refine hother x ?_
      rintro rfl
      exact hx hentry
    · refine (hother x ?_).2.2
      rintro rfl
      exact hnotQueued (hf.queued hx)
    · refine (hother x ?_).1
      rintro rfl
      obtain ⟨-, -, -, hfree⟩ := h.owners.freed x hx
      rw [(h.owners.entry.ownerHolder c x).1 hentry] at hfree
      cases hfree
  have hsame : ∀ x, s.entryOf c = some x → x = e := fun x hx =>
    Option.some.inj (hx.symm.trans hentry)
  refine h.sender hstep (.of_eq rfl) h.owners.idx h.owners.entry ?_ ?_ ?_
  · simp [hc, Sender.noEntry]
  · intro x k hx hu howns
    obtain rfl := hsame x hx
    by_cases hcyc : c.isCyclic = true
    · have hp : (effect s (.fill c x j)).pIdx x = s.pIdx x := by simp [effect, hcyc]
      have hcb : (effect s (.fill c x j)).userCb x = s.userCb x := by simp [effect, hcyc]
      exact ⟨howns.congr hp hcb rfl rfl, hcb⟩
    · obtain ⟨k', hk'⟩ := hf.used hu
      exact absurd hk' (hfresh x hx (by simpa using hcyc) (Or.inl (by rw [hpc]; rfl)) k')
  · constructor
    · intro x k hx hk _
      obtain rfl := hsame x hx
      rw [hset.1]
      exact hidx.symm.trans hk
    · intro x hx _
      obtain rfl := hsame x hx
      exact hset.2
    · intro x hx _
      obtain rfl := hsame x hx
      rw [hdg]
      exact hidx
    · intro x hx _ hq
      obtain rfl := hsame x hx
      exact hnotQueued (hf.queued hq)
    · simp [hc]
    · intro x hx hcyc _ k hu
      obtain ⟨k', hk'⟩ := hf.used hu
      exact hfresh x hx hcyc (Or.inl (by rw [hpc]; rfl)) k' hk'

theorem inv_unsend {c : Sender} {e : Entry} {j : Idx} (h : Inv late s io eo)
    (hen : enabled s (.unsend c e j) = true) : Inv late (effect s (.unsend c e j)) io eo := by
  obtain ⟨-, hpc, hentry, hp⟩ := of_decide_eq_true hen
  have hf : Fewer s (effect s (.unsend c e j)) :=
    Fewer.of_eq rfl rfl rfl rfl rfl fun _ _ => update_none_eq_some
  obtain ⟨hmatched, hcallback, hindexed, hqueued, -, hfresh⟩ := h.senders c
  have hidx : s.idxOf c = some j := by
    have hdg := hindexed e hentry (by rw [hpc]; rfl)
    have hp' := hmatched e _ hentry hdg (Or.inr (by rw [hpc]; rfl))
    rw [hdg]
    exact hp'.symm.trans hp
  have hsent : ∀ k, s.txSend k = some e → k = j := fun k hk =>
    Option.some.inj ((h.uses e k (Uses.sent hk)).pIdx.symm.trans hp)
  have hkeep : KeepsSent late s (effect s (.unsend c e j)) := by
    intro hl d hd cb hcb honce
    refine Function.update_of_ne ?_ _ _
    rintro rfl
    -- a datagram on the bus with this index has the entry of `c`, which is sent every cycle
    have hu : Uses late s d.entry d.idx := Uses.wire hl hd
    have hde := h.entry_eq (h.uses _ _ hu) hidx
    rw [hcallback d.entry hde (Or.inr (by rw [hpc]; rfl))] at hcb
    obtain rfl : c.callback = cb := Option.some.inj hcb
    cases c with
    | cyclic c => cases honce
    | transceive | duration | noReply =>
      exact hfresh d.entry hde rfl (Or.inr (by rw [hpc]; rfl)) _ hu
  refine h.pc_step hf hkeep rfl rfl ⟨rfl, rfl⟩ ⟨rfl, rfl⟩ ⟨rfl, rfl, rfl⟩
    (by simp [Sender.noEntry]) ?_
  constructor
  · simpa [effect, hpc, Pc.unset] using hmatched
  · simpa [effect, hpc, Pc.unset] using hcallback
  · simpa [effect, hpc, Pc.indexed] using hindexed
  · intro x hx _ hq
    exact hqueued x hx (Or.inr (by rw [hpc]; rfl)) (hf.queued hq)
  · intro x hx _ k hk
    obtain rfl : e = x := Option.some.inj (hentry.symm.trans hx)
    have hk' : s.txSend k = some e := update_none_eq_some hk
    have hkj := hsent k hk'
    simp [effect, hkj] at hk
  · intro x hx hcyc _ k hu
    obtain ⟨k', hk'⟩ := hf.used hu
    exact hfresh x hx hcyc (Or.inr (by rw [hpc]; rfl)) k' hk'

theorem inv_waitOk {c : Sender} {j : Idx} (h : Inv late s io eo)
    (hen : enabled s (.waitOk c j) = true) : Inv late (effect s (.waitOk c j)) io eo := by
  obtain ⟨-, hpc, -⟩ := of_decide_eq_true hen
  refine h.pc_step (Fewer.of_eq rfl rfl rfl rfl rfl fun _ _ => id) (.of_eq rfl) rfl rfl ⟨rfl, rfl⟩ ⟨rfl, rfl⟩
    ⟨rfl, rfl, rfl⟩ (by simp [Sender.noEntry]) ?_
  obtain ⟨hmatched, hcallback, hindexed, -⟩ := h.senders c
  constructor <;> simp_all [effect, Pc.complete, Pc.indexed, Pc.unset]

theorem inv_waitFail {c : Sender} (h : Inv late s io eo) (hen : enabled s (.waitFail c) = true) :
    Inv late (effect s (.waitFail c)) io eo := by
  obtain ⟨-, hpc⟩ := of_decide_eq_true hen
  obtain ⟨hmatched, hcallback, hindexed, -⟩ := h.senders c
  refine h.pc_step (Fewer.of_eq rfl rfl rfl rfl rfl fun _ _ => id) (.of_eq rfl) rfl rfl ⟨rfl, rfl⟩ ⟨rfl, rfl⟩
    ⟨rfl, rfl, rfl⟩ ?_ ?_
  · cases c <;> simp [Sender.noEntry]
  · constructor <;> cases c <;> simp_all [effect, Pc.complete, Pc.indexed, Pc.unset]

theorem inv_poolRemove {t : ℕ} {e : Entry} (h : Inv late s io eo)
    (hen : enabled s (.poolRemove t e) = true) : Inv late (effect s (.poolRemove t e)) io eo := by
  obtain ⟨hpc, -⟩ := of_decide_eq_true hen
  have hf : Fewer s (effect s (.poolRemove t e)) :=
    ⟨List.Sublist.refl _, List.erase_sublist, fun _ => id, fun _ _ => id, fun _ _ => id,
      List.Sublist.refl _⟩
  refine h.pc_step hf (.of_eq rfl) rfl rfl ⟨rfl, rfl⟩ ⟨rfl, rfl⟩ ⟨rfl, rfl, rfl⟩
    (by simp [Sender.noEntry]) ?_
  obtain ⟨hmatched, hcallback, hindexed, -⟩ := h.senders (.transceive t)
  constructor <;> simp_all [effect, Pc.complete, Pc.indexed, Pc.unset]

theorem inv_loopEnd {t : ℕ} {e : Entry} {expired : Bool} (h : Inv late s io eo)
    (hen : enabled s (.loopEnd t e expired) = true)
    (hok : StepOk late s (.loopEnd t e expired)) :
    Inv late (effect s (.loopEnd t e expired)) io eo := by
  obtain ⟨hpc, hentry⟩ := of_decide_eq_true hen
  have hf : Fewer s (effect s (.loopEnd t e expired)) := by
    refine Fewer.of_eq rfl rfl rfl rfl rfl fun k x hk => ?_
    cases expired with
    | false => exact hk
    | true => exact update_none_eq_some hk
  have hkeep : KeepsSent late s (effect s (.loopEnd t e expired)) := by
    intro hl d hd _ _ _
    cases expired with
    | false => rfl
    | true =>
      refine Function.update_of_ne (fun hde => ?_) _ _
      have hu : Uses late s d.entry d.idx := Uses.wire hl hd
      have hidx := (h.senders (.transceive t)).indexed e hentry (by rw [hpc]; rfl)
      rw [← hde] at hidx
      have hentry' := h.entry_eq (h.uses _ _ hu) hidx
      obtain rfl : e = d.entry := Option.some.inj (hentry.symm.trans hentry')
      exact hok hl rfl d.idx hu
  refine h.pc_step hf hkeep rfl rfl ⟨rfl, rfl⟩ ⟨rfl, rfl⟩ ⟨rfl, rfl, rfl⟩
    (by simp [Sender.noEntry]) ?_
  obtain ⟨hmatched, hcallback, hindexed, -⟩ := h.senders (.transceive t)
  constructor <;> simp_all [effect, Pc.complete, Pc.indexed, Pc.unset]

/-! ## What a sender gives back -/

/-- The entry is used nowhere any more. -/
theorem Inv.giveEntry {c : Sender} {e : Entry} (h : Inv late s io eo) (hentry : s.entryOf c = some e)
    (hunused : ∀ j, ¬ Uses late s e j) {pc : Sender → Pc} (hpc : ∀ c', c' ≠ c → pc c' = s.pc c') :
    Inv late { s with pool := s.pool ++ [e], entryOf := update s.entryOf c none, pc := pc } io
      (update eo e .free) := by
  have heo : eo e = .holder c := (h.owners.entry.ownerHolder c e).1 hentry
  have hne : ∀ x, eo x ≠ .holder c → x ≠ e := by
    intro x hx hxe
    exact hx (hxe ▸ heo)
  have hf : Fewer s { s with pool := s.pool ++ [e], entryOf := update s.entryOf c none, pc := pc } :=
    Fewer.of_eq rfl rfl rfl rfl rfl fun _ _ => id
  have hnone : update s.entryOf c none c = none := Function.update_self ..
  have hstep : SenderStep s
      { s with pool := s.pool ++ [e], entryOf := update s.entryOf c none, pc := pc } io io eo
      (update eo e .free) c := by
    refine ⟨hf, rfl, fun c' hc' => ?_, fun _ _ _ => ⟨rfl, rfl, rfl⟩, fun _ _ => rfl,
      fun _ _ _ => rfl, fun x _ hx => Function.update_of_ne (hne x hx) _ _, fun x hx => ⟨rfl, ?_⟩⟩
    · exact ⟨hpc c' hc', rfl, Function.update_of_ne hc' _ _⟩
    · obtain ⟨-, -, -, hfree⟩ := h.owners.freed x hx
      exact Function.update_of_ne (hne x (by simp [hfree])) _ _
  refine h.sender hstep (.of_eq rfl) h.owners.idx (h.owners.entry.put hentry) (fun _ => hnone) ?_
    (SenderOk.of_none hnone)
  intro x j hx hu _
  obtain rfl : e = x := Option.some.inj (hentry.symm.trans hx)
  obtain ⟨k, hk⟩ := hf.used hu
  exact absurd hk (hunused k)

theorem inv_poolPut {c : Sender} {e : Entry} (h : Inv late s io eo)
    (hen : enabled s (.poolPut c e) = true) (hok : StepOk late s (.poolPut c e)) :
    Inv late (effect s (.poolPut c e)) io (update eo e .free) := by
  obtain ⟨-, hentry⟩ := of_decide_eq_true hen
  exact h.giveEntry hentry hok fun c' hc' => Function.update_of_ne hc' _ _

theorem inv_indexPut {c : Sender} {j : Idx} (h : Inv late s io eo)
    (hen : enabled s (.indexPut c j) = true) :
    Inv late (effect s (.indexPut c j)) (update io j .free) eo := by
  obtain ⟨hpc, hidx⟩ := of_decide_eq_true hen
  have hnone : s.entryOf c = none := h.owners.noEntry c (by rw [hpc]; rfl)
  have hstep : SenderStep s (effect s (.indexPut c j)) io (update io j .free) eo eo c := by
    refine ⟨Fewer.of_eq rfl rfl rfl rfl rfl fun _ _ => id, rfl, fun c' hc' => ?_,
      fun _ _ _ => ⟨rfl, rfl, rfl⟩, fun _ _ => rfl, fun k _ hk => Function.update_of_ne ?_ _ _,
      fun _ _ _ => rfl, fun _ _ => ⟨rfl, rfl⟩⟩
    · exact ⟨Function.update_of_ne hc' _ _, Function.update_of_ne hc' _ _, rfl⟩
    · rintro rfl
      exact hk ((h.owners.idx.ownerHolder c k).1 hidx)
  refine h.sender hstep (.of_eq rfl) (h.owners.idx.put hidx) h.owners.entry (fun _ => hnone) ?_
    (SenderOk.of_none hnone)
  intro x k hx
  rw [hnone] at hx
  cases hx

theorem inv_cleanIdx {c : Cyclic} {j : Idx} (h : Inv late s io eo)
    (hen : enabled s (.cleanIdx c j) = true) (hok : StepOk late s (.cleanIdx c j)) :
    Inv late (effect s (.cleanIdx c j)) (update io j .free) eo := by
  obtain ⟨-, hidx⟩ := of_decide_eq_true hen
  obtain ⟨hpc, hwire, hplaces⟩ := hok
  have hf : Fewer s (effect s (.cleanIdx c j)) :=
    Fewer.of_eq rfl rfl rfl rfl rfl fun _ _ => update_none_eq_some
  have hio : io j = .holder (.cyclic c) := (h.owners.idx.ownerHolder _ _).1 hidx
  have hstep : SenderStep s (effect s (.cleanIdx c j)) io (update io j .free) eo eo (.cyclic c) := by
    refine ⟨hf, rfl, fun c' hc' => ⟨rfl, Function.update_of_ne hc' _ _, rfl⟩,
      fun _ _ _ => ⟨rfl, rfl, rfl⟩, fun _ _ => rfl, fun k _ hk => Function.update_of_ne ?_ _ _,
      fun _ _ _ => rfl, fun _ _ => ⟨rfl, rfl⟩⟩
    rintro rfl
    exact hk hio
  have hkeep : KeepsSent late s (effect s (.cleanIdx c j)) := fun hl d hd _ _ _ =>
    Function.update_of_ne (hwire hl d hd) _ _
  refine h.sender hstep hkeep (h.owners.idx.put hidx) h.owners.entry ?_ ?_ ?_
  · exact h.owners.noEntry (.cyclic c)
  · intro e k he hu howns
    obtain ⟨hqueued, hrx⟩ := hplaces e he
    cases hu with
    | queued hq => exact absurd (hf.queued hq) hqueued
    | sent hs =>
      have heo := (h.owners.entry.ownerHolder _ _).1 he
      have hk : s.idxOf (.cyclic c) = some k :=
        (h.owners.idx.ownerHolder _ _).2 (howns.holder heo).1
      obtain rfl : j = k := Option.some.inj (hidx.symm.trans hk)
      simp [effect] at hs
    | rx hr => exact absurd hr (hrx k)
    | wire hl hd =>
      have hu' : Uses late s e k := Uses.wire hl hd
      have heo := (h.owners.entry.ownerHolder _ _).1 he
      have hk := (h.owners.idx.ownerHolder _ _).2 ((h.uses e k hu').holder heo).1
      exact absurd (Option.some.inj (hk.symm.trans hidx)) (hwire hl _ hd)
  · obtain ⟨-, hcallback, -⟩ := h.senders (.cyclic c)
    constructor
    · simp [effect]
    · exact hcallback
    all_goals simp [effect, hpc, Pc.complete, Pc.indexed, Pc.unset]

theorem inv_cleanEntry {c : Cyclic} {e : Entry} (h : Inv late s io eo)
    (hen : enabled s (.cleanEntry c e) = true) (hok : StepOk late s (.cleanEntry c e)) :
    Inv late (effect s (.cleanEntry c e)) io (update eo e .free) := by
  obtain ⟨-, hentry⟩ := of_decide_eq_true hen
  obtain ⟨-, hunused⟩ := hok
  exact h.giveEntry hentry hunused fun _ _ => rfl

/-- Owners after an initialisation: what the datagram had is on its own. -/
def lostIdx (s : State) (c : Sender) (io : Idx → IdxOwner) : Idx → IdxOwner :=
  match s.idxOf c, s.entryOf c with
  | none, _ => io
  | some j, none => update io j (.other .lost)
  | some j, some e => update io j (.other (.entry e))

def lostEntry (s : State) (c : Sender) (eo : Entry → EntryOwner) : Entry → EntryOwner :=
  match s.entryOf c with
  | none => eo
  | some e => update eo e (.other ())

theorem custody_lostIdx {c : Sender} (h : Custody s.idxQ s.idxOf io) :
    Custody s.idxQ (update s.idxOf c none) (lostIdx s c io) := by
  unfold lostIdx
  cases hidx : s.idxOf c with
  | none =>
    have hsame : update s.idxOf c none = s.idxOf := by rw [← hidx, Function.update_eq_self]
    rw [hsame]
    exact h
  | some j =>
    cases s.entryOf c with
    | none => exact h.release hidx _
    | some e => exact h.release hidx _

theorem custody_lostEntry {c : Sender} (h : Custody s.pool s.entryOf eo) :
    Custody s.pool (update s.entryOf c none) (lostEntry s c eo) := by
  unfold lostEntry
  cases hentry : s.entryOf c with
  | none =>
    have hsame : update s.entryOf c none = s.entryOf := by
      rw [← hentry, Function.update_eq_self]
    rw [hsame]
    exact h
  | some e => exact h.release hentry _

theorem lostIdx_of_ne {c : Sender} {j : Idx} (h : s.idxOf c ≠ some j) :
    lostIdx s c io j = io j := by
  unfold lostIdx
  cases hidx : s.idxOf c with
  | none => rfl
  | some k =>
    have hjk : j ≠ k := by
      rintro rfl
      exact h hidx
    cases s.entryOf c with
    | none => exact Function.update_of_ne hjk _ _
    | some e => exact Function.update_of_ne hjk _ _

theorem lostEntry_of_ne {c : Sender} {e : Entry} (h : s.entryOf c ≠ some e) :
    lostEntry s c eo e = eo e := by
  unfold lostEntry
  cases hentry : s.entryOf c with
  | none => rfl
  | some x =>
    refine Function.update_of_ne ?_ _ _
    rintro rfl
    exact h hentry

theorem inv_create {c : Cyclic} (h : Inv late s io eo) :
    Inv late (effect s (.create c)) (lostIdx s (.cyclic c) io) (lostEntry s (.cyclic c) eo) := by
  have hnone : (effect s (.create c)).entryOf (.cyclic c) = none := Function.update_self ..
  have hidxNe : ∀ j, io j ≠ .holder (.cyclic c) → s.idxOf (.cyclic c) ≠ some j :=
    fun j hj hj' => hj ((h.owners.idx.ownerHolder _ j).1 hj')
  have hentryNe : ∀ e, eo e ≠ .holder (.cyclic c) → s.entryOf (.cyclic c) ≠ some e :=
    fun e he he' => he ((h.owners.entry.ownerHolder _ e).1 he')
  have hstep : SenderStep s (effect s (.create c)) io (lostIdx s (.cyclic c) io) eo
      (lostEntry s (.cyclic c) eo) (.cyclic c) := by
    refine ⟨Fewer.of_eq rfl rfl rfl rfl rfl fun _ _ => id, rfl, fun c' hc' => ?_,
      fun _ _ _ => ⟨rfl, rfl, rfl⟩, fun _ _ => rfl, fun j _ hj => lostIdx_of_ne (hidxNe j hj),
      fun e _ he => lostEntry_of_ne (hentryNe e he), fun e he => ⟨rfl, ?_⟩⟩
    · exact ⟨rfl, Function.update_of_ne hc' _ _, Function.update_of_ne hc' _ _⟩
    · obtain ⟨-, -, -, hfree⟩ := h.owners.freed e he
      exact lostEntry_of_ne (hentryNe e (by simp [hfree]))
  refine h.sender hstep (.of_eq rfl) (custody_lostIdx h.owners.idx) (custody_lostEntry h.owners.entry)
    (fun _ => hnone) ?_ (SenderOk.of_none hnone)
  intro e j he _ howns
  have hidx : s.idxOf (.cyclic c) = some j := (h.owners.idx.ownerHolder _ j).2
    (howns.holder ((h.owners.entry.ownerHolder _ e).1 he)).1
  refine ⟨⟨howns.pIdx, Or.inr ⟨?_, ?_⟩⟩, rfl⟩
  · simp [lostEntry, he]
  · simp [lostIdx, hidx, he]

end

end LibEthercat.Bus
