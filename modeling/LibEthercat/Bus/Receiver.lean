import LibEthercat.Bus.Queues

/-!
# The receiver

`hw_process_rx_frame` takes an entry out of `tx_send` and calls its callback. A callback writes
into the entry or puts it back, so it must be the only one that refers to it; for the datagrams
that are sent once it is.
-/

namespace LibEthercat.Bus

open Function (update)
open Custodian (Owner Custody)

section
variable {late : Bool} {s s' : State} {io : Idx → IdxOwner} {eo : Entry → EntryOwner}

theorem uses_rxTake {e : Entry} {j k : Idx} (hu : Uses late (rxTake s j) e k) :
    Uses late s e k := by
  unfold rxTake at hu
  cases hj : s.txSend j with
  | none => rwa [hj] at hu
  | some x =>
    rw [hj] at hu
    cases hu with
    | queued hx => exact Uses.queued hx
    | sent hx => exact Uses.sent (update_none_eq_some hx)
    | rx hx =>
      cases hx
      exact Uses.sent hj
    | wire hl hx => exact Uses.wire hl hx

/-- The datagram that has led to an entry is off the bus. -/
theorem Inv.rxTake (h : Inv late s io eo) (j : Idx)
    (hwire : late = true → ∀ e cb, s.txSend j = some e → s.userCb e = some cb → cb.once = true →
      ∀ d ∈ s.wire, d.entry ≠ e) :
    Inv late (rxTake s j) io eo := by
  unfold Bus.rxTake
  cases hj : s.txSend j with
  | none => exact h
  | some e =>
    have hsent : ∀ k x, update s.txSend j none k = some x → s.txSend k = some x :=
      fun _ _ => update_none_eq_some
    refine h.moved_same ⟨⟨rfl, rfl, rfl⟩, rfl, rfl, fun _ _ _ _ => rfl, fun _ => id, ?_,
      fun x k hk => Or.inl (hsent k x hk)⟩ rfl rfl ?_ ?_
    · intro x k hu
      have hu' : Uses late (Bus.rxTake s j) x k := by rwa [Bus.rxTake, hj]
      exact uses_rxTake hu'
    · intro x hx
      cases hx
    · obtain ⟨hhigh, hlow, hdisjoint, hhtx, hltx, hqs, -, honWire⟩ := h.places
      refine ⟨hhigh, hlow, hdisjoint, hhtx, hltx, fun x hx k hk => hqs x hx k (hsent k x hk),
        fun x k cb hx hcb hone => ?_, fun hl d hd cb hcb hone => ?_⟩
      · cases hx
        refine ⟨fun hq => hqs e hq j hj, fun k hk => ?_⟩
        -- the entry is in `tx_send` once, under its own index
        have hk' := hsent k e hk
        have hkj : k = j := Option.some.inj
          ((h.uses e k (Uses.sent hk')).pIdx.symm.trans (h.uses e j (Uses.sent hj)).pIdx)
        simp [hkj] at hk
      · obtain ⟨hmark, hcount⟩ := honWire hl d hd cb hcb hone
        refine ⟨(Function.update_of_ne (fun hdj => ?_) _ _).trans hmark, hcount⟩
        rw [hdj, hj] at hmark
        obtain rfl : e = d.entry := Option.some.inj hmark
        exact hwire hl d.entry cb hj hcb hone d hd rfl

/-- A step after which the receiver is done with a datagram. -/
theorem Inv.quiet (h : Inv late s io eo)
    (hsame : s'.txHigh = s.txHigh ∧ s'.txLow = s.txLow ∧ s'.tx = s.tx ∧ s'.txSend = s.txSend)
    (hrx : s'.rx.use = none ∧ (∀ e, s'.rx ≠ .freed e) ∨ s'.rx = s.rx)
    (hsenders : s'.pc = s.pc ∧ s'.idxOf = s.idxOf ∧ s'.entryOf = s.entryOf)
    (hdata : s'.pIdx = s.pIdx ∧ s'.userCb = s.userCb ∧ s'.dgIdx = s.dgIdx)
    (hwire : s'.wire.Sublist s.wire) (hidx : s'.idxQ = s.idxQ) (hentry : s'.pool = s.pool) :
    Inv late s' io eo := by
  obtain ⟨hhigh, hlow, htx, hsent⟩ := hsame
  obtain ⟨hp, hcb, hdg⟩ := hdata
  have hf : Fewer s s' := by
    refine ⟨by rw [hhigh], by rw [hlow], by rw [htx]; exact fun _ => id,
      by rw [hsent]; exact fun _ _ => id, ?_, hwire⟩
    rcases hrx with ⟨hnone, -⟩ | hrx
    · rw [hnone]
      intro e j hj
      cases hj
    · rw [hrx]
      exact fun _ _ => id
  refine h.moved_same (Moved.of_fewer hf hsenders hp hcb hdg) hidx hentry (fun e he => ?_)
    (h.places.fewer hf (.of_eq hsent) fun _ _ _ => by rw [hcb])
  rcases hrx with ⟨-, hno⟩ | hrx
  · exact absurd he (hno e)
  · exact hrx ▸ he

theorem inv_rxTake {d : Datagram} (h : Inv late s io eo)
    (hen : enabled s (.rxTake d) = true) : Inv late (effect s (.rxTake d)) io eo := by
  obtain ⟨-, hd⟩ := of_decide_eq_true hen
  have herase : Inv late { s with wire := s.wire.erase d } io eo :=
    h.quiet ⟨rfl, rfl, rfl, rfl⟩ (Or.inr rfl) ⟨rfl, rfl, rfl⟩ ⟨rfl, rfl, rfl⟩ List.erase_sublist rfl
      rfl
  refine herase.rxTake d.idx fun hl e cb he hcb hone w hw hwe => ?_
  have hu : Uses late s d.entry d.idx := Uses.wire hl hd
  obtain rfl : d.entry = e := h.index_unique hu (Uses.sent he)
  have hw' : Uses late s d.entry w.idx := hwe ▸ Uses.wire hl (List.mem_of_mem_erase hw)
  have hidx : w.idx = d.idx :=
    Option.some.inj ((h.uses _ _ hw').pIdx.symm.trans (h.uses _ _ hu).pIdx)
  obtain rfl : w = d := by
    cases w
    cases d
    cases hidx
    cases hwe
    rfl
  have hcount := (h.places.onWire hl w hd cb hcb hone).2
  have hpos := List.count_pos_iff.2 hw
  rw [List.count_erase_self] at hpos
  omega

theorem inv_rxForeign {j : Idx} (h : Inv late s io eo) (hok : StepOk late s (.rxForeign j)) :
    Inv late (effect s (.rxForeign j)) io eo := by
  refine h.rxTake j fun hl e cb he _ _ _ _ _ => ?_
  rw [hok hl] at he
  cases he

theorem inv_lost {d : Datagram} (h : Inv late s io eo) : Inv late (effect s (.lost d)) io eo :=
  h.quiet ⟨rfl, rfl, rfl, rfl⟩ (Or.inr rfl) ⟨rfl, rfl, rfl⟩ ⟨rfl, rfl, rfl⟩ List.erase_sublist rfl
    rfl

theorem inv_rxPost {e : Entry} {i j : Idx} (h : Inv late s io eo) :
    Inv late (effect s (.rxPost e i j)) io eo :=
  h.quiet ⟨rfl, rfl, rfl, rfl⟩ (Or.inl ⟨rfl, by simp [effect]⟩) ⟨rfl, rfl, rfl⟩ ⟨rfl, rfl, rfl⟩
    (List.Sublist.refl _) rfl rfl

theorem inv_rxReturn (h : Inv late s io eo) : Inv late (effect s .rxReturn) io eo :=
  h.quiet ⟨rfl, rfl, rfl, rfl⟩ (Or.inl ⟨rfl, by simp [effect]⟩) ⟨rfl, rfl, rfl⟩ ⟨rfl, rfl, rfl⟩
    (List.Sublist.refl _) rfl rfl

theorem inv_rxIndexPut {e : Entry} {j : Idx} (h : Inv late s io eo)
    (hen : enabled s (.rxIndexPut e j) = true) :
    Inv late (effect s (.rxIndexPut e j)) (update io j .free) eo := by
  obtain ⟨hrx, hp⟩ := of_decide_eq_true hen
  obtain ⟨k, hk, hrec, -⟩ := h.owners.freed e hrx
  obtain rfl : j = k := Option.some.inj (hp.symm.trans hk)
  have hf : Fewer s (effect s (.rxIndexPut e j)) :=
    ⟨List.Sublist.refl _, List.Sublist.refl _, fun _ => id, fun _ _ => id, by simp [effect, Rx.use],
      List.Sublist.refl _⟩
  refine h.moved (Moved.of_fewer hf ⟨rfl, rfl, rfl⟩ rfl rfl rfl) (h.owners.idx.adopt hrec)
    h.owners.entry (by simp [effect]) (fun x k _ howns => ⟨rfl, ?_⟩)
    (h.places.fewer hf (.of_eq rfl) fun _ _ _ => rfl)
  refine Function.update_of_ne ?_ _ _
  rintro rfl
  exact howns.not_free.2.2.2 hrec

/-- No callback makes a reference. -/
theorem fewer_rxCall {e : Entry} {j : Idx} (hrx : s.rx = .called e j) :
    Fewer s (rxCall s e j) := by
  have hrest : (rxCall s e j).txHigh = s.txHigh ∧ (rxCall s e j).txLow = s.txLow ∧
      (rxCall s e j).tx = s.tx ∧ (rxCall s e j).txSend = s.txSend ∧
      (rxCall s e j).wire = s.wire := by
    unfold rxCall
    split <;> exact ⟨rfl, rfl, rfl, rfl, rfl⟩
  obtain ⟨hhigh, hlow, htx, hsent, hwire⟩ := hrest
  refine ⟨by rw [hhigh], by rw [hlow], by rw [htx]; exact fun _ => id,
    by rw [hsent]; exact fun _ _ => id, ?_, by rw [hwire]⟩
  rw [hrx]
  unfold rxCall
  split <;> simp [Rx.use]

/-- `cb_block` writes the index that the entry has already. -/
theorem inv_rxCall_block {e : Entry} {j : Idx} (h : Inv late s io eo) (hrx : s.rx = .called e j)
    (hcb : s.userCb e = some .block) :
    Inv late { s with dgIdx := update s.dgIdx e j, rx := .posting e j } io eo := by
  have huse : s.rx.use = some (e, j) := by
    rw [hrx]
    rfl
  obtain ⟨hnot, -⟩ := h.places.once e j .block huse hcb rfl
  have hne : ∀ x, Queued s x → x ≠ e := by
    rintro x hx rfl
    exact hnot hx
  have hf : Fewer s { s with dgIdx := update s.dgIdx e j, rx := .posting e j } := by
    have hcall := fewer_rxCall hrx
    rwa [rxCall, hcb] at hcall
  have hm : Moved late s { s with dgIdx := update s.dgIdx e j, rx := .posting e j } := by
    refine ⟨⟨rfl, rfl, rfl⟩, rfl, rfl, fun c x hx hset => ?_,
      fun _ => id, fun x k hu => ?_, fun _ _ => Or.inl⟩
    · by_cases hxe : x = e
      · subst hxe
        have hidx := (h.senders c).indexed x hx hset
        have hholder := (h.owners.entry.ownerHolder c x).1 hx
        have hj := (h.owners.idx.ownerHolder c j).2
          ((h.uses x j (Uses.rx huse)).holder hholder).1
        exact (Function.update_self ..).trans (Option.some.inj (hj.symm.trans hidx))
      · exact Function.update_of_ne hxe _ _
    · refine hf.uses (fun x hx => Function.update_of_ne (hne x hx) _ _) hu
  exact h.moved_same hm rfl rfl (by simp) (h.places.fewer hf (.of_eq rfl) fun _ _ _ => rfl)

/-- An entry with this callback is on its own. -/
theorem called_noReply {e : Entry} {j : Idx} (h : Inv late s io eo) (hrx : s.rx = .called e j)
    (hcb : s.userCb e = some .noReply) : eo e = .other () ∧ io j = .other (.entry e) := by
  have huse : s.rx.use = some (e, j) := by
    rw [hrx]
    rfl
  rcases (h.uses e j (Uses.rx huse)).owner with ⟨c, hc, -, -, hcb'⟩ | howner
  · rw [hcb] at hcb'
    cases c with
    | noReply => exact absurd rfl hc
    | transceive | duration | cyclic => cases hcb'
  · exact howner

/-- `cb_no_reply` puts back an entry that nobody else refers to. -/
theorem inv_rxCall_noReply {e : Entry} {j : Idx} (h : Inv late s io eo) (hrx : s.rx = .called e j)
    (hcb : s.userCb e = some .noReply) :
    Inv late { s with pool := s.pool ++ [e], rx := .freed e } (update io j (.other .receiver))
      (update eo e .free) := by
  have huse : s.rx.use = some (e, j) := by
    rw [hrx]
    rfl
  have howns := h.uses e j (Uses.rx huse)
  obtain ⟨heo, hio⟩ := called_noReply h hrx hcb
  obtain ⟨hnot, hsent⟩ := h.places.once e j .noReply huse hcb rfl
  have hf : Fewer s { s with pool := s.pool ++ [e], rx := .freed e } := by
    have hcall := fewer_rxCall hrx
    rwa [rxCall, hcb] at hcall
  have hm : Moved late s { s with pool := s.pool ++ [e], rx := .freed e } :=
    Moved.of_fewer hf ⟨rfl, rfl, rfl⟩ rfl rfl rfl
  refine h.moved hm (h.owners.idx.pass hio _) (h.owners.entry.adopt heo) ?_ (fun x k hu _ => ?_)
    (h.places.fewer hf (.of_eq rfl) fun _ _ _ => rfl)
  · rintro x ⟨rfl⟩
    exact ⟨j, howns.pIdx, Function.update_self .., Function.update_self ..⟩
  · have hx : x ≠ e := by
      rintro rfl
      cases hu with
      | queued hq => exact hnot hq
      | sent hs => exact hsent k hs
      | rx hr => cases hr
      | wire hl hd => exact hsent k (h.places.onWire hl _ hd _ hcb rfl).1
    have hk : k ≠ j := by
      rintro rfl
      exact hx (h.index_unique (hm.uses x k hu) (Uses.rx huse))
    exact ⟨Function.update_of_ne hx _ _, Function.update_of_ne hk _ _⟩

/-- Owners after a callback. -/
def callIdx (s : State) (e : Entry) (j : Idx) (io : Idx → IdxOwner) : Idx → IdxOwner :=
  if s.userCb e = some .noReply then update io j (.other .receiver) else io

def callEntry (s : State) (e : Entry) (eo : Entry → EntryOwner) : Entry → EntryOwner :=
  if s.userCb e = some .noReply then update eo e .free else eo

theorem inv_rxCall {e : Entry} {j : Idx} (h : Inv late s io eo)
    (hen : enabled s (.rxCall e j) = true) :
    Inv late (effect s (.rxCall e j)) (callIdx s e j io) (callEntry s e eo) := by
  have hrx : s.rx = .called e j := of_decide_eq_true hen
  have hdone : ∀ r : Rx, r.use = none ∧ (∀ x, r ≠ .freed x) → Inv late { s with rx := r } io eo :=
    fun r hr => h.quiet ⟨rfl, rfl, rfl, rfl⟩ (Or.inl hr) ⟨rfl, rfl, rfl⟩ ⟨rfl, rfl, rfl⟩
      (List.Sublist.refl _) rfl rfl
  show Inv late (rxCall s e j) (callIdx s e j io) (callEntry s e eo)
  unfold callIdx callEntry
  by_cases hnoReply : s.userCb e = some .noReply
  · rw [if_pos hnoReply, if_pos hnoReply, rxCall, hnoReply]
    exact inv_rxCall_noReply h hrx hnoReply
  · rw [if_neg hnoReply, if_neg hnoReply]
    unfold rxCall
    split
    · exact hdone .idle ⟨rfl, by simp⟩
    · next hcb => exact inv_rxCall_block h hrx hcb
    · next hcb =>
      have hf : Fewer s { s with rx := .posting e j } := by
        have hcall := fewer_rxCall hrx
        rwa [rxCall, hcb] at hcall
      exact h.moved_same (Moved.of_fewer hf ⟨rfl, rfl, rfl⟩ rfl rfl rfl) rfl rfl (by simp)
        (h.places.fewer hf (.of_eq rfl) fun _ _ _ => rfl)
    · next hcb => exact absurd hcb hnoReply
    · exact hdone .distributedClocks ⟨rfl, by simp⟩
    · exact hdone .idle ⟨rfl, by simp⟩

end

end LibEthercat.Bus
