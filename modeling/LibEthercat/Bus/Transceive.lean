import LibEthercat.Bus.Invariant

/-!
# What `ec_transceive` leaves behind

`ec_transceive` puts its entry and its index back after the answer, or after the wait has failed and
`pool_remove` has taken the entry out of `tx_low`. Nothing refers to the entry then, and no frame
with it is on the bus (`LeavesNothing`), if the wait fails only while the entry is in `tx_low`.

Over the invariant of the bus, with frames under way counted as references, a sender that waits
has one of three things (`Waits`): an entry that is on its way, a waiter that has been posted, or an
entry in `tx_low` that it is about to remove.

**Theorem (`leavesNothing_run`).** So it is after every run whose steps meet `TransceiveOk`. It is
not when the wait fails for an entry that has been sent (`timeout_leaves_mark`).
-/

namespace LibEthercat.Bus

open Function (update)

/-! ## Condition and property -/

/-- As `StepOk`, for frames on the bus too. `ec_transceive` itself may end in any way, but its wait
fails only while its entry is in `tx_low`, where it stays until `pool_remove`. -/
def TransceiveOk (s : State) : Action → Prop
  | .waitFail c => ∀ t e, c = .transceive t → s.entryOf c = some e → e ∈ s.txLow
  | .txPop high e => high = false →
    ∀ t, s.pc (.transceive t) = .failed → s.entryOf (.transceive t) ≠ some e
  | .poolRemove _ _ | .loopEnd _ _ _ => True
  | .poolPut c e => (∀ t, c ≠ .transceive t) → ∀ j, ¬ Uses true s e j
  | a => StepOk true s a

/-- Nothing refers to an entry that has been put back, a frame on the bus belongs to the sender
that has its index and its entry, and `pool_remove` finds the entry in its queue. -/
structure LeavesNothing (s : State) : Prop where
  entry : ∀ e ∈ s.pool, e ∉ s.txHigh ∧ e ∉ s.txLow ∧ s.tx ≠ some e ∧ ∀ j, s.txSend j ≠ some e
  frame : ∀ d ∈ s.wire, d.entry ∉ s.pool ∧ d.idx ∉ s.idxQ
  delivered : ∀ d ∈ s.wire, ∀ e, s.txSend d.idx = some e → e = d.entry
  sender : ∀ d ∈ s.wire, ∀ c, s.idxOf c = some d.idx → s.entryOf c = some d.entry
  unsent : ∀ t e, s.entryOf (.transceive t) = some e → (s.pc (.transceive t)).complete = true →
    ∀ d ∈ s.wire, d.entry ≠ e
  remove : ∀ t e, s.pc (.transceive t) = .failed → s.entryOf (.transceive t) = some e →
    e ∈ s.txLow

/-! ## Senders that wait -/

/-- Before the datagram is queued. -/
def Pc.early : Pc → Bool
  | gotIdx | gotEntry | cleared | filled | unsent => true
  | _ => false

/-- What a sender knows about its waiter and its entry. -/
structure Waits (s : State) (c : Sender) : Prop where
  unposted : c.isCyclic = false → (s.pc c).early = true →
    ∀ j, s.idxOf c = some j → s.waiter j = false
  posted : c.isCyclic = false → s.pc c = .waiting →
    ∀ e j, s.entryOf c = some e → s.idxOf c = some j → s.waiter j = true → ∀ k, ¬ Uses true s e k
  failed : ∀ t, c = .transceive t → s.pc c = .failed → ∀ e, s.entryOf c = some e → e ∈ s.txLow
  ended : ∀ t, c = .transceive t → s.pc c = .removed ∨ s.pc c = .ended →
    ∀ e, s.entryOf c = some e → ∀ k, ¬ Uses true s e k

section
variable {s s' : State} {io : Idx → IdxOwner} {eo : Entry → EntryOwner}

/-- A sender that the step is not about. -/
theorem Waits.keep {c : Sender} (h : Waits s c) (hpc : s'.pc c = s.pc c)
    (hidx : s'.idxOf c = s.idxOf c) (hentry : s'.entryOf c = s.entryOf c)
    (hwaiter : ∀ j, s.idxOf c = some j → s'.waiter j = true → s.waiter j = true)
    (huses : ∀ e k, s.entryOf c = some e → Uses true s' e k → ∃ k', Uses true s e k')
    (hlow : ∀ t, c = .transceive t → s.pc c = .failed → ∀ e, s.entryOf c = some e →
      e ∈ s.txLow → e ∈ s'.txLow) : Waits s' c := by
  obtain ⟨hunposted, hposted, hfailed, hended⟩ := h
  constructor
  · rw [hpc, hidx]
    intro hcyc hearly j hj
    have hfalse := hunposted hcyc hearly j hj
    by_cases hpost : s'.waiter j = true
    · rw [hwaiter j hj hpost] at hfalse
      cases hfalse
    · simpa using hpost
  · rw [hpc, hidx, hentry]
    intro hcyc hwaiting e j he hj hpost k hk
    obtain ⟨k', hk'⟩ := huses e k he hk
    exact hposted hcyc hwaiting e j he hj (hwaiter j hj hpost) k' hk'
  · rw [hpc, hentry]
    exact fun t ht hfail e he => hlow t ht hfail e he (hfailed t ht hfail e he)
  · rw [hpc, hentry]
    intro t ht hend e he k hk
    obtain ⟨k', hk'⟩ := huses e k he hk
    exact hended t ht hend e he k' hk'

/-- Nothing to know about a sender that is idle, or has no entry and no index to wait for. -/
theorem Waits.of_pc {c : Sender} (h : s.pc c = .idle ∨ s.pc c = .entryPut) : Waits s c := by
  constructor <;> rcases h with h | h <;> simp [h, Pc.early]

theorem Waits.of_early {c : Sender} (hpc : (s.pc c).early = true)
    (h : c.isCyclic = false → ∀ j, s.idxOf c = some j → s.waiter j = false) : Waits s c := by
  refine ⟨fun hcyc _ => h hcyc, fun _ hp => ?_, fun _ _ hp => ?_, fun _ _ hp => ?_⟩
  · rw [hp] at hpc
    cases hpc
  · rw [hp] at hpc
    cases hpc
  · rcases hp with hp | hp <;> rw [hp] at hpc <;> cases hpc

/-- A step of `c` that makes no reference, posts nobody and leaves `tx_low` alone. -/
theorem waits_sender {c : Sender} (h : ∀ c, Waits s c) (hf : Fewer s s')
    (hother : ∀ c', c' ≠ c →
      s'.pc c' = s.pc c' ∧ s'.idxOf c' = s.idxOf c' ∧ s'.entryOf c' = s.entryOf c')
    (hwaiter : ∀ j, s'.waiter j = true → s.waiter j = true) (hlow : s'.txLow = s.txLow)
    (hc : Waits s' c) : ∀ c', Waits s' c' := by
  intro c'
  by_cases hc' : c' = c
  · subst hc'
    exact hc
  · obtain ⟨hpc, hidx, hentry⟩ := hother c' hc'
    exact (h c').keep hpc hidx hentry (fun j _ => hwaiter j) (fun _ _ _ => hf.used)
      fun _ _ _ e _ he => by rwa [hlow]

/-- A step of the transmitter or the receiver. -/
theorem waits_moved (h : ∀ c, Waits s c)
    (hsenders : s'.pc = s.pc ∧ s'.idxOf = s.idxOf ∧ s'.entryOf = s.entryOf)
    (huses : ∀ e k, Uses true s' e k → ∃ k', Uses true s e k') (hwaiter : s'.waiter = s.waiter)
    (hlow : ∀ t, s.pc (.transceive t) = .failed → ∀ e, s.entryOf (.transceive t) = some e →
      e ∈ s.txLow → e ∈ s'.txLow) : ∀ c, Waits s' c := by
  intro c
  obtain ⟨hpc, hidx, hentry⟩ := hsenders
  exact (h c).keep (by rw [hpc]) (by rw [hidx]) (by rw [hentry]) (fun j _ hj => hwaiter ▸ hj)
    (fun e k _ => huses e k) fun t ht => by
      subst ht
      exact hlow t

theorem other_of_pc {c c' : Sender} {p : Pc} (hc' : c' ≠ c) (hpc : s'.pc = update s.pc c p)
    (hidx : s'.idxOf = s.idxOf) (hentry : s'.entryOf = s.entryOf) :
    s'.pc c' = s.pc c' ∧ s'.idxOf c' = s.idxOf c' ∧ s'.entryOf c' = s.entryOf c' := by
  rw [hpc, hidx, hentry, Function.update_of_ne hc']
  exact ⟨rfl, rfl, rfl⟩

/-! ## Steps before the datagram is queued -/

theorem waits_indexGet {c : Sender} {j : Idx} (h : ∀ c, Waits s c) :
    ∀ c', Waits (effect s (.indexGet c j)) c' := by
  have hpost : ∀ k, update s.waiter j false k = true → s.waiter k = true := by
    intro k hk
    by_cases hkj : k = j
    · rw [hkj, Function.update_self] at hk
      cases hk
    · rwa [Function.update_of_ne hkj] at hk
  refine waits_sender h (Fewer.of_eq rfl rfl rfl rfl rfl fun _ _ => id) (fun c' hc' => ?_) hpost rfl
    (Waits.of_early (c := c) ?_ fun _ k hk => ?_)
  · exact ⟨Function.update_of_ne hc' _ _, Function.update_of_ne hc' _ _, rfl⟩
  · simp [effect, Pc.early]
  · obtain rfl : j = k := by simpa [effect] using hk
    exact Function.update_self ..

/-- The sender goes on to the next step with the same index. -/
theorem waits_early {c : Sender} {p : Pc} (h : ∀ c, Waits s c) (hf : Fewer s s')
    (hpc : s'.pc = update s.pc c p) (hidx : s'.idxOf = s.idxOf)
    (hentry : ∀ c', c' ≠ c → s'.entryOf c' = s.entryOf c') (hwaiter : s'.waiter = s.waiter)
    (hlow : s'.txLow = s.txLow) (hbefore : c.isCyclic = false → (s.pc c).early = true)
    (hearly : p.early = true) : ∀ c', Waits s' c' := by
  refine waits_sender h hf (fun c' hc' => ?_) (fun j hj => hwaiter ▸ hj) hlow
    (Waits.of_early (c := c) ?_ fun hcyc j hj => ?_)
  · rw [hpc, hidx, Function.update_of_ne hc']
    exact ⟨rfl, rfl, hentry c' hc'⟩
  · rw [hpc, Function.update_self]
    exact hearly
  · rw [hidx] at hj
    rw [hwaiter]
    exact (h c).unposted hcyc (hbefore hcyc) j hj

/-! ## From the queue to the end of the wait -/

theorem waits_enqueue {c : Sender} {e : Entry} (hinv : Inv true s io eo) (h : ∀ c, Waits s c)
    (hen : enabled s (.enqueue c e) = true) : ∀ c', Waits (effect s (.enqueue c e)) c' := by
  obtain ⟨hentry, -, -, -, -, -, -⟩ := enqueue_ready hinv hen
  obtain ⟨hpc, -⟩ := of_decide_eq_true hen
  have hs := enqueued_effect s c e
  have hearly : (s.pc c).early = true := by
    rw [hpc]
    by_cases hc : c.hwEnqueue = true <;> simp [hc, Pc.early]
  have hwaiter : (effect s (.enqueue c e)).waiter = s.waiter := by
    cases c <;> simp [effect, afterEnqueue, Sender.high]
  intro c'
  by_cases hc' : c' = c
  · subst hc'
    cases c' with
    | cyclic _ | noReply => exact Waits.of_pc (Or.inl (by simp [effect, afterEnqueue, Sender.high]))
    | transceive t | duration t =>
      -- nobody has posted the waiter before the datagram is queued
      have hfalse := (h _).unposted rfl hearly
      constructor
      · simp [effect, afterEnqueue, Sender.high, Pc.early]
      · intro _ _ x j _ hj hpost
        rw [hwaiter, hfalse j (by simpa [effect, afterEnqueue, Sender.high] using hj)] at hpost
        cases hpost
      · simp [effect, afterEnqueue, Sender.high]
      · simp [effect, afterEnqueue, Sender.high]
  · have hrest : (effect s (.enqueue c e)).pc c' = s.pc c' ∧
        (effect s (.enqueue c e)).idxOf c' = s.idxOf c' ∧
        (effect s (.enqueue c e)).entryOf c' = s.entryOf c' := by
      cases c <;> simp [effect, afterEnqueue, Sender.high, hc']
    obtain ⟨hpc', hidx', hentry'⟩ := hrest
    refine (h c').keep hpc' hidx' hentry' (fun j _ hj => hwaiter ▸ hj) (fun x k hx hu => ?_)
      fun _ _ _ x _ hx => ?_
    · rcases hs.uses hu with hu | ⟨rfl, -⟩
      · exact ⟨k, hu⟩
      · exact absurd (hinv.owners.entry.inj hx hentry) hc'
    · rcases hs.queue with ⟨-, hl⟩ | ⟨-, hl⟩
      · rwa [hl]
      · rw [hl]
        exact List.mem_append_left _ hx

theorem waits_waitOk {c : Sender} {j : Idx} (h : ∀ c, Waits s c)
    (hen : enabled s (.waitOk c j) = true) : ∀ c', Waits (effect s (.waitOk c j)) c' := by
  obtain ⟨-, hpc, hidx, hpost⟩ := of_decide_eq_true hen
  have hf : Fewer s (effect s (.waitOk c j)) := Fewer.of_eq rfl rfl rfl rfl rfl fun _ _ => id
  have hkeep : ∀ k, update s.waiter j false k = true → s.waiter k = true := by
    intro k hk
    by_cases hkj : k = j
    · rw [hkj, Function.update_self] at hk
      cases hk
    · rwa [Function.update_of_ne hkj] at hk
  refine waits_sender h hf (fun c' hc' => other_of_pc hc' rfl rfl rfl) hkeep rfl (c := c) ?_
  constructor
  · simp [effect, Pc.early]
  · simp [effect]
  · simp [effect]
  · intro t ht _ e he k hk
    obtain ⟨k', hk'⟩ := hf.used hk
    exact (h c).posted (by rw [ht]; rfl) hpc e j he hidx hpost k' hk'

theorem waits_waitFail {c : Sender} (h : ∀ c, Waits s c)
    (hok : TransceiveOk s (.waitFail c)) : ∀ c', Waits (effect s (.waitFail c)) c' := by
  have hf : Fewer s (effect s (.waitFail c)) := Fewer.of_eq rfl rfl rfl rfl rfl fun _ _ => id
  refine waits_sender h hf (fun c' hc' => other_of_pc hc' rfl rfl rfl) (fun _ => id) rfl (c := c) ?_
  constructor
  · cases c <;> simp [effect, Pc.early]
  · cases c <;> simp [effect]
  · exact fun t ht _ e he => hok t e ht he
  · intro t ht hpc
    subst ht
    simp [effect] at hpc

/-- An entry in `tx_low` that is sent once is nowhere else. -/
theorem unused_of_remove {t : ℕ} {e : Entry} (hinv : Inv true s io eo) (hlow : e ∈ s.txLow)
    (hentry : s.entryOf (.transceive t) = some e) (hpc : s.pc (.transceive t) = .failed) (j : Idx) :
    ¬ Uses true (effect s (.poolRemove t e)) e j := by
  have hcb : s.userCb e = some .block :=
    (hinv.senders (.transceive t)).callback e hentry (Or.inr (by rw [hpc]; rfl))
  obtain ⟨-, hlowNodup, hdisjoint, -, hlowTx, hqueuedSent, honce, honWire⟩ := hinv.places
  have hq : Queued s e := Or.inr (Or.inl hlow)
  intro hu
  cases hu with
  | queued hq' =>
    rcases hq' with hhigh | hlow' | htx
    · exact hdisjoint e hhigh hlow
    · exact hlowNodup.not_mem_erase hlow'
    · exact hlowTx e hlow htx
  | sent hs => exact hqueuedSent e hq j hs
  | rx hr => exact (honce e j _ hr hcb rfl).1 hq
  | wire _ hd => exact hqueuedSent e hq j (honWire rfl _ hd _ hcb rfl).1

theorem waits_poolRemove {t : ℕ} {e : Entry} (hinv : Inv true s io eo) (h : ∀ c, Waits s c)
    (hen : enabled s (.poolRemove t e) = true) : ∀ c', Waits (effect s (.poolRemove t e)) c' := by
  obtain ⟨hpc, hentry⟩ := of_decide_eq_true hen
  have hlow : e ∈ s.txLow := (h _).failed t rfl hpc e hentry
  have hf : Fewer s (effect s (.poolRemove t e)) :=
    ⟨List.Sublist.refl _, List.erase_sublist, fun _ => id, fun _ _ => id, fun _ _ => id,
      List.Sublist.refl _⟩
  intro c'
  by_cases hc' : c' = .transceive t
  · subst hc'
    constructor
    · simp [effect, Pc.early]
    · simp [effect]
    · simp [effect]
    · intro _ _ _ x hx k
      obtain rfl : e = x := Option.some.inj (hentry.symm.trans hx)
      exact unused_of_remove hinv hlow hentry hpc k
  · refine (h c').keep (Function.update_of_ne hc' _ _) rfl rfl (fun _ _ => id)
      (fun _ _ _ => hf.used) fun _ _ _ x hx hmem => ?_
    have hxe : x ≠ e := by
      rintro rfl
      exact hc' (hinv.owners.entry.inj hx hentry)
    exact (List.mem_erase_of_ne hxe).2 hmem

theorem waits_loopEnd {t : ℕ} {e : Entry} {expired : Bool} (h : ∀ c, Waits s c)
    (hen : enabled s (.loopEnd t e expired) = true) :
    ∀ c', Waits (effect s (.loopEnd t e expired)) c' := by
  obtain ⟨hpc, -⟩ := of_decide_eq_true hen
  have hf : Fewer s (effect s (.loopEnd t e expired)) := by
    refine Fewer.of_eq rfl rfl rfl rfl rfl fun k x hk => ?_
    cases expired with
    | false => exact hk
    | true => exact update_none_eq_some hk
  refine waits_sender h hf (fun c' hc' => other_of_pc hc' rfl rfl rfl) (fun _ => id) rfl
    (c := .transceive t) ?_
  constructor
  · simp [effect, Pc.early]
  · simp [effect]
  · simp [effect]
  · intro _ _ _ x hx k hk
    obtain ⟨k', hk'⟩ := hf.used hk
    exact (h _).ended t rfl (Or.inl hpc) x hx k' hk'

/-! ## The receiver posts a waiter -/

/-- What the receiver posts is the waiter of a sender whose datagram is queued no more. -/
theorem waits_rxPost {e : Entry} {i j : Idx} (hinv : Inv true s io eo) (h : ∀ c, Waits s c)
    (hen : enabled s (.rxPost e i j) = true) : ∀ c', Waits (effect s (.rxPost e i j)) c' := by
  obtain ⟨hrx, hp⟩ := of_decide_eq_true hen
  have huse : s.rx.use = some (e, i) := by
    rw [hrx]
    rfl
  have howns := hinv.uses e i (Uses.rx huse)
  obtain rfl : i = j := Option.some.inj (howns.pIdx.symm.trans hp)
  have hf : Fewer s (effect s (.rxPost e i i)) :=
    ⟨List.Sublist.refl _, List.Sublist.refl _, fun _ => id, fun _ _ => id,
      by simp [effect, Rx.use], List.Sublist.refl _⟩
  intro c
  by_cases hc : s.idxOf c = some i
  · have hentry := hinv.entry_eq howns hc
    have hunused : c.isCyclic = false → s.pc c = .waiting →
        ∀ k, ¬ Uses true (effect s (.rxPost e i i)) e k := by
      intro hcyc hpc k hu
      have hcb := (hinv.senders c).callback e hentry (Or.inr (by rw [hpc]; rfl))
      have honce : c.callback.once = true := by
        cases c with
        | cyclic c => cases hcyc
        | transceive | duration | noReply => rfl
      obtain ⟨hnot, hsent⟩ := hinv.places.once e i _ huse hcb honce
      cases hu with
      | queued hq => exact hnot hq
      | sent hs => exact hsent k hs
      | rx hr => cases hr
      | wire hl hd => exact hsent k (hinv.places.onWire hl _ hd _ hcb honce).1
    obtain ⟨-, -, hfailed, hended⟩ := h c
    constructor
    · -- a sender that has not queued its entry is not answered
      intro hcyc hearly k _
      have hfresh := (hinv.senders c).fresh e hentry hcyc
      have hnone := hinv.owners.noEntry c
      cases hpc : s.pc c with
      | gotIdx => simp [hpc, Sender.noEntry, hcyc, hentry] at hnone
      | gotEntry | cleared => exact absurd (Uses.rx huse) (hfresh (Or.inl (by rw [hpc]; rfl)) i)
      | filled | unsent => exact absurd (Uses.rx huse) (hfresh (Or.inr (by rw [hpc]; rfl)) i)
      | idle | waiting | failed | removed | ended | entryPut =>
        simp [effect, hpc, Pc.early] at hearly
    · intro hcyc hpc x _ hx _ _ k
      obtain rfl : e = x := Option.some.inj (hentry.symm.trans hx)
      exact hunused hcyc hpc k
    · exact hfailed
    · intro t ht hend x hx k hk
      obtain ⟨k', hk'⟩ := hf.used hk
      exact hended t ht hend x hx k' hk'
  · have hpost : ∀ k, s.idxOf c = some k → update s.waiter i true k = true →
        s.waiter k = true := by
      intro k hk hpost
      have hki : k ≠ i := by
        rintro rfl
        exact hc hk
      rwa [Function.update_of_ne hki] at hpost
    exact (h c).keep rfl rfl rfl hpost (fun _ _ _ => hf.used) fun _ _ _ _ _ => id

theorem waits_rxTake (h : ∀ c, Waits s c) (j : Idx) : ∀ c, Waits (rxTake s j) c := by
  have hrest : ((rxTake s j).pc = s.pc ∧ (rxTake s j).idxOf = s.idxOf ∧
      (rxTake s j).entryOf = s.entryOf) ∧ (rxTake s j).waiter = s.waiter ∧
      (rxTake s j).txLow = s.txLow := by
    unfold rxTake
    split <;> exact ⟨⟨rfl, rfl, rfl⟩, rfl, rfl⟩
  obtain ⟨hsenders, hwaiter, hlow⟩ := hrest
  exact waits_moved h hsenders (fun _ k hu => ⟨k, uses_rxTake hu⟩) hwaiter
    fun _ _ x _ hx => hlow ▸ hx

/-! ## Runs -/

theorem waits_init (n : ℕ) (c : Sender) : Waits (init n) c := Waits.of_pc (Or.inl rfl)

theorem waits_step {a : Action} (hinv : Inv true s io eo) (h : ∀ c, Waits s c)
    (hen : enabled s a = true) (hok : TransceiveOk s a) : ∀ c, Waits (effect s a) c := by
  have hsame : ∀ {s' : State}, Fewer s s' →
      ∀ e k, Uses true s' e k → ∃ k', Uses true s e k' := fun hf _ _ => hf.used
  cases a with
  | indexGet c j => exact waits_indexGet h
  | indexKeep c =>
    exact waits_early h (Fewer.of_eq rfl rfl rfl rfl rfl fun _ _ => id) rfl rfl (fun _ _ => rfl) rfl
      rfl (fun hcyc => by cases hcyc) rfl
  | poolGet c e =>
    obtain ⟨hpc, -⟩ := of_decide_eq_true hen
    exact waits_early h (Fewer.of_eq rfl rfl rfl rfl rfl fun _ _ => id) rfl rfl
      (fun _ hc' => Function.update_of_ne hc' _ _) rfl rfl (fun _ => by rw [hpc]; rfl) rfl
  | entryKeep c =>
    exact waits_early h (Fewer.of_eq rfl rfl rfl rfl rfl fun _ _ => id) rfl rfl (fun _ _ => rfl) rfl
      rfl (fun hcyc => by cases hcyc) rfl
  | poolFail c j =>
    have hback : (effect s (.poolFail c j)).idxOf = update s.idxOf c none := if_pos hok
    refine waits_sender h (Fewer.of_eq rfl rfl rfl rfl rfl fun _ _ => id) (fun c' hc' => ?_)
      (fun _ => id) rfl (Waits.of_pc (c := c) (Or.inl (Function.update_self ..)))
    rw [hback]
    exact ⟨Function.update_of_ne hc' _ _, Function.update_of_ne hc' _ _, rfl⟩
  | skip c =>
    exact waits_sender h (Fewer.of_eq rfl rfl rfl rfl rfl fun _ _ => id)
      (fun c' hc' => other_of_pc hc' rfl rfl rfl) (fun _ => id) rfl
      (Waits.of_pc (Or.inl (Function.update_self ..)))
  | memset c e =>
    obtain ⟨hpc, -⟩ := of_decide_eq_true hen
    exact waits_early h (Fewer.of_eq rfl rfl rfl rfl rfl fun _ _ => id) rfl rfl (fun _ _ => rfl) rfl
      rfl (fun _ => by rw [hpc]; rfl) rfl
  | fill c e j =>
    obtain ⟨hpc, -⟩ := of_decide_eq_true hen
    exact waits_early h (Fewer.of_eq rfl rfl rfl rfl rfl fun _ _ => id) rfl rfl (fun _ _ => rfl) rfl
      rfl (fun _ => by rw [hpc]; rfl) rfl
  | unsend c e j =>
    obtain ⟨-, hpc, -⟩ := of_decide_eq_true hen
    exact waits_early h (Fewer.of_eq rfl rfl rfl rfl rfl fun _ _ => update_none_eq_some) rfl rfl
      (fun _ _ => rfl) rfl rfl (fun _ => by rw [hpc]; rfl) rfl
  | enqueue c e => exact waits_enqueue hinv h hen
  | waitOk c j => exact waits_waitOk h hen
  | waitFail c => exact waits_waitFail h hok
  | poolRemove t e => exact waits_poolRemove hinv h hen
  | loopEnd t e expired => exact waits_loopEnd h hen
  | poolPut c e =>
    refine waits_sender h (Fewer.of_eq rfl rfl rfl rfl rfl fun _ _ => id) (fun c' hc' => ?_)
      (fun _ => id) rfl (Waits.of_pc (c := c) (Or.inr (Function.update_self ..)))
    exact ⟨Function.update_of_ne hc' _ _, rfl, Function.update_of_ne hc' _ _⟩
  | indexPut c j =>
    refine waits_sender h (Fewer.of_eq rfl rfl rfl rfl rfl fun _ _ => id) (fun c' hc' => ?_)
      (fun _ => id) rfl (Waits.of_pc (c := c) (Or.inl (Function.update_self ..)))
    exact ⟨Function.update_of_ne hc' _ _, Function.update_of_ne hc' _ _, rfl⟩
  | cleanIdx c j =>
    refine waits_sender h (Fewer.of_eq rfl rfl rfl rfl rfl fun _ _ => update_none_eq_some)
      (fun c' hc' => ⟨rfl, Function.update_of_ne hc' _ _, rfl⟩) (fun _ => id) rfl
      (Waits.of_pc (c := .cyclic c) (Or.inl hok.1))
  | cleanEntry c e =>
    refine waits_sender h (Fewer.of_eq rfl rfl rfl rfl rfl fun _ _ => id)
      (fun c' hc' => ⟨rfl, rfl, Function.update_of_ne hc' _ _⟩) (fun _ => id) rfl
      (Waits.of_pc (c := .cyclic c) (Or.inl hok.1))
  | create c =>
    refine waits_sender h (c := .cyclic c) (Fewer.of_eq rfl rfl rfl rfl rfl fun _ _ => id)
      (fun c' hc' => ⟨rfl, Function.update_of_ne hc' _ _, Function.update_of_ne hc' _ _⟩)
      (fun _ => id) rfl ?_
    refine ⟨fun hcyc => ?_, fun hcyc => ?_, fun _ ht => ?_, fun _ ht => ?_⟩
    · cases hcyc
    · cases hcyc
    · cases ht
    · cases ht
  | txPop high e =>
    have hpop := popped_txPop hen
    have hm : Moved true s (effect s (.txPop high e)) := hpop.moved
    refine waits_moved h hpop.senders (fun x k hu => ⟨k, hm.uses x k hu⟩) ?_
      fun t hpc x hx hlow => ?_
    · cases high <;> rfl
    · cases high with
      | true => exact hlow
      | false =>
        have hxe : x ≠ e := by
          rintro rfl
          exact hok rfl t hpc hx
        obtain ⟨-, hhead⟩ := of_decide_eq_true hen
        have hq : s.txLow = e :: s.txLow.tail := head?_eq hhead
        rw [hq] at hlow
        exact (List.mem_cons.1 hlow).resolve_left hxe
  | txSend e =>
    have hm : Moved true s (effect s (.txSend e)) :=
      moved_txSend hinv.places (of_decide_eq_true hen)
    exact waits_moved h ⟨rfl, rfl, rfl⟩ (fun e k hu => ⟨k, hm.uses e k hu⟩) rfl fun _ _ _ _ => id
  | txDrop e =>
    have hf : Fewer s (effect s (.txDrop e)) :=
      ⟨List.Sublist.refl _, List.Sublist.refl _, by simp [effect], fun _ _ => id, fun _ _ => id,
        List.Sublist.refl _⟩
    exact waits_moved h ⟨rfl, rfl, rfl⟩ (hsame hf) rfl fun _ _ _ _ => id
  | rxTake d =>
    have hf : Fewer s { s with wire := s.wire.erase d } :=
      ⟨List.Sublist.refl _, List.Sublist.refl _, fun _ => id, fun _ _ => id, fun _ _ => id,
        List.erase_sublist⟩
    have herase : ∀ c, Waits { s with wire := s.wire.erase d } c :=
      waits_moved h ⟨rfl, rfl, rfl⟩ (hsame hf) rfl fun _ _ _ _ => id
    exact waits_rxTake herase d.idx
  | rxForeign j => exact waits_rxTake h j
  | lost d =>
    have hf : Fewer s (effect s (.lost d)) :=
      ⟨List.Sublist.refl _, List.Sublist.refl _, fun _ => id, fun _ _ => id, fun _ _ => id,
        List.erase_sublist⟩
    exact waits_moved h ⟨rfl, rfl, rfl⟩ (hsame hf) rfl fun _ _ _ _ => id
  | rxCall e j =>
    have hf : Fewer s (rxCall s e j) := fewer_rxCall (of_decide_eq_true hen)
    have hrest : ((rxCall s e j).pc = s.pc ∧ (rxCall s e j).idxOf = s.idxOf ∧
        (rxCall s e j).entryOf = s.entryOf) ∧ (rxCall s e j).waiter = s.waiter ∧
        (rxCall s e j).txLow = s.txLow := by
      unfold rxCall
      split <;> exact ⟨⟨rfl, rfl, rfl⟩, rfl, rfl⟩
    obtain ⟨hsenders, hwaiter, hlow⟩ := hrest
    exact waits_moved h hsenders (hsame hf) hwaiter fun _ _ x _ hx => hlow ▸ hx
  | rxPost e i j => exact waits_rxPost hinv h hen
  | rxIndexPut e j =>
    have hf : Fewer s (effect s (.rxIndexPut e j)) :=
      ⟨List.Sublist.refl _, List.Sublist.refl _, fun _ => id, fun _ _ => id,
        by simp [effect, Rx.use], List.Sublist.refl _⟩
    exact waits_moved h ⟨rfl, rfl, rfl⟩ (hsame hf) rfl fun _ _ _ _ => id
  | rxReturn =>
    have hf : Fewer s (effect s .rxReturn) :=
      ⟨List.Sublist.refl _, List.Sublist.refl _, fun _ => id, fun _ _ => id,
        by simp [effect, Rx.use], List.Sublist.refl _⟩
    exact waits_moved h ⟨rfl, rfl, rfl⟩ (hsame hf) rfl fun _ _ _ _ => id

/-- What `ec_transceive` has to know before it takes the entry out of `tx_low` or gives it back
follows from its wait. -/
theorem TransceiveOk.stepOk {a : Action} (hw : ∀ c, Waits s c) (hen : enabled s a = true)
    (hok : TransceiveOk s a) : StepOk true s a := by
  cases a with
  | poolRemove t e =>
    obtain ⟨hpc, hentry⟩ := of_decide_eq_true hen
    exact (hw _).failed t rfl hpc e hentry
  | loopEnd t e expired =>
    obtain ⟨hpc, hentry⟩ := of_decide_eq_true hen
    exact fun _ _ => (hw _).ended t rfl (Or.inl hpc) e hentry
  | poolPut c e =>
    obtain ⟨hpc, hentry⟩ := of_decide_eq_true hen
    cases c with
    | transceive t => exact (hw _).ended t rfl (Or.inr hpc) e hentry
    | duration | noReply | cyclic => exact hok (by simp)
  | waitFail c => trivial
  | txPop high e => trivial
  | _ => exact hok

theorem leavesNothing_of_inv (hinv : Inv true s io eo) (hw : ∀ c, Waits s c) :
    LeavesNothing s := by
  have hunused : ∀ e ∈ s.pool, ∀ j, ¬ Uses true s e j := fun e he j hu =>
    (hinv.uses e j hu).not_free.1 (hinv.owners.entry.ownerFree e he)
  have hwire : ∀ d ∈ s.wire, Uses true s d.entry d.idx := fun d hd => Uses.wire rfl hd
  refine ⟨fun e he => ?_, fun d hd => ⟨fun he => ?_, fun hj => ?_⟩, fun d hd e he => ?_,
    fun d hd c hj => hinv.entry_eq (hinv.uses _ _ (hwire d hd)) hj, fun t e hentry hpc d hd hde => ?_,
    fun t e hpc hentry => (hw _).failed t rfl hpc e hentry⟩
  · refine ⟨fun hq => ?_, fun hq => ?_, fun hq => ?_, fun j hs => hunused e he j (Uses.sent hs)⟩
    · exact hunused e he _ (Uses.queued (Or.inl hq))
    · exact hunused e he _ (Uses.queued (Or.inr (Or.inl hq)))
    · exact hunused e he _ (Uses.queued (Or.inr (Or.inr hq)))
  · exact hunused d.entry he d.idx (hwire d hd)
  · exact (hinv.uses _ _ (hwire d hd)).not_free.2.2.1 (hinv.owners.idx.ownerFree d.idx hj)
  · exact hinv.index_unique (Uses.sent he) (hwire d hd)
  · exact (hinv.senders _).fresh e hentry rfl (Or.inr hpc) d.idx (hde ▸ hwire d hd)

end

/-- **`ec_transceive` leaves nothing behind**, whatever the others do. -/
theorem leavesNothing_run {n : ℕ} {acts : List Action} {s : State}
    (hok : Runs.RunOk step TransceiveOk (init n) acts)
    (hrun : Runs.run step (init n) acts = some s) : LeavesNothing s := by
  have hstep : ∀ s a s', (Good true s ∧ ∀ c, Waits s c) → TransceiveOk s a → step s a = some s' →
      Good true s' ∧ ∀ c, Waits s' c := by
    rintro s a s' ⟨hgood, hw⟩ hok hstep
    obtain ⟨hen, rfl⟩ := step_eq_some.1 hstep
    obtain ⟨io, eo, hinv⟩ := hgood
    exact ⟨good_step ⟨io, eo, hinv⟩ (hok.stepOk hw hen) hstep, waits_step hinv hw hen hok⟩
  obtain ⟨⟨io, eo, hinv⟩, hw⟩ :=
    Runs.runOk_induction hstep ⟨⟨_, _, inv_init n⟩, waits_init n⟩ hok hrun
  exact leavesNothing_of_inv hinv hw

/-- The wait ends while the datagram is in `tx_low`. -/
def timeoutRun : List Action :=
  [.indexGet (.transceive 0) 0, .poolGet (.transceive 0) 0, .memset (.transceive 0) 0,
    .fill (.transceive 0) 0 0, .unsend (.transceive 0) 0 0, .enqueue (.transceive 0) 0,
    .waitFail (.transceive 0), .poolRemove 0 0, .loopEnd 0 0 false, .poolPut (.transceive 0) 0,
    .indexPut (.transceive 0) 0]

theorem leavesNothing_timeoutRun :
    ∃ s, Runs.run step (init 1) timeoutRun = some s ∧ s.pool = [0] ∧ LeavesNothing s := by
  have hok : Runs.RunOk step TransceiveOk (init 1) timeoutRun := by
    refine .cons (fun h => by cases h) rfl (.cons (fun h => by cases h) rfl (.cons ?_ rfl
      (.cons (fun t ht => by cases ht) rfl (.cons trivial rfl (.cons trivial rfl (.cons ?_ rfl
      (.cons trivial rfl (.cons trivial rfl (.cons (fun h => absurd rfl (h 0)) rfl
      (.cons trivial rfl trivial))))))))))
    · show ¬ Queued _ _
      decide
    · rintro t e - ⟨rfl⟩
      exact List.mem_cons_self
  exact ⟨_, rfl, rfl, leavesNothing_run hok rfl⟩

/-- The same, but the datagram has been sent already. -/
def sentTimeoutRun : List Action :=
  [.indexGet (.transceive 0) 0, .poolGet (.transceive 0) 0, .memset (.transceive 0) 0,
    .fill (.transceive 0) 0 0, .unsend (.transceive 0) 0 0, .enqueue (.transceive 0) 0,
    .txPop false 0, .txSend 0, .waitFail (.transceive 0), .poolRemove 0 0, .loopEnd 0 0 false,
    .poolPut (.transceive 0) 0, .indexPut (.transceive 0) 0]

/-- `tx_send` still refers to the entry that is back in the pool. -/
theorem timeout_leaves_mark :
    ¬ ∀ n acts s, Runs.run step (init n) acts = some s → LeavesNothing s := by
  intro hall
  obtain ⟨-, -, -, hsent⟩ := (hall 1 sentTimeoutRun _ rfl).entry 0 List.mem_cons_self
  exact hsent 0 rfl

end LibEthercat.Bus
