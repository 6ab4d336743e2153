import LibEthercat.Bus.Invariant

/-!
# Where an index is

An index is in the free queue, with a sender, with a datagram of `cb_distributed_clocks` that nobody
looks after, or with the receiver that has put back the entry of such a datagram. The invariant of
the bus says that it is in no two of them; here it is that no index gets lost (`Located`).

**Theorem (`idxExclusive_run`).** Every index is in one place after every run whose steps meet
`IdxOk`. It is in two when `pool_get` fails for the sender of the distributed clocks
(`poolFail_not_idxExclusive`): the index goes back, `p_idx` stays.
-/

namespace LibEthercat.Bus

open Function (update)
open Custodian (Owner Custody update_eq_iff)

/-! ## Nothing gets lost -/

/-- What has no owner is in the free queue or in the pool, and what is on its own is the entry and
the index of one datagram. -/
structure Located (n : ℕ) (s : State) (io : Idx → IdxOwner) (eo : Entry → EntryOwner) : Prop where
  idxFree : ∀ j, io j = .free → j ∈ s.idxQ
  entryFree : ∀ e < n, eo e = .free → e ∈ s.pool
  pool : ∀ e ∈ s.pool, e < n
  inUse : ∀ e, eo e ≠ .free → e < n
  alone : ∀ e, eo e = .other () → ∃ j, s.pIdx e = some j ∧ io j = .other (.entry e)
  entry : ∀ e j, io j = .other (.entry e) → eo e = .other () ∧ s.pIdx e = some j
  receiver : ∀ j, io j = .other .receiver → ∃ e, s.rx = .freed e ∧ s.pIdx e = some j
  notLost : ∀ j, io j ≠ .other .lost

section
variable {n : ℕ} {late : Bool} {s s' : State} {io : Idx → IdxOwner} {eo : Entry → EntryOwner}

/-- A step after which everything is where it was. -/
theorem Located.keep (h : Located n s io eo) (hidxQ : s'.idxQ = s.idxQ) (hpool : s'.pool = s.pool)
    (hp : ∀ e, eo e = .other () → s'.pIdx e = s.pIdx e)
    (hfreed : ∀ e, s.rx = .freed e → s'.rx = .freed e ∧ s'.pIdx e = s.pIdx e) :
    Located n s' io eo where
  idxFree j hj := hidxQ ▸ h.idxFree j hj
  entryFree e he hfree := hpool ▸ h.entryFree e he hfree
  pool e he := h.pool e (hpool ▸ he)
  inUse := h.inUse
  alone e he := by
    rw [hp e he]
    exact h.alone e he
  entry e j hj := by
    obtain ⟨he, hpj⟩ := h.entry e j hj
    exact ⟨he, (hp e he).trans hpj⟩
  receiver j hj := by
    obtain ⟨e, hrx, hpj⟩ := h.receiver j hj
    obtain ⟨hrx', hp'⟩ := hfreed e hrx
    exact ⟨e, hrx', hp'.trans hpj⟩
  notLost := h.notLost

/-- Owners between which the senders pass something on. -/
def Mine {X : Type*} (o : Owner Sender X) : Prop := ∀ x, o ≠ .other x

/-- An index goes from a sender to the free queue or back. -/
theorem Located.idx (h : Located n s io eo) {j : Idx} {o : IdxOwner} (hold : Mine (io j))
    (hnew : Mine o) (hmem : o = .free → j ∈ s'.idxQ)
    (hidxQ : ∀ k, k ≠ j → k ∈ s.idxQ → k ∈ s'.idxQ) (hpool : s'.pool = s.pool)
    (hp : s'.pIdx = s.pIdx) (hrx : s'.rx = s.rx) : Located n s' (update io j o) eo := by
  -- owners other than the senders have the same indices as before
  have hother : ∀ k x, update io j o k = .other x ↔ io k = .other x := fun k x =>
    update_eq_iff (hnew x) (hold x)
  refine ⟨fun k hk => ?_, ?_, ?_, h.inUse, fun e he => ?_, fun e k hk => ?_, fun k hk => ?_,
    fun k hk => ?_⟩
  · by_cases hkj : k = j
    · rw [hkj, Function.update_self] at hk
      rw [hkj]
      exact hmem hk
    · rw [Function.update_of_ne hkj] at hk
      exact hidxQ k hkj (h.idxFree k hk)
  · rw [hpool]
    exact h.entryFree
  · rw [hpool]
    exact h.pool
  · obtain ⟨k, hpk, hk⟩ := h.alone e he
    exact ⟨k, by rw [hp, hpk], (hother k _).2 hk⟩
  · rw [hp]
    exact h.entry e k ((hother k _).1 hk)
  · rw [hp, hrx]
    exact h.receiver k ((hother k _).1 hk)
  · exact h.notLost k ((hother k _).1 hk)

/-- An entry goes from a sender to the pool or back. -/
theorem Located.moveEntry (h : Located n s io eo) {e : Entry} {o : EntryOwner} (hold : Mine (eo e))
    (hnew : Mine o) (hlt : e < n) (hidxQ : s'.idxQ = s.idxQ) (hmem : o = .free → e ∈ s'.pool)
    (hpool : ∀ x, x ≠ e → (x ∈ s'.pool ↔ x ∈ s.pool))
    (hp : ∀ x, x ≠ e → s'.pIdx x = s.pIdx x)
    (hfreed : ∀ x, s.rx = .freed x → s'.rx = .freed x ∧ s'.pIdx x = s.pIdx x) :
    Located n s' io (update eo e o) := by
  have hne : ∀ x, eo x = .other () → x ≠ e := by
    rintro x hx rfl
    exact hold () hx
  have hother : ∀ x, update eo e o x = .other () ↔ eo x = .other () := fun x =>
    update_eq_iff (hnew ()) (hold ())
  refine ⟨fun j hj => ?_, fun x hx hfree => ?_, fun x hx => ?_, fun x hx => ?_, fun x hx => ?_,
    fun x j hj => ?_, fun j hj => ?_, h.notLost⟩
  · rw [hidxQ]
    exact h.idxFree j hj
  · by_cases hxe : x = e
    · rw [hxe, Function.update_self] at hfree
      rw [hxe]
      exact hmem hfree
    · rw [Function.update_of_ne hxe] at hfree
      exact (hpool x hxe).2 (h.entryFree x hx hfree)
  · by_cases hxe : x = e
    · exact hxe ▸ hlt
    · exact h.pool x ((hpool x hxe).1 hx)
  · by_cases hxe : x = e
    · exact hxe ▸ hlt
    · rw [Function.update_of_ne hxe] at hx
      exact h.inUse x hx
  · have hx' := (hother x).1 hx
    rw [hp x (hne x hx')]
    exact h.alone x hx'
  · obtain ⟨hx, hpj⟩ := h.entry x j hj
    exact ⟨(hother x).2 hx, (hp x (hne x hx)).trans hpj⟩
  · obtain ⟨x, hrx, hpj⟩ := h.receiver j hj
    obtain ⟨hrx', hp'⟩ := hfreed x hrx
    exact ⟨x, hrx', hp'.trans hpj⟩

/-! ## Datagrams that nobody looks after -/

theorem located_enqueue_noReply {e : Entry} (h : Inv late s io eo) (hl : Located n s io eo)
    (hen : enabled s (.enqueue .noReply e) = true) :
    Located n (effect s (.enqueue .noReply e)) (update io (s.dgIdx e) (.other (.entry e)))
      (update eo e (.other ())) := by
  obtain ⟨hentry, hidx, hp, -, -, -, -⟩ := enqueue_ready h hen
  have hio : io (s.dgIdx e) = .holder .noReply := (h.owners.idx.ownerHolder _ _).1 hidx
  have heo : eo e = .holder .noReply := (h.owners.entry.ownerHolder _ _).1 hentry
  have hidxOwner : ∀ j o, o ≠ .other (.entry e) → o ≠ .holder .noReply →
      (update io (s.dgIdx e) (.other (.entry e)) j = o ↔ io j = o) := fun j o ho hno =>
    update_eq_iff ho.symm (hio ▸ hno.symm)
  have hentryFree : ∀ x, update eo e (.other ()) x = .free ↔ eo x = .free := fun x =>
    update_eq_iff (by simp) (by simp [heo])
  refine ⟨fun j hj => hl.idxFree j ((hidxOwner j _ (by simp) (by simp)).1 hj),
    fun x hx hfree => hl.entryFree x hx ((hentryFree x).1 hfree), hl.pool,
    fun x hx => hl.inUse x (fun hfree => hx ((hentryFree x).2 hfree)), fun x hx => ?_,
    fun x j hj => ?_, fun j hj => hl.receiver j ((hidxOwner j _ (by simp) (by simp)).1 hj),
    fun j hj => hl.notLost j ((hidxOwner j _ (by simp) (by simp)).1 hj)⟩
  · by_cases hxe : x = e
    · subst hxe
      exact ⟨_, hp, Function.update_self ..⟩
    · rw [Function.update_of_ne hxe] at hx
      obtain ⟨j, hpj, hj⟩ := hl.alone x hx
      exact ⟨j, hpj, (hidxOwner j _ (by simpa using hxe) (by simp)).2 hj⟩
  · by_cases hxe : x = e
    · subst hxe
      refine ⟨Function.update_self .., ?_⟩
      by_cases hji : j = s.dgIdx x
      · rw [hji]
        exact hp
      · rw [Function.update_of_ne hji] at hj
        exact (hl.entry x j hj).2
    · obtain ⟨hx, hpj⟩ := hl.entry x j ((hidxOwner j _ (by simpa using hxe) (by simp)).1 hj)
      exact ⟨(Function.update_of_ne hxe _ _).trans hx, hpj⟩

/-- `cb_no_reply` puts the entry back, the index is with the receiver. -/
theorem located_rxCall_noReply {e : Entry} {j : Idx} (hl : Located n s io eo)
    (hrx : s.rx = .called e j) (heo : eo e = .other ()) (hio : io j = .other (.entry e)) :
    Located n { s with pool := s.pool ++ [e], rx := .freed e } (update io j (.other .receiver))
      (update eo e .free) := by
  obtain ⟨-, hpj⟩ := hl.entry e j hio
  have hlt : e < n := hl.inUse e (by rw [heo]; simp)
  have hidxOwner : ∀ k o, o ≠ .other .receiver → o ≠ .other (.entry e) →
      (update io j (.other .receiver) k = o ↔ io k = o) := fun k o ho hno =>
    update_eq_iff ho.symm (hio ▸ hno.symm)
  have halone : ∀ x, update eo e .free x = .other () → eo x = .other () ∧ x ≠ e := by
    intro x hx
    by_cases hxe : x = e
    · rw [hxe, Function.update_self] at hx
      cases hx
    · rw [Function.update_of_ne hxe] at hx
      exact ⟨hx, hxe⟩
  refine ⟨fun k hk => hl.idxFree k ((hidxOwner k _ (by simp) (by simp)).1 hk),
    fun x hx hfree => ?_, fun x hx => ?_, fun x hx => ?_, fun x hx => ?_,
    fun x k hk => ?_, fun k hk => ?_, fun k hk => hl.notLost k ((hidxOwner k _ (by simp) (by simp)).1 hk)⟩
  · by_cases hxe : x = e
    · simp [hxe]
    · rw [Function.update_of_ne hxe] at hfree
      exact List.mem_append_left _ (hl.entryFree x hx hfree)
  · rcases List.mem_append.1 hx with hx | hx
    · exact hl.pool x hx
    · rwa [List.mem_singleton.1 hx]
  · by_cases hxe : x = e
    · rwa [hxe]
    · rw [Function.update_of_ne hxe] at hx
      exact hl.inUse x hx
  · obtain ⟨hx', hxe⟩ := halone x hx
    obtain ⟨k, hpk, hk⟩ := hl.alone x hx'
    exact ⟨k, hpk, (hidxOwner k _ (by simp) (by simpa using hxe)).2 hk⟩
  · by_cases hkj : k = j
    · rw [hkj, Function.update_self] at hk
      cases hk
    · rw [Function.update_of_ne hkj] at hk
      obtain ⟨hx, hpk⟩ := hl.entry x k hk
      refine ⟨(Function.update_of_ne ?_ _ _).trans hx, hpk⟩
      rintro rfl
      exact hkj (Option.some.inj (hpk.symm.trans hpj))
  · by_cases hkj : k = j
    · subst hkj
      exact ⟨e, rfl, hpj⟩
    · rw [Function.update_of_ne hkj] at hk
      obtain ⟨x, hx, -⟩ := hl.receiver k hk
      rw [hrx] at hx
      cases hx

theorem located_rxIndexPut {e : Entry} {j : Idx} (h : Inv late s io eo) (hl : Located n s io eo)
    (hen : enabled s (.rxIndexPut e j) = true) :
    Located n (effect s (.rxIndexPut e j)) (update io j .free) eo := by
  obtain ⟨hrx, hpj⟩ := of_decide_eq_true hen
  obtain ⟨i, hpi, hi, -⟩ := h.owners.freed e hrx
  obtain rfl : j = i := Option.some.inj (hpj.symm.trans hpi)
  have hother : ∀ k x, x ≠ .receiver → (update io j .free k = .other x ↔ io k = .other x) := by
    intro k x hx
    refine update_eq_iff (by simp) ?_
    rw [hi]
    simpa using hx.symm
  refine ⟨fun k hk => ?_, hl.entryFree, hl.pool, hl.inUse, fun x hx => ?_,
    fun x k hk => hl.entry x k ((hother k _ (by simp)).1 hk), fun k hk => ?_,
    fun k hk => hl.notLost k ((hother k _ (by simp)).1 hk)⟩
  · by_cases hkj : k = j
    · exact List.mem_append_right _ (List.mem_singleton.2 hkj)
    · rw [Function.update_of_ne hkj] at hk
      exact List.mem_append_left _ (hl.idxFree k hk)
  · obtain ⟨k, hpk, hk⟩ := hl.alone x hx
    exact ⟨k, hpk, (hother k _ (by simp)).2 hk⟩
  · by_cases hkj : k = j
    · rw [hkj, Function.update_self] at hk
      cases hk
    · -- the receiver has one index at a time
      rw [Function.update_of_ne hkj] at hk
      obtain ⟨x, hx, hpk⟩ := hl.receiver k hk
      rw [hrx] at hx
      cases hx
      exact absurd (Option.some.inj (hpk.symm.trans hpj)) hkj

/-! ## In every run -/

/-- As `StepOk`; and a cyclic datagram is initialised only when it has nothing. -/
def IdxOk (s : State) (a : Action) : Prop :=
  StepOk false s a ∧
    ∀ c, a = .create c → s.idxOf (.cyclic c) = none ∧ s.entryOf (.cyclic c) = none

theorem located_init (n : ℕ) : Located n (init n) (fun _ => .free) (fun _ => .free) := by
  refine ⟨fun j _ => ?_, fun e he _ => List.mem_range.2 he, fun e he => List.mem_range.1 he,
    by simp, by simp, by simp, by simp, by simp⟩
  exact List.mem_map.2 ⟨j.toNat, List.mem_range.2 j.toNat_lt, UInt8.ofNat_toNat⟩

theorem mine_holder {c : Sender} {X : Type*} : Mine (.holder c : Owner Sender X) := by
  simp [Mine]

theorem mine_free {X : Type*} : Mine (.free : Owner Sender X) := by
  simp [Mine]

theorem located_idxPut {c : Sender} {j : Idx} (h : Owners s io eo) (hl : Located n s io eo)
    (hidx : s.idxOf c = some j) (hidxQ : s'.idxQ = s.idxQ ++ [j]) (hpool : s'.pool = s.pool)
    (hp : s'.pIdx = s.pIdx) (hrx : s'.rx = s.rx) : Located n s' (update io j .free) eo := by
  have hio := (h.idx.ownerHolder c j).1 hidx
  exact hl.idx (hio ▸ mine_holder) mine_free (fun _ => by simp [hidxQ])
    (fun k _ hk => hidxQ ▸ List.mem_append_left _ hk) hpool hp hrx

theorem located_put {c : Sender} {e : Entry} (h : Owners s io eo) (hl : Located n s io eo)
    (hentry : s.entryOf c = some e) (hidxQ : s'.idxQ = s.idxQ) (hpool : s'.pool = s.pool ++ [e])
    (hp : s'.pIdx = s.pIdx) (hrx : s'.rx = s.rx) : Located n s' io (update eo e .free) := by
  have heo := (h.entry.ownerHolder c e).1 hentry
  refine hl.moveEntry (heo ▸ mine_holder) mine_free (hl.inUse e (by rw [heo]; simp)) hidxQ
    (fun _ => by simp [hpool]) (fun x hx => by simp [hpool, hx]) (fun x _ => by rw [hp])
    fun x hx => ?_
  rw [hrx, hp]
  exact ⟨hx, rfl⟩

theorem located_rxTake {j : Idx} (hl : Located n s io eo) (hidle : s.rx = .idle) :
    Located n (rxTake s j) io eo := by
  have hfreed : ∀ x, s.rx ≠ .freed x := by
    rw [hidle]
    simp
  unfold rxTake
  split
  · exact hl
  · exact hl.keep rfl rfl (fun _ _ => rfl) fun x hx => absurd hx (hfreed x)

theorem located_rxCall {e : Entry} {j : Idx} (h : Inv late s io eo) (hl : Located n s io eo)
    (hen : enabled s (.rxCall e j) = true) :
    Located n (effect s (.rxCall e j)) (callIdx s e j io) (callEntry s e eo) := by
  have hrx : s.rx = .called e j := of_decide_eq_true hen
  have hfreed : ∀ x, s.rx ≠ .freed x := by
    rw [hrx]
    simp
  show Located n (rxCall s e j) (callIdx s e j io) (callEntry s e eo)
  unfold callIdx callEntry
  by_cases hcb : s.userCb e = some .noReply
  · rw [if_pos hcb, if_pos hcb, rxCall, hcb]
    obtain ⟨heo, hio⟩ := called_noReply h hrx hcb
    exact located_rxCall_noReply hl hrx heo hio
  · rw [if_neg hcb, if_neg hcb]
    unfold rxCall
    split
    case h_4 hcb' => exact absurd hcb' hcb
    all_goals exact hl.keep rfl rfl (fun _ _ => rfl) fun x hx => absurd hx (hfreed x)

theorem located_step {a : Action} (h : Inv false s io eo) (hl : Located n s io eo) (hok : IdxOk s a)
    (hen : enabled s a = true) :
    Located n (effect s a) (idxOwner s io a) (entryOwner s eo a) := by
  obtain ⟨hok, hcreate⟩ := hok
  have hstay : ∀ s' : State, s'.idxQ = s.idxQ → s'.pool = s.pool → s'.pIdx = s.pIdx →
      (∀ e, s.rx = .freed e → s'.rx = s.rx) → Located n s' io eo := by
    intro s' hidxQ hpool hp hrx
    refine hl.keep hidxQ hpool (fun e _ => by rw [hp]) fun e he => ?_
    rw [hp, hrx e he]
    exact ⟨he, rfl⟩
  cases a with
  | indexKeep | entryKeep | skip | memset | unsend | waitOk | waitFail | poolRemove | loopEnd
  | txSend | txDrop | lost => exact hstay _ rfl rfl rfl fun _ _ => rfl
  | txPop high e =>
    cases high <;> exact hstay _ rfl rfl rfl fun _ _ => rfl
  | rxTake d =>
    obtain ⟨hidle, -⟩ := of_decide_eq_true hen
    have herase : Located n { s with wire := s.wire.erase d } io eo :=
      hstay _ rfl rfl rfl fun _ _ => rfl
    exact located_rxTake herase hidle
  | rxForeign j => exact located_rxTake hl (of_decide_eq_true hen)
  | rxPost e i j =>
    obtain ⟨hrx, -⟩ := of_decide_eq_true hen
    exact hstay _ rfl rfl rfl fun x hx => by rw [hrx] at hx; cases hx
  | rxReturn =>
    obtain ⟨hrx, -⟩ := of_decide_eq_true hen
    exact hstay _ rfl rfl rfl fun x hx => by rw [hrx] at hx; cases hx
  | indexGet c j =>
    obtain ⟨-, -, hhead, -⟩ := of_decide_eq_true hen
    have hq : s.idxQ = j :: s.idxQ.tail := head?_eq hhead
    have hj : io j = .free := h.owners.idx.ownerFree j (by rw [hq]; exact List.mem_cons_self)
    refine hl.idx (hj ▸ mine_free) mine_holder (by simp) (fun k hk hmem => ?_) rfl rfl rfl
    rw [hq] at hmem
    exact (List.mem_cons.1 hmem).resolve_left hk
  | poolFail c j =>
    obtain ⟨-, -, -, hidx⟩ := of_decide_eq_true hen
    exact located_idxPut h.owners hl hidx rfl rfl rfl rfl
  | indexPut c j =>
    obtain ⟨-, hidx⟩ := of_decide_eq_true hen
    exact located_idxPut h.owners hl hidx rfl rfl rfl rfl
  | cleanIdx c j =>
    obtain ⟨-, hidx⟩ := of_decide_eq_true hen
    exact located_idxPut h.owners hl hidx rfl rfl rfl rfl
  | poolGet c e =>
    obtain ⟨-, -, hhead⟩ := of_decide_eq_true hen
    have hq : s.pool = e :: s.pool.tail := head?_eq hhead
    have hmem : e ∈ s.pool := by
      rw [hq]
      exact List.mem_cons_self
    have hp : ∀ x, x ≠ e → (effect s (.poolGet c e)).pIdx x = s.pIdx x := by
      intro x hx
      simp only [effect]
      split_ifs
      · exact Function.update_of_ne hx _ _
      · rfl
    refine hl.moveEntry (h.owners.entry.ownerFree e hmem ▸ mine_free) mine_holder (hl.pool e hmem) rfl
      (by simp) (fun x hx => ?_) hp fun x hx => ⟨hx, hp x ?_⟩
    · show x ∈ s.pool.tail ↔ x ∈ s.pool
      rw [hq]
      simp [hx]
    · rintro rfl
      exact hok hx
  | poolPut c e =>
    obtain ⟨-, hentry⟩ := of_decide_eq_true hen
    exact located_put h.owners hl hentry rfl rfl rfl rfl
  | cleanEntry c e =>
    obtain ⟨-, hentry⟩ := of_decide_eq_true hen
    exact located_put h.owners hl hentry rfl rfl rfl rfl
  | fill c e j =>
    obtain ⟨-, hentry, -⟩ := of_decide_eq_true hen
    have heo := (h.owners.entry.ownerHolder c e).1 hentry
    have hp : ∀ x, eo x ≠ .holder c → (effect s (.fill c e j)).pIdx x = s.pIdx x := by
      intro x hx
      have hxe : x ≠ e := by
        rintro rfl
        exact hx heo
      simp only [effect]
      split_ifs
      · rfl
      · exact Function.update_of_ne hxe _ _
    refine hl.keep rfl rfl (fun x hx => hp x (by simp [hx])) fun x hx => ⟨hx, hp x ?_⟩
    obtain ⟨-, -, -, hfree⟩ := h.owners.freed x hx
    simp [hfree]
  | enqueue c e =>
    cases c with
    | noReply => exact located_enqueue_noReply h hl hen
    | transceive | duration | cyclic =>
      obtain ⟨-, -, -, hrx, -, hp, -⟩ := enqueued_effect s _ e
      exact hstay _ rfl rfl hp fun _ _ => hrx
  | create c =>
    obtain ⟨hidx, hentry⟩ := hcreate c rfl
    have hio : lostIdx s (.cyclic c) io = io := by
      rw [lostIdx, hidx]
    have heo : lostEntry s (.cyclic c) eo = eo := by
      rw [lostEntry, hentry]
    show Located n _ (lostIdx s (.cyclic c) io) (lostEntry s (.cyclic c) eo)
    rw [hio, heo]
    exact hstay _ rfl rfl rfl fun _ _ => rfl
  | rxCall e j => exact located_rxCall h hl hen
  | rxIndexPut e j => exact located_rxIndexPut h hl hen

/-- Every index has an owner that can be found. -/
theorem located_run {n : ℕ} {acts : List Action} {s : State}
    (hok : Runs.RunOk step IdxOk (init n) acts) (hrun : Runs.run step (init n) acts = some s) :
    ∃ io eo, Inv false s io eo ∧ Located n s io eo := by
  refine Runs.runOk_induction (I := fun s => ∃ io eo, Inv false s io eo ∧ Located n s io eo)
    (fun s a s' hs hok hstep => ?_) ⟨_, _, inv_init n, located_init n⟩ hok hrun
  obtain ⟨io, eo, h, hl⟩ := hs
  obtain ⟨hen, rfl⟩ := step_eq_some.1 hstep
  exact ⟨_, _, inv_step h hok.1 hen, located_step h hl hok hen⟩

end

/-! ## Every index is in one place -/

/-- Where an index can be. -/
inductive IdxPlace
  | free
  /-- The local variable of a sender, or `p_idx` of a cyclic datagram. -/
  | sender (c : Sender)
  /-- `p_idx` of an entry in use that nobody holds. -/
  | entry (e : Entry)
  /-- `cb_no_reply` has put back the entry. -/
  | receiver

/-- The index is there; the pool was opened with `n` entries. -/
def At (n : ℕ) (s : State) (j : Idx) : IdxPlace → Prop
  | .free => j ∈ s.idxQ
  | .sender c => s.idxOf c = some j
  | .entry e => e < n ∧ e ∉ s.pool ∧ (∀ c, s.entryOf c ≠ some e) ∧ s.pIdx e = some j
  | .receiver => ∃ e, s.rx = .freed e ∧ s.pIdx e = some j

/-- The free queue has no index twice, and every index is in exactly one place. -/
def IdxExclusive (n : ℕ) (s : State) : Prop := s.idxQ.Nodup ∧ ∀ j, ∃! p, At n s j p

section
variable {n : ℕ} {s : State} {io : Idx → IdxOwner} {eo : Entry → EntryOwner}

def IdxPlace.owner : IdxPlace → IdxOwner
  | free => .free
  | sender c => .holder c
  | entry e => .other (.entry e)
  | receiver => .other .receiver

theorem at_iff_owner (h : Owners s io eo) (hl : Located n s io eo) (j : Idx) (p : IdxPlace) :
    At n s j p ↔ io j = p.owner := by
  cases p with
  | free => exact ⟨h.idx.ownerFree j, hl.idxFree j⟩
  | sender c => exact h.idx.ownerHolder c j
  | entry e =>
    constructor
    · rintro ⟨hlt, hpool, hno, hpj⟩
      cases heo : eo e with
      | free => exact absurd (hl.entryFree e hlt heo) hpool
      | holder c => exact absurd ((h.entry.ownerHolder c e).2 heo) (hno c)
      | other x =>
        obtain ⟨k, hpk, hk⟩ := hl.alone e heo
        obtain rfl : j = k := Option.some.inj (hpj.symm.trans hpk)
        exact hk
    · intro hj
      obtain ⟨heo, hpj⟩ := hl.entry e j hj
      refine ⟨hl.inUse e (by simp [heo]), fun hmem => ?_, fun c hc => ?_, hpj⟩
      · rw [h.entry.ownerFree e hmem] at heo
        cases heo
      · rw [(h.entry.ownerHolder c e).1 hc] at heo
        cases heo
  | receiver =>
    constructor
    · rintro ⟨e, hrx, hpj⟩
      obtain ⟨k, hpk, hk, -⟩ := h.freed e hrx
      obtain rfl : j = k := Option.some.inj (hpj.symm.trans hpk)
      exact hk
    · exact hl.receiver j

theorem idxExclusive (h : Owners s io eo) (hl : Located n s io eo) : IdxExclusive n s := by
  refine ⟨h.idx.nodup, fun j => ?_⟩
  have hplace : ∃ p : IdxPlace, io j = p.owner := by
    cases hj : io j with
    | free => exact ⟨.free, rfl⟩
    | holder c => exact ⟨.sender c, rfl⟩
    | other x =>
      cases x with
      | entry e => exact ⟨.entry e, rfl⟩
      | receiver => exact ⟨.receiver, rfl⟩
      | lost => exact absurd hj (hl.notLost j)
  obtain ⟨p, hp⟩ := hplace
  refine ⟨p, (at_iff_owner h hl j p).2 hp, fun q hq => ?_⟩
  have howner := hp.symm.trans ((at_iff_owner h hl j q).1 hq)
  cases p <;> cases q <;> cases howner <;> rfl

end

/-- **Every index is in one place**, in any order of the steps of all senders. -/
theorem idxExclusive_run {n : ℕ} {acts : List Action} {s : State}
    (hok : Runs.RunOk step IdxOk (init n) acts) (hrun : Runs.run step (init n) acts = some s) :
    IdxExclusive n s := by
  obtain ⟨io, eo, h, hl⟩ := located_run hok hrun
  exact idxExclusive h.owners hl

/-- With one entry in the pool: `pool_get` fails for the mailbox state datagram. -/
def mbxStateFailRun : List Action :=
  [.indexGet (.transceive 0) 0, .poolGet (.transceive 0) 0, .indexGet (.cyclic (.mbxState 0)) 1,
    .poolFail (.cyclic (.mbxState 0)) 1]

theorem idxExclusive_mbxStateFailRun :
    ∃ s, Runs.run step (init 1) mbxStateFailRun = some s ∧ s.pool = [] ∧ IdxExclusive 1 s := by
  have hok : Runs.RunOk step IdxOk (init 1) mbxStateFailRun := by
    refine .cons ⟨fun h => ?_, by simp⟩ rfl (.cons ⟨fun h => ?_, by simp⟩ rfl
      (.cons ⟨fun _ => rfl, by simp⟩ rfl (.cons ⟨rfl, by simp⟩ rfl trivial)))
    · cases h
    · cases h
  exact ⟨_, rfl, rfl, idxExclusive_run hok rfl⟩

/-- The same for the datagram of the distributed clocks. -/
def dcFailRun : List Action :=
  [.indexGet (.transceive 0) 0, .poolGet (.transceive 0) 0, .indexGet (.cyclic .dc) 1,
    .poolFail (.cyclic .dc) 1]

/-- Index 1 is free, and `dc.cdg` has it. -/
theorem poolFail_not_idxExclusive :
    ¬ ∀ n acts s, Runs.run step (init n) acts = some s → IdxExclusive n s := by
  intro hall
  obtain ⟨-, hplace⟩ := hall 1 dcFailRun _ rfl
  obtain ⟨p, -, hunique⟩ := hplace 1
  have hmem := hunique .free (by
    show (1 : Idx) ∈ _
    decide)
  have hheld := hunique (.sender (.cyclic .dc)) rfl
  exact absurd (hmem.trans hheld.symm) (by simp)

end LibEthercat.Bus
