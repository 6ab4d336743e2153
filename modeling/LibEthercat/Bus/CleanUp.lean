import Mathlib.Data.UInt
import LibEthercat.Bus.IdxPlaces

/-!
# What the cyclic datagrams leave behind

On the way from SAFEOP to PREOP, `ec_set_state` puts back the index and the entry of `cdg` of every
group, of `dc.cdg` and of `cdg_state` (`cleanUp`). It does not know `cdg_lwr`, `cdg_lrd` and
`cdg_lrd_mbx_state`, and a datagram of `cb_distributed_clocks` comes back only with its answer.

**Theorem (`cleanUp_returned_iff`).** Afterwards everything is free that no thread is about to send
with, just if nothing else was in use (`CleanUpOk`). The datagram that reads the mailbox state is
(`mbxState_not_returned`).
-/

namespace LibEthercat.Bus

open Function (update)
open Custodian (Owner Custody update_eq_iff)

/-! ## The clean-up -/

/-- The index of a cyclic datagram, if it has one. -/
def cleanUpIdx (s : State) (c : Cyclic) : State :=
  match s.idxOf (.cyclic c) with
  | none => s
  | some j => effect s (.cleanIdx c j)

/-- Its entry, if it has one. -/
def cleanUpEntry (s : State) (c : Cyclic) : State :=
  match s.entryOf (.cyclic c) with
  | none => s
  | some e => effect s (.cleanEntry c e)

def cleanUpOne (s : State) (c : Cyclic) : State := cleanUpEntry (cleanUpIdx s c) c

/-- Those that are cleaned up, with `groups` process data groups, in this order. -/
def cleanedUp (groups : ℕ) : List Cyclic := (List.range groups).map .lrw ++ [.dc, .brdState]

def cleanUp (groups : ℕ) (s : State) : State := (cleanedUp groups).foldl cleanUpOne s

/-! ## Condition and property -/

/-- The cyclic datagrams have nothing, so `ec_create_pd_groups` overwrites nothing; what they had is
neither in `tx_send` nor about to get there; what no other sender has is free, of 256 indices and
`n` entries. -/
structure Returned (n : ℕ) (s : State) : Prop where
  cyclic : ∀ c, s.idxOf (.cyclic c) = none ∧ s.entryOf (.cyclic c) = none
  sent : ∀ j e, s.txSend j = some e → e ∉ s.pool
  queued : ∀ e ∈ s.pool, ¬ Queued s e
  indices : ∀ j, j ∈ s.idxQ ∨ ∃ c, c.isCyclic = false ∧ s.idxOf c = some j
  entries : ∀ e < n, e ∈ s.pool ∨ ∃ c, c.isCyclic = false ∧ s.entryOf c = some e
  count : (∀ c, s.idxOf c = none ∧ s.entryOf c = none) → s.idxQ.length = 256 ∧ s.pool.length = n

/-- Only the datagrams that are cleaned up have an index or an entry, none of them is still queued,
and no datagram without an answer is under way or lost. -/
structure CleanUpOk (n groups : ℕ) (s : State) : Prop where
  others : ∀ c, c ∉ cleanedUp groups → s.idxOf (.cyclic c) = none ∧ s.entryOf (.cyclic c) = none
  queued : ∀ c e, s.entryOf (.cyclic c) = some e → ¬ Queued s e
  alone : ∀ e < n, e ∈ s.pool ∨ ∃ c, s.entryOf c = some e
  freed : ∀ e, s.rx ≠ .freed e

/-! ## What the clean-up does -/

/-- `s'` is `s`, but for what these datagrams had. -/
structure CleanedUp (cs : List Cyclic) (s s' : State) : Prop where
  idxOf : ∀ c j, s'.idxOf c = some j ↔ s.idxOf c = some j ∧ ∀ x ∈ cs, c ≠ .cyclic x
  entryOf : ∀ c e, s'.entryOf c = some e ↔ s.entryOf c = some e ∧ ∀ x ∈ cs, c ≠ .cyclic x
  idxQ : ∀ j, j ∈ s'.idxQ ↔ j ∈ s.idxQ ∨ ∃ x ∈ cs, s.idxOf (.cyclic x) = some j
  pool : ∀ e, e ∈ s'.pool ↔ e ∈ s.pool ∨ ∃ x ∈ cs, s.entryOf (.cyclic x) = some e
  sent : ∀ j e, s'.txSend j = some e ↔
    s.txSend j = some e ∧ ∀ x ∈ cs, s.idxOf (.cyclic x) ≠ some j
  queued : ∀ e, Queued s' e ↔ Queued s e
  rx : s'.rx = s.rx

section
variable {n groups : ℕ} {s s' : State} {io : Idx → IdxOwner} {eo : Entry → EntryOwner}

theorem update_none_iff {A B : Type*} [DecidableEq A] {f : A → Option B} {a k : A} {b : B} :
    update f a none k = some b ↔ f k = some b ∧ k ≠ a := by
  by_cases hk : k = a
  · rw [hk, Function.update_self]
    simp
  · rw [Function.update_of_ne hk]
    simp [hk]

theorem cleanUpIdx_idxOf (s : State) (c : Cyclic) :
    (cleanUpIdx s c).idxOf = update s.idxOf (.cyclic c) none := by
  unfold cleanUpIdx
  cases hidx : s.idxOf (.cyclic c) with
  | none =>
    have hsame : update s.idxOf (.cyclic c) none = s.idxOf := by
      rw [← hidx, Function.update_eq_self]
    exact hsame.symm
  | some j => rfl

theorem cleanUpIdx_idxQ (s : State) (c : Cyclic) (j : Idx) :
    j ∈ (cleanUpIdx s c).idxQ ↔ j ∈ s.idxQ ∨ s.idxOf (.cyclic c) = some j := by
  unfold cleanUpIdx
  cases hidx : s.idxOf (.cyclic c) with
  | none => simp
  | some k => simp [effect, eq_comm]

theorem cleanUpIdx_sent (s : State) (c : Cyclic) (j : Idx) (e : Entry) :
    (cleanUpIdx s c).txSend j = some e ↔ s.txSend j = some e ∧ s.idxOf (.cyclic c) ≠ some j := by
  unfold cleanUpIdx
  cases hidx : s.idxOf (.cyclic c) with
  | none => simp
  | some k =>
    refine update_none_iff.trans (and_congr_right fun _ => ?_)
    rw [ne_eq, ne_eq, Option.some.injEq, eq_comm]

theorem cleanUpIdx_rest (s : State) (c : Cyclic) :
    (cleanUpIdx s c).entryOf = s.entryOf ∧ (cleanUpIdx s c).pool = s.pool ∧
      (cleanUpIdx s c).txHigh = s.txHigh ∧ (cleanUpIdx s c).txLow = s.txLow ∧
      (cleanUpIdx s c).tx = s.tx ∧ (cleanUpIdx s c).rx = s.rx := by
  unfold cleanUpIdx
  split <;> exact ⟨rfl, rfl, rfl, rfl, rfl, rfl⟩

theorem cleanUpEntry_entryOf (s : State) (c : Cyclic) :
    (cleanUpEntry s c).entryOf = update s.entryOf (.cyclic c) none := by
  unfold cleanUpEntry
  cases hentry : s.entryOf (.cyclic c) with
  | none =>
    have hsame : update s.entryOf (.cyclic c) none = s.entryOf := by
      rw [← hentry, Function.update_eq_self]
    exact hsame.symm
  | some e => rfl

theorem cleanUpEntry_pool (s : State) (c : Cyclic) (e : Entry) :
    e ∈ (cleanUpEntry s c).pool ↔ e ∈ s.pool ∨ s.entryOf (.cyclic c) = some e := by
  unfold cleanUpEntry
  cases hentry : s.entryOf (.cyclic c) with
  | none => simp
  | some x => simp [effect, eq_comm]

theorem cleanUpEntry_rest (s : State) (c : Cyclic) :
    (cleanUpEntry s c).idxOf = s.idxOf ∧ (cleanUpEntry s c).idxQ = s.idxQ ∧
      (cleanUpEntry s c).txSend = s.txSend ∧ (cleanUpEntry s c).txHigh = s.txHigh ∧
      (cleanUpEntry s c).txLow = s.txLow ∧ (cleanUpEntry s c).tx = s.tx ∧
      (cleanUpEntry s c).rx = s.rx := by
  unfold cleanUpEntry
  split <;> exact ⟨rfl, rfl, rfl, rfl, rfl, rfl, rfl⟩

theorem cleanedUp_one (s : State) (c : Cyclic) : CleanedUp [c] s (cleanUpOne s c) := by
  obtain ⟨hentryOf, hpool, hhigh, hlow, htx, hrx⟩ := cleanUpIdx_rest s c
  obtain ⟨hidxOf', hidxQ', hsent', hhigh', hlow', htx', hrx'⟩ :=
    cleanUpEntry_rest (cleanUpIdx s c) c
  refine ⟨fun x j => ?_, fun x e => ?_, fun j => ?_, fun e => ?_, fun j e => ?_, fun e => ?_,
    hrx'.trans hrx⟩
  · rw [cleanUpOne, hidxOf', cleanUpIdx_idxOf, update_none_iff]
    simp
  · rw [cleanUpOne, cleanUpEntry_entryOf, hentryOf, update_none_iff]
    simp
  · rw [cleanUpOne, hidxQ', cleanUpIdx_idxQ]
    simp
  · rw [cleanUpOne, cleanUpEntry_pool, hpool, hentryOf]
    simp
  · rw [cleanUpOne, hsent', cleanUpIdx_sent]
    simp
  · rw [cleanUpOne, Queued, hhigh', hlow', htx', hhigh, hlow, htx, Queued]

theorem CleanedUp.cons {c : Cyclic} {cs : List Cyclic} {t : State} (h : CleanedUp [c] s s')
    (h' : CleanedUp cs s' t) : CleanedUp (c :: cs) s t := by
  refine ⟨fun x j => ?_, fun x e => ?_, fun j => ?_, fun e => ?_, fun j e => ?_,
    fun e => (h'.queued e).trans (h.queued e), h'.rx.trans h.rx⟩
  · rw [h'.idxOf, h.idxOf]
    simp [and_assoc]
  · rw [h'.entryOf, h.entryOf]
    simp [and_assoc]
  · rw [h'.idxQ, h.idxQ]
    simp only [h.idxOf, List.mem_singleton]
    grind
  · rw [h'.pool, h.pool]
    simp only [h.entryOf, List.mem_singleton]
    grind
  · rw [h'.sent, h.sent]
    simp only [ne_eq, h.idxOf, List.mem_singleton]
    grind

theorem cleanedUp_cleanUp (groups : ℕ) (s : State) :
    CleanedUp (cleanedUp groups) s (cleanUp groups s) := by
  unfold cleanUp
  induction cleanedUp groups generalizing s with
  | nil => constructor <;> simp
  | cons c cs ih => exact (cleanedUp_one s c).cons (ih (cleanUpOne s c))

/-! ## Nothing gets lost in it -/

/-- Every index and every entry has an owner that can be found. -/
def Accounted (n : ℕ) (s : State) : Prop := ∃ io eo, Owners s io eo ∧ Located n s io eo

theorem accounted_cleanUpIdx (h : Accounted n s) (c : Cyclic) : Accounted n (cleanUpIdx s c) := by
  obtain ⟨io, eo, h, hl⟩ := h
  unfold cleanUpIdx
  cases hidx : s.idxOf (.cyclic c) with
  | none => exact ⟨io, eo, h, hl⟩
  | some j =>
    refine ⟨update io j .free, eo, ⟨h.idx.put hidx, h.entry, h.noEntry, fun e he => ?_⟩,
      located_idxPut h hl hidx rfl rfl rfl rfl⟩
    obtain ⟨k, hpk, hk, hfree⟩ := h.freed e he
    refine ⟨k, hpk, (update_eq_iff (by simp) ?_).2 hk, hfree⟩
    rw [(h.idx.ownerHolder _ j).1 hidx]
    simp

theorem accounted_cleanUpEntry (h : Accounted n s) (c : Cyclic) :
    Accounted n (cleanUpEntry s c) := by
  obtain ⟨io, eo, h, hl⟩ := h
  unfold cleanUpEntry
  cases hentry : s.entryOf (.cyclic c) with
  | none => exact ⟨io, eo, h, hl⟩
  | some e =>
    refine ⟨io, update eo e .free, ⟨h.idx, h.entry.put hentry, fun c' hc' => ?_, fun x hx => ?_⟩,
      located_put h hl hentry rfl rfl rfl rfl⟩
    · show update s.entryOf (.cyclic c) none c' = none
      by_cases hcc : c' = .cyclic c
      · rw [hcc, Function.update_self]
      · rw [Function.update_of_ne hcc]
        exact h.noEntry c' hc'
    · obtain ⟨j, hpj, hj, hfree⟩ := h.freed x hx
      by_cases hxe : x = e
      · exact ⟨j, hpj, hj, by rw [hxe, Function.update_self]⟩
      · exact ⟨j, hpj, hj, (Function.update_of_ne hxe _ _).trans hfree⟩

theorem accounted_cleanUp (h : Accounted n s) (groups : ℕ) : Accounted n (cleanUp groups s) := by
  unfold cleanUp
  induction cleanedUp groups generalizing s with
  | nil => exact h
  | cons c cs ih => exact ih (accounted_cleanUpEntry (accounted_cleanUpIdx h c) c)

/-- What nobody has is free. -/
theorem Accounted.indices (h : Accounted n s) (halone : ∀ e < n, e ∈ s.pool ∨ ∃ c, s.entryOf c = some e)
    (hfreed : ∀ e, s.rx ≠ .freed e) (j : Idx) : j ∈ s.idxQ ∨ ∃ c, s.idxOf c = some j := by
  obtain ⟨io, eo, h, hl⟩ := h
  obtain ⟨p, hp, -⟩ := (idxExclusive h hl).2 j
  cases p with
  | free => exact Or.inl hp
  | sender c => exact Or.inr ⟨c, hp⟩
  | entry e =>
    obtain ⟨hlt, hpool, hno, -⟩ := hp
    rcases halone e hlt with hmem | ⟨c, hc⟩
    · exact absurd hmem hpool
    · exact absurd hc (hno c)
  | receiver =>
    obtain ⟨e, he, -⟩ := hp
    exact absurd he (hfreed e)

theorem Accounted.count (h : Accounted n s) (hindices : ∀ j, j ∈ s.idxQ) (hentries : ∀ e < n, e ∈ s.pool) :
    s.idxQ.length = 256 ∧ s.pool.length = n := by
  obtain ⟨io, eo, h, hl⟩ := h
  have hidx : s.idxQ.Perm (init n).idxQ := by
    refine (List.perm_ext_iff_of_nodup h.idx.nodup init_idxQ_nodup).2 fun j => ?_
    exact iff_of_true (hindices j) ((located_init n).idxFree j rfl)
  have hpool : s.pool.Perm (List.range n) := by
    refine (List.perm_ext_iff_of_nodup h.entry.nodup List.nodup_range).2 fun e => ?_
    exact ⟨fun he => List.mem_range.2 (hl.pool e he), fun he => hentries e (List.mem_range.1 he)⟩
  refine ⟨hidx.length_eq.trans ?_, hpool.length_eq.trans List.length_range⟩
  exact (List.length_map _).trans List.length_range

/-! ## Afterwards -/

theorem cleanUp_returned (h : Inv false s io eo) (hl : Located n s io eo)
    (hok : CleanUpOk n groups s) : Returned n (cleanUp groups s) := by
  have hc := cleanedUp_cleanUp groups s
  have hacc : Accounted n (cleanUp groups s) := accounted_cleanUp ⟨io, eo, h.owners, hl⟩ groups
  have hcyclic : ∀ c, (cleanUp groups s).idxOf (.cyclic c) = none ∧
      (cleanUp groups s).entryOf (.cyclic c) = none := by
    intro c
    constructor
    · refine Option.eq_none_iff_forall_ne_some.2 fun j hj => ?_
      obtain ⟨hj', hne⟩ := (hc.idxOf _ j).1 hj
      have hnone := (hok.others c fun hmem => hne c hmem rfl).1
      rw [hj'] at hnone
      cases hnone
    · refine Option.eq_none_iff_forall_ne_some.2 fun e he => ?_
      obtain ⟨he', hne⟩ := (hc.entryOf _ e).1 he
      have hnone := (hok.others c fun hmem => hne c hmem rfl).2
      rw [he'] at hnone
      cases hnone
  have halone : ∀ e < n, e ∈ (cleanUp groups s).pool ∨
      ∃ c, (cleanUp groups s).entryOf c = some e := by
    intro e he
    rcases hok.alone e he with hmem | ⟨c, hhas⟩
    · exact Or.inl ((hc.pool e).2 (Or.inl hmem))
    · by_cases hclean : ∀ x ∈ cleanedUp groups, c ≠ .cyclic x
      · exact Or.inr ⟨c, (hc.entryOf c e).2 ⟨hhas, hclean⟩⟩
      · push Not at hclean
        obtain ⟨x, hx, rfl⟩ := hclean
        exact Or.inl ((hc.pool e).2 (Or.inr ⟨x, hx, hhas⟩))
  have hindices := hacc.indices halone (by rw [hc.rx]; exact hok.freed)
  refine ⟨hcyclic, fun j e hj he => ?_, fun e he hq => ?_, fun j => ?_, fun e he => ?_,
    fun hidle => hacc.count (fun j => ?_) fun e he => ?_⟩
  · obtain ⟨hj', hno⟩ := (hc.sent j e).1 hj
    have howns := h.uses e j (Uses.sent hj')
    rcases (hc.pool e).1 he with hmem | ⟨x, hx, hentry⟩
    · exact howns.not_free.1 (h.owners.entry.ownerFree e hmem)
    · -- the index of the entry has been taken out of `tx_send`
      have hio := (howns.holder ((h.owners.entry.ownerHolder _ e).1 hentry)).1
      exact hno x hx ((h.owners.idx.ownerHolder _ j).2 hio)
  · rcases (hc.pool e).1 he with hmem | ⟨x, -, hentry⟩
    · exact (h.uses e _ (Uses.queued ((hc.queued e).1 hq))).not_free.1
        (h.owners.entry.ownerFree e hmem)
    · exact hok.queued x e hentry ((hc.queued e).1 hq)
  · refine (hindices j).imp_right fun ⟨c, hj⟩ => ⟨c, ?_, hj⟩
    cases c with
    | cyclic c => rw [(hcyclic c).1] at hj; cases hj
    | transceive | duration | noReply => rfl
  · refine (halone e he).imp_right fun ⟨c, hhas⟩ => ⟨c, ?_, hhas⟩
    cases c with
    | cyclic c => rw [(hcyclic c).2] at hhas; cases hhas
    | transceive | duration | noReply => rfl
  · refine (hindices j).resolve_right fun ⟨c, hj⟩ => ?_
    rw [(hidle c).1] at hj
    cases hj
  · refine (halone e he).resolve_right fun ⟨c, hhas⟩ => ?_
    rw [(hidle c).2] at hhas
    cases hhas

theorem cleanUpOk_of_returned (h : Inv false s io eo) (hret : Returned n (cleanUp groups s)) :
    CleanUpOk n groups s := by
  have hc := cleanedUp_cleanUp groups s
  have hothers : ∀ c, c ∉ cleanedUp groups →
      s.idxOf (.cyclic c) = none ∧ s.entryOf (.cyclic c) = none := by
    intro c hclean
    have hne : ∀ x ∈ cleanedUp groups, (.cyclic c : Sender) ≠ .cyclic x := by
      rintro x hx ⟨rfl⟩
      exact hclean hx
    obtain ⟨hidx, hentry⟩ := hret.cyclic c
    constructor
    · refine Option.eq_none_iff_forall_ne_some.2 fun j hj => ?_
      rw [(hc.idxOf _ j).2 ⟨hj, hne⟩] at hidx
      cases hidx
    · refine Option.eq_none_iff_forall_ne_some.2 fun e he => ?_
      rw [(hc.entryOf _ e).2 ⟨he, hne⟩] at hentry
      cases hentry
  refine ⟨hothers, fun c e he hq => ?_, fun e he => ?_, fun e he => ?_⟩
  · by_cases hclean : c ∈ cleanedUp groups
    · exact hret.queued e ((hc.pool e).2 (Or.inr ⟨c, hclean, he⟩)) ((hc.queued e).2 hq)
    · rw [(hothers c hclean).2] at he
      cases he
  · rcases hret.entries e he with hmem | ⟨c, -, hhas⟩
    · rcases (hc.pool e).1 hmem with hmem | ⟨x, -, hentry⟩
      · exact Or.inl hmem
      · exact Or.inr ⟨_, hentry⟩
    · exact Or.inr ⟨c, ((hc.entryOf c e).1 hhas).1⟩
  · -- the index of the entry that has been put back is not free yet
    obtain ⟨j, -, hj, -⟩ := h.owners.freed e he
    rcases hret.indices j with hmem | ⟨c, -, hhas⟩
    · rcases (hc.idxQ j).1 hmem with hmem | ⟨x, -, hidx⟩
      · rw [h.owners.idx.ownerFree j hmem] at hj
        cases hj
      · rw [(h.owners.idx.ownerHolder _ j).1 hidx] at hj
        cases hj
    · rw [(h.owners.idx.ownerHolder c j).1 ((hc.idxOf c j).1 hhas).1] at hj
      cases hj

end

/-- **Everything comes back** when cyclic operation ends, just if the clean-up knows of all that is
in use. -/
theorem cleanUp_returned_iff {n groups : ℕ} {acts : List Action} {s : State}
    (hok : Runs.RunOk step IdxOk (init n) acts) (hrun : Runs.run step (init n) acts = some s) :
    Returned n (cleanUp groups s) ↔ CleanUpOk n groups s := by
  obtain ⟨io, eo, h, hl⟩ := located_run hok hrun
  exact ⟨cleanUpOk_of_returned h, cleanUp_returned h hl⟩

/-- The broadcast state datagram is sent. -/
def brdStateRun : List Action :=
  [.indexGet (.cyclic .brdState) 0, .poolGet (.cyclic .brdState) 0, .memset (.cyclic .brdState) 0,
    .fill (.cyclic .brdState) 0 0, .unsend (.cyclic .brdState) 0 0, .enqueue (.cyclic .brdState) 0,
    .txPop true 0, .txSend 0]

theorem cleanUp_returned_brdStateRun :
    ∃ s, Runs.run step (init 1) brdStateRun = some s ∧ s.txSend 0 = some 0 ∧
      Returned 1 (cleanUp 1 s) := by
  have hok : Runs.RunOk step IdxOk (init 1) brdStateRun := by
    refine .cons ⟨fun _ => rfl, by simp⟩ rfl (.cons ⟨fun h => ?_, by simp⟩ rfl
      (.cons ⟨?_, by simp⟩ rfl (.cons ⟨fun t ht => ?_, by simp⟩ rfl (.cons ⟨trivial, by simp⟩ rfl
      (.cons ⟨trivial, by simp⟩ rfl (.cons ⟨trivial, by simp⟩ rfl
      (.cons ⟨trivial, by simp⟩ rfl trivial)))))))
    · cases h
    · show ¬ Queued _ _
      decide
    · cases ht
  refine ⟨_, rfl, rfl, (cleanUp_returned_iff hok rfl).2 ⟨fun c hc => ?_, fun c e he => ?_,
    fun e he => Or.inr ⟨.cyclic .brdState, ?_⟩, fun e => ?_⟩⟩
  · have hne : c ≠ .brdState := by
      rintro rfl
      exact hc (by simp [cleanedUp])
    simp [effect, afterEnqueue, init, Sender.high, Sender.isCyclic, hne]
  · simp [Queued, effect, afterEnqueue, init, Sender.high]
  · obtain rfl : e = 0 := by omega
    rfl
  · exact Rx.noConfusion

/-- Process data are sent once, with nothing mapped: the datagrams get an index and an entry all the
same. -/
def processDataRun : List Action :=
  [.indexGet (.cyclic (.lrw 0)) 0, .poolGet (.cyclic (.lrw 0)) 0, .skip (.lrw 0),
    .indexGet (.cyclic (.mbxState 0)) 1, .poolGet (.cyclic (.mbxState 0)) 1, .skip (.mbxState 0)]

/-- `cdg_lrd_mbx_state` keeps what it has. -/
theorem mbxState_not_returned :
    ¬ ∀ n groups acts s, Runs.run step (init n) acts = some s → Returned n (cleanUp groups s) := by
  intro hall
  have hnone := ((hall 2 1 processDataRun _ rfl).cyclic (.mbxState 0)).1
  revert hnone
  decide

end LibEthercat.Bus
