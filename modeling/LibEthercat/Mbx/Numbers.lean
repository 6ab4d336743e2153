import Mathlib.Data.List.Chain
import LibEthercat.Mbx.Counters

/-!
# The counters of a slave

The counters that `ec_mbx_next_counter` gives for a slave go from 1 to 7 again and again, as long as
nobody writes to `seq_counter` between the first and the last instruction of somebody else. Otherwise
two clients get the same counter, or one gets 8.

**Theorem (`counters_kept`).** If that does not happen and acknowledgements lie in the buffers of
their requests, every message that is written to a mailbox has the counter that has been obtained for
it, the counters of a slave are numbered, and nobody writes to a buffer that he has put into a queue.
-/

namespace LibEthercat.Mbx.Counters

open Function (update)
open Runs

/-! ## Property and condition -/

structure Kept (s : State) : Prop where
  /-- A message carries what has been obtained for it. -/
  carried : ∀ n, ∀ m ∈ s.mailbox n, m.2 = some m.1
  range : ∀ n, ∀ v ∈ s.values n, 1 ≤ v.2 ∧ v.2 ≤ 7
  cycle : ∀ n, (s.values n).IsChain fun later earlier => later.2 = earlier.2 % 7 + 1

/-- The next instruction of the client, for this slave. -/
def Client.AtSeq (c : Client) (n : ℕ) (i : Instr) : Prop := c.slave = n ∧ c.code.head? = some i

/-- It has written the counter that it will get. -/
def Client.Owns (c : Client) (n : ℕ) : Prop := c.AtSeq n .wrapSeq ∨ c.AtSeq n .fetchSeq

/-- It is between the first and the last instruction of `ec_mbx_next_counter`. -/
def Client.Counting (c : Client) (n : ℕ) : Prop := c.AtSeq n .storeSeq ∨ c.Owns n

/-- It writes to `seq_counter` next. -/
def Client.Writes (c : Client) (n : ℕ) : Prop :=
  c.AtSeq n .storeSeq ∨ c.AtSeq n .wrapSeq ∧ 7 < c.incremented

/-- Nobody else is in the middle of `ec_mbx_next_counter` for a slave when its `seq_counter` is
written. -/
def Alone (s : State) : Action → Prop
  | .run k => ∀ n, (s.client k).Writes n → ∀ k' ≠ k, ¬ (s.client k').Counting n
  | _ => True

def StepOk (s : State) (a : Action) : Prop := AckOk s a ∧ Alone s a

/-! ## One slave -/

/-- What a client that is counting knows of `seq_counter`, and of the counter given last. -/
def Client.Fits (c : Client) (n seq : ℕ) (values : List (ℕ × ℕ)) : Prop :=
  (c.AtSeq n .storeSeq → c.incremented = seq + 1) ∧
  (c.AtSeq n .wrapSeq →
    c.incremented = seq ∧ 2 ≤ seq ∧ seq ≤ 8 ∧ ∀ v ∈ values.head?, v.2 + 1 = seq) ∧
  (c.AtSeq n .fetchSeq → 1 ≤ seq ∧ seq ≤ 7 ∧ ∀ v ∈ values.head?, seq = v.2 % 7 + 1)

/-- The counters of a slave. At most one client has written and not got its counter; as long as
nobody has, `seq_counter` is the counter given last. -/
structure Numbering (s : State) (n : ℕ) : Prop where
  range : ∀ v ∈ s.values n, 1 ≤ v.2 ∧ v.2 ≤ 7
  cycle : (s.values n).IsChain fun later earlier => later.2 = earlier.2 % 7 + 1
  fits : ∀ k, (s.client k).Fits n (s.seqCounter n) (s.values n)
  one : ∀ k k', (s.client k).Owns n → (s.client k').Owns n → k = k'
  settled : (∀ k, ¬ (s.client k).Owns n) →
    1 ≤ s.seqCounter n ∧ s.seqCounter n ≤ 7 ∧ ∀ v ∈ (s.values n).head?, v.2 = s.seqCounter n

section
variable {s s' : State} {n k : ℕ} {c : Client} {code : List Instr} {i : Instr}

theorem Client.Owns.counting (h : c.Owns n) : c.Counting n := Or.inr h

theorem Client.AtSeq.unique {j : Instr} (hi : c.AtSeq n i) (hj : c.AtSeq n j) : i = j :=
  Option.some.inj (hi.2.symm.trans hj.2)

theorem not_counting_of_slave (h : c.slave ≠ n) : ¬ c.Counting n := by
  intro hc
  rcases hc with hc | hc | hc <;> exact h hc.1

theorem not_counting_of_code (hcode : c.code = i :: code)
    (hi : i ≠ .storeSeq ∧ i ≠ .wrapSeq ∧ i ≠ .fetchSeq) : ¬ c.Counting n := by
  have hhead : ∀ j, c.AtSeq n j → i = j := by
    intro j hj
    have hsome := hj.2
    rw [hcode] at hsome
    exact Option.some.inj hsome
  intro hc
  rcases hc with hc | hc | hc
  · exact hi.1 (hhead _ hc)
  · exact hi.2.1 (hhead _ hc)
  · exact hi.2.2 (hhead _ hc)

theorem not_counting_of_nil (hcode : c.code = []) : ¬ c.Counting n := by
  intro hc
  rcases hc with hc | hc | hc <;> simp [Client.AtSeq, hcode] at hc

/-- Only in the middle of `ec_mbx_next_counter` a message is at one of these stages. -/
theorem not_counting_of_builds {st : Stage} (hbuilds : st.Builds c.code)
    (hst : st ≠ .loaded ∧ st ≠ .stored ∧ st ≠ .wrapped) : ¬ c.Counting n := by
  cases hcode : c.code with
  | nil => exact not_counting_of_nil hcode
  | cons i code =>
    rw [hcode] at hbuilds
    obtain ⟨st', hnext, -⟩ := hbuilds
    refine not_counting_of_code hcode ⟨?_, ?_, ?_⟩
    all_goals
      intro hi
      subst hi
      cases st <;> simp_all [Stage.next]

/-- What a message at this stage can go on with, in the middle of `ec_mbx_next_counter`. -/
def seqInstr : Stage → Option Instr
  | .loaded => some .storeSeq
  | .stored => some .wrapSeq
  | .wrapped => some .fetchSeq
  | _ => none

theorem head_of_builds {st : Stage} (hbuilds : st.Builds code) (hi : seqInstr st = some i) :
    code.head? = some i := by
  cases code with
  | nil =>
    obtain rfl : st = .empty := hbuilds
    cases hi
  | cons j code =>
    obtain ⟨st', hnext, -⟩ := hbuilds
    cases st <;> cases hi <;> cases j <;> cases hnext <;> rfl

theorem Client.fits_of_not_counting {seq : ℕ} {values : List (ℕ × ℕ)} (h : ¬ c.Counting n) :
    c.Fits n seq values :=
  ⟨fun hc => absurd (Or.inl hc) h, fun hc => absurd (Or.inr (Or.inl hc)) h,
    fun hc => absurd (Or.inr (Or.inr hc)) h⟩

/-- Nothing happens to the counters of this slave. -/
theorem Numbering.elsewhere (h : Numbering s n) (hseq : s'.seqCounter n = s.seqCounter n)
    (hvalues : s'.values n = s.values n)
    (hclient : ∀ k, s'.client k = s.client k ∨
      ¬ (s.client k).Counting n ∧ ¬ (s'.client k).Counting n) : Numbering s' n := by
  have howns : ∀ k, (s'.client k).Owns n ↔ (s.client k).Owns n := by
    intro k
    rcases hclient k with hk | ⟨hbefore, hafter⟩
    · rw [hk]
    · exact iff_of_false (fun ho => hafter ho.counting) fun ho => hbefore ho.counting
  refine ⟨?_, ?_, fun k => ?_, fun k k' hk hk' => ?_, fun hnone => ?_⟩
  · rw [hvalues]
    exact h.range
  · rw [hvalues]
    exact h.cycle
  · rw [hseq, hvalues]
    rcases hclient k with hk | ⟨-, hafter⟩
    · rw [hk]
      exact h.fits k
    · exact Client.fits_of_not_counting hafter
  · exact h.one k k' ((howns k).1 hk) ((howns k').1 hk')
  · rw [hseq, hvalues]
    exact h.settled fun k hk => hnone k ((howns k).2 hk)

/-- `seq_counter` is read. -/
theorem Numbering.loadSeq (h : Numbering s n) (hat : (s.client k).AtSeq n .loadSeq)
    (hcode : code.head? = some .storeSeq) :
    Numbering (s.setClient k { s.client k with
      code := code
      incremented := s.seqCounter n + 1 }) n := by
  have howns : ∀ k', ((s.setClient k { s.client k with
      code := code
      incremented := s.seqCounter n + 1 }).client k').Owns n ↔ (s.client k').Owns n := by
    intro k'
    by_cases hk : k' = k
    · subst hk
      rw [State.setClient_self]
      refine iff_of_false (fun ho => ?_) fun ho => ?_
      · rcases ho with ho | ho <;> cases hcode.symm.trans ho.2
      · rcases ho with ho | ho <;> cases hat.unique ho
    · rw [State.setClient_of_ne _ _ hk]
  refine ⟨h.range, h.cycle, fun k' => ?_, fun k₁ k₂ h₁ h₂ => ?_, fun hnone => ?_⟩
  · by_cases hk : k' = k
    · subst hk
      rw [State.setClient_self]
      refine ⟨fun _ => rfl, fun hc => ?_, fun hc => ?_⟩
      · cases hcode.symm.trans hc.2
      · cases hcode.symm.trans hc.2
    · rw [State.setClient_of_ne _ _ hk]
      exact h.fits k'
  · exact h.one k₁ k₂ ((howns k₁).1 h₁) ((howns k₂).1 h₂)
  · exact h.settled fun k' hk' => hnone k' ((howns k').2 hk')

/-- `seq_counter` is written by one client while no other one is counting. -/
theorem Numbering.owned {seqCounter : ℕ → ℕ} (h : Numbering s n) (hk : c.Owns n)
    (hfits : c.Fits n (seqCounter n) (s.values n)) (hothers : ∀ k' ≠ k,
      (s.client k').Fits n (seqCounter n) (s.values n) ∧ ¬ (s.client k').Owns n) :
    Numbering { s.setClient k c with seqCounter := seqCounter } n := by
  have hself : (State.setClient s k c).client k = c := State.setClient_self s k c
  have hother : ∀ k' ≠ k, (State.setClient s k c).client k' = s.client k' := fun k' hne =>
    State.setClient_of_ne s c hne
  have howner : ∀ k', ((State.setClient s k c).client k').Owns n → k' = k := by
    intro k' ho
    by_contra hne
    rw [hother k' hne] at ho
    exact (hothers k' hne).2 ho
  refine ⟨h.range, h.cycle, fun k' => ?_, fun k₁ k₂ h₁ h₂ => ?_, fun hnone => ?_⟩
  · by_cases hne : k' = k
    · subst hne
      show Client.Fits ((State.setClient s k' c).client k') _ _ _
      rw [hself]
      exact hfits
    · show Client.Fits ((State.setClient s k c).client k') _ _ _
      rw [hother k' hne]
      exact (hothers k' hne).1
  · exact (howner k₁ h₁).trans (howner k₂ h₂).symm
  · refine absurd ?_ (hnone k)
    show Client.Owns ((State.setClient s k c).client k) n
    rw [hself]
    exact hk

theorem Numbering.storeSeq (h : Numbering s n) (hat : (s.client k).AtSeq n .storeSeq)
    (hcode : code.head? = some .wrapSeq)
    (halone : ∀ k' ≠ k, ¬ (s.client k').Counting n) :
    Numbering { s.setClient k { s.client k with code := code } with
      seqCounter := update s.seqCounter n (s.client k).incremented } n := by
  have hnone : ∀ k', ¬ (s.client k').Owns n := by
    intro k' ho
    by_cases hk : k' = k
    · subst hk
      rcases ho with ho | ho <;> cases hat.unique ho
    · exact halone k' hk ho.counting
  obtain ⟨hpos, hle, hlast⟩ := h.settled hnone
  have hinc := (h.fits k).1 hat
  refine h.owned (Or.inl ⟨hat.1, hcode⟩) ?_ fun k' hk =>
    ⟨Client.fits_of_not_counting (halone k' hk), hnone k'⟩
  rw [Function.update_self]
  refine ⟨fun hc => ?_, fun _ => ⟨rfl, ?_, ?_, fun v hv => ?_⟩, fun hc => ?_⟩
  · cases hcode.symm.trans hc.2
  · omega
  · omega
  · rw [hinc, hlast v hv]
  · cases hcode.symm.trans hc.2

theorem Numbering.wrapSeq (h : Numbering s n) (hat : (s.client k).AtSeq n .wrapSeq)
    (hcode : code.head? = some .fetchSeq)
    (halone : 7 < (s.client k).incremented → ∀ k' ≠ k, ¬ (s.client k').Counting n) :
    Numbering { s.setClient k { s.client k with code := code } with
      seqCounter := if (s.client k).incremented > 7 then update s.seqCounter n 1
        else s.seqCounter } n := by
  obtain ⟨hinc, hlow, hhigh, hlast⟩ := (h.fits k).2.1 hat
  have howns : ({ s.client k with code := code } : Client).Owns n := Or.inr ⟨hat.1, hcode⟩
  have hfits : ∀ seq, (1 ≤ seq ∧ seq ≤ 7 ∧ ∀ v ∈ (s.values n).head?, seq = v.2 % 7 + 1) →
      ({ s.client k with code := code } : Client).Fits n seq (s.values n) := by
    intro seq hseq
    refine ⟨fun hc => ?_, fun hc => ?_, fun _ => hseq⟩
    · cases hcode.symm.trans hc.2
    · cases hcode.symm.trans hc.2
  by_cases hwrap : (s.client k).incremented > 7
  · rw [if_pos hwrap]
    refine h.owned howns ?_ fun k' hk => ⟨Client.fits_of_not_counting (halone hwrap k' hk),
      fun ho => halone hwrap k' hk ho.counting⟩
    rw [Function.update_self]
    refine hfits 1 ⟨Nat.le_refl 1, by omega, fun v hv => ?_⟩
    have hv7 := hlast v hv
    omega
  · rw [if_neg hwrap]
    refine h.owned howns ?_ fun k' hk => ⟨h.fits k', fun ho =>
      hk (h.one k' k ho (Or.inl hat))⟩
    refine hfits _ ⟨by omega, by omega, fun v hv => ?_⟩
    have hv7 := hlast v hv
    omega

/-- The client gets what is in `seq_counter` now. -/
theorem Numbering.fetchSeq {obtained : Buf → Option ℕ} (h : Numbering s n)
    (hat : (s.client k).AtSeq n .fetchSeq) (hnot : ¬ c.Counting n) :
    Numbering { s.setClient k c with
      values := update s.values n ((k, s.seqCounter n) :: s.values n)
      obtained := obtained } n := by
  obtain ⟨hpos, hle, hlast⟩ := (h.fits k).2.2 hat
  have hself : (State.setClient s k c).client k = c := State.setClient_self s k c
  have hother : ∀ k' ≠ k, (State.setClient s k c).client k' = s.client k' := fun k' hne =>
    State.setClient_of_ne s c hne
  have hnone : ∀ k', ¬ ((State.setClient s k c).client k').Owns n := by
    intro k' ho
    by_cases hne : k' = k
    · subst hne
      rw [hself] at ho
      exact hnot ho.counting
    · rw [hother k' hne] at ho
      exact hne (h.one k' k ho (Or.inr hat))
  refine ⟨?_, ?_, fun k' => ?_, fun k₁ _ h₁ _ => absurd h₁ (hnone k₁), fun _ => ?_⟩
  · intro v hv
    simp only [Function.update_self, List.mem_cons] at hv
    rcases hv with rfl | hv
    · exact ⟨hpos, hle⟩
    · exact h.range v hv
  · simp only [Function.update_self]
    exact List.isChain_cons.2 ⟨hlast, h.cycle⟩
  · by_cases hne : k' = k
    · subst hne
      show Client.Fits ((State.setClient s k' c).client k') _ _ _
      rw [hself]
      exact Client.fits_of_not_counting hnot
    · refine ⟨?_, fun hc => absurd (Or.inl hc) (hnone k'), fun hc => absurd (Or.inr hc) (hnone k')⟩
      show ((State.setClient s k c).client k').AtSeq n .storeSeq → _
      rw [hother k' hne]
      exact (h.fits k').1
  · simp only [Function.update_self, List.head?_cons, Option.mem_def, Option.some.injEq]
    exact ⟨hpos, hle, fun v hv => hv ▸ rfl⟩

end

/-! ## All slaves -/

/-- **Invariant.** What has been obtained fits the four bits of a message. -/
structure Numbers (s : State) : Prop where
  slave : ∀ n, Numbering s n
  obtained : ∀ b, ∀ v ∈ s.obtained b, v ≤ 7
  mailbox : ∀ n, ∀ m ∈ s.mailbox n, ∀ v ∈ m.2, v ≤ 7

theorem numbers_init (cnt : ℕ) : Numbers (init cnt) where
  slave n := by
    have hnone : ∀ k, ¬ ((init cnt).client k).Counting n := fun k => not_counting_of_nil rfl
    exact ⟨by simp [init], .nil, fun k => Client.fits_of_not_counting (hnone k),
      fun k _ hk _ => absurd hk.counting (hnone k), fun _ => by simp [init]⟩
  obtained _ _ h := by cases h
  mailbox _ _ h := by cases h

section
variable {cnt k : ℕ} {s s' : State} {code : List Instr}

/-- A step that is not one of `ec_mbx_next_counter`. -/
theorem Numbers.elsewhere (h : Numbers s) (hclient : ∀ k' ≠ k, s'.client k' = s.client k')
    (hbefore : ∀ n, ¬ (s.client k).Counting n) (hafter : ∀ n, ¬ (s'.client k).Counting n)
    (hseq : s'.seqCounter = s.seqCounter) (hvalues : s'.values = s.values)
    (hobtained : ∀ b, ∀ v ∈ s'.obtained b, v ∈ s.obtained b) (hmailbox : s'.mailbox = s.mailbox) :
    Numbers s' where
  slave n := by
    refine (h.slave n).elsewhere (by rw [hseq]) (by rw [hvalues]) fun k' => ?_
    by_cases hk : k' = k
    · subst hk
      exact Or.inr ⟨hbefore n, hafter n⟩
    · exact Or.inl (hclient k' hk)
  obtained b v hv := h.obtained b v (hobtained b v hv)
  mailbox := by
    rw [hmailbox]
    exact h.mailbox

/-- A step of `ec_mbx_next_counter`. -/
theorem Numbers.counted (h : Numbers s) (hslave : Numbering s' (s.client k).slave)
    (hclient : ∀ k' ≠ k, s'.client k' = s.client k')
    (hsame : (s'.client k).slave = (s.client k).slave)
    (hseq : ∀ n ≠ (s.client k).slave, s'.seqCounter n = s.seqCounter n)
    (hvalues : ∀ n ≠ (s.client k).slave, s'.values n = s.values n)
    (hobtained : ∀ b, ∀ v ∈ s'.obtained b, v ≤ 7) (hmailbox : s'.mailbox = s.mailbox) :
    Numbers s' where
  slave n := by
    by_cases hn : n = (s.client k).slave
    · subst hn
      exact hslave
    · refine (h.slave n).elsewhere (hseq n hn) (hvalues n hn) fun k' => ?_
      by_cases hk : k' = k
      · subst hk
        exact Or.inr ⟨not_counting_of_slave fun h => hn h.symm,
          not_counting_of_slave fun h => hn (hsame ▸ h).symm⟩
      · exact Or.inl (hclient k' hk)
  obtained := hobtained
  mailbox := by
    rw [hmailbox]
    exact h.mailbox

/-- The client goes on with other code. -/
theorem Numbers.setClient (h : Numbers s) {c : Client} (hbefore : ∀ n, ¬ (s.client k).Counting n)
    (hafter : ∀ n, ¬ c.Counting n) : Numbers (s.setClient k c) :=
  h.elsewhere (fun _ hk => State.setClient_of_ne s c hk) hbefore
    (by rwa [State.setClient_self]) rfl rfl (fun _ _ hv => hv) rfl

theorem Numbers.get (h : Numbers s) {checked : Bool}
    (hbefore : ∀ n, ¬ (s.client k).Counting n) (hbuilds : Stage.got.Builds code)
    (hexec : exec s k { s.client k with code := code } (.get checked) = some s') : Numbers s' := by
  cases hfree : s.content .free with
  | nil =>
    simp only [exec, hfree, Option.ite_none_right_eq_some, Option.some.injEq] at hexec
    obtain ⟨-, rfl⟩ := hexec
    exact h.setClient hbefore fun n => not_counting_of_nil rfl
  | cons b bs =>
    simp only [exec, hfree, Option.some.injEq] at hexec
    subst hexec
    refine h.elsewhere (k := k) (fun _ hk => State.setClient_of_ne s _ hk) hbefore (fun n => ?_)
      rfl rfl (fun b' v hv => ?_) rfl
    · rw [State.setClient_self]
      exact not_counting_of_builds hbuilds (by simp)
    · by_cases hb : b' = b
      · subst hb
        simp only [Function.update_self] at hv
        cases hv
      · simpa only [Function.update_of_ne hb] using hv

theorem Numbers.fetchSeq (h : Numbers s) (hat : (s.client k).AtSeq (s.client k).slave .fetchSeq)
    (hbuilds : Stage.counted.Builds code)
    (hexec : exec s k { s.client k with code := code } .fetchSeq = some s') : Numbers s' := by
  obtain ⟨b, -, rfl⟩ := Option.map_eq_some_iff.1 hexec
  have hnumbering := h.slave (s.client k).slave
  refine h.counted (k := k) ?_ (fun _ hk => State.setClient_of_ne s _ hk) ?_ (fun _ _ => rfl)
    (fun n hn => Function.update_of_ne hn _ _) (fun b' v hv => ?_) rfl
  · exact hnumbering.fetchSeq hat (not_counting_of_builds hbuilds (by simp))
  · rw [State.setClient_self]
  · by_cases hb : b' = b
    · subst hb
      simp only [Function.update_self, Option.mem_def, Option.some.injEq] at hv
      exact hv ▸ ((hnumbering.fits k).2.2 hat).2.1
    · simp only [Function.update_of_ne hb] at hv
      exact h.obtained b' v hv

/-- **A step of a client.** -/
theorem numbers_run (hinv : Inv cnt s) (h : Numbers s) (hok : Alone s (.run k))
    (hstep : step s (.run k) = some s') : Numbers s' := by
  obtain ⟨st, hbuilds, -⟩ := hinv.building k
  cases hcode : (s.client k).code with
  | nil => simp [step, hcode] at hstep
  | cons i code =>
    simp only [step, hcode] at hstep
    rw [hcode] at hbuilds
    obtain ⟨st', hnext, hbuilds⟩ := hbuilds
    have hat : (s.client k).AtSeq (s.client k).slave i := ⟨rfl, by rw [hcode]; rfl⟩
    cases i with
    | get checked =>
      cases st <;> cases hnext
      exact h.get (fun n => not_counting_of_code hcode (by simp)) hbuilds hstep
    | setWriteBuf =>
      cases st <;> cases hnext
      cases hstep
      exact h.setClient (fun n => not_counting_of_code hcode (by simp))
        fun n => not_counting_of_builds hbuilds (by simp)
    | loadSeq =>
      cases st <;> cases hnext
      cases hstep
      have hhead : code.head? = some .storeSeq := head_of_builds hbuilds rfl
      refine h.counted (k := k) ((h.slave _).loadSeq hat hhead)
        (fun _ hk => State.setClient_of_ne s _ hk) ?_ (fun _ _ => rfl) (fun _ _ => rfl) h.obtained rfl
      rw [State.setClient_self]
    | storeSeq =>
      cases st <;> cases hnext
      cases hstep
      have hhead : code.head? = some .wrapSeq := head_of_builds hbuilds rfl
      have halone := hok (s.client k).slave (Or.inl hat)
      refine h.counted (k := k) ((h.slave _).storeSeq hat hhead halone)
        (fun _ hk => State.setClient_of_ne s _ hk) ?_ (fun n hn => Function.update_of_ne hn _ _)
        (fun _ _ => rfl) h.obtained rfl
      rw [State.setClient_self]
    | wrapSeq =>
      cases st <;> cases hnext
      cases hstep
      have hhead : code.head? = some .fetchSeq := head_of_builds hbuilds rfl
      have halone := fun hwrap => hok (s.client k).slave (Or.inr ⟨hat, hwrap⟩)
      refine h.counted (k := k) ((h.slave _).wrapSeq hat hhead halone)
        (fun _ hk => State.setClient_of_ne s _ hk) ?_ (fun n hn => ?_) (fun _ _ => rfl) h.obtained rfl
      · rw [State.setClient_self]
      · dsimp only
        split_ifs
        · exact Function.update_of_ne hn _ _
        · rfl
    | fetchSeq =>
      cases st <;> cases hnext
      exact h.fetchSeq hat hbuilds hstep
    | write x =>
      obtain ⟨b, -, rfl⟩ := Option.map_eq_some_iff.1 hstep
      refine h.setClient (fun n => not_counting_of_code hcode (by simp)) fun n => ?_
      exact not_counting_of_builds hbuilds (by cases st <;> cases hnext <;> simp)
    | writeCounter x =>
      cases st <;> cases hnext
      obtain ⟨b, -, rfl⟩ := Option.map_eq_some_iff.1 hstep
      refine h.elsewhere (k := k) (fun _ hk => State.setClient_of_ne s _ hk)
        (fun n => not_counting_of_code hcode (by simp)) (fun n => ?_) rfl rfl (fun _ _ hv => hv) rfl
      rw [State.setClient_self]
      exact not_counting_of_builds hbuilds (by simp)
    | enqueue head =>
      cases st <;> cases hnext
      obtain ⟨b, -, rfl⟩ := Option.map_eq_some_iff.1 hstep
      refine h.elsewhere (k := k) (fun _ hk => State.setClient_of_ne s _ hk)
        (fun n => not_counting_of_code hcode (by simp)) (fun n => ?_) rfl rfl (fun _ _ hv => hv) rfl
      rw [State.setClient_self]
      exact not_counting_of_builds hbuilds (by simp)

theorem numbers_sent (h : Numbers s) {n : ℕ} {ok : Bool}
    (hstep : step s (.sent n ok) = some s') : Numbers s' := by
  have hsame : ∀ t : State, t.client = s.client → t.seqCounter = s.seqCounter →
      t.values = s.values → ∀ n, Numbering t n := by
    intro t hclient hseq hvalues n
    exact (h.slave n).elsewhere (by rw [hseq]) (by rw [hvalues]) fun k => Or.inl (by rw [hclient])
  cases hhandler : s.content (.handler n) with
  | nil => simp [step, hhandler] at hstep
  | cons b bs =>
    simp only [step, hhandler] at hstep
    split_ifs at hstep with hok
    · cases hstep
      refine ⟨hsame _ rfl rfl rfl, h.obtained, fun n' m hm => ?_⟩
      by_cases hn : n' = n
      · subst hn
        simp only [Function.update_self, List.mem_cons] at hm
        rcases hm with rfl | hm
        · exact h.obtained b
        · exact h.mailbox n' m hm
      · simp only [Function.update_of_ne hn] at hm
        exact h.mailbox n' m hm
    · cases hstep
      exact ⟨hsame _ rfl rfl rfl, h.obtained, h.mailbox⟩

/-- **Every step.** -/
theorem numbers_step (s : State) (a : Action) (s' : State) (h : Inv cnt s ∧ Numbers s)
    (hok : StepOk s a) (hstep : step s a = some s') : Inv cnt s' ∧ Numbers s' := by
  obtain ⟨hinv, h⟩ := h
  refine ⟨inv_step s a s' hinv hok.1 hstep, ?_⟩
  cases a with
  | call k slave f =>
    simp only [step] at hstep
    split at hstep
    · rename_i hcode _
      cases hstep
      exact h.setClient (fun n => not_counting_of_nil hcode)
        fun n => not_counting_of_builds (builds_messages f).1 (by simp)
    · cases hstep
  | run k => exact numbers_run hinv h hok.2 hstep
  | more k =>
    simp only [step] at hstep
    split at hstep
    · rename_i code hcode hmore
      cases hstep
      exact h.setClient (fun n => not_counting_of_nil hcode)
        fun n => not_counting_of_builds (hinv.more k code hmore) (by simp)
    · cases hstep
  | leave k =>
    simp only [step] at hstep
    split at hstep
    · rename_i hcode
      cases hstep
      exact h.setClient (fun n => not_counting_of_nil hcode) fun n => not_counting_of_nil hcode
    · cases hstep
  | take n =>
    simp only [step] at hstep
    split at hstep
    · cases hstep
      refine ⟨fun n => ?_, h.obtained, h.mailbox⟩
      exact (h.slave n).elsewhere rfl rfl fun k => Or.inl rfl
    · cases hstep
  | sent n ok => exact numbers_sent h hstep

/-- A counter up to 7 is carried as it is. -/
theorem kept_of_numbers (hinv : Inv cnt s) (h : Numbers s) : Kept s where
  carried n m hm := by
    obtain ⟨v, hv, hcounter⟩ := hinv.carried n m hm
    have hle := h.mailbox n m hm v hv
    rw [hv, hcounter, Nat.mod_eq_of_lt (by omega)]
  range n := (h.slave n).range
  cycle n := (h.slave n).cycle

end

/-- **Counters and buffers.** In every run of any clients of any slaves nobody writes to a buffer
after he has put it into a queue, if and only if every acknowledgement of `ec_foe_read` is in the
buffer of the request. If besides `seq_counter` is written by one client at a time, every message
carries the counter obtained for it, these being numbered from 1 to 7 again and again. -/
theorem counters_kept (cnt : ℕ) (actions : List Action) (s : State)
    (hrun : run step (init cnt) actions = some s) :
    (RunOk step NoLateWrite (init cnt) actions ↔ RunOk step AckOk (init cnt) actions) ∧
      (RunOk step StepOk (init cnt) actions →
        RunOk step NoLateWrite (init cnt) actions ∧ Kept s) := by
  have hwrite : RunOk step NoLateWrite (init cnt) actions ↔ RunOk step AckOk (init cnt) actions :=
    runOk_congr inv_step noLateWrite_iff (inv_init cnt)
  refine ⟨hwrite, fun hok => ⟨hwrite.2 (hok.mono fun _ _ h => h.1), ?_⟩⟩
  obtain ⟨hinv, hnumbers⟩ :=
    runOk_induction numbers_step ⟨inv_init cnt, numbers_init cnt⟩ hok hrun
  exact kept_of_numbers hinv hnumbers

/-- Two clients read `seq_counter` before either has written it. -/
example : (run step (init 2) [.call 0 0 .coeSdoRead, .call 1 0 .soeWrite, .more 1, .run 0, .run 1,
    .run 0, .run 1, .run 0, .run 1, .run 0, .run 1, .run 0, .run 1]).map (fun s => s.values 0) =
    some [(1, 2), (0, 2)] := by decide +kernel

/-! ## One client -/

/-- The client whose step it is. -/
def Action.client? : Action → Option ℕ
  | .call k _ _ | .run k | .more k | .leave k => some k
  | .take _ | .sent _ _ => none

section
variable {s s' : State} {k : ℕ}

theorem exec_client {k' : ℕ} {c : Client} {i : Instr} (hk : k' ≠ k) (hexec : exec s k c i = some s') :
    s'.client k' = s.client k' := by
  have hset : ∀ c : Client, (s.setClient k c).client k' = s.client k' := fun c =>
    State.setClient_of_ne s c hk
  cases i with
  | get checked =>
    simp only [exec] at hexec
    split at hexec
    · split_ifs at hexec
      cases hexec
      exact hset _
    · cases hexec
      exact hset _
  | setWriteBuf | loadSeq | storeSeq | wrapSeq =>
    cases hexec
    exact hset _
  | fetchSeq | write _ | writeCounter _ | enqueue _ =>
    obtain ⟨b, -, rfl⟩ := Option.map_eq_some_iff.1 hexec
    exact hset _

/-- A step leaves the other clients alone. -/
theorem step_client {a : Action} (hk : k ∉ a.client?) (hstep : step s a = some s') :
    s'.client k = s.client k := by
  have hne : ∀ {k'}, a.client? = some k' → k ≠ k' := by
    intro k' ha hkk'
    exact hk (hkk' ▸ ha)
  cases a with
  | run k' =>
    simp only [step] at hstep
    split at hstep
    · cases hstep
    · exact exec_client (hne rfl) hstep
  | call k' _ _ | more k' | leave k' =>
    simp only [step] at hstep
    split at hstep
    · cases hstep
      exact State.setClient_of_ne s _ (hne rfl)
    · cases hstep
  | take n =>
    simp only [step] at hstep
    split at hstep <;> cases hstep
    rfl
  | sent n ok =>
    simp only [step] at hstep
    split at hstep
    · cases hstep
    · split_ifs at hstep <;> cases hstep <;> rfl

end

/-- One client is alone. -/
theorem runOk_of_one {cnt k : ℕ} {actions : List Action}
    (hok : RunOk step (fun s a => AckOk s a ∧ ∀ k' ∈ a.client?, k' = k) (init cnt) actions) :
    RunOk step StepOk (init cnt) actions := by
  refine RunOk.imp_of_inv (I := fun s => ∀ k' ≠ k, (s.client k').code = []) ?_ ?_ (fun _ _ => rfl) hok
  · intro s a s' hcode ⟨_, hone⟩ hstep k' hk
    rw [step_client (fun hmem => hk (hone k' hmem)) hstep]
    exact hcode k' hk
  · intro s a hcode ⟨hack, hone⟩
    refine ⟨hack, ?_⟩
    cases a with
    | run k₀ =>
      obtain rfl : k₀ = k := hone k₀ rfl
      exact fun n _ k' hk => not_counting_of_nil (hcode k' hk)
    | call _ _ _ | more _ | leave _ | take _ | sent _ _ => trivial

/-- `ec_foe_read` gets its second buffer when the first one has been sent. -/
def acknowledged : List Action :=
  .call 0 0 .foeRead :: List.replicate 10 (.run 0) ++ [.take 0, .sent 0 true, .more 0] ++
    List.replicate 9 (.run 0) ++ [.take 0, .sent 0 true]

/-- One buffer only: the acknowledgement gets that of the request. -/
theorem counters_oneBuffer :
    ∃ s, run step (init 1) acknowledged = some s ∧
      RunOk step NoLateWrite (init 1) acknowledged ∧ Kept s := by
  have hok : RunOk step (fun s a => AckOk s a ∧ ∀ k ∈ a.client?, k = 0) (init 1) acknowledged := by
    decide +kernel
  obtain ⟨s, hs⟩ := Option.isSome_iff_exists.1
    (show (run step (init 1) acknowledged).isSome by decide +kernel)
  exact ⟨s, hs, (counters_kept 1 acknowledged s hs).2 (runOk_of_one hok)⟩

/-- The acknowledgement carries 0, and 3 has been obtained for it. -/
theorem acknowledgement_without_counter :
    ¬ ∀ cnt actions s, run step (init cnt) actions = some s →
      RunOk step NoLateWrite (init cnt) actions ∧ Kept s := by
  intro h
  have hmailbox : (run step (init 2) acknowledged).map (fun s => s.mailbox 0) =
      some [(0, some 3), (2, some 2)] := by decide +kernel
  obtain ⟨s, hs, hm⟩ := Option.map_eq_some_iff.1 hmailbox
  have hcarried := (h 2 acknowledged s hs).2.carried 0 (0, some 3) (by simp [hm])
  cases hcarried

end LibEthercat.Mbx.Counters
