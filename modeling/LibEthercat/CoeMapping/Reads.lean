import LibEthercat.CoeMapping.Model

/-!
# Reads that fail

A read that fails is skipped, and `ret` is overwritten by the next one.

**Theorem (`allOrNothing_iff`).** `EC_OK` says that all reads have succeeded, and a length is stored
only if all reads for it have, just if no read fails but the last one of the call, and none fails
for a sync manager whose length is stored.

`Inv` says what the state has to do with the reads so far; the table it ends with is
`tableAt _ _ _ 2`.
-/

namespace LibEthercat.CoeMapping

open LibEthercat.Coe (Ret)

/-! ## What the reads give -/

/-- The bits that have been read for a sync manager. -/
def bitsOf (s : ℕ) (reads : List Read) : ℕ := ((reads.filter fun r => r.smIdx == s).map Read.bits).sum

/-- Its assignment object is missing. -/
def missingOf (s : ℕ) (reads : List Read) : Bool := reads.any fun r => r.smIdx == s && r.missing

/-- What is returned after these reads. -/
def lastRet (reads : List Read) : Ret :=
  match reads.getLast? with
  | some r => if r.missing then .ok else r.answer.ret
  | none => .mailboxTimeout

/-- What a pass does to the table. -/
def passTable (smCh : ℕ) (reads : List Read) (s : ℕ) (t : Table) : Table :=
  if missingOf s reads = true then t.clear smCh s else t.store smCh s (bitsOf s reads)

/-- The table after some passes. -/
def tableAt (smCh : ℕ) (reads : List Read) (sm : ℕ → SyncManager) : ℕ → Table
  | 0 => ⟨sm, firstStartAdr sm⟩
  | k + 1 => passTable smCh reads (k + 2) (tableAt smCh reads sm k)

/-! ## Property and condition -/

/-- `EC_OK` only if no read has failed, and a length is stored only if none for it has. -/
structure AllOrNothing (sl : Slave) (sm : ℕ → SyncManager) : Prop where
  ok : ∀ r, Returns sl sm r → r.ret = .ok → ∀ x ∈ r.reads, x.failed = false
  stored : ∀ st, While.Reaches (step sl) (State.init sm) st → ∀ s ∈ st.stored, ∀ x ∈ st.reads,
    x.smIdx = s → x.failed = false

/-- If a read fails, so does the last one, and in a pass that is over nothing has been mapped by the
other reads. -/
structure ReadsOk (sl : Slave) (sm : ℕ → SyncManager) : Prop where
  last : ∀ r, Returns sl sm r →
    (∀ x ∈ r.reads, x.failed = false) ∨ ∃ x ∈ r.reads.getLast?, x.failed = true
  pass : ∀ st, While.Reaches (step sl) (State.init sm) st → ∀ s < st.smIdx,
    (∀ x ∈ st.reads, x.smIdx = s → x.failed = false) ∨ bitsOf s st.reads = 0 ∨ sl.smCh ≤ s

/-! ## One more read -/

section
variable {reads : List Read} {r : Read} {s : ℕ}

theorem bitsOf_append (s : ℕ) (reads : List Read) (r : Read) :
    bitsOf s (reads ++ [r]) = bitsOf s reads + if r.smIdx = s then r.bits else 0 := by
  unfold bitsOf
  by_cases h : r.smIdx = s <;> simp [h]

theorem bitsOf_append_of_ne (h : r.smIdx ≠ s) : bitsOf s (reads ++ [r]) = bitsOf s reads := by
  rw [bitsOf_append, if_neg h, Nat.add_zero]

theorem missingOf_append (s : ℕ) (reads : List Read) (r : Read) :
    missingOf s (reads ++ [r]) = (missingOf s reads || (r.smIdx == s && r.missing)) := by
  simp [missingOf]

theorem bitsOf_eq_zero (h : ∀ r ∈ reads, r.smIdx ≠ s) : bitsOf s reads = 0 := by
  have hnil : (reads.filter fun r => r.smIdx == s) = [] :=
    List.filter_eq_nil_iff.2 fun r hr => by simpa using h r hr
  rw [bitsOf, hnil]
  rfl

theorem missingOf_eq_false (h : ∀ r ∈ reads, r.smIdx ≠ s) : missingOf s reads = false := by
  simp only [missingOf, List.any_eq_false]
  intro r hr
  simp [h r hr]

@[simp] theorem lastRet_append : lastRet (reads ++ [r]) = if r.missing then .ok else r.answer.ret := by
  simp [lastRet]

/-- A later pass does not change what earlier ones have done. -/
theorem tableAt_append (smCh : ℕ) (sm : ℕ → SyncManager) (k : ℕ) (h : k + 2 ≤ r.smIdx) :
    tableAt smCh (reads ++ [r]) sm k = tableAt smCh reads sm k := by
  induction k with
  | zero => rfl
  | succ k ih =>
    have hne : r.smIdx ≠ k + 2 := by omega
    rw [tableAt, tableAt, ih (by omega), passTable, passTable, bitsOf_append, missingOf_append,
      if_neg hne]
    simp [hne]

end

/-! ## One pass -/

/-- Inside the loops over PDOs and entries. -/
def Pc.inside : Pc → Bool
  | .start | .assignment => false
  | .entries _ _ | .pdo _ _ _ | .objects _ _ _ _ _ => true

/-- What a step does: it begins, makes a read and stays in the pass, leaves the pass after the read of
the assignment object, moves on, or ends the pass. -/
inductive Change (sl : Slave) (st st' : State) : Prop
  | start : st.pc = .start →
      st' = { st with pc := .assignment, table := ⟨st.table.sm, firstStartAdr st.table.sm⟩ } →
      Change sl st st'
  | read (r : Read) (pc : Pc) : st.pc ≠ .start → (st.pc = .assignment → st.smIdx ≤ 3) →
      r.smIdx = st.smIdx → r.missing = false → pc.inside = true →
      st' = { st with
        pc := pc
        bitLen := st.bitLen + r.bits
        ret := r.answer.ret
        reads := st.reads ++ [r] } → Change sl st st'
  | skip (r : Read) : st.pc = .assignment → st.smIdx ≤ 3 → r.smIdx = st.smIdx → r.bits = 0 →
      st' = { st with
        pc := .assignment
        smIdx := st.smIdx + 1
        bitLen := 0
        table := if r.missing then st.table.clear sl.smCh st.smIdx else st.table
        ret := if r.missing then .ok else r.answer.ret
        reads := st.reads ++ [r] } → Change sl st st'
  | move (pc : Pc) : st.pc.inside = true → pc.inside = true → st' = st.goto pc → Change sl st st'
  | store : st.pc.inside = true → st' = (st.store sl.smCh).nextSm → Change sl st st'

theorem change_of_step {sl : Slave} {st st' : State} (h : step sl st = .inl st') :
    Change sl st st' := by
  unfold step at h
  cases hpc : st.pc with
  | start =>
    simp only [hpc] at h
    split_ifs at h
    exact .start hpc (Sum.inl.inj h).symm
  | assignment =>
    simp only [hpc] at h
    split_ifs at h with hidx
    cases hans : st.ask sl (assignIdx st.smIdx) 0 with
    | value v =>
      rw [hans] at h
      exact .read ⟨st.smIdx, .assignCount, assignIdx st.smIdx, 0, .value v⟩ _ (by simp [hpc])
        (fun _ => hidx) rfl rfl rfl (Sum.inl.inj h).symm
    | error ret abortCode =>
      rw [hans] at h
      have hmissing : ∀ {b : Bool}, (abortCode == objectDoesNotExist) = b →
          Read.missing ⟨st.smIdx, .assignCount, assignIdx st.smIdx, 0, .error ret abortCode⟩ = b := id
      refine .skip ⟨st.smIdx, .assignCount, assignIdx st.smIdx, 0, .error ret abortCode⟩ hpc hidx rfl
        rfl ?_
      by_cases habort : abortCode = objectDoesNotExist
      · simp only [if_pos habort] at h
        rw [hmissing (beq_iff_eq.2 habort)]
        exact (Sum.inl.inj h).symm
      · simp only [if_neg habort] at h
        rw [hmissing (beq_eq_false_iff_ne.2 habort)]
        exact (Sum.inl.inj h).symm
  | entries n i =>
    simp only [hpc] at h
    split_ifs at h with hle
    · cases hans : st.ask sl (assignIdx st.smIdx) i with
      | value v =>
        rw [hans] at h
        have hread : ∀ pc, _ → _ → Change sl st st' := fun pc =>
          .read ⟨st.smIdx, .assignEntry, assignIdx st.smIdx, i, .value v⟩ pc (by simp [hpc])
            (by simp [hpc]) rfl rfl
        by_cases hzero : v.toUInt16 = 0
        · simp only [if_pos hzero] at h
          exact hread _ rfl (Sum.inl.inj h).symm
        · simp only [if_neg hzero] at h
          exact hread _ rfl (Sum.inl.inj h).symm
      | error ret abortCode =>
        rw [hans] at h
        exact .read ⟨st.smIdx, .assignEntry, assignIdx st.smIdx, i, .error ret abortCode⟩ _
          (by simp [hpc]) (by simp [hpc]) rfl rfl rfl (Sum.inl.inj h).symm
    · exact .store (by rw [hpc]; rfl) (Sum.inl.inj h).symm
  | pdo n i e =>
    simp only [hpc] at h
    cases hans : st.ask sl e 0 with
    | value v =>
      rw [hans] at h
      exact .read ⟨st.smIdx, .pdoCount, e, 0, .value v⟩ _ (by simp [hpc]) (by simp [hpc]) rfl rfl rfl
        (Sum.inl.inj h).symm
    | error ret abortCode =>
      rw [hans] at h
      exact .read ⟨st.smIdx, .pdoCount, e, 0, .error ret abortCode⟩ _ (by simp [hpc]) (by simp [hpc])
        rfl rfl rfl (Sum.inl.inj h).symm
  | objects n i e c j =>
    simp only [hpc] at h
    split_ifs at h with hle
    · cases hans : st.ask sl e j with
      | value v =>
        rw [hans] at h
        exact .read ⟨st.smIdx, .pdoEntry, e, j, .value v⟩ _ (by simp [hpc]) (by simp [hpc]) rfl rfl
          rfl
          (Sum.inl.inj h).symm
      | error ret abortCode =>
        rw [hans] at h
        exact .read ⟨st.smIdx, .pdoEntry, e, j, .error ret abortCode⟩ _ (by simp [hpc])
          (by simp [hpc]) rfl rfl rfl (Sum.inl.inj h).symm
    · exact .move _ (by rw [hpc]; rfl) rfl (Sum.inl.inj h).symm

/-! ## The state and the reads -/

/-- The invariant. -/
structure Inv (sl : Slave) (sm : ℕ → SyncManager) (st : State) : Prop where
  start : st.pc = .start → st = State.init sm
  inside : st.pc.inside = true → st.smIdx ≤ 3
  idx : ∃ k ≤ 2, st.smIdx = k + 2 ∧ (st.pc ≠ .start → st.table = tableAt sl.smCh st.reads sm k)
  reads : ∀ r ∈ st.reads, r.smIdx ≤ st.smIdx ∧ (st.pc.inside = false → r.smIdx ≠ st.smIdx)
  missing : missingOf st.smIdx st.reads = false
  bitLen : st.bitLen = bitsOf st.smIdx st.reads
  ret : st.ret = lastRet st.reads
  stored : ∀ s, s ∈ st.stored ↔ s < st.smIdx ∧ bitsOf s st.reads ≠ 0 ∧ s < sl.smCh

theorem inv_init (sl : Slave) (sm : ℕ → SyncManager) : Inv sl sm (State.init sm) := by
  refine ⟨fun _ => rfl, fun h => (by cases h), ⟨0, by decide, rfl, fun h => absurd rfl h⟩, ?_, rfl, rfl,
    rfl, fun s => ?_⟩
  · exact fun r hr => absurd hr List.not_mem_nil
  · simp [State.init, bitsOf]

/-- Before the pass for a sync manager nothing has been read for it. -/
theorem inv_assignment {sl : Slave} {sm : ℕ → SyncManager} {st : State} {k : ℕ}
    (hpc : st.pc = .assignment) (hk : k ≤ 2) (hidx : st.smIdx = k + 2)
    (hlt : ∀ r ∈ st.reads, r.smIdx < st.smIdx) (hbits : st.bitLen = 0)
    (htable : st.table = tableAt sl.smCh st.reads sm k) (hret : st.ret = lastRet st.reads)
    (hstored : ∀ s, s ∈ st.stored ↔ s < st.smIdx ∧ bitsOf s st.reads ≠ 0 ∧ s < sl.smCh) :
    Inv sl sm st := by
  have hne : ∀ r ∈ st.reads, r.smIdx ≠ st.smIdx := fun r hr => Nat.ne_of_lt (hlt r hr)
  refine ⟨fun h => ?_, fun h => ?_, ⟨k, hk, hidx, fun _ => htable⟩,
    fun r hr => ⟨Nat.le_of_lt (hlt r hr), fun _ => hne r hr⟩, missingOf_eq_false hne, ?_, hret,
    hstored⟩
  · rw [hpc] at h
    cases h
  · rw [hpc] at h
    cases h
  · rw [hbits, bitsOf_eq_zero hne]

/-- What has been stored, one pass later. -/
theorem stored_succ {smCh s n b : ℕ} {stored : List ℕ} {bits : ℕ → ℕ}
    (h : ∀ s, s ∈ stored ↔ s < n ∧ bits s ≠ 0 ∧ s < smCh) (hb : b = bits n) :
    s ∈ (if b ≠ 0 ∧ n < smCh then stored ++ [n] else stored) ↔
      s < n + 1 ∧ bits s ≠ 0 ∧ s < smCh := by
  subst hb
  have hlast : s < n + 1 ↔ s < n ∨ s = n := Nat.lt_succ_iff_lt_or_eq
  split_ifs with hmapped
  · rw [List.mem_append, List.mem_singleton, h, hlast]
    constructor
    · rintro (⟨hlt, hs⟩ | rfl)
      · exact ⟨.inl hlt, hs⟩
      · exact ⟨.inr rfl, hmapped⟩
    · rintro ⟨hlt | rfl, hs⟩
      · exact .inl ⟨hlt, hs⟩
      · exact .inr rfl
  · rw [h, hlast]
    constructor
    · exact fun hs => ⟨.inl hs.1, hs.2⟩
    · rintro ⟨hlt | rfl, hs⟩
      · exact ⟨hlt, hs⟩
      · exact absurd hs hmapped

theorem inv_step {sl : Slave} {sm : ℕ → SyncManager} {st st' : State} (h : Inv sl sm st)
    (hstep : step sl st = .inl st') : Inv sl sm st' := by
  obtain ⟨hstart, hinside, ⟨k, hk, hidx, htable⟩, hreads, hmissing, hbits, hret, hstored⟩ := h
  have hstartNot : st.pc.inside = true → st.pc ≠ .start := by
    intro hin hst
    rw [hst] at hin
    cases hin
  cases change_of_step hstep with
  | start hpc heq =>
    subst heq
    rw [hstart hpc]
    exact inv_assignment (k := 0) rfl (by decide) rfl (fun r hr => absurd hr List.not_mem_nil) rfl rfl
      rfl fun s => by simp [State.init, bitsOf]
  | read r pc hpc hle hr hmiss hin heq =>
    subst heq
    have hle3 : st.smIdx ≤ 3 := by
      cases hst : st.pc with
      | start => exact absurd hst hpc
      | assignment => exact hle hst
      | entries | pdo | objects => exact hinside (by rw [hst]; rfl)
    refine ⟨?_, fun _ => hle3, ⟨k, hk, hidx, fun _ => ?_⟩, fun x hx => ?_, ?_, ?_, ?_, fun s => ?_⟩
    · rintro rfl
      cases hin
    · rw [tableAt_append _ _ _ (by omega)]
      exact htable hpc
    · refine ⟨?_, fun hout => absurd (hin.symm.trans hout) (by decide)⟩
      rcases List.mem_append.1 hx with hx | hx
      · exact (hreads x hx).1
      · exact Nat.le_of_eq (by rw [List.mem_singleton.1 hx, hr])
    · rw [missingOf_append, hmissing, hmiss, Bool.and_false]
      rfl
    · show st.bitLen + r.bits = _
      rw [bitsOf_append, if_pos hr, hbits]
    · rw [lastRet_append, if_neg (by simp [hmiss])]
    · rw [hstored]
      refine and_congr_right fun hlt => ?_
      rw [bitsOf_append_of_ne (by omega)]
  | skip r hpc hle hr hzero heq =>
    subst heq
    have hne : ∀ x ∈ st.reads, x.smIdx ≠ st.smIdx := fun x hx => (hreads x hx).2 (by rw [hpc]; rfl)
    have hsame : ∀ s, bitsOf s (st.reads ++ [r]) = bitsOf s st.reads := fun s => by
      rw [bitsOf_append, hzero, ite_self, Nat.add_zero]
    have hnone : bitsOf st.smIdx st.reads = 0 := bitsOf_eq_zero hne
    refine inv_assignment (k := k + 1) rfl (by omega) (congrArg (· + 1) hidx) (fun x hx => ?_) rfl ?_
      lastRet_append.symm fun s => ?_
    · refine Nat.lt_succ_of_le ?_
      rcases List.mem_append.1 hx with hx | hx
      · exact (hreads x hx).1
      · exact Nat.le_of_eq (by rw [List.mem_singleton.1 hx, hr])
    · -- nothing is mapped, so the table is cleared or left alone
      show (if r.missing then st.table.clear sl.smCh st.smIdx else st.table) = _
      rw [tableAt, tableAt_append _ _ _ (by omega), ← htable (by simp [hpc]), passTable, ← hidx,
        missingOf_append, hmissing, hr, hsame, hnone, store_of_not (by simp)]
      simp
    · show s ∈ st.stored ↔ s < st.smIdx + 1 ∧ _
      rw [hsame, ← stored_succ (b := 0) hstored hnone.symm, if_neg (by simp)]
  | move pc hin hin' heq =>
    subst heq
    refine ⟨?_, fun _ => hinside hin, ⟨k, hk, hidx, fun _ => htable (hstartNot hin)⟩, fun x hx => ?_,
      hmissing, hbits, hret, hstored⟩
    · rintro rfl
      cases hin'
    · exact ⟨(hreads x hx).1, fun hout => absurd (hin'.symm.trans hout) (by decide)⟩
  | store hin heq =>
    subst heq
    have hle := hinside hin
    refine inv_assignment (k := k + 1) rfl (by omega) (congrArg (· + 1) hidx)
      (fun x hx => Nat.lt_succ_of_le (hreads x hx).1) rfl ?_ hret fun s => stored_succ hstored hbits
    show st.table.store sl.smCh st.smIdx st.bitLen = tableAt sl.smCh st.reads sm (k + 1)
    rw [tableAt, ← htable (hstartNot hin), passTable, ← hidx, hmissing, hbits]
    rfl

theorem inv_reaches {sl : Slave} {sm : ℕ → SyncManager} {st : State}
    (h : While.Reaches (step sl) (State.init sm) st) : Inv sl sm st :=
  h.induction (fun _ _ => inv_step) (inv_init sl sm)

/-! ## The end -/

/-- Inside the loops the function does not return. -/
theorem step_inside (sl : Slave) {st : State} (h : st.pc.inside = true) :
    ∃ st', step sl st = .inl st' := by
  cases hpc : st.pc with
  | start | assignment =>
    rw [hpc] at h
    cases h
  | entries n i =>
    rw [step, hpc]
    dsimp only
    split_ifs
    · split
      · split_ifs <;> exact ⟨_, rfl⟩
      · exact ⟨_, rfl⟩
    · exact ⟨_, rfl⟩
  | pdo n i e =>
    rw [step, hpc]
    dsimp only
    split <;> exact ⟨_, rfl⟩
  | objects n i e c j =>
    rw [step, hpc]
    dsimp only
    split_ifs
    · split <;> exact ⟨_, rfl⟩
    · exact ⟨_, rfl⟩

/-- When the function returns: it has not begun to read, or both passes are over. -/
theorem returns_cases {sl : Slave} {sm : ℕ → SyncManager} {r : State} (h : Returns sl sm r) :
    (r.reads = [] ∧ r.table.sm = sm) ∨
      (r.ret = lastRet r.reads ∧ r.table = tableAt sl.smCh r.reads sm 2) := by
  obtain ⟨t, hreach, hlast⟩ := While.Ends.exists_last h
  have hinv := inv_reaches hreach
  cases hpc : t.pc with
  | start =>
    rw [hinv.start hpc] at hlast
    unfold step at hlast
    simp only [State.init] at hlast
    split_ifs at hlast <;> cases hlast <;> exact .inl ⟨rfl, rfl⟩
  | assignment =>
    rw [step, hpc] at hlast
    dsimp only at hlast
    split_ifs at hlast with hle
    · split at hlast
      · cases hlast
      · split_ifs at hlast
    · obtain rfl : t = r := Sum.inr.inj hlast
      obtain ⟨k, hk, hidx, htable⟩ := hinv.idx
      obtain rfl : k = 2 := by omega
      exact .inr ⟨hinv.ret, htable (by simp [hpc])⟩
  | entries | pdo | objects =>
    have hinside : t.pc.inside = true := by rw [hpc]; rfl
    obtain ⟨t', ht'⟩ := step_inside sl hinside
    rw [hlast] at ht'
    cases ht'

theorem lastRet_eq_ok_iff {reads : List Read} :
    lastRet reads = .ok ↔ ∃ x ∈ reads.getLast?, x.failed = false := by
  unfold lastRet
  cases reads.getLast? with
  | none => simp
  | some x =>
    have hx : (if x.missing = true then Ret.ok else x.answer.ret) = .ok ↔ x.failed = false := by
      unfold Read.failed
      cases hans : x.answer with
      | value v => simp [Answer.ret]
      | error ret abortCode => cases hmiss : x.missing <;> simp [Answer.ret, ret.2]
    simpa using hx

/-- **All or nothing**: just if a read that fails is followed by no other, and in a pass with one that
fails nothing is mapped. -/
theorem allOrNothing_iff (sl : Slave) (sm : ℕ → SyncManager) :
    AllOrNothing sl sm ↔ ReadsOk sl sm := by
  constructor
  · rintro ⟨hok, hstored⟩
    refine ⟨fun r hret => ?_, fun st hreach s hlt => ?_⟩
    · rcases returns_cases hret with ⟨hnil, -⟩ | ⟨hlast, -⟩
      · rw [hnil]
        exact .inl fun x hx => absurd hx List.not_mem_nil
      · by_cases hend : ∃ x ∈ r.reads.getLast?, x.failed = true
        · exact .inr hend
        · refine .inl fun x hx => hok r hret (hlast.trans (lastRet_eq_ok_iff.2 ?_)) x hx
          have hne : r.reads ≠ [] := List.ne_nil_of_mem hx
          refine ⟨r.reads.getLast hne, List.getLast?_eq_some_getLast hne, ?_⟩
          by_contra hfail
          exact hend ⟨r.reads.getLast hne, List.getLast?_eq_some_getLast hne, by simpa using hfail⟩
    · by_cases hs : bitsOf s st.reads ≠ 0 ∧ s < sl.smCh
      · exact .inl fun x hx => hstored st hreach s (((inv_reaches hreach).stored s).2 ⟨hlt, hs⟩) x hx
      · by_cases hzero : bitsOf s st.reads = 0
        · exact .inr (.inl hzero)
        · exact .inr (.inr (Nat.le_of_not_lt fun hch => hs ⟨hzero, hch⟩))
  · rintro ⟨hlast, hpass⟩
    refine ⟨fun r hret hok x hx => ?_, fun st hreach s hs x hx => ?_⟩
    · rcases returns_cases hret with ⟨hnil, -⟩ | ⟨hend, -⟩
      · rw [hnil] at hx
        exact absurd hx List.not_mem_nil
      · rcases hlast r hret with hall | ⟨y, hy, hfail⟩
        · exact hall x hx
        · obtain ⟨z, hz, hgood⟩ := lastRet_eq_ok_iff.1 (hend.symm.trans hok)
          obtain rfl : y = z := Option.mem_unique hy hz
          rw [hfail] at hgood
          cases hgood
    · obtain ⟨hlt, hne, hch⟩ := ((inv_reaches hreach).stored s).1 hs
      rcases hpass st hreach s hlt with hall | hzero | hle
      · exact hall x hx
      · exact absurd hzero hne
      · omega

/-- Two PDOs are assigned to sync manager 2; the index of the first one is not read, the second one
has an entry of 8 bits. Nothing is assigned to sync manager 3. -/
def firstIndexLost : Slave where
  present := true
  coe := true
  smCh := 4
  sdoRead := fun k _ _ =>
    [Answer.value 2, .error ⟨.mailboxTimeout, by decide⟩ 0, .value 0x1600, .value 1, .value 8,
      .value 0].getD k (.value 0)

/-- `EC_OK`, with a length of one byte. -/
theorem firstIndexLost_ok : ¬ ∀ sl sm, AllOrNothing sl sm := by
  intro hall
  have hok := (hall firstIndexLost fun _ => ⟨0, 0, 0⟩).ok
  have hret : ∃ r, Returns firstIndexLost (fun _ => ⟨0, 0, 0⟩) r ∧ r.ret = .ok ∧
      ∃ x ∈ r.reads, x.failed = true :=
    ⟨_, ⟨20, rfl⟩, rfl, _, List.mem_cons_of_mem _ List.mem_cons_self, rfl⟩
  obtain ⟨r, hr, hretOk, x, hx, hfail⟩ := hret
  rw [hok r hr hretOk x hx] at hfail
  cases hfail

end LibEthercat.CoeMapping
