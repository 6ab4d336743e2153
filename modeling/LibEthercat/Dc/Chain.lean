import LibEthercat.Lib.Links
import LibEthercat.Lib.Runs
import LibEthercat.Dc.Config

/-!
# The chain of the slaves with distributed clocks

`ec_dc_config` links every slave whose clock is active behind the one before it, and `pec->dc.next`
to the first one (`dc.c`). No link is set behind the last one, and none at all if there is no such
slave.

**Theorem (`dc_chain_iff`).** In every run of configurations the chain is right after each of them
just if the link that it leaves alone was no slave number. Links are slave numbers from the start,
as `ec_scan` clears the memory, so that no configuration gets it right (`dc_chain_never`).
-/

namespace LibEthercat.Dc

open Links

namespace DcMaster

variable {ans : Latches} {refDelay : BitVec 64 → ℤ} {duration : BitVec 64} {m : DcMaster}
  {st : DcMaster × ℤ} {slave i : ℕ}

/-! ## The links as a list in place -/

/-- `pec->dc.next`, and the links of the slaves. -/
def table (m : DcMaster) : Table ℕ ℤ :=
  ⟨m.next, fun i => (m.slaves i).next, fun i => (m.slaves i).prev⟩

/-- The links within the loop, with the slave that has been linked last. -/
def links (st : DcMaster × ℤ) : Table ℕ ℤ × Option ℕ :=
  (st.1.table, if st.1.haveDc then some st.2.toNat else none)

def pushSlave : Table ℕ ℤ × Option ℕ → ℕ → Table ℕ ℤ × Option ℕ := push Nat.cast (-1)

theorem table_modify {f : DcSlave → DcSlave} (hnext : (f (m.slaves i)).next = (m.slaves i).next)
    (hprev : (f (m.slaves i)).prev = (m.slaves i).prev) : (m.modify i f).table = m.table := by
  simp only [table, modify_next, Table.mk.injEq, true_and]
  exact ⟨funext (modify_keeps DcSlave.next hnext), funext (modify_keeps DcSlave.prev hprev)⟩

theorem table_attach : (m.attach refDelay slave).table = m.table ∧
    (m.attach refDelay slave).haveDc = m.haveDc := by
  unfold attach
  dsimp only
  split_ifs
  · rw [table_modify rfl rfl, table_modify rfl rfl]
    exact ⟨rfl, rfl⟩
  · rw [table_modify rfl rfl]
    exact ⟨rfl, rfl⟩
  · exact ⟨rfl, rfl⟩

theorem table_setNext (m : DcMaster) (i : ℕ) (x : ℤ) :
    (m.modify i fun slv => { slv with next := x }).table =
      { m.table with next := Function.update m.table.next i x } := by
  simp only [table, modify_next, Table.mk.injEq, true_and]
  refine ⟨funext fun j => ?_, funext (modify_keeps DcSlave.prev rfl)⟩
  by_cases hj : j = i
  · subst hj
    rw [modify_same, Function.update_self]
  · rw [modify_of_ne hj, Function.update_of_ne hj]

theorem table_setPrev (m : DcMaster) (i : ℕ) (x : ℤ) :
    (m.modify i fun slv => { slv with prev := x }).table =
      { m.table with prev := Function.update m.table.prev i x } := by
  simp only [table, modify_next, Table.mk.injEq, true_and]
  refine ⟨funext (modify_keeps DcSlave.next rfl), funext fun j => ?_⟩
  by_cases hj : j = i
  · subst hj
    rw [modify_same, Function.update_self]
  · rw [modify_of_ne hj, Function.update_of_ne hj]

/-- As soon as there is a first slave, `prev` is a slave. -/
def PrevSet (st : DcMaster × ℤ) : Prop := st.1.haveDc = true → 0 ≤ st.2

/-- Linking a slave is to push it behind the last one. -/
theorem link_push {prev : ℤ} (h : PrevSet (m, prev)) (slave : ℕ) :
    ((m.link prev slave).table, some slave) = pushSlave (links (m, prev)) slave ∧
      (m.link prev slave).haveDc = true := by
  unfold link
  split_ifs with hdc
  · refine ⟨?_, hdc⟩
    obtain ⟨p, rfl⟩ := Int.eq_ofNat_of_zero_le (h hdc)
    rw [table_setPrev, table_setNext, links]
    dsimp only
    rw [if_pos hdc]
    rfl
  · refine ⟨?_, rfl⟩
    rw [table_setPrev, links]
    dsimp only
    rw [if_neg hdc]
    rfl

/-! ## The loop -/

theorem links_configSlave (ans : Latches) (refDelay : BitVec 64 → ℤ) (h : PrevSet st)
    (slave : ℕ) :
    links (configSlave ans refDelay st slave) =
        (if (st.1.slaves slave).active then pushSlave (links st) slave else links st) ∧
      PrevSet (configSlave ans refDelay st slave) := by
  cases hactive : (st.1.slaves slave).active with
  | false =>
    rw [configSlave_inactive hactive, if_neg Bool.false_ne_true, links, links]
    dsimp only
    rw [table_modify rfl rfl, table_modify rfl rfl]
    exact ⟨rfl, h⟩
  | true =>
    have hfree : PrevSet (st.1.modify slave DcSlave.freePorts, st.2) := h
    obtain ⟨hpush, hdc⟩ := link_push hfree slave
    have hlatched : (latched ans st slave).table =
        ((st.1.modify slave DcSlave.freePorts).link st.2 slave).table := table_modify rfl rfl
    have hdc' : (latched ans st slave).haveDc = true := hdc
    rw [configSlave_active hactive, if_pos rfl, links]
    dsimp only
    rw [table_attach.1, table_attach.2, hlatched, hdc', if_pos rfl, Int.toNat_natCast, hpush, links,
      links, table_modify rfl rfl]
    exact ⟨rfl, fun _ => Int.natCast_nonneg slave⟩

theorem links_configRange (ans : Latches) (refDelay : BitVec 64 → ℤ) (h : PrevSet st) (l : List ℕ) :
    links (configRange ans refDelay st l) =
      (l.filter fun i => (st.1.slaves i).active).foldl pushSlave (links st) := by
  induction l generalizing st with
  | nil => rfl
  | cons slave l ih =>
    obtain ⟨hstep, hprev⟩ := links_configSlave ans refDelay h slave
    have hrest : links (configRange ans refDelay st (slave :: l)) = _ := ih hprev
    have hactive : (fun i => ((configSlave ans refDelay st slave).1.slaves i).active) =
        fun i => (st.1.slaves i).active :=
      funext fun i => (DcSlave.wiring_eq.1 (configSlave_wiring i)).1
    rw [hrest, hstep, hactive, List.filter_cons]
    split_ifs <;> rfl

/-! ## One configuration -/

/-- The slaves with active distributed clocks, in ascending order. -/
def activeSlaves (m : DcMaster) : List ℕ :=
  (List.range m.slaveCnt).filter fun i => (m.slaves i).active

/-- The slave that a link leads to; any other number is the end. -/
def dest (m : DcMaster) (x : ℤ) : Option ℕ := if 0 ≤ x ∧ x < m.slaveCnt then some x.toNat else none

/-- From `pec->dc.next` the links lead through the active slaves and end, and the links back are
their inverse, with `-1` at the first slave. -/
structure Chain (m : DcMaster) : Prop where
  next : Follows m.dest (fun i => (m.slaves i).next) m.next m.activeSlaves
  prev : Backs Nat.cast (fun i => (m.slaves i).prev) (-1) m.activeSlaves

/-- The link that the configuration leaves alone. -/
def staleLink (m : DcMaster) : ℤ := stale m.table m.activeSlaves

variable (ans refDelay duration)

theorem activeSlaves_ecDcConfig (m : DcMaster) :
    (ecDcConfig ans refDelay duration m).activeSlaves = m.activeSlaves := by
  have hactive : (fun i => ((ecDcConfig ans refDelay duration m).slaves i).active) =
      fun i => (m.slaves i).active :=
    funext fun i => (DcSlave.wiring_eq.1 (ecDcConfig_wiring ans refDelay duration m i)).1
  rw [activeSlaves, activeSlaves, ecDcConfig_slaveCnt, hactive]

theorem table_ecDcConfig (m : DcMaster) :
    (ecDcConfig ans refDelay duration m).table =
      (m.activeSlaves.foldl pushSlave (m.table, none)).1 := by
  have hstart : PrevSet (m.start duration, -1) := fun h => absurd h Bool.false_ne_true
  exact congrArg Prod.fst (links_configRange ans refDelay hstart (List.range m.slaveCnt))

theorem nodup_activeSlaves (m : DcMaster) : m.activeSlaves.Nodup := List.nodup_range.filter _

theorem dest_cast {m : DcMaster} {i : ℕ} (h : i ∈ m.activeSlaves) : m.dest i = some i := by
  have hlt := List.mem_range.1 (List.mem_of_mem_filter h)
  rw [dest, if_pos ⟨by omega, by omega⟩, Int.toNat_natCast]

theorem dest_ecDcConfig (m : DcMaster) : (ecDcConfig ans refDelay duration m).dest = m.dest := by
  funext x
  rw [dest, dest, ecDcConfig_slaveCnt]

/-- **One configuration makes the chain right just if the link left alone was no slave.** -/
theorem chain_ecDcConfig_iff (m : DcMaster) :
    Chain (ecDcConfig ans refDelay duration m) ↔ m.dest m.staleLink = none := by
  have htable := table_ecDcConfig ans refDelay duration m
  have hnext : Follows m.dest (ecDcConfig ans refDelay duration m).table.next
      (ecDcConfig ans refDelay duration m).table.head m.activeSlaves ↔
        m.dest m.staleLink = none := by
    rw [htable]
    exact foldl_push_follows_iff (fun _ => dest_cast) (nodup_activeSlaves m)
  have hprev : Backs Nat.cast (ecDcConfig ans refDelay duration m).table.prev (-1)
      m.activeSlaves := by
    rw [htable]
    exact foldl_push_backs (nodup_activeSlaves m)
  refine ⟨fun h => hnext.1 ?_, fun h => ⟨?_, ?_⟩⟩
  · rw [← dest_ecDcConfig ans refDelay duration, ← activeSlaves_ecDcConfig ans refDelay duration]
    exact h.next
  · rw [dest_ecDcConfig, activeSlaves_ecDcConfig]
    exact hnext.2 h
  · rw [activeSlaves_ecDcConfig]
    exact hprev

/-! ## Runs -/

/-- A call: what the user sets in the slaves before it, and what the requests bring. -/
structure Call where
  useDc : ℕ → ℤ
  features : ℕ → UInt16
  ans : Latches
  duration : BitVec 64

def Call.set (c : Call) (m : DcMaster) : DcMaster :=
  { m with slaves := fun i => { m.slaves i with useDc := c.useDc i, features := c.features i } }

def call (refDelay : BitVec 64 → ℤ) (m : DcMaster) (c : Call) : DcMaster :=
  ecDcConfig c.ans refDelay c.duration (c.set m)

/-- The chain is right after every call. -/
def ChainAfterEach (refDelay : BitVec 64 → ℤ) : DcMaster → List Call → Prop :=
  Runs.RunOk (fun m c => some (call refDelay m c)) fun m c => Chain (call refDelay m c)

/-- Before every call, the link that it leaves alone is no slave number. -/
def EndsBeforeEach (refDelay : BitVec 64 → ℤ) : DcMaster → List Call → Prop :=
  Runs.RunOk (fun m c => some (call refDelay m c)) fun m c =>
    (c.set m).dest (c.set m).staleLink = none

/-- **The chain in runs.** -/
theorem dc_chain_iff (refDelay : BitVec 64 → ℤ) (m : DcMaster) (calls : List Call) :
    ChainAfterEach refDelay m calls ↔ EndsBeforeEach refDelay m calls :=
  Runs.runOk_congr (fun _ _ _ _ _ _ => trivial)
    (fun m c _ => chain_ecDcConfig_iff c.ans refDelay c.duration (c.set m)) trivial

/-- A slave as `ec_scan` leaves it, with its clock to be used. -/
def scannedSlave : DcSlave :=
  ⟨0x1000, 0x1100, 0x000C, 0b01, -1, 0, 0, 0, 1, 0, 0, 0, fun _ => 0, 0, 0, 0, 0⟩

def scannedMaster : DcMaster :=
  ⟨fun _ => scannedSlave, 1, .refClock, false, false, 0, 0, 0, 0⟩

def firstCall : Call := ⟨fun _ => 1, fun _ => 0x000C, ⟨fun _ => none, fun _ => none⟩, 0⟩

/-- The only slave is linked to itself. -/
theorem dc_chain_circle :
    (call (fun _ => 0) scannedMaster firstCall).activeSlaves = [0] ∧
    (call (fun _ => 0) scannedMaster firstCall).next = 0 ∧
    ((call (fun _ => 0) scannedMaster firstCall).slaves 0).next = 0 ∧
    ¬ ChainAfterEach (fun _ => 0) scannedMaster [firstCall] := by
  have hactive : (call (fun _ => 0) scannedMaster firstCall).activeSlaves = [0] := by decide
  refine ⟨hactive, by decide, by decide, ?_⟩
  rintro ⟨hchain, -⟩
  have hnext := hchain.next
  rw [hactive] at hnext
  have hend : (call (fun _ => 0) scannedMaster firstCall).dest
      ((call (fun _ => 0) scannedMaster firstCall).slaves 0).next = none := hnext.2
  exact absurd hend (by decide)

/-! ## From cleared memory -/

/-- Every link is the number of a slave. -/
def AllLinked (m : DcMaster) : Prop :=
  (0 ≤ m.next ∧ m.next < m.slaveCnt) ∧
    ∀ i, 0 ≤ (m.slaves i).next ∧ (m.slaves i).next < m.slaveCnt

theorem AllLinked.stale (h : AllLinked m) : m.dest m.staleLink ≠ none := by
  have hsome : ∀ x : ℤ, 0 ≤ x ∧ x < m.slaveCnt → m.dest x ≠ none := fun x hx => by
    rw [dest, if_pos hx]
    exact Option.some_ne_none _
  apply hsome
  rw [staleLink, Links.stale]
  split
  · exact h.1
  · exact h.2 _

theorem AllLinked.afterCall (h : AllLinked m) (refDelay : BitVec 64 → ℤ) (c : Call) :
    AllLinked (call refDelay m c) := by
  have htable : (call refDelay m c).table =
      ((c.set m).activeSlaves.foldl pushSlave ((c.set m).table, none)).1 :=
    table_ecDcConfig c.ans refDelay c.duration (c.set m)
  have hcnt : (call refDelay m c).slaveCnt = m.slaveCnt :=
    ecDcConfig_slaveCnt c.ans refDelay c.duration (c.set m)
  have hlink : ∀ i ∈ (c.set m).activeSlaves, 0 ≤ (i : ℤ) ∧ (i : ℤ) < m.slaveCnt := fun i hi => by
    have hlt : i < m.slaveCnt := List.mem_range.1 (List.mem_of_mem_filter hi)
    omega
  have hkeep := foldl_push_forall (-1) (P := fun x : ℤ => 0 ≤ x ∧ x < m.slaveCnt) hlink
    (t := (c.set m).table) (o := none) h.1 h.2
  rw [pushSlave] at htable
  rw [← htable] at hkeep
  rw [AllLinked, hcnt]
  exact hkeep

/-- **From cleared memory no configuration gets the chain right.** -/
theorem dc_chain_never (refDelay : BitVec 64 → ℤ) (hcnt : 0 < m.slaveCnt) (hnext : m.next = 0)
    (hnexts : ∀ i, (m.slaves i).next = 0) (calls : List Call) :
    Runs.RunOk (fun m c => some (call refDelay m c)) (fun m c => ¬ Chain (call refDelay m c)) m
      calls := by
  have hlinked : AllLinked m := ⟨by omega, fun i => by rw [hnexts i]; omega⟩
  refine Runs.runOk_of_inv (fun m c m' h hstep => ?_) (fun m c h hchain => ?_) hlinked
  · obtain rfl := Option.some.inj hstep
    exact h.afterCall refDelay c
  · have hset : AllLinked (c.set m) := h
    exact hset.stale ((chain_ecDcConfig_iff c.ans refDelay c.duration (c.set m)).1 hchain)

end DcMaster

end LibEthercat.Dc
