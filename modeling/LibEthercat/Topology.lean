import LibEthercat.Lib.Forest
import LibEthercat.Mapping.Model
import Mathlib.Logic.Function.Basic
import Mathlib.Tactic.IntervalCases

/-!
# Topology of the bus

The last loop of `ec_scan` (`ec.c`): count the open ports of every slave, and find the slave its
frames come from by walking back over the link counts of the slaves before it.

The bus is a tree that the frame visits in depth-first order. `Forest.search` is the walk on the
degrees of such a tree; `parentSearch_eq_search` says that the walk on the link counts, done with
a 16 bit sum, is the same one.
-/

namespace LibEthercat

/-- A slave as far as the topology is concerned. -/
structure EcSlaveLinks where
  linkCnt : UInt8
  activePorts : UInt8
  parent : ℤ
  deriving DecidableEq, Repr

/-- A slave in zeroed memory. -/
def EcSlaveLinks.zero : EcSlaveLinks := ⟨0, 0, 0⟩

/-! ## Ports -/

/-- The loop of the port is not closed and communication is established. -/
def portOpen (dlstat : UInt16) (port : ℕ) : Bool :=
  (dlstat >>> (8 + 2 * port).toUInt16) &&& 0x03 == 0x02

/-- The loop over the four ports. -/
def EcSlaveLinks.countPorts (slv : EcSlaveLinks) (dlstat : UInt16) : EcSlaveLinks :=
  (List.range 4).foldl (fun slv port =>
    if portOpen dlstat port then
      { slv with linkCnt := slv.linkCnt + 1,
                 activePorts := slv.activePorts ||| (1 <<< port.toUInt8) }
    else slv) slv

/-- The link count of a slave with this data link status. -/
def linkCount (dlstat : UInt16) : UInt8 := ((EcSlaveLinks.zero.countPorts dlstat).linkCnt)

/-! ## The search for the parent -/

/-- A value stored to an `osal_int16_t`. -/
def toInt16 (t : ℤ) : ℤ := t.bmod 65536

/-- What a slave on the way back adds to `topology`. -/
def linkWeight (linkCnt : UInt8) : ℤ :=
  match linkCnt with
  | 1 => -1
  | 3 => 1
  | 4 => 2
  | _ => 0

/-- The search from `tmp_slave = m - 1` down. -/
def parentSearch (slaves : ℕ → EcSlaveLinks) : ℕ → ℤ → ℤ
  | 0, _ => -1
  | tmpSlave + 1, topology =>
    let linkCnt := (slaves tmpSlave).linkCnt
    let topology := toInt16 (topology + linkWeight linkCnt)
    if (0 ≤ topology ∧ 1 < linkCnt) ∨ tmpSlave = 0 then tmpSlave
    else parentSearch slaves tmpSlave topology

/-- One slave of the loop; `dlstat` is what the read of its register `EC_REG_DLSTAT` gives. -/
def scanSlave (dlstat : ℕ → Option UInt16) (slaves : ℕ → EcSlaveLinks) (slave : ℕ) :
    ℕ → EcSlaveLinks :=
  let slv : EcSlaveLinks := { slaves slave with linkCnt := 0, activePorts := 0 }
  match dlstat slave with
  | none => Function.update slaves slave slv
  | some dlstat =>
    let slv := slv.countPorts dlstat
    let slaves := Function.update slaves slave slv
    Function.update slaves slave
      { slv with parent := if 1 ≤ slave then parentSearch slaves slave 0 else -1 }

/-- The loop of `ec_scan` over the slaves it has found. -/
def ecScanTopology (dlstat : ℕ → Option UInt16) (slaveCnt : ℕ) (slaves : ℕ → EcSlaveLinks) :
    ℕ → EcSlaveLinks :=
  (List.range slaveCnt).foldl (scanSlave dlstat) slaves

/-! ## Ports, counted -/

theorem countPorts_linkCnt (slv : EcSlaveLinks) (dlstat : UInt16) (h : slv.linkCnt = 0) :
    (slv.countPorts dlstat).linkCnt = linkCount dlstat := by
  simp only [linkCount, EcSlaveLinks.countPorts, EcSlaveLinks.zero, List.range, List.range.loop,
    List.foldl_cons, List.foldl_nil]
  split_ifs <;> simp only [h]

theorem linkCount_le (dlstat : UInt16) : (linkCount dlstat).toNat ≤ 4 := by
  simp only [linkCount, EcSlaveLinks.countPorts, EcSlaveLinks.zero, List.range, List.range.loop,
    List.foldl_cons, List.foldl_nil]
  split_ifs <;> decide

theorem linkWeight_eq {linkCnt : UInt8} (h1 : 1 ≤ linkCnt.toNat) (h4 : linkCnt.toNat ≤ 4) :
    linkWeight linkCnt = (linkCnt.toNat : ℤ) - 2 := by
  have hl : linkCnt = UInt8.ofNat linkCnt.toNat := (UInt8.ofNat_toNat).symm
  generalize linkCnt.toNat = k at *
  subst hl
  interval_cases k <;> decide

/-! ## The walk is the one on the degrees -/

theorem toInt16_eq {t : ℤ} (h : -32768 ≤ t) (h' : t < 32768) : toInt16 t = t :=
  Int.bmod_eq_of_le (by omega) (by omega)

/-- **A walk over link counts between one and four never overflows its sum**, and is the walk
over the degrees. -/
theorem parentSearch_eq_search {slaves : ℕ → EcSlaveLinks} {m : ℕ} {t : ℤ} (hm : 0 < m)
    (hl : ∀ i < m, 1 ≤ (slaves i).linkCnt.toNat ∧ (slaves i).linkCnt.toNat ≤ 4)
    (ht : -32768 + (m : ℤ) ≤ t) (ht' : t + 2 * m < 32768) :
    parentSearch slaves m t = Forest.search (fun i => (slaves i).linkCnt.toNat - 1) m t := by
  induction m generalizing t with
  | zero => omega
  | succ m ih =>
    obtain ⟨h1, h4⟩ := hl m (by omega)
    have hw := linkWeight_eq h1 h4
    have hsum : t + linkWeight (slaves m).linkCnt =
        t + (((((slaves m).linkCnt.toNat - 1 : ℕ)) : ℤ) - 1) := by omega
    have hwrap : toInt16 (t + (((((slaves m).linkCnt.toNat - 1 : ℕ)) : ℤ) - 1)) =
        t + (((((slaves m).linkCnt.toNat - 1 : ℕ)) : ℤ) - 1) := toInt16_eq (by omega) (by omega)
    have hlt : 1 < (slaves m).linkCnt ↔ 0 < (slaves m).linkCnt.toNat - 1 := by
      rw [UInt8.lt_iff_toNat_lt]
      simp only [UInt8.toNat_one]
      omega
    by_cases hzero : m = 0
    · subst hzero
      simp [parentSearch, Forest.search]
    · simp only [parentSearch, Forest.search, hsum, hwrap, hlt, hzero, or_false]
      split_ifs
      · rfl
      · exact ih (by omega) (fun i hi => hl i (by omega)) (by omega) (by omega)

/-! ## The loop over the slaves -/

variable {dlstat : ℕ → Option UInt16} {slaves : ℕ → EcSlaveLinks}

theorem ecScanTopology_succ (dlstat : ℕ → Option UInt16) (n : ℕ) (slaves : ℕ → EcSlaveLinks) :
    ecScanTopology dlstat (n + 1) slaves =
      scanSlave dlstat (ecScanTopology dlstat n slaves) n := by
  rw [ecScanTopology, List.range_succ, List.foldl_append]
  rfl

theorem scanSlave_of_ne {slave i : ℕ} (h : i ≠ slave) :
    scanSlave dlstat slaves slave i = slaves i := by
  simp only [scanSlave]
  cases dlstat slave <;> simp [h]

/-- The walk reads only the slaves it passes. -/
theorem parentSearch_congr {s s' : ℕ → EcSlaveLinks} {m : ℕ} {t : ℤ}
    (h : ∀ i < m, s i = s' i) : parentSearch s m t = parentSearch s' m t := by
  induction m generalizing t with
  | zero => rfl
  | succ m ih =>
    simp only [parentSearch, h m (by omega)]
    split_ifs
    · rfl
    · exact ih fun i hi => h i (by omega)

theorem scanSlave_self {slave : ℕ} {v : UInt16} (h : dlstat slave = some v) :
    (scanSlave dlstat slaves slave slave).linkCnt = linkCount v ∧
      (scanSlave dlstat slaves slave slave).parent =
        if 1 ≤ slave then parentSearch slaves slave 0 else -1 := by
  simp only [scanSlave, h, Function.update_self]
  refine ⟨countPorts_linkCnt _ _ rfl, ?_⟩
  split_ifs
  · exact parentSearch_congr fun i hi => Function.update_of_ne (by omega) _ _
  · rfl

/-- What the loop leaves for a slave whose register was read: its link count, and the parent
found from the link counts of the slaves before it. -/
theorem ecScanTopology_spec {n slave : ℕ} {v : UInt16} (hlt : slave < n)
    (h : dlstat slave = some v) :
    (ecScanTopology dlstat n slaves slave).linkCnt = linkCount v ∧
      (ecScanTopology dlstat n slaves slave).parent =
        if 1 ≤ slave then parentSearch (ecScanTopology dlstat n slaves) slave 0 else -1 := by
  induction n with
  | zero => omega
  | succ n ih =>
    rw [ecScanTopology_succ]
    have hbefore : ∀ s, s ≤ n → parentSearch (scanSlave dlstat (ecScanTopology dlstat n slaves) n)
        s 0 = parentSearch (ecScanTopology dlstat n slaves) s 0 :=
      fun s hs => parentSearch_congr fun i hi => scanSlave_of_ne (by omega)
    by_cases hn : slave = n
    · subst hn
      rw [hbefore slave le_rfl]
      exact scanSlave_self h
    · rw [scanSlave_of_ne hn, hbefore slave (by omega)]
      exact ih (by omega)

/-! ## The bus as a tree -/

/-- The bus whose first slave has these trees behind it, numbered in the order of the frame. -/
def bus (children : Forest) : Forest := Forest.node children Forest.nil

/-- The parent of every slave of the bus; that of the first one is the master. -/
def busParents (children : Forest) : List ℤ :=
  ((bus children).parents none 0).map fun p =>
    match p with
    | none => -1
    | some p => (p : ℤ)

/-- The data link status of every slave can be read, and has one open port for every child and
one for the way back. A slave has four ports, so it has at most three children. -/
def Linked (dlstat : ℕ → Option UInt16) (tree : Forest) : Prop :=
  ∀ i d, tree.degrees[i]? = some d →
    ∃ v, dlstat i = some v ∧ (linkCount v).toNat = d + 1

/-- The loop stores the link counts of the tree. -/
theorem Linked.linkCnt {tree : Forest} (h : Linked dlstat tree)
    (slaves : ℕ → EcSlaveLinks) {i : ℕ} (hi : i < tree.size) :
    ∃ d v, tree.degrees[i]? = some d ∧ dlstat i = some v ∧
      (ecScanTopology dlstat tree.size slaves i).linkCnt.toNat = d + 1 := by
  have hget := List.getElem?_eq_getElem (l := tree.degrees) (i := i) (by simpa using hi)
  obtain ⟨v, hv, hd⟩ := h i _ hget
  exact ⟨_, v, hget, hv, by rw [(ecScanTopology_spec hi hv).1, hd]⟩

theorem Linked.laid {tree : Forest} (h : Linked dlstat tree) (slaves : ℕ → EcSlaveLinks) :
    Forest.Laid (fun i => (ecScanTopology dlstat tree.size slaves i).linkCnt.toNat - 1) 0 tree := by
  apply Forest.laid_of_degrees
  intro i d hd
  have hi : i < tree.size := by simpa using (List.getElem?_eq_some_iff.1 hd).1
  obtain ⟨d', v, hd', -, hcnt⟩ := h.linkCnt slaves hi
  rw [hd, Option.some.injEq] at hd'
  simp only [Nat.zero_add, hcnt, hd', Nat.add_sub_cancel]

/-- **The scan finds every parent**, on a bus of fewer slaves than the master has room for. -/
theorem ec_scan_parent (children : Forest) (dlstat : ℕ → Option UInt16)
    (slaves : ℕ → EcSlaveLinks) (hsize : (bus children).size ≤ lecMaxSlaves - 1)
    (hlinked : Linked dlstat (bus children)) (i : ℕ) (p : ℤ)
    (hp : (busParents children)[i]? = some p) :
    (ecScanTopology dlstat (bus children).size slaves i).parent = p := by
  have hlt : i < (bus children).size := by
    simpa [busParents] using (List.getElem?_eq_some_iff.1 hp).1
  obtain ⟨d, v, -, hv, -⟩ := hlinked.linkCnt slaves hlt
  rw [(ecScanTopology_spec hlt hv).2]
  cases i with
  | zero =>
    simp only [busParents, bus, Forest.parents, List.map_cons, List.getElem?_cons_zero,
      Option.some.injEq] at hp
    exact hp
  | succ i =>
    have hwalk := @parentSearch_eq_search
      (ecScanTopology dlstat (bus children).size slaves) (i + 1) 0 (by omega)
      (fun j hj => by
        obtain ⟨d, v, -, hv, hcnt⟩ := hlinked.linkCnt slaves (show j < _ by omega)
        have h4 := linkCount_le v
        rw [← (ecScanTopology_spec (n := (bus children).size) (by omega) hv).1] at h4
        exact ⟨by omega, h4⟩)
      (by simp only [lecMaxSlaves] at hsize; omega)
      (by simp only [lecMaxSlaves] at hsize; omega)
    simp only [busParents, bus, Forest.parents, List.map_cons, List.getElem?_cons_succ,
      List.append_nil, List.getElem?_map, Option.map_eq_some_iff] at hp
    obtain ⟨q, hq, hqp⟩ := hp
    have hroot := Forest.search_root (hlinked.laid slaves) hq
    rw [if_pos (by omega), hwalk, ← hqp, hroot, Nat.zero_add, Nat.add_comm 1 i]

/-- A coupler with a branch of two slaves, one single slave and one more behind it. -/
theorem ec_scan_parent_coupler :
    (ecScanTopology
      (fun i => [some 0xAA00, some 0x0A00, some 0x0200, some 0x0200, some 0x0200][i]?.join) 5 (fun _ => EcSlaveLinks.zero) 4).parent = 0 :=
  ec_scan_parent
    (Forest.node (Forest.node Forest.nil Forest.nil)
      (Forest.node Forest.nil (Forest.node Forest.nil Forest.nil)))
    (fun i => [some 0xAA00, some 0x0A00, some 0x0200, some 0x0200, some 0x0200][i]?.join)
    (fun _ => EcSlaveLinks.zero) (by decide)
    (by
      intro i d hd
      have hi := (List.getElem?_eq_some_iff.1 hd).1
      change i < 5 at hi
      interval_cases i <;> cases hd <;> exact ⟨_, rfl, by decide⟩)
    4 0 (by decide)

end LibEthercat
