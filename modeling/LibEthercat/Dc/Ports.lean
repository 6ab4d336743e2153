import Mathlib.Data.List.Sublists
import LibEthercat.Dc.Entry

/-!
# The port on the parent

The slaves of a bus are numbered in the order in which a frame comes to them, and a frame leaves a
slave through its ports 3, 1 and 2. So the slaves behind these ports come in this order, and
`ec_dc_config` takes the ports of a slave in turn (`dc.c`). It does so for slaves with an active
clock only, and a slave without one passes on those behind it: they take the ports of the next
active slave above.

**Theorem (`port_on_parent_iff`).** The port found for every active slave below an active one is the
right one just if between them the slaves at the ports before have as many active slaves on top as
there are such ports.
-/

namespace LibEthercat.Dc

/-! ## The free ports as a list -/

theorem hasPort_eq {ports : BitVec 8} {p : ℕ} (hp : p < 8) :
    hasPort ports p = ports.getLsbD p := by
  have htwo : (1#8 <<< p) = BitVec.twoPow 8 p := rfl
  have hne : BitVec.twoPow 8 p ≠ 0#8 := fun h => by
    have hbit := congrArg (fun x => BitVec.getLsbD x p) h
    simp [hp] at hbit
  rw [hasPort, htwo, BitVec.and_twoPow]
  cases ports.getLsbD p with
  | false => rfl
  | true => exact decide_eq_true hne

theorem hasPort_clearPort {ports : BitVec 8} {p q : ℕ} (hq : q < 8) :
    hasPort (clearPort ports p) q = (hasPort ports q && decide (q ≠ p)) := by
  have htwo : (1#8 <<< p) = BitVec.twoPow 8 p := rfl
  rw [hasPort_eq hq, hasPort_eq hq, clearPort, htwo, BitVec.getLsbD_and, BitVec.getLsbD_not,
    BitVec.getLsbD_twoPow]
  by_cases h : q = p
  · subst h
    simp [hq]
  · simp [h, hq, Ne.symm h]

/-- The free ports, in the order in which they are taken from entry port 0. -/
def freePorts (slv : DcSlave) : List ℕ :=
  (forwardPortOrder 0).filter (hasPort slv.availablePorts)

theorem lt_of_mem_forward {p : ℕ} (h : p ∈ forwardPortOrder 0) : p < 8 := by
  simp only [forwardPortOrder, List.mem_cons, List.not_mem_nil, or_false] at h
  omega

theorem nodup_forward : (forwardPortOrder 0).Nodup := by decide

/-- Taking a port: the first one that is free, and 0 if none is. -/
theorem taken_of_entry_zero {up : DcSlave} (h : up.entryPort = 0) :
    up.taken.1 = (freePorts up).headD 0 ∧
      (forwardPortOrder 0).filter (hasPort up.taken.2) = (freePorts up).tail := by
  rw [DcSlave.taken, getAndConsumeNextAvailablePort, h, freePorts]
  have hnodup : ((forwardPortOrder 0).filter (hasPort up.availablePorts)).Nodup :=
    nodup_forward.filter _
  cases hfree : (forwardPortOrder 0).filter (hasPort up.availablePorts) with
  | nil =>
    have hfind : (forwardPortOrder 0).find? (hasPort up.availablePorts) = none :=
      List.find?_eq_none.2 (List.filter_eq_nil_iff.1 hfree)
    simp [hfind, hfree]
  | cons p l =>
    have hfind : (forwardPortOrder 0).find? (hasPort up.availablePorts) = some p := by
      rw [← List.head?_filter, hfree, List.head?_cons]
    rw [hfree] at hnodup
    have hfilter : (forwardPortOrder 0).filter (hasPort (clearPort up.availablePorts p)) =
        ((forwardPortOrder 0).filter (hasPort up.availablePorts)).filter fun q => q ≠ p := by
      rw [List.filter_filter]
      refine List.filter_congr fun q hq => ?_
      rw [hasPort_clearPort (lt_of_mem_forward hq), Bool.and_comm]
    have hne : ∀ q ∈ l, ¬ q = p := fun q hq h => (List.nodup_cons.1 hnodup).1 (h ▸ hq)
    simpa [hfind, hfilter, hfree] using hne

/-! ## The bus as a tree -/

/-- Slaves at ports of one slave, in the order of the frame: the first by its port, whether its
clock is active and what is behind it, and the remaining ones. -/
inductive Branch where
  | nil : Branch
  | slave (port : ℕ) (dc : Bool) (below rest : Branch) : Branch
  deriving DecidableEq, Repr

namespace Branch

/-- The number of slaves. -/
def size : Branch → ℕ
  | nil => 0
  | slave _ _ below rest => below.size + rest.size + 1

/-- The ports to which the first slaves are attached. -/
def ports : Branch → List ℕ
  | nil => []
  | slave port _ _ rest => port :: rest.ports

/-- The number of active slaves that have no active one above them in the branch. -/
def tops : Branch → ℕ
  | nil => 0
  | slave _ dc below rest => (if dc then 1 else below.tops) + rest.tops

/-- Every slave has others at some of its ports 3, 1 and 2, in this order. -/
def Ported : Branch → Prop
  | nil => True
  | slave _ _ below rest => below.ports.Sublist [3, 1, 2] ∧ below.Ported ∧ rest.Ported

/-- The master knows these slaves, numbered from `n` on, with this parent: which clocks are active,
and as active ports 0 and those with a slave behind them. -/
def Wired (m : DcMaster) : ℕ → ℤ → Branch → Prop
  | _, _, nil => True
  | n, parent, slave _ dc below rest =>
    ((m.slaves n).parent = parent ∧ (m.slaves n).active = dc ∧
      ∀ i < 4, hasPort (m.slaves n).activePorts i = true ↔ i = 0 ∨ i ∈ below.ports) ∧
    Wired m (n + 1) n below ∧ Wired m (n + 1 + below.size) parent rest

/-- Active slaves below an active one, numbered from `n` on, have the port that they are attached
to. -/
def PortsRight (m : DcMaster) : ℕ → Bool → Branch → Prop
  | _, _, nil => True
  | n, parentDc, slave port dc below rest =>
    (dc = true → parentDc = true → (m.slaves n).portOnParent = port) ∧
    PortsRight m (n + 1) dc below ∧ PortsRight m (n + 1 + below.size) parentDc rest

/-- Where an active slave is below an active one, the slaves at the ports before, `elder` in number,
have `elder` active ones on top; `above` counts those. -/
def Aligned : Bool → ℕ → ℕ → Branch → Prop
  | _, _, _, nil => True
  | parentDc, elder, above, slave _ dc below rest =>
    (dc = true → parentDc = true → above = elder) ∧
    Aligned dc 0 0 below ∧
    Aligned parentDc (elder + 1) (above + if dc then 1 else below.tops) rest

/-- The port that every active slave takes: `free` are the free ports of the active slave `anc`
above these slaves. -/
def Takes (m : DcMaster) : ℕ → ℤ → List ℕ → Branch → Prop
  | _, _, _, nil => True
  | n, anc, free, slave _ dc below rest =>
    (dc = true → 0 ≤ anc → (m.slaves n).portOnParent = free.headD 0) ∧
    Takes m (n + 1) (if dc then (n : ℤ) else anc) (if dc then below.ports else free) below ∧
    Takes m (n + 1 + below.size) anc (free.drop (if dc then 1 else below.tops)) rest

/-! ## Counting -/

/-- The first of the ports that are left is the right one just if as many have been taken as there
are ports before. -/
theorem headD_drop_iff {ports : List ℕ} {port above elder : ℕ} {rest : List ℕ}
    (hnodup : ports.Nodup) (hzero : 0 ∉ ports) (hdrop : ports.drop elder = port :: rest) :
    (ports.drop above).headD 0 = port ↔ above = elder := by
  constructor
  · intro hhead
    have hport : port ∈ ports := List.mem_of_mem_drop (hdrop ▸ List.mem_cons_self)
    cases htaken : ports.drop above with
    | nil =>
      rw [htaken] at hhead
      obtain rfl : 0 = port := hhead
      exact absurd hport hzero
    | cons p l =>
      rw [htaken] at hhead
      obtain rfl : p = port := hhead
      have habove : ports[above]? = some p := by
        rw [← List.head?_drop, htaken, List.head?_cons]
      have helder : ports[elder]? = some p := by
        rw [← List.head?_drop, hdrop, List.head?_cons]
      obtain ⟨hlt, ha⟩ := List.getElem?_eq_some_iff.1 habove
      obtain ⟨hlt', he⟩ := List.getElem?_eq_some_iff.1 helder
      exact (hnodup.getElem_inj_iff).1 (ha.trans he.symm)
  · rintro rfl
    rw [hdrop]
    rfl

theorem portsRight_iff {m : DcMaster} {f : Branch} {n elder above : ℕ} {anc : ℤ} {parentDc : Bool}
    {free : List ℕ} (hported : f.Ported) (htakes : Takes m n anc free f)
    (hports : parentDc = true → 0 ≤ anc ∧ ∃ ports : List ℕ, ports.Sublist [3, 1, 2] ∧
      free = ports.drop above ∧ ports.drop elder = f.ports) :
    PortsRight m n parentDc f ↔ Aligned parentDc elder above f := by
  induction f generalizing n elder above anc parentDc free with
  | nil => exact Iff.rfl
  | slave port dc below rest ihb ihr =>
    obtain ⟨hsub, hbelow, hrest⟩ := hported
    obtain ⟨htake, htbelow, htrest⟩ := htakes
    rw [PortsRight, Aligned]
    refine and_congr ?_ (and_congr ?_ ?_)
    · refine forall_congr' fun hdc => forall_congr' fun hparent => ?_
      obtain ⟨hanc, ports, hsublist, rfl, hdrop⟩ := hports hparent
      rw [htake hdc hanc, Int.natCast_inj]
      exact headD_drop_iff (hsublist.nodup (by decide))
        (fun h => absurd (hsublist.subset h) (by decide)) hdrop
    · refine ihb hbelow htbelow fun hdc => ?_
      rw [if_pos hdc, if_pos hdc]
      exact ⟨Int.natCast_nonneg n, below.ports, hsub, List.drop_zero.symm, List.drop_zero⟩
    · refine ihr hrest htrest fun hparent => ?_
      obtain ⟨hanc, ports, hsublist, rfl, hdrop⟩ := hports hparent
      refine ⟨hanc, ports, hsublist, List.drop_drop, ?_⟩
      rw [← List.drop_drop, hdrop]
      rfl

/-! ## The loop over a branch -/

open DcMaster

variable {ans : Latches} {refDelay : BitVec 64 → ℤ} {duration : BitVec 64} {m : DcMaster}

/-- The free ports of a slave before the pass of another one. -/
def freeBefore (ans : Latches) (refDelay : BitVec 64 → ℤ) (duration : BitVec 64) (m : DcMaster)
    (n i : ℕ) : List ℕ :=
  freePorts ((before ans refDelay duration m n).1.slaves i)

/-- Every active slave has port 0 as its entry port: no other one has a smaller reading. -/
def EntryZero (ans : Latches) (m : DcMaster) : Prop :=
  ∀ s, (m.slaves s).active = true → hasPort (m.slaves s).activePorts 0 = true ∧
    ∀ i < 4, hasPort (m.slaves s).activePorts i = true →
      ¬ (ans.first s).getD (m.slaves s).receiveTimes i <
        (ans.first s).getD (m.slaves s).receiveTimes 0

theorem EntryZero.measured (h : EntryZero ans m) {s : ℕ} (hactive : (m.slaves s).active = true) :
    ((m.slaves s).measured ans s).entryPort = 0 :=
  findEntryPort_zero (h s hactive).1 (h s hactive).2

/-- The walk from this parent ends at the slave `anc`, or at the master. -/
def WalksTo (m : DcMaster) (parent anc : ℤ) : Prop :=
  ∀ fuel : ℕ, parent < fuel → dcParent m.slaves fuel parent = anc

theorem walksTo_master : WalksTo m (-1) (-1) := by
  rintro (_ | fuel) -
  · rfl
  · rw [dcParent, if_pos (by decide)]

theorem walksTo_slave {n : ℕ} {parent anc : ℤ} (hparent : (m.slaves n).parent = parent)
    (hlt : parent < n) (h : WalksTo m parent anc) :
    WalksTo m n (if (m.slaves n).active then (n : ℤ) else anc) := by
  intro fuel hfuel
  obtain ⟨fuel, rfl⟩ : ∃ k, fuel = k + 1 := ⟨fuel - 1, by omega⟩
  rw [dcParent, if_neg (by omega), Int.toNat_natCast, hparent]
  split_ifs
  · rfl
  · exact h fuel (by omega)

/-- The active ports but the entry port, in the order in which they are taken. -/
theorem filter_clearPort {activePorts : BitVec 8} {below : List ℕ}
    (hports : ∀ i < 4, hasPort activePorts i = true ↔ i = 0 ∨ i ∈ below)
    (hsub : below.Sublist [3, 1, 2]) :
    (forwardPortOrder 0).filter (hasPort (clearPort activePorts 0)) = below := by
  have hzero : 0 ∉ below := fun h => absurd (hsub.subset h) (by decide)
  have hall : ∀ l ∈ [3, 1, 2].sublists,
      (forwardPortOrder 0).filter (fun i => decide (i ∈ l)) = l := by decide
  refine (List.filter_congr fun i hi => ?_).trans (hall below (List.mem_sublists.2 hsub))
  rw [hasPort_clearPort (lt_of_mem_forward hi)]
  have hlt : i < 4 := by
    simp only [forwardPortOrder, List.mem_cons, List.not_mem_nil, or_false] at hi
    omega
  rw [Bool.eq_iff_iff, Bool.and_eq_true, decide_eq_true_eq, decide_eq_true_eq, hports i hlt]
  constructor
  · rintro ⟨h, hne⟩
    exact h.resolve_left hne
  · exact fun h => ⟨.inr h, fun h0 => hzero (h0 ▸ h)⟩

/-- Its pass leaves a slave with the ports behind it. -/
theorem freeBefore_self {n : ℕ} {below : List ℕ} (hentry : EntryZero ans m)
    (hactive : (m.slaves n).active = true) (hparent : m.parentOf n < n)
    (hports : ∀ i < 4, hasPort (m.slaves n).activePorts i = true ↔ i = 0 ∨ i ∈ below)
    (hsub : below.Sublist [3, 1, 2]) : freeBefore ans refDelay duration m (n + 1) n = below := by
  have hne : (before ans refDelay duration m n).1.parentOf n ≠ n := by
    rw [parentOf_before]
    omega
  have hmeasured : (((before ans refDelay duration m n).1.slaves n).measured ans n).entryPort = 0 :=
    (DcSlave.eq_of_own (fun slv => (slv.measured ans n).entryPort) (before_own_self n)
      fun _ => rfl).trans (hentry.measured hactive)
  rw [freeBefore, freePorts, before_succ,
    configSlave_freePorts ((before_active n n).trans hactive) hne, hmeasured,
    (DcSlave.wiring_eq.1 (before_wiring n n)).2.2.1]
  exact filter_clearPort hports hsub

/-- The slaves before are finished: they have port 0 as their entry port. -/
theorem entryPort_before (refDelay : BitVec 64 → ℤ) (duration : BitVec 64) {n a : ℕ}
    (hentry : EntryZero ans m) (hn : n ≤ m.slaveCnt) (hlt : a < n)
    (hup : (m.slaves a).active = true) :
    ((before ans refDelay duration m n).1.slaves a).entryPort = 0 := by
  have hsensed := ecDcConfig_sensed ans refDelay duration (Nat.lt_of_lt_of_le hlt hn) hup
  rw [DcSlave.eq_of_own DcSlave.entryPort (before_own_of_lt ans refDelay duration hn hlt)
    fun _ => rfl]
  exact (congrArg Prod.fst hsensed).trans (hentry.measured hup)

/-- The pass of an active slave takes a port of the one above it. -/
theorem freeBefore_above {n a : ℕ} (hentry : EntryZero ans m) (hn : n < m.slaveCnt)
    (hactive : (m.slaves n).active = true) (hparent : m.parentOf n = a) (hlt : a < n)
    (hup : (m.slaves a).active = true) :
    freeBefore ans refDelay duration m (n + 1) a = (freeBefore ans refDelay duration m n a).tail ∧
      ((ecDcConfig ans refDelay duration m).slaves n).portOnParent =
        (freeBefore ans refDelay duration m n a).headD 0 := by
  obtain ⟨hport, hleft⟩ :=
    taken_of_entry_zero (entryPort_before refDelay duration hentry (Nat.le_of_lt hn) hlt hup)
  have hbelow := ecDcConfig_below ans refDelay duration hn hactive hparent hlt
  constructor
  · rw [freeBefore, freePorts, before_succ, (configSlave_below ((before_active n n).trans hactive)
      ((parentOf_before n).trans hparent) (Nat.ne_of_lt hlt)).2, hleft]
    rfl
  · rw [DcSlave.eq_of_own DcSlave.portOnParent hbelow fun _ => rfl, DcSlave.delays_portOnParent,
      hport]
    rfl

/-- All other slaves keep their free ports. -/
theorem freeBefore_other {n i : ℕ} (hi : i < n)
    (h : (m.slaves n).active = true → m.parentOf n ≠ i) :
    freeBefore ans refDelay duration m (n + 1) i = freeBefore ans refDelay duration m n i := by
  have hof : ((before ans refDelay duration m n).1.slaves n).active = true →
      (before ans refDelay duration m n).1.parentOf n ≠ i := fun hactive => by
    rw [parentOf_before]
    exact h ((before_active n n).symm.trans hactive)
  rw [freeBefore, freePorts, before_succ, configSlave_availablePorts (Nat.ne_of_lt hi) hof]
  rfl

/-- The pass of the first slave of a branch, with the active slave `anc` above it. -/
theorem freeBefore_pass {n : ℕ} {anc : ℤ} {free : List ℕ} (hentry : EntryZero ans m)
    (hn : n < m.slaveCnt) (hparent : m.parentOf n = anc)
    (hanc : ∀ a : ℕ, anc = a → a < n ∧ (m.slaves a).active = true ∧
      freeBefore ans refDelay duration m n a = free) :
    (∀ a : ℕ, anc = a → freeBefore ans refDelay duration m (n + 1) a =
      if (m.slaves n).active then free.drop 1 else free) ∧
    (∀ i < n, anc ≠ i → freeBefore ans refDelay duration m (n + 1) i =
      freeBefore ans refDelay duration m n i) ∧
    ((m.slaves n).active = true → 0 ≤ anc →
      ((ecDcConfig ans refDelay duration m).slaves n).portOnParent = free.headD 0) := by
  refine ⟨fun a ha => ?_, fun i hi hne => ?_, fun hactive hpos => ?_⟩
  · obtain ⟨hlt, hup, hfree⟩ := hanc a ha
    split_ifs with hactive
    · rw [(freeBefore_above hentry hn hactive (hparent.trans ha) hlt hup).1, hfree, List.drop_one]
    · rw [freeBefore_other hlt fun h => absurd h hactive, hfree]
  · exact freeBefore_other hi fun _ => by rw [hparent]; exact hne
  · obtain ⟨a, rfl⟩ := Int.eq_ofNat_of_zero_le hpos
    obtain ⟨hlt, hup, hfree⟩ := hanc a rfl
    rw [(freeBefore_above hentry hn hactive hparent hlt hup).2, hfree]

/-- **The loop over a branch.** Its active slaves take the free ports in turn, and as many of the
ones of the slave above are gone afterwards as the branch has active slaves on top. -/
theorem takes_of_wired {f : Branch} {n : ℕ} {parent anc : ℤ} {free : List ℕ}
    (hentry : EntryZero ans m) (hwired : Wired m n parent f) (hported : f.Ported)
    (hwalk : WalksTo m parent anc) (hparent : parent < n)
    (hanc : ∀ a : ℕ, anc = a → a < n ∧ (m.slaves a).active = true ∧
      freeBefore ans refDelay duration m n a = free) (hsize : n + f.size ≤ m.slaveCnt) :
    Takes (ecDcConfig ans refDelay duration m) n anc free f ∧
    (∀ a : ℕ, anc = a →
      freeBefore ans refDelay duration m (n + f.size) a = free.drop f.tops) ∧
    ∀ i < n, anc ≠ i → freeBefore ans refDelay duration m (n + f.size) i =
      freeBefore ans refDelay duration m n i := by
  induction f generalizing n parent anc free with
  | nil =>
    exact ⟨trivial, fun a ha => (hanc a ha).2.2, fun _ _ _ => rfl⟩
  | slave port dc below rest ihb ihr =>
    obtain ⟨⟨hpar, rfl, hports⟩, hwbelow, hwrest⟩ := hwired
    obtain ⟨hsub, hpbelow, hprest⟩ := hported
    rw [size] at hsize
    have hof : m.parentOf n = anc := by
      rw [parentOf, hpar]
      exact hwalk n hparent
    have hltanc : anc < n := by
      by_contra hc
      obtain ⟨a, ha⟩ := Int.eq_ofNat_of_zero_le (show 0 ≤ anc by omega)
      have := (hanc a ha).1
      omega
    obtain ⟨hfree, hother, htake⟩ := freeBefore_pass hentry (by omega) hof hanc
    -- The slaves behind the first one.
    have hbehind : ∀ a : ℕ, (if (m.slaves n).active then (n : ℤ) else anc) = a →
        a < n + 1 ∧ (m.slaves a).active = true ∧ freeBefore ans refDelay duration m (n + 1) a =
          if (m.slaves n).active then below.ports else free := by
      intro a ha
      split_ifs at ha ⊢ with hactive
      · obtain rfl : n = a := Int.ofNat.inj ha
        exact ⟨by omega, hactive, freeBefore_self hentry hactive (by omega) hports hsub⟩
      · obtain ⟨hlt, hup, -⟩ := hanc a ha
        refine ⟨by omega, hup, ?_⟩
        rw [hfree a ha, if_neg hactive]
    obtain ⟨htbelow, hdbelow, hobelow⟩ := ihb hwbelow hpbelow (walksTo_slave hpar hparent hwalk)
      (by omega) hbehind (by omega)
    have hleft : ∀ a : ℕ, anc = a →
        freeBefore ans refDelay duration m (n + 1 + below.size) a =
          free.drop (if (m.slaves n).active then 1 else below.tops) := by
      intro a ha
      have halt := (hanc a ha).1
      have hfreea := hfree a ha
      split_ifs at hdbelow hobelow hfreea ⊢ with hactive
      · rw [hobelow a (by omega) (by omega), hfreea]
      · rw [hdbelow a ha]
    have hkeep : ∀ i < n, anc ≠ i →
        freeBefore ans refDelay duration m (n + 1 + below.size) i =
          freeBefore ans refDelay duration m n i := by
      intro i hi hne
      rw [hobelow i (by omega) (by split_ifs <;> omega), hother i hi hne]
    -- The remaining ones find the ports that those have left.
    obtain ⟨htrest, hdrest, horest⟩ := ihr hwrest hprest hwalk (by omega)
      (fun a ha => ⟨by have := (hanc a ha).1; omega, (hanc a ha).2.1, hleft a ha⟩) (by omega)
    have hend : n + (slave port (m.slaves n).active below rest).size =
        n + 1 + below.size + rest.size := by
      rw [size]
      omega
    rw [hend]
    refine ⟨⟨htake, htbelow, htrest⟩, fun a ha => ?_, fun i hi hne => ?_⟩
    · rw [hdrest a ha, List.drop_drop, tops]
    · rw [horest i (by omega) hne, hkeep i hi hne]

/-! ## The bus -/

/-- A bus by its first slave, whose parent is the master. -/
def bus (dc : Bool) (below : Branch) : Branch := slave 0 dc below nil

/-- **The port on the parent.** -/
theorem port_on_parent_iff {dc : Bool} {below : Branch} (hentry : EntryZero ans m)
    (hcnt : m.slaveCnt = (bus dc below).size) (hported : (bus dc below).Ported)
    (hwired : Wired m 0 (-1) (bus dc below)) :
    PortsRight (ecDcConfig ans refDelay duration m) 0 false (bus dc below) ↔
      Aligned false 0 0 (bus dc below) := by
  have hmaster : ∀ a : ℕ, (-1 : ℤ) = a → a < 0 ∧ (m.slaves a).active = true ∧
      freeBefore ans refDelay duration m 0 a = [] := fun a ha => by omega
  have htakes := takes_of_wired hentry hwired hported walksTo_master (by decide) hmaster (by omega)
  exact portsRight_iff hported htakes.1 fun h => absurd h Bool.false_ne_true

/-- A slave with two others, at its ports 3 and 1. -/
def hub (first second : Bool) : Branch := bus true (slave 3 first nil (slave 1 second nil nil))

def hubSlave (s : ℕ) (dc : Bool) : DcSlave :=
  ⟨0x1000, 0x1100, 0x000C, if s = 0 then 0b1011 else 0b0001, if s = 0 then -1 else 0, 0, 0, 0,
    if dc then 1 else 0, 0, 0, 0, fun _ => 0, 0, 0, 0, 0⟩

def hubMaster (first second : Bool) : DcMaster :=
  ⟨fun s => hubSlave s (if s = 1 then first else if s = 2 then second else true), 3, .refClock,
    false, false, 0, 0, 0, 0⟩

/-- A reading of 10 at port 0, and greater ones at the others. -/
def hubLatches : Latches := ⟨fun _ => some fun i => if i = 0 then 10 else 20, fun _ => none⟩

theorem entryZero_hub (first second : Bool) : EntryZero hubLatches (hubMaster first second) := by
  intro s _
  refine ⟨?_, fun i _ _ => ?_⟩
  · show hasPort (if s = 0 then 0b1011 else 0b0001) 0 = true
    split_ifs <;> decide
  · show ¬ (if i = 0 then 10 else 20 : BitVec 32) < 10
    split_ifs <;> decide

theorem wired_hub (first second : Bool) :
    Wired (hubMaster first second) 0 (-1) (hub first second) := by
  cases first <;> cases second <;>
    exact ⟨by decide, ⟨by decide, trivial, by decide, trivial, trivial⟩, trivial⟩

theorem ported_hub (first second : Bool) : (hub first second).Ported :=
  ⟨show [3, 1].Sublist [3, 1, 2] by decide,
    ⟨List.nil_sublist _, trivial, List.nil_sublist _, trivial, trivial⟩, trivial⟩

/-- All three slaves are active. -/
theorem port_on_parent_hub :
    PortsRight (ecDcConfig hubLatches (fun _ => 0) 0 (hubMaster true true)) 0 false
      (hub true true) :=
  (port_on_parent_iff (entryZero_hub true true) rfl (ported_hub true true) (wired_hub true true)).2
    ⟨by decide, ⟨by decide, trivial, by decide, trivial, trivial⟩, trivial⟩

/-- The slave at port 3 does not use its clock, and the one at port 1 takes port 3. -/
theorem port_on_parent_skipped :
    Wired (hubMaster false true) 0 (-1) (hub false true) ∧
    EntryZero hubLatches (hubMaster false true) ∧
    ((ecDcConfig hubLatches (fun _ => 0) 0 (hubMaster false true)).slaves 2).portOnParent = 3 ∧
    ¬ PortsRight (ecDcConfig hubLatches (fun _ => 0) 0 (hubMaster false true)) 0 false
      (hub false true) := by
  have hport : ((ecDcConfig hubLatches (fun _ => 0) 0
      (hubMaster false true)).slaves 2).portOnParent = 3 := by decide
  refine ⟨wired_hub false true, entryZero_hub false true, hport, ?_⟩
  rintro ⟨-, ⟨-, -, hright, -⟩, -⟩
  exact absurd (hport.symm.trans (hright rfl rfl)) (by decide)

end Branch

end LibEthercat.Dc
