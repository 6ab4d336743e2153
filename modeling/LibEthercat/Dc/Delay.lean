import LibEthercat.Dc.Ports

/-!
# The propagation delays

A frame that comes to port 0 of a slave goes through its processing unit and on to the ports behind
which there are others, one after the other, and each time it comes back the slave notes the time
its own clock shows. `ec_dc_config` knows nothing but these readings (`dc.c`). To get the way to a
slave from them it halves what its round trip takes, and it allows for the processing unit, which is
`t_diff` slower than the way from one port to the next.

The slaves forward alike, each of them is slower by `t_diff` where the frame goes through its
processing unit, a cable takes as long there as back, and a frame comes to a slave at port 0.

**Theorem (`ecDcConfig_pdelay`).** If all clocks of such a bus are active, every delay is the time at
which the frame really arrives, plus 10 ns for each slave on the way, itself included, that is not
the first one behind its parent, plus another 10 ns if it has none behind it; of all this the 32 bits
of a delay are left.

The time between two readings of the parent is what the frame needs to the slave, through it and
back. The part behind the slave is known from the slave's own readings, and what is left are the
cable, twice, and what the two slaves take themselves: only the parent's processing unit is met, or
only the slave's, or none, and `t_diff` stands for one of them.
-/

namespace LibEthercat.Dc

/-! ## The way of the frame -/

/-- What the frame needs from one port of a slave to the next, and on the cable that leads to a
slave. That is less than a second. -/
structure Medium where
  forward : ℕ
  cable : ℕ → ℕ
  short : ∀ n, forward + cable n < 10 ^ 9

/-- From port 0 on, the frame goes through the processing unit. -/
def Medium.wait (φ : Medium) : Bool → ℕ
  | true => φ.forward + tDiff.toNat
  | false => φ.forward

/-- The frame arrives at a port of a slave. -/
structure Receipt where
  slave : ℕ
  port : ℕ
  time : ℕ
  deriving DecidableEq, Repr

namespace Branch

/-- The time from a port of a slave until the frame is back from all slaves of the branch behind the
ports that follow; `first` says that it is port 0. -/
def lap (φ : Medium) : Bool → ℕ → Branch → ℕ
  | _, _, nil => 0
  | first, n, slave _ _ below rest =>
    φ.wait first + φ.cable n +
      (if below = nil then φ.wait true else lap φ true (n + 1) below + φ.wait false) +
      φ.cable n + lap φ false (n + 1 + below.size) rest

/-- The time that the frame stays in a slave and behind it. -/
def dwell (φ : Medium) (n : ℕ) (below : Branch) : ℕ :=
  if below = nil then φ.wait true else lap φ true (n + 1) below + φ.wait false

/-- The receipts in their order, from the one at a port of the parent on. -/
def receipts (φ : Medium) : ℕ → ℕ → ℕ → Bool → Branch → List Receipt
  | _, _, _, _, nil => []
  | n, parent, time, first, slave port _ below rest =>
    let arrival := time + φ.wait first + φ.cable n
    let back := arrival + dwell φ n below + φ.cable n
    ⟨n, 0, arrival⟩ :: (receipts φ (n + 1) n arrival true below ++
      ⟨parent, port, back⟩ :: receipts φ (n + 1 + below.size) parent back false rest)

/-- The receipts on a bus whose first slave gets the frame at the time `start`. -/
def busReceipts (φ : Medium) (start : ℕ) (below : Branch) : List Receipt :=
  ⟨0, 0, start⟩ :: receipts φ 1 0 start true below

/-- All clocks are active. -/
def AllActive : Branch → Prop
  | nil => True
  | slave _ dc below rest => dc = true ∧ below.AllActive ∧ rest.AllActive

/-- By how many steps of 10 ns the delay of each slave is too long, if it is by `above` for the
parent. -/
def surplus : ℕ → ℕ → Bool → Branch → ℕ → ℕ
  | _, _, _, nil, _ => 0
  | n, above, first, slave _ _ below rest, s =>
    let own := above + if first then 0 else 1
    if s = n then own + if below = nil then 1 else 0
    else if s < n + 1 + below.size then surplus (n + 1) own true below s
    else surplus (n + 1 + below.size) above false rest s

variable {φ : Medium} {n parent time start : ℕ} {first : Bool} {f below rest : Branch}

theorem lap_slave {port : ℕ} {dc : Bool} : lap φ first n (slave port dc below rest) =
    φ.wait first + φ.cable n + dwell φ n below + φ.cable n +
      lap φ false (n + 1 + below.size) rest := rfl

/-- The last receipt at the parent. -/
theorem last_receipt (φ : Medium) (n parent time : ℕ) (first : Bool) (f : Branch) (q : ℕ) :
    ⟨parent, f.ports.getLastD q, time + lap φ first n f⟩ ∈
      ⟨parent, q, time⟩ :: receipts φ n parent time first f := by
  induction f generalizing n time first q with
  | nil => exact List.mem_cons_self
  | slave port dc below rest _ ihr =>
    have hlap : time + lap φ first n (slave port dc below rest) =
        time + φ.wait first + φ.cable n + dwell φ n below + φ.cable n +
          lap φ false (n + 1 + below.size) rest := by
      rw [lap_slave]
      omega
    rw [hlap, ports, List.getLastD_cons, receipts]
    exact List.mem_cons_of_mem _ (List.mem_cons_of_mem _ (List.mem_append_right _ (ihr _ _ _ port)))

/-- At every port the frame comes back, and later than it came to the parent. -/
theorem exists_back (φ : Medium) (n parent time : ℕ) (first : Bool) {port : ℕ}
    (h : port ∈ f.ports) :
    ∃ t, time ≤ t ∧ ⟨parent, port, t⟩ ∈ receipts φ n parent time first f := by
  induction f generalizing n time first with
  | nil => simp [ports] at h
  | slave port' dc below rest _ ihr =>
    rw [receipts]
    obtain rfl | hrest := List.mem_cons.1 h
    · exact ⟨time + φ.wait first + φ.cable n + dwell φ n below + φ.cable n, by omega, by simp⟩
    · obtain ⟨t, hle, ht⟩ := ihr (n + 1 + below.size)
        (time + φ.wait first + φ.cable n + dwell φ n below + φ.cable n) false hrest
      exact ⟨t, by omega, List.mem_cons_of_mem _ (List.mem_append_right _
        (List.mem_cons_of_mem _ ht))⟩

/-- Every slave gets the frame at port 0, and not earlier at any other of its open ports. -/
theorem exists_receipts (φ : Medium) (time : ℕ) (first : Bool) {m : DcMaster}
    (hwired : Wired m n parent f) {s : ℕ} (hn : n ≤ s) (hs : s < n + f.size) :
    ∃ t, ⟨s, 0, t⟩ ∈ receipts φ n parent time first f ∧
      hasPort (m.slaves s).activePorts 0 = true ∧
      ∀ i < 4, hasPort (m.slaves s).activePorts i = true →
        ∃ t', t ≤ t' ∧ ⟨s, i, t'⟩ ∈ receipts φ n parent time first f := by
  induction f generalizing n parent time first with
  | nil => exact absurd hs (by rw [size]; omega)
  | slave port dc below rest ihb ihr =>
    obtain ⟨⟨-, -, hports⟩, hbelow, hrest⟩ := hwired
    rw [size] at hs
    rw [receipts]
    by_cases heq : s = n
    · subst heq
      refine ⟨_, List.mem_cons_self, (hports 0 (by decide)).2 (.inl rfl), fun i hi hport => ?_⟩
      obtain rfl | hmem := (hports i hi).1 hport
      · exact ⟨_, le_rfl, List.mem_cons_self⟩
      · obtain ⟨t', hle, ht'⟩ := exists_back φ (s + 1) s (time + φ.wait first + φ.cable s) true
          hmem
        exact ⟨t', hle, List.mem_cons_of_mem _ (List.mem_append_left _ ht')⟩
    · by_cases hin : s < n + 1 + below.size
      · obtain ⟨t, ht, hzero, hopen⟩ := ihb _ _ hbelow (by omega) hin
        refine ⟨t, List.mem_cons_of_mem _ (List.mem_append_left _ ht), hzero, fun i hi hport => ?_⟩
        obtain ⟨t', hle, ht'⟩ := hopen i hi hport
        exact ⟨t', hle, List.mem_cons_of_mem _ (List.mem_append_left _ ht')⟩
      · obtain ⟨t, ht, hzero, hopen⟩ := ihr _ _ hrest (by omega) (by omega)
        refine ⟨t, List.mem_cons_of_mem _ (List.mem_append_right _ (List.mem_cons_of_mem _ ht)),
          hzero, fun i hi hport => ?_⟩
        obtain ⟨t', hle, ht'⟩ := hopen i hi hport
        exact ⟨t', hle,
          List.mem_cons_of_mem _ (List.mem_append_right _ (List.mem_cons_of_mem _ ht'))⟩

/-- On a bus of active clocks the ports are taken as they come. -/
theorem aligned_of_allActive (parentDc : Bool) (elder : ℕ) (h : f.AllActive) :
    Aligned parentDc elder elder f := by
  induction f generalizing parentDc elder with
  | nil => trivial
  | slave port dc below rest ihb ihr =>
    obtain ⟨rfl, hbelow, hrest⟩ := h
    exact ⟨fun _ _ => rfl, ihb _ _ hbelow, ihr _ _ hrest⟩

/-! ## The ports before -/

theorem getPreviousActivePort_eq {activePorts : BitVec 8} {l : List ℕ} {port : ℕ}
    (hports : ∀ i < 4, hasPort activePorts i = true ↔ i = 0 ∨ i ∈ l) (hport : port < 4) :
    getPreviousActivePort activePorts port =
      (((reversePortOrder port).take 3).find? fun i => decide (i = 0 ∨ i ∈ l)).getD port := by
  rw [getPreviousActivePort, ← List.head?_filter, ← List.head?_filter]
  refine congrArg (fun l => (List.head? l).getD port) (List.filter_congr fun i hi => ?_)
  have hlt : i < 4 := by
    have hmem := List.mem_of_mem_take hi
    revert hmem
    clear hi
    interval_cases port <;> simp [reversePortOrder] <;> omega
  rw [Bool.eq_iff_iff, hports i hlt, decide_eq_true_eq]

/-- Before the port of a slave comes that of the slave before it, or port 0. -/
theorem previous_of_drop {activePorts : BitVec 8} {l left : List ℕ} {port elder : ℕ}
    (hports : ∀ i < 4, hasPort activePorts i = true ↔ i = 0 ∨ i ∈ l) (hsub : l.Sublist [3, 1, 2])
    (hdrop : l.drop elder = port :: left) :
    getPreviousActivePort activePorts port = (l.take elder).getLastD 0 := by
  have hall : ∀ l ∈ [3, 1, 2].sublists, ∀ e < 3, ∀ p ∈ (l.drop e).head?,
      (((reversePortOrder p).take 3).find? fun i => decide (i = 0 ∨ i ∈ l)).getD p =
        (l.take e).getLastD 0 := by decide
  have hmem : port ∈ l := List.mem_of_mem_drop (hdrop ▸ List.mem_cons_self)
  have hlt : port < 4 := by
    have := hsub.subset hmem
    simp only [List.mem_cons, List.not_mem_nil, or_false] at this
    omega
  have helder : elder < 3 := by
    have hlen := congrArg List.length hdrop
    have := hsub.length_le
    simp only [List.length_drop, List.length_cons, List.length_nil] at hlen this
    omega
  rw [getPreviousActivePort_eq hports hlt]
  exact hall l (List.mem_sublists.2 hsub) elder helder port (by rw [hdrop]; rfl)

/-- The last port that the frame comes back to. -/
theorem previous_of_zero {activePorts : BitVec 8} {l : List ℕ}
    (hports : ∀ i < 4, hasPort activePorts i = true ↔ i = 0 ∨ i ∈ l)
    (hsub : l.Sublist [3, 1, 2]) : getPreviousActivePort activePorts 0 = l.getLastD 0 := by
  have hall : ∀ l ∈ [3, 1, 2].sublists,
      (((reversePortOrder 0).take 3).find? fun i => decide (i = 0 ∨ i ∈ l)).getD 0 =
        l.getLastD 0 := by decide
  rw [getPreviousActivePort_eq hports (by decide)]
  exact hall l (List.mem_sublists.2 hsub)

end Branch

/-! ## The readings -/

/-- The readings are what the clocks show when the frame arrives, and no clock passes a multiple of
`2^31` while the frame is behind its slave. -/
structure Observed (ans : Latches) (offset : ℕ → ℕ) (tr : List Receipt) : Prop where
  reading : ∀ r ∈ tr, ∃ times, ans.first r.slave = some times ∧
    times r.port = BitVec.ofNat 32 (offset r.slave + r.time)
  half : ∀ r ∈ tr, ∀ r' ∈ tr, r.slave = r'.slave →
    (offset r.slave + r.time) / 2 ^ 31 = (offset r'.slave + r'.time) / 2 ^ 31

/-- Readings in one half of the range are compared, and subtracted, as the times are. -/
theorem not_lt_ofNat {x y : ℕ} (h : x / 2 ^ 31 = y / 2 ^ 31) (hle : y ≤ x) :
    ¬ BitVec.ofNat 32 x < BitVec.ofNat 32 y := by
  rw [BitVec.lt_def, BitVec.toNat_ofNat, BitVec.toNat_ofNat]
  omega

theorem toInt_ofNat_sub {x y : ℕ} (h : x / 2 ^ 31 = y / 2 ^ 31) :
    (BitVec.ofNat 32 x).toInt - (BitVec.ofNat 32 y).toInt = (x : ℤ) - y := by
  rw [BitVec.toInt_eq_toNat_cond, BitVec.toInt_eq_toNat_cond, BitVec.toNat_ofNat,
    BitVec.toNat_ofNat]
  split_ifs <;> omega

theorem toInt_sub_ofNat {x y : ℕ} (h : x / 2 ^ 31 = y / 2 ^ 31) :
    (BitVec.ofNat 32 x - BitVec.ofNat 32 y).toInt = (x : ℤ) - y := by
  rw [toInt_sub_eq, BitVec.toNat_ofNat, BitVec.toNat_ofNat]
  split_ifs <;> omega

namespace Branch

open DcMaster

variable {φ : Medium} {ans : Latches} {refDelay : BitVec 64 → ℤ} {duration : BitVec 64}
  {m : DcMaster} {offset : ℕ → ℕ} {tr : List Receipt}

/-- What a slave takes from its own readings. -/
theorem measured_reads (hentry : EntryZero ans m) (hobs : Observed ans offset tr) {s : ℕ}
    (hactive : (m.slaves s).active = true) {i t : ℕ} (hr : ⟨s, i, t⟩ ∈ tr) :
    ((m.slaves s).measured ans s).receiveTimes i = BitVec.ofNat 32 (offset s + t) := by
  obtain ⟨times, hfirst, htime⟩ := hobs.reading _ hr
  have hkeep : ((m.slaves s).measured ans s).receiveTimes =
      if ((m.slaves s).measured ans s).entryPort ≠ 0 ∧ (m.slaves s).type = 0x1200 then
        (ans.second s).getD ((ans.first s).getD (m.slaves s).receiveTimes)
      else (ans.first s).getD (m.slaves s).receiveTimes := rfl
  rw [hkeep, if_neg fun h => h.1 (hentry.measured hactive), hfirst]
  exact htime

/-- The time that the frame is behind it. -/
theorem measured_tDelayChilds (hentry : EntryZero ans m) (hobs : Observed ans offset tr) {s : ℕ}
    (hactive : (m.slaves s).active = true) {i t t' : ℕ}
    (hi : getPreviousActivePort (m.slaves s).activePorts 0 = i) (hr : ⟨s, i, t⟩ ∈ tr)
    (hr' : ⟨s, 0, t'⟩ ∈ tr) : ((m.slaves s).measured ans s).tDelayChilds = (t : ℤ) - t' := by
  have hval : ((m.slaves s).measured ans s).tDelayChilds =
      (((m.slaves s).measured ans s).receiveTimes (getPreviousActivePort (m.slaves s).activePorts
          ((m.slaves s).measured ans s).entryPort.toNat) -
        ((m.slaves s).measured ans s).receiveTimes
          ((m.slaves s).measured ans s).entryPort.toNat).toInt := rfl
  rw [hval, hentry.measured hactive, Int.toNat_zero, hi, measured_reads hentry hobs hactive hr,
    measured_reads hentry hobs hactive hr', toInt_sub_ofNat (hobs.half _ hr _ hr' rfl)]
  push_cast
  omega

/-- In the end a slave has port 0 as its entry port, and its readings. -/
theorem ecDcConfig_reads (refDelay : BitVec 64 → ℤ) (duration : BitVec 64)
    (hentry : EntryZero ans m) (hobs : Observed ans offset tr) {s : ℕ} (hlt : s < m.slaveCnt)
    (hactive : (m.slaves s).active = true) :
    ((ecDcConfig ans refDelay duration m).slaves s).entryPort = 0 ∧
    ∀ i t, ⟨s, i, t⟩ ∈ tr → ((ecDcConfig ans refDelay duration m).slaves s).receiveTimes i =
      BitVec.ofNat 32 (offset s + t) := by
  have hsensed := ecDcConfig_sensed ans refDelay duration hlt hactive
  simp only [DcSlave.sensed, Prod.mk.injEq] at hsensed
  obtain ⟨hport, htimes, -⟩ := hsensed
  exact ⟨hport.trans (hentry.measured hactive), fun i t hr =>
    (congrFun htimes i).trans (measured_reads hentry hobs hactive hr)⟩

/-- The delay of a slave from the readings of its parent at the port, `t`, and at the one before,
`tp`, and what is behind it. -/
theorem delays_pdelay {slv up : DcSlave} {port previous t tp t0 x : ℕ} {childs : ℤ}
    (hentry : slv.entryPort = 0) (hup : up.entryPort = 0) (hchilds : slv.tDelayChilds = childs)
    (hprevious : getPreviousActivePort up.activePorts port = previous)
    (ht : up.time port = BitVec.ofNat 32 (x + t))
    (htp : up.time previous = BitVec.ofNat 32 (x + tp))
    (ht0 : up.time (0 : ℕ) = BitVec.ofNat 32 (x + t0))
    (hhalf : (x + t) / 2 ^ 31 = (x + tp) / 2 ^ 31)
    (hhalf0 : (x + tp) / 2 ^ 31 = (x + t0) / 2 ^ 31) (hle : tp ≤ t) (hback : childs ≤ t - tp)
    (hshort : (t : ℤ) - tp - childs + tDiff < 2 ^ 31) :
    (slv.delays up port).pdelay =
      toInt32 (up.pdelay + (tp - t0) + ((t : ℤ) - tp - childs + tDiff).tdiv 2) := by
  have hwith : toInt32 (toInt32 ((up.time port).toInt - (up.time previous).toInt)).natAbs =
      t - tp := by
    have hlt : (t : ℤ) - tp < 2 ^ 31 := by omega
    rw [ht, htp, toInt_ofNat_sub hhalf, Nat.cast_add, Nat.cast_add, add_sub_add_left_eq_sub,
      toInt32_of_lt (by omega) hlt, Int.natAbs_of_nonneg (by omega),
      toInt32_of_lt (by omega) hlt]
  have hparent : (up.time previous - up.time up.entryPort).toInt = tp - t0 := by
    rw [hup, htp, show up.time 0 = _ from ht0, toInt_sub_ofNat hhalf0]
    push_cast
    omega
  have hown : (((toInt32 ((t : ℤ) - tp - childs + tDiff)).tdiv 2).natAbs : ℤ) =
      ((t : ℤ) - tp - childs + tDiff).tdiv 2 := by
    have hnonneg : 0 ≤ (t : ℤ) - tp - childs + tDiff :=
      add_nonneg (sub_nonneg.2 hback) (by decide)
    rw [toInt32_of_lt hnonneg hshort]
    exact Int.natAbs_of_nonneg (Int.tdiv_nonneg hnonneg (by decide))
  rw [DcSlave.delays]
  dsimp only
  rw [if_pos hentry, hprevious, hwith, hparent, hchilds, hown]

theorem lap_le_dwell (φ : Medium) (n : ℕ) (below : Branch) :
    lap φ true (n + 1) below ≤ dwell φ n below := by
  unfold dwell
  split_ifs with h
  · rw [h, lap]
    omega
  · omega

/-- Half of a round trip without what is behind the slave is the way to it, and 10 ns too much for
every slave that does not have both processing units on its way. -/
theorem round_trip (first : Bool) (a n : ℕ) (below : Branch) :
    (((a + φ.wait first + φ.cable n + dwell φ n below + φ.cable n : ℕ) : ℤ) - a -
      (((a + φ.wait first + φ.cable n + lap φ true (n + 1) below : ℕ) : ℤ) -
        (a + φ.wait first + φ.cable n : ℕ)) + tDiff).tdiv 2 =
      (φ.wait first + φ.cable n : ℕ) +
        10 * ((if first then 0 else 1) + (if below = nil then 1 else 0) : ℕ) := by
  have hwait : φ.wait true = φ.forward + 20 := rfl
  have hforward : φ.wait false = φ.forward := rfl
  have hlap := lap_le_dwell φ n below
  rw [Int.tdiv_eq_ediv_of_nonneg (by rw [tDiff]; omega), tDiff]
  by_cases hnil : below = nil
  · have hdwell : dwell φ n below = φ.wait true := if_pos hnil
    have hzero : lap φ true (n + 1) below = 0 := by rw [hnil, lap]
    rw [if_pos hnil, hdwell, hzero]
    cases first <;> simp only [hwait, hforward, if_true, Bool.false_eq_true, if_false] <;> omega
  · have hdwell : dwell φ n below = lap φ true (n + 1) below + φ.wait false := if_neg hnil
    rw [if_neg hnil, hdwell]
    cases first <;> simp only [hwait, hforward, if_true, Bool.false_eq_true, if_false] <;> omega

/-- It fits a signed number of 32 bits. -/
theorem lt_of_round_trip {x : ℤ} {first : Bool} {n : ℕ} {below : Branch}
    (h : x.tdiv 2 = (φ.wait first + φ.cable n : ℕ) +
      10 * ((if first then 0 else 1) + (if below = nil then 1 else 0) : ℕ)) : x < 2 ^ 31 := by
  have hshort := φ.short n
  have hwait : φ.wait first ≤ φ.forward + 20 := by
    cases first
    · exact Nat.le_add_right _ _
    · exact le_rfl
  have hsurplus : (if first then 0 else 1) + (if below = nil then 1 else 0) ≤ 2 := by
    split_ifs <;> decide
  by_contra hlt
  rw [Int.tdiv_eq_ediv_of_nonneg (by omega)] at h
  generalize (if first then 0 else 1) + (if below = nil then 1 else 0) = k at *
  omega

/-- **A step down.** From the delay of the parent that of the first slave behind its next port. -/
theorem pdelay_slave {n p port time tp elder above : ℕ} {base : ℤ} {below rest : Branch}
    {l : List ℕ} (hentry : EntryZero ans m) (hobs : Observed ans offset tr) (hp : p < n)
    (hsize : n < m.slaveCnt) (hpactive : (m.slaves p).active = true)
    (hactive : (m.slaves n).active = true) (hparent : (m.slaves n).parent = p)
    (hports : ∀ i < 4, hasPort (m.slaves p).activePorts i = true ↔ i = 0 ∨ i ∈ l)
    (hsub : l.Sublist [3, 1, 2]) (hdrop : l.drop elder = port :: rest.ports)
    (hown : ∀ i < 4, hasPort (m.slaves n).activePorts i = true ↔ i = 0 ∨ i ∈ below.ports)
    (hownsub : below.ports.Sublist [3, 1, 2])
    (hright : ((ecDcConfig ans refDelay duration m).slaves n).portOnParent = port)
    (hprev : ⟨p, (l.take elder).getLastD 0, time⟩ ∈ tr) (hzero : ⟨p, 0, tp⟩ ∈ tr)
    (htr : receipts φ n p time (decide (elder = 0)) (slave port true below rest) ⊆ tr)
    (hpdelay : toInt32 ((ecDcConfig ans refDelay duration m).slaves p).pdelay =
      toInt32 (base + tp + 10 * above)) :
    ((ecDcConfig ans refDelay duration m).slaves n).pdelay =
      toInt32 (base + (time + φ.wait (decide (elder = 0)) + φ.cable n : ℕ) +
        10 * (above + (if elder = 0 then 0 else 1) + (if below = nil then 1 else 0) : ℕ)) := by
  have hof : m.parentOf n = p := by
    obtain ⟨k, rfl⟩ : ∃ k, n = k + 1 := ⟨n - 1, by omega⟩
    rw [parentOf, hparent, dcParent, if_neg (by omega), Int.toNat_natCast, if_pos hpactive]
  have hbelow := ecDcConfig_below ans refDelay duration hsize hactive hof hp
  have htaken : ((before ans refDelay duration m n).1.slaves p).taken.1 = port := by
    have hport := DcSlave.eq_of_own DcSlave.portOnParent hbelow fun _ => rfl
    rw [DcSlave.delays_portOnParent, hright] at hport
    exact (Int.ofNat.inj hport).symm
  obtain ⟨hup, htimes⟩ := ecDcConfig_reads refDelay duration hentry hobs (by omega) hpactive
  have hprevious : getPreviousActivePort
      ((ecDcConfig ans refDelay duration m).slaves p).activePorts port =
        (l.take elder).getLastD 0 := by
    rw [(DcSlave.wiring_eq.1 (ecDcConfig_wiring ans refDelay duration m p)).2.2.1]
    exact previous_of_drop hports hsub hdrop
  -- The receipts at the slave, and the one at the parent when the frame comes back.
  have hnow : ⟨n, 0, time + φ.wait (decide (elder = 0)) + φ.cable n⟩ ∈ tr :=
    htr (by rw [receipts]; exact List.mem_cons_self)
  have hback : ⟨p, port, time + φ.wait (decide (elder = 0)) + φ.cable n + dwell φ n below +
      φ.cable n⟩ ∈ tr := htr (by rw [receipts]; simp)
  have hlast := last_receipt φ (n + 1) n (time + φ.wait (decide (elder = 0)) + φ.cable n) true
    below 0
  have hlast : ⟨n, below.ports.getLastD 0, time + φ.wait (decide (elder = 0)) + φ.cable n +
      lap φ true (n + 1) below⟩ ∈ tr := by
    obtain heq | hmem := List.mem_cons.1 hlast
    · rw [heq]
      exact hnow
    · exact htr (by rw [receipts]; exact List.mem_cons_of_mem _ (List.mem_append_left _ hmem))
  have hchilds := measured_tDelayChilds hentry hobs hactive (previous_of_zero hown hownsub) hlast
    hnow
  have htrip := round_trip (φ := φ) (decide (elder = 0)) time n below
  have hdelay := delays_pdelay (hentry.measured hactive) hup hchilds hprevious (htimes _ _ hback)
    (htimes _ _ hprev) (htimes _ _ hzero) (hobs.half _ hback _ hprev rfl)
    (hobs.half _ hprev _ hzero rfl) (by omega)
    (by have := lap_le_dwell φ n below; push_cast; omega) (lt_of_round_trip htrip)
  rw [DcSlave.eq_of_own DcSlave.pdelay hbelow fun _ => rfl, htaken, hdelay, htrip, add_assoc,
    toInt32_add_congr hpdelay]
  simp only [decide_eq_true_eq]
  refine congrArg toInt32 ?_
  push_cast
  omega

theorem take_succ_getLastD {l left : List ℕ} {port elder : ℕ}
    (hdrop : l.drop elder = port :: left) : (l.take (elder + 1)).getLastD 0 = port := by
  have hget : l[elder]? = some port := by rw [← List.head?_drop, hdrop, List.head?_cons]
  rw [List.take_add_one, hget, List.getLastD_eq_getLast?]
  simp

/-- **The delays of a branch**, from the one of the slave above it: `above` is its surplus, and
`elder` are the slaves at its ports before. -/
theorem pdelay_branch (elder above : ℕ) (base : ℤ) {f : Branch} {n p time tp : ℕ} {l : List ℕ}
    (hentry : EntryZero ans m) (hobs : Observed ans offset tr) (hwired : Wired m n p f)
    (hported : f.Ported) (hall : f.AllActive)
    (hright : PortsRight (ecDcConfig ans refDelay duration m) n true f) (hp : p < n)
    (hsize : n + f.size ≤ m.slaveCnt) (hpactive : (m.slaves p).active = true)
    (hports : ∀ i < 4, hasPort (m.slaves p).activePorts i = true ↔ i = 0 ∨ i ∈ l)
    (hsub : l.Sublist [3, 1, 2]) (hdrop : l.drop elder = f.ports)
    (hprev : ⟨p, (l.take elder).getLastD 0, time⟩ ∈ tr) (hzero : ⟨p, 0, tp⟩ ∈ tr)
    (htr : receipts φ n p time (decide (elder = 0)) f ⊆ tr)
    (hpdelay : toInt32 ((ecDcConfig ans refDelay duration m).slaves p).pdelay =
      toInt32 (base + tp + 10 * above)) {s : ℕ} (hn : n ≤ s) (hs : s < n + f.size) :
    ∃ t : ℕ, ⟨s, 0, t⟩ ∈ receipts φ n p time (decide (elder = 0)) f ∧
      ((ecDcConfig ans refDelay duration m).slaves s).pdelay =
        toInt32 (base + t + 10 * surplus n above (decide (elder = 0)) f s) := by
  induction f generalizing n p time tp elder above l with
  | nil => exact absurd hs (by rw [size]; omega)
  | slave port dc below rest ihb ihr =>
    obtain ⟨⟨hparent, hactive, hown⟩, hwbelow, hwrest⟩ := hwired
    obtain ⟨hownsub, hpbelow, hprest⟩ := hported
    obtain ⟨rfl, habelow, harest⟩ := hall
    obtain ⟨hrport, hrbelow, hrrest⟩ := hright
    rw [size] at hsize hs
    have hslave := pdelay_slave hentry hobs hp (by omega) hpactive hactive hparent hports hsub
      hdrop hown hownsub (hrport rfl rfl) hprev hzero htr hpdelay
    rw [receipts] at htr ⊢
    rw [surplus]
    simp only [decide_eq_true_eq]
    have hnow := htr List.mem_cons_self
    by_cases heq : s = n
    · subst heq
      exact ⟨_, List.mem_cons_self, by rw [if_pos rfl, hslave]⟩
    · rw [if_neg heq]
      by_cases hin : s < n + 1 + below.size
      · -- The slave is behind the first one, which has others behind it.
        have hne : below ≠ nil := fun h => by
          rw [h, size] at hin
          omega
        rw [if_neg hne] at hslave
        replace hslave := congrArg toInt32 hslave
        rw [toInt32_toInt32] at hslave
        obtain ⟨t, ht, hdelay⟩ := ihb 0 _ hwbelow hpbelow habelow hrbelow (by omega) (by omega)
          hactive hown hownsub List.drop_zero hnow hnow
          (fun r hr => htr (List.mem_cons_of_mem _ (List.mem_append_left _ hr))) hslave
          (by omega) hin
        rw [if_pos hin]
        exact ⟨t, List.mem_cons_of_mem _ (List.mem_append_left _ ht), hdelay⟩
      · have hback := htr (List.mem_cons_of_mem _ (List.mem_append_right _ List.mem_cons_self))
        obtain ⟨t, ht, hdelay⟩ := ihr (elder + 1) above hwrest hprest harest hrrest (by omega)
          (by omega) hpactive hports hsub (by rw [← List.drop_drop, hdrop]; rfl)
          (by rw [take_succ_getLastD hdrop]; exact hback) hzero
          (fun r hr => htr (List.mem_cons_of_mem _ (List.mem_append_right _
            (List.mem_cons_of_mem _ hr)))) hpdelay (by omega) (by omega)
        rw [if_neg hin]
        exact ⟨t, List.mem_cons_of_mem _ (List.mem_append_right _ (List.mem_cons_of_mem _ ht)),
          hdelay⟩

/-! ## The bus -/

/-- The readings have port 0 as the entry port of every slave. -/
theorem entryZero_of_observed {below : Branch} {start : ℕ}
    (hobs : Observed ans offset (busReceipts φ start below))
    (hwired : Wired m 0 (-1) (bus true below)) (hcnt : m.slaveCnt = (bus true below).size)
    (hknown : ∀ s, (m.slaves s).active = true → s < m.slaveCnt) : EntryZero ans m := by
  intro s hactive
  have hlt := hknown s hactive
  obtain ⟨t, ht, hzero, hopen⟩ : ∃ t, ⟨s, 0, t⟩ ∈ busReceipts φ start below ∧
      hasPort (m.slaves s).activePorts 0 = true ∧
      ∀ i < 4, hasPort (m.slaves s).activePorts i = true →
        ∃ t', t ≤ t' ∧ ⟨s, i, t'⟩ ∈ busReceipts φ start below := by
    obtain ⟨⟨-, -, hown⟩, hwbelow, -⟩ := hwired
    rw [hcnt, bus, size, size] at hlt
    by_cases heq : s = 0
    · subst heq
      refine ⟨start, List.mem_cons_self, (hown 0 (by decide)).2 (.inl rfl), fun i hi hport => ?_⟩
      obtain rfl | hmem := (hown i hi).1 hport
      · exact ⟨start, le_rfl, List.mem_cons_self⟩
      · obtain ⟨t', hle, ht'⟩ := exists_back φ 1 0 start true hmem
        exact ⟨t', hle, List.mem_cons_of_mem _ ht'⟩
    · obtain ⟨t, ht, hzero, hopen⟩ := exists_receipts φ start true hwbelow
        (show 1 ≤ s by omega) (by omega)
      refine ⟨t, List.mem_cons_of_mem _ ht, hzero, fun i hi hport => ?_⟩
      obtain ⟨t', hle, ht'⟩ := hopen i hi hport
      exact ⟨t', hle, List.mem_cons_of_mem _ ht'⟩
  refine ⟨hzero, fun i hi hport => ?_⟩
  obtain ⟨t', hle, ht'⟩ := hopen i hi hport
  obtain ⟨times, hfirst, htime⟩ := hobs.reading _ ht
  obtain ⟨times', hfirst', htime'⟩ := hobs.reading _ ht'
  obtain rfl : times = times' := Option.some.inj (hfirst.symm.trans hfirst')
  rw [show ans.first s = some times from hfirst, Option.getD_some,
    show times i = _ from htime', show times 0 = _ from htime]
  exact not_lt_ofNat (hobs.half _ ht' _ ht rfl) (by dsimp only; omega)

/-- **The propagation delays.** -/
theorem ecDcConfig_pdelay {below : Branch} {start : ℕ} (hall : (bus true below).AllActive)
    (hported : (bus true below).Ported) (hwired : Wired m 0 (-1) (bus true below))
    (hcnt : m.slaveCnt = (bus true below).size)
    (hknown : ∀ s, (m.slaves s).active = true → s < m.slaveCnt)
    (hobs : Observed ans offset (busReceipts φ start below)) {s : ℕ} (hs : 0 < s)
    (hlt : s < m.slaveCnt) :
    ∃ t : ℕ, ⟨s, 0, t⟩ ∈ busReceipts φ start below ∧
      ((ecDcConfig ans refDelay duration m).slaves s).pdelay =
        toInt32 (((ecDcConfig ans refDelay duration m).slaves 0).pdelay + ((t : ℤ) - start) +
          10 * surplus 1 0 true below s) := by
  have hentry := entryZero_of_observed hobs hwired hcnt hknown
  have hmaster : ∀ a : ℕ, (-1 : ℤ) = a → a < 0 ∧ (m.slaves a).active = true ∧
      freeBefore ans refDelay duration m 0 a = [] := fun a ha => by omega
  have htakes := takes_of_wired hentry hwired hported walksTo_master (by decide) hmaster (by omega)
  have hright : PortsRight (ecDcConfig ans refDelay duration m) 0 false (bus true below) :=
    (portsRight_iff hported htakes.1 fun h => absurd h Bool.false_ne_true).2
      (aligned_of_allActive false 0 hall)
  obtain ⟨⟨-, hactive, hown⟩, hwbelow, -⟩ := hwired
  rw [bus, size, size] at hcnt
  obtain ⟨t, ht, hdelay⟩ := pdelay_branch 0 0
    (((ecDcConfig ans refDelay duration m).slaves 0).pdelay - start) hentry hobs hwbelow
    hported.2.1 hall.2.1 hright.2.1 (by decide) (by omega) hactive hown hported.1 List.drop_zero
    List.mem_cons_self List.mem_cons_self (List.subset_cons_self _ _)
    (congrArg toInt32 (by push_cast; omega)) hs (by omega)
  refine ⟨t, List.mem_cons_of_mem _ ht, hdelay.trans (congrArg toInt32 ?_)⟩
  show _ - _ + _ + 10 * (surplus 1 0 true below s : ℤ) = _
  omega

/-- The readings of clocks that start with the frame. -/
def readings (tr : List Receipt) : Latches :=
  ⟨fun s => some fun i => BitVec.ofNat 32
    (((tr.find? fun r => decide (r.slave = s ∧ r.port = i)).map Receipt.time).getD 0),
    fun _ => none⟩

/-- A slave with two others, at its ports 3 and 1, and no more in the table. -/
def forkMaster : DcMaster :=
  ⟨fun s => hubSlave s (decide (s < 3)), 3, .refClock, false, false, 0, 0, 0, 0⟩

def forkMedium : Medium := ⟨100, fun s => 50 * (s % 3), fun _ => by omega⟩

def forkReceipts : List Receipt :=
  busReceipts forkMedium 1000 (slave 3 true nil (slave 1 true nil nil))

theorem observed_fork : Observed (readings forkReceipts) (fun _ => 0) forkReceipts :=
  ⟨fun _ hr => ⟨_, rfl, (show ∀ r ∈ forkReceipts, BitVec.ofNat 32 (((forkReceipts.find? fun r' =>
    decide (r'.slave = r.slave ∧ r'.port = r.port)).map Receipt.time).getD 0) =
      BitVec.ofNat 32 (0 + r.time) by decide) _ hr⟩, by decide⟩

/-- The second one is neither the first behind its parent nor has it others behind it. -/
theorem ecDcConfig_pdelay_fork :
    ∃ t : ℕ, ⟨2, 0, t⟩ ∈ forkReceipts ∧
      ((ecDcConfig (readings forkReceipts) (fun _ => 0) 0 forkMaster).slaves 2).pdelay =
        toInt32 (((ecDcConfig (readings forkReceipts) (fun _ => 0) 0 forkMaster).slaves 0).pdelay +
          ((t : ℤ) - 1000) + 10 * 2) :=
  ecDcConfig_pdelay
    (show (hub true true).AllActive from ⟨rfl, ⟨rfl, trivial, rfl, trivial, trivial⟩, trivial⟩)
    (ported_hub true true)
    ⟨by decide, ⟨by decide, trivial, by decide, trivial, trivial⟩, trivial⟩ rfl
    (fun s h => by
      by_contra hc
      replace hc : ¬ s < 3 := hc
      have hno : (hubSlave s (decide (s < 3))).active = false := by
        rw [decide_eq_false hc]
        rfl
      exact absurd (h.symm.trans hno) Bool.noConfusion)
    observed_fork (by decide) (by decide)

end Branch

end LibEthercat.Dc
