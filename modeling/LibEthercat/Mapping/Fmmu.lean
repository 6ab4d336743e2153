import LibEthercat.Lib.BitOverlay
import LibEthercat.Lib.Carrier
import LibEthercat.ProcessData

/-!
# What the FMMUs of a bus do

A datagram with a logical address passes every slave. An FMMU of the slave shows a range of logical
bits at a range of bits of its memory: those that may be read go into the datagram, those that may
be written come out of it, and the working counter says whether there was any. With an LRW the
slave reads what has been there before.

* `shows_byte`, `shows_none`, `takes_byte`, `takes_none` — a slave, byte by byte.
* `goRound_mem`, `goRound_payload` — what a datagram brings to a slave and takes with it, where the
  others leave it alone.
-/

namespace LibEthercat

open BitOverlay

/-! ## FMMUs -/

namespace EcSlaveFmmu

variable (f : EcSlaveFmmu)

def isOn : Bool := f.active == 1 && f.logLen != 0

def reads : Bool := f.type &&& 1 != 0

def writes : Bool := f.type &&& 2 != 0

/-- The first logical bit. -/
def logBit : ℕ := 8 * f.log + f.logBitStart.toNat

def physBit : ℕ := 8 * f.phys.toNat + f.physBitStart.toNat

/-- How many bits there are; the stop bit is one of the last byte. -/
def bits : ℕ := 8 * (f.logLen.toNat - 1) + f.logBitStop.toNat + 1 - f.logBitStart.toNat

/-- The physical bit of a logical one. -/
def toPhys (l : ℕ) : Option ℕ :=
  if f.isOn ∧ f.logBit ≤ l ∧ l < f.logBit + f.bits then some (f.physBit + (l - f.logBit))
  else none

/-- The logical bit of a physical one. -/
def toLog (b : ℕ) : Option ℕ :=
  if f.isOn ∧ f.physBit ≤ b ∧ b < f.physBit + f.bits then some (f.logBit + (b - f.physBit))
  else none

end EcSlaveFmmu

/-! ## Slaves -/

/-- A slave with its memory. -/
structure Station where
  slave : EcSlave
  mem : ℕ → UInt8

def PdDatagram.isRead (dg : PdDatagram) : Bool := dg.cmd == ecCmdLrd || dg.cmd == ecCmdLrw

def PdDatagram.isWrite (dg : PdDatagram) : Bool := dg.cmd == ecCmdLwr || dg.cmd == ecCmdLrw

/-- Byte `a` of the logical memory is in the datagram. -/
def PdDatagram.Has (dg : PdDatagram) (a : ℕ) : Prop := dg.adr ≤ a ∧ a < dg.adr + dg.len

instance (dg : PdDatagram) (a : ℕ) : Decidable (dg.Has a) := inferInstanceAs (Decidable (_ ∧ _))

namespace Station

variable (s : Station) (dg : PdDatagram)

/-- What the slave puts at bit `i` of the payload. -/
def shows (i : ℕ) : Option Bool :=
  if dg.isRead ∧ i < 8 * dg.len then
    s.slave.fmmu.findSome? fun f =>
      if f.reads then (f.toPhys (8 * dg.adr + i)).map (bitAt s.mem) else none
  else none

/-- What bit `b` of the memory becomes. -/
def takes (payload : ℕ → UInt8) (b : ℕ) : Option Bool :=
  if dg.isWrite then
    s.slave.fmmu.findSome? fun f =>
      if f.writes then
        ((f.toLog b).filter fun l => dg.Has (l / 8)).map fun l => bitAt payload (l - 8 * dg.adr)
      else none
  else none

/-- An FMMU with a byte of the datagram. -/
def meets (f : EcSlaveFmmu) : Bool :=
  f.isOn && decide (0 < dg.len ∧ f.log < dg.adr + dg.len ∧ dg.adr < f.log + f.logLen.toNat)

def counts : ℕ :=
  (if dg.isWrite ∧ s.slave.fmmu.any fun f => f.writes && meets dg f then
    if dg.isRead then 2 else 1 else 0) +
  if dg.isRead ∧ s.slave.fmmu.any fun f => f.reads && meets dg f then 1 else 0

/-- A datagram passes, with payload and working counter. -/
def pass (t : (ℕ → UInt8) × ℕ) (s : Station) : ((ℕ → UInt8) × ℕ) × Station :=
  ((overlay t.1 (s.shows dg), t.2 + s.counts dg),
    { s with mem := overlay s.mem (s.takes dg t.1) })

end Station

/-- The datagram goes round. -/
def PdDatagram.goRound (dg : PdDatagram) (bus : List Station) :
    ((ℕ → UInt8) × ℕ) × List Station :=
  Loop.thread (Station.pass dg) (dg.payload, 0) bus

/-! ## Byte by byte -/

namespace EcSlaveFmmu

/-- An FMMU of whole bytes. -/
structure ByteWise (f : EcSlaveFmmu) : Prop where
  on : f.isOn = true
  logBitStart : f.logBitStart = 0
  logBitStop : f.logBitStop = 7
  physBitStart : f.physBitStart = 0

/-- The FMMU has bits of this logical byte, if any. -/
def Covers (f : EcSlaveFmmu) (a : ℕ) : Prop := f.log ≤ a ∧ a < f.log + f.logLen.toNat

/-- The same for a byte of the memory and an FMMU of whole bytes. -/
def CoversPhys (f : EcSlaveFmmu) (y : ℕ) : Prop :=
  f.phys.toNat ≤ y ∧ y < f.phys.toNat + f.logLen.toNat

variable {f : EcSlaveFmmu} {a y k : ℕ}

theorem logLen_pos (h : f.isOn = true) : 0 < f.logLen.toNat := by
  rw [isOn, Bool.and_eq_true, bne_iff_ne] at h
  exact Nat.pos_of_ne_zero fun h0 => h.2 (UInt16.toNat_inj.1 h0)

theorem ByteWise.first (h : f.ByteWise) :
    f.logBit = 8 * f.log ∧ f.physBit = 8 * f.phys.toNat ∧ f.bits = 8 * f.logLen.toNat := by
  have hpos := logLen_pos h.on
  rw [logBit, physBit, bits, h.logBitStart, h.logBitStop, h.physBitStart]
  exact ⟨rfl, rfl, by simp; omega⟩

theorem ByteWise.toPhys (h : f.ByteWise) (ha : f.Covers a) (hk : k < 8) :
    f.toPhys (8 * a + k) = some (8 * (f.phys.toNat + (a - f.log)) + k) := by
  obtain ⟨hlog, hphys, hbits⟩ := h.first
  obtain ⟨hle, hlt⟩ := ha
  rw [EcSlaveFmmu.toPhys, hlog, hphys, hbits, if_pos ⟨h.on, by omega, by omega⟩]
  congr 1
  omega

theorem ByteWise.toLog (h : f.ByteWise) (hy : f.CoversPhys y) (hk : k < 8) :
    f.toLog (8 * y + k) = some (8 * (f.log + (y - f.phys.toNat)) + k) := by
  obtain ⟨hlog, hphys, hbits⟩ := h.first
  obtain ⟨hle, hlt⟩ := hy
  rw [EcSlaveFmmu.toLog, hlog, hphys, hbits, if_pos ⟨h.on, by omega, by omega⟩]
  congr 1
  omega

theorem ByteWise.toLog_none (h : f.ByteWise) (hy : ¬ f.CoversPhys y) (hk : k < 8) :
    f.toLog (8 * y + k) = none := by
  obtain ⟨hlog, hphys, hbits⟩ := h.first
  rw [EcSlaveFmmu.toLog, hphys, hbits, if_neg]
  rintro ⟨-, h1, h2⟩
  exact hy ⟨by omega, by omega⟩

/-- No FMMU reaches beyond the bytes of its length. -/
theorem toPhys_none (hstop : f.logBitStop.toNat < 8) (ha : f.isOn = true → ¬ f.Covers a)
    (hk : k < 8) : f.toPhys (8 * a + k) = none := by
  rw [EcSlaveFmmu.toPhys, if_neg]
  rintro ⟨hon, h1, h2⟩
  have hpos := logLen_pos hon
  rw [logBit] at h1
  rw [logBit, bits] at h2
  exact ha hon ⟨by omega, by omega⟩

end EcSlaveFmmu

/-- The first that gives a value, if all that give one give the same. -/
theorem findSome?_eq {α β : Type*} {g : α → Option β} {as : List α} {x : α} {v : β} (hx : x ∈ as)
    (hg : g x = some v) (hother : ∀ y ∈ as, y ≠ x → g y = none) : as.findSome? g = some v := by
  induction as with
  | nil => exact absurd hx List.not_mem_nil
  | cons y as ih =>
    rw [List.findSome?_cons]
    by_cases hyx : y = x
    · rw [hyx, hg]
    · rw [hother y List.mem_cons_self hyx]
      exact ih ((List.mem_cons.1 hx).resolve_left (Ne.symm hyx)) fun z hz =>
        hother z (List.mem_cons_of_mem y hz)

namespace Station

variable {s : Station} {dg : PdDatagram} {payload : ℕ → UInt8} {f : EcSlaveFmmu} {a y k : ℕ}

/-- Every FMMU stops inside its last byte. -/
def Stops (s : Station) : Prop := ∀ f ∈ s.slave.fmmu, f.logBitStop.toNat < 8

theorem shows_none (hs : s.Stops)
    (hcov : ∀ g ∈ s.slave.fmmu, g.reads = true → g.isOn = true → ¬ g.Covers (dg.adr + a))
    (hk : k < 8) : s.shows dg (8 * a + k) = none := by
  rw [shows]
  refine ite_eq_right_iff.2 fun _ => List.findSome?_eq_none_iff.2 fun g hg => ?_
  split_ifs with hread
  · rw [← Nat.add_assoc, ← Nat.mul_add, EcSlaveFmmu.toPhys_none (hs g hg) (hcov g hg hread) hk]
    rfl
  · rfl

theorem shows_byte (hs : s.Stops) (hread : dg.isRead = true) (ha : a < dg.len)
    (hf : f ∈ s.slave.fmmu) (hfr : f.reads = true) (hbw : f.ByteWise) (hcov : f.Covers (dg.adr + a))
    (hother : ∀ g ∈ s.slave.fmmu, g ≠ f → g.reads = true → g.isOn = true → ¬ g.Covers (dg.adr + a))
    (hk : k < 8) :
    s.shows dg (8 * a + k) =
      some (bitAt s.mem (8 * (f.phys.toNat + (dg.adr + a - f.log)) + k)) := by
  rw [shows, if_pos ⟨hread, by omega⟩, ← Nat.add_assoc, ← Nat.mul_add]
  refine findSome?_eq hf ?_ fun g hg hne => ?_
  · rw [if_pos hfr, hbw.toPhys hcov hk]
    rfl
  · split_ifs with hgr
    · rw [EcSlaveFmmu.toPhys_none (hs g hg) (hother g hg hne hgr) hk]
      rfl
    · rfl

theorem takes_none
    (hbw : ∀ g ∈ s.slave.fmmu, g.writes = true → g.isOn = true → g.ByteWise)
    (hcov : ∀ g ∈ s.slave.fmmu, g.writes = true → g.isOn = true → g.CoversPhys y →
      ¬ dg.Has (g.log + (y - g.phys.toNat)))
    (hk : k < 8) : s.takes dg payload (8 * y + k) = none := by
  rw [takes]
  refine ite_eq_right_iff.2 fun _ => List.findSome?_eq_none_iff.2 fun g hg => ?_
  split_ifs with hw
  · by_cases hon : g.isOn = true
    · by_cases hy : g.CoversPhys y
      · have hhas := hcov g hg hw hon hy
        rw [(hbw g hg hw hon).toLog hy hk]
        have hdiv : (8 * (g.log + (y - g.phys.toNat)) + k) / 8 = g.log + (y - g.phys.toNat) := by
          omega
        rw [Option.filter_some, hdiv, if_neg (by simpa using hhas)]
        rfl
      · rw [(hbw g hg hw hon).toLog_none hy hk]
        rfl
    · have hoff : g.toLog (8 * y + k) = none := if_neg fun h => hon h.1
      rw [hoff]
      rfl
  · rfl

theorem takes_byte (hwrite : dg.isWrite = true)
    (hbw : ∀ g ∈ s.slave.fmmu, g.writes = true → g.isOn = true → g.ByteWise)
    (hf : f ∈ s.slave.fmmu) (hfw : f.writes = true) (hon : f.isOn = true) (hcov : f.CoversPhys y)
    (hhas : dg.Has (f.log + (y - f.phys.toNat)))
    (hother : ∀ g ∈ s.slave.fmmu, g ≠ f → g.writes = true → g.isOn = true → ¬ g.CoversPhys y)
    (hk : k < 8) :
    s.takes dg payload (8 * y + k) =
      some (bitAt payload (8 * (f.log + (y - f.phys.toNat) - dg.adr) + k)) := by
  rw [takes, if_pos hwrite]
  refine findSome?_eq hf ?_ fun g hg hne => ?_
  · have hdiv : (8 * (f.log + (y - f.phys.toNat)) + k) / 8 = f.log + (y - f.phys.toNat) := by omega
    rw [if_pos hfw, (hbw f hf hfw hon).toLog hcov hk, Option.filter_some, hdiv,
      if_pos (by simpa using hhas), Option.map_some]
    congr 2
    have := hhas.1
    omega
  · split_ifs with hgw
    · by_cases hgon : g.isOn = true
      · rw [(hbw g hg hgw hgon).toLog_none (hother g hg hne hgw hgon) hk]
        rfl
      · have hoff : g.toLog (8 * y + k) = none := if_neg fun h => hgon h.1
        rw [hoff]
        rfl
    · rfl

/-- The slave leaves a byte of the payload alone. -/
def Leaves (dg : PdDatagram) (s : Station) (a : ℕ) : Prop :=
  s.Stops ∧ ∀ g ∈ s.slave.fmmu, g.reads = true → g.isOn = true → ¬ g.Covers (dg.adr + a)

theorem pass_leaves (t : (ℕ → UInt8) × ℕ) (s : Station) (a : ℕ) (h : s.Leaves dg a) :
    (pass dg t s).1.1 a = t.1 a :=
  overlay_of_none fun _ hk => shows_none h.1 h.2 hk

end Station

/-! ## The way round -/

namespace PdDatagram

open Station

variable {dg : PdDatagram} {bus : List Station} {f : EcSlaveFmmu} {i a y : ℕ}

theorem goRound_getElem (hi : i < bus.length) :
    (dg.goRound bus).2[i]? =
      some (pass dg (Carrier.before (pass dg) (dg.payload, 0) bus i) bus[i]).2 :=
  Carrier.thread_getElem hi

theorem goRound_length : (dg.goRound bus).2.length = bus.length := Carrier.length_thread

/-- **A byte that is written.** -/
theorem goRound_mem (hi : i < bus.length)
    (hothers : ∀ j (hj : j < bus.length), j ≠ i →
      bus[j].Leaves dg (f.log + (y - f.phys.toNat) - dg.adr))
    (htakes : ∀ payload, ∀ k < 8, bus[i].takes dg payload (8 * y + k) =
      some (bitAt payload (8 * (f.log + (y - f.phys.toNat) - dg.adr) + k))) :
    ∀ s' ∈ (dg.goRound bus).2[i]?, s'.mem y = dg.payload (f.log + (y - f.phys.toNat) - dg.adr) := by
  intro s' hs'
  rw [goRound_getElem hi, Option.mem_some_iff] at hs'
  rw [← hs']
  refine (overlay_of_bits (htakes _)).trans ?_
  exact Carrier.thread_arrives Prod.fst pass_leaves hothers

/-- A byte that is not written. -/
theorem goRound_mem_of_none (hi : i < bus.length)
    (htakes : ∀ payload, ∀ k < 8, bus[i].takes dg payload (8 * y + k) = none) :
    ∀ s' ∈ (dg.goRound bus).2[i]?, s'.mem y = bus[i].mem y := by
  intro s' hs'
  rw [goRound_getElem hi, Option.mem_some_iff] at hs'
  rw [← hs']
  exact overlay_of_none (htakes _)

/-- **A byte that is read.** -/
theorem goRound_payload (hi : i < bus.length)
    (hothers : ∀ j (hj : j < bus.length), j ≠ i → bus[j].Leaves dg a)
    (hshows : ∀ k < 8, bus[i].shows dg (8 * a + k) = some (bitAt bus[i].mem (8 * y + k))) :
    (dg.goRound bus).1.1 a = bus[i].mem y :=
  (Carrier.thread_leaves Prod.fst pass_leaves hi hothers).trans (overlay_of_bits hshows)

/-- The working counter. -/
theorem goRound_wkc : (dg.goRound bus).1.2 = (bus.map fun s => s.counts dg).sum := by
  rw [goRound, Loop.thread_pos_eq Prod.snd (g := fun s => s.counts dg) fun _ _ => rfl, Nat.zero_add]

theorem goRound_slave (hi : i < bus.length) :
    ∀ s' ∈ (dg.goRound bus).2[i]?, s'.slave = bus[i].slave := by
  intro s' hs'
  rw [goRound_getElem hi, Option.mem_some_iff] at hs'
  rw [← hs']
  rfl

end PdDatagram

end LibEthercat
