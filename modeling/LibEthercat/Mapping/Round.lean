import Mathlib.Data.List.Pairwise
import LibEthercat.Mapping.Bounds
import LibEthercat.Mapping.Wired

/-!
# A datagram of a group goes round

The FMMUs of a group are those of its mapping, and all others are at other addresses. Then a
datagram brings every slave of the group the bytes of its outputs, takes those of its inputs, and
does nothing to the other slaves.

* `BusWired.passed` — what happens to a slave.
* `view_outputs`, `view_inputs` — the bytes of a slave in its memory, and in the image of the group.
-/

namespace LibEthercat

open BitOverlay

/-! ## The bus -/

/-- The memory of a sync manager. -/
def EcSlaveSm.area (sm : EcSlaveSm) : Set ℕ := Set.Ico sm.adr.toNat (sm.adr.toNat + sm.len.toNat)

/-- No FMMU of the slave is at an address of the group. -/
def EcSlave.Foreign (pd : EcPdGroup) (slv : EcSlave) : Prop := ∀ f ∈ slv.fmmu,
  f.logBitStop.toNat < 8 ∧ (f.writes = true → f.isOn = true → f.ByteWise) ∧
    (f.isOn = true → ∀ a, pd.log ≤ a → a < pd.log + pd.logLen → ¬ f.Covers a)

/-- The bus around a group. -/
structure BusWired (group : ℕ) (pd : EcPdGroup) (slaves : List EcSlave) : Prop
    extends GroupWired group pd slaves where
  far : pd.log + pd.logLen ≤ pd.logMbxState
  foreign : ∀ slv ∈ slaves, slv.inGroup group = false → slv.Foreign pd
  areas : ∀ slv ∈ slaves.filter (EcSlave.inGroup group),
    slv.sites.Pairwise fun sm sm' => Disjoint sm.area sm'.area

/-! ## A slave of the group -/

section
variable {slv : EcSlave} {logMbxState : ℕ} {f g : EcSlaveFmmu}

theorem mem_fmmu_iff : f ∈ slv.fmmu ↔ f ∈ slv.pdFmmus ∨ f ∈ slv.otherFmmus := by
  rw [pdFmmus_eq, EcSlave.otherFmmus, ← List.mem_append, List.take_append_drop]

theorem EcSlave.Wired.exists_site (h : slv.Wired logMbxState) (hf : f ∈ slv.pdFmmus) :
    ∃ sm ∈ slv.sites, f.Serves sm := by
  obtain ⟨i, hi, rfl⟩ := List.mem_iff_getElem.1 hf
  have hi' : i < slv.sites.length := h.serves.length_eq ▸ hi
  exact ⟨slv.sites[i], List.getElem_mem hi', h.serves.get hi hi'⟩

theorem EcSlave.Wired.byteWise (h : slv.Wired logMbxState) (hf : f ∈ slv.pdFmmus) : f.ByteWise :=
  let ⟨_, _, hserves⟩ := h.exists_site hf
  hserves.byteWise

theorem EcSlave.Wired.writes_byteWise (h : slv.Wired logMbxState) (hf : f ∈ slv.fmmu)
    (hw : f.writes = true) (hon : f.isOn = true) : f ∈ slv.pdFmmus ∧ f.ByteWise := by
  obtain hpd | hother := mem_fmmu_iff.1 hf
  · exact ⟨hpd, h.byteWise hpd⟩
  · exact absurd hw (by simp [((h.others f hother).2 hon).1])

theorem EcSlave.Wired.stops (h : slv.Wired logMbxState) (hf : f ∈ slv.fmmu) :
    f.logBitStop.toNat < 8 := by
  obtain hpd | hother := mem_fmmu_iff.1 hf
  · rw [(h.byteWise hpd).logBitStop]
    decide
  · exact (h.others f hother).1

/-- FMMUs of different memory. -/
theorem EcSlave.Wired.phys_apart (h : slv.Wired logMbxState)
    (hareas : slv.sites.Pairwise fun sm sm' => Disjoint sm.area sm'.area) (hf : f ∈ slv.pdFmmus)
    (hg : g ∈ slv.pdFmmus) (hne : g ≠ f) {y : ℕ} (hy : f.CoversPhys y) : ¬ g.CoversPhys y := by
  obtain ⟨i, hi, rfl⟩ := List.mem_iff_getElem.1 hf
  obtain ⟨j, hj, rfl⟩ := List.mem_iff_getElem.1 hg
  have hlen := h.serves.length_eq
  have hserves : ∀ k (hk : k < slv.pdFmmus.length) (hk' : k < slv.sites.length), ∀ y,
      slv.pdFmmus[k].CoversPhys y → y ∈ slv.sites[k].area := by
    intro k hk hk' y hy
    have hs := h.serves.get hk hk'
    rw [List.get_eq_getElem, List.get_eq_getElem] at hs
    rw [EcSlaveSm.area, Set.mem_Ico, ← hs.phys, ← hs.logLen]
    exact hy
  have hapart : ∀ a b (ha : a < slv.sites.length) (hb : b < slv.sites.length), a ≠ b →
      Disjoint slv.sites[a].area slv.sites[b].area := by
    intro a b ha hb hab
    obtain hlt | hgt := Nat.lt_or_gt_of_ne hab
    · exact List.pairwise_iff_getElem.1 hareas a b ha hb hlt
    · exact (List.pairwise_iff_getElem.1 hareas b a hb ha hgt).symm
  have hij : i ≠ j := by
    rintro rfl
    exact hne rfl
  have hi' : i < slv.sites.length := hlen ▸ hi
  have hj' : j < slv.sites.length := hlen ▸ hj
  exact fun hy' => Set.disjoint_left.1 (hapart i j hi' hj' hij) (hserves i hi hi' y hy)
    (hserves j hj hj' y hy')

end

/-! ## A datagram of the group -/

section
variable {group : ℕ} {pd : EcPdGroup} {bus : List Station} {dg : PdDatagram} {slv : EcSlave}
  {f : EcSlaveFmmu} {i : ℕ}

/-- The datagram stays inside the window of the group. -/
def PdDatagram.Within (dg : PdDatagram) (pd : EcPdGroup) : Prop :=
  ∀ a, dg.Has a → pd.log ≤ a ∧ a < pd.log + pd.logLen

theorem mem_region (hf : f ∈ slv.pdFmmus) {a : ℕ} (ha : f.Covers a) : a ∈ slv.region :=
  ⟨f.window, List.mem_map_of_mem hf, ha⟩

theorem BusWired.mem_group (hi : i < bus.length) (hg : bus[i].slave.inGroup group = true) :
    bus[i].slave ∈ (bus.map Station.slave).filter (EcSlave.inGroup group) :=
  List.mem_filter.2 ⟨List.mem_map_of_mem (List.getElem_mem hi), hg⟩

theorem BusWired.region_disjoint (h : BusWired group pd (bus.map Station.slave)) {j : ℕ}
    (hi : i < bus.length) (hj : j < bus.length) (hij : i ≠ j)
    (hgi : bus[i].slave.inGroup group = true) (hgj : bus[j].slave.inGroup group = true) :
    Disjoint bus[i].slave.region bus[j].slave.region := by
  have hpair := List.pairwise_map.1 (List.pairwise_filter.1 h.apart)
  obtain hlt | hgt := Nat.lt_or_gt_of_ne hij
  · exact List.pairwise_iff_getElem.1 hpair i j hi hj hlt hgi hgj
  · exact (List.pairwise_iff_getElem.1 hpair j i hj hi hgt hgj hgi).symm

/-- **The others leave the addresses of a slave alone.** -/
theorem BusWired.leaves (h : BusWired group pd (bus.map Station.slave)) (hdg : dg.Within pd)
    (hi : i < bus.length) (hg : bus[i].slave.inGroup group = true) (hf : f ∈ bus[i].slave.pdFmmus)
    {a : ℕ} (ha : f.Covers a) (hhas : dg.Has a) :
    ∀ j (hj : j < bus.length), j ≠ i → bus[j].Leaves dg (a - dg.adr) := by
  intro j hj hji
  have hadr : dg.adr + (a - dg.adr) = a := Nat.add_sub_of_le hhas.1
  have hin := hdg a hhas
  rw [Station.Leaves, hadr]
  cases hgj : bus[j].slave.inGroup group with
  | false =>
    have hforeign := h.foreign _ (List.mem_map_of_mem (List.getElem_mem hj)) hgj
    exact ⟨fun g hg => (hforeign g hg).1, fun g hg _ hon => (hforeign g hg).2.2 hon a hin.1 hin.2⟩
  | true =>
    have hwired := h.wired _ (BusWired.mem_group hj hgj)
    refine ⟨fun g hg => hwired.stops hg, fun g hmem _ hon hcov => ?_⟩
    obtain hpd | hother := mem_fmmu_iff.1 hmem
    · exact Set.disjoint_left.1 (h.region_disjoint hj hi hji hgj hg) (mem_region hpd hcov)
        (mem_region hf ha)
    · have hle := ((hwired.others g hother).2 hon).2
      have hfar := h.far
      have hcov' := hcov.1
      omega

/-- What a datagram of the group does at a slave, when the payload comes back as `payload`. -/
structure Passed (group : ℕ) (dg : PdDatagram) (payload : ℕ → UInt8) (s s' : Station) : Prop where
  slave : s'.slave = s.slave
  written : s.slave.inGroup group = true → dg.isWrite = true → ∀ f ∈ s.slave.pdFmmus,
    f.writes = true → ∀ a, f.Covers a → dg.Has a →
      s'.mem (f.phys.toNat + (a - f.log)) = dg.payload (a - dg.adr)
  kept : s.slave.inGroup group = true → ∀ f ∈ s.slave.pdFmmus, f.writes = false →
    ∀ a, f.Covers a → s'.mem (f.phys.toNat + (a - f.log)) = s.mem (f.phys.toNat + (a - f.log))
  read : s.slave.inGroup group = true → dg.isRead = true → ∀ f ∈ s.slave.pdFmmus,
    f.reads = true → ∀ a, f.Covers a → dg.Has a →
      payload (a - dg.adr) = s.mem (f.phys.toNat + (a - f.log))
  others : s.slave.inGroup group = false ∨ dg.isWrite = false → s'.mem = s.mem

theorem EcSlaveFmmu.Serves.writes {sm : EcSlaveSm} (h : f.Serves sm) : f.writes = sm.isOutput := by
  rw [EcSlaveFmmu.writes, h.type]
  cases sm.isOutput <;> decide

theorem EcSlaveFmmu.Serves.reads {sm : EcSlaveSm} (h : f.Serves sm) : f.reads = !sm.isOutput := by
  rw [EcSlaveFmmu.reads, h.type]
  cases sm.isOutput <;> decide

theorem EcSlaveFmmu.Serves.window {sm : EcSlaveSm} (h : f.Serves sm) :
    f.window = ⟨f.log, sm.len.toNat, sm.isOutput⟩ := by
  rw [EcSlaveFmmu.window, h.type, h.logLen]
  cases sm.isOutput <;> rfl

/-- **Two inputs of a slave** have different addresses. -/
theorem EcSlave.Wired.log_apart {logMbxState l p o : ℕ} (h : slv.Wired logMbxState)
    (hlies : slv.LiesAt false p l o) {g : EcSlaveFmmu} (hf : f ∈ slv.pdFmmus)
    (hfr : f.reads = true) (hg : g ∈ slv.pdFmmus) (hgr : g.reads = true) (hne : g ≠ f) {a : ℕ}
    (ha : f.Covers a) : ¬ g.Covers a := by
  have hpair := hlies.follow.packed.pairwise_disjoint
  rw [EcSlave.dirWindows, EcSlave.pdWindows, List.filter_map, List.pairwise_map] at hpair
  have hmem : ∀ e ∈ slv.pdFmmus, e.reads = true →
      e ∈ slv.pdFmmus.filter ((fun w : Window => w.isOutput == false) ∘ EcSlaveFmmu.window) := by
    intro e he hread
    obtain ⟨sm, -, hserves⟩ := h.exists_site he
    rw [hserves.reads, Bool.not_eq_true'] at hread
    refine List.mem_filter.2 ⟨he, ?_⟩
    rw [Function.comp_apply, hserves.window, hread]
    rfl
  have hsymm : Std.Symm fun e e' : EcSlaveFmmu => Disjoint e.window.region e'.window.region :=
    ⟨fun _ _ hd => hd.symm⟩
  exact fun ha' =>
    Set.disjoint_left.1 (hpair.forall (hmem f hf hfr) (hmem g hg hgr) hne.symm) ha ha'

/-- **One round.** -/
theorem BusWired.passed (h : BusWired group pd (bus.map Station.slave)) (hdg : dg.Within pd)
    (hi : i < bus.length) :
    ∀ s' ∈ (dg.goRound bus).2[i]?, Passed group dg (dg.goRound bus).1.1 bus[i] s' := by
  intro s' hs'
  have hmemOf : bus[i].slave ∈ bus.map Station.slave := List.mem_map_of_mem (List.getElem_mem hi)
  refine ⟨PdDatagram.goRound_slave hi s' hs', fun hg hwrite f hf hfw a ha hhas => ?_,
    fun hg f hf hfw a ha => ?_, fun hg hread f hf hfr a ha hhas => ?_, fun hother => ?_⟩
  · have hwired := h.wired _ (BusWired.mem_group hi hg)
    have hareas := h.areas _ (BusWired.mem_group hi hg)
    have hlog : f.log + (f.phys.toNat + (a - f.log) - f.phys.toNat) = a := by
      have := ha.1
      omega
    have hphys : f.CoversPhys (f.phys.toNat + (a - f.log)) := by
      have := ha.2
      exact ⟨Nat.le_add_right _ _, by omega⟩
    have hmem := PdDatagram.goRound_mem (f := f) (y := f.phys.toNat + (a - f.log)) hi
      (by rw [hlog]; exact h.leaves hdg hi hg hf ha hhas)
      (fun payload k hk => Station.takes_byte hwrite
        (fun g hgm hgw hon => (hwired.writes_byteWise hgm hgw hon).2)
        (mem_fmmu_iff.2 (.inl hf)) hfw (hwired.byteWise hf).on hphys (by rwa [hlog])
        (fun g hgm hne hgw hon =>
          hwired.phys_apart hareas hf (hwired.writes_byteWise hgm hgw hon).1 hne hphys) hk) s' hs'
    rwa [hlog] at hmem
  · have hwired := h.wired _ (BusWired.mem_group hi hg)
    have hareas := h.areas _ (BusWired.mem_group hi hg)
    have hphys : f.CoversPhys (f.phys.toNat + (a - f.log)) := by
      obtain ⟨h1, h2⟩ := ha
      exact ⟨Nat.le_add_right _ _, by omega⟩
    refine PdDatagram.goRound_mem_of_none hi (fun payload k hk => Station.takes_none
      (fun g hgm hgw hon => (hwired.writes_byteWise hgm hgw hon).2)
      (fun g hgm hgw hon hy => ?_) hk) s' hs'
    have hne : g ≠ f := by
      rintro rfl
      exact absurd hgw (by simp [hfw])
    exact absurd hy (hwired.phys_apart hareas hf (hwired.writes_byteWise hgm hgw hon).1 hne hphys)
  · have hwired := h.wired _ (BusWired.mem_group hi hg)
    obtain ⟨p, l, o, hlies, -⟩ := h.inputs _ (BusWired.mem_group hi hg)
    have hadr : dg.adr + (a - dg.adr) = a := Nat.add_sub_of_le hhas.1
    have hlt : a - dg.adr < dg.len := by
      obtain ⟨h1, h2⟩ := hhas
      omega
    refine PdDatagram.goRound_payload hi (h.leaves hdg hi hg hf ha hhas) fun k hk => ?_
    have hbyte := Station.shows_byte (s := bus[i]) (fun g hgm => hwired.stops hgm) hread hlt
      (mem_fmmu_iff.2 (.inl hf)) hfr (hwired.byteWise hf) (by rwa [hadr])
      (fun g hgm hne hgr hon => ?_) hk
    · rwa [hadr] at hbyte
    · rw [hadr]
      obtain hpd | hother := mem_fmmu_iff.1 hgm
      · exact hwired.log_apart hlies hf hfr hpd hgr hne ha
      · have hle := ((hwired.others g hother).2 hon).2
        have hfar := h.far
        have hin := hdg a hhas
        exact fun hcov => absurd hcov.1 (by omega)
  · funext y
    refine PdDatagram.goRound_mem_of_none hi (fun payload k hk => ?_) s' hs'
    obtain hg | hwrite := hother
    · have hforeign := h.foreign _ hmemOf hg
      refine Station.takes_none (fun g hgm => (hforeign g hgm).2.1)
        (fun g hgm _ hon hy hhas => ?_) hk
      have hin := hdg _ hhas
      obtain ⟨h1, h2⟩ := hy
      exact (hforeign g hgm).2.2 hon _ hin.1 hin.2 ⟨Nat.le_add_right _ _, by omega⟩
    · exact if_neg (by simp [hwrite])

end

/-! ## The data of a slave -/

/-- What the sites of one direction have in the memory of the slave. -/
def EcSlave.bytes (d : Bool) (slv : EcSlave) (mem : ℕ → UInt8) : List UInt8 :=
  (slv.sites.filter fun sm => sm.isOutput == d).flatMap fun sm =>
    (List.range sm.len.toNat).map fun k => mem (sm.adr.toNat + k)

def EcPdGroup.byte (pd : EcPdGroup) (i : ℕ) : UInt8 :=
  if h : i < lecMaxPdlen then pd.pd ⟨i, h⟩ else 0

/-- What a slave's pointer shows in the image. -/
def EcPdGroup.view (pd : EcPdGroup) (e : EcPd) : List UInt8 :=
  match e.pd with
  | none => []
  | some p => (List.range e.len).map fun k => pd.byte (p + k)

section
variable {d : Bool} {mem g : ℕ → UInt8}

theorem range_map_append {α : Type*} (F : ℕ → α) (a m n : ℕ) :
    (List.range (m + n)).map (fun k => F (a + k)) =
      (List.range m).map (fun k => F (a + k)) ++ (List.range n).map fun k => F (a + m + k) := by
  rw [List.range_add, List.map_append, List.map_map]
  simp only [Function.comp_def, Nat.add_assoc]

/-- Sites that lie one behind the other are what the logical memory has from there on. -/
theorem flatMap_sites {fs : List EcSlaveFmmu} {sms : List EcSlaveSm} {a : ℕ}
    (hserves : List.Forall₂ EcSlaveFmmu.Serves fs sms)
    (hfollow : Window.Follow a ((fs.map EcSlaveFmmu.window).filter fun w => w.isOutput == d))
    (hbytes : ∀ f ∈ fs, f.writes = d → ∀ x, f.Covers x → mem (f.phys.toNat + (x - f.log)) = g x) :
    ((sms.filter fun sm => sm.isOutput == d).flatMap fun sm =>
      (List.range sm.len.toNat).map fun k => mem (sm.adr.toNat + k)) =
      (List.range (winLen d (fs.map EcSlaveFmmu.window))).map fun k => g (a + k) := by
  induction hserves generalizing a with
  | nil => rfl
  | @cons f sm fs sms hone hrest ih =>
    obtain ⟨hf, hfs⟩ := List.forall_mem_cons.1 hbytes
    rw [List.map_cons, hone.window] at hfollow
    rw [List.map_cons, hone.window, winLen_cons]
    by_cases hd : sm.isOutput = d
    · rw [List.filter_cons_of_pos (by simpa using hd)] at hfollow ⊢
      obtain ⟨hstart, hfollow⟩ := hfollow
      have hstart : f.log = a := hstart
      rw [List.flatMap_cons, ih hfollow hfs, if_pos hd, range_map_append]
      congr 1
      refine List.map_congr_left fun k hk => ?_
      have hx := hf (hone.writes.trans hd) (a + k) ⟨by omega, by
        rw [hone.logLen, hstart]
        exact Nat.add_lt_add_left (List.mem_range.1 hk) a⟩
      rwa [hone.phys, hstart, Nat.add_sub_cancel_left] at hx
    · rw [List.filter_cons_of_neg (by simpa using hd)] at hfollow ⊢
      rw [ih hfollow hfs, if_neg hd, Nat.zero_add]

end

section
variable {slv : EcSlave} {logMbxState : ℕ} {image : EcPdGroup} {mem mem' : ℕ → UInt8}

theorem winLen_of_nil {d : Bool} (hnil : slv.dirWindows d = []) : winLen d slv.pdWindows = 0 := by
  rw [winLen, ← EcSlave.dirWindows, hnil]
  rfl

/-- A view, when the pointer is set. -/
theorem EcSlave.LiesAt.view {d : Bool} {p l o : ℕ} (hlies : slv.LiesAt d p l o)
    (image : EcPdGroup) : image.view (slv.side d) =
      (List.range (winLen d slv.pdWindows)).map fun k => image.byte (p + o + k) := by
  by_cases hne : slv.dirWindows d = []
  · have hzero := winLen_of_nil hne
    have hlen := hlies.len
    rw [hzero] at hlen ⊢
    rw [EcPdGroup.view, hlen]
    cases (slv.side d).pd <;> rfl
  · rw [EcPdGroup.view, hlies.pd hne, hlies.len]

/-- **The outputs in the image** are those of a memory that has its bytes at the places of the
windows. -/
theorem EcSlave.Wired.view_outputs (h : slv.Wired logMbxState) {log o : ℕ}
    (hlies : slv.LiesAt true 0 log o)
    (hbytes : ∀ f ∈ slv.pdFmmus, f.writes = true → ∀ a, f.Covers a →
      mem (f.phys.toNat + (a - f.log)) = image.byte (a - log)) :
    slv.bytes true mem = image.view slv.pdout := by
  have hview : image.view slv.pdout = _ := hlies.view image
  rw [hview]
  refine (flatMap_sites h.serves hlies.follow hbytes).trans (List.map_congr_left fun k _ => ?_)
  congr 1
  omega

/-- **The inputs**, the same way. -/
theorem EcSlave.Wired.view_inputs (h : slv.Wired logMbxState) {p l o q r : ℕ}
    (hlies : slv.LiesAt false p l o) (hbase : p + r = l + q)
    (hwindows : ∀ w ∈ slv.dirWindows false, ∀ a ∈ w.region, r ≤ a)
    (hbytes : ∀ f ∈ slv.pdFmmus, f.writes = false → ∀ a, f.Covers a →
      mem (f.phys.toNat + (a - f.log)) = image.byte (q + (a - r))) :
    slv.bytes false mem = image.view slv.pdin := by
  have hview : image.view slv.pdin = _ := hlies.view image
  rw [hview]
  refine (flatMap_sites h.serves hlies.follow hbytes).trans (List.map_congr_left fun k hk => ?_)
  have hin := hlies.follow.mem_regions (List.mem_range.1 hk)
  obtain ⟨w, hw, ha⟩ := hin
  have hle := hwindows w hw _ ha
  congr 1
  omega

theorem EcSlave.Wired.exists_fmmu (h : slv.Wired logMbxState) {sm : EcSlaveSm}
    (hsm : sm ∈ slv.sites) : ∃ f ∈ slv.pdFmmus, f.Serves sm := by
  obtain ⟨i, hi, rfl⟩ := List.mem_iff_getElem.1 hsm
  have hi' : i < slv.pdFmmus.length := h.serves.length_eq ▸ hi
  exact ⟨slv.pdFmmus[i], List.getElem_mem hi', h.serves.get hi' hi⟩

theorem EcSlave.Wired.bytes_congr (h : slv.Wired logMbxState) {d : Bool}
    (hbytes : ∀ f ∈ slv.pdFmmus, f.writes = d → ∀ a, f.Covers a →
      mem (f.phys.toNat + (a - f.log)) = mem' (f.phys.toNat + (a - f.log))) :
    slv.bytes d mem = slv.bytes d mem' := by
  refine List.flatMap_congr fun sm hsm => List.map_congr_left fun k hk => ?_
  obtain ⟨hmem, hd⟩ := List.mem_filter.1 hsm
  obtain ⟨f, hf, hserves⟩ := h.exists_fmmu hmem
  have hx := hbytes f hf (hserves.writes.trans (by simpa using hd)) (f.log + k)
    ⟨Nat.le_add_right _ _, by
      rw [hserves.logLen]
      exact Nat.add_lt_add_left (List.mem_range.1 hk) _⟩
  rwa [Nat.add_sub_cancel_left, hserves.phys] at hx

end

end LibEthercat
