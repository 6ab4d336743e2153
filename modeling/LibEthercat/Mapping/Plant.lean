import Mathlib.Data.List.GetD
import LibEthercat.Lib.Runs
import LibEthercat.Mapping.AllGroups

/-!
# A plant with process data

The application writes the outputs of slaves into the images, devices change the memory of their
slaves, and groups are exchanged, in any order. Seen from outside every slave is a `Site` with four
values: what the application wants, what the device is driven by, what it senses, and what the
application sees. An exchange hands on two of them, for the slaves of its group.

**Theorem (`plant_refines`).** From a master that is configured well, every run of the plant is a
run of its sites. So no slave gets the outputs of another one, and no group disturbs another one.
-/

namespace LibEthercat

/-! ## The plant -/

structure Plant where
  groups : List EcPdGroup
  bus : List Station

inductive Plant.Event
  | write (station : ℕ) (data : List UInt8)
  | sense (station : ℕ) (mem : ℕ → UInt8)
  | exchange (group : ℕ) (idx : GroupIdx)

namespace Plant

variable (p : Plant)

/-- The group of a slave, if it is in one. -/
def groupOf (slv : EcSlave) : Option EcPdGroup :=
  if 0 ≤ slv.assignedPdGroup then p.groups[slv.assignedPdGroup.toNat]? else none

/-- What the application does with `pdout.pd`. -/
def writeOutputs (s : Station) (data : List UInt8) : Option Plant :=
  match p.groupOf s.slave, s.slave.pdout.pd with
  | some pd, some o => some
    { p with groups := p.groups.set s.slave.assignedPdGroup.toNat
              (pd.memcpy o (fun i => data.getD i 0) data.length) }
  | _, _ => none

def step (p : Plant) : Event → Option Plant
  | .write k data => p.bus[k]?.bind fun s => p.writeOutputs s data
  | .sense k mem => p.bus[k]?.map fun s => { p with bus := p.bus.set k { s with mem := mem } }
  | .exchange g idx => p.groups[g]?.map fun pd =>
      { groups := p.groups.set g (LibEthercat.exchange pd idx p.bus).1
        bus := (LibEthercat.exchange pd idx p.bus).2 }

/-- The application writes as many bytes as there are, and a device does not change its outputs. -/
def Allowed (p : Plant) : Event → Prop
  | .write k data => ∀ s ∈ p.bus[k]?, data.length = s.slave.pdout.len
  | .sense k mem => ∀ s ∈ p.bus[k]?, s.slave.bytes true mem = s.slave.bytes true s.mem
  | .exchange _ _ => True

end Plant

instance (p : Plant) (e : Plant.Event) : Decidable (p.Allowed e) :=
  match e with
  | .write k data => inferInstanceAs (Decidable (∀ s ∈ p.bus[k]?, data.length = s.slave.pdout.len))
  | .sense k mem => inferInstanceAs (Decidable (∀ s ∈ p.bus[k]?,
      s.slave.bytes true mem = s.slave.bytes true s.mem))
  | .exchange _ _ => .isTrue trivial

/-! ## The sites -/

/-- A slave from outside. -/
structure Site where
  group : ℤ
  wants : List UInt8
  driven : List UInt8
  senses : List UInt8
  sees : List UInt8

/-- The two values that an exchange hands on. -/
def Site.exchange (s : Site) : Site := { s with driven := s.wants, sees := s.senses }

/-- What an event is for the sites; `slaves` tells where a device has its inputs. -/
def Site.step (slaves : List EcSlave) (sites : List Site) : Plant.Event → List Site
  | .write k data => sites.modify k fun s => { s with wants := data }
  | .sense k mem => sites.modify k fun s =>
      { s with senses := ((slaves[k]?).map fun slv => slv.bytes false mem).getD [] }
  | .exchange g _ => sites.map fun s => if s.group = (g : ℤ) then s.exchange else s

def Plant.view (p : Plant) (slv : EcSlave) (e : EcPd) : List UInt8 :=
  ((p.groupOf slv).map fun pd => pd.view e).getD []

def Plant.site (p : Plant) (s : Station) : Site where
  group := s.slave.assignedPdGroup
  wants := p.view s.slave s.slave.pdout
  driven := s.slave.bytes true s.mem
  senses := s.slave.bytes false s.mem
  sees := p.view s.slave s.slave.pdin

def Plant.sites (p : Plant) : List Site := p.bus.map p.site

/-- All groups can be exchanged. -/
def Plant.Wired (p : Plant) : Prop :=
  ∀ g pd, p.groups[g]? = some pd → Ready g pd (p.bus.map Station.slave)

/-! ## Groups -/

section
variable {p : Plant} {slv : EcSlave} {pd : EcPdGroup} {g : ℕ}

theorem inGroup_iff : slv.inGroup g = true ↔ slv.assignedPdGroup = (g : ℤ) := beq_iff_eq

theorem Plant.groupOf_of_inGroup (h : slv.inGroup g = true) : p.groupOf slv = p.groups[g]? := by
  rw [groupOf, inGroup_iff.1 h, if_pos (Int.natCast_nonneg g), Int.toNat_natCast]

theorem Plant.exists_group (h : p.groupOf slv = some pd) :
    ∃ g, slv.inGroup g = true ∧ p.groups[g]? = some pd := by
  rw [groupOf] at h
  split_ifs at h with hpos
  exact ⟨slv.assignedPdGroup.toNat, inGroup_iff.2 (Int.toNat_of_nonneg hpos).symm, h⟩

/-- Another group is set. -/
theorem Plant.groupOf_set_of_not (p : Plant) (pd : EcPdGroup) (bus' : List Station)
    (h : slv.inGroup g = false) :
    (Plant.mk (p.groups.set g pd) bus').groupOf slv = p.groupOf slv := by
  rw [groupOf, groupOf]
  split_ifs with hpos
  · refine List.getElem?_set_ne fun heq => ?_
    rw [EcSlave.inGroup, heq, Int.toNat_of_nonneg hpos] at h
    simp at h
  · rfl

theorem Plant.groupOf_set (p : Plant) (pd : EcPdGroup) (bus' : List Station)
    (hg : g < p.groups.length) (h : slv.inGroup g = true) :
    (Plant.mk (p.groups.set g pd) bus').groupOf slv = some pd := by
  rw [groupOf_of_inGroup h]
  exact List.getElem?_set_self hg

theorem Plant.view_of_group (h : p.groupOf slv = some pd) (e : EcPd) :
    p.view slv e = pd.view e := by
  rw [view, h]
  rfl

theorem Plant.view_congr {p' : Plant} (h : p'.groupOf slv = p.groupOf slv) (e : EcPd) :
    p'.view slv e = p.view slv e := by
  rw [view, h, view]

end

/-! ## Images -/

/-- Only the image of a group has changed. -/
def EcPdGroup.SameGroup (pd pd' : EcPdGroup) : Prop := pd' = { pd with pd := pd'.pd }

theorem Ready.image_congr {group : ℕ} {pd pd' : EcPdGroup} {slaves : List EcSlave}
    (h : Ready group pd slaves) (hsame : pd.SameGroup pd') : Ready group pd' slaves := by
  rw [hsame]
  exact ⟨⟨⟨h.wired, h.outputs, h.inputs, h.apart, h.outputWindows, h.inputWindows⟩, h.far,
    h.foreign, h.areas⟩, h.mode, h.image, h.len, h.received, h.wkc⟩

theorem sameGroup_receive (pd : EcPdGroup) (dg : PdDatagram) (t : (ℕ → UInt8) × ℕ) :
    pd.SameGroup (pd.receive dg t) := by
  rw [EcPdGroup.SameGroup, EcPdGroup.receive]
  cases dg.userCb with
  | cbProcessDataGroup =>
    dsimp only
    rw [cbProcessDataGroup]
    split_ifs <;> rfl
  | cbProcessDataGroupLwr => rfl
  | cbLrdMbxState => rfl

theorem sameGroup_exchange (pd : EcPdGroup) (idx : GroupIdx) (bus : List Station) :
    pd.SameGroup (exchange pd idx bus).1 := by
  rw [exchange_eq]
  split_ifs
  · exact sameGroup_receive pd (pd.lrwDatagram idx) _
  · exact sameGroup_receive pd (pd.lrdDatagram idx) _
  · rfl

theorem exchange_length (pd : EcPdGroup) (idx : GroupIdx) (bus : List Station) :
    (exchange pd idx bus).2.length = bus.length := by
  rw [exchange_eq]
  split_ifs
  · exact PdDatagram.goRound_length
  · exact PdDatagram.goRound_length
  · rfl

theorem exchange_slaves (pd : EcPdGroup) (idx : GroupIdx) (bus : List Station) :
    (exchange pd idx bus).2.map Station.slave = bus.map Station.slave := by
  rw [exchange_eq]
  split_ifs
  · exact goRound_slaves
  · exact goRound_slaves
  · rfl

theorem memcpy_byte (pd : EcPdGroup) (off len : ℕ) (src : ℕ → UInt8) {i : ℕ}
    (hi : i < lecMaxPdlen) : (pd.memcpy off src len).byte i =
      if off ≤ i ∧ i < off + len then src (i - off) else pd.byte i := by
  rw [EcPdGroup.byte, EcPdGroup.byte, dif_pos hi, dif_pos hi]
  rfl

theorem memcpy_byte_of_not (pd : EcPdGroup) (off len : ℕ) (src : ℕ → UInt8) {i : ℕ}
    (hi : ¬ (off ≤ i ∧ i < off + len)) : (pd.memcpy off src len).byte i = pd.byte i := by
  by_cases hmax : i < lecMaxPdlen
  · rw [memcpy_byte pd off len src hmax, if_neg hi]
  · rw [EcPdGroup.byte, EcPdGroup.byte, dif_neg hmax, dif_neg hmax]

/-! ## Writing outputs -/

section
variable {g : ℕ} {pd : EcPdGroup} {bus : List Station} {i k : ℕ} {data : List UInt8}

/-- What an output view of a slave shows lies in its own windows. -/
theorem Ready.output_region (h : Ready g pd (bus.map Station.slave)) (hi : i < bus.length)
    (hg : bus[i].slave.inGroup g = true) {o : ℕ} (ho : bus[i].slave.LiesAt true 0 pd.log o) {m : ℕ}
    (hm : m < winLen true bus[i].slave.pdWindows) :
    pd.log + (o + m) ∈ bus[i].slave.region ∧ o + m < pd.pdoutLen := by
  obtain ⟨w, hw, ha⟩ := ho.follow.mem_regions hm
  have hlt := (h.outputWindows _ (BusWired.mem_group hi hg) w hw ha).2
  rw [Nat.add_assoc] at ha hlt
  exact ⟨⟨w, (List.mem_filter.1 hw).1, ha⟩, by omega⟩

/-- Where the pointer of the outputs is, if there are any. -/
theorem EcSlave.LiesAt.pointer {slv : EcSlave} {o q l : ℕ} (ho : slv.LiesAt true 0 l o)
    (hq : slv.pdout.pd = some q) (hpos : 0 < slv.pdout.len) : q = o := by
  have hlen : slv.pdout.len = winLen true slv.pdWindows := ho.len
  have hne : slv.dirWindows true ≠ [] := fun hnil => by
    rw [hlen, winLen_of_nil hnil] at hpos
    exact absurd hpos (Nat.lt_irrefl 0)
  have hpd : slv.pdout.pd = some (0 + o) := ho.pd hne
  rw [hq] at hpd
  have heq := Option.some.inj hpd
  omega

section
variable (h : Ready g pd (bus.map Station.slave)) (hk : k < bus.length)
  (hgk : bus[k].slave.inGroup g = true) {q : ℕ} (hq : bus[k].slave.pdout.pd = some q)
  (hdata : data.length = bus[k].slave.pdout.len)
include h hk hgk hq hdata

/-- The bytes that are written belong to the slave. -/
theorem Ready.written {x : ℕ} (hx : q ≤ x ∧ x < q + data.length) :
    pd.log + x ∈ bus[k].slave.region ∧ x < pd.pdoutLen := by
  obtain ⟨o, ho⟩ := h.outputs _ (BusWired.mem_group hk hgk)
  have hlen : bus[k].slave.pdout.len = winLen true bus[k].slave.pdWindows := ho.len
  have hqo := ho.pointer hq (by omega)
  have hin := h.output_region hk hgk ho (m := x - o) (by omega)
  rwa [show o + (x - o) = x by omega] at hin

/-- **The slave** has what is written. -/
theorem Ready.write_view :
    (pd.memcpy q (fun i => data.getD i 0) data.length).view bus[k].slave.pdout = data := by
  rw [EcPdGroup.view, hq]
  refine List.ext_getElem (by simp [hdata]) fun j hj hj' => ?_
  have hin := h.written hk hgk hq hdata (x := q + j) ⟨Nat.le_add_right _ _, by omega⟩
  have himage := h.image
  rw [List.getElem_map, List.getElem_range, memcpy_byte pd q data.length _ (by omega),
    if_pos ⟨Nat.le_add_right _ _, by omega⟩, Nat.add_sub_cancel_left]
  exact List.getD_eq_getElem data 0 hj'

variable (hi : i < bus.length) (hgi : bus[i].slave.inGroup g = true)
include hi hgi

/-- **The other slaves** keep what they have. -/
theorem Ready.write_others (hne : i ≠ k) :
    (pd.memcpy q (fun i => data.getD i 0) data.length).view bus[i].slave.pdout =
      pd.view bus[i].slave.pdout := by
  obtain ⟨o, ho⟩ := h.outputs _ (BusWired.mem_group hi hgi)
  have hview : ∀ image : EcPdGroup, image.view bus[i].slave.pdout = _ := ho.view
  rw [hview, hview]
  refine List.map_congr_left fun m hm => memcpy_byte_of_not pd q data.length _ fun hx => ?_
  rw [Nat.zero_add] at hx
  have hmine := (h.output_region hi hgi ho (List.mem_range.1 hm)).1
  have htheirs := (h.written hk hgk hq hdata hx).1
  exact Set.disjoint_left.1 (h.region_disjoint hi hk hne hgi hgk) hmine htheirs

/-- **The inputs** are not touched. -/
theorem Ready.write_inputs :
    (pd.memcpy q (fun i => data.getD i 0) data.length).view bus[i].slave.pdin =
      pd.view bus[i].slave.pdin := by
  obtain ⟨p, l, o, ho, hbase⟩ := h.inputs _ (BusWired.mem_group hi hgi)
  have hview : ∀ image : EcPdGroup, image.view bus[i].slave.pdin = _ := ho.view
  rw [hview, hview]
  refine List.map_congr_left fun m hm => memcpy_byte_of_not pd q data.length _ fun hx => ?_
  have hlt := (h.written hk hgk hq hdata hx).2
  obtain ⟨w, hw, ha⟩ := ho.follow.mem_regions (List.mem_range.1 hm)
  have hle := (h.inputWindows _ (BusWired.mem_group hi hgi) w hw ha).1
  omega

end

end

/-! ## Steps -/

section
variable {p p' : Plant} {slaves : List EcSlave}

/-- **Writing** is a step of the sites. -/
theorem Plant.Wired.write (h : p.Wired) {k : ℕ} {data : List UInt8}
    (hok : p.Allowed (.write k data)) (hstep : p.step (.write k data) = some p') :
    p'.Wired ∧ p'.bus.map Station.slave = p.bus.map Station.slave ∧
      p'.sites = Site.step (p.bus.map Station.slave) p.sites (.write k data) := by
  obtain ⟨s, hs, hwrite⟩ := Option.bind_eq_some_iff.1 hstep
  obtain ⟨hk, rfl⟩ := List.getElem?_eq_some_iff.1 hs
  have hdata := hok _ hs
  rw [writeOutputs] at hwrite
  cases hgroup : p.groupOf p.bus[k].slave with
  | none => simp [hgroup] at hwrite
  | some pd =>
    cases hq : p.bus[k].slave.pdout.pd with
    | none => simp [hgroup, hq] at hwrite
    | some q =>
      rw [hgroup, hq] at hwrite
      obtain ⟨g, hgk, hpd⟩ := exists_group hgroup
      rw [inGroup_iff.1 hgk, Int.toNat_natCast] at hwrite
      cases hwrite
      have hready := h g pd hpd
      have hlt := (List.getElem?_eq_some_iff.1 hpd).1
      refine ⟨fun g' pd' hpd' => ?_, rfl, ?_⟩
      · by_cases hgg : g' = g
        · subst hgg
          rw [List.getElem?_set_self hlt] at hpd'
          cases hpd'
          exact hready.image_congr rfl
        · rw [List.getElem?_set_ne (Ne.symm hgg)] at hpd'
          exact h g' pd' hpd'
      · refine List.ext_getElem (by simp [sites, Site.step]) fun i hi _ => ?_
        rw [sites, List.length_map] at hi
        have hi : i < p.bus.length := hi
        simp only [sites, Site.step, List.getElem_map, List.getElem_modify]
        cases hgi : p.bus[i].slave.inGroup g with
        | true =>
          have hold := groupOf_of_inGroup (p := p) hgi
          rw [hpd] at hold
          have hnew := p.groupOf_set (pd.memcpy q (fun i => data.getD i 0) data.length) p.bus hlt
            hgi
          have hinputs := hready.write_inputs hk hgk hq hdata hi hgi
          by_cases hik : k = i
          · subst hik
            rw [if_pos rfl]
            simp only [site, view_of_group hnew, view_of_group hold, hinputs,
              hready.write_view hk hgk hq hdata]
          · rw [if_neg hik]
            simp only [site, view_of_group hnew, view_of_group hold, hinputs,
              hready.write_others hk hgk hq hdata hi hgi (Ne.symm hik)]
        | false =>
          have hik : k ≠ i := by
            rintro rfl
            exact absurd hgk (by simp [hgi])
          have hsame := p.groupOf_set_of_not (pd.memcpy q (fun i => data.getD i 0) data.length)
            p.bus hgi
          rw [if_neg hik]
          simp only [site, view_congr hsame]

theorem map_slave_set {bus : List Station} {k : ℕ} (hk : k < bus.length) (mem : ℕ → UInt8) :
    (bus.set k { bus[k] with mem := mem }).map Station.slave = bus.map Station.slave := by
  rw [List.map_set]
  exact list_set_self (by rw [List.getElem?_map, List.getElem?_eq_getElem hk]; rfl)

/-- **Sensing.** -/
theorem Plant.Wired.sense (h : p.Wired) {k : ℕ} {mem : ℕ → UInt8} (hok : p.Allowed (.sense k mem))
    (hstep : p.step (.sense k mem) = some p') :
    p'.Wired ∧ p'.bus.map Station.slave = p.bus.map Station.slave ∧
      p'.sites = Site.step (p.bus.map Station.slave) p.sites (.sense k mem) := by
  obtain ⟨s, hs, rfl⟩ := Option.map_eq_some_iff.1 hstep
  obtain ⟨hk, rfl⟩ := List.getElem?_eq_some_iff.1 hs
  have hkept := hok _ hs
  have hslaves := map_slave_set hk mem
  refine ⟨fun g pd hpd => ?_, hslaves, ?_⟩
  · dsimp only
    rw [hslaves]
    exact h g pd hpd
  · refine List.ext_getElem (by simp [sites, Site.step]) fun i hi _ => ?_
    simp only [sites, List.length_map, List.length_set] at hi
    simp only [sites, Site.step, List.getElem_map, List.getElem_modify, List.getElem_set]
    have hgroups : ∀ slv, (Plant.mk p.groups
        (p.bus.set k { p.bus[k] with mem := mem })).groupOf slv = p.groupOf slv := fun _ => rfl
    by_cases hik : k = i
    · subst hik
      have hslv : (p.bus.map Station.slave)[k]? = some p.bus[k].slave := by
        rw [List.getElem?_map, hs]
        rfl
      rw [if_pos rfl, if_pos rfl]
      simp only [site, view_congr (hgroups _), hslv, Option.map_some, Option.getD_some, hkept]
    · rw [if_neg hik, if_neg hik]
      simp only [site, view_congr (hgroups _)]

/-- **Exchanging a group.** -/
theorem Plant.Wired.exchange (h : p.Wired) {g : ℕ} {idx : GroupIdx}
    (hstep : p.step (.exchange g idx) = some p') :
    p'.Wired ∧ p'.bus.map Station.slave = p.bus.map Station.slave ∧
      p'.sites = Site.step (p.bus.map Station.slave) p.sites (.exchange g idx) := by
  obtain ⟨pd, hpd, rfl⟩ := Option.map_eq_some_iff.1 hstep
  have hready := h g pd hpd
  have hlt := (List.getElem?_eq_some_iff.1 hpd).1
  have hslaves := exchange_slaves pd idx p.bus
  have hlength := exchange_length pd idx p.bus
  have hexchanged : ∀ i (hi : i < p.bus.length) s', _ → Exchanged g pd _ p.bus[i] s' :=
    fun i hi => hready.exchanged idx hi
  have hsame := sameGroup_exchange pd idx p.bus
  generalize LibEthercat.exchange pd idx p.bus = r at *
  refine ⟨fun g' pd' hpd' => ?_, hslaves, ?_⟩
  · dsimp only at hpd' ⊢
    rw [hslaves]
    by_cases hgg : g' = g
    · subst hgg
      rw [List.getElem?_set_self hlt] at hpd'
      cases hpd'
      exact hready.image_congr hsame
    · rw [List.getElem?_set_ne (Ne.symm hgg)] at hpd'
      exact h g' pd' hpd'
  · refine List.ext_getElem (by simp [sites, Site.step, hlength]) fun i hi _ => ?_
    simp only [sites, List.length_map] at hi
    have hi' : i < p.bus.length := hlength ▸ hi
    have hx := hexchanged i hi' r.2[i] (List.getElem?_eq_getElem hi)
    simp only [sites, Site.step, List.getElem_map]
    cases hgi : p.bus[i].slave.inGroup g with
    | true =>
      have hold := groupOf_of_inGroup (p := p) hgi
      rw [hpd] at hold
      have hnew := p.groupOf_set r.1 r.2 hlt hgi
      have hgroup : (p.site p.bus[i]).group = (g : ℤ) := inGroup_iff.1 hgi
      rw [if_pos hgroup]
      simp only [site, Site.exchange, hx.slave, view_of_group hnew, view_of_group hold,
        hx.outputs hgi, hx.inputs hgi, hx.kept hgi]
    | false =>
      have hgroup : ¬ (p.site p.bus[i]).group = (g : ℤ) := fun heq => by
        rw [inGroup_iff.2 heq] at hgi
        exact absurd hgi (by decide)
      rw [if_neg hgroup]
      simp only [site, hx.slave, view_congr (p.groupOf_set_of_not r.1 r.2 hgi), hx.others hgi]

end

/-! ## Runs -/

/-- **A plant is the sum of its sites**, in every run from a master that is configured well. -/
theorem plant_refines {pec : Ec} (h : Configured pec) {bus : List Station}
    (hbus : bus.map Station.slave = pec.setStateMapping.slaves) {es : List Plant.Event} {p : Plant}
    (hok : Runs.RunOk Plant.step Plant.Allowed ⟨pec.setStateMapping.pdGroups, bus⟩ es)
    (hrun : Runs.run Plant.step ⟨pec.setStateMapping.pdGroups, bus⟩ es = some p) :
    p.sites = es.foldl (Site.step pec.setStateMapping.slaves)
      (Plant.sites ⟨pec.setStateMapping.pdGroups, bus⟩) := by
  have hwired : Plant.Wired ⟨pec.setStateMapping.pdGroups, bus⟩ := by
    intro g pd hpd
    dsimp only
    rw [hbus]
    exact h.ready g pd hpd
  have hstep : ∀ (p : Plant) e p',
      (p.Wired ∧ p.bus.map Station.slave = pec.setStateMapping.slaves) → p.Allowed e →
      p.step e = some p' → (p'.Wired ∧ p'.bus.map Station.slave = pec.setStateMapping.slaves) ∧
        p'.sites = Site.step pec.setStateMapping.slaves p.sites e := by
    rintro p e p' ⟨hp, hslaves⟩ hallowed hstep
    have hone : p'.Wired ∧ p'.bus.map Station.slave = p.bus.map Station.slave ∧
        p'.sites = Site.step (p.bus.map Station.slave) p.sites e := by
      cases e with
      | write k data => exact hp.write hallowed hstep
      | sense k mem => exact hp.sense hallowed hstep
      | exchange g idx => exact hp.exchange hstep
    rw [hslaves] at hone
    exact ⟨⟨hone.1, hone.2.1⟩, hone.2.2⟩
  exact (Runs.runOk_refines hstep ⟨hwired, hbus⟩ hok hrun).2

/-! A slave with outputs and inputs, and one of another group with inputs. -/

def plantMaster : Ec :=
  ⟨[.scanned 0 0 [⟨0x1000, 2, 4⟩, ⟨0x1100, 3, 0⟩] 2, .scanned 1 0 [⟨0x1000, 1, 0⟩] 1],
    [EcPdGroup.zero.create 0, EcPdGroup.zero.create 1]⟩

def plantBus : List Station := plantMaster.setStateMapping.slaves.map fun slv => ⟨slv, fun _ => 5⟩

def plantEvents : List Plant.Event :=
  [.write 0 [1, 2], .sense 1 fun _ => 7, .exchange 0 ⟨0, 1, 2, 3⟩, .exchange 1 ⟨4, 5, 6, 7⟩]

theorem plantMaster_configured : Configured plantMaster where
  groupCnt := by decide
  groups := by
    rintro (_ | _ | g) pd hpd
    · cases hpd
      exact ⟨rfl, rfl, .inr rfl⟩
    · cases hpd
      exact ⟨rfl, rfl, .inr rfl⟩
    · cases hpd
  fresh := by
    intro slv hslv f hf
    have hzero : f = ⟨0, 0, 0, 0, 0, 0, 0, 0⟩ := by
      simp only [plantMaster, List.mem_cons, List.not_mem_nil, or_false] at hslv
      obtain rfl | rfl := hslv <;> exact List.eq_of_mem_replicate hf
    rw [hzero]
    exact ⟨rfl, rfl, rfl, rfl⟩
  unmapped := by decide
  areas := by
    intro slv hslv
    have hapart : ∀ slv ∈ plantMaster.slaves, slv.sites.Pairwise fun sm sm' =>
        min (sm.adr.toNat + sm.len.toNat) (sm'.adr.toNat + sm'.len.toNat) ≤
          max sm.adr.toNat sm'.adr.toNat := by decide +kernel
    exact (hapart slv hslv).imp Set.Ico_disjoint_Ico.2
  canExchange := by
    rintro (_ | _ | g) pd hpd
    · cases hpd
      unfold CanExchange FmmusSuffice
      decide +kernel
    · cases hpd
      unfold CanExchange FmmusSuffice
      decide +kernel
    · cases hpd

theorem plant_refines_two :
    ∃ p, Runs.run Plant.step ⟨plantMaster.setStateMapping.pdGroups, plantBus⟩ plantEvents = some p ∧
      p.sites = plantEvents.foldl (Site.step plantMaster.setStateMapping.slaves)
        (Plant.sites ⟨plantMaster.setStateMapping.pdGroups, plantBus⟩) := by
  have hsome : (Runs.run Plant.step ⟨plantMaster.setStateMapping.pdGroups, plantBus⟩
      plantEvents).isSome = true := by
    decide +kernel
  obtain ⟨p, hrun⟩ := Option.isSome_iff_exists.1 hsome
  have hbus : plantBus.map Station.slave = plantMaster.setStateMapping.slaves := by
    rw [plantBus, List.map_map]
    exact List.map_id _
  exact ⟨p, hrun, plant_refines plantMaster_configured hbus (by decide +kernel) hrun⟩

end LibEthercat
