import LibEthercat.Mapping.Fmmu
import LibEthercat.Mapping.Image

/-!
# FMMUs as the mapping leaves them

The sync managers of a slave that get an FMMU are its sites. The FMMU of a site shows the memory of
its sync manager, byte by byte, and those of one direction follow each other without a gap. The
FMMUs behind them are off, but for one that shows a bit of the mailbox.

* `mapSlave_wired` — a slave that has been mapped.
* `overlapping_wired`, `separate_wired` — a group that has been mapped.
-/

namespace LibEthercat

open BitOverlay

/-! ## Sites -/

/-- An FMMU as it is cleared with the slave. -/
structure EcSlaveFmmu.Fresh (f : EcSlaveFmmu) : Prop where
  active : f.active = 0
  logBitStart : f.logBitStart = 0
  logBitStop : f.logBitStop = 0
  physBitStart : f.physBitStart = 0

/-- An FMMU for a sync manager. -/
structure EcSlaveFmmu.Serves (f : EcSlaveFmmu) (sm : EcSlaveSm) : Prop where
  byteWise : f.ByteWise
  type : f.type = fmmuType sm.isOutput
  phys : f.phys = sm.adr
  logLen : f.logLen = sm.len

namespace EcSlave

/-- The sync managers of the process data that are in use. -/
def usedSm (slv : EcSlave) : List EcSlaveSm := slv.pdSm.filter fun sm => !sm.isEmpty

/-- Those that get an FMMU. -/
def sites (slv : EcSlave) : List EcSlaveSm := slv.usedSm.take slv.fmmu.length

/-- The FMMUs behind those of the process data. -/
def otherFmmus (slv : EcSlave) : List EcSlaveFmmu := slv.fmmu.drop slv.usedSm.length

end EcSlave

theorem EcSlaveFmmu.serves_mapSm {f : EcSlaveFmmu} (h : f.Fresh) {sm : EcSlaveSm}
    (hsm : sm.isEmpty = false) (log : ℕ) : (f.mapSm log (fmmuType sm.isOutput) sm).Serves sm := by
  refine ⟨⟨?_, h.logBitStart, rfl, h.physBitStart⟩, rfl, rfl, rfl⟩
  rw [EcSlaveSm.isEmpty, beq_eq_false_iff_ne] at hsm
  simp [EcSlaveFmmu.isOn, EcSlaveFmmu.mapSm, hsm]

section
variable {ω : Type} {m : SmLoop ω}

theorem modify_append {α : Type*} {g : α → α} {as bs : List α} {b : α} :
    (as ++ b :: bs).modify as.length g = as ++ [g b] ++ bs := by
  rw [List.modify_eq_take_cons_drop (by simp)]
  simp

/-- Without an FMMU left the loop only counts. -/
theorem foldl_mapSm_fmmu {l : SmLocals ω} {slv : EcSlave} {sms : List EcSlaveSm}
    (hnone : slv.fmmu.length ≤ l.fmmuNext) : (sms.foldl (mapSm m) (l, slv)).2.fmmu = slv.fmmu := by
  induction sms generalizing l slv with
  | nil => rfl
  | cons sm sms ih =>
    rw [List.foldl_cons]
    cases hsm : sm.isEmpty with
    | true =>
      rw [mapSm_empty hsm]
      exact ih hnone
    | false =>
      have hstep := mapSm_step (m := m) hsm l slv
      generalize mapSm m (l, slv) sm = r at hstep ⊢
      have hsame := hstep.fmmu
      rw [List.modify_eq_self hnone] at hsame
      rw [← hsame]
      exact ih (by rw [hsame, hstep.fmmuNext]; omega)

/-- **The loop over the sync managers** serves them in their order, as long as there are FMMUs. -/
theorem foldl_mapSm_serves {l : SmLocals ω} {slv : EcSlave} (sms : List EcSlaveSm)
    {pre rest : List EcSlaveFmmu} (hfmmu : slv.fmmu = pre ++ rest) (hnext : l.fmmuNext = pre.length)
    (hfresh : ∀ f ∈ rest, f.Fresh) :
    ∃ served, List.Forall₂ EcSlaveFmmu.Serves served
        ((sms.filter fun sm => !sm.isEmpty).take rest.length) ∧
      (sms.foldl (mapSm m) (l, slv)).2.fmmu = pre ++ served ++ rest.drop served.length := by
  induction sms generalizing l slv pre rest with
  | nil => exact ⟨[], by simp, by simpa using hfmmu⟩
  | cons sm sms ih =>
    cases hsm : sm.isEmpty with
    | true =>
      rw [List.foldl_cons, mapSm_empty hsm]
      obtain ⟨served, hserves, heq⟩ := ih hfmmu hnext hfresh
      exact ⟨served, by simpa [hsm] using hserves, heq⟩
    | false =>
      cases rest with
      | nil =>
        refine ⟨[], by simp, ?_⟩
        rw [foldl_mapSm_fmmu (by rw [hfmmu, hnext, List.append_nil]), hfmmu]
        simp
      | cons f rest =>
        have hstep := mapSm_step (m := m) hsm l slv
        have hmodified := hstep.fmmu
        rw [hfmmu, hnext, modify_append] at hmodified
        obtain ⟨hf, hrest⟩ := List.forall_mem_cons.1 hfresh
        obtain ⟨served, hserves, heq⟩ :=
          ih hmodified (by rw [hstep.fmmuNext, hnext, List.length_append]; rfl) hrest
        refine ⟨f.mapSm (l.log sm.isOutput) (fmmuType sm.isOutput) sm :: served, ?_, heq.trans ?_⟩
        · simpa [hsm] using ⟨EcSlaveFmmu.serves_mapSm hf hsm _, hserves⟩
        · simp

end

/-! ## A slave -/

/-- A slave with its sites. What else is on shows a bit of the mailbox. -/
structure EcSlave.Wired (slv : EcSlave) (logMbxState : ℕ) : Prop where
  serves : List.Forall₂ EcSlaveFmmu.Serves slv.pdFmmus slv.sites
  others : ∀ f ∈ slv.otherFmmus, f.logBitStop.toNat < 8 ∧
    (f.isOn = true → f.writes = false ∧ logMbxState ≤ f.log)

theorem EcSlaveFmmu.Fresh.isOn {f : EcSlaveFmmu} (h : f.Fresh) : f.isOn = false := by
  simp [EcSlaveFmmu.isOn, h.active]

theorem pdFmmus_eq (slv : EcSlave) : slv.pdFmmus = slv.fmmu.take slv.usedSm.length := by
  rw [EcSlave.pdFmmus, List.countP_eq_length_filter]
  rfl

theorem mem_drop_modify {α : Type*} {g : α → α} {n : ℕ} {as : List α} {b : α}
    (hb : b ∈ (as.modify n g).drop n) : b ∈ as.drop n ∨ ∃ a ∈ as.drop n, b = g a := by
  obtain ⟨k, hk, rfl⟩ := List.mem_iff_getElem.1 hb
  rw [List.length_drop, List.length_modify] at hk
  have hmem : as[n + k] ∈ as.drop n := by
    rw [← List.getElem_drop (h := by rw [List.length_drop]; omega)]
    exact List.getElem_mem _
  rw [List.getElem_drop, List.getElem_modify]
  split_ifs
  · exact .inr ⟨_, hmem, rfl⟩
  · exact .inl hmem

/-- **A slave that has been mapped.** -/
theorem mapMbxState_wired {ω : Type} (m : SmLoop ω) {l : SmLocals ω} {slv : EcSlave}
    (hl : l.fmmuNext = 0) (hfresh : ∀ f ∈ slv.fmmu, f.Fresh) (logMbxState bitlen : ℕ) :
    (mapMbxState logMbxState bitlen (mapSms m l slv).1.fmmuNext (mapSms m l slv).2).2.Wired
      logMbxState := by
  obtain ⟨served, hserves, hfmmu⟩ := foldl_mapSm_serves (m := m) (l := l) slv.pdSm
    (List.nil_append slv.fmmu).symm hl hfresh
  have hconfig := (slave_mapped m l slv hl logMbxState bitlen).config
  obtain ⟨htake, -, -⟩ :=
    mapMbxState_frame logMbxState bitlen (mapSms m l slv).1.fmmuNext (mapSms m l slv).2
  have hnext : (mapSms m l slv).1.fmmuNext = slv.usedSm.length := by
    rw [(mapSms_mapped m l slv).fmmuNext, hl, place_length, List.countP_eq_length_filter,
      Nat.zero_add]
    rfl
  rw [hnext] at htake hconfig ⊢
  have hfmmu : (mapSms m l slv).2.fmmu = served ++ slv.fmmu.drop served.length := hfmmu
  have hserved : served.length = min slv.fmmu.length slv.usedSm.length := by
    rw [hserves.length_eq, List.length_take]
    rfl
  have hother : ∀ f ∈ (mapSms m l slv).2.fmmu.drop slv.usedSm.length, f.Fresh := by
    intro f hf
    rw [hfmmu, List.drop_append, List.drop_eq_nil_of_le (by omega), List.nil_append,
      List.drop_drop] at hf
    exact hfresh f (List.mem_of_mem_drop hf)
  have hmem : ∀ f ∈ (mapMbxState logMbxState bitlen slv.usedSm.length
      (mapSms m l slv).2).2.fmmu.drop slv.usedSm.length,
      f.Fresh ∨ ∃ g : EcSlaveFmmu, g.Fresh ∧ f = g.mapMbxState logMbxState bitlen := by
    intro f hf
    rw [mapMbxState] at hf
    split_ifs at hf with hmbx hleft
    · obtain hf | ⟨g, hg, heq⟩ := mem_drop_modify hf
      · exact .inl (hother f hf)
      · exact .inr ⟨g, hother g hg, heq⟩
    · exact .inl (hother f hf)
    · exact .inl (hother f hf)
  generalize (mapMbxState logMbxState bitlen slv.usedSm.length (mapSms m l slv).2).2 = slv' at *
  have hused : slv'.usedSm = slv.usedSm := by rw [EcSlave.usedSm, hconfig.pdSm]; rfl
  refine ⟨?_, fun f hf => ?_⟩
  · rw [pdFmmus_eq, EcSlave.sites, hused, hconfig.fmmu_length, htake, hfmmu]
    by_cases hle : slv.usedSm.length ≤ slv.fmmu.length
    · rwa [List.take_left' (by omega)]
    · rw [List.drop_eq_nil_of_le (by omega), List.append_nil, List.take_of_length_le (by omega)]
      exact hserves
  · rw [EcSlave.otherFmmus, hused] at hf
    obtain hf | ⟨g, -, rfl⟩ := hmem f hf
    · rw [hf.logBitStop, hf.isOn]
      exact ⟨by decide, fun h => absurd h (by decide)⟩
    · have hwrites : ((1 : UInt8) &&& 2 != 0) = false := by decide
      refine ⟨?_, fun _ => ⟨hwrites, Nat.le_add_right _ _⟩⟩
      rw [EcSlaveFmmu.mapMbxState, UInt8.toNat_ofNat']
      omega

/-! ## Windows of one direction -/

theorem place_follow (d : Bool) (b : Bool → ℕ) (sms : List EcSlaveSm) :
    Window.Follow (b d) ((place b sms).filter fun w => w.isOutput == d) := by
  induction sms generalizing b with
  | nil => trivial
  | cons sm sms ih =>
    have hrest := ih (advance b sm)
    cases hsm : sm.isEmpty with
    | true =>
      rw [advance_eq_self hsm] at hrest
      rwa [place_cons_empty hsm]
    | false =>
      rw [place_cons hsm]
      by_cases hd : sm.isOutput = d
      · subst hd
        simpa [Window.Follow, advance] using hrest
      · simpa [hd, advance] using hrest

/-- **The windows of one direction** of a mapped slave. -/
theorem SlaveMapped.follow {slv slv' : EcSlave} {ptr log : Bool → ℕ}
    (h : SlaveMapped slv ptr log slv') (d : Bool) : Window.Follow (log d) (slv'.dirWindows d) := by
  rw [EcSlave.dirWindows, h.pdWindows_eq]
  exact (place_follow d log slv.pdSm).of_isPrefix ((List.take_prefix _ _).filter _)

/-- The process data of a slave in direction `d` lies from `p + o` on in the image and its windows
from `l + o` on. -/
structure EcSlave.LiesAt (slv : EcSlave) (d : Bool) (p l o : ℕ) : Prop where
  follow : Window.Follow (l + o) (slv.dirWindows d)
  pd : slv.dirWindows d ≠ [] → (slv.side d).pd = some (p + o)
  len : (slv.side d).len = winLen d slv.pdWindows

theorem SlaveMapped.liesAt {slv slv' : EcSlave} {ptr log : Bool → ℕ}
    (h : SlaveMapped slv ptr log slv') {d : Bool} (hlen : (slv.side d).len = 0) {p l : ℕ}
    (hptr : slv'.PtrMatches d p l) : ∃ o, slv'.LiesAt d p l o := by
  have hsum : (slv'.side d).len = winLen d slv'.pdWindows := by
    rw [h.len, hlen, h.windows, winLen_map_shiftWindow, Nat.zero_add]
  have hfollow := h.follow d
  cases hws : slv'.dirWindows d with
  | nil => exact ⟨0, by rw [hws]; trivial, fun hne => absurd hws hne, hsum⟩
  | cons w ws =>
    rw [hws] at hfollow
    have hstart : winStart d slv'.pdWindows = some (log d) := by
      rw [winStart, ← EcSlave.dirWindows, hws, ← hfollow.1]
      rfl
    obtain ⟨o, hpd, ho⟩ := hptr _ hstart
    exact ⟨o, by rw [hws, ← ho]; exact hfollow, fun _ => hpd, hsum⟩

/-! ## A group -/

/-- The addresses of the process data of a slave. -/
def EcSlave.region (slv : EcSlave) : Set ℕ := Window.regions slv.pdWindows

/-- A group that has been mapped: its slaves, and where image and windows have their data. -/
structure GroupWired (group : ℕ) (pd : EcPdGroup) (slaves : List EcSlave) : Prop where
  wired : ∀ slv ∈ slaves.filter (EcSlave.inGroup group), slv.Wired pd.logMbxState
  outputs : ∀ slv ∈ slaves.filter (EcSlave.inGroup group), ∃ o, slv.LiesAt true 0 pd.log o
  inputs : ∀ slv ∈ slaves.filter (EcSlave.inGroup group), ∃ p l o, slv.LiesAt false p l o ∧
    p + pd.inputAddr 0 = l + pd.pdoutLen
  apart : (slaves.filter (EcSlave.inGroup group)).Pairwise fun s s' => Disjoint s.region s'.region
  outputWindows : ∀ slv ∈ slaves.filter (EcSlave.inGroup group), ∀ w ∈ slv.dirWindows true,
    w.region ⊆ Set.Ico pd.log (pd.log + pd.pdoutLen)
  inputWindows : ∀ slv ∈ slaves.filter (EcSlave.inGroup group), ∀ w ∈ slv.dirWindows false,
    w.region ⊆ Set.Ico (pd.inputAddr 0) (pd.inputAddr 0 + pd.pdinLen)

/-- Nothing has been mapped for the slaves of the group, and their FMMUs are cleared. -/
structure Cleared (group : ℕ) (slaves : List EcSlave) : Prop where
  unmapped : Unmapped group slaves
  fresh : ∀ slv ∈ slaves, slv.inGroup group = true → ∀ f ∈ slv.fmmu, f.Fresh

/-- What a pass of either loop makes of a slave. -/
structure PassWired (logMbxState : ℕ) (slv slv' : EcSlave) : Prop where
  mapped : ∃ ptr log, SlaveMapped slv ptr log slv'
  wired : (∀ f ∈ slv.fmmu, f.Fresh) → slv'.Wired logMbxState

theorem PassWired.liesAt {logMbxState : ℕ} {slv slv' : EcSlave} (h : PassWired logMbxState slv slv')
    {d : Bool} (hlen : (slv.side d).len = 0) {p l : ℕ} (hptr : slv'.PtrMatches d p l) :
    ∃ o, slv'.LiesAt d p l o :=
  let ⟨_, _, hmapped⟩ := h.mapped
  hmapped.liesAt hlen hptr

theorem overlapping_pass (logMbxState : ℕ) (c : Overlapping.Locals) (slv : EcSlave) :
    PassWired logMbxState slv (Overlapping.mapSlave logMbxState c slv).2 :=
  ⟨⟨_, _, Overlapping.mapSlave_slaveMapped logMbxState c slv⟩,
    fun hfresh => mapMbxState_wired _ rfl hfresh logMbxState _⟩

theorem separate_pass (logMbxState : ℕ) (c : Separate.Locals) (slv : EcSlave) :
    PassWired logMbxState slv (Separate.mapSlave logMbxState c slv).2 :=
  ⟨⟨_, _, Separate.mapSlave_slaveMapped logMbxState c slv⟩,
    fun hfresh => mapMbxState_wired _ rfl hfresh logMbxState _⟩

/-- Where a slave of a mapped group comes from. -/
theorem exists_pass {σ : Type} {f : σ → EcSlave → σ × EcSlave} {logMbxState group : ℕ}
    {slaves : List EcSlave}
    (hf : ∀ c slv, PassWired logMbxState slv (f c slv).2) (hcleared : Cleared group slaves)
    (c : σ) :
    ∀ slv' ∈ (Loop.threadIf (EcSlave.inGroup group) f c slaves).2.filter (EcSlave.inGroup group),
      ∃ slv, PassWired logMbxState slv slv' ∧ (∀ f ∈ slv.fmmu, f.Fresh) ∧
        ∀ d, (slv.side d).len = 0 := by
  intro slv' hslv'
  have hsame : ∀ c (slv : EcSlave), slv.inGroup group = true →
      (f c slv).2.inGroup group = true := by
    intro c slv hg
    obtain ⟨_, _, hmapped⟩ := (hf c slv).mapped
    rwa [hmapped.config.inGroup]
  rw [(Loop.threadIf_filter hsame c slaves).2] at hslv'
  obtain ⟨c', slv, hslv, rfl⟩ := Loop.mem_thread hslv'
  have hmem := List.mem_filter.1 hslv
  exact ⟨slv, hf c' slv, hcleared.fresh slv hmem.1 hmem.2, hcleared.unmapped.side hslv⟩

section
variable {group : ℕ} {pd : EcPdGroup} {slaves : List EcSlave}

theorem Overlapping.mapSlave_region (c : Overlapping.Locals) (slv : EcSlave) :
    (mapSlave pd.logMbxState c slv).2.region ⊆
      Set.Ico c.logBase (mapSlave pd.logMbxState c slv).1.logBase := by
  rintro a ⟨w, hw, ha⟩
  exact mapSlave_dirRegion pd w.isOutput c slv ⟨w, List.mem_filter.2 ⟨hw, by simp⟩, ha⟩

/-- **The overlapping mapping.** -/
theorem overlapping_wired (hcleared : Cleared group slaves) (hover : pd.overlapping ≠ 0)
    (hfmmus : FmmusSuffice group slaves) :
    GroupWired group (ecCreateLogicalMappingOverlapping group pd slaves).1
      (ecCreateLogicalMappingOverlapping group pd slaves).2 := by
  have hcoherent := (overlapping_coherent_iff group pd slaves hcleared.unmapped).2 hfmmus
  have hpass := exists_pass (overlapping_pass pd.logMbxState) hcleared
    (Overlapping.start group pd slaves)
  have hinput : (ecCreateLogicalMappingOverlapping group pd slaves).1.inputAddr 0 = pd.log :=
    if_pos hover
  have hinside : ∀ slv ∈ (ecCreateLogicalMappingOverlapping group pd slaves).2.filter
      (EcSlave.inGroup group), ∀ d, ∀ w ∈ slv.dirWindows d,
      w.region ⊆ Set.Ico pd.log (pd.log + Overlapping.groupLen group slaves) :=
    fun slv hslv d w hw =>
      Overlapping.pdWindows_inside group pd slaves slv hslv w (List.mem_filter.1 hw).1
  refine ⟨fun slv' hslv' => ?_, fun slv' hslv' => ?_, fun slv' hslv' => ?_, ?_,
    fun slv hslv => hinside slv hslv true, fun slv hslv => ?_⟩
  · obtain ⟨slv, hwired, hfresh, -⟩ := hpass slv' hslv'
    exact hwired.wired hfresh
  · obtain ⟨slv, hwired, -, hlen⟩ := hpass slv' hslv'
    exact hwired.liesAt (hlen true) (hcoherent.pdout slv' hslv')
  · obtain ⟨slv, hwired, -, hlen⟩ := hpass slv' hslv'
    obtain ⟨o, ho⟩ := hwired.liesAt (hlen false) (hcoherent.pdin slv' hslv')
    exact ⟨_, _, o, ho, by rw [hinput, Nat.add_comm]; rfl⟩
  · rw [Overlapping.slaves_inGroup]
    exact Loop.thread_pairwise_disjoint Overlapping.Locals.logBase EcSlave.region
      (Overlapping.le_mapSlave_logBase pd) Overlapping.mapSlave_region _ _
  · rw [hinput]
    exact hinside slv hslv false

/-- **The mapping without overlap.** -/
theorem separate_wired (hcleared : Cleared group slaves) (hover : pd.overlapping = 0) :
    GroupWired group (ecCreateLogicalMapping group pd slaves).1
      (ecCreateLogicalMapping group pd slaves).2 := by
  have hpartitioned := separate_partitioned group pd slaves hcleared.unmapped
  have hpass := exists_pass (separate_pass pd.logMbxState) hcleared (Separate.start group pd slaves)
  have hinput : (ecCreateLogicalMapping group pd slaves).1.inputAddr 0 =
      pd.log + Separate.groupOutLen group slaves := if_neg (not_not.2 hover)
  have hliesAt : ∀ slv ∈ (ecCreateLogicalMapping group pd slaves).2.filter (EcSlave.inGroup group),
      ∀ d, ∃ o, slv.LiesAt d 0 pd.log o := by
    intro slv' hslv' d
    obtain ⟨slv, hwired, -, hlen⟩ := hpass slv' hslv'
    exact hwired.liesAt (hlen d) (hpartitioned.pointers slv' hslv' d)
  refine ⟨fun slv' hslv' => ?_, fun slv hslv => hliesAt slv hslv true, fun slv hslv => ?_, ?_,
    fun slv hslv w hw => ?_, fun slv hslv w hw => ?_⟩
  · obtain ⟨slv, hwired, hfresh, -⟩ := hpass slv' hslv'
    exact hwired.wired hfresh
  · obtain ⟨o, ho⟩ := hliesAt slv hslv false
    exact ⟨0, pd.log, o, ho, by rw [hinput, Nat.zero_add]; rfl⟩
  · refine (List.pairwise_flatMap.1 hpartitioned.disjoint).2.imp fun {s s'} h => ?_
    rw [Set.disjoint_left]
    rintro a ⟨w, hw, ha⟩ ⟨w', hw', ha'⟩
    exact Set.disjoint_left.1 (h w hw w' hw') ha ha'
  · obtain ⟨hmem, ho⟩ := List.mem_filter.1 hw
    exact hpartitioned.outputs slv hslv w hmem (by simpa using ho)
  · obtain ⟨hmem, ho⟩ := List.mem_filter.1 hw
    have h := hpartitioned.inputs slv hslv w hmem (by simpa using ho)
    rw [hinput, Nat.add_assoc]
    exact h

end

end LibEthercat
