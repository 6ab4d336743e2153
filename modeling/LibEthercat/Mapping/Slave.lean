import LibEthercat.Lib.Windows
import LibEthercat.Mapping.Model

/-!
# What the mapping does to one slave

The loop over the sync managers of a slave has the same shape in both mapping functions. Its
result is stated against a layout that knows nothing of FMMUs or pointers: `place` puts the
non-empty sync managers one after the other, the outputs from one address on and the inputs
from another.

* `SmsMapped` — the effect of the whole loop: the FMMUs taken hold the first windows of the
  layout, as many as there are FMMUs, the slave's process data are the sums of these, and its
  pointers the starts of the first ones.
* `mapSms_mapped` — both mapping functions have that effect.

Outputs and inputs are treated alike: `true` stands for outputs and `false` for inputs.
-/

namespace LibEthercat

/-! ## Both directions at once -/

def SmLocals.ptr {ω : Type} (l : SmLocals ω) : Bool → ℕ
  | true => l.pdout
  | false => l.pdin

def SmLocals.log {ω : Type} (l : SmLocals ω) : Bool → ℕ
  | true => l.logBaseOut
  | false => l.logBaseIn

/-- The process data of the slave in one direction. -/
def EcSlave.side (slv : EcSlave) : Bool → EcPd
  | true => slv.pdout
  | false => slv.pdin

def SmLoop.count {ω : Type} (m : SmLoop ω) (wkc : ω) (w : Window) : ω :=
  if w.isOutput then m.countOut wkc else m.countIn wkc

/-- The FMMU type of a direction. -/
def fmmuType (d : Bool) : UInt8 := if d then 2 else 1

/-- The bytes of the sync managers of one direction. -/
def smLen (d : Bool) (sms : List EcSlaveSm) : ℕ :=
  ((sms.filter fun sm => sm.isOutput == d).map fun sm => sm.len.toNat).sum

theorem smLen_true (sms : List EcSlaveSm) : smLen true sms = outLen sms := by
  simp [smLen, outLen]

theorem smLen_false (sms : List EcSlaveSm) : smLen false sms = inLen sms := by
  simp [smLen, inLen]

@[simp] theorem smLen_nil (d : Bool) : smLen d [] = 0 := rfl

theorem smLen_cons (d : Bool) (sm : EcSlaveSm) (sms : List EcSlaveSm) :
    smLen d (sm :: sms) = (if sm.isOutput = d then sm.len.toNat else 0) + smLen d sms := by
  by_cases h : sm.isOutput = d <;> simp [smLen, h]

theorem EcSlaveSm.len_eq_zero {sm : EcSlaveSm} (h : sm.isEmpty = true) : sm.len.toNat = 0 := by
  simp only [isEmpty, beq_iff_eq] at h
  simp [h]

theorem EcSlaveSm.len_pos {sm : EcSlaveSm} (h : sm.isEmpty = false) : 0 < sm.len.toNat := by
  simp only [isEmpty, beq_eq_false_iff_ne, ne_eq] at h
  exact Nat.pos_of_ne_zero fun h' => h (UInt16.toNat_inj.1 h')

/-! ## The layout -/

/-- The window of a process data FMMU. -/
def EcSlaveFmmu.window (f : EcSlaveFmmu) : Window := ⟨f.log, f.logLen.toNat, f.type == 2⟩

/-- The bases after a sync manager. -/
def advance (b : Bool → ℕ) (sm : EcSlaveSm) (d : Bool) : ℕ :=
  b d + if sm.isOutput = d then sm.len.toNat else 0

/-- The windows of the non-empty sync managers, those of direction `d` from `b d` on. -/
def place : (Bool → ℕ) → List EcSlaveSm → List Window
  | _, [] => []
  | b, sm :: sms =>
    if sm.isEmpty then place b sms
    else ⟨b sm.isOutput, sm.len.toNat, sm.isOutput⟩ :: place (advance b sm) sms

/-- The bytes of the windows of one direction. -/
def winLen (d : Bool) (ws : List Window) : ℕ :=
  ((ws.filter fun w => w.isOutput == d).map Window.len).sum

/-- The start of the first window of one direction. -/
def winStart (d : Bool) (ws : List Window) : Option ℕ :=
  ((ws.filter fun w => w.isOutput == d).head?).map Window.start

@[simp] theorem place_nil (b : Bool → ℕ) : place b [] = [] := rfl

theorem place_cons_empty {b : Bool → ℕ} {sm : EcSlaveSm} {sms : List EcSlaveSm}
    (h : sm.isEmpty = true) : place b (sm :: sms) = place b sms := by
  simp [place, h]

theorem place_cons {b : Bool → ℕ} {sm : EcSlaveSm} {sms : List EcSlaveSm}
    (h : sm.isEmpty = false) :
    place b (sm :: sms) =
      ⟨b sm.isOutput, sm.len.toNat, sm.isOutput⟩ :: place (advance b sm) sms := by
  simp [place, h]

theorem advance_eq_self {sm : EcSlaveSm} (h : sm.isEmpty = true) (b : Bool → ℕ) :
    advance b sm = b := by
  funext d
  simp [advance, sm.len_eq_zero h]

/-- How many windows there are does not depend on where they start. -/
theorem place_length (b : Bool → ℕ) (sms : List EcSlaveSm) :
    (place b sms).length = sms.countP fun sm => !sm.isEmpty := by
  induction sms generalizing b with
  | nil => rfl
  | cons sm sms ih =>
    cases h : sm.isEmpty with
    | true => simp [place_cons_empty h, ih, h]
    | false => simp [place_cons h, ih, h]

/-- Moving the bases moves every window by the offset of its direction. -/
theorem place_shift (b s : Bool → ℕ) (sms : List EcSlaveSm) :
    place (fun d => b d + s d) sms =
      (place b sms).map fun w => { w with start := w.start + s w.isOutput } := by
  induction sms generalizing b with
  | nil => rfl
  | cons sm sms ih =>
    cases h : sm.isEmpty with
    | true => rw [place_cons_empty h, place_cons_empty h, ih]
    | false =>
      have hadv : advance (fun d => b d + s d) sm = fun d => advance b sm d + s d := by
        funext d
        simp only [advance]
        omega
      rw [place_cons h, place_cons h, hadv, ih, List.map_cons]

@[simp] theorem winLen_nil (d : Bool) : winLen d [] = 0 := rfl

@[simp] theorem winStart_nil (d : Bool) : winStart d [] = none := rfl

theorem winLen_cons (d : Bool) (w : Window) (ws : List Window) :
    winLen d (w :: ws) = (if w.isOutput = d then w.len else 0) + winLen d ws := by
  by_cases h : w.isOutput = d <;> simp [winLen, h]

theorem winStart_cons (d : Bool) (w : Window) (ws : List Window) :
    winStart d (w :: ws) = if w.isOutput = d then some w.start else winStart d ws := by
  by_cases h : w.isOutput = d <;> simp [winStart, h]

theorem place_len_pos (b : Bool → ℕ) (sms : List EcSlaveSm) : ∀ w ∈ place b sms, 0 < w.len := by
  induction sms generalizing b with
  | nil => simp
  | cons sm sms ih =>
    cases h : sm.isEmpty with
    | true => rw [place_cons_empty h]; exact ih b
    | false =>
      rw [place_cons h]
      rintro w (_ | ⟨_, hw⟩)
      · exact sm.len_pos h
      · exact ih _ w hw

/-- The windows of one direction follow each other and end where its sync managers end. -/
theorem place_packed (d : Bool) (b : Bool → ℕ) (sms : List EcSlaveSm) :
    Window.Packed (b d) (b d + smLen d sms) ((place b sms).filter fun w => w.isOutput == d) := by
  induction sms generalizing b with
  | nil => simp
  | cons sm sms ih =>
    have h1 := ih (advance b sm)
    have hle : advance b sm d + smLen d sms = b d + smLen d (sm :: sms) := by
      rw [smLen_cons, advance]
      omega
    rw [hle] at h1
    cases h : sm.isEmpty with
    | true =>
      rw [advance_eq_self h] at h1
      rwa [place_cons_empty h]
    | false =>
      rw [place_cons h]
      by_cases hd : sm.isOutput = d
      · subst hd
        simpa [advance] using h1
      · simpa [hd, advance] using h1

/-- The windows of one direction hold all bytes of its sync managers. -/
theorem winLen_place (d : Bool) (b : Bool → ℕ) (sms : List EcSlaveSm) :
    winLen d (place b sms) = smLen d sms := by
  induction sms generalizing b with
  | nil => rfl
  | cons sm sms ih =>
    cases h : sm.isEmpty with
    | true => rw [place_cons_empty h, ih, smLen_cons, sm.len_eq_zero h]; simp
    | false =>
      rw [place_cons h, smLen_cons, winLen_cons, ih]

/-! ## One sync manager -/

section

variable {ω : Type} {m : SmLoop ω}

/-- What a pass of the loop does with a non-empty sync manager: the cursors of its direction
move on in any case, the FMMU and the process data only when an FMMU is left. -/
structure SmStep (m : SmLoop ω) (l : SmLocals ω) (slv : EcSlave) (sm : EcSlaveSm)
    (r : SmLocals ω × EcSlave) : Prop where
  fmmuNext : r.1.fmmuNext = l.fmmuNext + 1
  ptr : r.1.ptr = advance l.ptr sm
  log : r.1.log = advance l.log sm
  wkc : r.1.wkc = if l.fmmuNext < slv.fmmu.length then
      m.count l.wkc ⟨l.log sm.isOutput, sm.len.toNat, sm.isOutput⟩ else l.wkc
  fmmu : r.2.fmmu = slv.fmmu.modify l.fmmuNext fun f =>
      f.mapSm (l.log sm.isOutput) (fmmuType sm.isOutput) sm
  side : ∀ d, r.2.side d = if l.fmmuNext < slv.fmmu.length ∧ sm.isOutput = d then
      (slv.side d).add (l.ptr d) sm.len.toNat else slv.side d
  frame : r.2 = { slv with fmmu := r.2.fmmu, pdin := r.2.pdin, pdout := r.2.pdout,
                           subdevs := r.2.subdevs }

theorem mapSm_empty {sm : EcSlaveSm} (h : sm.isEmpty = true) (s : SmLocals ω × EcSlave) :
    mapSm m s sm = s := by
  simp [mapSm, h]

theorem mapOutputSm_step {sm : EcSlaveSm} (ho : sm.isOutput = true) (l : SmLocals ω)
    (slv : EcSlave) : SmStep m l slv sm (mapOutputSm m l slv sm) := by
  by_cases hn : l.fmmuNext < slv.fmmu.length
  · simp only [mapOutputSm, hn, if_true]
    refine ⟨rfl, ?_, ?_, ?_, ?_, ?_, rfl⟩
    · funext d; cases d <;> simp [SmLocals.ptr, advance, ho]
    · funext d; cases d <;> simp [SmLocals.log, advance, ho]
    · simp [SmLoop.count, hn, ho]
    · simp [SmLocals.log, fmmuType, ho]
    · rintro (_ | _) <;> simp [EcSlave.side, SmLocals.ptr, ho, hn]
  · simp only [mapOutputSm, hn, if_false]
    refine ⟨rfl, ?_, ?_, ?_, ?_, ?_, rfl⟩
    · funext d; cases d <;> simp [SmLocals.ptr, advance, ho]
    · funext d; cases d <;> simp [SmLocals.log, advance, ho]
    · simp [hn]
    · rw [List.modify_eq_self (by omega)]
    · simp [hn]

theorem mapInputSm_step {sm : EcSlaveSm} (ho : sm.isOutput = false) (l : SmLocals ω)
    (slv : EcSlave) : SmStep m l slv sm (mapInputSm m l slv sm) := by
  by_cases hn : l.fmmuNext < slv.fmmu.length
  · simp only [mapInputSm, hn, if_true]
    refine ⟨rfl, ?_, ?_, ?_, ?_, ?_, rfl⟩
    · funext d; cases d <;> simp [SmLocals.ptr, advance, ho]
    · funext d; cases d <;> simp [SmLocals.log, advance, ho]
    · simp [SmLoop.count, hn, ho]
    · simp [SmLocals.log, fmmuType, ho]
    · rintro (_ | _) <;> simp [EcSlave.side, SmLocals.ptr, ho, hn]
  · simp only [mapInputSm, hn, if_false]
    refine ⟨rfl, ?_, ?_, ?_, ?_, ?_, rfl⟩
    · funext d; cases d <;> simp [SmLocals.ptr, advance, ho]
    · funext d; cases d <;> simp [SmLocals.log, advance, ho]
    · simp [hn]
    · rw [List.modify_eq_self (by omega)]
    · simp [hn]

theorem mapSm_step {sm : EcSlaveSm} (h : sm.isEmpty = false) (l : SmLocals ω) (slv : EcSlave) :
    SmStep m l slv sm (mapSm m (l, slv) sm) := by
  cases ho : sm.isOutput with
  | true => simpa [mapSm, h, ho] using mapOutputSm_step ho l slv
  | false => simpa [mapSm, h, ho] using mapInputSm_step ho l slv

/-! ## All sync managers -/

@[simp] theorem window_mapSm (f : EcSlaveFmmu) (log : ℕ) (d : Bool) (sm : EcSlaveSm) :
    (f.mapSm log (fmmuType d) sm).window = ⟨log, sm.len.toNat, d⟩ := by
  cases d <;> rfl

@[simp] theorem EcPd.add_len (pd : EcPd) (p len : ℕ) : (pd.add p len).len = pd.len + len := by
  by_cases h : pd.len = 0 <;> simp [add, h]

theorem EcPd.add_pd (pd : EcPd) (p len : ℕ) :
    (pd.add p len).pd = if pd.len = 0 then some p else pd.pd := by
  by_cases h : pd.len = 0 <;> simp [add, h]

theorem take_modify_succ {α : Type*} {f : α → α} {i : ℕ} {as : List α} (h : i < as.length) :
    (as.modify i f).take (i + 1) = as.take i ++ [f as[i]] := by
  have hlen : (as.take i).length = i := List.length_take_of_le h.le
  rw [List.modify_eq_take_cons_drop h, List.take_append, hlen, List.take_of_length_le (by omega)]
  simp

/-- The first of the windows gets an FMMU if one is left. -/
theorem take_cons_sub {α : Type*} (n i : ℕ) (a : α) (as : List α) :
    (a :: as).take (n - i) = if i < n then a :: as.take (n - (i + 1)) else [] := by
  split_ifs with h
  · obtain ⟨k, rfl⟩ := Nat.exists_eq_add_of_lt h
    rw [show i + k + 1 - i = k + 1 by omega, show i + k + 1 - (i + 1) = k by omega]
    rfl
  · rw [Nat.sub_eq_zero_of_le (by omega)]
    rfl

/-- **What the loop over the sync managers does.** The first windows of the layout go to the
FMMUs from `fmmuNext` on; those that find no FMMU only move the cursors. -/
structure SmsMapped (m : SmLoop ω) (l : SmLocals ω) (slv : EcSlave) (sms : List EcSlaveSm)
    (r : SmLocals ω × EcSlave) : Prop where
  fmmuNext : r.1.fmmuNext = l.fmmuNext + (place l.log sms).length
  ptr : ∀ d, r.1.ptr d = l.ptr d + smLen d sms
  log : ∀ d, r.1.log d = l.log d + smLen d sms
  wkc : r.1.wkc = ((place l.log sms).take (slv.fmmu.length - l.fmmuNext)).foldl m.count l.wkc
  fmmu_length : r.2.fmmu.length = slv.fmmu.length
  windows : (r.2.fmmu.take r.1.fmmuNext).map EcSlaveFmmu.window =
    (slv.fmmu.take l.fmmuNext).map EcSlaveFmmu.window ++
      (place l.log sms).take (slv.fmmu.length - l.fmmuNext)
  len : ∀ d, (r.2.side d).len =
    (slv.side d).len + winLen d ((place l.log sms).take (slv.fmmu.length - l.fmmuNext))
  pd : ∀ d, (r.2.side d).pd = if (slv.side d).len = 0 then
      (winStart d ((place l.ptr sms).take (slv.fmmu.length - l.fmmuNext))).or (slv.side d).pd
    else (slv.side d).pd
  frame : r.2 = { slv with fmmu := r.2.fmmu, pdin := r.2.pdin, pdout := r.2.pdout,
                           subdevs := r.2.subdevs }

theorem SmsMapped.nil (l : SmLocals ω) (slv : EcSlave) : SmsMapped m l slv [] (l, slv) := by
  constructor <;> simp

theorem SmsMapped.cons_empty {l : SmLocals ω} {slv : EcSlave} {sm : EcSlaveSm}
    {sms : List EcSlaveSm} {r : SmLocals ω × EcSlave} (h : sm.isEmpty = true)
    (hr : SmsMapped m l slv sms r) : SmsMapped m l slv (sm :: sms) r := by
  have hlen : ∀ d, smLen d (sm :: sms) = smLen d sms := fun d => by
    simp [smLen_cons, sm.len_eq_zero h]
  have hplace : ∀ b, place b (sm :: sms) = place b sms := fun b => place_cons_empty h
  exact {
    fmmuNext := by rw [hplace, hr.fmmuNext]
    ptr := fun d => by rw [hlen, hr.ptr]
    log := fun d => by rw [hlen, hr.log]
    wkc := by rw [hplace, hr.wkc]
    fmmu_length := hr.fmmu_length
    windows := by rw [hplace, hr.windows]
    len := fun d => by rw [hplace, hr.len]
    pd := fun d => by rw [hplace, hr.pd]
    frame := hr.frame }

theorem SmsMapped.cons {l : SmLocals ω} {slv : EcSlave} {sm : EcSlaveSm} {sms : List EcSlaveSm}
    {s r : SmLocals ω × EcSlave} (h : sm.isEmpty = false) (hs : SmStep m l slv sm s)
    (hr : SmsMapped m s.1 s.2 sms r) : SmsMapped m l slv (sm :: sms) r := by
  have hcnt : s.2.fmmu.length = slv.fmmu.length := by rw [hs.fmmu, List.length_modify]
  have hplace : place l.log (sm :: sms) =
      ⟨l.log sm.isOutput, sm.len.toNat, sm.isOutput⟩ :: place s.1.log sms := by
    rw [place_cons h, hs.log]
  have hptr : place l.ptr (sm :: sms) =
      ⟨l.ptr sm.isOutput, sm.len.toNat, sm.isOutput⟩ :: place s.1.ptr sms := by
    rw [place_cons h, hs.ptr]
  have hframe : r.2 = { slv with fmmu := r.2.fmmu, pdin := r.2.pdin, pdout := r.2.pdout,
                                 subdevs := r.2.subdevs } := by
    rw [hr.frame, hs.frame]
  have hcur : ∀ (b : Bool → ℕ) d, advance b sm d + smLen d sms = b d + smLen d (sm :: sms) :=
    fun b d => by rw [smLen_cons, advance, Nat.add_assoc]
  refine { fmmuNext := ?_, ptr := ?_, log := ?_, wkc := ?_, fmmu_length := ?_, windows := ?_,
           len := ?_, pd := ?_, frame := hframe }
  · rw [hr.fmmuNext, hs.fmmuNext, hplace, List.length_cons]
    omega
  · intro d
    rw [hr.ptr, hs.ptr, hcur]
  · intro d
    rw [hr.log, hs.log, hcur]
  · rw [hr.wkc, hs.wkc, hplace, hcnt, hs.fmmuNext, take_cons_sub]
    split_ifs with hn
    · rfl
    · rw [Nat.sub_eq_zero_of_le (by omega)]
      rfl
  · rw [hr.fmmu_length, hcnt]
  · rw [hr.windows, hplace, hcnt, hs.fmmuNext, hs.fmmu, take_cons_sub]
    split_ifs with hn
    · simp [take_modify_succ hn]
    · have hall : ∀ i, l.fmmuNext ≤ i → slv.fmmu.take i = slv.fmmu := fun i hi =>
        List.take_of_length_le (by omega)
      rw [List.modify_eq_self (by omega), Nat.sub_eq_zero_of_le (by omega), hall _ le_rfl,
        hall _ (Nat.le_succ _), List.take_zero]
  · intro d
    rw [hr.len, hs.side, hplace, hcnt, hs.fmmuNext, take_cons_sub]
    by_cases hn : l.fmmuNext < slv.fmmu.length
    · by_cases hd : sm.isOutput = d <;> simp [hn, hd, winLen_cons, Nat.add_assoc]
    · simp [hn, Nat.sub_eq_zero_of_le (show slv.fmmu.length ≤ l.fmmuNext + 1 by omega)]
  · intro d
    rw [hr.pd, hs.side, hptr, hcnt, hs.fmmuNext, take_cons_sub]
    have hpos := sm.len_pos h
    by_cases hn : l.fmmuNext < slv.fmmu.length
    · by_cases hd : sm.isOutput = d
      · subst hd
        simp [hn, winStart_cons, EcPd.add_pd, hpos.ne']
      · simp [hn, hd, winStart_cons]
    · simp [hn, Nat.sub_eq_zero_of_le (show slv.fmmu.length ≤ l.fmmuNext + 1 by omega)]

theorem foldl_mapSm_mapped (m : SmLoop ω) (l : SmLocals ω) (slv : EcSlave)
    (sms : List EcSlaveSm) : SmsMapped m l slv sms (sms.foldl (mapSm m) (l, slv)) := by
  induction sms generalizing l slv with
  | nil => exact SmsMapped.nil l slv
  | cons sm sms ih =>
    rw [List.foldl_cons]
    cases h : sm.isEmpty with
    | true =>
      rw [mapSm_empty h]
      exact (ih l slv).cons_empty h
    | false => exact (ih _ _).cons h (mapSm_step h l slv)

end

/-! ## The slave -/

/-- The layout of the sync managers that get an FMMU, from address 0 on in both directions. -/
def EcSlave.mapped (slv : EcSlave) : List Window :=
  (place (fun _ => 0) slv.pdSm).take slv.fmmu.length

/-- The FMMUs of the process data: one for each non-empty sync manager, while there are any. -/
def EcSlave.pdFmmus (slv : EcSlave) : List EcSlaveFmmu :=
  slv.fmmu.take (slv.pdSm.countP fun sm => !sm.isEmpty)

/-- The windows of the process data FMMUs. -/
def EcSlave.pdWindows (slv : EcSlave) : List Window := slv.pdFmmus.map EcSlaveFmmu.window

/-- The windows of one direction. -/
def EcSlave.dirWindows (d : Bool) (slv : EcSlave) : List Window :=
  slv.pdWindows.filter fun w => w.isOutput == d

/-- The addresses of one direction. -/
def EcSlave.dirRegion (d : Bool) (slv : EcSlave) : Set ℕ := Window.regions (slv.dirWindows d)

/-- Move a window by the offset of its direction. -/
def shiftWindow (b : Bool → ℕ) (w : Window) : Window := { w with start := b w.isOutput + w.start }

theorem take_place (b : Bool → ℕ) (slv : EcSlave) :
    (place b slv.pdSm).take slv.fmmu.length = slv.mapped.map (shiftWindow b) := by
  have h := place_shift (fun _ => 0) b slv.pdSm
  simp only [Nat.zero_add] at h
  rw [h, EcSlave.mapped, ← List.map_take]
  exact List.map_congr_left fun w _ => by simp only [shiftWindow, Nat.add_comm]

theorem filter_map_shiftWindow (b : Bool → ℕ) (d : Bool) (ws : List Window) :
    (ws.map (shiftWindow b)).filter (fun w => w.isOutput == d) =
      (ws.filter fun w => w.isOutput == d).map (shiftWindow b) :=
  List.filter_map

theorem winLen_map_shiftWindow (b : Bool → ℕ) (d : Bool) (ws : List Window) :
    winLen d (ws.map (shiftWindow b)) = winLen d ws := by
  rw [winLen, winLen, filter_map_shiftWindow, List.map_map]
  rfl

theorem winStart_map_shiftWindow (b : Bool → ℕ) (d : Bool) (ws : List Window) :
    winStart d (ws.map (shiftWindow b)) = (winStart d ws).map (b d + ·) := by
  rw [winStart, winStart, filter_map_shiftWindow, List.head?_map, Option.map_map, Option.map_map]
  cases h : (ws.filter fun w => w.isOutput == d).head? with
  | none => rfl
  | some w =>
    have hw : w.isOutput = d := by simpa using List.of_mem_filter (List.mem_of_mem_head? h)
    simp [shiftWindow, hw]

theorem foldl_count_shiftWindow {ω : Type} (m : SmLoop ω) (b : Bool → ℕ) (wkc : ω)
    (ws : List Window) : (ws.map (shiftWindow b)).foldl m.count wkc = ws.foldl m.count wkc :=
  List.foldl_map

/-- What the mapping reads of a slave and never writes. -/
structure EcSlave.SameConfig (slv slv' : EcSlave) : Prop where
  sm : slv'.sm = slv.sm
  mbxSupported : slv'.mbxSupported = slv.mbxSupported
  fmmu_length : slv'.fmmu.length = slv.fmmu.length
  features : slv'.features = slv.features
  assignedPdGroup : slv'.assignedPdGroup = slv.assignedPdGroup

theorem EcSlave.SameConfig.refl (slv : EcSlave) : slv.SameConfig slv := ⟨rfl, rfl, rfl, rfl, rfl⟩

theorem EcSlave.SameConfig.trans {a b c : EcSlave} (h : a.SameConfig b) (h' : b.SameConfig c) :
    a.SameConfig c :=
  ⟨h'.sm.trans h.sm, h'.mbxSupported.trans h.mbxSupported, h'.fmmu_length.trans h.fmmu_length,
    h'.features.trans h.features, h'.assignedPdGroup.trans h.assignedPdGroup⟩

theorem EcSlave.SameConfig.pdSm {slv slv' : EcSlave} (h : slv.SameConfig slv') :
    slv'.pdSm = slv.pdSm := by
  rw [EcSlave.pdSm, EcSlave.pdSm, h.sm, h.mbxSupported]

theorem EcSlave.SameConfig.mapped {slv slv' : EcSlave} (h : slv.SameConfig slv') :
    slv'.mapped = slv.mapped := by
  rw [EcSlave.mapped, EcSlave.mapped, h.pdSm, h.fmmu_length]

theorem EcSlave.SameConfig.inGroup {slv slv' : EcSlave} (h : slv.SameConfig slv') (group : ℕ) :
    slv'.inGroup group = slv.inGroup group := by
  rw [EcSlave.inGroup, EcSlave.inGroup, h.assignedPdGroup]

/-- The result of mapping a slave, when `ptr` and `log` are the cursors in front of it. -/
structure SlaveMapped (slv : EcSlave) (ptr log : Bool → ℕ) (slv' : EcSlave) : Prop where
  config : slv.SameConfig slv'
  windows : slv'.pdWindows = slv.mapped.map (shiftWindow log)
  len : ∀ d, (slv'.side d).len = (slv.side d).len + winLen d slv.mapped
  pd : ∀ d, (slv'.side d).pd = if (slv.side d).len = 0 then
      ((winStart d slv.mapped).map (ptr d + ·)).or (slv.side d).pd else (slv.side d).pd

theorem SlaveMapped.pdWindows_eq {slv slv' : EcSlave} {ptr log : Bool → ℕ}
    (h : SlaveMapped slv ptr log slv') :
    slv'.pdWindows = (place log slv.pdSm).take slv.fmmu.length := by
  rw [h.windows, take_place]

/-- The windows of one direction lie one after the other behind its cursor. -/
theorem SlaveMapped.packed {slv slv' : EcSlave} {ptr log : Bool → ℕ}
    (h : SlaveMapped slv ptr log slv') (d : Bool) :
    Window.Packed (log d) (log d + smLen d slv.pdSm) (slv'.dirWindows d) := by
  rw [EcSlave.dirWindows, h.pdWindows_eq]
  exact (place_packed d log slv.pdSm).sublist ((List.take_sublist _ _).filter _)

theorem winLen_append (d : Bool) (ws ws' : List Window) :
    winLen d (ws ++ ws') = winLen d ws + winLen d ws' := by
  simp [winLen]

/-- Without an FMMU for every sync manager some bytes stay unmapped. -/
theorem winLen_mapped_le (d : Bool) (slv : EcSlave) :
    winLen d slv.mapped ≤ smLen d slv.pdSm := by
  have h := winLen_place d (fun _ => 0) slv.pdSm
  rw [← List.take_append_drop slv.fmmu.length (place _ slv.pdSm), winLen_append] at h
  rw [EcSlave.mapped]
  omega

/-- In direction `d` the slave's pointer lies as far behind `p` as its first FMMU behind `l`. -/
def EcSlave.PtrMatches (d : Bool) (p l : ℕ) (slv : EcSlave) : Prop :=
  ∀ a, winStart d slv.pdWindows = some a → ∃ o, (slv.side d).pd = some (p + o) ∧ a = l + o

/-- The pointer matches the FMMU when the cursors match, and only then. -/
theorem SlaveMapped.ptrMatches_iff {slv slv' : EcSlave} {ptr log : Bool → ℕ}
    (h : SlaveMapped slv ptr log slv') (d : Bool) (hlen : (slv.side d).len = 0)
    {p l x y : ℕ} (hp : ptr d = p + x) (hl : log d = l + y) :
    slv'.PtrMatches d p l ↔ (winStart d slv.mapped ≠ none → x = y) := by
  have hw : winStart d slv'.pdWindows = (winStart d slv.mapped).map (log d + ·) := by
    rw [h.windows, winStart_map_shiftWindow]
  have hpd := h.pd d
  rw [if_pos hlen] at hpd
  rw [EcSlave.PtrMatches, hw, hpd]
  cases winStart d slv.mapped with
  | none => simp
  | some a =>
    simp only [Option.map_some, Option.some_or, Option.some.injEq, hp, hl, ne_eq, reduceCtorEq,
      not_false_eq_true, true_implies, forall_eq']
    constructor
    · rintro ⟨o, ho, ho'⟩
      omega
    · rintro rfl
      exact ⟨x + a, by omega, by omega⟩

theorem mapped_ne_nil_iff (slv : EcSlave) :
    slv.mapped ≠ [] ↔ winStart true slv.mapped ≠ none ∨ winStart false slv.mapped ≠ none := by
  cases slv.mapped with
  | nil => simp
  | cons w ws => cases h : w.isOutput <;> simp [winStart_cons, h]

/-- The mailbox part comes after the process data: it changes the FMMU `fmmuNext`, if there is
one, and the mailbox. -/
theorem mapMbxState_frame (logMbxState bitlen fmmuNext : ℕ) (slv : EcSlave) :
    let slv' := (mapMbxState logMbxState bitlen fmmuNext slv).2
    slv'.fmmu.take fmmuNext = slv.fmmu.take fmmuNext ∧
      slv'.fmmu.length = slv.fmmu.length ∧
      slv' = { slv with fmmu := slv'.fmmu, mbx := slv'.mbx } := by
  simp only [mapMbxState]
  split_ifs with h1 h2
  · refine ⟨?_, List.length_modify .., rfl⟩
    rw [List.take_modify, List.modify_eq_self (by simp)]
  · exact ⟨rfl, rfl, rfl⟩
  · exact ⟨rfl, rfl, rfl⟩

section

variable {ω : Type} (m : SmLoop ω) (l : SmLocals ω) (slv : EcSlave)

theorem mapSms_mapped : SmsMapped m l slv slv.pdSm (mapSms m l slv) :=
  foldl_mapSm_mapped m l slv slv.pdSm

/-- The locals after the loop depend on the configuration of the slave alone. -/
theorem mapSms_locals_congr {slv' : EcSlave} (h : slv.SameConfig slv') :
    (mapSms m l slv').1 = (mapSms m l slv).1 := by
  have h1 := mapSms_mapped m l slv
  have h2 := mapSms_mapped m l slv'
  rw [h.pdSm] at h2
  have hnext : (mapSms m l slv').1.fmmuNext = (mapSms m l slv).1.fmmuNext :=
    h2.fmmuNext.trans h1.fmmuNext.symm
  have hptr : ∀ d, (mapSms m l slv').1.ptr d = (mapSms m l slv).1.ptr d := fun d =>
    (h2.ptr d).trans (h1.ptr d).symm
  have hlog : ∀ d, (mapSms m l slv').1.log d = (mapSms m l slv).1.log d := fun d =>
    (h2.log d).trans (h1.log d).symm
  have hwkc : (mapSms m l slv').1.wkc = (mapSms m l slv).1.wkc := by
    rw [h2.wkc, h1.wkc, h.fmmu_length]
  exact SmLocals.ext hnext (hptr true) (hptr false) (hlog true) (hlog false) hwkc

/-- **Both mapping functions map a slave the same way**, once the cursors are given. -/
theorem slave_mapped (hl : l.fmmuNext = 0) (logMbxState bitlen : ℕ) :
    SlaveMapped slv l.ptr l.log
      (mapMbxState logMbxState bitlen (mapSms m l slv).1.fmmuNext (mapSms m l slv).2).2 := by
  have hm := mapSms_mapped m l slv
  obtain ⟨htake, hlen, hframe⟩ :=
    mapMbxState_frame logMbxState bitlen (mapSms m l slv).1.fmmuNext (mapSms m l slv).2
  generalize mapSms m l slv = r at hm htake hlen hframe
  generalize (mapMbxState logMbxState bitlen r.1.fmmuNext r.2).2 = slv' at htake hlen hframe
  have hconfig : slv.SameConfig slv' :=
    { sm := by rw [hframe, hm.frame]
      mbxSupported := by rw [hframe, hm.frame]
      fmmu_length := hlen.trans hm.fmmu_length
      features := by rw [hframe, hm.frame]
      assignedPdGroup := by rw [hframe, hm.frame] }
  have hside : ∀ d, slv'.side d = r.2.side d := by
    rintro (_ | _) <;> rw [hframe] <;> rfl
  have hnext : r.1.fmmuNext = slv'.pdSm.countP fun sm => !sm.isEmpty := by
    rw [hm.fmmuNext, hl, place_length, hconfig.pdSm, Nat.zero_add]
  have htaken : ∀ b, (place b slv.pdSm).take (slv.fmmu.length - l.fmmuNext) =
      slv.mapped.map (shiftWindow b) := fun b => by rw [hl, Nat.sub_zero, take_place]
  refine { config := hconfig, windows := ?_, len := ?_, pd := ?_ }
  · rw [EcSlave.pdWindows, EcSlave.pdFmmus, ← hnext, htake, hm.windows, htaken, hl]
    rfl
  · intro d
    rw [hside, hm.len, htaken, winLen_map_shiftWindow]
  · intro d
    rw [hside, hm.pd, htaken, winStart_map_shiftWindow]

end

end LibEthercat
