import LibEthercat.Eeprom.Steps

/-!
# Clearing the error bits

**Theorem (`clearErrors_halts_iff`).** The loop of `ec_eepromwrite` that clears the error bits ends
if and only if it comes to a datagram that is a way out (`WayOut`): a status that is answered
without error bits, or a datagram that cannot be sent for want of an index or a datagram when the
last one has been answered.

`Clearing` is the loop datagram by datagram, as if it never ended: it writes zero until this is
answered, then reads the status, then writes again. No other reply is a way out. In particular a
lost datagram clears `wkc`, and the loop goes on while `wkc` is zero, whatever `ret` is.
-/

namespace LibEthercat.Eeprom

variable {σ ε : Type} {pec : Ec σ} {slave : ℕ} {w t : World σ} {g : Got 16}

/-- Before a datagram of the loop: whether it reads the status, and the variables. -/
structure Clearing (σ : Type) where
  reading : Bool
  wkc : ℕ
  eepcsr : BitVec 16
  world : World σ

namespace Clearing

def request (pec : Ec σ) (slave : ℕ) (c : Clearing σ) : Request :=
  if c.reading then ecFprd pec slave regEepctl c.eepcsr else ecFpwr pec slave regEepctl c.eepcsr

def reply (pec : Ec σ) (slave : ℕ) (c : Clearing σ) : Reply × σ :=
  pec.send (c.request pec slave) c.world.env

def got (pec : Ec σ) (slave : ℕ) (c : Clearing σ) : Got 16 :=
  (c.reply pec slave).1.got c.wkc c.eepcsr

def sent (pec : Ec σ) (slave : ℕ) (c : Clearing σ) : World σ :=
  c.world.sent (c.request pec slave) (c.reply pec slave)

/-- The loop after the datagram, if that is no way out. -/
def next (pec : Ec σ) (slave : ℕ) (c : Clearing σ) : Clearing σ :=
  if c.reading = false ∧ (c.got pec slave).ret = .ok ∧ (c.got pec slave).wkc ≠ 0 then
    ⟨true, (c.got pec slave).wkc, (c.got pec slave).val, c.sent pec slave⟩
  else ⟨false, (c.got pec slave).wkc, 0#16, c.sent pec slave⟩

/-- The loop ends with this datagram. -/
def WayOut (pec : Ec σ) (slave : ℕ) (c : Clearing σ) : Prop :=
  match (c.reply pec slave).1 with
  | .answer wkc d => c.reading ∧ wkc ≠ 0 ∧ d.setWidth 16 &&& 0x6000#16 = 0#16
  | .timeout => False
  | .outOfIndices | .outOfDatagrams => c.wkc ≠ 0 ∧ c.eepcsr &&& 0x6000#16 = 0#16

/-- What always holds before a datagram. -/
structure Ok (c : Clearing σ) : Prop where
  reading : c.reading = true → c.wkc ≠ 0
  writing : c.reading = false → c.eepcsr = 0#16

theorem next_reading {c : Clearing σ} (h : c.reading = true) :
    c.next pec slave = ⟨false, (c.got pec slave).wkc, 0#16, c.sent pec slave⟩ :=
  if_neg fun hn => absurd (h.symm.trans hn.1) (by decide)

theorem next_writing {c : Clearing σ} (h : c.reading = false) (hret : (c.got pec slave).ret = .ok)
    (hwkc : (c.got pec slave).wkc ≠ 0) : c.next pec slave =
      ⟨true, (c.got pec slave).wkc, (c.got pec slave).val, c.sent pec slave⟩ :=
  if_pos ⟨h, hret, hwkc⟩

theorem next_again {c : Clearing σ}
    (h : ¬ ((c.got pec slave).ret = .ok ∧ (c.got pec slave).wkc ≠ 0)) :
    c.next pec slave = ⟨false, (c.got pec slave).wkc, 0#16, c.sent pec slave⟩ :=
  if_neg fun hn => h hn.2

theorem Ok.next {c : Clearing σ} : Ok (c.next pec slave) := by
  unfold Clearing.next
  split
  · exact ⟨fun _ => And.right (And.right ‹_›), nofun⟩
  · exact ⟨nofun, fun _ => rfl⟩

/-- The loop never comes to a way out. -/
def Stuck (pec : Ec σ) (slave : ℕ) (c : Clearing σ) : Prop :=
  ∀ n, ¬ WayOut pec slave ((next pec slave)^[n] c)

theorem Stuck.next {c : Clearing σ} (h : Stuck pec slave c) : Stuck pec slave (c.next pec slave) :=
  fun n => h (n + 1)

end Clearing

open Clearing

/-- A status ends the loop if it is answered and has no error bits. -/
theorem wayOut_reading {c : Clearing σ} (h : c.reading = true) (hwkc : c.wkc ≠ 0) :
    c.WayOut pec slave ↔ errorBits (c.got pec slave) = false := by
  unfold WayOut Clearing.got errorBits
  cases (c.reply pec slave).1 with
  | answer wkc d =>
    by_cases hzero : wkc = 0
    · simp [Reply.got, hzero]
    · simp [Reply.got, hzero, h]
  | timeout => simp [Reply.got]
  | outOfIndices => simp [Reply.got, hwkc]
  | outOfDatagrams => simp [Reply.got, hwkc]

/-- Writing zero ends it if the datagram cannot be sent, and the one before has been answered. -/
theorem wayOut_writing {c : Clearing σ} (h : c.reading = false) (hzero : c.eepcsr = 0#16) :
    c.WayOut pec slave ↔ (c.got pec slave).ret ≠ .ok ∧ errorBits (c.got pec slave) = false := by
  unfold WayOut Clearing.got errorBits
  cases (c.reply pec slave).1 with
  | answer wkc d => simp [Reply.got, h]
  | timeout => simp [Reply.got]
  | outOfIndices => simp [Reply.got, hzero]
  | outOfDatagrams => simp [Reply.got, hzero]

/-! ## One datagram -/

/-- What the loop does behind the inner one. -/
def clearRead (pec : Ec σ) (slave : ℕ) (g : Got 16) : Prog (World σ) ε (Got 16) :=
  if g.ret = .ok then
    (ecTransceive pec (ecFprd pec slave regEepctl) g.wkc g.val).bind (clearErrors pec slave)
  else clearErrors pec slave g

theorem clearErrors_total_iff {Q : Except ε (Got 16) → World σ → Prop} :
    (clearErrors pec slave g).Total w Q ↔
      if errorBits g then
        ((clearWrite pec slave (g.wkc, 0#16)).bind (clearRead pec slave)).Total w Q
      else Q (.ok g) w := by
  rw [clearErrors, Prog.total_loop_iff]
  by_cases h : errorBits g
  · rw [if_pos h, if_pos h, Prog.bind_eq, Prog.total_bind, Prog.total_bind]
    refine Prog.total_congr fun r t => ?_
    rcases r with e | g'
    · rfl
    · by_cases hret : g'.ret = .ok
      · simp only [Prog.TotalAfter, clearRead, if_pos hret, Prog.bind_eq, Prog.total_bind,
          total_transceive, Prog.total_ret]
        rfl
      · simp only [Prog.TotalAfter, clearRead, if_neg hret, Prog.total_ret]
        rfl
  · rw [if_neg h, if_neg h]
    exact Prog.total_ret.trans Prog.total_ret

theorem clearWrite_total_iff {Q : Except ε (Got 16) → World σ → Prop} {c : Clearing σ}
    (hc : c.reading = false) :
    (clearWrite pec slave (c.wkc, c.eepcsr)).Total c.world Q ↔
      if (c.got pec slave).ret = .ok ∧ (c.got pec slave).wkc = 0 then
        (clearWrite pec slave ((c.got pec slave).wkc, (c.got pec slave).val)).Total
          (c.sent pec slave) Q
      else Q (.ok (c.got pec slave)) (c.sent pec slave) := by
  obtain ⟨reading, wkc, eepcsr, w⟩ := c
  obtain rfl : reading = false := hc
  refine Prog.total_loop_iff.trans (Prog.total_bind.trans (total_transceive.trans ?_))
  refine Prog.total_ite_iff.trans ?_
  by_cases h : (got pec slave ⟨false, wkc, eepcsr, w⟩).ret = .ok ∧
      (got pec slave ⟨false, wkc, eepcsr, w⟩).wkc = 0
  · rw [if_pos h]
    exact ⟨fun hp => Prog.total_ret.1 (hp.1 h), fun hp =>
      ⟨fun _ => Prog.total_ret.2 hp, fun hn => absurd h hn⟩⟩
  · rw [if_neg h]
    exact ⟨fun hp => Prog.total_ret.1 (Prog.total_ret.1 (hp.2 h)), fun hp =>
      ⟨fun hn => absurd hn h, fun _ => Prog.total_ret.2 (Prog.total_ret.2 hp)⟩⟩

/-- The rest of the loop ends, from a datagram on. -/
def RestHalts (pec : Ec σ) (slave : ℕ) (c : Clearing σ) : Prop :=
  if c.reading then
    (clearErrors pec slave (c.got pec slave) : Prog _ Ret _).Halts (c.sent pec slave)
  else ((clearWrite pec slave (c.wkc, c.eepcsr)).bind (clearRead pec slave) : Prog _ Ret _).Halts
    c.world

/-- The top of the loop. -/
theorem clearErrors_halts : (clearErrors pec slave g : Prog _ Ret _).Halts w ↔
    (errorBits g = true → RestHalts pec slave ⟨false, g.wkc, 0#16, w⟩) := by
  refine clearErrors_total_iff.trans ?_
  by_cases h : errorBits g
  · rw [if_pos h]
    exact ⟨fun hp _ => hp, fun hp => hp h⟩
  · rw [if_neg h]
    exact iff_of_true trivial fun hn => absurd hn h

theorem restHalts_reading {c : Clearing σ} (h : c.reading = true) (hwkc : c.wkc ≠ 0) :
    RestHalts pec slave c ↔ c.WayOut pec slave ∨ RestHalts pec slave (c.next pec slave) := by
  rw [wayOut_reading h hwkc, next_reading h, RestHalts, if_pos h, clearErrors_halts]
  cases errorBits (c.got pec slave) <;> simp

theorem restHalts_writing {c : Clearing σ} (h : c.reading = false) (hzero : c.eepcsr = 0#16) :
    RestHalts pec slave c ↔ c.WayOut pec slave ∨ RestHalts pec slave (c.next pec slave) := by
  have hbind : RestHalts pec slave c ↔ (clearWrite pec slave (c.wkc, c.eepcsr)).Total c.world
      (Prog.TotalAfter (clearRead pec slave : _ → Prog _ Ret _) fun _ _ => True) := by
    rw [RestHalts, if_neg (by rw [h]; decide)]
    exact Prog.total_bind
  rw [hbind, clearWrite_total_iff h, wayOut_writing h hzero]
  by_cases hret : (c.got pec slave).ret = .ok
  · by_cases hwkc : (c.got pec slave).wkc = 0
    · -- no slave has answered: write again
      have hval : (c.got pec slave).val = 0#16 := (Reply.got_val hwkc).trans hzero
      rw [if_pos ⟨hret, hwkc⟩, next_again fun hn => hn.2 hwkc, hval, ← Prog.total_bind]
      exact (or_iff_right fun hn => hn.1 hret).symm
    · rw [if_neg fun hn => hwkc hn.2, next_writing h hret hwkc]
      refine Iff.trans ?_ (or_iff_right fun hn => hn.1 hret).symm
      show (clearRead pec slave (c.got pec slave)).Halts (c.sent pec slave) ↔ _
      rw [clearRead, if_pos hret]
      exact Prog.total_bind.trans total_transceive
  · rw [if_neg fun hn => hret hn.1, next_again fun hn => hret hn.1]
    show (clearRead pec slave (c.got pec slave)).Halts (c.sent pec slave) ↔ _
    rw [clearRead, if_neg hret, clearErrors_halts]
    cases errorBits (c.got pec slave) <;> simp [hret]

theorem restHalts_iff_next {c : Clearing σ} (hok : c.Ok) :
    RestHalts pec slave c ↔ c.WayOut pec slave ∨ RestHalts pec slave (c.next pec slave) := by
  cases h : c.reading with
  | true => exact restHalts_reading h (hok.reading h)
  | false => exact restHalts_writing h (hok.writing h)

/-- A way out ends the loop. -/
theorem restHalts_of_wayOut {n : ℕ} {c : Clearing σ} (hok : c.Ok)
    (h : WayOut pec slave ((Clearing.next pec slave)^[n] c)) : RestHalts pec slave c := by
  induction n generalizing c with
  | zero => exact (restHalts_iff_next hok).2 (.inl h)
  | succ n ih => exact (restHalts_iff_next hok).2 (.inr (ih .next h))

/-! ## Without a way out -/

/-- The inner loop keeps away from a way out, if it ends. -/
theorem clearWrite_stuck (wkc : ℕ) (h : Stuck pec slave ⟨false, wkc, 0#16, w⟩) :
    (clearWrite pec slave (wkc, 0#16) : Prog _ ε _).Post w fun r t => ∃ g, r = .ok g ∧
      (g.ret = .ok → g.wkc ≠ 0 ∧ Stuck pec slave ⟨true, g.wkc, g.val, t⟩) ∧
      (g.ret ≠ .ok → errorBits g = true ∧ Stuck pec slave ⟨false, g.wkc, 0#16, t⟩) := by
  refine Prog.post_loop (I := fun a w => a.2 = 0#16 ∧ Stuck pec slave ⟨false, a.1, 0#16, w⟩) ?_
    ⟨rfl, h⟩
  rintro ⟨wkc, eepcsr⟩ w ⟨hzero, hstuck⟩
  obtain rfl : eepcsr = 0#16 := hzero
  set c : Clearing σ := ⟨false, wkc, 0#16, w⟩
  have hout : ¬ c.WayOut pec slave := hstuck 0
  rw [wayOut_writing rfl rfl] at hout
  have hnext := hstuck.next
  refine Prog.post_bind.2 (post_transceive.2 ?_)
  show Prog.Post (if (c.got pec slave).ret = .ok ∧ (c.got pec slave).wkc = 0 then _ else _)
    (c.sent pec slave) _
  refine Prog.post_ite (fun hagain => Prog.post_ret.2 ?_) fun hleave => Prog.post_ret.2 ?_
  · rw [next_again fun hn => hn.2 hagain.2] at hnext
    exact ⟨Reply.got_val hagain.2, hnext⟩
  · refine ⟨c.got pec slave, rfl, fun hret => ?_, fun hret => ?_⟩
    · have hwkc : (c.got pec slave).wkc ≠ 0 := fun hwkc => hleave ⟨hret, hwkc⟩
      rw [next_writing rfl hret hwkc] at hnext
      exact ⟨hwkc, hnext⟩
    · rw [next_again fun hn => hret hn.1] at hnext
      exact ⟨by simpa [hret] using hout, hnext⟩

theorem clearErrors_stuck (hbits : errorBits g = true)
    (h : Stuck pec slave ⟨false, g.wkc, 0#16, w⟩) :
    ¬ (clearErrors pec slave g : Prog _ Ret _).Halts w := by
  rintro ⟨r, t, hends, -⟩
  refine Prog.not_ends_loop (I := fun g w => errorBits g = true ∧
    Stuck pec slave ⟨false, g.wkc, 0#16, w⟩) ?_ ⟨hbits, h⟩ hends
  rintro g w ⟨hbits, hstuck⟩
  rw [if_pos hbits]
  refine Prog.post_bind.2 ((clearWrite_stuck g.wkc hstuck).imp fun r t hr => ?_)
  obtain ⟨g', rfl, hok, herr⟩ := hr
  refine Prog.post_ite (fun hret => ?_) fun hret => Prog.post_ret.2 (herr hret)
  obtain ⟨hwkc, hread⟩ := hok hret
  set c : Clearing σ := ⟨true, g'.wkc, g'.val, t⟩
  have hout : ¬ c.WayOut pec slave := hread 0
  rw [wayOut_reading rfl hwkc, Bool.not_eq_false] at hout
  have hnext := hread.next
  rw [next_reading rfl] at hnext
  exact Prog.post_bind.2 (post_transceive.2 (Prog.post_ret.2 ⟨hout, hnext⟩))

/-- **When clearing the error bits ends.** -/
theorem clearErrors_halts_iff : (clearErrors pec slave g : Prog _ Ret _).Halts w ↔
    (errorBits g = true →
      ∃ n, WayOut pec slave ((Clearing.next pec slave)^[n] ⟨false, g.wkc, 0#16, w⟩)) := by
  constructor
  · intro h hbits
    by_contra hnone
    exact clearErrors_stuck hbits (not_exists.1 hnone) h
  · intro h
    refine clearErrors_halts.2 fun hbits => ?_
    obtain ⟨n, hn⟩ := h hbits
    exact restHalts_of_wayOut ⟨nofun, fun _ => rfl⟩ hn

end LibEthercat.Eeprom
