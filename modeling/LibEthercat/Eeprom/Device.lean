import LibEthercat.Eeprom.Steps
import Mathlib.Logic.Function.Basic

/-!
# An EEPROM that accepts all commands

`Device` says what the registers of such a slave do, and nothing about when: a command keeps it
busy for as long as it likes within the 100 ms that the loops wait. While ECAT has the EEPROM and
it is not busy, it takes addresses, data and commands.

* `eepromread_device` — then `ec_eepromread` returns the two words from the address on.
* `eepromwrite_device` — and `ec_eepromwrite` writes the word at the address, and no other.
-/

namespace LibEthercat.Eeprom

/-- The words of the EEPROM, and the registers in front of them. -/
structure Regs where
  mem : BitVec 32 → BitVec 16
  adr : BitVec 32
  dat : BitVec 16
  out : BitVec 32

namespace Regs

/-- The command to read: two words, beginning with the one at the address. -/
def load (x : Regs) : Regs := { x with out := x.mem (x.adr + 1#32) ++ x.mem x.adr }

/-- The command to write. -/
def program (x : Regs) : Regs := { x with mem := Function.update x.mem x.adr x.dat }

end Regs

variable {σ ε : Type} {n : ℕ} {pec : Ec σ} {slave : ℕ} {w : World σ}

/-- A slave whose EEPROM accepts all commands: `own` if ECAT has it, `idle` if no command is being
executed. -/
structure Device (pec : Ec σ) (slave : ℕ) where
  regs : σ → Regs
  own : σ → Prop
  idle : σ → Prop
  found : slave < pec.slaveCnt
  /-- Datagrams come back in time. -/
  quick : ∀ q s, pec.now (pec.send q s).2 ≤ pec.now s + 100000000
  readCfg : ∀ s (v : BitVec 16), ∃ d s',
    pec.send (ecFprd pec slave regEepcfg v) s = (.answer 1 d, s') ∧ regs s' = regs s ∧
    (idle s → idle s') ∧ (Owned (d.setWidth 16) → own s') ∧ (own s → Owned (d.setWidth 16))
  writeCfg : ∀ s (v : BitVec 8), ∃ d s',
    pec.send (ecFpwr pec slave regEepcfg v) s = (.answer 1 d, s') ∧ regs s' = regs s ∧
    (idle s → idle s') ∧ (v = 0#8 → own s')
  status : ∀ s, own s → ∃ d s', pec.send (statusRequest pec slave) s = (.answer 1 d, s') ∧
    regs s' = regs s ∧ own s' ∧ (idle s → NotBusy (d.setWidth 16)) ∧
    (NotBusy (d.setWidth 16) → idle s' ∧ d.setWidth 16 &&& 0x6900#16 = 0#16)
  /-- Commands are done in time. -/
  completes : ∀ s, own s → ∃ n, InTime pec (pec.now s + 100000000) (statusRequest pec slave) s n ∧
    ∃ d, pec.reply (statusRequest pec slave) s n = .answer 1 d ∧ NotBusy (d.setWidth 16)
  address : ∀ s v, own s → idle s → ∃ d s',
    pec.send (ecFpwr pec slave regEepadr v) s = (.answer 1 d, s') ∧
    regs s' = { regs s with adr := v } ∧ own s' ∧ idle s'
  data : ∀ s v, own s → idle s → ∃ d s',
    pec.send (ecFpwr pec slave regEepdat v) s = (.answer 1 d, s') ∧
    regs s' = { regs s with dat := v } ∧ own s' ∧ idle s'
  readCommand : ∀ s, own s → idle s → ∃ d s',
    pec.send (ecFpwr pec slave regEepctl 0x0100#16) s = (.answer 1 d, s') ∧
    regs s' = (regs s).load ∧ own s'
  writeCommand : ∀ s, own s → idle s → ∃ d s',
    pec.send (ecFpwr pec slave regEepctl 0x0201#16) s = (.answer 1 d, s') ∧
    regs s' = (regs s).program ∧ own s'
  readData : ∀ s, own s → idle s → ∃ s',
    pec.send (ecFprd pec slave regEepdat 0#32) s = (.answer 1 (regs s).out, s') ∧
    regs s' = regs s ∧ own s' ∧ idle s'

/-! ## Datagrams that are answered at once -/

section Answer

variable {q : BitVec n → Request} {val : BitVec n} {d : BitVec 32} {s' : σ} {err : Ret}

theorem siiRegOr_answer (h : pec.send (q val) w.env = (.answer 1 d, s')) :
    (siiRegOr pec err q val).Total w fun r t =>
      r = .ok (d.setWidth n) ∧ t.env = s' ∧ t.data = w.data := by
  refine Prog.total_bind.2 (Prog.total_bind.2 (total_transceive.2 ?_))
  rw [h]
  refine Prog.total_ite (fun hgo => absurd rfl hgo.2.1) fun _ => Prog.total_ret.2 ?_
  refine Prog.total_ite (fun hfail => ?_) fun _ => Prog.total_ret.2 ⟨rfl, rfl, rfl⟩
  rcases hfail with hret | hcnt
  · exact absurd rfl hret
  · cases hcnt

theorem transceiveOnce_answer (wkc : ℕ) (h : pec.send (q val) w.env = (.answer 1 d, s')) :
    (transceiveOnce pec err q wkc val).Total w fun r t =>
      r = .ok ⟨.ok, 1, d.setWidth n⟩ ∧ t.env = s' ∧ t.data = w.data := by
  refine Prog.total_bind.2 (total_transceive.2 ?_)
  rw [h]
  refine Prog.total_ite (fun hfail => absurd rfl hfail.2) fun _ => ?_
  exact Prog.total_ite (fun _ => Prog.total_ret.2 ⟨rfl, rfl, rfl⟩) fun hret => absurd rfl hret

theorem timedPoll_answer {start : BitVec n → BitVec n} {again : Got n → Bool} {g : Got n}
    (h : pec.send (q (start g.val)) w.env = (.answer 1 d, s'))
    (hquick : pec.now s' ≤ pec.now w.env + 100000000)
    (hagain : again ⟨.ok, 1, d.setWidth n⟩ = false) :
    (timedPoll pec err start q again g : Prog _ ε _).Total w fun r t =>
      r = .ok ⟨.ok, 1, d.setWidth n⟩ ∧ t.env = s' ∧ t.data = w.data := by
  refine Prog.total_bind.2 (total_timerInit.2 (Prog.total_loop_iff.2 ?_))
  refine Prog.total_bind.2 (total_transceive.2 (Prog.total_bind.2 (total_expired.2 ?_)))
  rw [h]
  have hintime : decide (pec.now w.env + 100000000 < pec.now s') = false :=
    decide_eq_false (Nat.not_lt.2 hquick)
  refine Prog.total_ite (fun hgo => ?_) fun _ => ?_
  · exact absurd (hgo.1.symm.trans hagain) (by decide)
  · refine Prog.total_ret.2 (Prog.total_ret.2 ⟨?_, rfl, rfl⟩)
    show Except.ok (Got.mk (if decide (pec.now w.env + 100000000 < pec.now s') then err else .ok) 1
      (d.setWidth n)) = _
    rw [hintime]
    rfl

theorem writeRegister_answer (wkc : ℕ) (h : pec.send (q val) w.env = (.answer 1 d, s'))
    (hquick : pec.now s' ≤ pec.now w.env + 100000000) :
    (writeRegister pec err q wkc val).Total w fun r t =>
      (∃ g, r = .ok g) ∧ t.env = s' ∧ t.data = w.data := by
  refine Prog.total_bind.2 ((timedPoll_answer h hquick rfl).imp fun r t ht => ?_)
  obtain ⟨rfl, henv, hdata⟩ := ht
  exact Prog.total_ite (fun _ => Prog.total_ret.2 ⟨⟨_, rfl⟩, henv, hdata⟩)
    fun hret => absurd rfl hret

theorem pollData_answer (wkc : ℕ)
    (h : pec.send (ecFpwr pec slave regEepdat w.data) w.env = (.answer 1 d, s'))
    (hquick : pec.now s' ≤ pec.now w.env + 100000000) :
    (pollData pec slave wkc).Total w fun r t => (∃ g, r = .ok g) ∧ t.env = s' := by
  refine Prog.total_bind.2 (Prog.total_act.2 (Prog.total_bind.2 ?_))
  refine (timedPoll_answer (q := ecFpwr pec slave regEepdat) h hquick rfl).imp fun r t ht => ?_
  obtain ⟨rfl, henv, -⟩ := ht
  refine Prog.total_bind.2 (Prog.total_act.2 ?_)
  exact Prog.total_ite (fun _ => Prog.total_ret.2 ⟨⟨_, rfl⟩, henv⟩) fun hret => absurd rfl hret

end Answer

/-! ## The steps on such a slave -/

namespace Device

variable (D : Device pec slave) {eepadr : BitVec 32}

/-- Bits of a mask without which the word is zero. -/
theorem and_eq_zero_of_mask {v a b : BitVec 16} (h : v &&& a = 0#16) (hb : a &&& b = b) :
    v &&& b = 0#16 := by
  rw [← hb, ← BitVec.and_assoc, h, BitVec.zero_and]

theorem toEc : (ecEepromToEc pec slave).Total w fun r t => r = .ok () ∧ D.own t.env ∧
    (D.idle w.env → D.idle t.env) ∧ D.regs t.env = D.regs w.env ∧ t.data = w.data := by
  rw [ecEepromToEc, if_neg (Nat.not_le.2 D.found)]
  obtain ⟨d, s₁, hsend, hregs, hidle, hown, -⟩ := D.readCfg w.env 2#16
  refine Prog.total_bind.2 ((siiRegOr_answer hsend).imp fun r t ht => ?_)
  obtain ⟨rfl, rfl, hdata⟩ := ht
  -- ECAT has the EEPROM then, or it takes it
  have hassign : (assignToEc pec slave (d.setWidth 16)).Total t fun r u => r = .ok () ∧
      D.own u.env ∧ (D.idle t.env → D.idle u.env) ∧ D.regs u.env = D.regs t.env ∧
      u.data = t.data := by
    refine Prog.total_ite (fun howned => Prog.total_ret.2 ⟨rfl, hown howned, id, rfl, rfl⟩)
      fun _ => ?_
    obtain ⟨d', s₂, hsend', hregs', hidle', hown'⟩ := D.writeCfg t.env 0#8
    refine Prog.total_bind.2 ((siiRegOr_answer hsend').imp fun r u hu => ?_)
    obtain ⟨rfl, rfl, hdata'⟩ := hu
    exact Prog.total_ret.2 ⟨rfl, hown' rfl, hidle', hregs', hdata'⟩
  refine Prog.total_bind.2 (hassign.imp fun r u hu => ?_)
  obtain ⟨rfl, hown', hidle', hregs', hdata'⟩ := hu
  refine Prog.total_bind.2 (total_timerInit.2 (Prog.total_bind.2 (Prog.total_loop_iff.2 ?_)))
  obtain ⟨d'', s₃, hsend'', hregs'', hidle'', hown'', howned⟩ := D.readCfg u.env (d.setWidth 16)
  refine Prog.total_bind.2 (Prog.total_bind.2 (total_transceive.2 ?_))
  rw [hsend'']
  refine Prog.total_ite (fun hgo => absurd rfl hgo.2.1) fun _ => Prog.total_ret.2 ?_
  refine Prog.total_ite (fun _ => ?_) fun hnot => absurd ⟨rfl, howned hown'⟩ hnot
  refine Prog.total_ret.2 (Prog.total_ret.2 (Prog.total_ite (fun _ => Prog.total_ret.2 ?_) ?_))
  · exact ⟨rfl, hown'' (howned hown'), fun h => hidle'' (hidle' (hidle h)),
      hregs''.trans (hregs'.trans hregs), hdata'.trans hdata⟩
  · exact fun h => absurd rfl h

theorem toPdi : (ecEepromToPdi pec slave).Total w fun r t => r = .ok () ∧
    (D.idle w.env → D.idle t.env) ∧ D.regs t.env = D.regs w.env ∧ t.data = w.data := by
  rw [ecEepromToPdi, if_neg (Nat.not_le.2 D.found)]
  obtain ⟨d, s', hsend, hregs, hidle, -⟩ := D.writeCfg w.env 1#8
  refine Prog.total_bind.2 ((siiRegOr_answer hsend).imp fun r t ht => ?_)
  obtain ⟨rfl, rfl, hdata⟩ := ht
  exact Prog.total_ret.2 ⟨rfl, hidle, hregs, hdata⟩

/-- Reading the status changes nothing. -/
theorem after_status {s : σ} (h : D.own s) (k : ℕ) :
    D.own (pec.after (statusRequest pec slave) s k) ∧
      D.regs (pec.after (statusRequest pec slave) s k) = D.regs s := by
  induction k with
  | zero => exact ⟨h, rfl⟩
  | succ k ih =>
    obtain ⟨d, s', hsend, hregs, hown, -⟩ := D.status _ ih.1
    rw [Ec.after_succ, hsend]
    exact ⟨hown, hregs.trans ih.2⟩

/-- What status `k` is, and what it says. -/
theorem got_status {s : σ} (h : D.own s) (k : ℕ) : ∃ d,
    pec.got (ecFprd pec slave regEepctl) 0#16 s k = ⟨.ok, 1, d.setWidth 16⟩ ∧
    pec.reply (statusRequest pec slave) s k = .answer 1 d ∧
    (NotBusy (d.setWidth 16) → D.idle (pec.after (statusRequest pec slave) s (k + 1)) ∧
      d.setWidth 16 &&& 0x6900#16 = 0#16) := by
  obtain ⟨d, s', hsend, -, -, -, hready⟩ := D.status _ (D.after_status h k).1
  have hreply : pec.reply (statusRequest pec slave) s k = .answer 1 d := congrArg Prod.fst hsend
  refine ⟨d, ?_, hreply, ?_⟩
  · show (pec.reply (statusRequest pec slave) s k).got 0 0#16 = _
    rw [hreply]
    rfl
  · rw [Ec.after_succ, hsend]
    exact hready

theorem unansweredOrBusy_eq (v : BitVec 16) : unansweredOrBusy ⟨.ok, 1, v⟩ = false ↔ NotBusy v := by
  simp [unansweredOrBusy, NotBusy]

/-- Waiting until the EEPROM is not busy. -/
theorem pollStatus (hticks : pec.Ticks) {err : Ret} (herr : err ≠ .ok) (wkc : ℕ)
    (hown : D.own w.env) :
    (pollStatus pec slave err unansweredOrBusy wkc).Total w fun r t =>
      ∃ v, r = .ok ⟨.ok, 1, v⟩ ∧ v &&& 0x6900#16 = 0#16 ∧ D.own t.env ∧ D.idle t.env ∧
        D.regs t.env = D.regs w.env ∧ t.data = w.data := by
  refine (pollStatus_halts hticks herr _ wkc w).total ?_
  refine (pollStatus_runs herr _ wkc w).imp fun r t h => ?_
  obtain ⟨m, rfl, hbefore, hend, hsucc, hgot⟩ := h
  -- the loop ends at the latest with the status that is promised
  obtain ⟨n, hintime, d, hreply, hready⟩ := D.completes w.env hown
  obtain ⟨dn, hgotn, hreplyn, -⟩ := D.got_status hown n
  have hbusyn : unansweredOrBusy (pec.got (ecFprd pec slave regEepctl) 0#16 w.env n) = false := by
    rw [hreply] at hreplyn
    cases hreplyn
    rw [hgotn]
    exact (unansweredOrBusy_eq _).2 hready
  have hle : m ≤ n := Nat.le_of_not_lt fun hlt =>
    absurd ((hbefore n hlt).2.2.symm.trans hbusyn) (by decide)
  obtain ⟨dm, hgotm, -, hidle⟩ := D.got_status hown m
  have hleave : ¬ unansweredOrBusy (pec.got (ecFprd pec slave regEepctl) 0#16 w.env m) :=
    fun hbusy => hend ⟨by rw [hgotm], hintime.mono hticks hle, hbusy⟩
  obtain ⟨g, rfl⟩ := hsucc.2 ⟨by rw [hgotm], hintime.mono hticks hle, hleave⟩
  rw [hgotm, Bool.not_eq_true, unansweredOrBusy_eq] at hleave
  obtain ⟨hown', hregs⟩ := D.after_status hown (m + 1)
  obtain ⟨hidle', hbits⟩ := hidle hleave
  exact ⟨_, by rw [hgot g rfl, hgotm], hbits, hown', hidle', hregs, rfl⟩

/-- The loop of `ec_eepromread` on an EEPROM that is not busy. -/
theorem pollCommand {err : Ret} (wkc : ℕ) (hown : D.own w.env) (hidle : D.idle w.env) :
    (Eeprom.pollStatus pec slave err commandBit wkc).Total w fun r t =>
      (∃ g, r = .ok g) ∧ D.own t.env ∧ D.idle t.env ∧ D.regs t.env = D.regs w.env ∧
        t.data = w.data := by
  obtain ⟨d, s', hsend, hregs, hown', hready, hbits⟩ := D.status w.env hown
  obtain ⟨hidle', hmask⟩ := hbits (hready hidle)
  have hquick := D.quick (statusRequest pec slave) w.env
  rw [hsend] at hquick
  have hcommand : commandBit ⟨.ok, 1, d.setWidth 16⟩ = false :=
    decide_eq_false (not_not.2 (and_eq_zero_of_mask hmask (by decide)))
  refine Prog.total_bind.2 ((timedPoll_answer hsend hquick hcommand).imp fun r t ht => ?_)
  obtain ⟨rfl, rfl, hdata⟩ := ht
  refine Prog.total_ite (fun _ => Prog.total_ret.2 ?_) fun hret => absurd rfl hret
  exact ⟨⟨_, rfl⟩, hown', hidle', hregs, hdata⟩

theorem readErrors_eq {v : BitVec 16} (h : v &&& 0x6900#16 = 0#16) : readErrors v = .ok := by
  simp [readErrors, and_eq_zero_of_mask h (b := 0x0100#16) (by decide),
    and_eq_zero_of_mask h (b := 0x4000#16) (by decide),
    and_eq_zero_of_mask h (b := 0x2000#16) (by decide),
    and_eq_zero_of_mask h (b := 0x0800#16) (by decide)]

theorem writeErrors_eq {v : BitVec 16} (h : v &&& 0x6900#16 = 0#16) : writeErrors v = .ok := by
  simp [writeErrors, and_eq_zero_of_mask h (b := 0x0100#16) (by decide),
    and_eq_zero_of_mask h (b := 0x4000#16) (by decide),
    and_eq_zero_of_mask h (b := 0x2000#16) (by decide)]

/-- **Reading two words.** -/
theorem eepromread (hticks : pec.Ticks) (eepadr : BitVec 32) (hidle : D.idle w.env) :
    (ecEepromread pec slave eepadr).Total w fun r t =>
      r = .ok ((D.regs w.env).mem (eepadr + 1#32) ++ (D.regs w.env).mem eepadr) ∧ D.idle t.env ∧
        (D.regs t.env).mem = (D.regs w.env).mem ∧ t.data = w.data := by
  rw [ecEepromread, if_neg (Nat.not_le.2 D.found)]
  refine Prog.total_bind.2 (D.toEc.imp fun r t₀ h => ?_)
  obtain ⟨rfl, hown, hidle₀, hregs₀, hdata₀⟩ := h
  refine Prog.total_bind.2 (Prog.total_bind.2 ?_)
  refine (D.pollCommand 0 hown (hidle₀ hidle)).imp fun r t₁ h => ?_
  obtain ⟨⟨g, rfl⟩, hown₁, hidle₁, hregs₁, hdata₁⟩ := h
  obtain ⟨d, s', hsend, hregs₂, hown₂, hidle₂⟩ := D.address t₁.env eepadr hown₁ hidle₁
  refine Prog.total_bind.2 ((transceiveOnce_answer _ hsend).imp fun r t₂ h => ?_)
  obtain ⟨rfl, rfl, hdata₂⟩ := h
  obtain ⟨d, s', hsend, hregs₃, hown₃⟩ := D.readCommand t₂.env hown₂ hidle₂
  refine Prog.total_bind.2 ((transceiveOnce_answer _ hsend).imp fun r t₃ h => ?_)
  obtain ⟨rfl, rfl, hdata₃⟩ := h
  refine Prog.total_bind.2 ((D.pollStatus hticks (by decide) _ hown₃).imp fun r t₄ h => ?_)
  obtain ⟨v, rfl, hbits, hown₄, hidle₄, hregs₄, hdata₄⟩ := h
  obtain ⟨s', hsend, hregs₅, hown₅, hidle₅⟩ := D.readData t₄.env hown₄ hidle₄
  refine Prog.total_bind.2 ((transceiveOnce_answer _ hsend).imp fun r t₅ h => ?_)
  obtain ⟨rfl, rfl, hdata₅⟩ := h
  have hregs : D.regs t₅.env = { D.regs w.env with adr := eepadr }.load := by
    rw [hregs₅, hregs₄, hregs₃, hregs₂, hregs₁, hregs₀]
  rw [checkRet, readErrors_eq hbits]
  refine Prog.total_ret.2 (Prog.total_bind.2 (D.toPdi.imp fun r t₆ h => ?_))
  obtain ⟨rfl, hidle₆, hregs₆, hdata₆⟩ := h
  refine Prog.total_ret.2 ⟨?_, hidle₆ hidle₅, ?_, ?_⟩
  · rw [hregs₄, hregs₃, hregs₂, hregs₁, hregs₀, BitVec.setWidth_eq]
    rfl
  · rw [hregs₆, hregs]
    rfl
  · rw [hdata₆, hdata₅, hdata₄, hdata₃, hdata₂, hdata₁, hdata₀]

theorem errorBits_eq {v : BitVec 16} (h : v &&& 0x6900#16 = 0#16) :
    errorBits ⟨.ok, 1, v⟩ = false := by
  simp [errorBits, and_eq_zero_of_mask h (b := 0x6000#16) (by decide)]

/-- The steps 3 to 8 on an EEPROM that is not busy. -/
theorem command (hticks : pec.Ticks) (wkc : ℕ) (hown : D.own w.env) (hidle : D.idle w.env) :
    (Eeprom.writeCommand pec slave eepadr wkc).Total w fun r t => r = .ok () ∧ D.idle t.env ∧
      (D.regs t.env).mem = Function.update (D.regs w.env).mem eepadr w.data := by
  obtain ⟨d, s', hsend, hregs₁, hown₁, hidle₁⟩ := D.address w.env eepadr hown hidle
  have hquick := D.quick (ecFpwr pec slave regEepadr eepadr) w.env
  rw [hsend] at hquick
  refine Prog.total_bind.2 ((writeRegister_answer _ hsend hquick).imp fun r t₁ h => ?_)
  obtain ⟨⟨g, rfl⟩, rfl, hdata₁⟩ := h
  obtain ⟨d, s', hsend, hregs₂, hown₂, hidle₂⟩ := D.data t₁.env t₁.data hown₁ hidle₁
  have hquick := D.quick (ecFpwr pec slave regEepdat t₁.data) t₁.env
  rw [hsend] at hquick
  refine Prog.total_bind.2 ((pollData_answer _ hsend hquick).imp fun r t₂ h => ?_)
  obtain ⟨⟨g, rfl⟩, rfl⟩ := h
  obtain ⟨d, s', hsend, hregs₃, hown₃⟩ := D.writeCommand t₂.env hown₂ hidle₂
  have hquick := D.quick (ecFpwr pec slave regEepctl 0x0201#16) t₂.env
  rw [hsend] at hquick
  refine Prog.total_bind.2 ((writeRegister_answer _ hsend hquick).imp fun r t₃ h => ?_)
  obtain ⟨⟨g, rfl⟩, rfl, -⟩ := h
  refine Prog.total_bind.2 ((D.pollStatus hticks (by decide) _ hown₃).imp fun r t₄ h => ?_)
  obtain ⟨v, rfl, hbits, -, hidle₄, hregs₄, -⟩ := h
  refine Prog.total_ite (fun _ => Prog.total_ret.2 ⟨rfl, hidle₄, ?_⟩) fun herr =>
    absurd (writeErrors_eq hbits) herr
  rw [hregs₄, hregs₃, hregs₂, hregs₁, hdata₁]
  rfl

/-- **Writing a word.** -/
theorem eepromwrite (hticks : pec.Ticks) (eepadr : BitVec 32) (w : World σ) :
    (ecEepromwrite pec slave eepadr).Total w fun r t => r = .ok () ∧ D.idle t.env ∧
      (D.regs t.env).mem = Function.update (D.regs w.env).mem eepadr w.data := by
  rw [ecEepromwrite, if_neg (Nat.not_le.2 D.found)]
  refine Prog.total_bind.2 (D.toEc.imp fun r t₀ h => ?_)
  obtain ⟨rfl, hown, -, hregs₀, hdata₀⟩ := h
  refine Prog.total_bind.2 (Prog.total_bind.2 ?_)
  refine (D.pollStatus hticks (by decide) 0 hown).imp fun r t₁ h => ?_
  obtain ⟨v, rfl, hbits, hown₁, hidle₁, hregs₁, hdata₁⟩ := h
  -- there is no error bit to be cleared
  refine Prog.total_bind.2 (Prog.total_loop_iff.2 ?_)
  rw [if_neg (by rw [errorBits_eq hbits]; decide)]
  refine Prog.total_ret.2 (Prog.total_ret.2 (Prog.total_bind.2 (Prog.total_ret.2 ?_)))
  refine (D.command hticks 1 hown₁ hidle₁).imp fun r t₂ h => ?_
  obtain ⟨rfl, hidle₂, hmem⟩ := h
  refine D.toPdi.imp fun r t₃ h => ?_
  obtain ⟨rfl, hidle₃, hregs₃, -⟩ := h
  exact ⟨rfl, hidle₃ hidle₂, by rw [hregs₃, hmem, hregs₁, hregs₀, hdata₁, hdata₀]⟩

end Device

end LibEthercat.Eeprom
