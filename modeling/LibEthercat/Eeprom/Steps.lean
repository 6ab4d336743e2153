import LibEthercat.Eeprom.Model
import Mathlib.Logic.Function.Iterate
import Mathlib.Data.List.Range

/-!
# The steps of an EEPROM access

What the loops of `eeprom.c` send, and that those with a counter or a timer come to an end.

* `siiReg_logs`, `siiReg_total` — the macro `SII_REG`.
* `poll_runs` — a polling loop, pass by pass, in terms of what the bus replies.
* `eepromread_halts`, `writeCommand_halts` — with a clock that goes on, everything that has a timer
  ends.
-/

namespace LibEthercat.Eeprom

variable {σ ε : Type} {n : ℕ} {pec : Ec σ} {w : World σ} {slave : ℕ}

/-! ## What the bus replies -/

/-- The bus after `n` datagrams `q`. -/
def Ec.after (pec : Ec σ) (q : Request) (s : σ) (n : ℕ) : σ := (fun s => (pec.send q s).2)^[n] s

/-- Its reply to the datagram after that. -/
def Ec.reply (pec : Ec σ) (q : Request) (s : σ) (n : ℕ) : Reply := (pec.send q (pec.after q s n)).1

theorem Ec.after_zero (q : Request) (s : σ) : pec.after q s 0 = s := rfl

theorem Ec.after_succ (q : Request) (s : σ) (n : ℕ) :
    pec.after q s (n + 1) = (pec.send q (pec.after q s n)).2 :=
  Function.iterate_succ_apply' ..

/-- The world after `n` datagrams `q`. -/
def World.polled (w : World σ) (pec : Ec σ) (q : Request) (n : ℕ) : World σ :=
  { w with
    env := pec.after q w.env n
    frames := w.frames ++ (List.range n).map fun m => ⟨q, pec.reply q w.env m⟩ }

theorem World.polled_zero (q : Request) : w.polled pec q 0 = w := by
  simp [World.polled, Ec.after_zero]

theorem World.polled_succ (q : Request) (n : ℕ) :
    (w.polled pec q n).sent q (pec.send q (pec.after q w.env n)) = w.polled pec q (n + 1) := by
  simp [World.polled, World.sent, Ec.after_succ, List.range_succ, Ec.reply]

section Got

variable {r : Reply} {wkc : ℕ} {val : BitVec n}

theorem Reply.got_ret (wkc wkc' : ℕ) (val : BitVec n) (r : Reply) :
    (r.got wkc val).ret = (r.got wkc' val).ret := by
  cases r <;> rfl

theorem Reply.got_eq (wkc wkc' : ℕ) (h : (r.got wkc val).ret = .ok) :
    r.got wkc val = r.got wkc' val := by
  cases r with
  | answer k d => rfl
  | outOfIndices => cases h
  | outOfDatagrams => cases h
  | timeout => cases h

theorem Reply.eq_answer (h : (r.got wkc val).ret = .ok) :
    ∃ d, r = .answer (r.got wkc val).wkc d := by
  cases r with
  | answer k d => exact ⟨d, rfl⟩
  | outOfIndices => cases h
  | outOfDatagrams => cases h
  | timeout => cases h

theorem Reply.got_val (h : (r.got wkc val).wkc = 0) : (r.got wkc val).val = val := by
  cases r with
  | answer k d => exact if_pos h
  | outOfIndices => rfl
  | outOfDatagrams => rfl
  | timeout => rfl

theorem Reply.got_val_or (r : Reply) (wkc : ℕ) (val : BitVec n) : (r.got wkc val).val = val ∨
    ∃ k d, r = .answer k d ∧ k ≠ 0 ∧ d.setWidth n ≠ val := by
  by_cases hval : (r.got wkc val).val = val
  · exact .inl hval
  · refine .inr ?_
    cases r with
    | answer k d =>
      have hk : k ≠ 0 := fun hzero => hval (if_pos hzero)
      refine ⟨k, d, rfl, hk, fun hd => hval ?_⟩
      exact (if_neg hk).trans hd
    | outOfIndices => exact absurd rfl hval
    | outOfDatagrams => exact absurd rfl hval
    | timeout => exact absurd rfl hval

end Got

/-! ## Actions -/

section Actions

variable {q : BitVec n → Request} {wkc : ℕ} {val : BitVec n}

theorem post_transceive {Q : Except ε (Got n) → World σ → Prop} :
    (ecTransceive pec q wkc val).Post w Q ↔
      Q (.ok ((pec.send (q val) w.env).1.got wkc val)) (w.sent (q val) (pec.send (q val) w.env)) :=
  Prog.post_act

theorem total_transceive {Q : Except ε (Got n) → World σ → Prop} :
    (ecTransceive pec q wkc val).Total w Q ↔
      Q (.ok ((pec.send (q val) w.env).1.got wkc val)) (w.sent (q val) (pec.send (q val) w.env)) :=
  Prog.total_act

theorem post_expired {timer : ℕ} {Q : Except ε Bool → World σ → Prop} :
    (osalTimerExpired pec timer).Post w Q ↔ Q (.ok (decide (timer < pec.now w.env))) w :=
  Prog.post_act

theorem total_expired {timer : ℕ} {Q : Except ε Bool → World σ → Prop} :
    (osalTimerExpired pec timer).Total w Q ↔ Q (.ok (decide (timer < pec.now w.env))) w :=
  Prog.total_act

theorem post_timerInit {timeout : ℕ} {Q : Except ε ℕ → World σ → Prop} :
    (osalTimerInit pec timeout).Post w Q ↔ Q (.ok (pec.now w.env + timeout)) w :=
  Prog.post_act

theorem total_timerInit {timeout : ℕ} {Q : Except ε ℕ → World σ → Prop} :
    (osalTimerInit pec timeout).Total w Q ↔ Q (.ok (pec.now w.env + timeout)) w :=
  Prog.total_act

theorem post_check {g : Got n} {Q : Except Ret (Got n) → World σ → Prop}
    (hok : g.ret = .ok → Q (.ok g) w) (herr : g.ret ≠ .ok → Q (.error g.ret) w) :
    g.check.Post w Q :=
  Prog.post_ite (fun h => Prog.post_ret.2 (hok h)) fun h => Prog.post_throw.2 (herr h)

theorem post_checkRet {ret : Ret} {Q : Except Ret Unit → World σ → Prop}
    (hok : ret = .ok → Q (.ok ()) w) (herr : ret ≠ .ok → Q (.error ret) w) :
    (checkRet ret).Post w Q :=
  Prog.post_ite (fun h => Prog.post_ret.2 (hok h)) fun h => Prog.post_throw.2 (herr h)

end Actions

/-! ## SII_REG -/

section SiiReg

variable {q : BitVec n → Request}

theorem siiReg_total (hticks : pec.Ticks) (cnt wkc : ℕ) (val : BitVec n) (w : World σ) :
    (siiReg pec q cnt wkc val : Prog _ ε _).Total w fun r t =>
      (∃ x, r = .ok x) ∧ (0 < cnt → pec.now w.env < pec.now t.env) := by
  induction cnt generalizing wkc val w with
  | zero => exact Prog.total_ret.2 ⟨⟨_, rfl⟩, nofun⟩
  | succ cnt ih =>
    rw [siiReg, Prog.bind_eq, Prog.total_bind, total_transceive]
    have hnow := hticks.send (q val) w.env
    refine Prog.total_ite (fun hgo => ?_) fun _ => Prog.total_ret.2 ⟨⟨_, rfl⟩, fun _ => hnow⟩
    refine (ih _ _ _).imp fun res t h => ⟨h.1, fun _ => ?_⟩
    exact Nat.lt_trans hnow (h.2 hgo.1)

theorem siiRegOr_halts (hticks : pec.Ticks) (err : Ret) (val : BitVec n) (w : World σ) :
    (siiRegOr pec err q val).Halts w :=
  (siiReg_total hticks 100 0 val w).halts.bind fun _ _ _ =>
    .ite (fun _ => .throw) fun _ => .ret

end SiiReg

/-! ## Polling -/

section Poll

variable {q : BitVec n → Request} {again : Got n → Bool} {c : BitVec n} {timer m : ℕ} {err : Ret}
  {s : σ}

/-- What pass `m` of a polling loop gets. -/
def Ec.got (pec : Ec σ) (q : BitVec n → Request) (c : BitVec n) (s : σ) (m : ℕ) : Got n :=
  (pec.reply (q c) s m).got 0 c

/-- It gets it before the time is over. -/
def InTime (pec : Ec σ) (timer : ℕ) (q : Request) (s : σ) (m : ℕ) : Prop :=
  ¬ timer < pec.now (pec.after q s (m + 1))

theorem now_after_le (hticks : pec.Ticks) (q : Request) (s : σ) {m n : ℕ} (hle : m ≤ n) :
    pec.now (pec.after q s m) ≤ pec.now (pec.after q s n) := by
  induction hle with
  | refl => exact le_rfl
  | step _ ih =>
    rw [Ec.after_succ]
    exact ih.trans (hticks.send _ _).le

theorem InTime.mono {m n : ℕ} {q : Request} (h : InTime pec timer q s n) (hticks : pec.Ticks)
    (hle : m ≤ n) : InTime pec timer q s m := fun hlt =>
  h (Nat.lt_of_lt_of_le hlt (now_after_le hticks q s (Nat.succ_le_succ hle)))

/-- The loop goes on after pass `m`. -/
def GoesOn (pec : Ec σ) (timer : ℕ) (again : Got n → Bool) (q : BitVec n → Request) (c : BitVec n)
    (s : σ) (m : ℕ) : Prop :=
  (pec.got q c s m).ret = .ok ∧ InTime pec timer (q c) s m ∧ again (pec.got q c s m)

/-- The loop ends with success. -/
def Succeeds (pec : Ec σ) (timer : ℕ) (again : Got n → Bool) (q : BitVec n → Request) (c : BitVec n)
    (s : σ) (m : ℕ) : Prop :=
  (pec.got q c s m).ret = .ok ∧ InTime pec timer (q c) s m ∧ ¬ again (pec.got q c s m)

/-- **A polling loop** ends with the first pass after which it does not go on. -/
theorem poll_runs (herr : err ≠ .ok) (g₀ : Got n) (w : World σ) :
    (poll pec timer err (fun _ => c) q again g₀ : Prog _ ε _).Post w fun r t =>
      ∃ m g, r = .ok g ∧ t = w.polled pec (q c) (m + 1) ∧
        (∀ k < m, GoesOn pec timer again q c w.env k) ∧ ¬ GoesOn pec timer again q c w.env m ∧
        (g.ret = .ok ↔ Succeeds pec timer again q c w.env m) ∧
        (g.ret = .ok → g = pec.got q c w.env m) := by
  refine Prog.post_loop (I := fun _ t => ∃ m, t = w.polled pec (q c) m ∧
    ∀ k < m, GoesOn pec timer again q c w.env k) ?_ ⟨0, (World.polled_zero _).symm, nofun⟩
  rintro g _ ⟨m, rfl, hbefore⟩
  refine Prog.post_bind.2 (post_transceive.2 ?_)
  have hsent : (w.polled pec (q c) m).sent (q c) (pec.send (q c) (w.polled pec (q c) m).env) =
      w.polled pec (q c) (m + 1) := World.polled_succ _ _
  rw [hsent]
  set g' := (pec.send (q c) (w.polled pec (q c) m).env).1.got g.wkc c
  have hret : g'.ret = (pec.got q c w.env m).ret := Reply.got_ret _ _ _ _
  have hgot : g'.ret = .ok → g' = pec.got q c w.env m := Reply.got_eq _ _
  refine Prog.post_bind.2 (post_expired.2 ?_)
  by_cases hexp : timer < pec.now (w.polled pec (q c) (m + 1)).env
  · simp only [hexp, decide_true]
    refine Prog.post_ite (fun h => absurd h.2 herr) fun _ => Prog.post_ret.2 ?_
    exact ⟨m, _, rfl, rfl, hbefore, fun h => h.2.1 hexp,
      ⟨fun h => absurd h herr, fun h => absurd hexp h.2.1⟩, fun h => absurd h herr⟩
  · simp only [hexp, decide_false]
    refine Prog.post_ite (fun h => Prog.post_ret.2 ?_) fun h => Prog.post_ret.2 ?_
    · refine ⟨m + 1, rfl, fun k hk => ?_⟩
      rcases Nat.lt_succ_iff_lt_or_eq.1 hk with hk | rfl
      · exact hbefore k hk
      · exact ⟨hret ▸ h.2, hexp, hgot h.2 ▸ h.1⟩
    · have hstop : ∀ hok : g'.ret = .ok, ¬ again (pec.got q c w.env m) := fun hok ha =>
        h ⟨by rw [hgot hok]; exact ha, hok⟩
      exact ⟨m, _, rfl, rfl, hbefore, fun hgo => hstop (hret.trans hgo.1) hgo.2.2,
        ⟨fun hok => ⟨hret ▸ hok, hexp, hstop hok⟩, fun hs => hret.trans hs.1⟩, hgot⟩

theorem poll_total (hticks : pec.Ticks) (herr : err ≠ .ok) {start : BitVec n → BitVec n}
    (g₀ : Got n) (w : World σ) :
    (poll pec timer err start q again g₀ : Prog _ ε _).Total w fun r _ => ∃ g, r = .ok g := by
  refine Prog.total_loop (I := fun _ _ => True) (fun _ t => timer + 1 - pec.now t.env) ?_ trivial
  intro g t _
  refine Prog.total_bind.2 (total_transceive.2 (Prog.total_bind.2 (total_expired.2 ?_)))
  have hnow := hticks.send (q (start g.val)) t.env
  refine Prog.total_ite (fun hgo => Prog.total_ret.2 ⟨trivial, ?_⟩) fun _ =>
    Prog.total_ret.2 ⟨_, rfl⟩
  have hexp : ¬ timer < pec.now (pec.send (q (start g.val)) t.env).2 := fun hlt =>
    herr ((if_pos (decide_eq_true hlt)).symm.trans hgo.2)
  simp only [World.sent]
  omega

theorem timedPoll_total (hticks : pec.Ticks) (herr : err ≠ .ok) {start : BitVec n → BitVec n}
    (g₀ : Got n) (w : World σ) :
    (timedPoll pec err start q again g₀ : Prog _ ε _).Total w fun r _ => ∃ g, r = .ok g :=
  Prog.total_bind.2 (total_timerInit.2 (poll_total hticks herr g₀ w))

end Poll

/-! ## Everything with a timer ends -/

section Halts

theorem Got.check_halts (g : Got n) : (g.check : Prog (World σ) _ _).Halts w :=
  .ite (fun _ => .ret) fun _ => .throw

theorem checkRet_halts (ret : Ret) : (checkRet ret).Halts w :=
  .ite (fun _ => .ret) fun _ => .throw

theorem waitOwned_halts (hticks : pec.Ticks) (timer : ℕ) (val : BitVec 16) (w : World σ) :
    (waitOwned pec slave timer val : Prog _ ε _).Halts w := by
  refine Prog.total_loop (I := fun _ _ => True) (fun _ t => timer + 1 - pec.now t.env) ?_ trivial
  intro val t _
  refine Prog.total_bind.2 ((siiReg_total hticks 100 0 val t).imp fun r u h => ?_)
  obtain ⟨⟨⟨g, cnt⟩, rfl⟩, hnow⟩ := h
  have hsend := hnow (by decide)
  refine Prog.total_ite (fun _ => Prog.total_ret.2 trivial) fun _ => ?_
  refine Prog.total_bind.2 (Prog.total_act.2 (Prog.total_bind.2 (total_expired.2 ?_)))
  have hsleep := hticks.sleep 1000000 u.env
  refine Prog.total_ite (fun _ => Prog.total_ret.2 trivial) fun hexp => ?_
  refine Prog.total_ret.2 ⟨trivial, ?_⟩
  have htime : ¬ timer < pec.now (pec.sleep 1000000 u.env) := fun h => hexp (decide_eq_true h)
  show timer + 1 - pec.now (pec.sleep 1000000 u.env) < timer + 1 - pec.now t.env
  omega

theorem assignToEc_halts (hticks : pec.Ticks) (val : BitVec 16) (w : World σ) :
    (assignToEc pec slave val).Halts w :=
  .ite (fun _ => .ret) fun _ => (siiRegOr_halts hticks _ _ _).bind fun _ _ _ => .ret

theorem toEc_halts (hticks : pec.Ticks) (slave : ℕ) (w : World σ) :
    (ecEepromToEc pec slave).Halts w := by
  refine .ite (fun _ => .throw) fun _ => ?_
  refine (siiRegOr_halts hticks _ _ _).bind fun val t _ => ?_
  refine (assignToEc_halts hticks val t).bind fun _ _ _ => ?_
  refine .bind (total_timerInit.2 trivial) fun timer _ _ => ?_
  exact (waitOwned_halts hticks _ _ _).bind fun ret _ _ => checkRet_halts ret

theorem toPdi_halts (hticks : pec.Ticks) (slave : ℕ) (w : World σ) :
    (ecEepromToPdi pec slave).Halts w :=
  .ite (fun _ => .throw) fun _ => (siiRegOr_halts hticks _ _ _).bind fun _ _ _ => .ret

theorem pollStatus_halts (hticks : pec.Ticks) {err : Ret} (herr : err ≠ .ok)
    (again : Got 16 → Bool) (wkc : ℕ) (w : World σ) :
    (pollStatus pec slave err again wkc).Halts w :=
  (timedPoll_total hticks herr _ w).halts.bind fun g _ _ => g.check_halts

theorem transceiveOnce_halts (err : Ret) (q : BitVec n → Request) (wkc : ℕ) (val : BitVec n)
    (w : World σ) : (transceiveOnce pec err q wkc val).Halts w :=
  .bind (total_transceive.2 trivial) fun g _ _ => .ite (fun _ => .throw) fun _ => g.check_halts

theorem readSteps_halts (hticks : pec.Ticks) (slave : ℕ) (eepadr : BitVec 32) (w : World σ) :
    (readSteps pec slave eepadr).Halts w := by
  refine (pollStatus_halts hticks (by decide) _ _ _).bind fun _ _ _ => ?_
  refine (transceiveOnce_halts _ _ _ _ _).bind fun _ _ _ => ?_
  refine (transceiveOnce_halts _ _ _ _ _).bind fun _ _ _ => ?_
  refine (pollStatus_halts hticks (by decide) _ _ _).bind fun g _ _ => ?_
  refine (transceiveOnce_halts _ _ _ _ _).bind fun _ _ _ => ?_
  exact (checkRet_halts _).bind fun _ _ _ => .ret

/-- **Reading ends**, whatever the bus does. -/
theorem eepromread_halts (hticks : pec.Ticks) (slave : ℕ) (eepadr : BitVec 32) (w : World σ) :
    (ecEepromread pec slave eepadr).Halts w := by
  refine .ite (fun _ => .throw) fun _ => ?_
  refine (toEc_halts hticks slave w).bind fun _ _ _ => ?_
  refine (readSteps_halts hticks slave eepadr _).bind fun _ _ _ => ?_
  exact (toPdi_halts hticks slave _).bind fun _ _ _ => .ret

theorem writeRegister_halts (hticks : pec.Ticks) {err : Ret} (herr : err ≠ .ok)
    (q : BitVec n → Request) (wkc : ℕ) (val : BitVec n) (w : World σ) :
    (writeRegister pec err q wkc val).Halts w :=
  (timedPoll_total hticks herr _ w).halts.bind fun g _ _ => g.check_halts

theorem pollData_halts (hticks : pec.Ticks) (slave wkc : ℕ) (w : World σ) :
    (pollData pec slave wkc).Halts w := by
  refine .bind (Prog.total_act.2 trivial) fun _ _ _ => ?_
  refine (timedPoll_total hticks (by decide) _ _).halts.bind fun g _ _ => ?_
  exact .bind (Prog.total_act.2 trivial) fun _ _ _ => g.check_halts

theorem writeCommand_halts (hticks : pec.Ticks) (slave : ℕ) (eepadr : BitVec 32) (wkc : ℕ)
    (w : World σ) : (writeCommand pec slave eepadr wkc).Halts w := by
  refine (writeRegister_halts hticks (by decide) _ _ _ _).bind fun _ _ _ => ?_
  refine (pollData_halts hticks slave _ _).bind fun _ _ _ => ?_
  refine (writeRegister_halts hticks (by decide) _ _ _ _).bind fun _ _ _ => ?_
  exact (pollStatus_halts hticks (by decide) _ _ _).bind fun _ _ _ => checkRet_halts _

end Halts

/-! ## What the steps send -/

section Frames

variable {P : Frame → Prop} {q : BitVec n → Request}

theorem emits_transceive (h : ∀ v r, P ⟨q v, r⟩) (wkc : ℕ) (val : BitVec n) :
    Prog.Emits World.frames P (ecTransceive pec q wkc val : Prog _ ε _) := fun _ =>
  post_transceive.2 ⟨_, rfl, fun _ hf => List.mem_singleton.1 hf ▸ h _ _⟩

theorem emits_check (g : Got n) : Prog.Emits World.frames P (g.check : Prog (World σ) _ _) :=
  .ite .ret .throw

theorem emits_checkRet (ret : Ret) :
    Prog.Emits World.frames P (checkRet ret : Prog (World σ) _ _) :=
  .ite .ret .throw

theorem emits_expired (timer : ℕ) :
    Prog.Emits World.frames P (osalTimerExpired pec timer : Prog _ ε _) := .act fun _ => rfl

theorem emits_timerInit (timeout : ℕ) :
    Prog.Emits World.frames P (osalTimerInit pec timeout : Prog _ ε _) := .act fun _ => rfl

theorem emits_siiReg (h : ∀ v r, P ⟨q v, r⟩) (cnt wkc : ℕ) (val : BitVec n) :
    Prog.Emits World.frames P (siiReg pec q cnt wkc val : Prog _ ε _) := by
  induction cnt generalizing wkc val with
  | zero => exact .ret
  | succ cnt ih => exact .bind (emits_transceive h _ _) fun g => .ite (ih _ _) .ret

theorem emits_siiRegOr (h : ∀ v r, P ⟨q v, r⟩) (err : Ret) (val : BitVec n) :
    Prog.Emits World.frames P (siiRegOr pec err q val) :=
  .bind (emits_siiReg h _ _ _) fun _ => .ite .throw .ret

theorem emits_timedPoll (h : ∀ v r, P ⟨q v, r⟩) (err : Ret) (start : BitVec n → BitVec n)
    (again : Got n → Bool) (g : Got n) :
    Prog.Emits World.frames P (timedPoll pec err start q again g : Prog _ ε _) :=
  .bind (emits_timerInit _) fun _ => .loop fun _ => .bind (emits_transceive h _ _) fun _ =>
    .bind (emits_expired _) fun _ => .ite .ret .ret

theorem emits_pollStatus (h : ∀ v r, P ⟨ecFprd pec slave regEepctl (v : BitVec 16), r⟩) (err : Ret)
    (again : Got 16 → Bool) (wkc : ℕ) :
    Prog.Emits World.frames P (pollStatus pec slave err again wkc) :=
  .bind (emits_timedPoll h _ _ _ _) fun g => emits_check g

theorem emits_writeRegister (h : ∀ v r, P ⟨q v, r⟩) (err : Ret) (wkc : ℕ) (val : BitVec n) :
    Prog.Emits World.frames P (writeRegister pec err q wkc val) :=
  .bind (emits_timedPoll h _ _ _ _) fun g => emits_check g

/-- Taking control only uses the register for it. -/
theorem emits_toEc :
    Prog.Emits World.frames (fun f => f.req.ado = regEepcfg) (ecEepromToEc pec slave) := by
  refine .ite .throw (.bind (emits_siiRegOr (fun _ _ => rfl) _ _) fun val => ?_)
  refine .bind (.ite .ret (.bind (emits_siiRegOr (fun _ _ => rfl) _ _) fun _ => .ret)) fun _ => ?_
  refine .bind (emits_timerInit _) fun timer => .bind (.loop fun _ => ?_) fun _ => emits_checkRet _
  refine .bind (emits_siiReg (fun _ _ => rfl) _ _ _) fun _ => .ite .ret ?_
  exact .bind (.act fun _ => rfl) fun _ => .bind (emits_expired _) fun _ => .ite .ret .ret

theorem emits_toPdi : Prog.Emits World.frames (fun _ => True) (ecEepromToPdi pec slave) :=
  .ite .throw (.bind (emits_siiRegOr (fun _ _ => trivial) _ _) fun _ => .ret)

end Frames

/-! ## What the answers say -/

/-- A datagram that reads the status. -/
def statusRequest (pec : Ec σ) (slave : ℕ) : Request := ecFprd pec slave regEepctl 0#16

/-- A status that some slave has answered. -/
def StatusWord (pec : Ec σ) (slave : ℕ) (f : Frame) (eepcsr : BitVec 16) : Prop :=
  f.req = statusRequest pec slave ∧
    ∃ wkc d, f.reply = .answer wkc d ∧ wkc ≠ 0 ∧ d.setWidth 16 = eepcsr

def NotBusy (eepcsr : BitVec 16) : Prop := eepcsr &&& 0x8000#16 = 0#16

theorem transceiveOnce_logs {q : BitVec n → Request} {err : Ret} (wkc : ℕ) (val : BitVec n)
    (w : World σ) :
    (transceiveOnce pec err q wkc val).Post w (Prog.Logs World.frames w fun r l _ =>
      ∃ rep, l = [⟨q val, rep⟩] ∧
        ∀ g, r = .ok g → ∃ d, rep = .answer 1 d ∧ g.val = d.setWidth n) := by
  refine Prog.post_bind.2 (post_transceive.2 ?_)
  set rep := (pec.send (q val) w.env).1
  refine Prog.post_ite (fun _ => Prog.post_throw.2 ⟨_, rfl, _, rfl, nofun⟩) fun hgood => ?_
  refine post_check (fun hok => ⟨_, rfl, _, rfl, fun g hg => ?_⟩) fun _ => ⟨_, rfl, _, rfl, nofun⟩
  cases hg
  obtain ⟨d, hd⟩ := Reply.eq_answer hok
  have hone : (rep.got wkc val).wkc = 1 := Decidable.of_not_not fun hne => hgood ⟨hok, hne⟩
  rw [hone] at hd
  refine ⟨d, hd, ?_⟩
  show (rep.got wkc val).val = _
  rw [hd]
  rfl

/-- A polling loop for the status, in terms of what the bus replies. -/
theorem pollStatus_runs {err : Ret} (herr : err ≠ .ok) (again : Got 16 → Bool) (wkc : ℕ)
    (w : World σ) :
    (pollStatus pec slave err again wkc).Post w fun r t =>
      ∃ m, t = w.polled pec (statusRequest pec slave) (m + 1) ∧
        (∀ k < m, GoesOn pec (pec.now w.env + 100000000) again (ecFprd pec slave regEepctl) 0#16
          w.env k) ∧
        ¬ GoesOn pec (pec.now w.env + 100000000) again (ecFprd pec slave regEepctl) 0#16 w.env m ∧
        ((∃ g, r = .ok g) ↔ Succeeds pec (pec.now w.env + 100000000) again
          (ecFprd pec slave regEepctl) 0#16 w.env m) ∧
        ∀ g, r = .ok g → g = pec.got (ecFprd pec slave regEepctl) 0#16 w.env m := by
  refine Prog.post_bind.2 (Prog.post_bind.2 (post_timerInit.2 ?_))
  refine (poll_runs herr _ w).imp fun r t h => ?_
  obtain ⟨m, g, rfl, ht, hbefore, hend, hret, hgot⟩ := h
  refine post_check (fun hok => ?_) fun hfail => ?_
  · refine ⟨m, ht, hbefore, hend, iff_of_true ⟨g, rfl⟩ (hret.1 hok), fun g' hg' => ?_⟩
    cases hg'
    exact hgot hok
  · exact ⟨m, ht, hbefore, hend, iff_of_false nofun (mt hret.2 hfail), nofun⟩

theorem statusWord_of_got {s : σ} {m : ℕ}
    (hret : (pec.got (ecFprd pec slave regEepctl) 0#16 s m).ret = .ok)
    (hwkc : (pec.got (ecFprd pec slave regEepctl) 0#16 s m).wkc ≠ 0) :
    StatusWord pec slave ⟨statusRequest pec slave, pec.reply (statusRequest pec slave) s m⟩
      (pec.got (ecFprd pec slave regEepctl) 0#16 s m).val := by
  obtain ⟨d, hd⟩ := Reply.eq_answer hret
  refine ⟨rfl, _, d, hd, hwkc, ?_⟩
  have hval : ∀ k, k ≠ 0 → (Reply.got 0 0#16 (.answer k d)).val = d.setWidth 16 := fun k hk =>
    if_neg hk
  exact (hval _ hwkc).symm.trans (congrArg (fun r => (Reply.got 0 0#16 r).val) hd.symm)

/-- The second loop ends with a status that some slave has answered, and that is not busy. -/
theorem pollStatus_answered {err : Ret} (herr : err ≠ .ok) (wkc : ℕ) (w : World σ) :
    (pollStatus pec slave err unansweredOrBusy wkc).Post w
      (Prog.Logs World.frames w fun r l _ => ∀ g, r = .ok g →
        ∃ s ∈ l, StatusWord pec slave s g.val ∧ NotBusy g.val) := by
  refine (pollStatus_runs herr _ wkc w).imp fun r t h => ?_
  obtain ⟨m, rfl, -, -, hsucc, hval⟩ := h
  refine ⟨_, rfl, fun g hg => ?_⟩
  obtain ⟨hret, -, hagain⟩ := hsucc.1 ⟨g, hg⟩
  obtain rfl := hval g hg
  obtain ⟨hwkc, hbusy⟩ := not_or.1 (mt decide_eq_true hagain)
  refine ⟨_, List.mem_map_of_mem (List.mem_range.2 (Nat.lt_succ_self m)),
    statusWord_of_got hret hwkc, not_not.1 hbusy⟩

end LibEthercat.Eeprom
