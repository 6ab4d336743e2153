import LibEthercat.Eeprom.Clear

/-!
# Whether writing ends

**Theorem (`write_ends_iff`).** `ec_eepromwrite` ends if and only if it does not come to the loop
that clears the error bits, or that loop comes to a way out; and then it returns `EC_OK` only for a
word that the slave has taken. `ec_eepromwrite_len` ends if and only if each of its words is taken
after finitely many attempts, each of which ends. A word is sent as it came back from the attempt
before, so the one that is taken is that of the buffer, unless a datagram came back with another one.

All other loops have a timer or a counter (`writeCommand_halts`). The loop of `ec_eepromwrite_len`
has neither, and does not return an error in any case.
-/

namespace LibEthercat.Eeprom

open Clearing

variable {σ ε : Type} {n : ℕ} {pec : Ec σ} {slave : ℕ} {eepadr : BitVec 32} {w t : World σ}
  {l l' : List Frame}

/-! ## What has been written -/

/-- A datagram that some slave has answered. -/
def Answered (f : Frame) (q : Request) : Prop :=
  f.req = q ∧ ∃ wkc d, f.reply = .answer wkc d ∧ wkc ≠ 0

/-- Address, data and command have been answered, and then a status without busy and error bits. -/
def Written (pec : Ec σ) (slave : ℕ) (eepadr : BitVec 32) (data : BitVec 16) (l : List Frame) :
    Prop :=
  ∃ a d c s : Frame, [a, d, c, s].Sublist l ∧ Answered a (ecFpwr pec slave regEepadr eepadr) ∧
    Answered d (ecFpwr pec slave regEepdat data) ∧
    Answered c (ecFpwr pec slave regEepctl 0x0201#16) ∧
    ∃ v, StatusWord pec slave s v ∧ NotBusy v ∧ writeErrors v = .ok

/-- A datagram that was sent with `val`, and came back with another word. -/
def Altered (q : BitVec n → Request) (val : BitVec n) (f : Frame) : Prop :=
  f.req = q val ∧ ∃ wkc d, f.reply = .answer wkc d ∧ wkc ≠ 0 ∧ d.setWidth n ≠ val

theorem Written.append {data : BitVec 16} (h : Written pec slave eepadr data l) :
    Written pec slave eepadr data (l' ++ l) := by
  obtain ⟨a, d, c, s, hsub, hrest⟩ := h
  exact ⟨a, d, c, s, hsub.trans (List.sublist_append_right _ _), hrest⟩

theorem Written.append_right {data : BitVec 16} (h : Written pec slave eepadr data l) :
    Written pec slave eepadr data (l ++ l') := by
  obtain ⟨a, d, c, s, hsub, hrest⟩ := h
  exact ⟨a, d, c, s, hsub.trans (List.sublist_append_left _ _), hrest⟩

/-- Writing a register until it is answered. -/
theorem pollWrite_logs {err : Ret} (herr : err ≠ .ok) (q : BitVec n → Request) (wkc : ℕ)
    (val : BitVec n) (w : World σ) :
    (pollWrite pec err q wkc val : Prog _ ε _).Post w (Prog.Logs World.frames w fun r l t =>
      t.data = w.data ∧ ∃ g, r = .ok g ∧ (g.ret = .ok → ∃ f ∈ l, Answered f (q val)) ∧
        (g.val = val ∨ ∃ f ∈ l, Altered q val f)) := by
  refine Prog.post_bind.2 (post_timerInit.2 ?_)
  refine Prog.post_loop_logs (I := fun g _ t => g.val = val ∧ t.data = w.data) ?_ ⟨rfl, rfl⟩
  rintro g l t ⟨hval, hdata⟩
  refine Prog.post_bind.2 (post_transceive.2 (Prog.post_bind.2 (post_expired.2 ?_)))
  rw [id, hval]
  set r := pec.send (q val) t.env
  set g' := r.1.got g.wkc val
  refine Prog.post_ite (fun hgo => Prog.post_ret.2 ⟨_, rfl, ?_, hdata⟩) fun hend =>
    Prog.post_ret.2 ⟨_, rfl, hdata, _, rfl, fun hok => ?_, ?_⟩
  · exact Reply.got_val (of_decide_eq_true hgo.1)
  · have hret : g'.ret = .ok := by
      by_cases hexp : pec.now w.env + 100000000 < pec.now (t.sent (q val) r).env
      · simp only [hexp, decide_true, if_true] at hok
        exact absurd hok herr
      · simpa only [hexp, decide_false, Bool.false_eq_true, if_false] using hok
    obtain ⟨d, hd⟩ := Reply.eq_answer hret
    refine ⟨⟨q val, r.1⟩, List.mem_append_right _ List.mem_cons_self, rfl, _, d, hd,
      fun hzero => ?_⟩
    exact hend ⟨decide_eq_true hzero, hok⟩
  · refine (Reply.got_val_or r.1 g.wkc val).imp_right fun halt => ?_
    exact ⟨⟨q val, r.1⟩, List.mem_append_right _ List.mem_cons_self, rfl, halt⟩

theorem writeRegister_logs {err : Ret} (herr : err ≠ .ok) (q : BitVec n → Request) (wkc : ℕ)
    (val : BitVec n) (w : World σ) :
    (writeRegister pec err q wkc val).Post w (Prog.Logs World.frames w fun r l t =>
      t.data = w.data ∧ ∀ g, r = .ok g → ∃ f ∈ l, Answered f (q val)) := by
  refine Prog.post_bind.2 ((pollWrite_logs herr q wkc val w).imp fun r t h => ?_)
  obtain ⟨l, hl, hdata, g, rfl, hans, -⟩ := h
  refine post_check (fun hok => ⟨l, hl, hdata, fun _ _ => hans hok⟩) fun _ => ⟨l, hl, hdata, nofun⟩

theorem pollData_logs (wkc : ℕ) (w : World σ) :
    (pollData pec slave wkc).Post w (Prog.Logs World.frames w fun r l _ =>
      ∀ g, r = .ok g → ∃ f ∈ l, Answered f (ecFpwr pec slave regEepdat w.data)) := by
  refine Prog.post_bind.2 (Prog.post_act.2 (Prog.post_bind.2 ?_))
  refine (pollWrite_logs (by decide) _ wkc w.data w).imp fun r t h => ?_
  obtain ⟨l, hl, -, g, rfl, hans, -⟩ := h
  refine Prog.post_bind.2 (Prog.post_act.2 ?_)
  exact post_check (fun hok => ⟨l, hl, fun _ _ => hans hok⟩) fun _ => ⟨l, hl, nofun⟩

theorem writeCommand_logs (wkc : ℕ) (w : World σ) :
    (writeCommand pec slave eepadr wkc).Post w (Prog.Logs World.frames w fun r l _ =>
      r = .ok () → Written pec slave eepadr w.data l) := by
  refine Prog.post_bind_logs (writeRegister_logs (by decide) _ _ _ w) (fun g la t h => ?_)
    fun _ _ _ _ => nofun
  obtain ⟨hdata, hans⟩ := h
  obtain ⟨a, ha, ha'⟩ := hans g rfl
  refine Prog.post_bind_logs (pollData_logs _ t) (fun g ld t' h => ?_) fun _ _ _ _ => nofun
  obtain ⟨d, hd, hd'⟩ := h g rfl
  rw [hdata] at hd'
  refine Prog.post_bind_logs (writeRegister_logs (by decide) _ _ _ t') (fun g lc t h => ?_)
    fun _ _ _ _ => nofun
  obtain ⟨c, hc, hc'⟩ := h.2 g rfl
  refine Prog.post_bind_logs (pollStatus_answered (by decide) _ t) (fun g ls t h => ?_)
    fun _ _ _ _ => nofun
  obtain ⟨s, hs, hword, hready⟩ := h g rfl
  refine post_checkRet (fun hok => ⟨[], (List.append_nil _).symm, fun _ => ?_⟩) fun _ =>
    ⟨[], (List.append_nil _).symm, nofun⟩
  refine ⟨a, d, c, s, ?_, ha', hd', hc', _, hword, hready, hok⟩
  rw [List.append_nil]
  exact (List.singleton_sublist.2 ha).append ((List.singleton_sublist.2 hd).append
    ((List.singleton_sublist.2 hc).append (List.singleton_sublist.2 hs)))

/-! ## The word that `data` points to -/

theorem keeps_transceive {q : BitVec n → Request} (wkc : ℕ) (val : BitVec n) :
    Prog.Keeps World.data (ecTransceive pec q wkc val : Prog _ ε _) := .act fun _ => rfl

theorem keeps_siiReg {q : BitVec n → Request} (cnt wkc : ℕ) (val : BitVec n) :
    Prog.Keeps World.data (siiReg pec q cnt wkc val : Prog _ ε _) := by
  induction cnt generalizing wkc val with
  | zero => exact .ret
  | succ cnt ih => exact .bind (keeps_transceive _ _) fun g => .ite (ih _ _) .ret

theorem keeps_siiRegOr {q : BitVec n → Request} (err : Ret) (val : BitVec n) :
    Prog.Keeps World.data (siiRegOr pec err q val) :=
  .bind (keeps_siiReg _ _ _) fun _ => .ite .throw .ret

theorem keeps_toEc : Prog.Keeps World.data (ecEepromToEc pec slave) := by
  refine .ite .throw (.bind (keeps_siiRegOr _ _) fun val => ?_)
  refine .bind (.ite .ret (.bind (keeps_siiRegOr _ _) fun _ => .ret)) fun _ => ?_
  refine .bind (.act fun _ => rfl) fun timer => .bind (.loop fun _ => ?_) fun _ => .ite .ret .throw
  refine .bind (keeps_siiReg _ _ _) fun _ => .ite .ret ?_
  exact .bind (.act fun _ => rfl) fun _ => .bind (.act fun _ => rfl) fun _ => .ite .ret .ret

theorem keeps_toPdi : Prog.Keeps World.data (ecEepromToPdi pec slave) :=
  .ite .throw (.bind (keeps_siiRegOr _ _) fun _ => .ret)

theorem keeps_timedPoll (err : Ret) (start : BitVec n → BitVec n) (q : BitVec n → Request)
    (again : Got n → Bool) (g : Got n) :
    Prog.Keeps World.data (timedPoll pec err start q again g : Prog _ ε _) := by
  refine .bind (.act fun _ => rfl) fun _ => .loop fun _ => ?_
  exact .bind (keeps_transceive _ _) fun _ => .bind (.act fun _ => rfl) fun _ => .ite .ret .ret

theorem keeps_pollStatus (err : Ret) (again : Got 16 → Bool) (wkc : ℕ) :
    Prog.Keeps World.data (pollStatus pec slave err again wkc) :=
  .bind (keeps_timedPoll _ _ _ _ _) fun _ => .ite .ret .throw

theorem keeps_writeRegister (err : Ret) (q : BitVec n → Request) (wkc : ℕ) (val : BitVec n) :
    Prog.Keeps World.data (writeRegister pec err q wkc val) :=
  .bind (keeps_timedPoll _ _ _ _ _) fun _ => .ite .ret .throw

theorem keeps_clearErrors (g : Got 16) :
    Prog.Keeps World.data (clearErrors pec slave g : Prog _ ε _) := by
  refine .loop fun g => .ite (.bind (.loop fun _ => ?_) fun _ => ?_) .ret
  · exact .bind (keeps_transceive _ _) fun _ => .ite .ret .ret
  · exact .ite (.bind (keeps_transceive _ _) fun _ => .ret) .ret

theorem emits_clearErrors (g : Got 16) :
    Prog.Emits World.frames (fun _ => True) (clearErrors pec slave g : Prog _ ε _) := by
  refine .loop fun g => .ite (.bind (.loop fun _ => ?_) fun _ => ?_) .ret
  · exact .bind (emits_transceive (fun _ _ => trivial) _ _) fun _ => .ite .ret .ret
  · exact .ite (.bind (emits_transceive (fun _ _ => trivial) _ _) fun _ => .ret) .ret

/-- The datagram that writes the word is the only one that can change it. -/
def WordAltered (pec : Ec σ) (slave : ℕ) : BitVec 16 → Frame → Prop :=
  Altered (ecFpwr pec slave regEepdat)

/-- The word stays, or a datagram has come back with another one. -/
abbrev KeepsWord {α : Type} (pec : Ec σ) (slave : ℕ) (p : Prog (World σ) Ret α) : Prop :=
  Prog.KeepsUnless World.data World.frames (WordAltered pec slave) p

theorem keepsWord_pollData (wkc : ℕ) : KeepsWord pec slave (pollData pec slave wkc) := by
  intro w
  refine Prog.post_bind.2 (Prog.post_act.2 (Prog.post_bind.2 ?_))
  refine (pollWrite_logs (by decide) _ wkc w.data w).imp fun r t h => ?_
  obtain ⟨l, hl, -, g, rfl, -, hval⟩ := h
  refine Prog.post_bind.2 (Prog.post_act.2 ?_)
  exact post_check (fun _ => ⟨l, hl, hval⟩) fun _ => ⟨l, hl, hval⟩

theorem keepsWord_writeRegister (err : Ret) (q : BitVec n → Request) (wkc : ℕ) (val : BitVec n) :
    KeepsWord pec slave (writeRegister pec err q wkc val) :=
  (keeps_writeRegister err q wkc val).unless
    (emits_writeRegister (P := fun _ => True) (fun _ _ => trivial) err wkc val)

theorem keepsWord_pollStatus (err : Ret) (again : Got 16 → Bool) (wkc : ℕ) :
    KeepsWord pec slave (pollStatus pec slave err again wkc) :=
  (keeps_pollStatus err again wkc).unless
    (emits_pollStatus (P := fun _ => True) (fun _ _ => trivial) err again wkc)

theorem keepsWord_writeCommand (wkc : ℕ) :
    KeepsWord pec slave (writeCommand pec slave eepadr wkc) := by
  refine .bind (keepsWord_writeRegister _ _ _ _) fun _ => ?_
  refine .bind (keepsWord_pollData _) fun _ => ?_
  refine .bind (keepsWord_writeRegister _ _ _ _) fun _ => ?_
  refine .bind (keepsWord_pollStatus _ _ _) fun g => ?_
  exact Prog.Keeps.unless (.ite .ret .throw) (emits_checkRet (P := fun _ => True) _)

/-- **The word that is sent** changes only with a datagram that came back altered. -/
theorem keepsWord_eepromwrite : KeepsWord pec slave (ecEepromwrite pec slave eepadr) := by
  refine .ite .throw (.bind (keeps_toEc.unless emits_toEc) fun _ => .bind ?_ fun _ =>
    keeps_toPdi.unless emits_toPdi)
  refine .bind (keepsWord_pollStatus _ _ _) fun g => ?_
  refine .bind ((keeps_clearErrors g).unless (emits_clearErrors g)) fun g => ?_
  exact .bind (Prog.Keeps.unless (.ite .ret .throw) (emits_check (P := fun _ => True) g)) fun g =>
    keepsWord_writeCommand _

/-- A part that comes first, and leaves the word. -/
theorem written_after {α : Type} {p : Prog (World σ) Ret α} {f : α → Prog (World σ) Ret Unit}
    (hkeeps : Prog.Keeps World.data p) {P : Frame → Prop} (hemits : Prog.Emits World.frames P p)
    (hf : ∀ a t, (f a).Post t (Prog.Logs World.frames t fun r l _ =>
      r = .ok () → Written pec slave eepadr t.data l)) (w : World σ) :
    (p.bind f).Post w (Prog.Logs World.frames w fun r l _ =>
      r = .ok () → Written pec slave eepadr w.data l) := by
  refine Prog.post_bind.2 (((hkeeps w).and (hemits w)).imp fun r t h => ?_)
  obtain ⟨hdata, l, hl, -⟩ := h
  rcases r with e | a
  · exact ⟨l, hl, nofun⟩
  · refine (hf a t).imp fun r u hlogs => ?_
    obtain ⟨l', hl', hwritten⟩ := hlogs
    refine ⟨l ++ l', by rw [hl', hl, List.append_assoc], fun hr => ?_⟩
    rw [← hdata]
    exact (hwritten hr).append

/-- **A word that is not taken is reported.** -/
theorem eepromwrite_logs (slave : ℕ) (eepadr : BitVec 32) (w : World σ) :
    (ecEepromwrite pec slave eepadr).Post w (Prog.Logs World.frames w fun r l _ =>
      r = .ok () → Written pec slave eepadr w.data l) := by
  refine Prog.post_ite (fun _ => Prog.post_throw.2 ⟨[], (List.append_nil _).symm, nofun⟩)
    fun _ => ?_
  refine written_after keeps_toEc emits_toEc (fun _ t => ?_) w
  refine Prog.post_bind_logs (?_ : (writeSteps pec slave eepadr).Post t (Prog.Logs World.frames t
    fun r l _ => r = .ok () → Written pec slave eepadr t.data l)) (fun _ l u h => ?_)
    fun _ _ _ _ => nofun
  · refine written_after (keeps_pollStatus _ _ _) (emits_pollStatus (P := fun _ => True)
      (fun _ _ => trivial) _ _ _) (fun g t => ?_) t
    refine written_after (keeps_clearErrors g) (emits_clearErrors g) (fun g t => ?_) t
    exact written_after (.ite .ret .throw) (emits_check (P := fun _ => True) g)
      (fun g t => writeCommand_logs _ t) t
  · exact (emits_toPdi u).imp fun r v hlogs => hlogs.imp fun l' _ _ => (h rfl).append_right

/-! ## One word -/

/-- The loop for the error bits is not reached, or comes to a way out. -/
def LeavesClearing (pec : Ec σ) (slave : ℕ) (w : World σ) : Prop :=
  ∀ u g v, (ecEepromToEc pec slave).Ends w (.ok ()) u →
    (pollStatus pec slave .eepromWriteError unansweredOrBusy 0).Ends u (.ok g) v →
    errorBits g = true →
    ∃ n, WayOut pec slave ((Clearing.next pec slave)^[n] ⟨false, g.wkc, 0#16, v⟩)

theorem writeSteps_halts_iff (hticks : pec.Ticks) : (writeSteps pec slave eepadr).Halts w ↔
    ∀ g v, (pollStatus pec slave .eepromWriteError unansweredOrBusy 0).Ends w (.ok g) v →
      errorBits g = true →
      ∃ n, WayOut pec slave ((Clearing.next pec slave)^[n] ⟨false, g.wkc, 0#16, v⟩) := by
  refine Prog.halts_bind.trans
    ((and_iff_right (pollStatus_halts hticks (by decide) _ _ _)).trans ?_)
  refine forall_congr' fun g => forall_congr' fun v => imp_congr_right fun _ => ?_
  rw [← clearErrors_halts_iff]
  refine Prog.halts_bind.trans (and_iff_left fun g t _ => ?_)
  exact g.check_halts.bind fun g _ _ => writeCommand_halts hticks slave eepadr g.wkc _

theorem eepromwrite_halts_iff (hticks : pec.Ticks) (slave : ℕ) (eepadr : BitVec 32) (w : World σ) :
    (ecEepromwrite pec slave eepadr).Halts w ↔ LeavesClearing pec slave w := by
  rw [ecEepromwrite]
  split
  · refine iff_of_true .throw fun u _ _ hu => ?_
    rw [ecEepromToEc, if_pos ‹_›, Prog.ends_throw] at hu
    exact nomatch hu.1
  · have hrest : ∀ u, ((writeSteps pec slave eepadr).bind fun _ =>
        ecEepromToPdi pec slave).Halts u ↔ (writeSteps pec slave eepadr).Halts u := fun u =>
      Prog.halts_bind.trans (and_iff_left fun _ t _ => toPdi_halts hticks slave t)
    refine Prog.halts_bind.trans ((and_iff_right (toEc_halts hticks slave w)).trans ?_)
    refine ⟨fun h u g v hu => ?_, fun h _ u hu => ?_⟩
    · exact (writeSteps_halts_iff hticks).1 ((hrest u).1 (h () u hu)) g v
    · exact (hrest u).2 ((writeSteps_halts_iff hticks).2 fun g v => h u g v hu)

/-! ## A buffer -/

/-- The word that pass `i` of the loop takes from the buffer. -/
def wordAt (buf : List (BitVec 8)) (i : ℕ) : BitVec 16 :=
  buf.getD (i * 2 + 1) 0#8 ++ buf.getD (i * 2) 0#8

/-- The world when word `i` begins. -/
def BeforeWord (pec : Ec σ) (slave : ℕ) (eepadr : BitVec 32) (buf : List (BitVec 8))
    (w : World σ) : ℕ → World σ → Prop
  | 0, u => u = w
  | i + 1, u => ∃ v, BeforeWord pec slave eepadr buf w i v ∧
      (writeWord pec slave (eepadr + BitVec.ofNat 32 i) : Prog _ Fault _).Ends
        { v with data := wordAt buf i } (.ok ()) u

/-- A word is taken after finitely many attempts, each of which ends. -/
def TakenAtLast (pec : Ec σ) (slave : ℕ) (eepadr : BitVec 32) (w : World σ) : Prop :=
  ∃ u t, Relation.ReflTransGen (ecEepromwrite pec slave eepadr).Fails w u ∧
    (ecEepromwrite pec slave eepadr).Ends u (.ok ()) t

theorem BeforeWord.unique {buf : List (BitVec 8)} {i : ℕ} {u v : World σ}
    (hu : BeforeWord pec slave eepadr buf w i u) (hv : BeforeWord pec slave eepadr buf w i v) :
    u = v := by
  induction i generalizing u v with
  | zero => exact hu.trans (Eq.symm hv)
  | succ i ih =>
    obtain ⟨u', hu', hends⟩ := hu
    obtain ⟨v', hv', hends'⟩ := hv
    obtain rfl := ih hu' hv'
    exact (hends.unique hends').2

theorem load_eq {buf : List (BitVec 8)} {i : ℕ} (h : i < buf.length) :
    (load buf i : Prog (World σ) _ _) = .ret (buf.getD i 0#8) := by
  rw [load, List.getElem?_eq_getElem h, List.getD_eq_getElem?_getD, List.getElem?_eq_getElem h]
  rfl

/-- One pass of the loop over the words. -/
def writePass (pec : Ec σ) (slave : ℕ) (eepadr : BitVec 32) (buf : List (BitVec 8)) (i : ℕ) :
    Prog (World σ) Fault (ℕ ⊕ Ret) := do
  .act fun w => ((), { w with data := wordAt buf i })
  writeWord pec slave (eepadr + BitVec.ofNat 32 i)
  .ret (.inl (i + 1))

/-- No pass leaves the buffer. -/
theorem eepromwriteLen_eq (buf : List (BitVec 8)) (hfound : slave < pec.slaveCnt) :
    ecEepromwriteLen pec slave eepadr buf buf.length = .loop (fun i =>
      if i < buf.length / 2 then writePass pec slave eepadr buf i else .ret (.inr .ok)) 0 := by
  rw [ecEepromwriteLen, if_neg (Nat.not_le.2 hfound)]
  congr 1
  funext i
  by_cases h : i < buf.length / 2
  · rw [if_pos h, if_pos h, load_eq (by omega), load_eq (by omega)]
    rfl
  · rw [if_neg h, if_neg h]

/-- This word has been written, or one that came back for it from an attempt that failed. -/
def WrittenFor (pec : Ec σ) (slave : ℕ) (eepadr : BitVec 32) (word : BitVec 16) (l : List Frame) :
    Prop :=
  ∃ data, Written pec slave eepadr data l ∧ (data = word ∨ ∃ f ∈ l, WordAltered pec slave word f)

theorem WrittenFor.append {word : BitVec 16} (h : WrittenFor pec slave eepadr word l) :
    WrittenFor pec slave eepadr word (l' ++ l) := by
  obtain ⟨data, hwritten, hword⟩ := h
  refine ⟨data, hwritten.append, hword.imp_right fun ⟨f, hf, halt⟩ => ?_⟩
  exact ⟨f, List.mem_append_right _ hf, halt⟩

theorem WrittenFor.append_right {word : BitVec 16} (h : WrittenFor pec slave eepadr word l) :
    WrittenFor pec slave eepadr word (l ++ l') := by
  obtain ⟨data, hwritten, hword⟩ := h
  refine ⟨data, hwritten.append_right, hword.imp_right fun ⟨f, hf, halt⟩ => ?_⟩
  exact ⟨f, List.mem_append_left _ hf, halt⟩

theorem writeWord_logs (w : World σ) :
    (writeWord pec slave eepadr : Prog _ ε _).Post w (Prog.Logs World.frames w fun r l _ =>
      r = .ok () ∧ WrittenFor pec slave eepadr w.data l) := by
  refine Prog.post_loop_logs (I := fun _ l t => t.data = w.data ∨
    ∃ f ∈ l, WordAltered pec slave w.data f) (fun _ l t hword => ?_) (.inl rfl)
  refine Prog.post_bind.2 (Prog.post_attempt.2 ?_)
  refine ((eepromwrite_logs slave eepadr t).and (keepsWord_eepromwrite t)).imp fun r u h => ?_
  obtain ⟨⟨l', hl', hwritten⟩, hlogs⟩ := h
  have hkept := (Prog.logs_iff hl').1 hlogs
  rcases r with e | a
  · refine Prog.post_ret.2 ⟨l', hl', ?_⟩
    rcases hword with hsame | ⟨f, hf, halt⟩
    · rw [hsame] at hkept
      exact hkept.imp_right fun ⟨f, hf, halt⟩ => ⟨f, List.mem_append_right _ hf, halt⟩
    · exact .inr ⟨f, List.mem_append_left _ hf, halt⟩
  · refine Prog.post_ret.2 ⟨l', hl', rfl, t.data, (hwritten rfl).append, ?_⟩
    exact hword.imp_right fun ⟨f, hf, halt⟩ => ⟨f, List.mem_append_left _ hf, halt⟩

/-- The words before `i` have been taken. -/
def TakenBefore (pec : Ec σ) (slave : ℕ) (eepadr : BitVec 32) (buf : List (BitVec 8)) (i : ℕ)
    (l : List Frame) : Prop :=
  ∀ j < i, WrittenFor pec slave (eepadr + BitVec.ofNat 32 j) (wordAt buf j) l

theorem writePass_logs (buf : List (BitVec 8)) (i : ℕ) (w : World σ)
    (h : TakenBefore pec slave eepadr buf i l) :
    (writePass pec slave eepadr buf i).Post w (Prog.Logs World.frames w fun r l' _ =>
      r = .ok (.inl (i + 1)) ∧ TakenBefore pec slave eepadr buf (i + 1) (l ++ l')) := by
  refine Prog.post_bind.2 (Prog.post_act.2 (Prog.post_bind.2 ?_))
  refine (writeWord_logs { w with data := wordAt buf i }).imp fun r t hlogs => ?_
  obtain ⟨l', hl', rfl, hwritten⟩ := hlogs
  refine Prog.post_ret.2 ⟨l', hl', rfl, fun j hj => ?_⟩
  rcases Nat.lt_succ_iff_lt_or_eq.1 hj with hj | rfl
  · exact (h j hj).append_right
  · exact hwritten.append

theorem eepromwriteLen_logs (buf : List (BitVec 8)) (w : World σ) :
    (ecEepromwriteLen pec slave eepadr buf buf.length).Post w (Prog.Logs World.frames w fun r l _ =>
      (∃ ret, r = .ok ret) ∧
        (r = .ok .ok → TakenBefore pec slave eepadr buf (buf.length / 2) l)) := by
  by_cases hfound : pec.slaveCnt ≤ slave
  · rw [ecEepromwriteLen, if_pos hfound]
    exact Prog.post_ret.2 ⟨[], (List.append_nil _).symm, ⟨_, rfl⟩, nofun⟩
  · rw [eepromwriteLen_eq buf (Nat.lt_of_not_le hfound)]
    refine Prog.post_loop_logs (I := fun i l _ => TakenBefore pec slave eepadr buf i l)
      (fun i l t h => ?_) nofun
    refine Prog.post_ite (fun _ => ?_) fun hend => ?_
    · refine (writePass_logs buf i t h).imp fun r u hlogs => hlogs.imp fun l' hl' => ?_
      obtain ⟨rfl, htaken⟩ := hl'
      exact htaken
    · refine Prog.post_ret.2 ⟨[], (List.append_nil _).symm, ⟨_, rfl⟩, fun _ j hj => ?_⟩
      rw [List.append_nil]
      exact h j (Nat.lt_of_lt_of_le hj (Nat.not_lt.1 hend))

/-- Every word is taken at last. -/
def AllTaken (pec : Ec σ) (slave : ℕ) (eepadr : BitVec 32) (buf : List (BitVec 8)) (w : World σ) :
    Prop :=
  ∀ i < buf.length / 2, ∀ u, BeforeWord pec slave eepadr buf w i u →
    TakenAtLast pec slave (eepadr + BitVec.ofNat 32 i) { u with data := wordAt buf i }

theorem writePass_total (buf : List (BitVec 8)) (i : ℕ) (u : World σ)
    (h : TakenAtLast pec slave (eepadr + BitVec.ofNat 32 i) { u with data := wordAt buf i }) :
    (writePass pec slave eepadr buf i).Total u fun r t => r = .ok (.inl (i + 1)) ∧
      (writeWord pec slave (eepadr + BitVec.ofNat 32 i) : Prog _ Fault _).Ends
        { u with data := wordAt buf i } (.ok ()) t := by
  obtain ⟨v, t, hfails, hok⟩ := h
  have hends : (writeWord pec slave (eepadr + BitVec.ofNat 32 i) : Prog _ Fault _).Ends
      { u with data := wordAt buf i } (.ok ()) t :=
    Prog.ends_untilOk.2 ⟨v, (), hfails, hok, rfl⟩
  refine Prog.total_bind.2 (Prog.total_act.2 (Prog.total_bind.2 ⟨.ok (), t, hends, ?_⟩))
  exact Prog.total_ret.2 ⟨rfl, hends⟩

theorem eepromwriteLen_halts (buf : List (BitVec 8)) (hfound : slave < pec.slaveCnt)
    (h : AllTaken pec slave eepadr buf w) :
    (ecEepromwriteLen pec slave eepadr buf buf.length).Halts w := by
  rw [eepromwriteLen_eq buf hfound]
  refine Prog.total_loop (I := BeforeWord pec slave eepadr buf w) (fun i _ => buf.length / 2 - i)
    (fun i u hu => ?_) rfl
  refine Prog.total_ite (fun hi => ?_) fun _ => Prog.total_ret.2 trivial
  refine (writePass_total buf i u (h i hi u hu)).imp fun r t ht => ?_
  obtain ⟨rfl, hends⟩ := ht
  exact ⟨⟨u, hu, hends⟩, by omega⟩

/-- A word that is not taken at last keeps the loop from ending. -/
theorem takenAtLast_of_halts {buf : List (BitVec 8)} (hfound : slave < pec.slaveCnt)
    (h : (ecEepromwriteLen pec slave eepadr buf buf.length).Halts w) :
    AllTaken pec slave eepadr buf w := by
  intro i hi u hu
  by_contra hnot
  obtain ⟨r, t, hends, -⟩ := h
  rw [eepromwriteLen_eq buf hfound] at hends
  refine Prog.not_ends_loop (I := fun j v => j ≤ i ∧ BeforeWord pec slave eepadr buf w j v) ?_
    ⟨Nat.zero_le i, rfl⟩ hends
  rintro j v ⟨hj, hv⟩
  rw [if_pos (Nat.lt_of_le_of_lt hj hi)]
  refine Prog.post_bind.2 (Prog.post_act.2 (Prog.post_bind.2 fun r t hword => ?_))
  obtain ⟨v', a, hfails, hok, rfl⟩ := Prog.ends_untilOk.1 hword
  rcases Nat.lt_or_eq_of_le hj with hlt | rfl
  · exact Prog.post_ret.2 ⟨hlt, v, hv, hword⟩
  · obtain rfl := hu.unique hv
    exact absurd ⟨v', t, hfails, hok⟩ hnot

/-- **When writing ends**, and reports a word that has not been taken. -/
theorem write_ends_iff (hticks : pec.Ticks) (slave : ℕ) (eepadr : BitVec 32) (buf : List (BitVec 8))
    (w : World σ) :
    ((ecEepromwrite pec slave eepadr).Total w (Prog.Logs World.frames w fun r l _ =>
        r = .ok () → Written pec slave eepadr w.data l) ↔ LeavesClearing pec slave w) ∧
    ((ecEepromwriteLen pec slave eepadr buf buf.length).Total w
        (Prog.Logs World.frames w fun r l _ => (∃ ret, r = .ok ret) ∧
          (r = .ok .ok → TakenBefore pec slave eepadr buf (buf.length / 2) l)) ↔
      (pec.slaveCnt ≤ slave ∨ AllTaken pec slave eepadr buf w)) := by
  constructor
  · rw [← eepromwrite_halts_iff hticks slave eepadr]
    exact ⟨Prog.Total.halts, fun h => h.total (eepromwrite_logs slave eepadr w)⟩
  · by_cases hfound : slave < pec.slaveCnt
    · refine Iff.trans ⟨fun h => ?_, fun h => ?_⟩ (or_iff_right (Nat.not_le.2 hfound)).symm
      · exact takenAtLast_of_halts hfound h.halts
      · exact (eepromwriteLen_halts buf hfound h).total (eepromwriteLen_logs buf w)
    · have hle := Nat.le_of_not_lt hfound
      refine iff_of_true (Prog.Halts.total ?_ (eepromwriteLen_logs buf w)) (.inl hle)
      rw [ecEepromwriteLen, if_pos hle]
      exact .ret

/-! ## A slave that keeps an error bit -/

/-- One slave, which answers everything, and always has the error bit `0x2000`. -/
def keepsError : Ec ℕ where
  slaveCnt := 1
  fixedAddress := fun _ => 1001#16
  send := fun q s => (.answer 1 (match q.cmd with
    | .fprd => if q.ado = regEepctl then 0x2000#32 else 0#32
    | .fpwr => q.data), s + 1)
  sleep := fun ns s => s + ns
  now := id

theorem keepsError_ticks : keepsError.Ticks :=
  ⟨fun _ s => Nat.lt_succ_self s, fun ns s => Nat.le_add_right s ns⟩

theorem write_ends_keepsError :
    ((ecEepromwrite keepsError 0 0#32).Total ⟨0, [], 0#16⟩
        (Prog.Logs World.frames ⟨0, [], 0#16⟩ fun r l _ =>
          r = .ok () → Written keepsError 0 0#32 0#16 l) ↔
      LeavesClearing keepsError 0 ⟨0, [], 0#16⟩) ∧
    ((ecEepromwriteLen keepsError 0 0#32 [0#8, 0#8] 2).Total ⟨0, [], 0#16⟩
        (Prog.Logs World.frames ⟨0, [], 0#16⟩ fun r l _ => (∃ ret, r = .ok ret) ∧
          (r = .ok .ok → TakenBefore keepsError 0 0#32 [0#8, 0#8] 1 l)) ↔
      (1 ≤ 0 ∨ AllTaken keepsError 0 0#32 [0#8, 0#8] ⟨0, [], 0#16⟩)) :=
  write_ends_iff keepsError_ticks 0 0#32 [0#8, 0#8] ⟨0, [], 0#16⟩

theorem not_wayOut_keepsError (c : Clearing ℕ) : ¬ c.WayOut keepsError 0 := by
  unfold WayOut Clearing.reply Clearing.request keepsError
  cases c.reading with
  | false => simp
  | true => simp [ecFprd]

/-- The frames up to the loop for the error bits. -/
def keepsErrorFrames : List Frame :=
  [⟨⟨.fprd, 1001#16, 0x0500#16, 2, 2#32⟩, .answer 1 0#32⟩,
    ⟨⟨.fprd, 1001#16, 0x0500#16, 2, 0#32⟩, .answer 1 0#32⟩,
    ⟨⟨.fprd, 1001#16, 0x0502#16, 2, 0#32⟩, .answer 1 0x2000#32⟩]

theorem not_write_ends_keepsError :
    ¬ (ecEepromwrite keepsError 0 0#32).Halts ⟨0, [], 0#16⟩ := by
  rw [eepromwrite_halts_iff keepsError_ticks]
  intro h
  have htaken : (ecEepromToEc keepsError 0).Ends ⟨0, [], 0#16⟩ (.ok ())
      ⟨2, keepsErrorFrames.take 2, 0#16⟩ := ⟨2, rfl⟩
  have hstatus : (pollStatus keepsError 0 .eepromWriteError unansweredOrBusy 0).Ends
      ⟨2, keepsErrorFrames.take 2, 0#16⟩ (.ok ⟨.ok, 1, 0x2000#16⟩) ⟨3, keepsErrorFrames, 0#16⟩ :=
    ⟨2, by decide +kernel⟩
  obtain ⟨n, hn⟩ := h _ _ _ htaken hstatus (by decide)
  exact not_wayOut_keepsError _ hn

end LibEthercat.Eeprom
