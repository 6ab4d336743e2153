import LibEthercat.Eeprom.Steps

/-!
# Reading and the busy bit

**Theorem (`respects_busy_iff`).** `ec_eepromread` writes the address and the command only after a
status without the busy bit if and only if the polling loop before has got one.

That loop tests bit `0x0100` where `ec_eepromwrite` tests `0x8000`, and goes on only if the bit is
set. So it also leaves with a busy status, and with one that no slave has answered, which it takes
for zero. The second loop tests what it should, and the data it is followed by are those of a status
without an error (`result_after_status`).
-/

namespace LibEthercat.Eeprom

variable {σ : Type} {pec : Ec σ} {slave : ℕ} {w : World σ} {f : Frame} {l l' : List Frame}

/-- The address, or a command. -/
def Commands (f : Frame) : Prop :=
  f.req.cmd = .fpwr ∧ (f.req.ado = regEepadr ∨ f.req.ado = regEepctl)

/-- Some status says that the EEPROM is not busy. -/
def HasReady (pec : Ec σ) (slave : ℕ) (l : List Frame) : Prop :=
  ∃ f ∈ l, ∃ v, StatusWord pec slave f v ∧ NotBusy v

/-- The data are those of a datagram behind a status without busy and error bits, which is behind
the command. -/
def ReadAfterStatus (pec : Ec σ) (slave : ℕ) (data : BitVec 32) (l : List Frame) : Prop :=
  ∃ c s d : Frame, [c, s, d].Sublist l ∧ c.req = ecFpwr pec slave regEepctl 0x0100#16 ∧
    (∃ v, StatusWord pec slave s v ∧ NotBusy v ∧ readErrors v = .ok) ∧
    d.req = ecFprd pec slave regEepdat 0#32 ∧ d.reply = .answer 1 data

structure RespectsBusy (pec : Ec σ) (slave : ℕ) (r : Except Ret (BitVec 32)) (l : List Frame) :
    Prop where
  commands : ∀ pre f post, l = pre ++ f :: post → Commands f → HasReady pec slave pre
  result : ∀ data, r = .ok data → ReadAfterStatus pec slave data l

/-! ## The second half: the result -/

/-- From the address on: a command comes first, and data come behind a status. -/
theorem readCommand_logs (eepadr : BitVec 32) (wkc : ℕ) (w : World σ) :
    (readCommand pec slave eepadr wkc).Post w (Prog.Logs World.frames w fun r l _ =>
      (∃ f tail, l = f :: tail ∧ Commands f) ∧
      ∀ data, r = .ok data → ReadAfterStatus pec slave data l) := by
  refine Prog.post_bind_logs (transceiveOnce_logs wkc eepadr w) (fun _ l t h => ?_)
    fun _ l _ h => ?_
  swap
  · obtain ⟨rep, rfl, -⟩ := h
    exact ⟨⟨_, _, rfl, rfl, .inl rfl⟩, nofun⟩
  obtain ⟨rep, rfl, -⟩ := h
  have hfirst : ∀ l' : List Frame, ∃ f tail,
      [⟨ecFpwr pec slave regEepadr eepadr, rep⟩] ++ l' = f :: tail ∧ Commands f :=
    fun l' => ⟨_, l', rfl, rfl, .inl rfl⟩
  refine Prog.post_bind_logs (transceiveOnce_logs _ _ t) (fun g l t h => ?_)
    fun _ _ _ _ => ⟨hfirst _, nofun⟩
  obtain ⟨rep', rfl, -⟩ := h
  refine Prog.post_bind_logs (pollStatus_answered (by decide) _ t) (fun g ls t hstatus => ?_)
    fun _ _ _ _ => ⟨hfirst _, nofun⟩
  obtain ⟨s, hs, hword, hready⟩ := hstatus g rfl
  refine Prog.post_bind_logs (transceiveOnce_logs _ _ t) (fun data l t h => ?_)
    fun _ _ _ _ => ⟨hfirst _, nofun⟩
  obtain ⟨rep'', rfl, hdata⟩ := h
  obtain ⟨d, rfl, hval⟩ := hdata data rfl
  refine Prog.post_bind.2 (post_checkRet (fun hok => ?_) fun _ => ?_)
  · refine Prog.post_ret.2 ⟨[], (List.append_nil _).symm, hfirst _, fun x hx => ?_⟩
    cases hx
    refine ⟨⟨_, rep'⟩, s, ⟨_, .answer 1 d⟩, ?_, rfl, ⟨_, hword, hready, hok⟩, rfl, ?_⟩
    · have hrest : [s, ⟨ecFprd pec slave regEepdat 0#32, .answer 1 d⟩].Sublist
          (ls ++ ([⟨ecFprd pec slave regEepdat 0#32, .answer 1 d⟩] ++ [])) :=
        (List.singleton_sublist.2 hs).append (.refl _)
      exact .cons _ (.cons_cons _ hrest)
    · show Reply.answer 1 d = .answer 1 data.val
      rw [hval, BitVec.setWidth_eq]
  · exact ⟨[], (List.append_nil _).symm, hfirst _, nofun⟩

/-! ## The first half: what comes before the address -/

theorem HasReady.append_left (h : HasReady pec slave l) : HasReady pec slave (l ++ l') := by
  obtain ⟨f, hf, hword⟩ := h
  exact ⟨f, List.mem_append_left _ hf, hword⟩

theorem hasReady_append (h : ∀ f ∈ l, f.req.ado = regEepcfg) :
    HasReady pec slave (l ++ l') ↔ HasReady pec slave l' := by
  constructor
  · rintro ⟨f, hf, v, hword, hready⟩
    refine ⟨f, ?_, v, hword, hready⟩
    refine (List.mem_append.1 hf).resolve_left fun hmem => ?_
    have hado := h f hmem
    rw [hword.1] at hado
    exact absurd hado (by decide : regEepctl ≠ regEepcfg)
  · rintro ⟨f, hf, hword⟩
    exact ⟨f, List.mem_append_right _ hf, hword⟩

/-- A trace with commands only behind a part of it. -/
theorem commands_iff (pec : Ec σ) (slave : ℕ) {c : Frame} (l' : List Frame)
    (hnone : ∀ f ∈ l, ¬ Commands f) (hc : Commands c) :
    (∀ pre f post, l ++ c :: l' = pre ++ f :: post → Commands f → HasReady pec slave pre) ↔
      HasReady pec slave l := by
  constructor
  · exact fun h => h l c l' rfl hc
  · intro h pre f post heq hf
    rcases List.append_eq_append_iff.1 heq with ⟨a, rfl, -⟩ | ⟨a, rfl, ha⟩
    · exact h.append_left
    · cases a with
      | nil => rwa [List.append_nil] at h
      | cons x a =>
        cases ha
        exact absurd hf (hnone f (List.mem_append_right _ List.mem_cons_self))

/-- The frames of the first `m` statuses, with what the bus replies to them. -/
def statuses (pec : Ec σ) (slave : ℕ) (s : σ) (m : ℕ) : List Frame :=
  (List.range m).map fun k => ⟨statusRequest pec slave, pec.reply (statusRequest pec slave) s k⟩

/-- The loop before the address goes on after status `m`. -/
def FirstGoesOn (pec : Ec σ) (slave : ℕ) (s : σ) (m : ℕ) : Prop :=
  GoesOn pec (pec.now s + 100000000) commandBit (ecFprd pec slave regEepctl) 0#16 s m

/-- It ends with success. -/
def FirstSucceeds (pec : Ec σ) (slave : ℕ) (s : σ) (m : ℕ) : Prop :=
  Succeeds pec (pec.now s + 100000000) commandBit (ecFprd pec slave regEepctl) 0#16 s m

/-- If the loop before the address ends with success, one of its statuses was not busy. -/
def ReadyFirst (pec : Ec σ) (slave : ℕ) (s : σ) : Prop :=
  ∀ m, (∀ k < m, FirstGoesOn pec slave s k) → FirstSucceeds pec slave s m →
    HasReady pec slave (statuses pec slave s (m + 1))

/-- The loop ends with status `m`, and then comes `tail`: a command if it has ended with success,
and nothing if not. -/
structure FirstLoop (pec : Ec σ) (slave : ℕ) (s : σ) (m : ℕ) (tail : List Frame) : Prop where
  before : ∀ k < m, FirstGoesOn pec slave s k
  last : ¬ FirstGoesOn pec slave s m
  command : FirstSucceeds pec slave s m → ∃ f tail', tail = f :: tail' ∧ Commands f
  none : ¬ FirstSucceeds pec slave s m → tail = []

namespace FirstLoop

variable {s : σ} {m m' : ℕ} {tail : List Frame}

theorem eq_of_succeeds (h : FirstLoop pec slave s m tail) (hsucc : FirstSucceeds pec slave s m')
    (hbefore : ∀ k < m', FirstGoesOn pec slave s k) : m' = m := by
  rcases Nat.lt_trichotomy m' m with hlt | heq | hlt
  · exact absurd (h.before m' hlt).2.2 hsucc.2.2
  · exact heq
  · exact absurd (hbefore m hlt) h.last

theorem append (h : FirstLoop pec slave s m tail) (hsucc : FirstSucceeds pec slave s m) :
    FirstLoop pec slave s m (tail ++ l) := by
  refine ⟨h.before, h.last, fun _ => ?_, fun hfail => absurd hsucc hfail⟩
  obtain ⟨f, tail', rfl, hf⟩ := h.command hsucc
  exact ⟨f, tail' ++ l, rfl, hf⟩

theorem readyFirst_iff (h : FirstLoop pec slave s m tail) (hsucc : FirstSucceeds pec slave s m) :
    ReadyFirst pec slave s ↔ HasReady pec slave (statuses pec slave s (m + 1)) := by
  constructor
  · exact fun hready => hready m h.before hsucc
  · intro hready m' hbefore hsucc'
    rwa [h.eq_of_succeeds hsucc' hbefore]

end FirstLoop

theorem not_commands_of_eepcfg (h : f.req.ado = regEepcfg) : ¬ Commands f := by
  rintro ⟨-, hadr | hctl⟩
  · exact absurd (hadr.symm.trans h) (by decide)
  · exact absurd (hctl.symm.trans h) (by decide)

theorem not_commands_of_mem_statuses {s : σ} {m : ℕ} (h : f ∈ statuses pec slave s m) :
    ¬ Commands f := by
  obtain ⟨k, -, rfl⟩ := List.mem_map.1 h
  rintro ⟨hcmd, -⟩
  cases hcmd

/-- The frames of a run: `l` for taking control, the statuses, and what comes behind them. -/
theorem FirstLoop.respectsBusy_iff {s : σ} {m : ℕ} {tail : List Frame}
    {r : Except Ret (BitVec 32)} (h : FirstLoop pec slave s m tail)
    (hl : ∀ f ∈ l, f.req.ado = regEepcfg)
    (hdata : ∀ data, r = .ok data →
      ReadAfterStatus pec slave data (statuses pec slave s (m + 1) ++ tail)) :
    RespectsBusy pec slave r (l ++ (statuses pec slave s (m + 1) ++ tail)) ↔
      ReadyFirst pec slave s := by
  have hquiet : ∀ f ∈ l ++ statuses pec slave s (m + 1), ¬ Commands f :=
    List.forall_mem_append.2 ⟨fun f hf => not_commands_of_eepcfg (hl f hf),
      fun f hf => not_commands_of_mem_statuses hf⟩
  have hresult : ∀ data, r = .ok data →
      ReadAfterStatus pec slave data (l ++ (statuses pec slave s (m + 1) ++ tail)) := by
    intro data hr
    obtain ⟨c, s, d, hsub, hrest⟩ := hdata data hr
    exact ⟨c, s, d, hsub.trans (List.sublist_append_right _ _), hrest⟩
  by_cases hsucc : FirstSucceeds pec slave s m
  · obtain ⟨f, tail', rfl, hf⟩ := h.command hsucc
    have hiff := commands_iff pec slave tail' hquiet hf
    rw [List.append_assoc, hasReady_append hl] at hiff
    rw [h.readyFirst_iff hsucc, ← hiff]
    exact ⟨fun h => h.commands, fun h => ⟨h, hresult⟩⟩
  · rw [h.none hsucc, List.append_nil] at hresult ⊢
    refine iff_of_true ⟨fun pre f post heq hf => ?_, hresult⟩ fun m' hbefore hsucc' => ?_
    · exact absurd hf (hquiet f (heq ▸ List.mem_append_right _ List.mem_cons_self))
    · rw [h.eq_of_succeeds hsucc' hbefore] at hsucc'
      exact absurd hsucc' hsucc

theorem readSteps_logs (eepadr : BitVec 32) (u : World σ) :
    (readSteps pec slave eepadr).Post u (Prog.Logs World.frames u fun r l _ =>
      ∃ m tail, l = statuses pec slave u.env (m + 1) ++ tail ∧ FirstLoop pec slave u.env m tail ∧
        ((∃ data, r = .ok data) → FirstSucceeds pec slave u.env m) ∧
        ∀ data, r = .ok data → ReadAfterStatus pec slave data l) := by
  refine Prog.post_bind.2 ((pollStatus_runs (by decide) _ 0 u).imp fun r t h => ?_)
  obtain ⟨m, rfl, hbefore, hend, hsucc, -⟩ := h
  rcases r with e | g
  · have hfail := mt hsucc.2 nofun
    exact ⟨_, rfl, m, [], (List.append_nil _).symm, ⟨hbefore, hend, fun h => absurd h hfail,
      fun _ => rfl⟩, nofun, nofun⟩
  · have hgood := hsucc.1 ⟨g, rfl⟩
    refine (readCommand_logs eepadr g.wkc _).imp fun r t hlogs => ?_
    obtain ⟨tail, htail, hfirst, hdata⟩ := hlogs
    refine ⟨statuses pec slave u.env (m + 1) ++ tail, ?_, m, tail, rfl, ⟨hbefore, hend,
      fun _ => hfirst, fun hfail => absurd hgood hfail⟩, fun _ => hgood, fun data hok => ?_⟩
    · rw [htail, World.polled, List.append_assoc]
      rfl
    · obtain ⟨c, s, d, hsub, hrest⟩ := hdata data hok
      exact ⟨c, s, d, hsub.trans (List.sublist_append_right _ _), hrest⟩

/-- The steps, and giving the EEPROM back. -/
theorem readRest_logs (eepadr : BitVec 32) (u : World σ) :
    ((readSteps pec slave eepadr).bind fun data => (ecEepromToPdi pec slave).bind fun _ =>
      .ret data).Post u (Prog.Logs World.frames u fun r l _ =>
      ∃ m tail, l = statuses pec slave u.env (m + 1) ++ tail ∧ FirstLoop pec slave u.env m tail ∧
        ∀ data, r = .ok data → ReadAfterStatus pec slave data l) := by
  refine Prog.post_bind_logs (readSteps_logs eepadr u) (fun data l t h => ?_) fun e l t h => ?_
  · obtain ⟨m, tail, rfl, hloop, hsucc, hdata⟩ := h
    have hgood := hsucc ⟨data, rfl⟩
    refine Prog.post_bind_logs (emits_toPdi t) (fun _ l' t' _ => ?_) fun e l' t' _ => ?_
    · refine Prog.post_ret.2 ⟨[], (List.append_nil _).symm, m, tail ++ l', ?_, hloop.append hgood,
        fun x hx => ?_⟩
      · rw [List.append_nil, List.append_assoc]
      · cases hx
        obtain ⟨c, s, d, hsub, hrest⟩ := hdata data rfl
        exact ⟨c, s, d, hsub.trans (List.sublist_append_left _ _), hrest⟩
    · exact ⟨m, tail ++ l', List.append_assoc _ _ _, hloop.append hgood, nofun⟩
  · obtain ⟨m, tail, hl, hloop, -, -⟩ := h
    exact ⟨m, tail, hl, hloop, nofun⟩

theorem eepromread_respects_iff (slave : ℕ) (eepadr : BitVec 32) (s : σ) (x : BitVec 16) :
    (ecEepromread pec slave eepadr).Post ⟨s, [], x⟩ fun r t =>
      RespectsBusy pec slave r t.frames ↔
        ∀ u, (ecEepromToEc pec slave).Ends ⟨s, [], x⟩ (.ok ()) u → ReadyFirst pec slave u.env := by
  have hquiet : ∀ {t : World σ} {l : List Frame} {e : Ret}, t.frames = [] ++ l →
      (∀ f ∈ l, f.req.ado = regEepcfg) →
      RespectsBusy pec slave (.error e) t.frames := fun {t l e} ht hl => by
    refine ⟨fun pre f post heq hf => absurd hf (not_commands_of_eepcfg (hl f ?_)), nofun⟩
    have hmem : f ∈ t.frames := heq ▸ List.mem_append_right _ List.mem_cons_self
    rwa [ht] at hmem
  refine Prog.post_ite (fun hle => ?_) fun hlt => ?_
  · refine Prog.post_throw.2 (iff_of_true (hquiet rfl nofun) fun u hu => ?_)
    rw [ecEepromToEc, if_pos hle, Prog.ends_throw] at hu
    exact nomatch hu.1
  intro r t hends
  rcases Prog.ends_bind.1 hends with ⟨e, hfail, rfl⟩ | ⟨⟨⟩, u, htaken, hends⟩
  · obtain ⟨l, hl, hcfg⟩ := emits_toEc _ _ _ hfail
    exact iff_of_true (hquiet hl hcfg) fun u hu => nomatch (hu.unique hfail).1
  · obtain ⟨l, hl, hcfg⟩ := emits_toEc _ _ _ htaken
    obtain ⟨l', hl', m, tail, rfl, hloop, hdata⟩ := readRest_logs eepadr u _ _ hends
    have hframes : t.frames = l ++ (statuses pec slave u.env (m + 1) ++ tail) := by
      rw [hl', hl, List.nil_append]
    rw [hframes, hloop.respectsBusy_iff hcfg hdata]
    refine ⟨fun h u' hu' => ?_, fun h => h u htaken⟩
    obtain ⟨-, rfl⟩ := hu'.unique htaken
    exact h

/-- **When reading respects the busy bit.** It always ends. -/
theorem respects_busy_iff (hticks : pec.Ticks) (slave : ℕ) (eepadr : BitVec 32) (s : σ)
    (x : BitVec 16) :
    (ecEepromread pec slave eepadr).Total ⟨s, [], x⟩ fun r t =>
      RespectsBusy pec slave r t.frames ↔
        ∀ u, (ecEepromToEc pec slave).Ends ⟨s, [], x⟩ (.ok ()) u → ReadyFirst pec slave u.env :=
  (eepromread_halts hticks slave eepadr _).total (eepromread_respects_iff slave eepadr s x)

/-! ## A busy EEPROM -/

/-- One slave, which has given the EEPROM to ECAT, and is busy at first. It takes all commands. -/
def busyFirst : Ec ℕ where
  slaveCnt := 1
  fixedAddress := fun _ => 1001#16
  send := fun q s => (.answer 1 (if q.ado = regEepctl ∧ s = 2 then 0x8000#32 else 0#32), s + 1)
  sleep := fun ns s => s + ns
  now := id

theorem busyFirst_ticks : busyFirst.Ticks :=
  ⟨fun _ s => Nat.lt_succ_self s, fun ns s => Nat.le_add_right s ns⟩

theorem respects_busy_busyFirst :
    (ecEepromread busyFirst 0 0#32).Total ⟨0, [], 0#16⟩ fun r t =>
      RespectsBusy busyFirst 0 r t.frames ↔
        ∀ u, (ecEepromToEc busyFirst 0).Ends ⟨0, [], 0#16⟩ (.ok ()) u →
          ReadyFirst busyFirst 0 u.env :=
  respects_busy_iff busyFirst_ticks 0 0#32 0 0#16

/-- The frames of a read up to the first status, and from the address on. -/
def busyFrames : List Frame :=
  [⟨⟨.fprd, 1001#16, 0x0500#16, 2, 2#32⟩, .answer 1 0#32⟩,
    ⟨⟨.fprd, 1001#16, 0x0500#16, 2, 0#32⟩, .answer 1 0#32⟩,
    ⟨⟨.fprd, 1001#16, 0x0502#16, 2, 0#32⟩, .answer 1 0x8000#32⟩]

def addressFrames : List Frame :=
  [⟨⟨.fpwr, 1001#16, 0x0504#16, 4, 0#32⟩, .answer 1 0#32⟩,
    ⟨⟨.fpwr, 1001#16, 0x0502#16, 2, 0x0100#32⟩, .answer 1 0#32⟩,
    ⟨⟨.fprd, 1001#16, 0x0502#16, 2, 0#32⟩, .answer 1 0#32⟩,
    ⟨⟨.fprd, 1001#16, 0x0508#16, 4, 0#32⟩, .answer 1 0#32⟩,
    ⟨⟨.fpwr, 1001#16, 0x0500#16, 1, 1#32⟩, .answer 1 0#32⟩]

theorem not_respects_busy_busyFirst :
    (ecEepromread busyFirst 0 0#32).Ends ⟨0, [], 0#16⟩ (.ok 0#32)
      ⟨8, busyFrames ++ addressFrames, 0#16⟩ ∧
    ¬ RespectsBusy busyFirst 0 (.ok 0#32) (busyFrames ++ addressFrames) := by
  refine ⟨⟨2, rfl⟩, fun h => ?_⟩
  obtain ⟨f, hf, v, ⟨hreq, wkc, d, hrep, -, rfl⟩, hready⟩ :=
    h.commands busyFrames _ _ rfl ⟨rfl, .inl rfl⟩
  have hbusy : ∀ g ∈ busyFrames, g.req = statusRequest busyFirst 0 →
      g.reply = .answer 1 0x8000#32 := by decide
  have heq := hrep.symm.trans (hbusy f hf hreq)
  cases heq
  exact absurd hready (by decide : ¬ (0x8000#32).setWidth 16 &&& 0x8000#16 = 0#16)

end LibEthercat.Eeprom
