import LibEthercat.Eeprom.Steps

/-!
# Access to a PHY

`ec_miiread` and `ec_miiwrite` write a command to a register of the slave, poll its status until the
busy bit is clear, and the former reads the data then. They do not look at the working counter.

**Theorem (`completes_iff`).** `EC_OK` means that the access is complete, if and only if nothing
disturbs it that the functions do not see: that the command was not sent, that the polls of a read
have failed or come to the end of their time, that the first poll was not answered, or the read of
the data.

The result of `ec_miiread` is that of the last datagram alone.
-/

namespace LibEthercat.Mii

open Eeprom

variable {σ ε : Type}

/-! ## The functions -/

def regMiiCtrlstat : BitVec 16 := 0x0510#16

def regMiiPhyAdr : BitVec 16 := 0x0512#16

def regMiiPhyData : BitVec 16 := 0x0514#16

def Busy (ctrlStat : BitVec 16) : Prop := ctrlStat &&& 0x8000#16 ≠ 0#16

instance (ctrlStat : BitVec 16) : Decidable (Busy ctrlStat) := inferInstanceAs (Decidable (_ ≠ _))

def phyAdrReg (phyAdr : BitVec 8) (phyReg : BitVec 16) : BitVec 16 :=
  phyAdr.setWidth 16 ||| phyReg <<< 8

/-- `ctrl_stat` with a command instead of the last one. -/
def withCommand (command ctrlStat : BitVec 16) : BitVec 16 := ctrlStat &&& ~~~0x0300#16 ||| command

/-- A pass of the polling loop. -/
def pollOnce (pec : Eeprom.Ec σ) (slave timer : ℕ) (ctrlStat : BitVec 16) :
    Prog (World σ) ε (BitVec 16 ⊕ Ret) := do
  let g ← ecTransceive pec (ecFprd pec slave regMiiCtrlstat) 0 ctrlStat
  let expired ← osalTimerExpired pec timer
  let ret := if g.ret = .ok ∧ expired then .timeout else g.ret
  if Busy g.val ∧ ret = .ok then .ret (.inl g.val) else .ret (.inr ret)

def poll (pec : Eeprom.Ec σ) (slave timer : ℕ) : BitVec 16 → Prog (World σ) ε Ret :=
  .loop (pollOnce pec slave timer)

/-- The command, and the loop behind it. What `check_ec_fprd` and `check_ec_fpwr` return is only
logged. -/
def execute (pec : Eeprom.Ec σ) (slave : ℕ) (command : BitVec 16) (timeout : ℕ) :
    Prog (World σ) ε Ret := do
  let g ← ecTransceive pec (ecFprd pec slave regMiiCtrlstat) 0 0#16
  let g ← ecTransceive pec (ecFpwr pec slave regMiiCtrlstat) 0 (withCommand command g.val)
  let timer ← osalTimerInit pec timeout
  poll pec slave timer g.val

/-- `ec_miiread`, which leaves a word in `data`. -/
def ecMiiread (pec : Eeprom.Ec σ) (slave : ℕ) (phyAdr : BitVec 8) (phyReg data : BitVec 16) :
    Prog (World σ) ε (Ret × BitVec 16) :=
  if pec.slaveCnt ≤ slave then .ret (.slaveNotFound, data)
  else do
    let _ ← ecTransceive pec (ecFpwr pec slave regMiiPhyAdr) 0 (phyAdrReg phyAdr phyReg)
    let _ ← execute pec slave 0x0100#16 10000000000
    let g ← ecTransceive pec (ecFprd pec slave regMiiPhyData) 0 data
    .ret (g.ret, g.val)

/-- `ec_miiwrite` -/
def ecMiiwrite (pec : Eeprom.Ec σ) (slave : ℕ) (phyAdr : BitVec 8) (phyReg data : BitVec 16) :
    Prog (World σ) ε (Ret × BitVec 16) :=
  if pec.slaveCnt ≤ slave then .ret (.slaveNotFound, data)
  else do
    let _ ← ecTransceive pec (ecFpwr pec slave regMiiPhyAdr) 0 (phyAdrReg phyAdr phyReg)
    let g ← ecTransceive pec (ecFpwr pec slave regMiiPhyData) 0 data
    let ret ← execute pec slave 0x0201#16 100000000
    .ret (ret, g.val)

/-! ## A complete access -/

/-- The datagram has been handed to the bus, whether it comes back or not. -/
def Sent (r : Reply) : Prop := r ≠ .outOfIndices ∧ r ≠ .outOfDatagrams

structure Issues (command : BitVec 16) (f : Frame) : Prop where
  cmd : f.req.cmd = .fpwr
  ado : f.req.ado = regMiiCtrlstat
  bits : f.req.data.setWidth 16 &&& 0x0300#16 = command &&& 0x0300#16
  sent : Sent f.reply

def ComesBack (r : Reply) : Prop := ∃ wkc data, r = .answer wkc data

def Answered (r : Reply) : Prop := ∃ wkc data, r = .answer wkc data ∧ wkc ≠ 0

/-- The slave says that it is not busy. -/
def SaysIdle (r : Reply) : Prop :=
  ∃ wkc data, r = .answer wkc data ∧ wkc ≠ 0 ∧ ¬ Busy (data.setWidth 16)

structure IsIdle (f : Frame) : Prop where
  cmd : f.req.cmd = .fprd
  ado : f.req.ado = regMiiCtrlstat
  idle : SaysIdle f.reply

structure IsData (f : Frame) : Prop where
  cmd : f.req.cmd = .fprd
  ado : f.req.ado = regMiiPhyData
  answered : Answered f.reply

/-- `EC_OK` only with a status behind the command that is not busy, and an answered read of the data
behind that. -/
def ReadCompletes (pec : Eeprom.Ec σ) (slave : ℕ) (phyAdr : BitVec 8) (phyReg data : BitVec 16)
    (w : World σ) : Prop :=
  (ecMiiread pec slave phyAdr phyReg data : Prog (World σ) Empty _).Post w
    (Prog.Logs World.frames w fun r l _ => ∀ v, r = .ok (.ok, v) →
      ∃ c s d : Frame, [c, s, d].Sublist l ∧ Issues 0x0100#16 c ∧ IsIdle s ∧ IsData d)

/-- `EC_OK` only with a status behind the command that is not busy. -/
def WriteCompletes (pec : Eeprom.Ec σ) (slave : ℕ) (phyAdr : BitVec 8) (phyReg data : BitVec 16)
    (w : World σ) : Prop :=
  (ecMiiwrite pec slave phyAdr phyReg data : Prog (World σ) Empty _).Post w
    (Prog.Logs World.frames w fun r l _ => ∀ v, r = .ok (.ok, v) →
      ∃ c s : Frame, [c, s].Sublist l ∧ Issues 0x0201#16 c ∧ IsIdle s)

/-! ## What the bus replies -/

/-- `ctrl_stat` and the bus after so many polls. -/
def polled (pec : Eeprom.Ec σ) (slave : ℕ) (start : BitVec 16 × σ) : ℕ → BitVec 16 × σ
  | 0 => start
  | m + 1 =>
    let x := polled pec slave start m
    let r := pec.send (ecFprd pec slave regMiiCtrlstat x.1) x.2
    ((r.1.got 0 x.1).val, r.2)

/-- The frame of a poll. -/
def pollFrame (pec : Eeprom.Ec σ) (slave : ℕ) (start : BitVec 16 × σ) (m : ℕ) : Frame :=
  let q := ecFprd pec slave regMiiCtrlstat (polled pec slave start m).1
  ⟨q, (pec.send q (polled pec slave start m).2).1⟩

/-- The result of a poll. -/
def pollRet (pec : Eeprom.Ec σ) (slave timer : ℕ) (start : BitVec 16 × σ) (m : ℕ) : Ret :=
  let ret := ((pollFrame pec slave start m).reply.got 0 (polled pec slave start m).1).ret
  let expired := decide (timer < pec.now (polled pec slave start (m + 1)).2)
  if ret = .ok ∧ expired then .timeout else ret

def GoesOn (pec : Eeprom.Ec σ) (slave timer : ℕ) (start : BitVec 16 × σ) (m : ℕ) : Prop :=
  Busy (polled pec slave start (m + 1)).1 ∧ pollRet pec slave timer start m = .ok

/-- The poll is the last one. -/
structure EndsWith (pec : Eeprom.Ec σ) (slave timer : ℕ) (start : BitVec 16 × σ) (m : ℕ) :
    Prop where
  before : ∀ k < m, GoesOn pec slave timer start k
  last : ¬ GoesOn pec slave timer start m

/-- The world after so many polls. -/
def worldAfter (pec : Eeprom.Ec σ) (slave : ℕ) (w : World σ) (ctrlStat : BitVec 16) (m : ℕ) :
    World σ :=
  { w with
    env := (polled pec slave (ctrlStat, w.env) m).2
    frames := w.frames ++ (List.range m).map (pollFrame pec slave (ctrlStat, w.env)) }

section
variable {pec : Eeprom.Ec σ} {slave timer m : ℕ} {ctrlStat : BitVec 16} {w : World σ}

theorem worldAfter_zero : worldAfter pec slave w ctrlStat 0 = w := by
  simp [worldAfter, polled]

theorem worldAfter_succ :
    (worldAfter pec slave w ctrlStat m).sent
        (ecFprd pec slave regMiiCtrlstat (polled pec slave (ctrlStat, w.env) m).1)
        (pec.send (ecFprd pec slave regMiiCtrlstat (polled pec slave (ctrlStat, w.env) m).1)
          (polled pec slave (ctrlStat, w.env) m).2) =
      worldAfter pec slave w ctrlStat (m + 1) := by
  simp [worldAfter, World.sent, List.range_succ, pollFrame, polled]

theorem pollOnce_total :
    (pollOnce pec slave timer (polled pec slave (ctrlStat, w.env) m).1 : Prog _ ε _).Total
      (worldAfter pec slave w ctrlStat m) fun r t =>
        t = worldAfter pec slave w ctrlStat (m + 1) ∧
          (GoesOn pec slave timer (ctrlStat, w.env) m ∧
              r = .ok (.inl (polled pec slave (ctrlStat, w.env) (m + 1)).1) ∨
            ¬ GoesOn pec slave timer (ctrlStat, w.env) m ∧
              r = .ok (.inr (pollRet pec slave timer (ctrlStat, w.env) m))) := by
  rw [pollOnce, Prog.bind_eq, Prog.total_bind, total_transceive]
  refine Prog.total_bind.2 (total_expired.2 ?_)
  exact Prog.total_ite
    (fun hgo => Prog.total_ret.2 ⟨worldAfter_succ, .inl ⟨hgo, rfl⟩⟩)
    fun hstop => Prog.total_ret.2 ⟨worldAfter_succ, .inr ⟨hstop, rfl⟩⟩

/-- **The polling loop** ends with the first poll after which it does not go on. -/
theorem post_poll {Q : Except ε Ret → World σ → Prop} :
    (poll pec slave timer ctrlStat).Post w Q ↔
      ∀ m, EndsWith pec slave timer (ctrlStat, w.env) m →
        Q (.ok (pollRet pec slave timer (ctrlStat, w.env) m))
          (worldAfter pec slave w ctrlStat (m + 1)) := by
  constructor
  · intro hpost m hends
    -- downwards from the last poll
    have hfrom : ∀ j k, k + j = m →
        (poll pec slave timer (polled pec slave (ctrlStat, w.env) k).1 : Prog _ ε _).Total
          (worldAfter pec slave w ctrlStat k) fun r t =>
            r = .ok (pollRet pec slave timer (ctrlStat, w.env) m) ∧
              t = worldAfter pec slave w ctrlStat (m + 1) := by
      intro j
      induction j with
      | zero =>
        rintro k rfl
        refine Prog.total_loop_iff.2 (pollOnce_total.imp fun r t h => ?_)
        obtain ⟨rfl, ⟨hgo, -⟩ | ⟨-, rfl⟩⟩ := h
        · exact absurd hgo hends.last
        · exact Prog.total_ret.2 ⟨rfl, rfl⟩
      | succ j ih =>
        intro k hk
        refine Prog.total_loop_iff.2 (pollOnce_total.imp fun r t h => ?_)
        obtain ⟨rfl, ⟨-, rfl⟩ | ⟨hstop, -⟩⟩ := h
        · exact ih (k + 1) (by omega)
        · exact absurd (hends.before k (by omega)) hstop
    obtain ⟨r, t, hrun, rfl, rfl⟩ := hfrom m 0 (Nat.zero_add m)
    rw [worldAfter_zero] at hrun
    exact hpost _ _ hrun
  · intro h
    refine Prog.post_loop (I := fun ctrlStat' t => ∃ m,
      ctrlStat' = (polled pec slave (ctrlStat, w.env) m).1 ∧
        t = worldAfter pec slave w ctrlStat m ∧
        ∀ k < m, GoesOn pec slave timer (ctrlStat, w.env) k) ?_
      ⟨0, rfl, worldAfter_zero.symm, nofun⟩
    rintro _ _ ⟨m, rfl, rfl, hbefore⟩
    refine pollOnce_total.post.imp fun r t hr => ?_
    obtain ⟨rfl, ⟨hgo, rfl⟩ | ⟨hstop, rfl⟩⟩ := hr
    · refine ⟨m + 1, rfl, rfl, fun k hk => ?_⟩
      rcases Nat.lt_succ_iff_lt_or_eq.1 hk with hk | rfl
      · exact hbefore k hk
      · exact hgo
    · exact h m ⟨hbefore, hstop⟩

end

/-! ## A call -/

/-- The reply to the read of `ctrl_stat` before the command. -/
def ctrlRead (pec : Eeprom.Ec σ) (slave : ℕ) (s : σ) : Reply × σ :=
  pec.send (ecFprd pec slave regMiiCtrlstat 0#16) s

def commandWord (pec : Eeprom.Ec σ) (slave : ℕ) (command : BitVec 16) (s : σ) : BitVec 16 :=
  withCommand command ((ctrlRead pec slave s).1.got 0 0#16).val

/-- The reply to the command. -/
def commanded (pec : Eeprom.Ec σ) (slave : ℕ) (command : BitVec 16) (s : σ) : Reply × σ :=
  pec.send (ecFpwr pec slave regMiiCtrlstat (commandWord pec slave command s))
    (ctrlRead pec slave s).2

/-- `ctrl_stat` and the bus before the first poll. -/
def start (pec : Eeprom.Ec σ) (slave : ℕ) (command : BitVec 16) (s : σ) : BitVec 16 × σ :=
  (((commanded pec slave command s).1.got 0 (commandWord pec slave command s)).val,
    (commanded pec slave command s).2)

def commandFrame (pec : Eeprom.Ec σ) (slave : ℕ) (command : BitVec 16) (s : σ) : Frame :=
  ⟨ecFpwr pec slave regMiiCtrlstat (commandWord pec slave command s),
    (commanded pec slave command s).1⟩

/-- The frames of `execute` if poll `m` is the last one. -/
def executeFrames (pec : Eeprom.Ec σ) (slave : ℕ) (command : BitVec 16) (s : σ) (m : ℕ) :
    List Frame :=
  ⟨ecFprd pec slave regMiiCtrlstat 0#16, (ctrlRead pec slave s).1⟩ ::
    commandFrame pec slave command s ::
      (List.range (m + 1)).map (pollFrame pec slave (start pec slave command s))

/-- The time when the polling is over. -/
def deadline (pec : Eeprom.Ec σ) (slave : ℕ) (command : BitVec 16) (timeout : ℕ) (s : σ) : ℕ :=
  pec.now (commanded pec slave command s).2 + timeout

section
variable {pec : Eeprom.Ec σ} {slave timeout m : ℕ} {command : BitVec 16} {w : World σ}

theorem post_execute {Q : Except ε Ret → World σ → Prop} :
    (execute pec slave command timeout).Post w Q ↔
      ∀ m, EndsWith pec slave (deadline pec slave command timeout w.env)
          (start pec slave command w.env) m →
        Q (.ok (pollRet pec slave (deadline pec slave command timeout w.env)
            (start pec slave command w.env) m))
          { w with
            env := (polled pec slave (start pec slave command w.env) (m + 1)).2
            frames := w.frames ++ executeFrames pec slave command w.env m } := by
  rw [execute, Prog.bind_eq, Prog.post_bind, post_transceive]
  refine Prog.post_bind.trans (post_transceive.trans ?_)
  refine Prog.post_bind.trans (post_timerInit.trans ?_)
  refine post_poll.trans ?_
  have hworld : ∀ m, worldAfter pec slave ((w.sent (ecFprd pec slave regMiiCtrlstat 0#16)
      (ctrlRead pec slave w.env)).sent (ecFpwr pec slave regMiiCtrlstat
        (commandWord pec slave command w.env)) (commanded pec slave command w.env))
      (start pec slave command w.env).1 (m + 1) =
      { w with
        env := (polled pec slave (start pec slave command w.env) (m + 1)).2
        frames := w.frames ++ executeFrames pec slave command w.env m } := by
    intro m
    simp [worldAfter, World.sent, executeFrames, commandFrame, start]
  refine forall₂_congr fun m _ => ?_
  rw [← hworld]
  exact Iff.rfl

/-! ## The frames of a complete access -/

variable {P : Frame → Prop} {front tail : List Frame} {c f : Frame} {rest : List Frame}

theorem cons_sublist_iff (hfront : ∀ f ∈ front, ¬ P f) (htail : ∀ f ∈ tail, ¬ P f) (hc : P c) :
    (c :: rest).Sublist (front ++ f :: tail) ↔ c = f ∧ rest.Sublist tail := by
  induction front with
  | nil =>
    rw [List.nil_append, List.cons_sublist_cons']
    exact or_iff_right fun h => htail c (h.subset List.mem_cons_self) hc
  | cons x front ih =>
    rw [List.cons_append, List.cons_sublist_cons']
    have hx : c ≠ x := fun h => hfront x List.mem_cons_self (h ▸ hc)
    rw [ih fun f hf => hfront f (List.mem_cons_of_mem _ hf)]
    exact or_iff_left fun h => hx h.1

theorem not_issues_fprd (h : f.req.cmd = .fprd) : ¬ Issues command f := fun hf => by
  have hcmd := hf.cmd
  rw [h] at hcmd
  cases hcmd

theorem not_issues_ado (h : f.req.ado ≠ regMiiCtrlstat) : ¬ Issues command f := fun hf => h hf.ado

theorem withCommand_bits (command v : BitVec 16) :
    withCommand command v &&& 0x0300#16 = command &&& 0x0300#16 := by
  rw [withCommand, BitVec.and_or_distrib_right, BitVec.and_assoc, BitVec.not_and_self,
    show (0 : BitVec 16) = 0#16 from rfl, BitVec.and_zero, BitVec.zero_or]

theorem issues_commandFrame {s : σ} : Issues command (commandFrame pec slave command s) ↔
    Sent (commanded pec slave command s).1 := by
  refine ⟨fun h => h.sent, fun h => ⟨rfl, rfl, ?_, h⟩⟩
  have hword : (commandFrame pec slave command s).req.data.setWidth 16 =
      commandWord pec slave command s := BitVec.setWidth_setWidth_of_le _ (by decide)
  rw [hword]
  exact withCommand_bits _ _

theorem saysIdle_val {r : Reply} {v : BitVec 16} (h : SaysIdle r) : ¬ Busy (r.got 0 v).val := by
  obtain ⟨wkc, data, rfl, hwkc, hidle⟩ := h
  rwa [Reply.got, if_neg hwkc]

/-- Of the polls, only the last one may say so. -/
theorem exists_isIdle_iff {x : BitVec 16 × σ} {timer : ℕ}
    (h : ∀ k < m, GoesOn pec slave timer x k) :
    (∃ f ∈ (List.range (m + 1)).map (pollFrame pec slave x), IsIdle f) ↔
      SaysIdle (pollFrame pec slave x m).reply := by
  constructor
  · rintro ⟨f, hf, hidle⟩
    obtain ⟨k, hk, rfl⟩ := List.mem_map.1 hf
    rcases Nat.lt_succ_iff_lt_or_eq.1 (List.mem_range.1 hk) with hk | rfl
    · exact absurd (h k hk).1 (saysIdle_val hidle.idle)
    · exact hidle.idle
  · exact fun hidle => ⟨_, List.mem_map_of_mem (List.mem_range.2 (Nat.lt_succ_self m)),
      rfl, rfl, hidle⟩

theorem not_issues_polls {x : BitVec 16 × σ} :
    ∀ f ∈ (List.range m).map (pollFrame pec slave x), ¬ Issues command f := by
  intro f hf
  obtain ⟨k, -, rfl⟩ := List.mem_map.1 hf
  exact not_issues_fprd rfl

/-- The frames before the command. -/
theorem not_issues_front {s : σ} {front : List Frame} (hfront : ∀ f ∈ front, ¬ Issues command f) :
    ∀ f ∈ front ++ [⟨ecFprd pec slave regMiiCtrlstat 0#16, (ctrlRead pec slave s).1⟩],
      ¬ Issues command f :=
  List.forall_mem_append.2 ⟨hfront, List.forall_mem_singleton.2 (not_issues_fprd rfl)⟩

theorem executeFrames_eq (front tail : List Frame) (s : σ) :
    front ++ executeFrames pec slave command s m ++ tail =
      (front ++ [⟨ecFprd pec slave regMiiCtrlstat 0#16, (ctrlRead pec slave s).1⟩]) ++
        commandFrame pec slave command s ::
          ((List.range (m + 1)).map (pollFrame pec slave (start pec slave command s)) ++ tail) := by
  simp [executeFrames]

/-- The frames of a write, in terms of what the bus replies. -/
theorem write_frames_iff {s : σ} {timer : ℕ} {front : List Frame}
    (h : ∀ k < m, GoesOn pec slave timer (start pec slave command s) k)
    (hfront : ∀ f ∈ front, ¬ Issues command f) :
    (∃ c i : Frame, [c, i].Sublist (front ++ executeFrames pec slave command s m) ∧
        Issues command c ∧ IsIdle i) ↔
      Sent (commanded pec slave command s).1 ∧
        SaysIdle (pollFrame pec slave (start pec slave command s) m).reply := by
  rw [← List.append_nil (_ ++ executeFrames ..), executeFrames_eq, List.append_nil]
  constructor
  · rintro ⟨c, i, hsub, hc, hi⟩
    obtain ⟨rfl, hrest⟩ := (cons_sublist_iff (not_issues_front hfront) not_issues_polls hc).1 hsub
    exact ⟨issues_commandFrame.1 hc,
      (exists_isIdle_iff h).1 ⟨i, List.singleton_sublist.1 hrest, hi⟩⟩
  · rintro ⟨hsent, hidle⟩
    obtain ⟨i, hmem, hi⟩ := (exists_isIdle_iff h).2 hidle
    have hc := issues_commandFrame.2 hsent
    exact ⟨_, i, (cons_sublist_iff (not_issues_front hfront) not_issues_polls hc).2
      ⟨rfl, List.singleton_sublist.2 hmem⟩, hc, hi⟩

/-- A status and the data behind it, which are the last frame. -/
theorem sublist_data_iff {ps : List Frame} {i d x : Frame} (hi : IsIdle i) (hd : IsData d)
    (hps : ∀ f ∈ ps, f.req.ado = regMiiCtrlstat) (hx : x.req.ado = regMiiPhyData) :
    [i, d].Sublist (ps ++ [x]) ↔ i ∈ ps ∧ d = x := by
  constructor
  · intro hsub
    have hmem : ∀ {f}, f ∈ [i, d] → f ∈ ps ∨ f = x := fun hf =>
      (List.mem_append.1 (hsub.subset hf)).imp_right List.mem_singleton.1
    refine ⟨(hmem List.mem_cons_self).resolve_right ?_,
      (hmem (List.mem_cons_of_mem _ List.mem_cons_self)).resolve_left fun hdps => ?_⟩
    · rintro rfl
      exact absurd (hi.ado.symm.trans hx) (by decide)
    · exact absurd ((hps d hdps).symm.trans hd.ado) (by decide)
  · rintro ⟨hmem, rfl⟩
    exact (List.singleton_sublist.2 hmem).append (.refl [d])

/-- The frames of a read. -/
theorem read_frames_iff {s : σ} {timer : ℕ} {front : List Frame} {x : Frame}
    (h : ∀ k < m, GoesOn pec slave timer (start pec slave command s) k)
    (hfront : ∀ f ∈ front, ¬ Issues command f) (hcmd : x.req.cmd = .fprd)
    (hado : x.req.ado = regMiiPhyData) :
    (∃ c i d : Frame, [c, i, d].Sublist (front ++ executeFrames pec slave command s m ++ [x]) ∧
        Issues command c ∧ IsIdle i ∧ IsData d) ↔
      Sent (commanded pec slave command s).1 ∧
        SaysIdle (pollFrame pec slave (start pec slave command s) m).reply ∧ Answered x.reply := by
  rw [executeFrames_eq]
  have htail : ∀ f ∈ (List.range (m + 1)).map (pollFrame pec slave (start pec slave command s)) ++
      [x], ¬ Issues command f :=
    List.forall_mem_append.2 ⟨not_issues_polls, List.forall_mem_singleton.2 (not_issues_fprd hcmd)⟩
  have hpolls : ∀ f ∈ (List.range (m + 1)).map (pollFrame pec slave (start pec slave command s)),
      f.req.ado = regMiiCtrlstat := fun f hf => by
    obtain ⟨k, -, rfl⟩ := List.mem_map.1 hf
    rfl
  constructor
  · rintro ⟨c, i, d, hsub, hc, hi, hd⟩
    obtain ⟨rfl, hrest⟩ := (cons_sublist_iff (not_issues_front hfront) htail hc).1 hsub
    obtain ⟨hmem, rfl⟩ := (sublist_data_iff hi hd hpolls hado).1 hrest
    exact ⟨issues_commandFrame.1 hc, (exists_isIdle_iff h).1 ⟨i, hmem, hi⟩, hd.answered⟩
  · rintro ⟨hsent, hidle, hdata⟩
    obtain ⟨i, hmem, hi⟩ := (exists_isIdle_iff h).2 hidle
    have hc := issues_commandFrame.2 hsent
    have hd : IsData x := ⟨hcmd, hado, hdata⟩
    exact ⟨_, i, x, (cons_sublist_iff (not_issues_front hfront) htail hc).2
      ⟨rfl, (sublist_data_iff hi hd hpolls hado).2 ⟨hmem, rfl⟩⟩, hc, hi, hd⟩

end

/-! ## When it is complete -/

def addressFrame (pec : Eeprom.Ec σ) (slave : ℕ) (phyAdr : BitVec 8) (phyReg : BitVec 16) (s : σ) :
    Frame :=
  let q := ecFpwr pec slave regMiiPhyAdr (phyAdrReg phyAdr phyReg)
  ⟨q, (pec.send q s).1⟩

/-- The bus before the command of a read. -/
def readStart (pec : Eeprom.Ec σ) (slave : ℕ) (phyAdr : BitVec 8) (phyReg : BitVec 16) (s : σ) :
    σ :=
  (pec.send (ecFpwr pec slave regMiiPhyAdr (phyAdrReg phyAdr phyReg)) s).2

/-- The bus before the command of a write. -/
def writeStart (pec : Eeprom.Ec σ) (slave : ℕ) (phyAdr : BitVec 8) (phyReg data : BitVec 16)
    (s : σ) : σ :=
  (pec.send (ecFpwr pec slave regMiiPhyData data) (readStart pec slave phyAdr phyReg s)).2

def wordFrame (pec : Eeprom.Ec σ) (slave : ℕ) (data : BitVec 16) (s : σ) : Frame :=
  let q := ecFpwr pec slave regMiiPhyData data
  ⟨q, (pec.send q s).1⟩

/-- The last frame of a read, behind poll `m`. -/
def dataFrame (pec : Eeprom.Ec σ) (slave : ℕ) (data : BitVec 16) (start : BitVec 16 × σ) (m : ℕ) :
    Frame :=
  let q := ecFprd pec slave regMiiPhyData data
  ⟨q, (pec.send q (polled pec slave start (m + 1)).2).1⟩

/-- If the read of the data comes back, it has been answered, and so has been the last poll, without
the busy bit; and the command has been sent. -/
def ReadUndisturbed (pec : Eeprom.Ec σ) (slave : ℕ) (phyAdr : BitVec 8) (phyReg data : BitVec 16)
    (s : σ) : Prop :=
  let s := readStart pec slave phyAdr phyReg s
  let x := start pec slave 0x0100#16 s
  ∀ m, EndsWith pec slave (deadline pec slave 0x0100#16 10000000000 s) x m →
    ComesBack (dataFrame pec slave data x m).reply →
      Sent (commanded pec slave 0x0100#16 s).1 ∧ SaysIdle (pollFrame pec slave x m).reply ∧
        Answered (dataFrame pec slave data x m).reply

/-- A command that has not been sent is not followed by a successful poll, and neither is a status
without the busy bit by a first poll that comes back without an answer. -/
def WriteUndisturbed (pec : Eeprom.Ec σ) (slave : ℕ) (phyAdr : BitVec 8) (phyReg data : BitVec 16)
    (s : σ) : Prop :=
  let s := writeStart pec slave phyAdr phyReg data s
  let x := start pec slave 0x0201#16 s
  let timer := deadline pec slave 0x0201#16 100000000 s
  (¬ Sent (commanded pec slave 0x0201#16 s).1 →
      ∀ m, EndsWith pec slave timer x m → pollRet pec slave timer x m ≠ .ok) ∧
    (¬ Answered (pollFrame pec slave x 0).reply → pollRet pec slave timer x 0 = .ok → Busy x.1)

section
variable {pec : Eeprom.Ec σ} {slave m timer : ℕ} {phyAdr : BitVec 8} {phyReg data : BitVec 16}
  {w : World σ} {x : BitVec 16 × σ}

theorem ok_iff_comesBack {r : Reply} {v : BitVec 16} {X : Prop} :
    (∀ v', (.ok ((r.got 0 v).ret, (r.got 0 v).val) : Except ε _) = .ok (.ok, v') → X) ↔
      (ComesBack r → X) := by
  constructor
  · rintro h ⟨wkc, d, rfl⟩
    exact h _ rfl
  · intro h v' heq
    obtain ⟨d, hd⟩ := Reply.eq_answer (congrArg Prod.fst (Except.ok.inj heq))
    exact h ⟨_, d, hd⟩

theorem readCompletes_iff : ReadCompletes pec slave phyAdr phyReg data w ↔
    pec.slaveCnt ≤ slave ∨ ReadUndisturbed pec slave phyAdr phyReg data w.env := by
  by_cases hslave : pec.slaveCnt ≤ slave
  · refine iff_of_true ?_ (.inl hslave)
    rw [ReadCompletes, ecMiiread, if_pos hslave]
    exact Prog.post_ret.2 ⟨[], (List.append_nil _).symm, nofun⟩
  · rw [or_iff_right hslave, ReadCompletes, ecMiiread, if_neg hslave]
    refine Prog.post_bind.trans (post_transceive.trans ?_)
    refine Prog.post_bind.trans (post_execute.trans ?_)
    refine forall₂_congr fun m hends => ?_
    refine Prog.post_bind.trans (post_transceive.trans (Prog.post_ret.trans ?_))
    have hfront : ∀ f ∈ [addressFrame pec slave phyAdr phyReg w.env], ¬ Issues 0x0100#16 f :=
      List.forall_mem_singleton.2 (not_issues_ado (show regMiiPhyAdr ≠ regMiiCtrlstat by decide))
    refine (Prog.logs_iff (l := [addressFrame pec slave phyAdr phyReg w.env] ++
      executeFrames pec slave 0x0100#16 (readStart pec slave phyAdr phyReg w.env) m ++
      [dataFrame pec slave data (start pec slave 0x0100#16
        (readStart pec slave phyAdr phyReg w.env)) m]) ?_).trans ?_
    · simp [World.sent, addressFrame, dataFrame, readStart]
    · exact (forall₂_congr fun _ _ => read_frames_iff hends.before hfront rfl rfl).trans
        ok_iff_comesBack

/-- A poll that is not answered leaves `ctrl_stat`. -/
theorem polled_unanswered (h : ¬ Answered (pollFrame pec slave x m).reply) :
    (polled pec slave x (m + 1)).1 = (polled pec slave x m).1 := by
  refine Reply.got_val ?_
  show ((pollFrame pec slave x m).reply.got 0 (polled pec slave x m).1).wkc = 0
  cases hr : (pollFrame pec slave x m).reply with
  | answer wkc data =>
    by_contra hwkc
    exact h ⟨wkc, data, hr, hwkc⟩
  | outOfIndices => rfl
  | outOfDatagrams => rfl
  | timeout => rfl

theorem EndsWith.not_busy (h : EndsWith pec slave timer x m)
    (hok : pollRet pec slave timer x m = .ok) : ¬ Busy (polled pec slave x (m + 1)).1 :=
  fun hbusy => h.last ⟨hbusy, hok⟩

theorem EndsWith.saysIdle_iff (h : EndsWith pec slave timer x m)
    (hok : pollRet pec slave timer x m = .ok) :
    SaysIdle (pollFrame pec slave x m).reply ↔ Answered (pollFrame pec slave x m).reply := by
  constructor
  · rintro ⟨wkc, data, hr, hwkc, -⟩
    exact ⟨wkc, data, hr, hwkc⟩
  · rintro ⟨wkc, data, hr, hwkc⟩
    have hval : (polled pec slave x (m + 1)).1 = data.setWidth 16 := by
      show ((pollFrame pec slave x m).reply.got 0 (polled pec slave x m).1).val = _
      rw [hr, Reply.got, if_neg hwkc]
    exact ⟨wkc, data, hr, hwkc, hval ▸ h.not_busy hok⟩

/-- A successful poll that ends the loop has been answered, unless it is the first one: before any
other the status was busy. -/
theorem forall_pollRet_iff {S : Prop} :
    ((¬ S → ∀ m, EndsWith pec slave timer x m → pollRet pec slave timer x m ≠ .ok) ∧
      (¬ Answered (pollFrame pec slave x 0).reply → pollRet pec slave timer x 0 = .ok →
        Busy x.1)) ↔
      ∀ m, EndsWith pec slave timer x m → pollRet pec slave timer x m = .ok →
        S ∧ SaysIdle (pollFrame pec slave x m).reply := by
  constructor
  · rintro ⟨hsent, hfirst⟩ m h hok
    refine ⟨by_contra fun hS => hsent hS m h hok, (h.saysIdle_iff hok).2 (by_contra fun hun => ?_)⟩
    have hidle := h.not_busy hok
    rw [polled_unanswered hun] at hidle
    cases m with
    | zero => exact hidle (hfirst hun hok)
    | succ m => exact hidle (h.before m (Nat.lt_succ_self m)).1
  · intro h
    refine ⟨fun hS m hends hok => hS (h m hends hok).1, fun hun hok => by_contra fun hidle => ?_⟩
    have hends : EndsWith pec slave timer x 0 :=
      ⟨nofun, fun hgo => hidle ((polled_unanswered hun) ▸ hgo.1)⟩
    exact hun ((hends.saysIdle_iff hok).1 (h 0 hends hok).2)

theorem writeCompletes_iff : WriteCompletes pec slave phyAdr phyReg data w ↔
    pec.slaveCnt ≤ slave ∨ WriteUndisturbed pec slave phyAdr phyReg data w.env := by
  by_cases hslave : pec.slaveCnt ≤ slave
  · refine iff_of_true ?_ (.inl hslave)
    rw [WriteCompletes, ecMiiwrite, if_pos hslave]
    exact Prog.post_ret.2 ⟨[], (List.append_nil _).symm, nofun⟩
  · rw [or_iff_right hslave, WriteCompletes, ecMiiwrite, if_neg hslave]
    refine Prog.post_bind.trans (post_transceive.trans ?_)
    refine Prog.post_bind.trans (post_transceive.trans ?_)
    refine Prog.post_bind.trans (post_execute.trans ?_)
    refine Iff.trans ?_ forall_pollRet_iff.symm
    refine forall₂_congr fun m hends => Prog.post_ret.trans ?_
    have hfront : ∀ f ∈ [addressFrame pec slave phyAdr phyReg w.env,
        wordFrame pec slave data (readStart pec slave phyAdr phyReg w.env)],
        ¬ Issues 0x0201#16 f := List.forall_mem_cons.2
      ⟨not_issues_ado (show regMiiPhyAdr ≠ regMiiCtrlstat by decide), List.forall_mem_singleton.2
        (not_issues_ado (show regMiiPhyData ≠ regMiiCtrlstat by decide))⟩
    refine (Prog.logs_iff (l := [addressFrame pec slave phyAdr phyReg w.env,
        wordFrame pec slave data (readStart pec slave phyAdr phyReg w.env)] ++
      executeFrames pec slave 0x0201#16 (writeStart pec slave phyAdr phyReg data w.env) m) ?_).trans
      ?_
    · simp [World.sent, addressFrame, wordFrame, readStart, writeStart]
    · have hiff := write_frames_iff hends.before hfront
      constructor
      · exact fun h hok => hiff.1 (h _ (congrArg (fun ret => Except.ok (ret, _)) hok))
      · exact fun h v heq => hiff.2 (h (congrArg Prod.fst (Except.ok.inj heq)))

end

/-- **When an access is complete** whose result is `EC_OK`. -/
theorem completes_iff (pec : Eeprom.Ec σ) (slave : ℕ) (phyAdr : BitVec 8) (phyReg data : BitVec 16)
    (w : World σ) :
    (ReadCompletes pec slave phyAdr phyReg data w ↔
        pec.slaveCnt ≤ slave ∨ ReadUndisturbed pec slave phyAdr phyReg data w.env) ∧
      (WriteCompletes pec slave phyAdr phyReg data w ↔
        pec.slaveCnt ≤ slave ∨ WriteUndisturbed pec slave phyAdr phyReg data w.env) :=
  ⟨readCompletes_iff, writeCompletes_iff⟩

/-- A bus without a slave that answers. -/
def silent : Eeprom.Ec Unit where
  slaveCnt := 1
  fixedAddress := fun _ => 1
  send := fun _ _ => (.answer 0 0, ())
  sleep := fun _ _ => ()
  now := fun _ => 0

theorem silent_endsWith (command : BitVec 16) (timer : ℕ) (hidle : ¬ Busy command) :
    EndsWith silent 0 timer (start silent 0 command ()) 0 := by
  refine ⟨nofun, fun h => hidle ?_⟩
  have hbusy := h.1
  have hword : (polled silent 0 (start silent 0 command ()) 1).1 = command := by
    show 0#16 &&& ~~~0x0300#16 ||| command = command
    rw [BitVec.zero_and, BitVec.zero_or]
  rwa [hword] at hbusy

/-- `EC_OK`, although no slave has answered any of the datagrams. -/
theorem completes_silent :
    ¬ ReadCompletes silent 0 1 0 0 ⟨(), [], 0⟩ ∧ ¬ WriteCompletes silent 0 1 0 0 ⟨(), [], 0⟩ := by
  have hnone : ∀ v : BitVec 32, ¬ Answered (.answer 0 v) := by
    rintro v ⟨wkc, data, hr, hwkc⟩
    exact hwkc (Reply.answer.inj hr).1.symm
  constructor
  · intro h
    have hread := (readCompletes_iff.1 h).resolve_left (by decide)
    exact hnone 0 (hread 0 (silent_endsWith _ _ (by decide)) ⟨0, 0, rfl⟩).2.2
  · intro h
    have hwrite := (writeCompletes_iff.1 h).resolve_left (by decide)
    exact absurd (hwrite.2 (hnone 0) (by decide)) (by decide)

end LibEthercat.Mii
