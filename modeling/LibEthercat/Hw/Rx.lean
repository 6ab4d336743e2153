import Mathlib.Data.Nat.Find
import Mathlib.Logic.Function.Basic
import LibEthercat.Datagram

/-!
# Receiving a frame

`hw_process_rx_frame`: for each datagram of the frame the entry that was sent with its index is
taken out of `tx_send` and handed the datagram. The loop is the walk over the datagrams, with
what happens at each of them (`receive`).

* `hwProcessRxFrame_eq` — the loop ends on all bytes, and visits the datagrams of the frame.
* `mem_receive_iff` — which datagrams are handed to whom.
* `rx_safe_iff` — when none of them reaches behind the frame or behind the bytes received.
-/

namespace LibEthercat

/-! ## The loop -/

/-- A pool entry with a datagram in its buffer: `ptr` is its address, `userCb` says whether
`user_cb` is set. -/
structure PoolEntry where
  ptr : ℕ
  data : Mem
  userCb : Bool
  sendIdx : ℕ
  fits : ecDatagramLength data 0 ≤ lecMaxPoolDataSize

/-- The entries on the wire, by index. -/
abbrev TxSend := UInt8 → Option PoolEntry

/-- A call of the callback of `entry`, with a pointer to the datagram at `d`. -/
structure RxCall where
  entry : PoolEntry
  d : ℕ

structure RxResult where
  calls : List RxCall
  txSend : TxSend
  success : Bool

/-- The call for a datagram, if it is marked as sent and somebody waits for it. -/
def rxCall (entry : Option PoolEntry) (d : ℕ) : List RxCall :=
  match entry with
  | some e => if e.userCb then [⟨e, d⟩] else []
  | none => []

/-- The loop over the datagrams from `d` on. -/
def rxLoop (m : Mem) : ℕ → TxSend → ℕ → Option RxResult
  | 0, txSend, d => if d < ecFrameLen m then none else some ⟨[], txSend, false⟩
  | n + 1, txSend, d =>
    if d < ecFrameLen m then
      let entry := txSend (dgIdx m d)
      (rxLoop m n (Function.update txSend (dgIdx m d) none) (ecDatagramNext m d)).map fun r =>
        ⟨rxCall entry d ++ r.calls, r.txSend, entry.isSome || r.success⟩
    else some ⟨[], txSend, false⟩

/-- A callback does not touch `tx_send`. The fuel is that of `walkFrame`. -/
def hwProcessRxFrame (m : Mem) (txSend : TxSend) : Option RxResult :=
  if isEcatFrame m then rxLoop m 2048 txSend ecDatagramFirst else some ⟨[], txSend, false⟩

/-! ## The datagrams visited -/

/-- What happens at the datagrams at these offsets, one after the other. -/
def receive (m : Mem) : TxSend → List ℕ → RxResult
  | txSend, [] => ⟨[], txSend, false⟩
  | txSend, d :: ds =>
    let r := receive m (Function.update txSend (dgIdx m d) none) ds
    ⟨rxCall (txSend (dgIdx m d)) d ++ r.calls, r.txSend, (txSend (dgIdx m d)).isSome || r.success⟩

theorem rxLoop_eq (m : Mem) (n : ℕ) (txSend : TxSend) (d : ℕ) :
    rxLoop m n txSend d =
      (Records.walk (ecDatagramLength m) (ecFrameLen m) n d).map (receive m txSend) := by
  induction n generalizing txSend d with
  | zero =>
    by_cases hd : d < ecFrameLen m
    · simp [rxLoop, Records.walk, hd]
    · simp [rxLoop, Records.walk, hd, receive]
  | succ n ih =>
    by_cases hd : d < ecFrameLen m
    · rw [Records.walk_of_lt hd, rxLoop, if_pos hd]
      simp only [ih, ecDatagramNext, Option.map_map]
      rfl
    · simp [rxLoop, Records.walk, hd, receive]

/-- **The receive path terminates** on every sequence of bytes. -/
theorem hwProcessRxFrame_eq {m : Mem} (h : isEcatFrame m = true) (txSend : TxSend) :
    hwProcessRxFrame m txSend = some (receive m txSend (frameOffsets m)) := by
  unfold hwProcessRxFrame
  rw [if_pos h, rxLoop_eq]
  show (walkFrame m).map _ = _
  rw [walkFrame_eq]
  rfl

theorem mem_rxCall_iff (entry : Option PoolEntry) (d : ℕ) (c : RxCall) :
    c ∈ rxCall entry d ↔ c.d = d ∧ entry = some c.entry ∧ c.entry.userCb = true := by
  cases entry with
  | none => simp [rxCall]
  | some e =>
    by_cases hcb : e.userCb = true
    · rw [rxCall, if_pos hcb, List.mem_singleton]
      constructor
      · rintro rfl
        exact ⟨rfl, rfl, hcb⟩
      · rintro ⟨rfl, he, -⟩
        cases he
        rfl
    · rw [rxCall, if_neg hcb]
      refine iff_of_false List.not_mem_nil ?_
      rintro ⟨-, he, hcb'⟩
      cases he
      exact hcb hcb'

/-- A datagram is handed to the entry sent with its index, unless a datagram in front of it has
the same index. -/
theorem mem_receive_iff (m : Mem) (txSend : TxSend) (ds : List ℕ) (c : RxCall) :
    c ∈ (receive m txSend ds).calls ↔
      ∃ pre post, ds = pre ++ c.d :: post ∧ (∀ x ∈ pre, dgIdx m x ≠ dgIdx m c.d) ∧
        txSend (dgIdx m c.d) = some c.entry ∧ c.entry.userCb = true := by
  induction ds generalizing txSend with
  | nil => simp [receive]
  | cons d ds ih =>
    show c ∈ rxCall (txSend (dgIdx m d)) d ++ _ ↔ _
    rw [List.mem_append, mem_rxCall_iff, ih]
    constructor
    · rintro (⟨hd, hentry, hcb⟩ | ⟨pre, post, hds, hpre, hentry, hcb⟩)
      · exact ⟨[], ds, by rw [hd]; rfl, by simp, by rw [hd, hentry], hcb⟩
      · -- the index of the first datagram was taken out, so `c` has another one
        have hne : dgIdx m d ≠ dgIdx m c.d := by
          intro heq
          rw [← heq, Function.update_self] at hentry
          cases hentry
        rw [Function.update_of_ne hne.symm] at hentry
        exact ⟨d :: pre, post, by rw [hds]; rfl, List.forall_mem_cons.2 ⟨hne, hpre⟩, hentry, hcb⟩
    · intro ⟨pre, post, hds, hpre, hentry, hcb⟩
      cases pre with
      | nil =>
        obtain ⟨hd, -⟩ := List.cons.inj hds
        exact Or.inl ⟨hd.symm, by rw [hd, hentry], hcb⟩
      | cons x pre =>
        obtain ⟨rfl, hds'⟩ := List.cons.inj hds
        obtain ⟨hne, hpre'⟩ := List.forall_mem_cons.1 hpre
        refine Or.inr ⟨pre, post, hds', hpre', ?_, hcb⟩
        rw [Function.update_of_ne hne.symm, hentry]

/-! ## Bytes of the frame, bytes received -/

/-- The datagram at `d` is handed to a callback. -/
def Delivered (m : Mem) (txSend : TxSend) (d : ℕ) : Prop :=
  ∃ pre post, frameOffsets m = pre ++ d :: post ∧ (∀ x ∈ pre, dgIdx m x ≠ dgIdx m d) ∧
    ∃ e, txSend (dgIdx m d) = some e ∧ e.userCb = true

/-- The frame is processed, and a datagram handed to a callback ends inside the frame and
inside the `n` bytes received. -/
def RxSafe (m : Mem) (n : ℕ) (txSend : TxSend) : Prop :=
  ∃ r, hwProcessRxFrame m txSend = some r ∧
    ∀ c ∈ r.calls, ecDatagramNext m c.d ≤ ecFrameLen m ∧ ecDatagramNext m c.d ≤ n

theorem delivered_iff {m : Mem} {txSend : TxSend} {d : ℕ} :
    Delivered m txSend d ↔ ∃ c ∈ (receive m txSend (frameOffsets m)).calls, c.d = d := by
  constructor
  · intro ⟨pre, post, hsplit, hpre, e, he, hcb⟩
    exact ⟨⟨e, d⟩, (mem_receive_iff ..).2 ⟨pre, post, hsplit, hpre, he, hcb⟩, rfl⟩
  · rintro ⟨c, hc, rfl⟩
    obtain ⟨pre, post, hsplit, hpre, he, hcb⟩ := (mem_receive_iff ..).1 hc
    exact ⟨pre, post, hsplit, hpre, c.entry, he, hcb⟩

theorem Delivered.mem {m : Mem} {txSend : TxSend} {d : ℕ} (h : Delivered m txSend d) :
    d ∈ frameOffsets m := by
  obtain ⟨pre, post, hsplit, -⟩ := h
  rw [hsplit]
  simp

/-- The last datagram that is handed to a callback. -/
def LastDelivered (m : Mem) (txSend : TxSend) (d : ℕ) : Prop :=
  Delivered m txSend d ∧ ∀ d', Delivered m txSend d' → d' ≤ d

theorem Delivered.exists_last {m : Mem} {txSend : TxSend} {d : ℕ} (h : Delivered m txSend d) :
    ∃ d', LastDelivered m txSend d' := by
  classical
  have hle : ∀ d', Delivered m txSend d' → d' ≤ ecFrameLen m := fun d' h' =>
    Nat.le_of_lt (frameOffsets_lt m d' h'.mem)
  refine ⟨Nat.findGreatest (Delivered m txSend) (ecFrameLen m), ?_, fun d' h' => ?_⟩
  · exact Nat.findGreatest_spec (hle d h) h
  · exact Nat.le_findGreatest (hle d' h') h'

theorem rxSafe_iff_delivered {m : Mem} {n : ℕ} {txSend : TxSend} (h : isEcatFrame m = true) :
    RxSafe m n txSend ↔
      ∀ d, Delivered m txSend d → ecDatagramNext m d ≤ ecFrameLen m ∧ ecDatagramNext m d ≤ n := by
  unfold RxSafe
  simp only [hwProcessRxFrame_eq h, Option.some.injEq, exists_eq_left', delivered_iff]
  constructor
  · rintro hall d ⟨c, hc, rfl⟩
    exact hall c hc
  · exact fun hall c hc => hall c.d ⟨c, hc, rfl⟩

/-- **The receive path is safe** if and only if the last datagram it delivers has been received,
and ends where the frame does in case it is the last one of the frame. -/
theorem rx_safe_iff {m : Mem} {n : ℕ} {txSend : TxSend} (h : isEcatFrame m = true) :
    RxSafe m n txSend ↔ ∀ d, LastDelivered m txSend d → ecDatagramNext m d ≤ n ∧
      ((frameOffsets m).getLast? = some d → ecDatagramNext m d = ecFrameLen m) := by
  rw [rxSafe_iff_delivered h]
  constructor
  · intro hall d hd
    obtain ⟨hfin, hn⟩ := hall d hd.1
    refine ⟨hn, fun hlast => ?_⟩
    obtain ⟨pre, hpre⟩ := List.getLast?_eq_some_iff.1 hlast
    exact Nat.le_antisymm hfin ((frameOffsets_split hpre).2 rfl)
  · intro hlast d hd
    obtain ⟨z, hz, hmax⟩ := hd.exists_last
    obtain ⟨hn, hfin⟩ := hlast z ⟨hz, hmax⟩
    have hzfin : ecDatagramNext m z ≤ ecFrameLen m := by
      obtain ⟨pre, post, hsplit⟩ := List.append_of_mem hz.mem
      by_cases hpost : post = []
      · subst hpost
        exact Nat.le_of_eq (hfin (by rw [hsplit, List.getLast?_concat]))
      · exact Nat.le_of_lt ((frameOffsets_split hsplit).1 hpost)
    -- a datagram in front of the last one ends where a datagram of the frame starts
    rcases Nat.lt_or_eq_of_le (hmax d hd) with hlt | rfl
    · have hend := ecDatagramNext_le hd.mem hz.mem hlt
      have hstep : z ≤ ecDatagramNext m z := Nat.le_add_right z _
      exact ⟨by omega, by omega⟩
    · exact ⟨hzfin, hn⟩

/-- A frame of 28 bytes with one datagram at offset 16, whose `len` field is `l`. -/
def oneDatagramFrame (l : UInt8) : Mem := fun i =>
  if i = 12 then 0x88 else if i = 13 then 0xA4 else if i = 14 then 28 else if i = 22 then l else 0

/-- Every index is on the wire. -/
def someTxSend : TxSend := fun _ =>
  some ⟨0, oneDatagramFrame 0, true, 0, by decide⟩

theorem frameOffsets_oneDatagram : frameOffsets (oneDatagramFrame 0) = [16] := by decide

theorem rx_safe_oneDatagram : RxSafe (oneDatagramFrame 0) 28 someTxSend := by
  refine (rx_safe_iff (by decide)).2 fun d hd => ?_
  have hmem := hd.1.mem
  rw [frameOffsets_oneDatagram, List.mem_singleton] at hmem
  subst hmem
  exact ⟨by decide, fun _ => by decide⟩

/-- The loop only looks at where a datagram starts: this one claims 100 bytes of payload in a
frame of 28 bytes, all of which have been received. -/
theorem rx_unsafe_oneDatagram :
    isEcatFrame (oneDatagramFrame 100) = true ∧ ¬ RxSafe (oneDatagramFrame 100) 28 someTxSend := by
  refine ⟨by decide, fun ⟨r, hr, hall⟩ => ?_⟩
  have hcall := hall ⟨⟨0, oneDatagramFrame 0, true, 0, by decide⟩, 16⟩ (by
    have hr' := Option.some.inj ((hwProcessRxFrame_eq (by decide) _).symm.trans hr)
    rw [← hr']
    refine (mem_receive_iff ..).2 ⟨[], [], by decide, by simp, rfl, rfl⟩)
  exact absurd hcall.1 (by decide)

end LibEthercat
