import LibEthercat.Soe.Read

/-!
# The length that `ec_soe_read` returns

All messages are fragments of a response. Their data are copied one behind the other, as far as there
is room; `*len` is written only if it was 0, and by the first fragment. The answer goes up to the
fragment that has no others behind it. Which fragment is the last one for the function is what it
finds in its buffer, which it has given back.

**Theorem (`readsBounded_iff`).** Nothing is written outside the caller's buffer, what is written is
the beginning of the answer, and `EC_OK` comes with its length, just if the answer is complete and has
the length of the buffer when the function stops, no fragment is shorter than its header while there
is room, and there is no room for what is behind the answer. A buffer without length may have an
answer that is all in the first fragment.
-/

namespace LibEthercat.Soe

open LibEthercat.Coe (Message mbxLength mbxLength_lt)

namespace Read

/-! ## The answer -/

/-- The messages up to the first one that is the last, and whether there is one; `k` is the number of
the first of them. -/
def upToLast (more : ℕ → Message → Bool) : ℕ → List Message → List Message × Bool
  | _, [] => ([], false)
  | k, m :: queue =>
    if more k m then
      (m :: (upToLast more (k + 1) queue).1, (upToLast more (k + 1) queue).2)
    else ([m], true)

/-- The fragments of the answer. -/
def Env.fragments (env : Env) : List Message := (upToLast (fun _ m => incomplete m) 0 env.queue).1

def Env.complete (env : Env) : Bool := (upToLast (fun _ m => incomplete m) 0 env.queue).2

def Env.answer (env : Env) : List UInt8 := env.fragments.flatMap payload

/-- The fragments that the function handles: it looks for the flag when it has given the buffer
back. -/
def Env.handled (env : Env) : List Message :=
  (upToLast (fun k _ => incomplete (env.later k 0)) 0 env.queue).1

/-- It finds that one of them is the last one. -/
def Env.stops (env : Env) : Bool :=
  (upToLast (fun k _ => incomplete (env.later k 0)) 0 env.queue).2

/-! ## Property and condition -/

/-- Pieces that lie one behind the other. -/
def Contiguous : ℕ → List (ℕ × List UInt8) → Prop
  | _, [] => True
  | n, (o, bytes) :: ws => o = n ∧ Contiguous (n + bytes.length) ws

/-- Pieces of these fragments, one after the other. -/
def Pieces : List (ℕ × List UInt8) → List Message → Prop
  | [], _ => True
  | _ :: _, [] => False
  | w :: ws, m :: ms => w.2 <+: payload m ∧ Pieces ws ms

theorem pieces_cons {w : ℕ × List UInt8} {ws : List (ℕ × List UInt8)} {m : Message}
    {ms : List Message} : Pieces (w :: ws) (m :: ms) ↔ w.2 <+: payload m ∧ Pieces ws ms := Iff.rfl

/-- What is written into the buffer is the beginning of the answer, a piece for each fragment, and
`*len` is its length. -/
structure Bounded (env : Env) (a : Args) (r : State) : Prop where
  within : ∀ w ∈ r.writes, w.1 + w.2.length ≤ a.len.toNat
  contiguous : Contiguous 0 r.writes
  pieces : Pieces r.writes env.queue
  order : r.writes.flatMap Prod.snd <+: env.answer
  length : r.ret = .ok → env.complete = true ∧ r.len = env.answer.length

def ReadsBounded (env : Env) (a : Args) : Prop :=
  ∃ fuel r, ecSoeRead fuel env a = some r ∧ Bounded env a r

/-- While there is room, each fragment has a header. -/
def AllHeaded : ℕ → List Message → Prop
  | _, [] => True
  | room, m :: ms => 0 < room → Headed m ∧ AllHeaded (room - dataLen m) ms

/-- `left_len` at first: a length from 2^63 on is negative. -/
def Args.room (a : Args) : ℤ := ssize a.len.toNat

/-- When the function stops, the answer is complete and has the length of the buffer, if that has
one. Before, there is no room for more than the answer. Without a length, the answer has that of the
first fragment, which does not announce data that follow unless it has none itself. -/
def LengthOk (env : Env) (a : Args) : Prop :=
  if a.len ≠ 0 then
    AllHeaded a.room.toNat env.handled ∧
      min a.room.toNat (env.handled.flatMap payload).length ≤ env.answer.length ∧
      (env.stops = true → env.complete = true ∧ env.answer.length = a.len.toNat)
  else
    ∀ m ∈ env.queue.head?, (idnFragmentsLeft m = 0 ∨ mbxLength m ≤ soeHdrLen) ∧
      (env.stops = true → env.complete = true ∧ env.answer.length = announcedLen m)

/-- The fragments are the first of the messages. -/
theorem upToLast_isPrefix (more : ℕ → Message → Bool) (k : ℕ) (queue : List Message) :
    (upToLast more k queue).1 <+: queue := by
  induction queue generalizing k with
  | nil => exact List.prefix_rfl
  | cons m queue ih =>
    rw [upToLast]
    split_ifs
    · exact (List.prefix_cons_inj m).2 (ih (k + 1))
    · exact (List.prefix_cons_inj m).2 (List.nil_prefix)

theorem flatMap_prefix {l l' : List Message} (h : l <+: l') :
    l.flatMap payload <+: l'.flatMap payload := by
  obtain ⟨rest, rfl⟩ := h
  rw [List.flatMap_append]
  exact List.prefix_append _ _

/-! ## Copying -/

/-- What the fragments write. -/
def copies : ℕ → ℤ → List Message → List (ℕ × List UInt8)
  | _, _, [] => []
  | o, left, m :: ms =>
    if 0 < left then
      (o, dataBytes m (min (dataLen m) left.toNat)) ::
        copies (o + dataLen m) (left - ssize (dataLen m)) ms
    else []

/-- As a signed length it is that of the message without the header. -/
theorem ssize_dataLen (m : Message) :
    ssize (dataLen m) = (mbxLength m : ℤ) - soeHdrLen := by
  have hlt := mbxLength_lt m
  have hmod : (dataLen m : ℤ) = ((mbxLength m : ℤ) - soeHdrLen) % (2 ^ 64 : ℕ) := by
    unfold dataLen soeHdrLen
    omega
  rw [ssize_eq, hmod, Int.emod_bmod]
  unfold soeHdrLen
  exact Int.bmod_eq_of_le (by omega) (by omega)

theorem copies_of_nonpos {o : ℕ} {left : ℤ} (h : ¬ 0 < left) (ms : List Message) :
    copies o left ms = [] := by
  cases ms with
  | nil => rfl
  | cons m ms => exact if_neg h

theorem copies_of_headed {o : ℕ} {left : ℤ} {m : Message} (hleft : 0 < left) (h : Headed m)
    (ms : List Message) :
    copies o left (m :: ms) = (o, dataBytes m (min (dataLen m) left.toNat)) ::
      copies (o + dataLen m) (left - dataLen m) ms := by
  have hle : soeHdrLen ≤ mbxLength m := h
  rw [copies, if_pos hleft, ssize_dataLen, dataLen_of_headed h, Int.natCast_sub hle]

theorem room_after {left : ℤ} {m : Message} (hleft : 0 < left) :
    (left - dataLen m).toNat = left.toNat - dataLen m := by
  omega

theorem first_copy_le {o n : ℕ} {left : ℤ} {m : Message} {ms : List Message} (hleft : 0 < left)
    (h : ∀ w ∈ copies o left (m :: ms), w.1 + w.2.length ≤ n) :
    o + min (dataLen m) left.toNat ≤ n := by
  rw [copies, if_pos hleft] at h
  have hle := h _ List.mem_cons_self
  dsimp only at hle
  rw [dataBytes_length] at hle
  exact hle

/-- The fragments one by one, until there is no room. -/
theorem AllHeaded.induction {motive : ℕ → ℤ → List Message → Prop}
    (hfull : ∀ o left ms, ¬ 0 < left → motive o left ms) (hnil : ∀ o left, motive o left [])
    (hcons : ∀ o left m ms, 0 < left → Headed m →
      motive (o + dataLen m) (left - dataLen m) ms → motive o left (m :: ms))
    {left : ℤ} {ms : List Message} (h : AllHeaded left.toNat ms) (o : ℕ) : motive o left ms := by
  induction ms generalizing o left with
  | nil => exact hnil o left
  | cons m ms ih =>
    by_cases hleft : 0 < left
    · obtain ⟨hm, hms⟩ := h (by omega)
      rw [← room_after hleft] at hms
      exact hcons o left m ms hleft hm (ih hms _)
    · exact hfull o left _ hleft

theorem copies_flatMap {left : ℤ} {ms : List Message} (h : AllHeaded left.toNat ms) (o : ℕ) :
    (copies o left ms).flatMap Prod.snd = (ms.flatMap payload).take left.toNat := by
  refine AllHeaded.induction (motive := fun o left ms =>
    (copies o left ms).flatMap Prod.snd = (ms.flatMap payload).take left.toNat) ?_ ?_ ?_ h o
  · intro o left ms hleft
    rw [copies_of_nonpos hleft, Int.toNat_of_nonpos (by omega)]
    rfl
  · intro o left
    simp [copies]
  · intro o left m ms hleft hm ih
    rw [copies_of_headed hleft hm, List.flatMap_cons, List.flatMap_cons, ih, List.take_append,
      take_payload hm, payload_length hm, room_after hleft]

theorem copies_within {left : ℤ} {ms : List Message} (h : AllHeaded left.toNat ms) (o : ℕ) :
    ∀ w ∈ copies o left ms, w.1 + w.2.length ≤ o + left.toNat := by
  refine AllHeaded.induction (motive := fun o left ms =>
    ∀ w ∈ copies o left ms, w.1 + w.2.length ≤ o + left.toNat) ?_ ?_ ?_ h o
  · intro o left ms hleft
    simp [copies_of_nonpos hleft]
  · intro o left
    simp [copies]
  · intro o left m ms hleft hm ih
    rw [copies_of_headed hleft hm]
    intro w hw
    rcases List.mem_cons.1 hw with rfl | hw
    · rw [dataBytes_length]
      omega
    · have hle := ih w hw
      by_cases hroom : 0 < left - dataLen m
      · omega
      · rw [copies_of_nonpos hroom] at hw
        exact absurd hw List.not_mem_nil

theorem copies_contiguous {left : ℤ} {ms : List Message} (h : AllHeaded left.toNat ms) (o : ℕ) :
    Contiguous o (copies o left ms) := by
  refine AllHeaded.induction (motive := fun o left ms =>
    Contiguous o (copies o left ms)) ?_ ?_ ?_ h o
  · intro o left ms hleft
    rw [copies_of_nonpos hleft]
    trivial
  · intro o left
    trivial
  · intro o left m ms hleft hm ih
    rw [copies_of_headed hleft hm]
    refine ⟨rfl, ?_⟩
    by_cases hroom : 0 < left - dataLen m
    · have hmin : min (dataLen m) left.toNat = dataLen m := by omega
      rw [dataBytes_length, hmin]
      exact ih
    · rw [copies_of_nonpos hroom]
      trivial

theorem copies_pieces {left : ℤ} {ms : List Message} (h : AllHeaded left.toNat ms)
    (rest : List Message) (o : ℕ) : Pieces (copies o left ms) (ms ++ rest) := by
  refine AllHeaded.induction (motive := fun o left ms =>
    Pieces (copies o left ms) (ms ++ rest)) ?_ ?_ ?_ h o
  · intro o left ms hleft
    rw [copies_of_nonpos hleft]
    trivial
  · intro o left
    trivial
  · intro o left m ms hleft hm ih
    rw [copies_of_headed hleft hm, ← take_payload hm, List.cons_append, pieces_cons]
    exact ⟨List.take_prefix _ _, ih⟩

/-- A fragment without a header is copied with what is behind the message. -/
theorem allHeaded_of_copies {o : ℕ} {left : ℤ} {ms rest : List Message}
    (h : Pieces (copies o left ms) (ms ++ rest)) : AllHeaded left.toNat ms := by
  induction ms generalizing o left with
  | nil => trivial
  | cons m ms ih =>
    intro hroom
    have hleft : 0 < left := by omega
    have hm : Headed m := by
      by_contra hno
      have hpos := dataLen_pos_of_not_headed hno
      rw [copies, if_pos hleft, List.cons_append, pieces_cons] at h
      have hle := h.1.length_le
      dsimp only at hle
      rw [dataBytes_length, payload_of_not_headed hno, List.length_nil] at hle
      have hmin : 0 < min (dataLen m) left.toNat := Nat.lt_min.2 ⟨hpos, hroom⟩
      exact absurd hmin (Nat.not_lt_of_le hle)
    refine ⟨hm, ?_⟩
    rw [copies_of_headed hleft hm, List.cons_append, pieces_cons] at h
    rw [← room_after hleft]
    exact ih h.2

/-! ## The loop -/

section
variable {env : Env} {a : Args} {st r : State} {m : Message} {k : ℕ}

theorem firstFragment_of_not_first (h : st.first = false) (m : Message) :
    st.firstFragment m = st := if_pos h

theorem first_firstFragment (st : State) (m : Message) : (st.firstFragment m).first = false := by
  unfold State.firstFragment
  split_ifs with h
  · exact h
  · rfl
  · rfl
  · rfl

theorem firstFragment_event (st : State) (m : Message) (e : Event) :
    (st.event e).firstFragment m = (st.firstFragment m).event e := by
  unfold State.firstFragment
  by_cases hfirst : st.first = false
  · rw [if_pos hfirst]
    exact if_pos hfirst
  rw [if_neg hfirst]
  refine (if_neg hfirst).trans ?_
  by_cases hleft : st.leftLen ≠ 0
  · rw [if_pos hleft]
    exact if_pos hleft
  rw [if_neg hleft]
  refine (if_neg hleft).trans ?_
  by_cases hfrag : idnFragmentsLeft m = 0
  · rw [if_pos hfrag, if_pos hfrag]
    rfl
  · rw [if_neg hfrag, if_neg hfrag]
    simp only [State.event]

theorem copy_event (st : State) (m : Message) (e : Event) :
    (st.event e).copy m = (st.copy m).event e := by
  unfold State.copy
  by_cases hleft : 0 < st.leftLen
  · rw [if_pos hleft]
    refine (if_pos hleft).trans ?_
    simp only [State.event]
  · rw [if_neg hleft]
    exact if_neg hleft

/-- What `firstFragment` leaves alone. -/
theorem firstFragment_frame (st : State) (m : Message) :
    st.firstFragment m = { st with
      elements := (st.firstFragment m).elements
      first := false
      len := (st.firstFragment m).len
      leftLen := (st.firstFragment m).leftLen } := by
  unfold State.firstFragment
  split_ifs with hfirst
  · rw [← hfirst]
  · rfl
  · dsimp only
  · dsimp only

/-- What `copy` leaves alone. -/
theorem copy_frame (st : State) (m : Message) :
    st.copy m = { st with
      writes := (st.copy m).writes
      toPos := (st.copy m).toPos
      leftLen := (st.copy m).leftLen } := by
  unfold State.copy
  split_ifs <;> rfl

theorem copy_writes (st : State) (m : Message) (ms : List Message) :
    (st.copy m).writes ++ copies (st.copy m).toPos (st.copy m).leftLen ms =
      st.writes ++ copies st.toPos st.leftLen (m :: ms) := by
  unfold State.copy
  split_ifs with h
  · rw [copies, if_pos h, List.append_assoc]
    rfl
  · rw [copies_of_nonpos h, copies_of_nonpos h]

/-- The first fragment is handled as the others are, when it has been looked at. -/
theorem step_firstFragment (hheld : st.held = some ⟨k, m, 0⟩) (hop : opCode m = EC_SOE_READ_RES) :
    step env st = step env (st.firstFragment m) := by
  have hheld' : (st.firstFragment m).held = some ⟨k, m, 0⟩ := by
    rw [firstFragment_frame]
    exact hheld
  have hhandled : (st.firstFragment m).handled m k = st.handled m k := by
    rw [State.handled, State.handled, firstFragment_event, firstFragment_event,
      firstFragment_of_not_first (first_firstFragment st m)]
  rw [step_of_response hheld hop, step_of_response hheld' hop]
  show _ = if _ then Sum.inl ((st.firstFragment m).handled m k).wait
    else Sum.inr { (st.firstFragment m).handled m k with ret := .ok }
  rw [hhandled]
  rfl

theorem handled_of_not_first (h : st.first = false) (m : Message) (k : ℕ) :
    st.handled m k =
      { st.copy m with trace := st.trace ++ [.access k, .giveBack k, .access k] } := by
  rw [State.handled, firstFragment_event, firstFragment_of_not_first h, copy_event, copy_frame]
  simp only [State.event, List.append_assoc, List.cons_append, List.nil_append]

/-- What a fragment that is not the first one does: `copy`, and the next message. -/
theorem handled_fields (h : st.first = false) (m : Message) (k : ℕ) :
    (st.handled m k).queue = st.queue ∧ (st.handled m k).taken = st.taken ∧
      (st.handled m k).first = false ∧ (st.handled m k).len = st.len ∧
      (st.handled m k).ret = st.ret := by
  rw [handled_of_not_first h, copy_frame]
  exact ⟨rfl, rfl, h, rfl, rfl⟩

theorem copies_handled (h : st.first = false) (m : Message) (k : ℕ) (ms : List Message) :
    (st.handled m k).writes ++ copies (st.handled m k).toPos (st.handled m k).leftLen ms =
      st.writes ++ copies st.toPos st.leftLen (m :: ms) := by
  rw [handled_of_not_first h]
  exact copy_writes st m ms

theorem step_of_more (hheld : st.held = some ⟨k, m, 0⟩) (hop : opCode m = EC_SOE_READ_RES)
    (hmore : incomplete (env.later k 0) = true) :
    step env st = .inl (st.handled m k).wait :=
  (step_of_response hheld hop).trans (if_pos hmore)

theorem step_of_last (hheld : st.held = some ⟨k, m, 0⟩) (hop : opCode m = EC_SOE_READ_RES)
    (hlast : ¬ incomplete (env.later k 0) = true) :
    step env st = .inr { st.handled m k with ret := .ok } :=
  (step_of_response hheld hop).trans (if_neg hlast)

theorem wait_nil (h : st.queue = []) : st.wait = { st with held := none } := by
  unfold State.wait
  split
  · rfl
  · rename_i hcons
    cases h.symm.trans hcons

theorem wait_cons {queue : List Message} (h : st.queue = m :: queue) :
    st.wait = { st with
      held := some ⟨st.taken, m, 0⟩
      queue := queue
      taken := st.taken + 1
      trace := st.trace ++ [.take st.taken] } := by
  unfold State.wait
  split
  · rename_i hnil
    cases h.symm.trans hnil
  · rename_i hcons
    cases h.symm.trans hcons
    rfl

/-- From `st` the function ends when it has handled the fragments `ms`. -/
def Handles (env : Env) (st : State) (ms : List Message) (complete : Bool) : Prop :=
  ∃ r, While.Ends (step env) st r ∧ r.writes = st.writes ++ copies st.toPos st.leftLen ms ∧
    r.len = st.len ∧ r.ret = if complete then .ok else st.ret

theorem handles_last (hheld : st.held = some ⟨k, m, 0⟩) (hfirst : st.first = false)
    (hop : opCode m = EC_SOE_READ_RES) (hlast : ¬ incomplete (env.later k 0) = true) :
    Handles env st [m] true := by
  obtain ⟨-, -, -, hlen, -⟩ := handled_fields hfirst m k
  have hwrites := copies_handled hfirst m k []
  rw [copies, List.append_nil] at hwrites
  refine ⟨{ st.handled m k with ret := .ok }, ?_, hwrites, hlen, rfl⟩
  exact (While.ends_of_done (step_of_last hheld hop hlast)).2 rfl

/-- **The fragments**, from one that is held on. -/
theorem handles_upToLast (hheld : st.held = some ⟨k, m, 0⟩) (htaken : st.taken = k + 1)
    (hfirst : st.first = false) (hop : ∀ x ∈ m :: st.queue, opCode x = EC_SOE_READ_RES) :
    Handles env st (upToLast (fun k _ => incomplete (env.later k 0)) k (m :: st.queue)).1
      (upToLast (fun k _ => incomplete (env.later k 0)) k (m :: st.queue)).2 := by
  generalize hq : st.queue = queue at hop ⊢
  induction queue generalizing st k m with
  | nil =>
    have hm := hop m List.mem_cons_self
    obtain ⟨hqueue, -, -, hlen, hret⟩ := handled_fields hfirst m k
    by_cases hmore : incomplete (env.later k 0) = true
    · -- there is no other message
      have hwait := wait_nil (hqueue.trans hq)
      have hdone : step env (st.handled m k).wait = .inr (st.handled m k).wait := by
        rw [step, hwait]
      have hwrites := copies_handled hfirst m k []
      rw [copies, List.append_nil] at hwrites
      rw [upToLast, if_pos hmore]
      refine ⟨(st.handled m k).wait, ?_, ?_⟩
      · exact (While.ends_of_next (step_of_more hheld hm hmore)).2
          ((While.ends_of_done hdone).2 rfl)
      · rw [hwait]
        exact ⟨hwrites, hlen, hret⟩
    · rw [upToLast, if_neg hmore]
      exact handles_last hheld hfirst hm hmore
  | cons m' queue ih =>
    have hm := hop m List.mem_cons_self
    obtain ⟨hqueue, htaken', hfirst', hlen, hret⟩ := handled_fields hfirst m k
    by_cases hmore : incomplete (env.later k 0) = true
    · have hwait := wait_cons (hqueue.trans hq)
      rw [htaken', htaken] at hwait
      have hrest : Handles env (st.handled m k).wait _ _ :=
        ih (by rw [hwait]) (by rw [hwait]) (by rw [hwait]; exact hfirst') (by rw [hwait])
          fun x hx => hop x (List.mem_cons_of_mem m hx)
      obtain ⟨r, hends, hwrites, hlen', hret'⟩ := hrest
      rw [hwait] at hwrites hlen' hret'
      rw [upToLast, if_pos hmore]
      refine ⟨r, ?_, ?_, hlen'.trans hlen, ?_⟩
      · exact (While.ends_of_next (step_of_more hheld hm hmore)).2 hends
      · exact hwrites.trans (copies_handled hfirst m k _)
      · rw [hret', ← hret]
    · rw [upToLast, if_neg hmore]
      exact handles_last hheld hfirst hm hmore

end

/-! ## The first fragment -/

theorem idnFragmentsLeft_lt (m : Message) : idnFragmentsLeft m < 2 ^ 16 :=
  LibEthercat.Coe.u16_lt m 8

theorem announcedLen_of_last {m : Message} (h : idnFragmentsLeft m = 0) :
    announcedLen m = dataLen m := by
  rw [announcedLen, h, Nat.zero_add, Nat.one_mul]
  exact Nat.mod_eq_of_lt (Nat.mod_lt _ (by decide))

theorem ssize_announcedLen (m : Message) :
    ssize (announcedLen m) =
      ((idnFragmentsLeft m + 1 : ℕ) : ℤ) * ((mbxLength m : ℤ) - soeHdrLen) := by
  have hle : (idnFragmentsLeft m + 1) * mbxLength m ≤ 2 ^ 16 * 2 ^ 16 :=
    Nat.mul_le_mul (idnFragmentsLeft_lt m) (Nat.le_of_lt (mbxLength_lt m))
  have hfl := idnFragmentsLeft_lt m
  have hdata := ssize_dataLen m
  rw [ssize_eq] at hdata
  rw [ssize_eq, announcedLen, Int.natCast_emod, Int.emod_bmod, Int.natCast_mul, ← Int.mul_bmod_bmod,
    hdata, Int.mul_sub, ← Int.natCast_mul]
  unfold soeHdrLen
  exact Int.bmod_eq_of_le (by omega) (by omega)

/-- Fragments of some data make room that the caller does not have. -/
theorem ssize_announcedLen_pos {m : Message} :
    0 < ssize (announcedLen m) ↔ soeHdrLen < mbxLength m := by
  have hpos : (0 : ℤ) < ((idnFragmentsLeft m + 1 : ℕ) : ℤ) := by omega
  rw [ssize_announcedLen]
  constructor
  · intro h
    have hlt := Int.pos_of_mul_pos_right h hpos
    omega
  · intro h
    exact Int.mul_pos hpos (by omega)

/-- `left_len` when the first fragment has been looked at. -/
def Args.leftAfter (a : Args) (m : Message) : ℤ :=
  if a.len ≠ 0 then a.room
  else if idnFragmentsLeft m = 0 then 0
  else ssize (announcedLen m)

/-- `*len` then. -/
def Args.lenAfter (a : Args) (m : Message) : ℕ :=
  if a.len ≠ 0 then a.len.toNat else announcedLen m

theorem ssize_eq_zero {n : ℕ} (hn : n < 2 ^ 64) : ssize n = 0 ↔ n = 0 := by
  rw [ssize_eq]
  constructor
  · intro h
    exact Nat.eq_zero_of_dvd_of_lt (Int.natCast_dvd_natCast.1 (Int.dvd_of_bmod_eq_zero h)) hn
  · rintro rfl
    exact Int.zero_bmod

theorem room_eq_zero {a : Args} : a.room = 0 ↔ a.len = 0 := by
  rw [Args.room, ssize_eq_zero a.len.toNat_lt, ← UInt64.toNat_inj]
  rfl

section
variable {env : Env} {a : Args} {m : Message} {queue : List Message}

theorem begun_eq (hq : env.queue = m :: queue) :
    begun env a = { init env a with
      sent := [request env a]
      held := some ⟨0, m, 0⟩
      queue := queue
      taken := 1
      trace := [.take 0] } := wait_cons hq

theorem firstFragment_of_room {st : State} (hfirst : st.first = true) (hleft : st.leftLen ≠ 0)
    (m : Message) :
    (st.firstFragment m).leftLen = st.leftLen ∧ (st.firstFragment m).len = st.len := by
  rw [State.firstFragment, if_neg (by simp [hfirst]), if_pos hleft]
  exact ⟨rfl, rfl⟩

theorem firstFragment_of_no_room {st : State} (hfirst : st.first = true) (hleft : st.leftLen = 0)
    (m : Message) :
    (st.firstFragment m).leftLen =
        (if idnFragmentsLeft m = 0 then 0 else ssize (announcedLen m)) ∧
      (st.firstFragment m).len = announcedLen m := by
  rw [State.firstFragment, if_neg (by simp [hfirst]), if_neg (not_not_intro hleft)]
  by_cases hfrag : idnFragmentsLeft m = 0
  · rw [if_pos hfrag, if_pos hfrag]
    exact ⟨hleft, (announcedLen_of_last hfrag).symm⟩
  · rw [if_neg hfrag, if_neg hfrag]
    exact ⟨rfl, rfl⟩

theorem firstFragment_begun (hq : env.queue = m :: queue) :
    ((begun env a).firstFragment m).leftLen = a.leftAfter m ∧
      ((begun env a).firstFragment m).len = a.lenAfter m := by
  have hfirst : (begun env a).first = true := by rw [begun_eq hq]; rfl
  have hleft : (begun env a).leftLen = a.room := by rw [begun_eq hq]; rfl
  have hlen : (begun env a).len = a.len.toNat := by rw [begun_eq hq]; rfl
  rw [Args.leftAfter, Args.lenAfter]
  by_cases h : a.len = 0
  · rw [if_neg (not_not_intro h), if_neg (not_not_intro h)]
    exact firstFragment_of_no_room hfirst (hleft.trans (room_eq_zero.2 h)) m
  · rw [if_pos h, if_pos h, ← hleft, ← hlen]
    exact firstFragment_of_room hfirst (hleft ▸ fun hroom => h (room_eq_zero.1 hroom)) m

/-- **One run**: the first fragment, and the others behind it. -/
theorem reads_eq (a : Args) (hready : env.refusal = none) (hq : env.queue = m :: queue)
    (hop : ∀ x ∈ env.queue, opCode x = EC_SOE_READ_RES) :
    ∃ r, (∃ fuel, ecSoeRead fuel env a = some r) ∧
      r.writes = copies 0 (a.leftAfter m) env.handled ∧ r.len = a.lenAfter m ∧
      r.ret = if env.stops then .ok else .mailboxTimeout := by
  have hheld : (begun env a).held = some ⟨0, m, 0⟩ := by rw [begun_eq hq]
  have hm : opCode m = EC_SOE_READ_RES := hop m (hq ▸ List.mem_cons_self)
  have hstep : step env (begun env a) = step env ((begun env a).firstFragment m) :=
    step_firstFragment hheld hm
  obtain ⟨hleft, hlen⟩ := firstFragment_begun (a := a) hq
  have hframe := firstFragment_frame (begun env a) m
  have hqueue : ((begun env a).firstFragment m).queue = queue := by rw [hframe, begun_eq hq]
  have hrun : Handles env ((begun env a).firstFragment m)
      (upToLast (fun k _ => incomplete (env.later k 0)) 0 (m :: queue)).1
      (upToLast (fun k _ => incomplete (env.later k 0)) 0 (m :: queue)).2 := by
    rw [← hqueue]
    refine handles_upToLast (by rw [hframe, begun_eq hq]) (by rw [hframe, begun_eq hq])
      (by rw [hframe]) ?_
    rw [hqueue, ← hq]
    exact hop
  obtain ⟨r, hends, hwrites, hlen', hret⟩ := hrun
  refine ⟨r, ?_, ?_, hlen'.trans hlen, ?_⟩
  · obtain ⟨fuel, hfuel⟩ := (While.ends_congr hstep).2 hends
    exact ⟨fuel, by rw [ecSoeRead, hready]; exact hfuel⟩
  · rw [hwrites, hleft, Env.handled, hq, hframe, begun_eq hq]
    rfl
  · rw [hret, Env.stops, hq, hframe, begun_eq hq]
    rfl

end

/-! ## Within the buffer -/

section
variable {env : Env} {a : Args} {r : State} {ms : List Message}

theorem room_le (a : Args) : a.room.toNat ≤ a.len.toNat := by
  have hlt := a.len.toNat_lt
  rw [Args.room, ssize_eq, Int.bmod_def]
  omega

theorem length_iff {n : ℕ} (hlen : r.len = n)
    (hret : r.ret = if env.stops then .ok else .mailboxTimeout) :
    (r.ret = .ok → env.complete = true ∧ r.len = env.answer.length) ↔
      (env.stops = true → env.complete = true ∧ env.answer.length = n) := by
  rw [hret, hlen, eq_comm (a := n)]
  cases env.stops with
  | true => exact ⟨fun h _ => h rfl, fun h _ => h rfl⟩
  | false => exact ⟨fun _ h => (by cases h), fun _ h => (by cases h)⟩

/-- The first bytes of what is handled are those of the answer, as far as that goes. -/
theorem take_prefix_iff (env : Env) (n : ℕ) :
    (env.handled.flatMap payload).take n <+: env.answer ↔
      min n (env.handled.flatMap payload).length ≤ env.answer.length := by
  rw [← List.length_take]
  refine ⟨List.IsPrefix.length_le, fun hle => ?_⟩
  have hhandled : env.handled.flatMap payload <+: env.queue.flatMap payload :=
    flatMap_prefix (upToLast_isPrefix _ 0 _)
  have hanswer : env.answer <+: env.queue.flatMap payload := flatMap_prefix (upToLast_isPrefix _ 0 _)
  exact List.prefix_of_prefix_length_le ((List.take_prefix _ _).trans hhandled) hanswer hle

/-- A buffer that has a length. -/
theorem bounded_iff_of_len (hwrites : r.writes = copies 0 a.room env.handled)
    (hlen : r.len = a.len.toNat) (hret : r.ret = if env.stops then .ok else .mailboxTimeout) :
    Bounded env a r ↔ AllHeaded a.room.toNat env.handled ∧
      min a.room.toNat (env.handled.flatMap payload).length ≤ env.answer.length ∧
      (env.stops = true → env.complete = true ∧ env.answer.length = a.len.toNat) := by
  obtain ⟨rest, hrest⟩ : env.handled <+: env.queue := upToLast_isPrefix _ 0 _
  rw [← length_iff hlen hret, ← take_prefix_iff]
  constructor
  · rintro ⟨-, -, hpieces, horder, hok⟩
    rw [hwrites, ← hrest] at hpieces
    have hall := allHeaded_of_copies hpieces
    rw [hwrites, copies_flatMap hall] at horder
    exact ⟨hall, horder, hok⟩
  · rintro ⟨hall, horder, hok⟩
    refine ⟨?_, ?_, ?_, ?_, hok⟩
    · rw [hwrites]
      intro w hw
      have hle := copies_within hall 0 w hw
      have hroom := room_le a
      omega
    · rw [hwrites]
      exact copies_contiguous hall 0
    · rw [hwrites, ← hrest]
      exact copies_pieces hall rest 0
    · rw [hwrites, copies_flatMap hall]
      exact horder

/-- A buffer without length. -/
theorem bounded_iff_of_no_len {m : Message} (hms : env.handled = m :: ms) (hzero : a.len = 0)
    (hwrites : r.writes = copies 0 (a.leftAfter m) env.handled) (hlen : r.len = announcedLen m)
    (hret : r.ret = if env.stops then .ok else .mailboxTimeout) :
    Bounded env a r ↔ (idnFragmentsLeft m = 0 ∨ mbxLength m ≤ soeHdrLen) ∧
      (env.stops = true → env.complete = true ∧ env.answer.length = announcedLen m) := by
  have hleft : 0 < a.leftAfter m ↔ idnFragmentsLeft m ≠ 0 ∧ soeHdrLen < mbxLength m := by
    rw [Args.leftAfter, if_neg (not_not_intro hzero)]
    split_ifs with hfrag
    · simp [hfrag]
    · rw [ssize_announcedLen_pos]
      simp [hfrag]
  rw [← length_iff hlen hret]
  constructor
  · rintro ⟨hwithin, -, -, -, hok⟩
    refine ⟨?_, hok⟩
    by_contra hno
    obtain ⟨hfrag, hlt⟩ := not_or.1 hno
    have hpos := hleft.2 ⟨hfrag, Nat.lt_of_not_le hlt⟩
    -- the first fragment has data, and is copied
    rw [hwrites, hms] at hwithin
    have hle := first_copy_le hpos hwithin
    have hdata := dataLen_of_headed (Nat.le_of_not_le hlt)
    have hroom : a.len.toNat = 0 := congrArg UInt64.toNat hzero
    omega
  · rintro ⟨hno, hok⟩
    have hnonpos : ¬ 0 < a.leftAfter m := fun h => by
      obtain ⟨hfrag, hlt⟩ := hleft.1 h
      exact hno.elim hfrag (Nat.not_le_of_lt hlt)
    rw [copies_of_nonpos hnonpos] at hwrites
    exact ⟨by simp [hwrites], by rw [hwrites]; trivial, by rw [hwrites]; trivial,
      by simp [hwrites], hok⟩

theorem handled_cons {m : Message} {queue : List Message} (hq : env.queue = m :: queue) :
    ∃ ms, env.handled = m :: ms := by
  rw [Env.handled, hq, upToLast]
  split_ifs
  · exact ⟨_, rfl⟩
  · exact ⟨[], rfl⟩

/-- When a message arrives. -/
theorem readsBounded_of_cons {m : Message} {queue : List Message} (hready : env.refusal = none)
    (hq : env.queue = m :: queue) (hop : ∀ x ∈ env.queue, opCode x = EC_SOE_READ_RES) :
    ReadsBounded env a ↔ LengthOk env a := by
  obtain ⟨r, ⟨fuel, hrun⟩, hwrites, hlen, hret⟩ := reads_eq a hready hq hop
  obtain ⟨ms, hms⟩ := handled_cons hq
  have hunique : ReadsBounded env a ↔ Bounded env a r := by
    refine ⟨?_, fun h => ⟨fuel, r, hrun, h⟩⟩
    rintro ⟨fuel', r', hrun', h⟩
    rw [ecSoeRead, hready] at hrun hrun'
    exact While.Ends.unique ⟨fuel, hrun⟩ ⟨fuel', hrun'⟩ ▸ h
  rw [hunique, LengthOk]
  by_cases hzero : a.len = 0
  · rw [Args.lenAfter, if_neg (not_not_intro hzero)] at hlen
    rw [if_neg (not_not_intro hzero), bounded_iff_of_no_len hms hzero hwrites hlen hret, hq]
    simp
  · rw [Args.leftAfter, if_pos hzero] at hwrites
    rw [Args.lenAfter, if_pos hzero] at hlen
    rw [if_pos hzero, bounded_iff_of_len hwrites hlen hret]

/-- When none does. -/
theorem readsBounded_of_nil (hready : env.refusal = none) (hq : env.queue = []) :
    ReadsBounded env a := by
  have hwait : begun env a = _ := wait_nil hq
  refine ⟨1, begun env a, ?_, ?_⟩
  · rw [ecSoeRead, hready]
    show While.run (step env) 1 (begun env a) = _
    rw [While.run, step, hwait]
  · rw [hwait]
    exact ⟨by simp [init], trivial, trivial, by simp [init], fun h => (by cases h)⟩

theorem lengthOk_of_nil (hq : env.queue = []) : LengthOk env a := by
  rw [LengthOk, Env.handled, Env.stops, hq, upToLast]
  split_ifs
  · exact ⟨trivial, by simp, fun h => (by cases h)⟩
  · simp

end

theorem refusal_ne_ok {env : Env} : env.refusal ≠ some .ok := by
  unfold Env.refusal
  split_ifs <;> simp

end Read

open Read

/-- **Length**: bounded, and told to the caller, just if it is the right one. -/
theorem readsBounded_iff (env : Env) (a : Args)
    (hop : ∀ m ∈ env.queue, opCode m = EC_SOE_READ_RES) :
    ReadsBounded env a ↔ env.refusal ≠ none ∨ LengthOk env a := by
  cases hready : env.refusal with
  | some ret =>
    have hrun : ecSoeRead 0 env a = some { init env a with ret := ret } := by
      rw [ecSoeRead, hready]
    refine iff_of_true ⟨0, _, hrun, ?_⟩ (.inl (by simp))
    refine ⟨by simp [init], trivial, trivial, by simp [init], ?_⟩
    rintro rfl
    exact absurd hready refusal_ne_ok
  | none =>
    rw [or_iff_right (not_not_intro rfl)]
    cases hq : env.queue with
    | nil => exact iff_of_true (readsBounded_of_nil hready hq) (lengthOk_of_nil hq)
    | cons m queue => exact readsBounded_of_cons hready hq hop

/-- A complete response of two bytes. -/
def twoBytes : Message := fun i => if i = 0 then 6 else if i = 6 then 2 else 0

def oneResponse : Env where
  present := true
  soe := true
  sendBuffer := true
  counter := 1
  queue := [twoBytes]
  later := fun _ _ => twoBytes

/-- A buffer of two bytes is right for it. -/
theorem readsBounded_two : ReadsBounded oneResponse ⟨0, 32, 64, 2⟩ := by
  refine (readsBounded_iff oneResponse ⟨0, 32, 64, 2⟩ (by decide)).2 (.inr ?_)
  rw [LengthOk, if_pos (by decide)]
  exact ⟨fun _ => ⟨by decide, trivial⟩, Nat.min_le_right _ _, fun _ => ⟨rfl, rfl⟩⟩

/-- With 100 bytes the caller is not told that two have come. -/
theorem hundred_not_told :
    ¬ ∀ env a, (∀ m ∈ env.queue, opCode m = EC_SOE_READ_RES) → ReadsBounded env a := by
  intro hall
  have hbounded := hall oneResponse ⟨0, 32, 64, 100⟩ (by decide)
  rw [readsBounded_of_cons rfl rfl (by decide), LengthOk, if_pos (by decide)] at hbounded
  exact absurd (hbounded.2.2 rfl).2 (by decide)

end LibEthercat.Soe
