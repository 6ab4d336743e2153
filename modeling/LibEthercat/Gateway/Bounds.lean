import LibEthercat.Gateway.Model
import LibEthercat.Hw.Rx

/-!
# The lengths of a gateway request

`ec_mbx_gateway_handle` does not compare any of its lengths: the fields that it reads with the
length of the request, the 11 bits of the EtherCAT header with the request and with the mailbox
buffer, what the dictionary gives and what a slave replies with the room for the answer.

**Theorem (`mbx_gateway_confined`).** A call stays inside its buffers, and stores the length of
its answer, exactly if these lengths fit (`Fits`).
-/

namespace LibEthercat.Gateway

open LibEthercat.Coe CoeMaster

variable {env : Env} {pec : Master} {x : Surroundings} {buf : Mem}

/-! ## Where a call has to stay -/

/-- A request of `len` bytes, in a buffer with room for `cap`. -/
structure Room where
  len : ℕ
  cap : ℕ
  len_le : len ≤ cap

def Access.Inside (c : Room) : Access → Prop
  | .request pos n => pos + n ≤ c.len
  | .answer pos n => pos + n ≤ c.cap
  | .mailbox n => n ≤ lecMaxPoolDataSize
  | .tmpbuf n => n ≤ 256

/-- A call that stays inside the buffers, and whose header has the length of its answer. -/
structure Confined (c : Room) (r : Result) : Prop where
  inside : ∀ a ∈ r.touched, a.Inside c
  stored : ∀ n, r.answer.length = some n → headerLength r.buf = n

/-! ## What fits -/

/-- Where `n` bytes of data stand in an SDO response. -/
def dataOffset (n : ℕ) : ℕ := if n ≤ 4 then 14 else 18

/-- A request to the master: its headers are there, and the object fits into `tmpbuf` and into the
answer. The header has the length of a request. -/
def FitsMaster (env : Env) (pec : Master) (buf : Mem) (c : Room) : Prop :=
  8 ≤ c.len ∧ (mbxType (mbxMessage buf) = EC_MBX_COE → 10 ≤ c.len ∧
    (service (mbxMessage buf) = EC_COE_SDOREQ → 14 ≤ c.len ∧ headerLength buf = 16 ∧
      (masterRead env pec (mbxMessage buf)).len ≤ 256 ∧
      dataOffset (masterRead env pec (mbxMessage buf)).len +
        (masterRead env pec (mbxMessage buf)).len ≤ c.cap))

/-- A request that goes to a slave: the header's length is inside the request and the mailbox buffer,
and the reply fits into the answer and its length into the header. -/
def FitsSlave (pec : Master) (x : Surroundings) (buf : Mem) (c : Room) : Prop :=
  ∀ slave, findSlave pec (address (mbxMessage buf)) = some slave → x.sendFree = true →
    8 ≤ c.len ∧ 2 + headerLength buf ≤ c.len ∧ headerLength buf ≤ lecMaxPoolDataSize ∧
      ∀ reply, x.reply = some reply → 8 + mbxLength reply ≤ c.cap ∧ 6 + mbxLength reply < 2 ^ 11

def Fits (env : Env) (pec : Master) (x : Surroundings) (buf : Mem) (c : Room) : Prop :=
  6 ≤ c.len ∧
    if address (mbxMessage buf) = 0 then FitsMaster env pec buf c else FitsSlave pec x buf c

/-! ## The length in the header -/

theorem setBits_of_ne (buf : Mem) {i j : ℕ} (lo width v : ℕ) (h : j ≠ i) :
    setBits buf i lo width v j = buf j :=
  Function.update_of_ne h _ _

theorem setU16_of_lt (buf : Mem) {i j : ℕ} (v : ℕ) (h : j < i) : setU16 buf i v j = buf j := by
  rw [setU16, Function.update_of_ne (by omega), Function.update_of_ne (by omega)]

theorem headerLength_congr {buf buf' : Mem} (h0 : buf 0 = buf' 0) (h1 : buf 1 = buf' 1) :
    headerLength buf = headerLength buf' := by
  simp only [headerLength, u16, h0, h1]

@[simp] theorem headerLength_setBits (buf : Mem) {i : ℕ} (lo width v : ℕ) (h : 1 < i) :
    headerLength (setBits buf i lo width v) = headerLength buf :=
  headerLength_congr (setBits_of_ne _ _ _ _ (by omega)) (setBits_of_ne _ _ _ _ (by omega))

@[simp] theorem headerLength_setU16 (buf : Mem) {i : ℕ} (v : ℕ) (h : 1 < i) :
    headerLength (setU16 buf i v) = headerLength buf :=
  headerLength_congr (setU16_of_lt _ _ (by omega)) (setU16_of_lt _ _ (by omega))

@[simp] theorem headerLength_setU32 (buf : Mem) {i : ℕ} (v : ℕ) (h : 1 < i) :
    headerLength (setU32 buf i v) = headerLength buf := by
  rw [setU32, headerLength_setU16 _ _ (by omega), headerLength_setU16 _ _ h]

@[simp] theorem headerLength_copy (buf src : Mem) {d : ℕ} (n : ℕ) (h : 1 < d) :
    headerLength (buf.copy d src n) = headerLength buf :=
  headerLength_congr (Mem.copy_of_lt _ _ _ (by omega)) (Mem.copy_of_lt _ _ _ (by omega))

/-- The header keeps 11 bits. -/
@[simp] theorem headerLength_setHeaderLength (buf : Mem) (v : ℕ) :
    headerLength (setHeaderLength buf v) = v % 2 ^ 11 := by
  have h1 := (buf 1).toNat_lt
  simp only [headerLength, u16, setHeaderLength, setBits, Function.update_self,
    Function.update_of_ne (show (0 : ℕ) ≠ 1 by decide),
    Function.update_of_ne (show (1 : ℕ) ≠ 0 by decide), UInt8.toNat_ofNat', Nat.zero_add]
  omega

theorem headerLength_markRequest (buf : Mem) (counter : ℕ) :
    headerLength (markRequest buf counter) = headerLength buf := by
  rw [markRequest, headerLength_setBits _ _ _ _ (by decide),
    headerLength_setBits _ _ _ _ (by decide)]

/-- The length of a reply is read where it has been copied to. -/
theorem headerLength_takeReply (buf : Mem) (reply : Message) :
    headerLength (takeReply buf reply) = (mbxLength reply + 6) % 2 ^ 11 := by
  have hlen : u16 (setBits (buf.copy 2 reply (mbxLength reply + 6)) 5 7 1 0) 2 = mbxLength reply := by
    rw [u16, setBits_of_ne _ _ _ _ (by decide), setBits_of_ne _ _ _ _ (by decide),
      Mem.copy_add buf reply 2 _ (i := 0) (by omega), Mem.copy_add buf reply 2 _ (i := 1) (by omega)]
    rfl
  rw [takeReply, headerLength_setHeaderLength, hlen]

/-! ## The three kinds of calls -/

theorem confined_none {c : Room} {touched : List Access} {sent : Option (ℕ × Message)} :
    Confined c ⟨buf, touched, sent, .none⟩ ↔ ∀ a ∈ touched, a.Inside c := by
  constructor
  · exact Confined.inside
  · exact fun h => ⟨h, fun n hn => by cases hn⟩

theorem sdoAnswer_confined_iff {c : Room} (hlen : 14 ≤ c.len) (tmp : Mem) (n : ℕ) :
    Confined c (sdoAnswer buf tmp n) ↔
      headerLength buf = 16 ∧ n ≤ 256 ∧ dataOffset n + n ≤ c.cap := by
  have hcap := c.len_le
  have hlt : headerLength buf < 2 ^ 11 := Nat.mod_lt _ (by decide)
  have hsplit : Confined c (sdoAnswer buf tmp n) ↔
      (∀ a ∈ (sdoAnswer buf tmp n).touched, a.Inside c) ∧
        ∀ k, (sdoAnswer buf tmp n).answer.length = some k →
          headerLength (sdoAnswer buf tmp n).buf = k :=
    ⟨fun h => ⟨h.1, h.2⟩, fun h => ⟨h.1, h.2⟩⟩
  rw [hsplit]
  by_cases hn : n ≤ 4
  · simp only [sdoAnswer, dataOffset, if_pos hn, List.forall_mem_cons, Access.Inside, Answer.length,
      headerLength_copy _ _ _ (show 1 < 14 by decide), Option.some.injEq, forall_eq',
      headerLength_setBits _ _ _ _ (show 1 < 9 by decide),
      headerLength_setBits _ _ _ _ (show 1 < 10 by decide), List.not_mem_nil, false_imp_iff,
      implies_true, and_true]
    omega
  · simp only [sdoAnswer, dataOffset, if_neg hn, List.forall_mem_cons, Access.Inside, Answer.length,
      headerLength_copy _ _ _ (show 1 < 18 by decide), Option.some.injEq, forall_eq',
      headerLength_setHeaderLength, headerLength_setU16 _ _ (show 1 < 2 by decide),
      headerLength_setU32 _ _ (show 1 < 14 by decide),
      headerLength_setBits _ _ _ _ (show 1 < 9 by decide),
      headerLength_setBits _ _ _ _ (show 1 < 10 by decide), List.not_mem_nil, false_imp_iff,
      implies_true, and_true]
    omega

/-- What is touched before. -/
theorem confined_prepend {c : Room} {r : Result} {touched : List Access} :
    Confined c { r with touched := touched ++ r.touched } ↔
      (∀ a ∈ touched, a.Inside c) ∧ Confined c r := by
  refine ⟨fun h => ?_, fun h => ⟨List.forall_mem_append.2 ⟨h.1, h.2.inside⟩, h.2.stored⟩⟩
  have hin := List.forall_mem_append.1 h.inside
  exact ⟨hin.1, hin.2, h.stored⟩

/-- A request to the master. -/
theorem handleMaster_confined_iff (stack : Mem) (c : Room) :
    Confined c (handleMaster env pec stack buf) ↔ FitsMaster env pec buf c := by
  unfold handleMaster FitsMaster
  dsimp only
  split_ifs with htype hservice
  · -- an SDO request
    rw [confined_prepend]
    simp only [List.forall_mem_cons, Access.Inside, List.not_mem_nil, false_imp_iff, implies_true,
      and_true, htype, hservice, forall_const]
    refine ⟨fun h => ?_, fun h => ?_⟩
    · have h14 : 14 ≤ c.len := by omega
      exact ⟨by omega, by omega, h14, (sdoAnswer_confined_iff h14 _ _).1 h.2⟩
    · obtain ⟨-, -, h14, hsdo⟩ := h
      exact ⟨by omega, (sdoAnswer_confined_iff h14 _ _).2 hsdo⟩
  · -- another service
    simp only [confined_none, List.forall_mem_cons, Access.Inside, List.not_mem_nil, false_imp_iff,
      implies_true, and_true, htype, hservice, forall_const]
    omega
  · -- another type
    simp only [confined_none, List.forall_mem_cons, Access.Inside, List.not_mem_nil, false_imp_iff,
      implies_true, and_true, htype]
    omega

/-- A request to a slave. -/
theorem handleSlave_confined_iff {c : Room} (h6 : 6 ≤ c.len) :
    Confined c (handleSlave pec x buf) ↔ FitsSlave pec x buf c := by
  have hcap := c.len_le
  have hfirst : ∀ a ∈ [Access.request 4 2], a.Inside c := by
    simpa [Access.Inside] using h6
  unfold handleSlave sendRequest FitsSlave
  cases hslave : findSlave pec (address (mbxMessage buf)) with
  | none => exact iff_of_true (confined_none.2 hfirst) (by simp)
  | some slave =>
    cases hfree : x.sendFree with
    | false => exact iff_of_true (confined_none.2 hfirst) (by simp)
    | true =>
      simp only [if_true, Option.some.injEq, forall_eq', forall_const, headerLength_markRequest]
      cases x.reply with
      | none =>
        simp only [confined_none, List.forall_mem_cons, Access.Inside, List.not_mem_nil,
          false_imp_iff, implies_true, and_true, reduceCtorEq]
        omega
      | some reply =>
        have hlt := mbxLength_lt reply
        constructor
        · intro h
          have hin := h.inside
          have hstored := h.stored _ rfl
          simp only [headerLength_takeReply] at hstored
          simp only [List.forall_mem_append, List.forall_mem_cons, Access.Inside] at hin
          refine ⟨by omega, by omega, hin.1.2.2.2.2.2.2.1, fun m hm => ?_⟩
          cases hm
          omega
        · intro h
          obtain ⟨h8, hreq, hmbx, hreply⟩ := h
          obtain ⟨hans, hbits⟩ := hreply reply rfl
          refine ⟨?_, fun n hn => ?_⟩
          · simp only [List.forall_mem_append, List.forall_mem_cons, Access.Inside,
              List.not_mem_nil, false_imp_iff, implies_true, and_true]
            omega
          · simp only [Answer.length, Option.some.injEq] at hn
            simp only [headerLength_takeReply]
            omega

/-- Every call reads the station address. -/
theorem address_mem_touched :
    Access.request 4 2 ∈ (ecMbxGatewayHandle env pec x buf).touched := by
  unfold ecMbxGatewayHandle handleMaster handleSlave
  dsimp only
  split_ifs
  · exact List.mem_cons_self
  · exact List.mem_cons_self
  · exact List.mem_cons_self
  · cases sendRequest pec x.sendFree x.counter buf with
    | none => exact List.mem_cons_self
    | some sent =>
      cases x.reply with
      | none => exact List.mem_cons_self
      | some reply => exact List.mem_cons_self

/-- **When the lengths of a call fit.** -/
theorem mbx_gateway_confined (env : Env) (pec : Master) (x : Surroundings) (buf : Mem) (c : Room) :
    Confined c (ecMbxGatewayHandle env pec x buf) ↔ Fits env pec x buf c := by
  by_cases h6 : 6 ≤ c.len
  · unfold ecMbxGatewayHandle Fits
    rw [and_iff_right h6]
    split_ifs with ha
    · exact handleMaster_confined_iff x.stack c
    · exact handleSlave_confined_iff h6
  · refine iff_of_false (fun h => h6 ?_) (fun h => h6 h.1)
    exact h.inside _ address_mem_touched

/-- A request to station address 1001 whose header says 2047. -/
def longRequest : Mem := fun i => [0xFF, 0x17, 0, 0, 0xE9, 0x03, 0, 0x03].getD i 0

/-- A datagram of 60 bytes in a frame buffer: 2047 bytes are copied into a mailbox buffer of 1600. -/
theorem mbx_gateway_long_request :
    ¬Confined ⟨60, 1476, by decide⟩ (ecMbxGatewayHandle silentEnv (masterOf [1001])
      ⟨fun _ => 0, true, 1, none⟩ longRequest) := by
  have ha : address (mbxMessage longRequest) = 1001 := by decide
  unfold ecMbxGatewayHandle
  rw [ha, if_neg (by decide), handleSlave_confined_iff (by decide), FitsSlave, ha]
  intro h
  have := (h 0 (by decide) rfl).2.1
  revert this
  decide

end LibEthercat.Gateway
