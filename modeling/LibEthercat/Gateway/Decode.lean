import LibEthercat.Coe.SdoRead
import LibEthercat.Gateway.Bounds

/-!
# What a gateway answer decodes to

`ec_mbx_gateway_handle` makes the answer to an SDO request to the master in the buffer of the
request: an expedited response for up to 4 bytes, else a normal one. A client decodes it as
`ec_coe_sdo_read` decodes the answer of a slave.

Neither the command of the request nor the return value of `ec_coe_master_sdo_read` is used, and
`data_set_size` has no value for no data: it would be 4, which is 0 in 2 bits.

**Theorem (`answers_decode_iff`).** The answers decode to the value, the abort, or no upload
(`Right`) just if an upload gives `EC_OK` with at least one byte, for a request with the lengths of
an SDO request, and there is no download (`Plain`).
-/

namespace LibEthercat.Gateway

open LibEthercat.Coe CoeMaster
open BitField (get get_set_self get_set_below get_set_above)

def EC_COE_SDO_DOWNLOAD_REQ : ℕ := 1

variable {buf tmp stack out : Mem} {m : Message} {r : Reply} {n room : ℕ}

/-! ## Requests and answers -/

/-- An SDO request to the master with this command. -/
structure IsRequest (buf : Mem) (cmd : ℕ) : Prop where
  address_eq : address (mbxMessage buf) = 0
  mbxType_eq : mbxType (mbxMessage buf) = EC_MBX_COE
  service_eq : service (mbxMessage buf) = EC_COE_SDOREQ
  command_eq : command (mbxMessage buf) = cmd

/-- The answer to an SDO request, from what `ec_coe_master_sdo_read` gives. -/
def answerTo (stack buf : Mem) (r : Reply) : Mem := (sdoAnswer buf (tmpbuf stack r) r.len).buf

/-- What `ec_coe_master_sdo_read` has read. -/
def value (stack : Mem) (r : Reply) : List UInt8 := (List.range r.len).map (tmpbuf stack r)

/-! ## Decoding -/

/-- What `ec_coe_sdo_read` makes of a message, with `room` bytes for the data. -/
def received (room : ℕ) (m : Message) : SdoRead := sdoReadAnswer ⟨.mailboxTimeout, room, 0, []⟩ m

/-- The bytes that have been copied. -/
def data (c : SdoRead) : List UInt8 :=
  c.copies.flatMap fun d => (List.range d.bytes).map fun i => d.message (d.offset + i)

/-- The message is read as this value, with any room that is enough for it. -/
structure DecodesTo (m : Message) (bytes : List UInt8) : Prop where
  ret : ∀ room, bytes.length ≤ room → (received room m).ret = .ok
  len : ∀ room, bytes.length ≤ room → (received room m).len = bytes.length
  data : ∀ room, bytes.length ≤ room → data (received room m) = bytes

/-- The bytes of an SDO response behind its mailbox header. -/
def responseLength (m : Message) : ℕ :=
  if transferType m ≠ 0 then 2 + 4 + 4 else 2 + 4 + 4 + completeSize m

/-- The lengths in the headers are those of the response. -/
structure LengthsMatch (out : Mem) : Prop where
  mbx : mbxLength (mbxMessage out) = responseLength (mbxMessage out)
  header : headerLength out = 6 + responseLength (mbxMessage out)

/-! ## Property and condition -/

/-- `out` is the answer for a request and what the dictionary gives: the value of an upload, its
abort, and no upload for a download. -/
structure Right (stack buf : Mem) (r : Reply) (out : Mem) : Prop where
  value : IsRequest buf EC_COE_SDO_UPLOAD_REQ → r.ret = .ok → r.len ≤ 256 →
    DecodesTo (mbxMessage out) (value stack r) ∧ LengthsMatch out
  abort : IsRequest buf EC_COE_SDO_UPLOAD_REQ → r.ret ≠ .ok →
    ∀ room, (received room (mbxMessage out)).ret = .mailboxAbort ∧
      data (received room (mbxMessage out)) = []
  download : IsRequest buf EC_COE_SDO_DOWNLOAD_REQ →
    ¬ (answer (mbxMessage out) = .response ∧ command (mbxMessage out) = EC_COE_SDO_UPLOAD_REQ)

/-- An upload with the lengths of an SDO request that the dictionary answers with some data, or none
of the two commands. -/
structure Plain (buf : Mem) (r : Reply) : Prop where
  ret : IsRequest buf EC_COE_SDO_UPLOAD_REQ → r.ret = .ok
  lengths : IsRequest buf EC_COE_SDO_UPLOAD_REQ → r.len ≤ 256 →
    0 < r.len ∧ mbxLength (mbxMessage buf) = 10 ∧ headerLength buf = 16
  notDownload : ¬ IsRequest buf EC_COE_SDO_DOWNLOAD_REQ

/-! ## Single fields -/

theorem setHeaderLength_of_gt (buf : Mem) {j : ℕ} (v : ℕ) (h : 1 < j) :
    setHeaderLength buf v j = buf j := by
  rw [setHeaderLength, setBits_of_ne _ _ _ _ (by omega), Function.update_of_ne (by omega)]

theorem setU32_of_lt (buf : Mem) {i j : ℕ} (v : ℕ) (h : j < i) : setU32 buf i v j = buf j := by
  rw [setU32, setU16_of_lt _ _ (by omega), setU16_of_lt _ _ h]

theorem u16_congr {m m' : Message} {i : ℕ} (h0 : m i = m' i) (h1 : m (i + 1) = m' (i + 1)) :
    u16 m i = u16 m' i := by
  rw [u16, u16, h0, h1]

theorem u32_congr {m m' : Message} {i : ℕ} (h : ∀ j, i ≤ j → j < i + 4 → m j = m' j) :
    u32 m i = u32 m' i := by
  simp only [u32, u16, h i (by omega) (by omega), h (i + 1) (by omega) (by omega),
    h (i + 2) (by omega) (by omega), h (i + 2 + 1) (by omega) (by omega)]

/-! ## The fields of an answer -/

/-- The CoE and SDO headers before the form is known. -/
def sdoHeaders (buf : Mem) : Mem :=
  setBits (setBits buf 9 4 4 EC_COE_SDORES) 10 5 3 EC_COE_SDO_UPLOAD_REQ

/-- The byte of the CoE header with `service`. -/
theorem sdoAnswer_nine (buf tmp : Mem) (n : ℕ) :
    (sdoAnswer buf tmp n).buf 9 = setBits buf 9 4 4 EC_COE_SDORES 9 := by
  have h910 : (9 : ℕ) ≠ 10 := by decide
  unfold sdoAnswer
  split_ifs with hn
  · dsimp only
    rw [Mem.copy_of_lt _ _ _ (by decide), setBits_of_ne _ _ _ _ h910, setBits_of_ne _ _ _ _ h910,
      setBits_of_ne _ _ _ _ h910]
  · dsimp only
    rw [Mem.copy_of_lt _ _ _ (by decide), setHeaderLength_of_gt _ _ (by decide),
      setU16_of_ne _ _ (by decide) (by decide), setU32_of_lt _ _ (by decide),
      setBits_of_ne _ _ _ _ h910, setBits_of_ne _ _ _ _ h910, setBits_of_ne _ _ _ _ h910,
      setBits_of_ne _ _ _ _ h910]

/-- The first byte of the SDO header. -/
theorem sdoAnswer_ten (buf tmp : Mem) (n : ℕ) :
    (sdoAnswer buf tmp n).buf 10 =
      if n ≤ 4 then setBits (setBits (sdoHeaders buf) 10 1 1 1) 10 2 2 (4 - n) 10
      else setBits (setBits (setBits (sdoHeaders buf) 10 0 1 1) 10 1 1 0) 10 2 2 0 10 := by
  unfold sdoAnswer sdoHeaders
  split_ifs with hn
  · dsimp only
    rw [Mem.copy_of_lt _ _ _ (show 10 < 14 by decide)]
  · dsimp only
    rw [Mem.copy_of_lt _ _ _ (by decide), setHeaderLength_of_gt _ _ (by decide),
      setU16_of_ne _ _ (by decide) (by decide), setU32_of_lt _ _ (by decide)]

theorem service_sdoAnswer (buf tmp : Mem) (n : ℕ) :
    service (mbxMessage (sdoAnswer buf tmp n).buf) = EC_COE_SDORES := by
  have hfield : get (setBits buf 9 4 4 EC_COE_SDORES 9).toNat 4 4 = EC_COE_SDORES := by
    rw [get_setBits _ _ (by decide), get_set_self]
    rfl
  rw [← sdoAnswer_nine buf tmp n, BitField.get] at hfield
  have h8 := ((sdoAnswer buf tmp n).buf 8).toNat_lt
  have h9 := ((sdoAnswer buf tmp n).buf 9).toNat_lt
  change (((sdoAnswer buf tmp n).buf 8).toNat + 2 ^ 8 * ((sdoAnswer buf tmp n).buf 9).toNat) /
    2 ^ 12 = EC_COE_SDORES
  omega

theorem command_sdoAnswer (buf tmp : Mem) (n : ℕ) :
    command (mbxMessage (sdoAnswer buf tmp n).buf) = EC_COE_SDO_UPLOAD_REQ := by
  have hself : get (sdoHeaders buf 10).toNat 5 3 = EC_COE_SDO_UPLOAD_REQ := by
    rw [sdoHeaders, get_setBits _ _ (by decide), get_set_self]
    rfl
  have hfield : get ((sdoAnswer buf tmp n).buf 10).toNat 5 3 = EC_COE_SDO_UPLOAD_REQ := by
    rw [sdoAnswer_ten, ← hself]
    split_ifs with hn
    · simp (disch := decide) only [get_setBits, get_set_above]
    · simp (disch := decide) only [get_setBits, get_set_above]
  have h10 := ((sdoAnswer buf tmp n).buf 10).toNat_lt
  rw [BitField.get] at hfield
  change ((sdoAnswer buf tmp n).buf 10).toNat / 2 ^ 5 = EC_COE_SDO_UPLOAD_REQ
  omega

theorem transferType_sdoAnswer (buf tmp : Mem) (n : ℕ) :
    transferType (mbxMessage (sdoAnswer buf tmp n).buf) = if n ≤ 4 then 1 else 0 := by
  change get ((sdoAnswer buf tmp n).buf 10).toNat 1 1 = _
  rw [sdoAnswer_ten]
  split_ifs with hn
  · simp (disch := decide) only [get_setBits, get_set_below, get_set_self]
    rfl
  · simp (disch := decide) only [get_setBits, get_set_below, get_set_self]
    rfl

theorem dataSetSize_sdoAnswer (buf tmp : Mem) (hn : n ≤ 4) :
    dataSetSize (mbxMessage (sdoAnswer buf tmp n).buf) = (4 - n) % 4 := by
  change get ((sdoAnswer buf tmp n).buf 10).toNat 2 2 = _
  rw [sdoAnswer_ten, if_pos hn, get_setBits _ _ (by decide), get_set_self]
  rfl

theorem completeSize_sdoAnswer (buf tmp : Mem) (hn : ¬ n ≤ 4) :
    completeSize (mbxMessage (sdoAnswer buf tmp n).buf) = n % 2 ^ 32 := by
  let short := setBits (setBits (setBits (sdoHeaders buf) 10 0 1 1) 10 1 1 0) 10 2 2 0
  have hbyte : ∀ j, 14 ≤ j → j < 14 + 4 → (sdoAnswer buf tmp n).buf j = setU32 short 14 n j := by
    intro j hlo hhi
    rw [sdoAnswer, if_neg hn]
    dsimp only
    rw [Mem.copy_of_lt _ _ _ hhi, setHeaderLength_of_gt _ _ (by omega),
      setU16_of_ne _ _ (by omega) (by omega)]
    rfl
  exact (u32_congr hbyte).trans (u32_setU32 short 14 n)

/-- No data is taken for 4 bytes. -/
theorem dataSize_sdoAnswer (buf tmp : Mem) (hn : n < 2 ^ 32) :
    dataSize (mbxMessage (sdoAnswer buf tmp n).buf) = if n = 0 then 4 else n := by
  rw [dataSize, transferType_sdoAnswer]
  by_cases h4 : n ≤ 4
  · rw [if_pos h4, if_pos (by decide), dataSetSize_sdoAnswer buf tmp h4]
    split_ifs with h0
    · omega
    · omega
  · rw [if_neg h4, if_neg (by decide), completeSize_sdoAnswer buf tmp h4, if_neg (by omega),
      Nat.mod_eq_of_lt hn]

/-- The data stand where they are read. -/
theorem data_sdoAnswer (buf tmp : Mem) {i : ℕ} (hi : i < n) :
    mbxMessage (sdoAnswer buf tmp n).buf
      (Coe.dataOffset (mbxMessage (sdoAnswer buf tmp n).buf) + i) = tmp i := by
  rw [Coe.dataOffset, transferType_sdoAnswer, sdoAnswer]
  by_cases h4 : n ≤ 4
  · rw [if_pos h4, if_pos h4, if_pos (by decide), mbxMessage, Nat.add_right_comm]
    exact Mem.copy_add _ _ _ _ hi
  · rw [if_neg h4, if_neg h4, if_neg (by decide), mbxMessage, Nat.add_right_comm]
    exact Mem.copy_add _ _ _ _ hi

theorem mbxLength_sdoAnswer (buf tmp : Mem) (n : ℕ) :
    mbxLength (mbxMessage (sdoAnswer buf tmp n).buf) =
      if n ≤ 4 then mbxLength (mbxMessage buf) else (mbxLength (mbxMessage buf) + n) % 2 ^ 16 := by
  change u16 (sdoAnswer buf tmp n).buf 2 = if n ≤ 4 then u16 buf 2 else (u16 buf 2 + n) % 2 ^ 16
  have hset : ∀ {i j : ℕ}, j < 4 → 9 ≤ i → ∀ b lo width v, setBits b i lo width v j = b j :=
    fun hj hi b lo width v => setBits_of_ne b lo width v (by omega)
  unfold sdoAnswer
  split_ifs with hn
  · have hbyte : ∀ j < 4,
        (setBits (setBits (sdoHeaders buf) 10 1 1 1) 10 2 2 (4 - n)).copy 14 tmp n j = buf j := by
      intro j hj
      rw [Mem.copy_of_lt _ _ _ (by omega), hset hj (by decide), hset hj (by decide), sdoHeaders,
        hset hj (by decide), hset hj (by decide)]
    exact u16_congr (hbyte 2 (by decide)) (hbyte 3 (by decide))
  · -- what is added is added to the length of the request
    let long :=
      setU32 (setBits (setBits (setBits (sdoHeaders buf) 10 0 1 1) 10 1 1 0) 10 2 2 0) 14 n
    have hbyte : ∀ j < 4, long j = buf j := by
      intro j hj
      change setU32 _ 14 n j = _
      rw [setU32_of_lt _ _ (by omega), hset hj (by decide), hset hj (by decide),
        hset hj (by decide), sdoHeaders, hset hj (by decide), hset hj (by decide)]
    have hadd : u16 (setU16 long 2 (u16 long 2 + n)) 2 = (u16 buf 2 + n) % 2 ^ 16 := by
      rw [u16_setU16, u16_congr (hbyte 2 (by decide)) (hbyte 3 (by decide))]
    have hkeep : ∀ j, 1 < j → j < 4 → ((setHeaderLength (setU16 long 2 (u16 long 2 + n))
        (headerLength (setU16 long 2 (u16 long 2 + n)) + n)).copy 18 tmp n) j =
          setU16 long 2 (u16 long 2 + n) j := by
      intro j hlo hhi
      rw [Mem.copy_of_lt _ _ _ (by omega), setHeaderLength_of_gt _ _ hlo]
    exact (u16_congr (hkeep 2 (by decide) (by decide)) (hkeep 3 (by decide) (by decide))).trans hadd

theorem headerLength_sdoAnswer (buf tmp : Mem) (n : ℕ) :
    headerLength (sdoAnswer buf tmp n).buf =
      if n ≤ 4 then headerLength buf else (headerLength buf + n) % 2 ^ 11 := by
  unfold sdoAnswer
  split_ifs with hn
  · simp
  · simp

/-! ## Answers -/

theorem answer_sdoAnswer (buf tmp : Mem) (n : ℕ) :
    answer (mbxMessage (sdoAnswer buf tmp n).buf) = .response := by
  rw [answer, service_sdoAnswer]
  rfl

/-- What is read of a response that there is room for. -/
theorem received_response (hm : answer m = .response) (hroom : dataSize m ≤ room) :
    received room m = ⟨.ok, dataSize m, 0, [⟨m, Coe.dataOffset m, dataSize m⟩]⟩ := by
  simp [received, sdoReadAnswer, hm, Nat.not_lt.2 hroom]

theorem received_ne_abort (hm : answer m = .response) : (received room m).ret ≠ .mailboxAbort := by
  unfold received sdoReadAnswer
  rw [hm]
  dsimp only
  split_ifs <;> simp

/-- **The answer with some data is read as these data.** -/
theorem decodesTo_sdoAnswer (buf tmp : Mem) (h0 : n ≠ 0) (hn : n < 2 ^ 32) :
    DecodesTo (mbxMessage (sdoAnswer buf tmp n).buf) ((List.range n).map tmp) := by
  have hsize : dataSize (mbxMessage (sdoAnswer buf tmp n).buf) = n := by
    rw [dataSize_sdoAnswer buf tmp hn, if_neg h0]
  have hreceived : ∀ room, ((List.range n).map tmp).length ≤ room →
      received room (mbxMessage (sdoAnswer buf tmp n).buf) = ⟨.ok, n, 0,
        [⟨mbxMessage (sdoAnswer buf tmp n).buf,
          Coe.dataOffset (mbxMessage (sdoAnswer buf tmp n).buf), n⟩]⟩ := by
    intro room hroom
    rw [List.length_map, List.length_range] at hroom
    rw [received_response (answer_sdoAnswer buf tmp n) (by omega), hsize]
  refine ⟨fun room hroom => ?_, fun room hroom => ?_, fun room hroom => ?_⟩
  · rw [hreceived room hroom]
  · rw [hreceived room hroom, List.length_map, List.length_range]
  · rw [hreceived room hroom, data, List.flatMap_singleton]
    exact List.map_congr_left fun i hi => data_sdoAnswer buf tmp (List.mem_range.1 hi)

theorem responseLength_sdoAnswer (buf tmp : Mem) (hn : n < 2 ^ 32) :
    responseLength (mbxMessage (sdoAnswer buf tmp n).buf) = if n ≤ 4 then 10 else 10 + n := by
  rw [responseLength, transferType_sdoAnswer]
  by_cases h4 : n ≤ 4
  · rw [if_pos h4, if_pos h4, if_pos (by decide)]
  · rw [if_neg h4, if_neg h4, if_neg (by decide), completeSize_sdoAnswer buf tmp h4,
      Nat.mod_eq_of_lt hn]

/-- The lengths match if they did in the request. -/
theorem lengthsMatch_sdoAnswer_iff (buf tmp : Mem) (hn : n ≤ 256) :
    LengthsMatch (sdoAnswer buf tmp n).buf ↔
      mbxLength (mbxMessage buf) = 10 ∧ headerLength buf = 16 := by
  have hmbx := mbxLength_lt (mbxMessage buf)
  have hheader : headerLength buf < 2 ^ 11 := Nat.mod_lt _ (by decide)
  have hsplit : LengthsMatch (sdoAnswer buf tmp n).buf ↔ _ ∧ _ :=
    ⟨fun h => ⟨h.mbx, h.header⟩, fun h => ⟨h.1, h.2⟩⟩
  rw [hsplit, mbxLength_sdoAnswer, headerLength_sdoAnswer,
    responseLength_sdoAnswer buf tmp (by omega)]
  split_ifs with h4
  · rfl
  · omega

/-! ## Every answer -/

/-- The answer for any result of the dictionary. -/
theorem right_answerTo_iff (stack buf : Mem) (r : Reply) :
    Right stack buf r (answerTo stack buf r) ↔ Plain buf r := by
  have hanswer : answer (mbxMessage (answerTo stack buf r)) = .response := answer_sdoAnswer _ _ _
  constructor
  · intro h
    have hret : IsRequest buf EC_COE_SDO_UPLOAD_REQ → r.ret = .ok := by
      intro hup
      by_contra hret
      exact received_ne_abort hanswer (h.abort hup hret 0).1
    refine ⟨hret, fun hup hlen => ?_, fun hdown => ?_⟩
    · obtain ⟨hdecodes, hlengths⟩ := h.value hup (hret hup) hlen
      refine ⟨Nat.pos_of_ne_zero fun h0 => ?_, (lengthsMatch_sdoAnswer_iff _ _ hlen).1 hlengths⟩
      -- no data are read as 4 bytes
      have hfour : dataSize (mbxMessage (answerTo stack buf r)) = 4 := by
        rw [answerTo, dataSize_sdoAnswer _ _ (by omega), if_pos h0]
      have hread := hdecodes.len 4 (by simp [value, h0])
      rw [received_response hanswer hfour.le, hfour] at hread
      simp [value, h0] at hread
    · exact h.download hdown ⟨hanswer, command_sdoAnswer _ _ _⟩
  · intro h
    refine ⟨fun hup _ hlen => ?_, fun hup hret => absurd (h.ret hup) hret,
      fun hdown => absurd hdown h.notDownload⟩
    obtain ⟨hpos, hlengths⟩ := h.lengths hup hlen
    exact ⟨decodesTo_sdoAnswer _ _ (by omega) (by omega),
      (lengthsMatch_sdoAnswer_iff _ _ hlen).2 hlengths⟩

section
variable {env : Env} {pec : Master} {x : Surroundings}

/-- An SDO request to the master is answered in this way. -/
theorem ecMbxGatewayHandle_request {cmd : ℕ} (h : IsRequest buf cmd) :
    (ecMbxGatewayHandle env pec x buf).buf =
      answerTo x.stack buf (masterRead env pec (mbxMessage buf)) := by
  rw [ecMbxGatewayHandle, if_pos h.address_eq, handleMaster]
  dsimp only
  rw [if_pos h.mbxType_eq, if_pos h.service_eq]
  rfl

/-- `Right` is about these requests only. -/
theorem right_congr {out out' : Mem} (h : ∀ cmd, IsRequest buf cmd → out = out') :
    Right stack buf r out ↔ Right stack buf r out' := by
  by_cases hreq : ∃ cmd, IsRequest buf cmd
  · obtain ⟨cmd, hreq⟩ := hreq
    rw [h cmd hreq]
  · have hno : ∀ cmd, ¬ IsRequest buf cmd := fun cmd hc => hreq ⟨cmd, hc⟩
    have hright : ∀ out, Right stack buf r out := fun out =>
      ⟨fun hup => absurd hup (hno _), fun hup => absurd hup (hno _),
        fun hdown => absurd hdown (hno _)⟩
    exact iff_of_true (hright out) (hright out')

theorem right_handle_iff : Right x.stack buf (masterRead env pec (mbxMessage buf))
    (ecMbxGatewayHandle env pec x buf).buf ↔ Plain buf (masterRead env pec (mbxMessage buf)) :=
  (right_congr fun _ h => ecMbxGatewayHandle_request h).trans (right_answerTo_iff _ _ _)

end

/-- **What an answer decodes to**, for any result of the dictionary and for what the dictionary of
the master gives. -/
theorem answers_decode_iff (env : Env) (pec : Master) (x : Surroundings) (buf : Mem) :
    (∀ r, Right x.stack buf r (answerTo x.stack buf r) ↔ Plain buf r) ∧
      (Right x.stack buf (masterRead env pec (mbxMessage buf))
          (ecMbxGatewayHandle env pec x buf).buf ↔
        Plain buf (masterRead env pec (mbxMessage buf))) :=
  ⟨right_answerTo_iff x.stack buf, right_handle_iff⟩

/-- An upload of an object that the master does not have. -/
def unknownObject : Mem := fun i =>
  [16, 0x50, 10, 0, 0, 0, 0, 3, 0, 0x20, 0x40, 0xFF, 0x2F].getD i 0

/-- It is answered with 256 bytes that nothing has written. -/
theorem unknownObject_answered :
    ¬ ∀ env pec x buf, Right x.stack buf (masterRead env pec (mbxMessage buf))
      (ecMbxGatewayHandle env pec x buf).buf := by
  intro hall
  have hup : IsRequest unknownObject EC_COE_SDO_UPLOAD_REQ := by
    constructor <;> decide
  have hplain := right_handle_iff.1
    (hall silentEnv (masterOf []) ⟨fun _ => 0, true, 1, none⟩ unknownObject)
  have hret := hplain.ret hup
  revert hret
  decide

end LibEthercat.Gateway
