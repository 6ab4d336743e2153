import LibEthercat.Foe.Model

/-!
# The end of a file

`ec_foe_write` cuts a file into packets that fill the mailbox, and stops behind the last byte.
`ec_foe_read` takes a packet for the last one when it leaves room in the mailbox.

**Theorem (`foe_end_of_file`).** A reader that is given what the writer sends finds the file and its
end, unless the last packet is full: then the writer stops without an empty packet behind it, and
the reader waits for one.
-/

namespace LibEthercat.Foe

open Chunks

variable {env : Env} {request : RwRequest} {file : List UInt8}

/-! ## Packets -/

/-- The packets with these bytes, numbered from `n + 1` on. -/
def dataRequests : ℕ → List (List UInt8) → List Packet
  | _, [] => []
  | n, c :: cs => dataRequest (n + 1) c :: dataRequests (n + 1) cs

theorem dataRequests_append (n : ℕ) (cs ds : List (List UInt8)) :
    dataRequests n (cs ++ ds) = dataRequests n cs ++ dataRequests (n + cs.length) ds := by
  induction cs generalizing n with
  | nil => rfl
  | cons c cs ih =>
    simp only [List.cons_append, dataRequests, ih, List.length_cons]
    congr 3
    omega

theorem dataRequest_length {bytes : List UInt8} (h : bytes.length ≤ maxPacketData) (n : ℕ) :
    (dataRequest n bytes).length.toNat = 6 + bytes.length := by
  simp only [maxPacketData, lecMaxPoolDataSize] at h
  rw [dataRequest, UInt16.toNat_ofNat', Nat.mod_eq_of_lt (by omega)]

theorem dataRequest_dataLen {bytes : List UInt8} (h : bytes.length ≤ maxPacketData) (n : ℕ) :
    (dataRequest n bytes).dataLen = bytes.length := by
  rw [Packet.dataLen, dataRequest_length h]
  simp only [maxPacketData, lecMaxPoolDataSize] at h
  omega

/-- What is taken out of a packet is what was put in. -/
theorem dataRequest_payload {bytes : List UInt8} (h : bytes.length ≤ maxPacketData) (n : ℕ) :
    (dataRequest n bytes).payload = bytes := by
  rw [Packet.payload, dataRequest_dataLen h]
  apply List.ext_getElem
  · simp
  · intro i h1 h2
    simp [dataRequest, h2]

theorem dataRequest_isShort {smLen : UInt16} {bytes : List UInt8}
    (h : bytes.length ≤ maxPacketData) (n : ℕ) :
    (dataRequest n bytes).isShort smLen = true ↔ bytes.length < smLen.toNat - 12 := by
  rw [Packet.isShort, decide_eq_true_iff, dataRequest_length h]
  omega

/-! ## The writer -/

/-- **A transfer that is acknowledged to its end** sends the chunks of the rest of the file. -/
theorem foeWriteLoop_acked {d : ℕ} {acks : List Packet} (queue : List Packet) {off : ℕ}
    {sent : List Packet} (hd : 0 < d ∨ file.drop off = [])
    (hfit : min (file.length - off) d ≤ maxPacketData)
    (hlen : acks.length = (chunks d (file.drop off)).length) (hack : ∀ m ∈ acks, m.isAck = true)
    (hfree : ∀ k < acks.length, env.sendFree (sent.length + 1 + k) = true) :
    foeWriteLoop d env request file off sent (acks ++ queue) =
      some ⟨.ok, none, some request, sent ++ dataRequests sent.length (chunks d (file.drop off)),
        queue⟩ := by
  induction acks generalizing off sent with
  | nil => exact absurd hlen.symm (by simpa using chunks_ne_nil d (file.drop off))
  | cons m acks ih =>
    have hfree0 := hfree 0 (by simp)
    have hm := hack m List.mem_cons_self
    rw [Nat.add_zero] at hfree0
    have hrest : (file.drop off).length = file.length - off := List.length_drop
    rw [List.cons_append, foeWriteLoop]
    simp only [hfree0, hm, Bool.not_true, Bool.false_eq_true, if_false, if_neg (Nat.not_lt.2 hfit)]
    by_cases hlt : d < file.length - off
    · -- a full packet with something behind it
      have hd' : 0 < d := by
        rcases hd with hd | hd
        · exact hd
        · rw [← hrest, hd] at hlt
          simp at hlt
      have hcs := chunks_of_lt hd' (show d < (file.drop off).length by omega)
      have hmin : min (file.length - off) d = d := by omega
      rw [hcs, List.length_cons, List.length_cons, List.drop_drop] at hlen
      rw [hmin, if_pos (by omega), ih (Or.inl hd') (by omega) (by omega)
        (fun x hx => hack x (List.mem_cons_of_mem m hx))
        (fun k hk => by
          have := hfree (k + 1) (by simpa using hk)
          rw [List.length_append, List.length_singleton]
          rwa [show sent.length + 1 + (k + 1) = sent.length + 1 + 1 + k by omega] at this)]
      rw [hcs, dataRequests, List.drop_drop, List.append_assoc, List.length_append,
        List.length_singleton]
      rfl
    · -- the last packet
      have hcs := chunks_of_le (show (file.drop off).length ≤ d by omega)
      have hmin : min (file.length - off) d = file.length - off := by omega
      rw [hcs, List.length_cons, List.length_singleton] at hlen
      have hnil : acks = [] := List.eq_nil_of_length_eq_zero (by omega)
      rw [hmin, if_neg (by omega), hcs, hnil, List.take_of_length_le (by omega)]
      rfl

/-- The first packet that does not fit into a pool entry. -/
theorem foeWriteLoop_overflow {d off : ℕ} {sent queue : List Packet}
    (hfree : env.sendFree (sent.length + 1) = true)
    (hfit : maxPacketData < min (file.length - off) d) :
    foeWriteLoop d env request file off sent queue = none := by
  rw [foeWriteLoop]
  simp only [hfree, Bool.not_true, Bool.false_eq_true, if_false, if_pos hfit]

/-! ## The reader -/

/-- Packets that fill the mailbox are appended, and the reader goes on. -/
theorem foeReadLoop_full {smLen : UInt16} (request : RwRequest) (cs : List (List UInt8))
    (queue : List Packet) (n : ℕ) (fileData : List UInt8) (acks : List Packet)
    (hfull : ∀ c ∈ cs, c.length = smLen.toNat - 12)
    (hfit : ∀ c ∈ cs, c.length ≤ maxPacketData) :
    ∃ acks', foeReadLoop smLen Env.all request fileData acks (dataRequests n cs ++ queue) =
      foeReadLoop smLen Env.all request (fileData ++ cs.flatten) acks' queue := by
  induction cs generalizing n fileData acks with
  | nil => exact ⟨acks, by simp [dataRequests]⟩
  | cons c cs ih =>
    have hc := hfit c List.mem_cons_self
    have hshort : (dataRequest (n + 1) c).isShort smLen = false := by
      rw [Bool.eq_false_iff, ne_eq, dataRequest_isShort hc, hfull c List.mem_cons_self]
      omega
    obtain ⟨acks', h⟩ := @ih (n + 1) (fileData ++ c)
      (acks ++ [ackRequest (dataRequest (n + 1) c).packetNr])
      (fun x hx => hfull x (List.mem_cons_of_mem c hx))
      (fun x hx => hfit x (List.mem_cons_of_mem c hx))
    refine ⟨acks', ?_⟩
    rw [dataRequests, List.cons_append, foeReadLoop, dataRequest_dataLen hc,
      dataRequest_payload hc, if_neg (Nat.not_lt.2 hc), hshort, List.flatten_cons,
      ← List.append_assoc, ← h]
    rfl

theorem foeReadLoop_last {smLen : UInt16} (request : RwRequest) {c : List UInt8}
    (hfit : c.length ≤ maxPacketData) (n : ℕ) (fileData : List UInt8) (acks : List Packet) :
    ∃ acks', foeReadLoop smLen Env.all request fileData acks [dataRequest n c] =
      some ⟨if c.length < smLen.toNat - 12 then .ok else .mailboxTimeout, fileData ++ c, none,
        some request, acks', []⟩ := by
  refine ⟨acks ++ [ackRequest (dataRequest n c).packetNr], ?_⟩
  rw [foeReadLoop, dataRequest_dataLen hfit, dataRequest_payload hfit,
    if_neg (Nat.not_lt.2 hfit)]
  by_cases hc : c.length < smLen.toNat - 12
  · rw [(dataRequest_isShort hfit n).2 hc, if_pos hc]
    rfl
  · have hshort : (dataRequest n c).isShort smLen = false := by
      rw [Bool.eq_false_iff, ne_eq, dataRequest_isShort hfit]
      exact hc
    rw [hshort, if_neg hc]
    rfl

/-! ## Writer and reader -/

/-- The reader finds the file in what the writer sends, with the end at the last packet; `acks` are
the answers that the writer gets. -/
def EndOfFile (smLen : UInt16) (password : UInt32) (fileName file : List UInt8)
    (acks : List Packet) : Prop :=
  ∃ w, ecFoeWrite smLen Env.all password fileName file acks = some w ∧
    ∃ r, ecFoeRead smLen Env.all password fileName w.sent = some r ∧
      r.ret = .ok ∧ r.fileData = file ∧ r.queue = []

theorem writeDataLen_eq {smLen : UInt16} (h : 12 < smLen.toNat) :
    writeDataLen smLen = smLen.toNat - 12 := by
  have := smLen.toNat_lt
  rw [writeDataLen]
  omega

/-- Packets that fill the mailbox, and a last one. -/
theorem ecFoeRead_dataRequests {smLen : UInt16} (password : UInt32) (fileName : List UInt8)
    {init : List (List UInt8)} (last : List UInt8)
    (hfull : ∀ c ∈ init, c.length = smLen.toNat - 12)
    (hfit : ∀ c ∈ init ++ [last], c.length ≤ maxPacketData) :
    ∃ r, ecFoeRead smLen Env.all password fileName (dataRequests 0 (init ++ [last])) = some r ∧
      r.fileData = init.flatten ++ last ∧ r.queue = [] ∧
      (r.ret = .ok ↔ last.length < smLen.toNat - 12) := by
  obtain ⟨acks, hinit⟩ := foeReadLoop_full
    (rwRequest smLen opReadRequest password fileName) init
    (dataRequests (0 + init.length) [last]) 0 [] [] hfull
    (fun c hc => hfit c (List.mem_append_left _ hc))
  obtain ⟨acks', hlast⟩ := foeReadLoop_last
    (rwRequest smLen opReadRequest password fileName)
    (hfit last (List.mem_append_right _ (List.mem_singleton_self last)))
    (0 + init.length + 1) ([] ++ init.flatten) acks
  rw [dataRequests_append]
  refine ⟨_, hinit.trans hlast, rfl, rfl, ?_⟩
  split_ifs with hc
  · simp only [hc]
  · simp only [hc]

/-- The chunks of a file. -/
theorem ecFoeRead_chunks {smLen : UInt16} (h : 12 < smLen.toNat) (password : UInt32)
    (fileName file : List UInt8) (hfit : min file.length (smLen.toNat - 12) ≤ maxPacketData) :
    ∃ r, ecFoeRead smLen Env.all password fileName
        (dataRequests 0 (chunks (smLen.toNat - 12) file)) = some r ∧
      r.fileData = file ∧ r.queue = [] ∧
      (r.ret = .ok ↔ file = [] ∨ ¬smLen.toNat - 12 ∣ file.length) := by
  have hd : 0 < smLen.toNat - 12 := by omega
  have hne := chunks_ne_nil (smLen.toNat - 12) file
  have hsplit := List.dropLast_append_getLast hne
  have hle := length_of_mem_chunks hd file
  have hlast := hle _ (List.getLast_mem hne)
  obtain ⟨r, hread, hdata, hqueue, hret⟩ := ecFoeRead_dataRequests password fileName
    ((chunks (smLen.toNat - 12) file).getLast hne) (length_of_mem_dropLast _ file)
    (by rw [hsplit]; exact fun c hc => Nat.le_trans (hle c hc) hfit)
  rw [hsplit] at hread
  refine ⟨r, hread, ?_, hqueue, ?_⟩
  · rw [hdata, ← List.flatten_singleton (l := (chunks (smLen.toNat - 12) file).getLast hne),
      ← List.flatten_append, hsplit, chunks_flatten]
  · have hor : file = [] ∨ ¬smLen.toNat - 12 ∣ file.length ↔
        ¬(file ≠ [] ∧ smLen.toNat - 12 ∣ file.length) := by tauto
    rw [hret, hor, ← length_getLast hd file]
    omega

theorem ecFoeWrite_cons {smLen : UInt16} (h : 12 < smLen.toNat) (password : UInt32)
    (fileName file : List UInt8) {m : Packet} (hm : m.isAck = true) (acks : List Packet) :
    ecFoeWrite smLen Env.all password fileName file (m :: acks) =
      foeWriteLoop (smLen.toNat - 12) Env.all (rwRequest smLen opWriteRequest password fileName)
        file 0 [] acks := by
  rw [ecFoeWrite, writeDataLen_eq h]
  simp only [Env.error, Env.all, hm, Bool.not_true, Bool.false_eq_true, if_false]

/-- Writer and reader, as long as the packets fit into the buffers. -/
theorem endOfFile_iff {smLen : UInt16} (hsm : 12 < smLen.toNat) (password : UInt32)
    (fileName file : List UInt8) {acks : List Packet} (hack : ∀ m ∈ acks, m.isAck = true)
    (hlen : file.length + 2 ≤ acks.length)
    (hfit : min file.length (smLen.toNat - 12) ≤ maxPacketData) :
    EndOfFile smLen password fileName file acks ↔
      file = [] ∨ ¬smLen.toNat - 12 ∣ file.length := by
  cases acks with
  | nil => simp at hlen
  | cons m acks =>
    have hd : 0 < smLen.toNat - 12 := by omega
    have hle := length_chunks_le (smLen.toNat - 12) file
    rw [List.length_cons] at hlen
    obtain ⟨r, hread, hdata, hqueue, hret⟩ := ecFoeRead_chunks hsm password fileName file hfit
    have hwrite : foeWriteLoop (smLen.toNat - 12) Env.all
        (rwRequest smLen opWriteRequest password fileName) file 0 []
        (acks.take (chunks (smLen.toNat - 12) file).length ++
          acks.drop (chunks (smLen.toNat - 12) file).length) = _ :=
      foeWriteLoop_acked _ (Or.inl hd) hfit
        (by rw [List.length_take, List.drop_zero]; omega)
        (fun x hx => hack x (List.mem_cons_of_mem m (List.mem_of_mem_take hx)))
        (fun _ _ => rfl)
    rw [List.take_append_drop] at hwrite
    rw [EndOfFile, ecFoeWrite_cons hsm password fileName file (hack m List.mem_cons_self), hwrite,
      ← hret]
    constructor
    · intro hend
      obtain ⟨w, hw, r', hr', hok, -⟩ := hend
      rw [← Option.some.inj hw, List.drop_zero, List.nil_append, List.length_nil, hread] at hr'
      rwa [← Option.some.inj hr'] at hok
    · intro hok
      exact ⟨_, rfl, r, hread, hok, hdata, hqueue⟩

/-- **Where writer and reader agree on the end of a file**: everywhere but on multiples of what fits
into a packet, as long as the packets fit into the buffers. -/
theorem foe_end_of_file (smLen : UInt16) (hsm : 12 < smLen.toNat) (password : UInt32)
    (fileName file : List UInt8) (acks : List Packet) (hack : ∀ m ∈ acks, m.isAck = true)
    (hlen : file.length + 2 ≤ acks.length) :
    EndOfFile smLen password fileName file acks ↔
      (file = [] ∨ ¬smLen.toNat - 12 ∣ file.length) ∧
        min file.length (smLen.toNat - 12) ≤ maxPacketData := by
  by_cases hfit : min file.length (smLen.toNat - 12) ≤ maxPacketData
  · rw [endOfFile_iff hsm password fileName file hack hlen hfit, and_iff_left hfit]
  · cases acks with
    | nil => simp at hlen
    | cons m acks =>
      have hnone : foeWriteLoop (smLen.toNat - 12) Env.all
          (rwRequest smLen opWriteRequest password fileName) file 0 [] acks = none :=
        foeWriteLoop_overflow rfl (Nat.lt_of_not_le hfit)
      rw [EndOfFile, ecFoeWrite_cons hsm password fileName file (hack m List.mem_cons_self), hnone]
      constructor
      · intro hend
        obtain ⟨w, hw, -⟩ := hend
        cases hw
      · intro hcond
        exact absurd hcond.2 hfit

/-- A file that fills one packet of a mailbox with 16 bytes: the reader misses its end. -/
theorem foe_end_of_file_full :
    ¬EndOfFile 16 0 [] [1, 2, 3, 4] (List.replicate 6 (ackRequest 0)) := by
  rw [endOfFile_iff (by decide) 0 [] [1, 2, 3, 4]
    (fun m hm => by rw [List.eq_of_mem_replicate hm]; rfl) (by decide) (by decide)]
  decide

/-- One byte less, and it does not. -/
theorem foe_end_of_file_short :
    EndOfFile 16 0 [] [1, 2, 3] (List.replicate 6 (ackRequest 0)) :=
  (foe_end_of_file 16 (by decide) 0 [] [1, 2, 3] (List.replicate 6 (ackRequest 0))
    (fun m hm => by rw [List.eq_of_mem_replicate hm]; rfl) (by decide)).2 (by decide)

end LibEthercat.Foe
