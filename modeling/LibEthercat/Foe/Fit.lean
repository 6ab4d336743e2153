import LibEthercat.Foe.Transfer

/-!
# FoE messages and the write mailbox

The lengths of the requests and data packets are taken from `sm[1]`, which is the read mailbox, and
from a name only the 6 bytes of the mailbox header are held back, not the 12 bytes of all headers.
What the handler writes to the slave is as long as the write mailbox, `sm[0]`.

**Theorem (`foe_messages_fit`).** All messages fit, unless the name or the file is longer than the
write mailbox allows and the read mailbox does not make up for that.
-/

namespace LibEthercat.Foe

/-- The bytes of a send buffer that `ec_mbx_do_handle` writes; `writeLen` is
`sm[MAILBOX_WRITE].len`. -/
def sendLen (writeLen : UInt16) : ℕ := min 1600 writeLen.toNat

/-- The bytes of a message, with its mailbox header. -/
def Packet.size (m : Packet) : ℕ := 6 + m.length.toNat

def RwRequest.size (m : RwRequest) : ℕ := 6 + m.length.toNat

/-- All read requests, write requests and data packets of all runs fit. -/
def MessagesFit (writeLen readLen : UInt16) (fileName file : List UInt8) : Prop :=
  ∀ (env : Env) (password : UInt32) (queue : List Packet),
    (∀ r, ecFoeRead readLen env password fileName queue = some r →
      ∀ req ∈ r.request, req.size ≤ sendLen writeLen) ∧
    ∀ w, ecFoeWrite readLen env password fileName file queue = some w →
      (∀ req ∈ w.request, req.size ≤ sendLen writeLen) ∧
        ∀ m ∈ w.sent, m.size ≤ sendLen writeLen

/-- The name, and the file, are short, or the read mailbox is not longer than the write mailbox; for
the name it must be 6 bytes shorter. -/
def Short (writeLen readLen : UInt16) (fileName file : List UInt8) : Prop :=
  (fileName.length + 12 ≤ writeLen.toNat ∨ min readLen.toNat maxFileNameSize + 6 ≤ writeLen.toNat) ∧
    (file.length + 12 ≤ writeLen.toNat ∨ readLen.toNat ≤ writeLen.toNat)

instance (writeLen readLen : UInt16) (fileName file : List UInt8) :
    Decidable (Short writeLen readLen fileName file) := inferInstanceAs (Decidable (_ ∧ _))

section

variable {readLen : UInt16} {env : Env} {request : RwRequest} {fileName file : List UInt8}
  {d off : ℕ} {sent queue : List Packet}

/-! ## Sizes -/

theorem rwRequest_size (h : 12 < readLen.toNat) (op : UInt8) (password : UInt32)
    (fileName : List UInt8) : (rwRequest readLen op password fileName).size =
      12 + min fileName.length (min readLen.toNat maxFileNameSize - 6) := by
  have hlen : (min readLen.toNat maxFileNameSize + 2 ^ 64 - 6) % 2 ^ 64 =
      min readLen.toNat maxFileNameSize - 6 := by
    simp only [maxFileNameSize]
    omega
  rw [rwRequest, RwRequest.size, hlen, UInt16.toNat_ofNat', Nat.mod_eq_of_lt]
  · omega
  · simp only [maxFileNameSize]
    omega

theorem dataRequest_size {bytes : List UInt8} (h : bytes.length ≤ maxPacketData) (n : ℕ) :
    (dataRequest n bytes).size = 12 + bytes.length := by
  rw [Packet.size, dataRequest_length h]
  omega

/-- The requests are those of every run. -/
theorem ecFoeRead_request {password : UInt32} {r : ReadResult}
    (h : ecFoeRead readLen env password fileName queue = some r) :
    ∀ req ∈ r.request, req = rwRequest readLen opReadRequest password fileName := by
  have hloop : ∀ (request : RwRequest) (queue : List Packet) (fileData : List UInt8)
      (acks : List Packet) (r : ReadResult),
      foeReadLoop readLen env request fileData acks queue = some r → r.request = some request := by
    intro request queue
    induction queue with
    | nil =>
      intro fileData acks r hr
      rw [foeReadLoop] at hr
      rw [← Option.some.inj hr]
    | cons m queue ih =>
      intro fileData acks r hr
      rw [foeReadLoop] at hr
      dsimp only at hr
      split_ifs at hr
      · rw [← Option.some.inj hr]
      · exact ih _ _ _ hr
      · rw [← Option.some.inj hr]
      · rw [← Option.some.inj hr]
      · exact ih _ _ _ hr
  unfold ecFoeRead at h
  cases henv : env.error with
  | some ret =>
    rw [henv] at h
    rw [← Option.some.inj h]
    intro req hreq
    cases hreq
  | none =>
    rw [henv] at h
    intro req hreq
    rw [hloop _ _ _ _ _ h] at hreq
    exact (Option.some.inj hreq).symm

/-- What the loop sends is what had been sent before, and packets of at most `d` bytes of the file. -/
theorem foeWriteLoop_sent {w : WriteResult}
    (h : foeWriteLoop d env request file off sent queue = some w) :
    w.request = some request ∧ ∀ m ∈ w.sent, m ∈ sent ∨ ∃ n bytes, m = dataRequest n bytes ∧
      bytes.length ≤ maxPacketData ∧ bytes.length ≤ min file.length d := by
  induction queue generalizing off sent with
  | nil =>
    rw [foeWriteLoop] at h
    dsimp only at h
    split_ifs at h with hfree hfit
    · rw [← Option.some.inj h]
      exact ⟨rfl, fun m hm => Or.inl hm⟩
    · rw [← Option.some.inj h]
      refine ⟨rfl, fun m hm => ?_⟩
      rcases List.mem_append.1 hm with hm | hm
      · exact Or.inl hm
      · refine Or.inr ⟨_, _, List.mem_singleton.1 hm, ?_, ?_⟩
        all_goals rw [List.length_take, List.length_drop]; omega
  | cons a queue ih =>
    rw [foeWriteLoop] at h
    dsimp only at h
    have hnew : ∀ m ∈ sent ++ [dataRequest (sent.length + 1)
        ((file.drop off).take (min (file.length - off) d))],
        ¬ maxPacketData < min (file.length - off) d → m ∈ sent ∨ ∃ n bytes,
          m = dataRequest n bytes ∧ bytes.length ≤ maxPacketData ∧
            bytes.length ≤ min file.length d := by
      intro m hm hfit
      rcases List.mem_append.1 hm with hm | hm
      · exact Or.inl hm
      · refine Or.inr ⟨_, _, List.mem_singleton.1 hm, ?_, ?_⟩
        all_goals rw [List.length_take, List.length_drop]; omega
    split_ifs at h with hfree hfit hack hgo
    · rw [← Option.some.inj h]
      exact ⟨rfl, fun m hm => Or.inl hm⟩
    · rw [← Option.some.inj h]
      exact ⟨rfl, fun m hm => hnew m hm hfit⟩
    · obtain ⟨hreq, hsent⟩ := ih h
      refine ⟨hreq, fun m hm => ?_⟩
      rcases hsent m hm with hm | hm
      · exact hnew m hm hfit
      · exact Or.inr hm
    · rw [← Option.some.inj h]
      exact ⟨rfl, fun m hm => hnew m hm hfit⟩

theorem ecFoeWrite_sent {password : UInt32} {w : WriteResult}
    (h : ecFoeWrite readLen env password fileName file queue = some w) :
    (∀ req ∈ w.request, req = rwRequest readLen opWriteRequest password fileName) ∧
      ∀ m ∈ w.sent, ∃ n bytes, m = dataRequest n bytes ∧ bytes.length ≤ maxPacketData ∧
        bytes.length ≤ min file.length (writeDataLen readLen) := by
  unfold ecFoeWrite at h
  cases henv : env.error with
  | some ret =>
    rw [henv] at h
    rw [← Option.some.inj h]
    exact ⟨nofun, nofun⟩
  | none =>
    rw [henv] at h
    dsimp only at h
    cases queue with
    | nil =>
      rw [← Option.some.inj h]
      exact ⟨fun req hreq => (Option.some.inj hreq).symm, nofun⟩
    | cons m queue =>
      dsimp only at h
      split_ifs at h
      · rw [← Option.some.inj h]
        exact ⟨fun req hreq => (Option.some.inj hreq).symm, nofun⟩
      · obtain ⟨hreq, hsent⟩ := foeWriteLoop_sent h
        refine ⟨fun req hr => ?_, fun m hm => ?_⟩
        · rw [hreq] at hr
          exact (Option.some.inj hr).symm
        · rcases hsent m hm with hm | hm
          · cases hm
          · exact hm

/-! ## The runs that send the longest messages -/

/-- The first packet, when the write request is acknowledged and nothing else arrives. -/
theorem ecFoeWrite_first (hread : 12 < readLen.toNat) (hpool : readLen.toNat ≤ 1600)
    (fileName file : List UInt8) :
    ∃ w, ecFoeWrite readLen Env.all 0 fileName file [ackRequest 0] = some w ∧
      w.request = some (rwRequest readLen opWriteRequest 0 fileName) ∧
      w.sent = [dataRequest 1 (file.take (min file.length (readLen.toNat - 12)))] := by
  have hfit : ¬ maxPacketData < min (file.length - 0) (readLen.toNat - 12) := by
    simp only [maxPacketData, lecMaxPoolDataSize]
    omega
  rw [ecFoeWrite_cons hread 0 fileName file rfl, foeWriteLoop]
  dsimp only
  rw [if_neg hfit]
  exact ⟨_, rfl, rfl, rfl⟩

end

/-- **When FoE messages fit into the write mailbox.** -/
theorem foe_messages_fit (writeLen readLen : UInt16) (hwrite : 12 < writeLen.toNat)
    (hwritePool : writeLen.toNat ≤ 1600) (hread : 12 < readLen.toNat)
    (hreadPool : readLen.toNat ≤ 1600) (fileName file : List UInt8) :
    MessagesFit writeLen readLen fileName file ↔ Short writeLen readLen fileName file := by
  have hsend : sendLen writeLen = writeLen.toNat := Nat.min_eq_right hwritePool
  have hreq := rwRequest_size hread
  have hdata := writeDataLen_eq hread
  unfold MessagesFit Short
  rw [hsend]
  constructor
  · intro hall
    obtain ⟨w, hw, hrequest, hsent⟩ := ecFoeWrite_first hread hreadPool fileName file
    obtain ⟨hname, hpacket⟩ := (hall Env.all 0 [ackRequest 0]).2 w hw
    have hsize := hname _ hrequest
    have hfirst := hpacket _ (by rw [hsent]; exact List.mem_singleton_self _)
    have hlen : (file.take (min file.length (readLen.toNat - 12))).length =
        min file.length (readLen.toNat - 12) := by
      rw [List.length_take]
      omega
    have hpool : min file.length (readLen.toNat - 12) ≤ maxPacketData := by
      simp only [maxPacketData, lecMaxPoolDataSize]
      omega
    rw [hreq] at hsize
    rw [dataRequest_size (by rwa [hlen]), hlen] at hfirst
    omega
  · intro hshort env password queue
    have hname : ∀ op, (rwRequest readLen op password fileName).size ≤ writeLen.toNat := by
      intro op
      rw [hreq]
      omega
    constructor
    · intro r hr req hmem
      rw [ecFoeRead_request hr req hmem]
      exact hname _
    · intro w hw
      obtain ⟨hrequest, hsent⟩ := ecFoeWrite_sent hw
      refine ⟨fun req hmem => ?_, fun m hm => ?_⟩
      · rw [hrequest req hmem]
        exact hname _
      · obtain ⟨n, bytes, rfl, hpool, hle⟩ := hsent m hm
        rw [dataRequest_size hpool]
        rw [hdata] at hle
        omega

/-- Mailboxes of 128 bytes, a name of one byte, and a file of many packets. -/
theorem foe_messages_fit_equal :
    MessagesFit 128 128 [0x61] (List.replicate 1000 0) :=
  (foe_messages_fit 128 128 (by decide) (by decide) (by decide) (by decide) [0x61]
    (List.replicate 1000 0)).2 ⟨Or.inl (by decide), Or.inr (by decide)⟩

/-- A write mailbox of 64 bytes does not hold what is cut for a read mailbox of 128. -/
theorem foe_messages_not_fit :
    ¬ ∀ writeLen readLen : UInt16, 12 < writeLen.toNat → writeLen.toNat ≤ 1600 →
      12 < readLen.toNat → readLen.toNat ≤ 1600 → ∀ fileName file,
        MessagesFit writeLen readLen fileName file := by
  intro hall
  obtain ⟨w, hw, -, hsent⟩ := ecFoeWrite_first (show 12 < (128 : UInt16).toNat by decide)
    (by decide) [0x61]
    (List.replicate 100 0)
  have hfit := ((hall 64 128 (by decide) (by decide) (by decide) (by decide) [0x61]
    (List.replicate 100 0)) Env.all 0 [ackRequest 0]).2 w hw
  have hfirst := hfit.2 _ (by rw [hsent]; exact List.mem_singleton_self _)
  revert hfirst
  decide

end LibEthercat.Foe
