import Mathlib.Data.List.Chain
import LibEthercat.Coe.Message

/-!
# How much an SDO upload copies

`ec_coe_sdo_read` waits for messages until one of them is an abort or has the data. `*len` is the
room in the buffer before, and the size of the data afterwards; the size is the one that the slave
gives in the SDO header.

**Theorem (`sdoRead_bounded_iff`).** The call keeps within the buffer and within the message
just if the message that it takes (`Taken`) does. That need not be so: the size that was too large
for the buffer is in `*len` when the next message comes (`secondResponse_not_bounded`).
-/

namespace LibEthercat.Coe

/-! ## The call -/

/-- A `memcpy` into the caller's buffer: `bytes` bytes of a message, from `offset` on. -/
structure Copy where
  message : Message
  offset : ℕ
  bytes : ℕ

/-- What the caller sees: the return value, `*len`, `*abort_code` and what has been copied. -/
structure SdoRead where
  ret : Ret
  len : ℕ
  abortCode : ℕ
  copies : List Copy

/-- The size of the data, and where they begin. -/
def dataSize (m : Message) : ℕ := if transferType m ≠ 0 then 4 - dataSetSize m else completeSize m

def dataOffset (m : Message) : ℕ := if transferType m ≠ 0 then 12 else 16

/-- One round of the loop. -/
def sdoReadAnswer (c : SdoRead) (m : Message) : SdoRead :=
  match answer m with
  | .abort => { c with ret := .mailboxAbort, abortCode := abortCode m }
  | .response =>
    if c.len < dataSize m then
      { c with ret := .mailboxBufferTooSmall, len := dataSize m, abortCode := 0 }
    else
      { ret := .ok
        len := dataSize m
        abortCode := 0
        copies := c.copies ++ [⟨m, dataOffset m, dataSize m⟩] }
  | .unexpected => { c with ret := .mailboxRead }

/-- The loop over the messages that `ec_coe_wait` returns until it returns none. -/
def sdoReadLoop (c : SdoRead) : List Message → SdoRead
  | [] => c
  | m :: msgs =>
    let c := sdoReadAnswer c m
    if c.ret = .ok ∨ c.ret = .mailboxAbort then c else sdoReadLoop c msgs

/-- `ec_coe_sdo_read`. It sets `*abort_code` if there is such a slave. -/
def sdoRead (ready : Ready) (len abortCode : ℕ) (msgs : List Message) : SdoRead :=
  match ready.error with
  | some ret => ⟨ret, len, if ready.slave then 0 else abortCode, []⟩
  | none => sdoReadLoop ⟨.mailboxTimeout, len, 0, []⟩ msgs

/-! ## Property and condition -/

/-- The data lie in the payload of their message. -/
def Inside (m : Message) (offset bytes : ℕ) : Prop :=
  ∀ i < bytes, 6 ≤ offset + i ∧ offset + i < 6 + mbxLength m

/-- The call writes no more than `len` bytes, and data that it returns lie in their message. -/
structure Bounded (len : ℕ) (c : SdoRead) : Prop where
  buffer : ∀ d ∈ c.copies, d.bytes ≤ len
  message : c.ret = .ok → ∃ d ∈ c.copies, d.bytes = c.len ∧ Inside d.message d.offset d.bytes

/-- The sizes in the SDO responses among these messages. -/
def sizes (msgs : List Message) : List ℕ :=
  (msgs.filter fun m => answer m = .response).map dataSize

/-- After the messages `pre`, the message `m` is the first SDO response that is not larger than the
one before it, the first of all being compared with `len`, and no abort was among them. -/
structure Taken (len : ℕ) (pre : List Message) (m : Message) : Prop where
  noAbort : ∀ x ∈ pre, answer x ≠ .abort
  growing : (len :: sizes pre).IsChain (· < ·)
  response : answer m = .response
  fits : dataSize m ≤ (sizes pre).getLastD len

/-! ## The loop -/

section
variable {len : ℕ} {c : SdoRead} {m x : Message} {pre msgs : List Message}

theorem taken_nil : Taken len [] m ↔ answer m = .response ∧ dataSize m ≤ len := by
  constructor
  · rintro ⟨-, -, hresponse, hfits⟩
    exact ⟨hresponse, hfits⟩
  · rintro ⟨hresponse, hfits⟩
    exact ⟨by simp, by simp [sizes], hresponse, hfits⟩

theorem taken_cons_response (hx : answer x = .response) :
    Taken len (x :: pre) m ↔ len < dataSize x ∧ Taken (dataSize x) pre m := by
  have hsizes : sizes (x :: pre) = dataSize x :: sizes pre := by simp [sizes, hx]
  constructor
  · rintro ⟨hno, hgrow, hresponse, hfits⟩
    rw [hsizes, List.isChain_cons_cons] at hgrow
    rw [hsizes, List.getLastD_cons] at hfits
    exact ⟨hgrow.1, fun y hy => hno y (List.mem_cons_of_mem x hy), hgrow.2, hresponse, hfits⟩
  · rintro ⟨hlt, hno, hgrow, hresponse, hfits⟩
    refine ⟨fun y hy => ?_, ?_, hresponse, ?_⟩
    · rcases List.mem_cons.1 hy with rfl | hy
      · simp [hx]
      · exact hno y hy
    · rw [hsizes, List.isChain_cons_cons]
      exact ⟨hlt, hgrow⟩
    · rwa [hsizes, List.getLastD_cons]

theorem taken_cons_unexpected (hx : answer x = .unexpected) :
    Taken len (x :: pre) m ↔ Taken len pre m := by
  have hsizes : sizes (x :: pre) = sizes pre := by simp [sizes, hx]
  constructor
  · rintro ⟨hno, hgrow, hresponse, hfits⟩
    exact ⟨fun y hy => hno y (List.mem_cons_of_mem x hy), hsizes ▸ hgrow, hresponse, hsizes ▸ hfits⟩
  · rintro ⟨hno, hgrow, hresponse, hfits⟩
    refine ⟨fun y hy => ?_, hsizes ▸ hgrow, hresponse, hsizes ▸ hfits⟩
    rcases List.mem_cons.1 hy with rfl | hy
    · simp [hx]
    · exact hno y hy

theorem not_taken_cons_abort (hx : answer x = .abort) : ¬ Taken len (x :: pre) m := fun h =>
  h.noAbort x List.mem_cons_self hx

/-- The call ends with the message that it takes. -/
theorem sdoReadLoop_taken (post : List Message) (h : Taken c.len pre m) :
    sdoReadLoop c (pre ++ m :: post) =
      ⟨.ok, dataSize m, 0, c.copies ++ [⟨m, dataOffset m, dataSize m⟩]⟩ := by
  induction pre generalizing c with
  | nil =>
    obtain ⟨hresponse, hfits⟩ := taken_nil.1 h
    simp [sdoReadLoop, sdoReadAnswer, hresponse, Nat.not_lt.2 hfits]
  | cons x pre ih =>
    rw [List.cons_append]
    cases hx : answer x with
    | abort => exact absurd h (not_taken_cons_abort hx)
    | response =>
      obtain ⟨hlt, hrest⟩ := (taken_cons_response hx).1 h
      have hround : sdoReadAnswer c x = ⟨.mailboxBufferTooSmall, dataSize x, 0, c.copies⟩ := by
        simp [sdoReadAnswer, hx, hlt]
      simp only [sdoReadLoop, hround, reduceCtorEq, or_self, if_false]
      exact ih hrest
    | unexpected =>
      have hround : sdoReadAnswer c x = { c with ret := .mailboxRead } := by
        simp [sdoReadAnswer, hx]
      simp only [sdoReadLoop, hround, reduceCtorEq, or_self, if_false]
      exact ih ((taken_cons_unexpected hx).1 h)

/-- Without such a message it copies nothing and fails. -/
theorem sdoReadLoop_not_taken (hret : c.ret ≠ .ok)
    (h : ∀ pre m post, msgs = pre ++ m :: post → ¬ Taken c.len pre m) :
    (sdoReadLoop c msgs).ret ≠ .ok ∧ (sdoReadLoop c msgs).copies = c.copies := by
  induction msgs generalizing c with
  | nil => exact ⟨hret, rfl⟩
  | cons x msgs ih =>
    have hrest : ∀ {len : ℕ}, (∀ pre m, Taken len pre m → Taken c.len (x :: pre) m) →
        ∀ pre m post, msgs = pre ++ m :: post → ¬ Taken len pre m := by
      intro len hcons pre m post heq htaken
      exact h (x :: pre) m post (by rw [heq, List.cons_append]) (hcons pre m htaken)
    cases hx : answer x with
    | abort =>
      have hround : sdoReadAnswer c x = { c with ret := .mailboxAbort, abortCode := abortCode x } := by
        simp [sdoReadAnswer, hx]
      simp [sdoReadLoop, hround]
    | response =>
      have hlt : c.len < dataSize x := by
        by_contra hle
        exact h [] x msgs rfl (taken_nil.2 ⟨hx, Nat.not_lt.1 hle⟩)
      have hround : sdoReadAnswer c x = ⟨.mailboxBufferTooSmall, dataSize x, 0, c.copies⟩ := by
        simp [sdoReadAnswer, hx, hlt]
      simp only [sdoReadLoop, hround, reduceCtorEq, or_self, if_false]
      exact ih (c := ⟨.mailboxBufferTooSmall, dataSize x, 0, c.copies⟩) (by simp)
        (hrest fun pre m htaken => (taken_cons_response hx).2 ⟨hlt, htaken⟩)
    | unexpected =>
      have hround : sdoReadAnswer c x = { c with ret := .mailboxRead } := by
        simp [sdoReadAnswer, hx]
      simp only [sdoReadLoop, hround, reduceCtorEq, or_self, if_false]
      exact ih (c := { c with ret := .mailboxRead }) (by simp)
        (hrest fun pre m htaken => (taken_cons_unexpected hx).2 htaken)

end

/-! ## Every sequence of messages -/

/-- **An upload keeps within the buffer and within the message**, just if the message that it takes
has no more data than there is room, and has them in its payload. -/
theorem sdoRead_bounded_iff (ready : Ready) (len abortCode : ℕ) (msgs : List Message) :
    Bounded len (sdoRead ready len abortCode msgs) ↔
      (ready.error = none → ∀ pre m post, msgs = pre ++ m :: post → Taken len pre m →
        dataSize m ≤ len ∧ Inside m (dataOffset m) (dataSize m)) := by
  unfold sdoRead
  cases herror : ready.error with
  | some ret =>
    exact iff_of_true ⟨by simp, fun hok => absurd hok (Ready.error_ne_ok herror)⟩ (by simp)
  | none =>
    constructor
    · rintro ⟨hbuffer, hmessage⟩ - pre m post rfl htaken
      rw [sdoReadLoop_taken (c := ⟨.mailboxTimeout, len, 0, []⟩) post htaken] at hbuffer hmessage
      obtain ⟨d, hd, -, hinside⟩ := hmessage rfl
      obtain rfl : d = ⟨m, dataOffset m, dataSize m⟩ := by simpa using hd
      exact ⟨hbuffer _ hd, hinside⟩
    · intro h
      by_cases htaken : ∃ pre m post, msgs = pre ++ m :: post ∧ Taken len pre m
      · obtain ⟨pre, m, post, rfl, htaken⟩ := htaken
        obtain ⟨hle, hinside⟩ := h rfl pre m post rfl htaken
        rw [sdoReadLoop_taken (c := ⟨.mailboxTimeout, len, 0, []⟩) post htaken]
        exact ⟨by simpa using hle, fun _ => ⟨_, List.mem_singleton_self _, rfl, hinside⟩⟩
      · have hnot : ∀ pre m post, msgs = pre ++ m :: post → ¬ Taken len pre m :=
          fun pre m post heq ht => htaken ⟨pre, m, post, heq, ht⟩
        obtain ⟨hret, hcopies⟩ :=
          sdoReadLoop_not_taken (c := ⟨.mailboxTimeout, len, 0, []⟩) (by simp) hnot
        exact ⟨by simp [hcopies], fun hok => absurd hok hret⟩

/-- An upload response with 8 bytes of data, for index 0x1018 and sub-index 1. -/
def eightBytes : Message := fun i =>
  [18, 0, 0, 0, 0, 3, 0, 0x30, 0x41, 0x18, 0x10, 1, 8, 0, 0, 0, 1, 2, 3, 4, 5, 6, 7, 8].getD i 0

/-- It comes twice: too large for the 4 bytes of the buffer first, and copied then. -/
theorem secondResponse_not_bounded :
    ¬ ∀ ready len abortCode msgs, Bounded len (sdoRead ready len abortCode msgs) := by
  intro hall
  have hbuffer := (hall .all 4 0 [eightBytes, eightBytes]).buffer
    ⟨eightBytes, 16, 8⟩ (List.mem_singleton_self _)
  revert hbuffer
  decide

end LibEthercat.Coe
