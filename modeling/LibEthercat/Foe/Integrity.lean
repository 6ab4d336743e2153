import LibEthercat.Foe.Transfer
import Mathlib.Data.List.Flatten

/-!
# Packet numbers of a transfer

A data packet carries its number, and an acknowledge the number of the packet it answers.
`ec_foe_read` gives the numbers back in its acknowledges, `ec_foe_write` counts them up, and neither
looks at the numbers it receives.

**Theorem (`foe_integrity`).** A file that is read is put together from the packets 1, 2, ..., n,
each taken once and in order, exactly when the queue holds no other data packets in front of its
first short one (`InSequence`); every packet that is written has its acknowledge exactly when the
messages that come have the numbers (`AcksMatch`).
-/

namespace LibEthercat.Foe

open Chunks

variable {smLen : UInt16} {env : Env} {request : RwRequest}

/-! ## What the reader takes -/

/-- The data packets among the messages. -/
def dataOf (ms : List Packet) : List Packet := ms.filter Packet.isData

/-- The messages that the reader takes without an end, after `n` packets: no error, data packets
that fill the mailbox, and send buffers for all the acknowledges. -/
structure Passed (smLen : UInt16) (env : Env) (n : ℕ) (ms : List Packet) : Prop where
  noError : ∀ m ∈ ms, m.isError = false
  full : ∀ m ∈ dataOf ms, m.isShort smLen = false
  fits : ∀ m ∈ dataOf ms, m.dataLen ≤ maxPacketData
  acked : ∀ k < (dataOf ms).length, env.sendFree (n + 1 + k) = true

theorem Passed.nil (smLen : UInt16) (env : Env) (n : ℕ) : Passed smLen env n [] :=
  ⟨by simp, by simp [dataOf], by simp [dataOf], by simp [dataOf]⟩

theorem dataOf_cons_of_data {m : Packet} (hm : m.isData = true) (ms : List Packet) :
    dataOf (m :: ms) = m :: dataOf ms := List.filter_cons_of_pos hm

theorem dataOf_cons_of_other {m : Packet} (hm : m.isData = false) (ms : List Packet) :
    dataOf (m :: ms) = dataOf ms := List.filter_cons_of_neg (by simp [hm])

theorem passed_cons_of_other {m : Packet} {ms : List Packet} {n : ℕ} (hm : m.isData = false)
    (he : m.isError = false) : Passed smLen env n (m :: ms) ↔ Passed smLen env n ms := by
  constructor
  · intro h
    have hd := dataOf_cons_of_other hm ms
    exact ⟨fun x hx => h.noError x (List.mem_cons_of_mem m hx), hd ▸ h.full, hd ▸ h.fits,
      hd ▸ h.acked⟩
  · intro h
    refine ⟨fun x hx => ?_, ?_, ?_, ?_⟩
    · rcases List.mem_cons.1 hx with rfl | hx
      · exact he
      · exact h.noError x hx
    · rw [dataOf_cons_of_other hm]
      exact h.full
    · rw [dataOf_cons_of_other hm]
      exact h.fits
    · rw [dataOf_cons_of_other hm]
      exact h.acked

theorem passed_cons_of_data {m : Packet} {ms : List Packet} {n : ℕ} (hm : m.isData = true)
    (he : m.isError = false) :
    Passed smLen env n (m :: ms) ↔
      m.isShort smLen = false ∧ m.dataLen ≤ maxPacketData ∧ env.sendFree (n + 1) = true ∧
        Passed smLen env (n + 1) ms := by
  have hd := dataOf_cons_of_data hm ms
  constructor
  · intro h
    refine ⟨h.full m (by rw [hd]; exact List.mem_cons_self),
      h.fits m (by rw [hd]; exact List.mem_cons_self), h.acked 0 (by rw [hd]; simp),
      fun x hx => h.noError x (List.mem_cons_of_mem m hx),
      fun x hx => h.full x (by rw [hd]; exact List.mem_cons_of_mem m hx),
      fun x hx => h.fits x (by rw [hd]; exact List.mem_cons_of_mem m hx), fun k hk => ?_⟩
    have := h.acked (k + 1) (by rw [hd, List.length_cons]; omega)
    rwa [show n + 1 + (k + 1) = n + 1 + 1 + k by omega] at this
  · intro h
    obtain ⟨hshort, hfit, hfree, h⟩ := h
    refine ⟨fun x hx => ?_, fun x hx => ?_, fun x hx => ?_, fun k hk => ?_⟩
    · rcases List.mem_cons.1 hx with rfl | hx
      · exact he
      · exact h.noError x hx
    · rw [hd] at hx
      rcases List.mem_cons.1 hx with rfl | hx
      · exact hshort
      · exact h.full x hx
    · rw [hd] at hx
      rcases List.mem_cons.1 hx with rfl | hx
      · exact hfit
      · exact h.fits x hx
    · cases k with
      | zero => exact hfree
      | succ k =>
        rw [hd, List.length_cons] at hk
        have := h.acked k (by omega)
        rwa [show n + 1 + 1 + k = n + 1 + (k + 1) by omega] at this

theorem isError_of_isData {m : Packet} (hm : m.isData = true) : m.isError = false := by
  simp only [Packet.isData, Packet.isError, beq_iff_eq, opDataRequest] at hm ⊢
  rw [hm]
  rfl

/-- What the reader does with a message: it gives up, it leaves it out, it has no result, it has
found the last packet, or it goes on behind a packet. -/
theorem foeReadLoop_cons (smLen : UInt16) (env : Env) (request : RwRequest) (m : Packet)
    (queue : List Packet) (fileData : List UInt8) (acks : List Packet) :
    (∃ r, r.ret ≠ .ok ∧ foeReadLoop smLen env request fileData acks (m :: queue) = some r) ∨
    (m.isError = false ∧ m.isData = false ∧
      foeReadLoop smLen env request fileData acks (m :: queue) =
        foeReadLoop smLen env request fileData acks queue) ∨
    (m.isData = true ∧ maxPacketData < m.dataLen ∧
      foeReadLoop smLen env request fileData acks (m :: queue) = none) ∨
    (m.isData = true ∧ m.dataLen ≤ maxPacketData ∧ env.sendFree (acks.length + 1) = true ∧
      m.isShort smLen = true ∧
      foeReadLoop smLen env request fileData acks (m :: queue) =
        some ⟨.ok, fileData ++ m.payload, none, some request, acks ++ [ackRequest m.packetNr],
          queue⟩) ∨
    (m.isData = true ∧ m.dataLen ≤ maxPacketData ∧ env.sendFree (acks.length + 1) = true ∧
      m.isShort smLen = false ∧
      foeReadLoop smLen env request fileData acks (m :: queue) =
        foeReadLoop smLen env request (fileData ++ m.payload)
          (acks ++ [ackRequest m.packetNr]) queue) := by
  rw [foeReadLoop]
  cases he : m.isError with
  | true => exact Or.inl ⟨_, by simp, rfl⟩
  | false =>
    cases hm : m.isData with
    | false => exact Or.inr (Or.inl ⟨rfl, rfl, rfl⟩)
    | true =>
      by_cases hfit : maxPacketData < m.dataLen
      · exact Or.inr (Or.inr (Or.inl ⟨rfl, hfit, by rw [if_pos hfit]; rfl⟩))
      · have hle := Nat.le_of_not_lt hfit
        rw [if_neg hfit]
        cases hfree : env.sendFree (acks.length + 1) with
        | false => exact Or.inl ⟨_, by simp, rfl⟩
        | true =>
          cases hshort : m.isShort smLen with
          | true => exact Or.inr (Or.inr (Or.inr (Or.inl ⟨rfl, hle, rfl, rfl, rfl⟩)))
          | false => exact Or.inr (Or.inr (Or.inr (Or.inr ⟨rfl, hle, rfl, rfl, rfl⟩)))

/-- The messages that pass are gone through. -/
theorem foeReadLoop_passed {ms : List Packet} (queue : List Packet) {fileData : List UInt8}
    {acks : List Packet} (h : Passed smLen env acks.length ms) :
    foeReadLoop smLen env request fileData acks (ms ++ queue) =
      foeReadLoop smLen env request (fileData ++ (dataOf ms).flatMap Packet.payload)
        (acks ++ (dataOf ms).map fun m => ackRequest m.packetNr) queue := by
  induction ms generalizing fileData acks with
  | nil => simp [dataOf]
  | cons m ms ih =>
    have he := h.noError m List.mem_cons_self
    rw [List.cons_append, foeReadLoop, he]
    cases hm : m.isData with
    | false =>
      rw [dataOf_cons_of_other hm]
      exact ih ((passed_cons_of_other hm he).1 h)
    | true =>
      obtain ⟨hshort, hfit, hfree, h⟩ := (passed_cons_of_data hm he).1 h
      simp only [if_neg (Nat.not_lt.2 hfit), hshort, hfree, Bool.not_true, Bool.false_eq_true,
        if_false]
      rw [ih (by simpa using h), dataOf_cons_of_data hm]
      simp

/-- The reader at the short packet. -/
theorem foeReadLoop_short {m : Packet} (hm : m.isData = true) (hfit : m.dataLen ≤ maxPacketData)
    (hshort : m.isShort smLen = true) {acks : List Packet}
    (hfree : env.sendFree (acks.length + 1) = true) (fileData : List UInt8)
    (queue : List Packet) :
    foeReadLoop smLen env request fileData acks (m :: queue) =
      some ⟨.ok, fileData ++ m.payload, none, some request, acks ++ [ackRequest m.packetNr],
        queue⟩ := by
  rw [foeReadLoop, isError_of_isData hm, hm]
  simp only [if_neg (Nat.not_lt.2 hfit), hshort, hfree, Bool.not_true, Bool.false_eq_true,
    if_false, if_true]

/-- The last packet, behind messages that pass. -/
structure Ended (smLen : UInt16) (env : Env) (n : ℕ) (ms : List Packet) (m : Packet) : Prop where
  passed : Passed smLen env n ms
  isData : m.isData = true
  fits : m.dataLen ≤ maxPacketData
  short : m.isShort smLen = true
  acked : env.sendFree (n + (dataOf ms).length + 1) = true

/-- **A reader that returns `EC_OK`** has come to a last packet. -/
theorem foeReadLoop_ok {queue : List Packet} {fileData : List UInt8} {acks : List Packet}
    {r : ReadResult} (h : foeReadLoop smLen env request fileData acks queue = some r)
    (hok : r.ret = .ok) :
    ∃ ms m, queue = ms ++ m :: r.queue ∧ Ended smLen env acks.length ms m ∧
      r.fileData = fileData ++ (dataOf (ms ++ [m])).flatMap Packet.payload := by
  induction queue generalizing fileData acks with
  | nil =>
    rw [foeReadLoop] at h
    rw [← Option.some.inj h] at hok
    cases hok
  | cons m queue ih =>
    rcases foeReadLoop_cons smLen env request m queue fileData acks
      with ⟨r', hr', heq⟩ | ⟨he, hm, heq⟩ | ⟨hm, hfit, heq⟩ | ⟨hm, hfit, hfree, hshort, heq⟩ |
        ⟨hm, hfit, hfree, hshort, heq⟩
    · rw [heq, Option.some.injEq] at h
      exact absurd (h ▸ hok) hr'
    · obtain ⟨ms, x, hq, hend, hdata⟩ := ih (heq ▸ h)
      refine ⟨m :: ms, x, by rw [hq]; rfl, ?_, ?_⟩
      · refine ⟨(passed_cons_of_other hm he).2 hend.passed, hend.isData, hend.fits, hend.short, ?_⟩
        rw [dataOf_cons_of_other hm]
        exact hend.acked
      · rw [List.cons_append, dataOf_cons_of_other hm]
        exact hdata
    · rw [heq] at h
      cases h
    · rw [heq, Option.some.injEq] at h
      refine ⟨[], m, by rw [← h]; rfl, ⟨Passed.nil smLen env _, hm, hfit, hshort, hfree⟩, ?_⟩
      rw [← h, List.nil_append, dataOf_cons_of_data hm]
      simp [dataOf]
    · obtain ⟨ms, x, hq, hend, hdata⟩ := ih (heq ▸ h)
      rw [List.length_append, List.length_singleton] at hend
      refine ⟨m :: ms, x, by rw [hq]; rfl, ?_, ?_⟩
      · refine ⟨(passed_cons_of_data hm (isError_of_isData hm)).2 ⟨hshort, hfit, hfree, hend.passed⟩,
          hend.isData, hend.fits, hend.short, ?_⟩
        rw [dataOf_cons_of_data hm, List.length_cons, ← hend.acked]
        congr 1
        omega
      · rw [hdata, List.cons_append, dataOf_cons_of_data hm, List.flatMap_cons, List.append_assoc]

/-- **A reader without a result** has come to a packet that does not fit, behind messages that
pass. -/
theorem foeReadLoop_none {queue : List Packet} {fileData : List UInt8} {acks : List Packet}
    (h : foeReadLoop smLen env request fileData acks queue = none) :
    ∃ ms m rest, queue = ms ++ m :: rest ∧ Passed smLen env acks.length ms ∧ m.isData = true ∧
      maxPacketData < m.dataLen := by
  induction queue generalizing fileData acks with
  | nil => cases h
  | cons m queue ih =>
    rcases foeReadLoop_cons smLen env request m queue fileData acks
      with ⟨r', -, heq⟩ | ⟨he, hm, heq⟩ | ⟨hm, hfit, -⟩ | ⟨-, -, -, -, heq⟩ |
        ⟨hm, hfit, hfree, hshort, heq⟩
    · rw [heq] at h
      cases h
    · obtain ⟨ms, x, rest, hq, hpass, hx, hlt⟩ := ih (heq ▸ h)
      exact ⟨m :: ms, x, rest, by rw [hq]; rfl, (passed_cons_of_other hm he).2 hpass, hx, hlt⟩
    · exact ⟨[], m, queue, rfl, Passed.nil smLen env _, hm, hfit⟩
    · rw [heq] at h
      cases h
    · obtain ⟨ms, x, rest, hq, hpass, hx, hlt⟩ := ih (heq ▸ h)
      rw [List.length_append, List.length_singleton] at hpass
      exact ⟨m :: ms, x, rest, by rw [hq]; rfl,
        (passed_cons_of_data hm (isError_of_isData hm)).2 ⟨hshort, hfit, hfree, hpass⟩, hx, hlt⟩

/-! ## The packets a file is made of -/

/-- The packets have the numbers 1, 2, .... -/
def Numbered (ps : List Packet) : Prop :=
  ps.map (fun m => m.packetNr.toNat) = List.range' 1 ps.length

instance (ps : List Packet) : Decidable (Numbered ps) := inferInstanceAs (Decidable (_ = _))

/-- A call that returns `EC_OK` only with a file that is made of packets 1, 2, ..., n, each of
them received, taken once and in order. -/
def ReadIntegrity (smLen : UInt16) (env : Env) (password : UInt32) (fileName : List UInt8)
    (queue : List Packet) : Prop :=
  ∃ r, ecFoeRead smLen env password fileName queue = some r ∧
    (r.ret = .ok →
      ∃ received ps, queue = received ++ r.queue ∧ ps.Sublist received ∧
        (∀ m ∈ ps, m.isData = true) ∧ Numbered ps ∧ r.fileData = ps.flatMap Packet.payload)

/-- The data packets that fit, up to the first short one, have the numbers 1, 2, ...; a last packet
without data may have any number. -/
def InSequence (smLen : UInt16) (env : Env) (queue : List Packet) : Prop :=
  env.error = none → ∀ ms m rest, queue = ms ++ m :: rest → Passed smLen env 0 ms →
    m.isData = true → m.dataLen ≤ maxPacketData ∧
      (m.isShort smLen = true → env.sendFree ((dataOf ms).length + 1) = true →
        Numbered (dataOf ms ++ [m]) ∨ m.dataLen = 0 ∧ Numbered (dataOf ms))

section Sublist

variable {α β : Type*} {f : α → List β}

/-- A sublist that gives as much has left out nothing. -/
theorem eq_of_sublist_of_flatMap {l l' : List α} (h : l.Sublist l') (hf : ∀ x ∈ l', f x ≠ [])
    (hlen : (l'.flatMap f).length ≤ (l.flatMap f).length) : l = l' := by
  induction h with
  | slnil => rfl
  | cons a h ih =>
    have hle := (h.flatMap f).length_le
    have ha := List.length_pos_iff.2 (hf a List.mem_cons_self)
    rw [List.flatMap_cons, List.length_append] at hlen
    omega
  | cons_cons a h ih =>
    rw [List.flatMap_cons, List.flatMap_cons, List.length_append, List.length_append] at hlen
    rw [ih (fun x hx => hf x (List.mem_cons_of_mem a hx)) (by omega)]

/-- The last element may give nothing. -/
theorem sublist_concat_of_flatMap {l l' : List α} {a : α} (h : l.Sublist (l' ++ [a]))
    (hf : ∀ x ∈ l', f x ≠ []) (heq : l.flatMap f = (l' ++ [a]).flatMap f) :
    l = l' ++ [a] ∨ f a = [] ∧ l = l' := by
  obtain ⟨l₁, l₂, rfl, h₁, h₂⟩ := List.sublist_append_iff.1 h
  have hlen := congrArg List.length heq
  rw [List.flatMap_append, List.flatMap_append, List.length_append, List.length_append,
    List.flatMap_singleton] at hlen
  have hle := (h₁.flatMap f).length_le
  rcases List.sublist_singleton.1 h₂ with rfl | rfl
  · rw [List.flatMap_nil, List.length_nil] at hlen
    have hl := eq_of_sublist_of_flatMap h₁ hf (by omega)
    exact Or.inr ⟨List.eq_nil_of_length_eq_zero (by omega), by rw [hl, List.append_nil]⟩
  · rw [List.flatMap_singleton] at hlen
    exact Or.inl (by rw [eq_of_sublist_of_flatMap h₁ hf (by omega)])

end Sublist

theorem length_payload (m : Packet) : m.payload.length = m.dataLen := by
  rw [Packet.payload, List.length_map, List.length_range]

/-- Where there is a short packet, packets that fill the mailbox are not empty. -/
theorem Ended.payload_ne_nil {n : ℕ} {ms : List Packet} {m : Packet}
    (h : Ended smLen env n ms m) : ∀ x ∈ dataOf ms, x.payload ≠ [] := by
  intro x hx
  have hshort := h.short
  have hfull := h.passed.full x hx
  have hfit := h.fits
  have hfit' := h.passed.fits x hx
  have hm := m.length.toNat_lt
  have hx := x.length.toNat_lt
  have hs := smLen.toNat_lt
  rw [← List.length_pos_iff, length_payload]
  simp only [Packet.isShort, Packet.dataLen, maxPacketData, lecMaxPoolDataSize, decide_eq_true_eq,
    decide_eq_false_iff_not] at *
  omega

theorem dataOf_append (ms ms' : List Packet) : dataOf (ms ++ ms') = dataOf ms ++ dataOf ms' :=
  List.filter_append ..

theorem dataOf_concat {m : Packet} (hm : m.isData = true) (ms : List Packet) :
    dataOf (ms ++ [m]) = dataOf ms ++ [m] := by
  rw [dataOf_append, dataOf_cons_of_data hm]
  rfl

/-- The reader, behind a request that was sent. -/
theorem ecFoeRead_eq (henv : env.error = none) (password : UInt32) (fileName : List UInt8)
    (queue : List Packet) :
    ecFoeRead smLen env password fileName queue =
      foeReadLoop smLen env (rwRequest smLen opReadRequest password fileName) [] [] queue := by
  rw [ecFoeRead, henv]

theorem Env.error_ne_ok {ret : Ret} (h : env.error = some ret) : ret ≠ .ok := by
  unfold Env.error at h
  split_ifs at h <;> cases h <;> simp

/-- What the reader has put together when it has come to a last packet. -/
theorem ecFoeRead_ended {ms : List Packet} (rest : List Packet) {m : Packet}
    (henv : env.error = none) (h : Ended smLen env 0 ms m) (password : UInt32)
    (fileName : List UInt8) :
    ∃ r, ecFoeRead smLen env password fileName (ms ++ m :: rest) = some r ∧ r.ret = .ok ∧
      r.queue = rest ∧ r.fileData = (dataOf ms ++ [m]).flatMap Packet.payload := by
  have hacked := h.acked
  rw [ecFoeRead_eq henv, foeReadLoop_passed _ h.passed]
  refine ⟨_, foeReadLoop_short h.isData h.fits h.short ?_ _ rest, rfl, rfl, ?_⟩
  · simpa using hacked
  · simp

/-- A transfer that goes wrong with a packet that is out of sequence would still be `EC_OK`: the
reader takes any short packet for the end of the file. -/
theorem ReadIntegrity.inSequence {password : UInt32} {fileName : List UInt8} {queue : List Packet}
    (h : ReadIntegrity smLen env password fileName queue) : InSequence smLen env queue := by
  intro henv ms m rest hq hpass hm
  obtain ⟨r, hr, hok⟩ := h
  have hfit : m.dataLen ≤ maxPacketData := by
    by_contra hlt
    rw [hq, ecFoeRead_eq henv, foeReadLoop_passed _ hpass, foeReadLoop, isError_of_isData hm, hm,
      if_pos (Nat.lt_of_not_le hlt)] at hr
    cases hr
  refine ⟨hfit, fun hshort hfree => ?_⟩
  have hend : Ended smLen env 0 ms m := ⟨hpass, hm, hfit, hshort, by rwa [Nat.zero_add]⟩
  obtain ⟨r', hr', hret, hrest, hdata⟩ :=
    ecFoeRead_ended rest henv hend password fileName
  rw [hq, hr', Option.some.injEq] at hr
  subst hr
  obtain ⟨received, ps, hsplit, hsub, hps, hnum, hfile⟩ := hok hret
  have hrec : received = ms ++ [m] := by
    apply @List.append_cancel_right _ _ rest
    rw [← hrest, ← hsplit, hrest, hq, List.append_assoc]
    rfl
  have hsub' : ps.Sublist (dataOf ms ++ [m]) := by
    have := hsub.filter Packet.isData
    rw [List.filter_eq_self.2 hps, hrec] at this
    rwa [← dataOf_concat hm]
  rcases sublist_concat_of_flatMap hsub' hend.payload_ne_nil (by rw [← hfile, hdata])
    with rfl | ⟨hnil, rfl⟩
  · exact Or.inl hnum
  · exact Or.inr ⟨by rw [← length_payload, hnil]; rfl, hnum⟩

/-- The packets of a transfer that has ended are data packets among the messages received. -/
theorem Ended.dataOf_sublist {n : ℕ} {ms : List Packet} {m : Packet} (h : Ended smLen env n ms m) :
    (dataOf ms ++ [m]).Sublist (ms ++ [m]) ∧ ∀ x ∈ dataOf ms ++ [m], x.isData = true := by
  rw [← dataOf_concat h.isData]
  exact ⟨List.filter_sublist, fun x hx => (List.mem_filter.1 hx).2⟩

theorem InSequence.readIntegrity {queue : List Packet} (h : InSequence smLen env queue)
    (password : UInt32) (fileName : List UInt8) :
    ReadIntegrity smLen env password fileName queue := by
  cases henv : env.error with
  | some ret =>
    refine ⟨_, by rw [ecFoeRead, henv], fun hok => ?_⟩
    exact absurd hok (Env.error_ne_ok henv)
  | none =>
    cases hr : ecFoeRead smLen env password fileName queue with
    | none =>
      rw [ecFoeRead_eq henv] at hr
      obtain ⟨ms, m, rest, hq, hpass, hm, hlt⟩ := foeReadLoop_none hr
      have := (h henv ms m rest hq hpass hm).1
      omega
    | some r =>
      refine ⟨r, hr, fun hok => ?_⟩
      rw [ecFoeRead_eq henv] at hr
      obtain ⟨ms, m, hq, hend, hdata⟩ := foeReadLoop_ok hr hok
      have hacked := hend.acked
      rw [List.length_nil, Nat.zero_add] at hacked
      rw [List.nil_append, dataOf_concat hend.isData] at hdata
      obtain ⟨hsub, hall⟩ := hend.dataOf_sublist
      have hsplit : queue = (ms ++ [m]) ++ r.queue := by
        rw [List.append_assoc]
        exact hq
      rcases (h henv ms m _ hq hend.passed hend.isData).2 hend.short hacked
        with hnum | ⟨hlen, hnum⟩
      · exact ⟨_, _, hsplit, hsub, hall, hnum, hdata⟩
      · refine ⟨_, dataOf ms, hsplit, (List.sublist_append_left _ _).trans hsub,
          fun x hx => hall x (List.mem_append_left _ hx), hnum, ?_⟩
        have hnil : m.payload = [] := List.eq_nil_of_length_eq_zero (by rw [length_payload, hlen])
        rw [hdata, List.flatMap_append, List.flatMap_singleton, hnil, List.append_nil]

/-- **When a file is made of packets 1, 2, ..., n.** -/
theorem readIntegrity_iff (smLen : UInt16) (env : Env) (password : UInt32)
    (fileName : List UInt8) (queue : List Packet) :
    ReadIntegrity smLen env password fileName queue ↔ InSequence smLen env queue :=
  ⟨fun h => h.inSequence, fun h => h.readIntegrity password fileName⟩

/-! ## The packets that are acknowledged -/

section Write

variable {file : List UInt8} {d off : ℕ} {sent queue : List Packet} {w : WriteResult}

/-- What the writer does with a packet: it gives up, it has no result, or it has an acknowledge,
and goes on or is done. -/
theorem foeWriteLoop_cases (d : ℕ) (env : Env) (request : RwRequest) (file : List UInt8) (off : ℕ)
    (sent queue : List Packet) :
    (∃ w, w.ret ≠ .ok ∧ foeWriteLoop d env request file off sent queue = some w) ∨
    (maxPacketData < min (file.length - off) d ∧
      foeWriteLoop d env request file off sent queue = none) ∨
    ∃ m rest, queue = m :: rest ∧ m.isAck = true ∧ env.sendFree (sent.length + 1) = true ∧
      (d < file.length - off ∧
          foeWriteLoop d env request file off sent queue =
            foeWriteLoop d env request file (off + d)
              (sent ++ [dataRequest (sent.length + 1) ((file.drop off).take d)]) rest ∨
        file.length - off ≤ d ∧
          foeWriteLoop d env request file off sent queue =
            some ⟨.ok, none, some request, sent ++ [dataRequest (sent.length + 1) (file.drop off)],
              rest⟩) := by
  have hrest : (file.drop off).length = file.length - off := List.length_drop
  cases hfree : env.sendFree (sent.length + 1) with
  | false =>
    refine Or.inl ⟨⟨.unavailable, none, some request, sent, queue⟩, by simp, ?_⟩
    rw [foeWriteLoop, hfree, Bool.not_false, if_pos rfl]
  | true =>
    by_cases hfit : maxPacketData < min (file.length - off) d
    · exact Or.inr (Or.inl ⟨hfit, foeWriteLoop_overflow hfree hfit⟩)
    · cases queue with
      | nil =>
        rw [foeWriteLoop]
        simp only [hfree, Bool.not_true, Bool.false_eq_true, if_false, if_neg hfit]
        exact Or.inl ⟨_, by simp, rfl⟩
      | cons m rest =>
        rw [foeWriteLoop]
        simp only [hfree, Bool.not_true, Bool.false_eq_true, if_false, if_neg hfit]
        cases hm : m.isAck with
        | false =>
          refine Or.inl ⟨_, ?_, rfl⟩
          simp only [noAck]
          split_ifs <;> simp
        | true =>
          refine Or.inr (Or.inr ⟨m, rest, rfl, hm, trivial, ?_⟩)
          simp only [Bool.not_true, Bool.false_eq_true, if_false]
          by_cases hlt : d < file.length - off
          · have hmin : min (file.length - off) d = d := by omega
            exact Or.inl ⟨hlt, by rw [hmin, if_pos (by omega)]⟩
          · have hmin : min (file.length - off) d = file.length - off := by omega
            refine Or.inr ⟨by omega, ?_⟩
            rw [hmin, if_neg (by omega), List.take_of_length_le (by omega)]

/-- **A writer that returns `EC_OK`** has sent all chunks, and taken an acknowledge for each. -/
theorem foeWriteLoop_ok (h : foeWriteLoop d env request file off sent queue = some w)
    (hok : w.ret = .ok) :
    (0 < d ∨ file.drop off = []) ∧ ∃ acks, queue = acks ++ w.queue ∧
      acks.length = (chunks d (file.drop off)).length ∧ (∀ m ∈ acks, m.isAck = true) ∧
      (∀ k < acks.length, env.sendFree (sent.length + 1 + k) = true) ∧
      w.sent = sent ++ dataRequests sent.length (chunks d (file.drop off)) := by
  have hlen : (file.drop off).length = file.length - off := List.length_drop
  induction queue generalizing off sent with
  | nil =>
    rcases foeWriteLoop_cases d env request file off sent [] with
      ⟨w', hw', heq⟩ | ⟨-, heq⟩ | ⟨m, rest, hq, -⟩
    · rw [heq, Option.some.injEq] at h
      exact absurd (h ▸ hok) hw'
    · rw [heq] at h
      cases h
    · cases hq
  | cons m queue ih =>
    rcases foeWriteLoop_cases d env request file off sent (m :: queue) with
      ⟨w', hw', heq⟩ | ⟨-, heq⟩ | ⟨m', rest, hq, hm, hfree, ⟨hlt, heq⟩ | ⟨hle, heq⟩⟩
    · rw [heq, Option.some.injEq] at h
      exact absurd (h ▸ hok) hw'
    · rw [heq] at h
      cases h
    · -- a full packet with something behind it
      cases hq
      obtain ⟨hd, acks, hq, hcnt, hack, hbuf, hsent⟩ := ih (heq ▸ h) List.length_drop
      have hd' : 0 < d := by
        rcases hd with hd | hd
        · exact hd
        · have := congrArg List.length hd
          rw [List.length_drop, List.length_nil] at this
          omega
      have hcs := chunks_of_lt hd' (show d < (file.drop off).length by omega)
      rw [List.length_append, List.length_singleton] at hbuf hsent
      rw [hcs, List.drop_drop]
      refine ⟨Or.inl hd', m :: acks, by rw [hq]; rfl, ?_, ?_, ?_, ?_⟩
      · rw [List.length_cons, List.length_cons, hcnt]
      · intro x hx
        rcases List.mem_cons.1 hx with rfl | hx
        · exact hm
        · exact hack x hx
      · intro k hk
        cases k with
        | zero => exact hfree
        | succ k =>
          rw [List.length_cons] at hk
          have := hbuf k (by omega)
          rwa [show sent.length + 1 + 1 + k = sent.length + 1 + (k + 1) by omega] at this
      · rw [hsent, dataRequests, List.append_assoc]
        rfl
    · -- the last packet
      cases hq
      rw [heq, Option.some.injEq] at h
      rw [chunks_of_le (by omega), ← h]
      refine ⟨?_, [m], rfl, rfl, by simpa using hm, ?_, rfl⟩
      · by_cases hz : file.drop off = []
        · exact Or.inr hz
        · have := List.length_pos_iff.2 hz
          exact Or.inl (by omega)
      · intro k hk
        rw [List.length_singleton, Nat.lt_one_iff] at hk
        rw [hk]
        exact hfree

/-- Once the first packet fits, all of them do. -/
theorem foeWriteLoop_fits (hfit : min (file.length - off) d ≤ maxPacketData) :
    ∃ w, foeWriteLoop d env request file off sent queue = some w := by
  induction queue generalizing off sent with
  | nil =>
    rcases foeWriteLoop_cases d env request file off sent [] with
      ⟨w, -, heq⟩ | ⟨hlt, -⟩ | ⟨m, rest, hq, -⟩
    · exact ⟨w, heq⟩
    · omega
    · cases hq
  | cons m queue ih =>
    rcases foeWriteLoop_cases d env request file off sent (m :: queue) with
      ⟨w, -, heq⟩ | ⟨hlt, -⟩ | ⟨m', rest, hq, -, -, ⟨-, heq⟩ | ⟨-, heq⟩⟩
    · exact ⟨w, heq⟩
    · omega
    · cases hq
      rw [heq]
      exact ih (by omega)
    · exact ⟨_, heq⟩

end Write

/-- The number of packets of a file. -/
def packetCount (dataLen fileLen : ℕ) : ℕ := 1 + (fileLen - 1) / dataLen

theorem length_chunks_eq {d : ℕ} {file : List UInt8} (h : 0 < d ∨ file = []) :
    (chunks d file).length = packetCount d file.length := by
  rcases h with h | rfl
  · exact length_chunks h file
  · rw [chunks_of_le (Nat.zero_le d)]
    simp [packetCount]

/-- A call that returns `EC_OK` only when every packet that was sent has an acknowledge with its
number among the messages received. -/
def WriteIntegrity (smLen : UInt16) (env : Env) (password : UInt32) (fileName file : List UInt8)
    (queue : List Packet) : Prop :=
  ∃ w, ecFoeWrite smLen env password fileName file queue = some w ∧
    (w.ret = .ok → ∃ received, queue = received ++ w.queue ∧
      ∀ p ∈ w.sent, ∃ m ∈ received, m.isAck = true ∧ m.packetNr = p.packetNr)

/-- Once the request is acknowledged, the packets fit into the buffers; and if there are send
buffers for all of them, and an acknowledge follows for each, these have their numbers. -/
def AcksMatch (smLen : UInt16) (env : Env) (file : List UInt8) (queue : List Packet) : Prop :=
  env.error = none → ∀ m rest, queue = m :: rest → m.isAck = true → env.sendFree 1 = true →
    min file.length (writeDataLen smLen) ≤ maxPacketData ∧
    (0 < writeDataLen smLen ∨ file = [] → ∀ acks more, rest = acks ++ more →
      acks.length = packetCount (writeDataLen smLen) file.length →
      (∀ a ∈ acks, a.isAck = true) → (∀ k < acks.length, env.sendFree (k + 1) = true) →
      ∀ k < acks.length, ∃ a ∈ m :: acks, a.packetNr = UInt32.ofNat (k + 1))

theorem ecFoeWrite_eq {m : Packet} (henv : env.error = none) (hm : m.isAck = true)
    (password : UInt32) (fileName file : List UInt8) (queue : List Packet) :
    ecFoeWrite smLen env password fileName file (m :: queue) =
      foeWriteLoop (writeDataLen smLen) env (rwRequest smLen opWriteRequest password fileName) file
        0 [] queue := by
  rw [ecFoeWrite, henv]
  simp only [hm, Bool.not_true, Bool.false_eq_true, if_false]

/-- The packets are numbered from `n + 1` on. -/
theorem mem_dataRequests {n : ℕ} {cs : List (List UInt8)} {p : Packet} :
    p ∈ dataRequests n cs →
      ∃ k < cs.length, p.packetNr = UInt32.ofNat (n + k + 1) := by
  induction cs generalizing n with
  | nil => simp [dataRequests]
  | cons c cs ih =>
    intro hp
    rcases List.mem_cons.1 hp with rfl | hp
    · exact ⟨0, by simp, rfl⟩
    · obtain ⟨k, hk, hnr⟩ := ih hp
      exact ⟨k + 1, by simpa using hk, by rw [hnr]; congr 1; omega⟩

theorem exists_mem_dataRequests (n k : ℕ) (cs : List (List UInt8)) (hk : k < cs.length) :
    ∃ p ∈ dataRequests n cs, p.packetNr = UInt32.ofNat (n + k + 1) := by
  induction cs generalizing n k with
  | nil => simp at hk
  | cons c cs ih =>
    cases k with
    | zero => exact ⟨_, List.mem_cons_self, rfl⟩
    | succ k =>
      obtain ⟨p, hp, hnr⟩ := ih (n + 1) k (by simpa using hk)
      exact ⟨p, List.mem_cons_of_mem _ hp, by rw [hnr]; congr 1; omega⟩

/-- As many acknowledges as there are packets end the transfer with `EC_OK`, whatever their
numbers. -/
theorem WriteIntegrity.acksMatch {password : UInt32} {fileName file : List UInt8}
    {queue : List Packet} (h : WriteIntegrity smLen env password fileName file queue) :
    AcksMatch smLen env file queue := by
  intro henv m rest hq hm hfree
  obtain ⟨w, hw, hok⟩ := h
  rw [hq, ecFoeWrite_eq henv hm] at hw
  have hfit : min file.length (writeDataLen smLen) ≤ maxPacketData := by
    by_contra hlt
    rw [foeWriteLoop_overflow hfree (Nat.lt_of_not_le hlt)] at hw
    cases hw
  refine ⟨hfit, fun hd acks more hrest hlen hack hbuf k hk => ?_⟩
  rw [hrest, foeWriteLoop_acked more hd hfit (by rw [List.drop_zero, length_chunks_eq hd, hlen])
    hack (fun k hk => by rw [List.length_nil, Nat.zero_add, Nat.add_comm]; exact hbuf k hk),
    Option.some.injEq] at hw
  subst hw
  obtain ⟨received, hsplit, hall⟩ := hok rfl
  have hrec : received = m :: acks := by
    apply @List.append_cancel_right _ _ more
    rw [← hsplit, hq, hrest]
    rfl
  obtain ⟨p, hp, hnr⟩ := exists_mem_dataRequests 0 k (chunks (writeDataLen smLen) (file.drop 0))
    (by rw [List.drop_zero, length_chunks_eq hd, ← hlen]; exact hk)
  obtain ⟨a, ha, -, hnr'⟩ := hall p hp
  exact ⟨a, hrec ▸ ha, by rw [hnr', hnr, Nat.zero_add]⟩

/-- The part of a transfer behind the acknowledged request. -/
theorem AcksMatch.acknowledged {file : List UInt8} {m : Packet} {rest : List Packet}
    {request : RwRequest} {w : WriteResult} (h : AcksMatch smLen env file (m :: rest))
    (henv : env.error = none) (hm : m.isAck = true) (hfree : env.sendFree 1 = true)
    (hw : foeWriteLoop (writeDataLen smLen) env request file 0 [] rest = some w)
    (hok : w.ret = .ok) : ∃ received, m :: rest = received ++ w.queue ∧
      ∀ p ∈ w.sent, ∃ m ∈ received, m.isAck = true ∧ m.packetNr = p.packetNr := by
  obtain ⟨hd, acks, hq, hlen, hack, hbuf, hsent⟩ := foeWriteLoop_ok hw hok
  rw [List.drop_zero] at hd hlen hsent
  have hbuf' : ∀ k < acks.length, env.sendFree (k + 1) = true := by
    intro k hk
    have := hbuf k hk
    rwa [List.length_nil, Nat.zero_add, Nat.add_comm] at this
  refine ⟨m :: acks, by rw [hq]; rfl, fun p hp => ?_⟩
  rw [hsent, List.nil_append] at hp
  obtain ⟨k, hk, hpnr⟩ := mem_dataRequests hp
  obtain ⟨a, ha, hanr⟩ := (h henv m rest rfl hm hfree).2 hd acks w.queue hq
    (by rw [hlen, length_chunks_eq hd]) hack hbuf' k (by rw [hlen]; exact hk)
  refine ⟨a, ha, ?_, by rw [hanr, hpnr, List.length_nil, Nat.zero_add]⟩
  rcases List.mem_cons.1 ha with rfl | ha
  · exact hm
  · exact hack a ha

theorem AcksMatch.writeIntegrity {file : List UInt8} {queue : List Packet}
    (h : AcksMatch smLen env file queue) (password : UInt32) (fileName : List UInt8) :
    WriteIntegrity smLen env password fileName file queue := by
  cases henv : env.error with
  | some ret =>
    refine ⟨_, by rw [ecFoeWrite, henv], fun hok => ?_⟩
    exact absurd hok (Env.error_ne_ok henv)
  | none =>
    cases queue with
    | nil => exact ⟨_, by rw [ecFoeWrite, henv], fun hok => by cases hok⟩
    | cons m rest =>
      cases hm : m.isAck with
      | false =>
        refine ⟨_, by rw [ecFoeWrite, henv]; exact if_pos (by rw [hm]; rfl), fun hok => ?_⟩
        simp only [noAck] at hok
        split_ifs at hok
      | true =>
        rw [WriteIntegrity, ecFoeWrite_eq henv hm]
        cases hfree : env.sendFree 1 with
        | false =>
          refine ⟨_, by rw [foeWriteLoop, List.length_nil, hfree, Bool.not_false, if_pos rfl],
            fun hok => by cases hok⟩
        | true =>
          obtain ⟨w, hw⟩ : ∃ w, foeWriteLoop (writeDataLen smLen) env
              (rwRequest smLen opWriteRequest password fileName) file 0 [] rest = some w :=
            foeWriteLoop_fits (h henv m rest rfl hm hfree).1
          exact ⟨w, hw, h.acknowledged henv hm hfree hw⟩

/-- **When every packet is acknowledged.** -/
theorem writeIntegrity_iff (smLen : UInt16) (env : Env) (password : UInt32)
    (fileName file : List UInt8) (queue : List Packet) :
    WriteIntegrity smLen env password fileName file queue ↔ AcksMatch smLen env file queue :=
  ⟨fun h => h.acksMatch, fun h => h.writeIntegrity password fileName⟩

/-! ## Both directions -/

/-- **When the numbers of a transfer are right**, in both directions. -/
theorem foe_integrity (smLen : UInt16) (env : Env) (password : UInt32)
    (fileName file : List UInt8) (queue : List Packet) :
    (ReadIntegrity smLen env password fileName queue ↔ InSequence smLen env queue) ∧
      (WriteIntegrity smLen env password fileName file queue ↔ AcksMatch smLen env file queue) :=
  ⟨readIntegrity_iff smLen env password fileName queue,
    writeIntegrity_iff smLen env password fileName file queue⟩

/-- A left-over packet with the number 5 is taken for the file, and a left-over acknowledge of
packet 7 for that of the first. -/
theorem foe_integrity_left_over :
    ¬ReadIntegrity 16 Env.all 0 [] [dataRequest 5 [1, 2]] ∧
      ¬WriteIntegrity 16 Env.all 0 [] [1, 2] [ackRequest 0, ackRequest 7] := by
  constructor
  · rw [readIntegrity_iff]
    intro h
    have := (h rfl [] (dataRequest 5 [1, 2]) [] rfl (Passed.nil _ _ _) rfl).2 (by decide) rfl
    revert this
    decide
  · rw [writeIntegrity_iff]
    intro h
    obtain ⟨a, ha, hnr⟩ := (h rfl (ackRequest 0) [ackRequest 7] rfl rfl rfl).2 (Or.inl (by decide))
      [ackRequest 7] [] rfl (by decide) (by decide) (fun _ _ => rfl) 0 (by decide)
    revert hnr
    rcases List.mem_cons.1 ha with rfl | ha
    · decide
    · rw [List.mem_singleton.1 ha]
      decide

end LibEthercat.Foe
