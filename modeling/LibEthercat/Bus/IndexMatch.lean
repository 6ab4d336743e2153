import LibEthercat.Bus.Invariant

/-!
# No index clash

Every datagram is queued with the index its entry points to, `tx_send` has it under that index, and
a datagram that comes back gets to the entry of the sender that has the index (`IdxMatch`).

**Theorem (`idxMatch_run`).** That is so after every run whose steps meet `StepOk`. It fails for the
packet that `get_packet_duration` sends (`duration_not_idxMatch`): it carries index 0.
-/

namespace LibEthercat.Bus

/-- The index of a datagram is the one its entry points to, wherever the entry is, and no two
senders use one index. -/
structure IdxMatch (s : State) : Prop where
  queued : ∀ e, Queued s e → s.pIdx e = some (s.dgIdx e)
  sent : ∀ j e, s.txSend j = some e → s.pIdx e = some j
  received : ∀ e j, s.rx.use = some (e, j) → s.pIdx e = some j
  owner : ∀ c e j, s.idxOf c = some j → Uses false s e j → s.entryOf c = some e
  free : ∀ j ∈ s.idxQ, ∀ e, ¬ Uses false s e j
  unique : ∀ e e' j, Uses false s e j → Uses false s e' j → e = e'

theorem Good.idxMatch {s : State} (h : Good false s) : IdxMatch s := by
  obtain ⟨io, eo, h⟩ := h
  refine ⟨fun e he => (h.uses e _ (Uses.queued he)).pIdx, fun j e he => (h.uses e j (Uses.sent he)).pIdx,
    fun e j he => (h.uses e j (Uses.rx he)).pIdx, fun c e j hj hu => ?_, fun j hj e hu => ?_,
    fun e e' j hu hu' => h.index_unique hu hu'⟩
  · exact h.entry_eq (h.uses e j hu) hj
  · exact (h.uses e j hu).not_free.2.2.1 (h.owners.idx.ownerFree j hj)

/-- **No index clash**, in any order of the steps of all senders. -/
theorem idxMatch_run {n : ℕ} {acts : List Action} {s : State}
    (hok : Runs.RunOk step (StepOk false) (init n) acts) (hrun : Runs.run step (init n) acts = some s) :
    IdxMatch s :=
  (good_run hok hrun).idxMatch

/-- A datagram of `ec_transceive` is queued. -/
def transceiveRun : List Action :=
  [.indexGet (.transceive 0) 0, .poolGet (.transceive 0) 0, .memset (.transceive 0) 0,
    .fill (.transceive 0) 0 0, .unsend (.transceive 0) 0 0, .enqueue (.transceive 0) 0]

theorem idxMatch_transceiveRun :
    ∃ s, Runs.run step (init 1) transceiveRun = some s ∧ s.txLow = [0] ∧ IdxMatch s := by
  have hok : Runs.RunOk step (StepOk false) (init 1) transceiveRun := by
    refine .cons (fun h => by cases h) rfl (.cons (fun h => by cases h) rfl (.cons ?_ rfl
      (.cons (fun t ht => by cases ht) rfl (.cons trivial rfl (.cons trivial rfl trivial)))))
    show ¬ Queued _ _
    decide
  exact ⟨_, rfl, rfl, idxMatch_run hok rfl⟩

/-- `get_packet_duration`, while `ec_transceive` has index 0. -/
def durationRun : List Action :=
  [.indexGet (.transceive 0) 0, .indexGet (.duration 0) 1, .poolGet (.duration 0) 0,
    .memset (.duration 0) 0, .fill (.duration 0) 0 1, .enqueue (.duration 0) 0]

/-- The packet is queued with index 0, its entry points to index 1. -/
theorem duration_not_idxMatch :
    ¬ ∀ n acts s, Runs.run step (init n) acts = some s → IdxMatch s := by
  intro hall
  have hmatch := (hall 1 durationRun _ rfl).queued 0 (Or.inl List.mem_cons_self)
  revert hmatch
  decide

end LibEthercat.Bus
