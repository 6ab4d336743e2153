import LibEthercat.Bus.Invariant

/-!
# An entry is in one queue

The pool and the two transmit queues link their entries through the same field, so an entry may be
in one of them only, and there only once (`QueuedOnce`). `ec_transceive` takes its entry from the
pool each time; a cyclic datagram keeps it, and is queued whenever its sender is called.

**Theorem (`queuedOnce_run`).** That is so after every run whose steps meet `StepOk`: among others,
a cyclic datagram is rewritten only after the transmitter has taken out the previous one. Nothing
in the code waits for that (`requeue_not_queuedOnce`).
-/

namespace LibEthercat.Bus

/-- Every entry is at most once in the pool and the transmit queues together. -/
def QueuedOnce (s : State) : Prop := (s.pool ++ s.txHigh ++ s.txLow).Nodup

theorem Good.queuedOnce {late : Bool} {s : State} (h : Good late s) : QueuedOnce s := by
  obtain ⟨io, eo, h⟩ := h
  have hfree : ∀ e ∈ s.pool, ¬ Queued s e := fun e he hq =>
    (h.uses e _ (Uses.queued hq)).not_free.1 (h.owners.entry.ownerFree e he)
  obtain ⟨hhigh, hlow, hdisjoint, -⟩ := h.places
  unfold QueuedOnce
  rw [List.append_assoc, List.nodup_append', List.nodup_append']
  refine ⟨h.owners.entry.nodup, ⟨hhigh, hlow, fun e he he' => hdisjoint e he he'⟩, fun e he he' => ?_⟩
  rcases List.mem_append.1 he' with he' | he'
  · exact hfree e he (Or.inl he')
  · exact hfree e he (Or.inr (Or.inl he'))

/-- **An entry is in one queue, once**, in any order of the steps of all senders, the transmitter
and the receiver. -/
theorem queuedOnce_run {n : ℕ} {acts : List Action} {s : State}
    (hok : Runs.RunOk step (StepOk false) (init n) acts) (hrun : Runs.run step (init n) acts = some s) :
    QueuedOnce s :=
  (good_run hok hrun).queuedOnce

/-- The broadcast state datagram is queued, and queued again when the first one has been taken out
of `tx_high`. -/
def sentRun : List Action :=
  [.indexGet (.cyclic .brdState) 0, .poolGet (.cyclic .brdState) 0, .memset (.cyclic .brdState) 0,
    .fill (.cyclic .brdState) 0 0, .unsend (.cyclic .brdState) 0 0, .enqueue (.cyclic .brdState) 0,
    .txPop true 0, .txSend 0, .indexKeep .brdState, .entryKeep .brdState,
    .memset (.cyclic .brdState) 0, .fill (.cyclic .brdState) 0 0, .unsend (.cyclic .brdState) 0 0,
    .enqueue (.cyclic .brdState) 0]

theorem queuedOnce_sentRun :
    ∃ s, Runs.run step (init 1) sentRun = some s ∧ s.txHigh = [0] ∧ QueuedOnce s := by
  have hfill : ∀ t, (.cyclic .brdState : Sender) = .duration t → (0 : Idx) = 0 := fun _ _ => rfl
  have hok : Runs.RunOk step (StepOk false) (init 1) sentRun := by
    refine .cons (fun _ => rfl) rfl (.cons (fun h => ?_) rfl (.cons ?_ rfl (.cons hfill rfl
      (.cons trivial rfl (.cons trivial rfl (.cons trivial rfl (.cons trivial rfl (.cons trivial rfl
      (.cons trivial rfl (.cons ?_ rfl (.cons hfill rfl (.cons trivial rfl
      (.cons trivial rfl trivial)))))))))))))
    · cases h
    · show ¬ Queued _ _
      decide
    · show ¬ Queued _ _
      decide
  exact ⟨_, rfl, rfl, queuedOnce_run hok rfl⟩

/-- The broadcast state datagram is queued twice before the transmitter runs. -/
def requeueRun : List Action :=
  [.indexGet (.cyclic .brdState) 0, .poolGet (.cyclic .brdState) 0, .memset (.cyclic .brdState) 0,
    .fill (.cyclic .brdState) 0 0, .unsend (.cyclic .brdState) 0 0, .enqueue (.cyclic .brdState) 0,
    .indexKeep .brdState, .entryKeep .brdState, .memset (.cyclic .brdState) 0,
    .fill (.cyclic .brdState) 0 0, .unsend (.cyclic .brdState) 0 0, .enqueue (.cyclic .brdState) 0]

theorem requeue_not_queuedOnce :
    ¬ ∀ n acts s, Runs.run step (init n) acts = some s → QueuedOnce s := by
  intro hall
  have honce : QueuedOnce _ := hall 1 requeueRun _ rfl
  revert honce
  unfold QueuedOnce
  decide

end LibEthercat.Bus
