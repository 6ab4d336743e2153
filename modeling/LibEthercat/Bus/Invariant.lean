import LibEthercat.Bus.Receiver

/-!
# The invariant in every run

**Theorem (`inv_step`).** A step that meets its condition keeps the invariant, with the owners that
it leaves behind.

**Theorem (`good_run`).** So the invariant holds, for some owners, after every run whose steps all meet it, in
whatever order the senders, the transmitter and the receiver take them.
-/

namespace LibEthercat.Bus

open Function (update)

section
variable {late : Bool}

/-- The invariant, for some owners. -/
def Good (late : Bool) (s : State) : Prop := ∃ io eo, Inv late s io eo

theorem init_idxQ_nodup : ((List.range 256).map UInt8.ofNat).Nodup := by
  refine List.Nodup.map_on ?_ List.nodup_range
  intro a ha b hb hab
  have hnat := congrArg UInt8.toNat hab
  rw [UInt8.toNat_ofNat', UInt8.toNat_ofNat', Nat.mod_eq_of_lt (List.mem_range.1 ha),
    Nat.mod_eq_of_lt (List.mem_range.1 hb)] at hnat
  exact hnat

theorem inv_init (n : ℕ) : Inv late (init n) (fun _ => .free) (fun _ => .free) := by
  refine ⟨⟨⟨fun _ _ => rfl, init_idxQ_nodup, ?_⟩, ⟨fun _ _ => rfl, List.nodup_range, ?_⟩,
    fun _ _ => rfl, ?_⟩, ?_, fun c => SenderOk.of_none rfl, ?_⟩
  · simp [init]
  · simp [init]
  · simp [init]
  · intro e j hu
    cases hu with
    | queued hq => simp [Queued, init] at hq
    | sent hs => cases hs
    | rx hr => cases hr
    | wire _ hd => cases hd
  · constructor <;> simp [init, Queued, Rx.use]

/-- Who owns the indices after a step. -/
def idxOwner (s : State) (io : Idx → IdxOwner) : Action → Idx → IdxOwner
  | .indexGet c j => update io j (.holder c)
  | .poolFail _ j | .indexPut _ j | .cleanIdx _ j | .rxIndexPut _ j => update io j .free
  | .enqueue .noReply e => update io (s.dgIdx e) (.other (.entry e))
  | .create c => lostIdx s (.cyclic c) io
  | .rxCall e j => callIdx s e j io
  | _ => io

/-- Who owns the entries after a step. -/
def entryOwner (s : State) (eo : Entry → EntryOwner) : Action → Entry → EntryOwner
  | .poolGet c e => update eo e (.holder c)
  | .poolPut _ e | .cleanEntry _ e => update eo e .free
  | .enqueue .noReply e => update eo e (.other ())
  | .create c => lostEntry s (.cyclic c) eo
  | .rxCall e _ => callEntry s e eo
  | _ => eo

theorem inv_step {s : State} {io : Idx → IdxOwner} {eo : Entry → EntryOwner} {a : Action}
    (h : Inv late s io eo) (hok : StepOk late s a) (hen : enabled s a = true) :
    Inv late (effect s a) (idxOwner s io a) (entryOwner s eo a) := by
  cases a with
  | indexGet c j => exact inv_indexGet h hen hok
  | indexKeep c => exact inv_indexKeep h hen
  | poolGet c e => exact inv_poolGet h hen hok
  | entryKeep c => exact inv_entryKeep h hen
  | poolFail c j => exact inv_poolFail h hen hok
  | skip c => exact inv_skip h hen
  | memset c e => exact inv_memset h hen hok
  | fill c e j => exact inv_fill h hen hok
  | unsend c e j => exact inv_unsend h hen
  | enqueue c e =>
    cases c with
    | noReply => exact inv_enqueue_noReply h hen
    | transceive | duration | cyclic => exact inv_enqueue (by simp) h hen
  | waitOk c j => exact inv_waitOk h hen
  | waitFail c => exact inv_waitFail h hen
  | poolRemove t e => exact inv_poolRemove h hen
  | loopEnd t e expired => exact inv_loopEnd h hen hok
  | poolPut c e => exact inv_poolPut h hen hok
  | indexPut c j => exact inv_indexPut h hen
  | cleanIdx c j => exact inv_cleanIdx h hen hok
  | cleanEntry c e => exact inv_cleanEntry h hen hok
  | create c => exact inv_create h
  | txPop high e => exact inv_txPop h hen
  | txSend e => exact inv_txSend h hen
  | txDrop e => exact inv_txDrop h
  | rxTake d => exact inv_rxTake h hen
  | rxForeign j => exact inv_rxForeign h hok
  | lost d => exact inv_lost h
  | rxCall e j => exact inv_rxCall h hen
  | rxPost e i j => exact inv_rxPost h
  | rxIndexPut e j => exact inv_rxIndexPut h hen
  | rxReturn => exact inv_rxReturn h

theorem good_step {s s' : State} {a : Action} (h : Good late s) (hok : StepOk late s a)
    (hstep : step s a = some s') : Good late s' := by
  obtain ⟨hen, rfl⟩ := step_eq_some.1 hstep
  obtain ⟨io, eo, h⟩ := h
  exact ⟨_, _, inv_step h hok hen⟩

theorem good_run {n : ℕ} {acts : List Action} {s : State}
    (hok : Runs.RunOk step (StepOk late) (init n) acts) (hrun : Runs.run step (init n) acts = some s) :
    Good late s :=
  Runs.runOk_induction (fun _ _ _ h hok hstep => good_step h hok hstep) ⟨_, _, inv_init n⟩
    hok hrun

end

end LibEthercat.Bus
