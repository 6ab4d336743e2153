import LibEthercat.Lib.HeldKey
import LibEthercat.Lib.Teardown

/-!
# The locks of a slave

The mutexes, semaphores and queues in the record of a slave (`ec_slave_t`), what the functions do with
them, and what the thread that handles its mailbox does. A record is an entry of `pec->slaves`, or,
if it is taken to be initialised when `ec_scan` clears it, such an entry between two scans.
`ec_slave_init` is called nowhere: `transition_mutex` is as it was cleared, and so is `soe.lock`.

Clients are all threads that call these functions, the recovery of the async loop and the threads of
`threaded_startup` among them; `ec_set_state` and `ec_scan` call them for one slave after the other.
-/

namespace LibEthercat.SlaveLocks

open Handoff (Stmt block)
open Lifecycle

/-! ## Programs -/

inductive Obj
  | transitionMutex
  /-- `mbx.message_pool_send_queued`. -/
  | sendQueued
  | syncMutex
  | syncSem
  /-- `mbx.lock`. -/
  | mbxLock
  | coeLock
  | coeRecvPool
  | soeLock
  | soeRecvPool
  | foeRecvPool
  | eoeLock
  | eoeRecvPool
  | eoeResponsePool
  | ethFramesFreePool
  | ethFramesRecvPool
  | sendSync
deriving DecidableEq

def lock (o : Obj) : Code Obj := act (.lock o)

def unlock (o : Obj) : Code Obj := act (.unlock o)

def use (o : Obj) : Code Obj := act (.use o)

def init (o : Obj) : Code Obj := act (.init o)

def destroy (o : Obj) : Code Obj := act (.destroy o)

/-- `if`, with conditions on data. -/
def when (code : List (Code Obj)) : Code Obj := .test .data (block code) .skip

def doWhile (code : List (Code Obj)) : Code Obj := .loop (block (code ++ [.test .data .skip .brk]))

/-- If the mutex cannot be locked, that is all. -/
def locked (o : Obj) (code : List (Code Obj)) : Code Obj :=
  .test .data (use o) (block (lock o :: code ++ [unlock o]))

/-! ## The mailbox -/

/-- The flags are set, and the handler is woken up. -/
def mbxSchedRead : Code Obj := block [lock .syncMutex, use .syncSem, unlock .syncMutex]

/-- `ec_mbx_enqueue_head`, `ec_mbx_enqueue_tail`. -/
def mbxEnqueue : Code Obj :=
  block [use .sendQueued, lock .syncMutex, use .syncSem, unlock .syncMutex]

/-- `ec_coe_wait`, `ec_eoe_wait`, `ec_eoe_wait_response`. -/
def waitLoop (pool : Obj) : Code Obj := doWhile [mbxSchedRead, use pool]

/-- `ec_soe_wait`, `ec_foe_wait`. -/
def waitOnce (pool : Obj) : Code Obj := block [mbxSchedRead, use pool]

/-- Answers are waited for until one of them will do. -/
def answers (wait : Code Obj) : Code Obj := block [wait, .loop (.test .data wait .brk)]

/-! ## CoE -/

def coeInit : Code Obj := block [init .coeRecvPool, init .coeLock]

def coeDeinit : Code Obj := block [destroy .coeLock, destroy .coeRecvPool]

def coeEmergencyEnqueue : Code Obj := locked .coeLock []

def coeEnqueue : Code Obj := .test .data coeEmergencyEnqueue (when [use .coeRecvPool])

/-- If CoE is supported and there is a buffer, a request is sent, and then `code`. -/
def coeRequest (code : List (Code Obj)) : Code Obj :=
  locked .coeLock [when (mbxEnqueue :: code)]

def coeSdoRead : Code Obj := coeRequest [answers (waitLoop .coeRecvPool)]

def coeSdoWriteExpedited : Code Obj := coeRequest [answers (waitLoop .coeRecvPool)]

def coeSdoWriteNormal : Code Obj :=
  coeRequest [answers (waitLoop .coeRecvPool),
    when [.loop (.test .data (block [mbxEnqueue, answers (waitLoop .coeRecvPool)]) .brk)]]

def coeSdoWrite : Code Obj := .test .data coeSdoWriteExpedited coeSdoWriteNormal

def coeOdlistRead : Code Obj := coeRequest [doWhile [waitLoop .coeRecvPool]]

def coeSdoDescRead : Code Obj := coeRequest [answers (waitLoop .coeRecvPool)]

def coeSdoEntryDescRead : Code Obj := coeRequest [answers (waitLoop .coeRecvPool)]

def coeEmergencyGetNext : Code Obj := locked .coeLock []

/-! ## SoE and FoE -/

def soeInit : Code Obj := init .soeRecvPool

def soeDeinit : Code Obj := destroy .soeRecvPool

def soeEnqueue : Code Obj := when [use .soeRecvPool]

def soeRead : Code Obj :=
  block [lock .soeLock, when [mbxEnqueue, answers (waitOnce .soeRecvPool)], unlock .soeLock]

def soeWrite : Code Obj :=
  block [lock .soeLock,
    when [.loop (.test .data (when [mbxEnqueue, answers (waitOnce .soeRecvPool)]) .brk)],
    unlock .soeLock]

def foeInit : Code Obj := init .foeRecvPool

def foeDeinit : Code Obj := destroy .foeRecvPool

def foeEnqueue : Code Obj := use .foeRecvPool

def foeRead : Code Obj :=
  block [lock .mbxLock, when [mbxEnqueue, doWhile [waitOnce .foeRecvPool, when [mbxEnqueue]]],
    unlock .mbxLock]

def foeWrite : Code Obj :=
  block [lock .mbxLock, when [mbxEnqueue, waitOnce .foeRecvPool],
    when [doWhile [when [mbxEnqueue, waitOnce .foeRecvPool]]], unlock .mbxLock]

/-! ## EoE -/

def eoeInit : Code Obj :=
  block [init .eoeLock, init .eoeRecvPool, init .eoeResponsePool, init .ethFramesFreePool,
    init .ethFramesRecvPool, init .sendSync]

def eoeDeinit : Code Obj :=
  block [lock .eoeLock, destroy .sendSync, destroy .ethFramesRecvPool, destroy .ethFramesFreePool,
    destroy .eoeResponsePool, destroy .eoeRecvPool, unlock .eoeLock, destroy .eoeLock]

def eoeSetIpParameter : Code Obj :=
  block [lock .eoeLock, when [mbxEnqueue, waitLoop .eoeResponsePool], unlock .eoeLock]

def eoeSendFrame : Code Obj :=
  block [lock .eoeLock, when [doWhile [mbxEnqueue, use .sendSync]], unlock .eoeLock]

/-- The frame is complete. -/
def eoePutFrame : Code Obj := .test .data (use .ethFramesFreePool) (use .ethFramesRecvPool)

def eoeProcessRecv : Code Obj :=
  block [use .eoeRecvPool,
    when [use .ethFramesFreePool,
      when [.test .data
        (block [waitLoop .eoeRecvPool,
          .loop (.test .data
            (.test .data (block [eoePutFrame, .brk]) (waitLoop .eoeRecvPool)) .brk)])
        eoePutFrame],
      when [use .ethFramesRecvPool]]]

def eoeEnqueue : Code Obj :=
  .test .data (use .eoeResponsePool) (block [use .eoeRecvPool, when [doWhile [eoeProcessRecv]]])

/-! ## The handler of the mailbox -/

def mbxDoHandle : Code Obj :=
  block [lock .syncMutex, unlock .syncMutex,
    when [.test .data coeEnqueue (.test .data soeEnqueue (.test .data foeEnqueue (when [eoeEnqueue])))],
    when [use .sendQueued,
      -- the message is put back, or has been sent
      when [.test .data mbxEnqueue (when [use .sendSync])]]]

def mbxHandler : Code Obj :=
  .loop (.test .running
    (block [use .syncSem,
      .test .data (when [lock .syncMutex, unlock .syncMutex, mbxDoHandle]) mbxDoHandle])
    .brk)

def mbxInit : Code Obj :=
  .test .running .skip
    (block [init .sendQueued, init .syncMutex, init .syncSem, init .mbxLock, when [coeInit],
      when [soeInit], when [foeInit], when [eoeInit], act (.setRunning true), act .create])

def mbxDeinit : Code Obj :=
  .test .running
    (block [act (.setRunning false), act .join, when [coeDeinit], when [soeDeinit], when [foeDeinit],
      when [eoeDeinit], destroy .mbxLock, destroy .syncSem, destroy .syncMutex, destroy .sendQueued])
    .skip

/-- `ec_mbx_gateway_handle`, for a slave. -/
def mbxGatewayHandle : Code Obj := when [mbxEnqueue]

/-! ## The slave -/

def slaveFree : Code Obj := block [mbxDeinit, destroy .transitionMutex]

/-- The transitions that lead to the part for INIT (`BOOT_2_INIT`, `INIT_2_INIT`, and those that come
to it from above) are to be avoided, as it calls `ec_slave_free`. -/
def stateTransition : Code Obj :=
  block [lock .transitionMutex,
    .test .avoid slaveFree (when [when [mbxInit], when [eoeSetIpParameter]]),
    unlock .transitionMutex]

inductive Fn
  | stateTransition
  /-- `ec_scan` and `ec_close` call it. -/
  | slaveFree
  | coeSdoRead
  | coeSdoWrite
  | coeOdlistRead
  | coeSdoDescRead
  | coeSdoEntryDescRead
  | coeEmergencyGetNext
  | soeRead
  | soeWrite
  | foeRead
  | foeWrite
  | eoeSetIpParameter
  | eoeSendFrame
  | mbxSchedRead
  | mbxGatewayHandle
deriving DecidableEq

def Fn.code : Fn → Code Obj
  | .stateTransition => SlaveLocks.stateTransition
  | .slaveFree => SlaveLocks.slaveFree
  | .coeSdoRead => SlaveLocks.coeSdoRead
  | .coeSdoWrite => SlaveLocks.coeSdoWrite
  | .coeOdlistRead => SlaveLocks.coeOdlistRead
  | .coeSdoDescRead => SlaveLocks.coeSdoDescRead
  | .coeSdoEntryDescRead => SlaveLocks.coeSdoEntryDescRead
  | .coeEmergencyGetNext => SlaveLocks.coeEmergencyGetNext
  | .soeRead => SlaveLocks.soeRead
  | .soeWrite => SlaveLocks.soeWrite
  | .foeRead => SlaveLocks.foeRead
  | .foeWrite => SlaveLocks.foeWrite
  | .eoeSetIpParameter => SlaveLocks.eoeSetIpParameter
  | .eoeSendFrame => SlaveLocks.eoeSendFrame
  | .mbxSchedRead => SlaveLocks.mbxSchedRead
  | .mbxGatewayHandle => SlaveLocks.mbxGatewayHandle

def locks : Component Obj Fn where
  code := Fn.code
  frees f := f = .slaveFree
  worker := mbxHandler
  key := .transitionMutex

/-! ## The programs have been followed -/

/-- Where the ways through a program meet. -/
def meets {S : Type*} : List (Code Obj) × S → Bool
  | (.again _ :: _, _) | (.seq _ _ :: _, _) | (.test _ _ _ :: _, _) => true
  | _ => false

set_option maxRecDepth 20000 in
theorem locks_checked : Checked locks where
  fn f := by
    have h : Handoff.explore (next locks (locks.frees f)) meets 1000 [([f.code], .start)] [] = true := by
      cases f <;> decide +kernel
    exact Handoff.safe_of_explore h List.mem_cons_self
  worker := by
    have h : Handoff.explore (next locks false) meets 1000 [([mbxHandler], .start)] [] = true := by
      decide +kernel
    exact Handoff.safe_of_explore h List.mem_cons_self
  workerObjects := by decide +kernel
  key := by decide +kernel

set_option maxRecDepth 20000 in
theorem locks_keyChecked : KeyChecked locks where
  fn f := by
    have h : Handoff.explore (keyNext locks (locks.frees f)) meets 1000 [([f.code], false)] [] =
        true := by
      cases f <;> decide +kernel
    exact Handoff.safe_of_explore h List.mem_cons_self
  worker := by
    have h : Handoff.explore (keyNext locks false) meets 1000 [([mbxHandler], false)] [] = true := by
      decide +kernel
    exact Handoff.safe_of_explore h List.mem_cons_self

/-! ## Runs -/

section
variable {N K : Type*} [DecidableEq N] [DecidableEq K]

/-- **Nothing is destroyed in use, and nothing destroyed is used**, if `ec_slave_free` is called for a
slave alone and not within a transition, and nothing is called afterwards that uses what has been
destroyed. A transition that goes on to the call destroys the mutex it holds, in any run. -/
theorem sound_of_freed_alone {s : State N K Obj Fn} (hstart : Start locks s)
    (xs : List (Action N K Fn)) :
    (Runs.RunOk (step locks) (Guarded locks) s xs → Runs.RunOk (step locks) Sound s xs) ∧
      ∀ s' k rest b, Runs.run (step locks) s xs = some s' →
        (s'.thread (.client k)).fn = some .stateTransition →
        (s'.thread (.client k)).code = destroy .transitionMutex :: rest →
        ¬ Sound s' (.go (.client k) b) :=
  ⟨fun hguard => sound_of_guarded locks_checked hstart hguard, fun _ _ _ _ hrun hfn hcode =>
    not_sound_of_destroy_key locks_keyChecked hstart hrun hfn rfl hcode⟩

end

/-- A record that has been cleared; the client `true` and the client `false` have called nothing. -/
def cleared : State Unit Bool Obj Fn where
  thread _ := ⟨(), none, []⟩
  life _ := .fresh
  holder _ := none
  running _ := false

theorem cleared_start : Start locks cleared :=
  ⟨fun _ => rfl, fun _ => rfl, fun _ => rfl, fun _ => rfl, fun _ => .inl rfl⟩

def steps (t : Tid Unit Bool) (b : Bool) (n : ℕ) : List (Action Unit Bool Fn) :=
  .replicate n (.go t b)

/-- A transition to PREOP, a call of the other client, and then the slave is freed. -/
def wholeLife : List (Action Unit Bool Fn) :=
  .call false () .stateTransition :: steps (.client false) false 4 ++ steps (.client false) true 3 ++
    steps (.client false) false 27 ++ .leave false :: .call true () .mbxSchedRead ::
    steps (.client true) false 5 ++ .leave true :: steps (.worker ()) true 3 ++
    .call false () .slaveFree :: steps (.client false) true 5 ++ steps (.worker ()) false 14 ++
    steps (.client false) false 21 ++ [.leave false]

/-- A transition to INIT, up to where `ec_slave_free` destroys `transition_mutex`. -/
def initPart : List (Action Unit Bool Fn) :=
  .call false () .stateTransition :: steps (.client false) true 4 ++ steps (.client false) false 3

theorem initPart_run : ∃ s', Runs.run (step locks) cleared initPart = some s' ∧
    (s'.thread (.client false)).fn = some .stateTransition ∧
    (s'.thread (.client false)).code = [destroy .transitionMutex, unlock .transitionMutex] := by
  obtain ⟨s', hrun, hs'⟩ := Option.map_eq_some_iff.1 (show
    (Runs.run (step locks) cleared initPart).map (fun s => ((s.thread (.client false)).fn,
      (s.thread (.client false)).code)) =
      some (some .stateTransition, [destroy .transitionMutex, unlock .transitionMutex]) by
    decide +kernel)
  exact ⟨s', hrun, (Prod.mk.inj hs').1, (Prod.mk.inj hs').2⟩

theorem sound_of_freed_alone_run :
    (Runs.run (step locks) cleared wholeLife).isSome = true ∧
      Runs.RunOk (step locks) Sound cleared wholeLife ∧
      ∃ s', Runs.run (step locks) cleared initPart = some s' ∧
        ¬ Sound s' (.go (.client false) false) := by
  have hguard : Runs.RunOk (step locks) (Guarded locks) cleared wholeLife := by decide +kernel
  obtain ⟨s', hrun, hfn, hcode⟩ := initPart_run
  exact ⟨by decide +kernel, (sound_of_freed_alone cleared_start wholeLife).1 hguard, s', hrun,
    (sound_of_freed_alone cleared_start initPart).2 s' false _ false hrun hfn hcode⟩

/-- A transition to INIT destroys the mutex that it holds. -/
theorem destroyed_while_held :
    Start locks cleared ∧
      ¬ Runs.RunOk (step locks) Sound cleared (initPart ++ [.go (.client false) false]) := by
  obtain ⟨s', hrun, hfn, hcode⟩ := initPart_run
  refine ⟨cleared_start, fun hsound => ?_⟩
  exact not_sound_of_destroy_key locks_keyChecked cleared_start hrun hfn rfl hcode
    (hsound.of_append hrun)

end LibEthercat.SlaveLocks
