import Mathlib.Data.List.GetD
import LibEthercat.Coe.Download
import LibEthercat.Lib.StoreLog
import LibEthercat.Soe.ReadLength
import LibEthercat.Soe.WriteResult

/-!
# A drive that is written and read

A drive keeps a value for each element of its IDNs. It puts the fragments of a write together and
stores the value with the last one, which says the IDN; it cuts the value of a read into fragments
that fit its own mailbox. Both functions are called against it in any order, and get their send
buffers. `ec_soe_read` looks at the buffers of the answer once more when it has given them back.

**Theorem (`session_valid`).** Every call succeeds, and each read puts the value that has been
written last into its buffer, if that has the length of the value and the buffers that it has given
back still show whether a fragment is the last one. So the fragments of the two directions do not get
in each other's way, whatever the sizes of the two mailboxes are.
-/

namespace LibEthercat.Soe

open LibEthercat.Coe (Message u16 mbxLength littleEndian u16_bytes)
open Chunks StoreLog

/-! ## The drive -/

/-- Drive, IDN and elements. -/
abbrev Key := ℕ × ℕ × UInt8

/-- What a request is about. A fragment with others behind it says their number instead. -/
def Request.key (q : Request) : Key := (q.atn, q.idnFragmentsLeft, q.elements)

/-- A drive answers with so many bytes in a fragment. -/
structure Drive where
  room : ℕ
  pos : 0 < room
  fits : soeHdrLen + room < 2 ^ 16

structure Session where
  store : Key → List UInt8
  /-- The fragments of a write that is not complete. -/
  part : List UInt8
  log : List (Op Key (List UInt8))

/-- A mailbox message with a SoE header. -/
def buildMessage (op atn : ℕ) (more : Bool) (elements : UInt8) (idn : ℕ) (data : List UInt8) :
    Message := fun i => (littleEndian 2 (soeHdrLen + data.length) ++ [0, 0, 0, 5] ++
  [UInt8.ofNat (op + (if more then 8 else 0) + 32 * atn), elements] ++ littleEndian 2 idn ++
    data).getD i 0

/-- The drive takes a fragment. -/
def Session.receive (s : Session) (q : Request) : Session :=
  if q.incomplete then { s with part := s.part ++ q.data }
  else { s with store := Function.update s.store q.key (s.part ++ q.data), part := [] }

/-- The answer to a fragment. -/
def acknowledge (a : Write.Args) : Message :=
  buildMessage EC_SOE_WRITE_RES (a.atn.toNat % 8) false a.elements a.idn.toNat []

/-- The fragments of an answer. -/
def responses (key : Key) : List (List UInt8) → List Message
  | [] => []
  | c :: cs =>
    buildMessage EC_SOE_READ_RES key.1 (cs ≠ []) key.2.2 (if cs = [] then key.2.1 else cs.length)
      c :: responses key cs

def Drive.answers (d : Drive) (s : Session) (q : Request) : List Message :=
  responses q.key (chunks d.room (s.store q.key))

/-! ## Calls -/

/-- `memcpy` into the caller's buffer. -/
def put (buf : List UInt8) (w : ℕ × List UInt8) : List UInt8 :=
  buf.take w.1 ++ w.2 ++ buf.drop (w.1 + w.2.length)

inductive Call
  | write (smLen : UInt16) (counter : ℕ → UInt8) (a : Write.Args)
  | read (counter : UInt8) (later : ℕ → ℕ → Message) (atn : UInt8) (idn : UInt16)
      (elements : UInt8) (buf : List UInt8) (fuel : ℕ)

/-- Each fragment gets a send buffer and is acknowledged. -/
def writeEnv (smLen : UInt16) (counter : ℕ → UInt8) (a : Write.Args) : Write.Env where
  present := true
  soe := true
  smLen := smLen
  buffer _ := true
  counter := counter
  pending := []
  slave _ := [acknowledge a]

/-- The drive answers the request; `later` is what is in the buffers that have been given back. -/
def Drive.readEnv (d : Drive) (s : Session) (counter : UInt8) (later : ℕ → ℕ → Message)
    (a : Read.Args) : Read.Env :=
  let env : Read.Env := ⟨true, true, true, counter, [], later⟩
  { env with queue := d.answers s (Read.request env a) }

/-- A buffer that has been given back still has the flag of its message. -/
def FlagsKept (env : Read.Env) : Prop :=
  ∀ k (hk : k < env.queue.length), incomplete (env.later k 0) = incomplete env.queue[k]

instance : DecidablePred FlagsKept := fun env =>
  inferInstanceAs (Decidable (∀ k (_ : k < env.queue.length), _))

def readArgs (atn : UInt8) (idn : UInt16) (elements : UInt8) (buf : List UInt8) : Read.Args :=
  ⟨atn, idn, elements, UInt64.ofNat buf.length⟩

def writeKey (a : Write.Args) : Key := (a.atn.toNat % 8, a.idn.toNat, a.elements)

def readKey (a : Read.Args) : Key := (a.atn.toNat % 8, a.idn.toNat, a.elements)

/-- A call, with the drive taking what it sends. A call that returns `EC_OK` is logged. -/
def Drive.step (d : Drive) (s : Session) : Call → Option Session
  | .write smLen counter a =>
    (ecSoeWrite (writeEnv smLen counter a) a).map fun r =>
      let s := r.sent.foldl Session.receive s
      if r.ret = .ok then { s with log := s.log ++ [.write (writeKey a) a.buf] } else s
  | .read counter later atn idn elements buf fuel =>
    let a := readArgs atn idn elements buf
    (ecSoeRead fuel (d.readEnv s counter later a) a).map fun r =>
      if r.ret = .ok then { s with log := s.log ++ [.read (readKey a) (r.writes.foldl put buf)] }
      else s

/-- What can be written; a buffer of the length of what is read, and buffers that keep the flag. -/
def Drive.CallOk (d : Drive) (s : Session) : Call → Prop
  | .write smLen _ a => 10 < smLen.toNat ∧ a.buf ≠ [] ∧ a.buf.length ≤ 513
  | .read counter later atn idn elements buf _ => buf ≠ [] ∧ buf.length < 2 ^ 63 ∧
      buf.length = (s.store (readKey (readArgs atn idn elements buf))).length ∧
      FlagsKept (d.readEnv s counter later (readArgs atn idn elements buf))

/-! ## Messages of the drive -/

section
variable {op atn idn : ℕ} {more : Bool} {elements : UInt8} {data : List UInt8}

theorem flags_lt (hop : op < 8) (hatn : atn < 8) :
    op + (if more then 8 else 0) + 32 * atn < 2 ^ 8 := by
  split_ifs <;> omega

theorem buildMessage_flags (hop : op < 8) (hatn : atn < 8) :
    (buildMessage op atn more elements idn data 6).toNat =
      op + (if more then 8 else 0) + 32 * atn := by
  have hbyte : buildMessage op atn more elements idn data 6 =
      UInt8.ofNat (op + (if more then 8 else 0) + 32 * atn) := rfl
  rw [hbyte, UInt8.toNat_ofNat', Nat.mod_eq_of_lt (flags_lt hop hatn)]

theorem opCode_buildMessage (hop : op < 8) (hatn : atn < 8) :
    opCode (buildMessage op atn more elements idn data) = op := by
  rw [opCode, buildMessage_flags hop hatn]
  split_ifs <;> omega

theorem incomplete_buildMessage (hop : op < 8) (hatn : atn < 8) :
    incomplete (buildMessage op atn more elements idn data) = more := by
  rw [incomplete, buildMessage_flags hop hatn]
  cases more <;> simp <;> omega

theorem mbxLength_buildMessage (hdata : soeHdrLen + data.length < 2 ^ 16) :
    mbxLength (buildMessage op atn more elements idn data) = soeHdrLen + data.length :=
  u16_bytes hdata (congrArg UInt8.ofNat (Nat.div_one _)) rfl

theorem payload_buildMessage (hdata : soeHdrLen + data.length < 2 ^ 16) :
    payload (buildMessage op atn more elements idn data) = data := by
  rw [payload, mbxLength_buildMessage hdata, Nat.add_sub_cancel_left, dataBytes]
  refine List.ext_getElem (by simp) fun i hi hi' => ?_
  rw [List.getElem_map, List.getElem_range, Nat.add_comm]
  exact List.getD_eq_getElem data 0 hi'

end

/-! ## Writing -/

section
variable {s : Session} {env : Write.Env} {a : Write.Args}

/-- **The drive puts the fragments together.** -/
theorem receive_requests {k : ℕ} {cs : List (List UInt8)} (hne : cs ≠ [])
    (hpos : ∀ c ∈ cs, 0 < c.length) :
    (Write.requests env a k cs).foldl Session.receive s =
      { s with
        store := Function.update s.store (writeKey a) (s.part ++ cs.flatten)
        part := [] } := by
  induction cs generalizing s k with
  | nil => exact absurd rfl hne
  | cons c cs ih =>
    rw [Write.requests, List.foldl_cons]
    cases cs with
    | nil =>
      have hinc : (Write.request env a k c [].flatten).incomplete = false := rfl
      rw [Session.receive, hinc]
      simp only [Write.requests, List.foldl_nil, List.flatten_cons, List.flatten_nil,
        List.append_nil]
      rfl
    | cons c' cs =>
      have hinc : (Write.request env a k c (c' :: cs).flatten).incomplete = true := by
        rw [Write.incomplete_request, ← List.length_pos_iff]
        have := hpos c' (by simp)
        simp only [List.flatten_cons, List.length_append]
        omega
      rw [Session.receive, hinc, if_pos rfl, ih (by simp) fun x hx => hpos x (by simp [hx])]
      simp only [Write.request, List.flatten_cons, List.append_assoc]

/-- **A write** is acknowledged, and the drive has the value. -/
theorem write_step {d : Drive} {smLen : UInt16} {counter : ℕ → UInt8}
    (hok : d.CallOk s (.write smLen counter a)) (hpart : s.part = []) :
    d.step s (.write smLen counter a) = some
      { s with
        store := Function.update s.store (writeKey a) a.buf
        log := s.log ++ [.write (writeKey a) a.buf] } := by
  obtain ⟨hsm, hbuf, hlog⟩ := hok
  have hlen : (writeEnv smLen counter a).mbxLen = smLen.toNat - 10 := Write.mbxLen_eq hsm
  have hroom : 0 < (writeEnv smLen counter a).mbxLen := by omega
  have hbuffers : ∀ j < (chunks (writeEnv smLen counter a).mbxLen a.buf).length,
      (writeEnv smLen counter a).buffer ((Write.init (writeEnv smLen counter a)).k + j) = true :=
    fun _ _ => rfl
  have hpieces := length_pos_of_mem_chunks (d := (writeEnv smLen counter a).mbxLen) hbuf
  have hcount := List.length_pos_iff.2 (chunks_ne_nil (writeEnv smLen counter a).mbxLen a.buf)
  have hret : (Write.sendAll (writeEnv smLen counter a) a (Write.init (writeEnv smLen counter a))
      (chunks (writeEnv smLen counter a).mbxLen a.buf)).ret = .ok :=
    Write.sendAll_of_response hbuffers hcount (m := acknowledge a) (by simp [writeEnv])
      (opCode_buildMessage (by decide) (Nat.mod_lt _ (by decide)))
  rw [Drive.step, Write.ecSoeWrite_of_ready rfl rfl hlog, Write.writeLoop_of_room hroom hbuf,
    Option.map_some]
  dsimp only
  rw [if_pos hret, Write.sent_sendAll hbuffers]
  have hnil : (Write.init (writeEnv smLen counter a)).sent = [] := rfl
  rw [hnil, List.nil_append, receive_requests (chunks_ne_nil _ _) hpieces, chunks_flatten, hpart,
    List.nil_append]

end

/-! ## Reading -/

section
variable {key : Key} {cs : List (List UInt8)}

theorem opCode_responses (hkey : key.1 < 8) :
    ∀ m ∈ responses key cs, opCode m = EC_SOE_READ_RES := by
  induction cs with
  | nil => exact fun m hm => absurd hm List.not_mem_nil
  | cons c cs ih =>
    intro m hm
    rw [responses] at hm
    obtain rfl | hm := List.mem_cons.1 hm
    · exact opCode_buildMessage (by decide) hkey
    · exact ih m hm

theorem length_responses : (responses key cs).length = cs.length := by
  induction cs with
  | nil => rfl
  | cons c cs ih => rw [responses, List.length_cons, List.length_cons, ih]

/-- What the fragments of an answer bring. -/
theorem payload_responses (hcs : ∀ c ∈ cs, soeHdrLen + c.length < 2 ^ 16) :
    (responses key cs).flatMap payload = cs.flatten := by
  induction cs with
  | nil => rfl
  | cons c cs ih =>
    rw [responses, List.flatMap_cons, payload_buildMessage (hcs c List.mem_cons_self),
      ih fun x hx => hcs x (List.mem_cons_of_mem c hx), List.flatten_cons]

theorem allHeaded_responses (hcs : ∀ c ∈ cs, soeHdrLen + c.length < 2 ^ 16) (room : ℕ) :
    Read.AllHeaded room (responses key cs) := by
  induction cs generalizing room with
  | nil => trivial
  | cons c cs ih =>
    rw [responses]
    refine fun _ => ⟨?_, ih (fun x hx => hcs x (List.mem_cons_of_mem c hx)) _⟩
    rw [Headed, mbxLength_buildMessage (hcs c List.mem_cons_self)]
    exact Nat.le_add_right _ _

/-- All of them are taken, if each but the last one says that there are more. -/
theorem upToLast_responses {more : ℕ → Message → Bool} {k : ℕ} (hkey : key.1 < 8) (hne : cs ≠ [])
    (hmore : ∀ i (hi : i < (responses key cs).length),
      more (k + i) (responses key cs)[i] = incomplete (responses key cs)[i]) :
    Read.upToLast more k (responses key cs) = (responses key cs, true) := by
  induction cs generalizing k with
  | nil => exact absurd rfl hne
  | cons c cs ih =>
    have hfirst := hmore 0 (by rw [length_responses]; exact Nat.succ_pos _)
    simp only [responses] at hmore hfirst ⊢
    rw [Nat.add_zero, List.getElem_cons_zero, incomplete_buildMessage (by decide) hkey] at hfirst
    rw [Read.upToLast, hfirst]
    by_cases hnil : cs = []
    · rw [if_neg (by simp [hnil]), hnil, responses]
    · have hrest := ih (k := k + 1) hnil fun i hi => by
        have hnext := hmore (i + 1) (Nat.succ_lt_succ hi)
        rwa [List.getElem_cons_succ, ← Nat.add_assoc, Nat.add_right_comm] at hnext
      rw [if_pos (by simp [hnil]), hrest]

end

/-- Copies one behind the other fill the buffer. -/
theorem put_contiguous {o : ℕ} {ws : List (ℕ × List UInt8)} {buf : List UInt8}
    (h : Read.Contiguous o ws) (hfit : o + (ws.flatMap Prod.snd).length ≤ buf.length) :
    ws.foldl put buf =
      buf.take o ++ ws.flatMap Prod.snd ++ buf.drop (o + (ws.flatMap Prod.snd).length) := by
  induction ws generalizing o buf with
  | nil => simp
  | cons w ws ih =>
    obtain ⟨o', bytes⟩ := w
    obtain ⟨rfl, hrest⟩ := h
    rw [List.flatMap_cons, List.length_append] at hfit
    dsimp only at hfit hrest
    have hlen : (put buf (o', bytes)).length = buf.length := by
      simp only [put, List.length_append, List.length_take, List.length_drop]
      omega
    have hpre : (buf.take o' ++ bytes).length = o' + bytes.length := by
      rw [List.length_append, List.length_take, Nat.min_eq_left (by omega)]
    rw [List.foldl_cons, ih hrest (by omega), List.flatMap_cons, List.length_append]
    dsimp only
    have htake : (put buf (o', bytes)).take (o' + bytes.length) = buf.take o' ++ bytes :=
      List.take_left' hpre
    have hdrop : (put buf (o', bytes)).drop (o' + bytes.length + (ws.flatMap Prod.snd).length) =
        buf.drop (o' + (bytes.length + (ws.flatMap Prod.snd).length)) := by
      rw [← List.drop_drop, put, List.drop_left' hpre, List.drop_drop, Nat.add_assoc]
    rw [htake, hdrop, List.append_assoc, List.append_assoc, List.append_assoc, List.append_assoc]

section
variable {s : Session} {d : Drive} {counter atn elements : UInt8} {idn : UInt16} {buf : List UInt8}
  {later : ℕ → ℕ → Message}

theorem room_readArgs (atn elements : UInt8) (idn : UInt16) (h : buf.length < 2 ^ 63) :
    (readArgs atn idn elements buf).len.toNat = buf.length ∧
      (readArgs atn idn elements buf).room = buf.length := by
  have hlen : (readArgs atn idn elements buf).len.toNat = buf.length := by
    rw [readArgs, UInt64.toNat_ofNat']
    omega
  refine ⟨hlen, ?_⟩
  rw [Read.Args.room, hlen, Read.ssize_eq, Int.bmod_eq_of_le (by omega) (by omega)]

/-- **A read** fills the buffer with the value. -/
theorem read_ends (d : Drive) (counter : UInt8) (hbuf : buf ≠ []) (hlen : buf.length < 2 ^ 63)
    (hvalue : buf.length = (s.store (readKey (readArgs atn idn elements buf))).length)
    (hkept : FlagsKept (d.readEnv s counter later (readArgs atn idn elements buf))) :
    ∃ r, (∃ fuel, ecSoeRead fuel (d.readEnv s counter later (readArgs atn idn elements buf))
        (readArgs atn idn elements buf) = some r) ∧ r.ret = .ok ∧
      r.writes.foldl put buf = s.store (readKey (readArgs atn idn elements buf)) := by
  obtain ⟨htoNat, hroom⟩ := room_readArgs atn elements idn hlen
  generalize ha : readArgs atn idn elements buf = a at *
  generalize hv : s.store (readKey a) = v at *
  have hkey : (readKey a).1 < 8 := Nat.mod_lt _ (by decide)
  have hqueue : (d.readEnv s counter later a).queue = responses (readKey a) (chunks d.room v) := by
    rw [← hv]
    rfl
  have hfits : ∀ c ∈ chunks d.room v, soeHdrLen + c.length < 2 ^ 16 := by
    intro c hc
    have := length_of_mem_chunks d.pos v c hc
    have := d.fits
    omega
  have htaken : Read.upToLast (fun k _ => incomplete ((d.readEnv s counter later a).later k 0)) 0
      (d.readEnv s counter later a).queue = ((d.readEnv s counter later a).queue, true) := by
    rw [FlagsKept, hqueue] at hkept
    rw [hqueue]
    refine upToLast_responses hkey (chunks_ne_nil _ _) fun i hi => ?_
    rw [Nat.zero_add]
    exact hkept i hi
  have hne : a.len ≠ 0 := by
    intro hzero
    have := List.length_pos_iff.2 hbuf
    rw [hzero] at htoNat
    simp at htoNat
    omega
  obtain ⟨m, queue, hcons⟩ : ∃ m queue, (d.readEnv s counter later a).queue = m :: queue := by
    refine List.exists_cons_of_ne_nil fun hnil => ?_
    have hlength := congrArg List.length (hqueue.symm.trans hnil)
    rw [length_responses] at hlength
    exact chunks_ne_nil d.room v (List.length_eq_zero_iff.1 hlength)
  obtain ⟨r, hrun, hwrites, -, hret⟩ := Read.reads_eq a rfl hcons
    (by rw [hqueue]; exact opCode_responses hkey)
  refine ⟨r, hrun, by rw [hret, Read.Env.stops, htaken]; rfl, ?_⟩
  rw [Read.Args.leftAfter, if_pos hne, hroom, Read.Env.handled, htaken] at hwrites
  dsimp only at hwrites
  have hheaded : Read.AllHeaded (buf.length : ℤ).toNat (d.readEnv s counter later a).queue := by
    rw [hqueue]
    exact allHeaded_responses hfits _
  have hdata : r.writes.flatMap Prod.snd = v := by
    rw [hwrites, Read.copies_flatMap hheaded, hqueue, payload_responses hfits, chunks_flatten,
      Int.toNat_natCast, hvalue, List.take_length]
  have hcontiguous : Read.Contiguous 0 r.writes := by
    rw [hwrites]
    exact Read.copies_contiguous hheaded 0
  rw [put_contiguous hcontiguous (by rw [hdata]; omega), hdata, List.take_zero, List.nil_append,
    Nat.zero_add, ← hvalue, List.drop_length, List.append_nil]

/-- The result of a read. -/
theorem read_step {s' : Session} {fuel : ℕ}
    (hok : d.CallOk s (.read counter later atn idn elements buf fuel))
    (hstep : d.step s (.read counter later atn idn elements buf fuel) = some s') :
    s' = { s with log := s.log ++ [.read (readKey (readArgs atn idn elements buf))
      (s.store (readKey (readArgs atn idn elements buf)))] } := by
  obtain ⟨hne, hlen, hvalue, hkept⟩ := hok
  obtain ⟨r, ⟨fuel', hrun'⟩, hret, hbuf⟩ := read_ends d counter hne hlen hvalue hkept
  rw [Drive.step, Option.map_eq_some_iff] at hstep
  obtain ⟨r', hrun, hs'⟩ := hstep
  have hready : (d.readEnv s counter later (readArgs atn idn elements buf)).refusal = none := rfl
  rw [ecSoeRead, hready] at hrun hrun'
  obtain rfl := While.Ends.unique ⟨fuel, hrun⟩ ⟨fuel', hrun'⟩
  rw [if_pos hret, hbuf] at hs'
  exact hs'.symm

end

/-! ## Sessions -/

def Session.init (store : Key → List UInt8) : Session := ⟨store, [], []⟩

theorem step_logs {d : Drive} {s s' : Session} {call : Call} (hpart : s.part = [])
    (hok : d.CallOk s call) (hstep : d.step s call = some s') :
    s'.part = [] ∧ Logs Session.store Session.log s s' := by
  cases call with
  | write smLen counter a =>
    rw [write_step hok hpart] at hstep
    cases hstep
    exact ⟨hpart, .write _ _ rfl rfl⟩
  | read counter later atn idn elements buf fuel =>
    obtain rfl := read_step hok hstep
    exact ⟨hpart, .read _ rfl rfl⟩

/-- **Writing and reading.** -/
theorem session_valid {d : Drive} {store : Key → List UInt8} {calls : List Call} {s : Session}
    (hok : Runs.RunOk d.step d.CallOk (.init store) calls)
    (hrun : Runs.run d.step (.init store) calls = some s) :
    (Valid store s.log ∧ s.store = after store s.log ∧ s.log.length = calls.length) ∧
    (∀ smLen counter a, d.CallOk s (.write smLen counter a) →
      ∃ s', d.step s (.write smLen counter a) = some s') ∧
    ∀ counter later atn idn elements buf, d.CallOk s (.read counter later atn idn elements buf 0) →
      ∃ fuel s', d.step s (.read counter later atn idn elements buf fuel) = some s' := by
  have hsteps : ∀ s call s', Session.part s = [] → d.CallOk s call → d.step s call = some s' →
      s'.part = [] ∧ Logs Session.store Session.log s s' := fun _ _ _ => step_logs
  obtain ⟨hpart, hvalid, hstore, hlen⟩ := runOk_valid hsteps rfl rfl hok hrun
  refine ⟨⟨hvalid, hstore, hlen⟩, fun smLen counter a hcall => ⟨_, write_step hcall hpart⟩, ?_⟩
  intro counter later atn idn elements buf ⟨hne, hlen, hvalue, hkept⟩
  obtain ⟨r, ⟨fuel, hrun⟩, -⟩ := read_ends d counter hne hlen hvalue hkept
  exact ⟨fuel, _, by rw [Drive.step, hrun, Option.map_some]⟩

/-! A value in two fragments of a write and three of a read. -/

def exampleDrive : Drive := ⟨2, by decide, by decide⟩

/-- The buffers have the same flags again, and nothing else. -/
def exampleLater : ℕ → ℕ → Message := fun k _ i => if i = 6 ∧ k < 2 then 8 else 0

def exampleCalls : List Call :=
  [.write 14 (fun _ => 1) ⟨1, 0x8042, 0x40, [1, 2, 3, 4, 5, 6]⟩,
    .read 1 exampleLater 1 0x8042 0x40 [0, 0, 0, 0, 0, 0] 8]

theorem session_valid_two :
    ∃ s, Runs.run exampleDrive.step (.init fun _ => []) exampleCalls = some s ∧
    (Valid (fun _ => []) s.log ∧ s.store = after (fun _ => []) s.log ∧
      s.log.length = exampleCalls.length) ∧
    (∀ smLen counter a, exampleDrive.CallOk s (.write smLen counter a) →
      ∃ s', exampleDrive.step s (.write smLen counter a) = some s') ∧
    ∀ counter later atn idn elements buf,
      exampleDrive.CallOk s (.read counter later atn idn elements buf 0) →
      ∃ fuel s', exampleDrive.step s (.read counter later atn idn elements buf fuel) = some s' := by
  have hsome : (Runs.run exampleDrive.step (.init fun _ => []) exampleCalls).isSome = true := by
    decide +kernel
  obtain ⟨s, hrun⟩ := Option.isSome_iff_exists.1 hsome
  have hwrite : exampleDrive.CallOk (.init fun _ => []) (.write 14 (fun _ => 1) ⟨1, 0x8042, 0x40,
      [1, 2, 3, 4, 5, 6]⟩) := ⟨by decide, by decide, by decide⟩
  have hok : Runs.RunOk exampleDrive.step exampleDrive.CallOk (.init fun _ => []) exampleCalls := by
    refine ⟨hwrite, fun s' hs' => ⟨?_, fun _ _ => trivial⟩⟩
    obtain rfl := Option.some.inj ((write_step hwrite rfl).symm.trans hs')
    exact ⟨by decide, by decide, by decide, by decide +kernel⟩
  exact ⟨s, hrun, session_valid hok hrun⟩

end LibEthercat.Soe
