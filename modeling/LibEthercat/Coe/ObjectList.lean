import Mathlib.Data.List.GetD
import Mathlib.Data.List.ReduceOption
import LibEthercat.Coe.Download
import LibEthercat.Coe.SdoRead
import LibEthercat.Datagram
import LibEthercat.Mbx.Enqueue

/-!
# The list of objects

`ec_coe_odlist_read` waits for the fragments of the list until `fragments_left` of the last message
is 0. What `*len` must be is estimated from the first fragment; the fragments behind it fill the
buffer up to there.

* `odlistRead_reassembles` — the list is put together if its last fragment is not longer than the
  others.
* `odlistRead_ends_iff` — the call ends only if the fragments do, and does not notice that one of
  them is missing in between.
-/

namespace LibEthercat.Coe

open Mbx.Enqueue (EC_COE_SDOINFO opcode fragmentsLeft)

def EC_COE_SDO_INFO_ODLIST_RESP : ℕ := 2

/-! ## The call -/

structure OdList where
  ret : Ret
  /-- `*len` -/
  len : ℕ
  buf : Mem
  val : ℕ
  fragLeft : ℕ
  /-- The messages that have been taken. -/
  received : List Message
  /-- What has been copied, all of it one behind the other. -/
  copies : List Copy

/-- `od_len`, in 32 bits. -/
def odLen (m : Message) : ℕ :=
  (UInt32.ofNat (mbxLength m) - 8 +
    UInt32.ofNat (fragmentsLeft m) * (UInt32.ofNat (mbxLength m) - 6)).toNat

/-- Where the data are: those of the first fragment behind the list type. -/
def fragmentOffset (val : ℕ) : ℕ := if val = 0 then 14 else 12

/-- `act_len` -/
def actLen (len val : ℕ) (m : Message) : ℕ :=
  let actLen := (UInt32.ofNat (mbxLength m) - if val = 0 then 8 else 6).toNat
  if len < val + actLen then len - val else actLen

/-- The first fragment says what the length is. -/
def OdList.estimate (s : OdList) (m : Message) : OdList :=
  if s.ret = .ok ∧ s.val = 0 then
    { s with ret := if s.len < odLen m then .mailboxBufferTooSmall else .ok, len := odLen m }
  else s

def OdList.append (s : OdList) (m : Message) : OdList :=
  if s.ret = .ok ∧ 0 < actLen s.len s.val m then
    { s with
      buf := s.buf.copy s.val (fun i => m (fragmentOffset s.val + i)) (actLen s.len s.val m)
      val := s.val + actLen s.len s.val m
      copies := s.copies ++ [⟨m, fragmentOffset s.val, actLen s.len s.val m⟩] }
  else s

/-- One round of the inner loop, which takes one message. -/
def OdList.take (s : OdList) (m : Message) : OdList :=
  { (s.estimate m).append m with fragLeft := fragmentsLeft m, received := s.received ++ [m] }

/-- `if (ret == EC_OK) *len = val` -/
def OdList.finish (s : OdList) : OdList := { s with len := if s.ret = .ok then s.val else s.len }

/-- A call between two waits. -/
structure OdCall where
  state : OdList
  /-- It has `coe.lock`. -/
  locked : Bool
  returned : Bool

def odlistStart (ready : Ready) (len : ℕ) (buf : Mem) : OdCall :=
  match ready.error with
  | some ret => ⟨⟨ret, len, buf, 0, 0, [], []⟩, false, true⟩
  | none => ⟨⟨.ok, len, buf, 0, 0, [], []⟩, true, false⟩

/-- One round of `do .. while (frag_left != 0)`, with what `ec_coe_wait` has returned. -/
def OdCall.round (c : OdCall) (w : Option Message) : OdCall :=
  if c.returned then c
  else
    let s := w.elim c.state c.state.take
    if s.fragLeft ≠ 0 then { c with state := s } else ⟨s.finish, false, true⟩

/-- `ec_coe_odlist_read` after these waits. -/
def odlistRead (ready : Ready) (len : ℕ) (buf : Mem) (waits : List (Option Message)) : OdCall :=
  waits.foldl OdCall.round (odlistStart ready len buf)

/-! ## Rounds -/

section
variable {ready : Ready} {len : ℕ} {buf : Mem} {s : OdList} {c : OdCall} {m : Message}
  {w : Option Message} {waits : List (Option Message)}

@[simp] theorem take_fragLeft : (s.take m).fragLeft = fragmentsLeft m := rfl

@[simp] theorem take_received : (s.take m).received = s.received ++ [m] := rfl

@[simp] theorem estimate_of_ne (h : s.ret ≠ .ok) : s.estimate m = s := if_neg fun hok => h hok.1

@[simp] theorem append_of_ne (h : s.ret ≠ .ok) : s.append m = s := if_neg fun hok => h hok.1

/-- A call that has failed only counts the fragments. -/
theorem take_of_ne (h : s.ret ≠ .ok) : s.take m =
    { s with fragLeft := fragmentsLeft m, received := s.received ++ [m] } := by
  unfold OdList.take
  rw [estimate_of_ne h, append_of_ne h]

/-- The first fragment of a list that is too large. -/
theorem take_of_lt (hret : s.ret = .ok) (hval : s.val = 0) (h : s.len < odLen m) : s.take m =
    { s with ret := .mailboxBufferTooSmall, len := odLen m, fragLeft := fragmentsLeft m
             received := s.received ++ [m] } := by
  unfold OdList.take OdList.estimate
  rw [if_pos ⟨hret, hval⟩, if_pos h, append_of_ne (by simp)]

theorem odlistStart_of_none (h : ready.error = none) :
    odlistStart ready len buf = ⟨⟨.ok, len, buf, 0, 0, [], []⟩, true, false⟩ := by
  unfold odlistStart
  rw [h]

theorem odlistStart_of_some {ret : Ret} (h : ready.error = some ret) :
    odlistStart ready len buf = ⟨⟨ret, len, buf, 0, 0, [], []⟩, false, true⟩ := by
  unfold odlistStart
  rw [h]

theorem round_of_returned (h : c.returned = true) : c.round w = c := if_pos h

theorem foldl_of_returned (h : c.returned = true) : waits.foldl OdCall.round c = c := by
  induction waits with
  | nil => rfl
  | cons w waits ih => rw [List.foldl_cons, round_of_returned h, ih]

theorem round_none_of_eq (h : s.fragLeft = 0) :
    OdCall.round ⟨s, true, false⟩ none = ⟨s.finish, false, true⟩ := by
  simp [OdCall.round, h]

theorem round_none_of_ne (h : s.fragLeft ≠ 0) :
    OdCall.round ⟨s, true, false⟩ none = ⟨s, true, false⟩ := by
  simp [OdCall.round, h]

theorem round_some : OdCall.round ⟨s, true, false⟩ (some m) =
    if fragmentsLeft m = 0 then ⟨(s.take m).finish, false, true⟩ else ⟨s.take m, true, false⟩ := by
  unfold OdCall.round
  by_cases h : fragmentsLeft m = 0 <;> simp [h]

/-- The messages up to the first one without fragments left. -/
def upToLast : List Message → List Message
  | [] => []
  | m :: ms => if fragmentsLeft m = 0 then [m] else m :: upToLast ms

/-- While fragments are left, a wait that returns nothing changes nothing. -/
theorem foldl_round (h : s.fragLeft ≠ 0) : waits.foldl OdCall.round ⟨s, true, false⟩ =
    if ∃ m ∈ waits.reduceOption, fragmentsLeft m = 0 then
      ⟨((upToLast waits.reduceOption).foldl OdList.take s).finish, false, true⟩
    else ⟨(upToLast waits.reduceOption).foldl OdList.take s, true, false⟩ := by
  induction waits generalizing s with
  | nil => simp [upToLast]
  | cons w waits ih =>
    cases w with
    | none => rw [List.foldl_cons, round_none_of_ne h, List.reduceOption_cons_of_none, ih h]
    | some m =>
      rw [List.foldl_cons, round_some, List.reduceOption_cons_of_some, upToLast]
      by_cases hm : fragmentsLeft m = 0
      · rw [if_pos hm, if_pos hm, foldl_of_returned rfl, if_pos ⟨m, List.mem_cons_self, hm⟩]
        rfl
      · have hex : (∃ x ∈ m :: waits.reduceOption, fragmentsLeft x = 0) ↔
            ∃ x ∈ waits.reduceOption, fragmentsLeft x = 0 := by simp [hm]
        rw [if_neg hm, if_neg hm, ih (s := s.take m) hm]
        simp only [hex, List.foldl_cons]

/-- The call before it waits. -/
def odlistInit (len : ℕ) (buf : Mem) : OdList := ⟨.ok, len, buf, 0, 0, [], []⟩

/-- A call whose first wait gets a message takes the messages up to the last fragment. -/
theorem odlistRead_of_some (hready : ready.error = none) (h0 : waits.head? = some (some m)) :
    odlistRead ready len buf waits =
      if ∃ m ∈ waits.reduceOption, fragmentsLeft m = 0 then
        ⟨((upToLast waits.reduceOption).foldl OdList.take (odlistInit len buf)).finish, false, true⟩
      else ⟨(upToLast waits.reduceOption).foldl OdList.take (odlistInit len buf), true, false⟩ := by
  obtain ⟨waits, rfl⟩ : ∃ ws, waits = some m :: ws := by
    cases waits with
    | nil => cases h0
    | cons w waits => exact ⟨waits, by rw [Option.some.inj h0]⟩
  unfold odlistRead
  rw [odlistStart_of_none hready, List.foldl_cons, round_some, List.reduceOption_cons_of_some,
    upToLast]
  by_cases hm : fragmentsLeft m = 0
  · rw [if_pos hm, if_pos hm, foldl_of_returned rfl, if_pos ⟨m, List.mem_cons_self, hm⟩]
    rfl
  · have hex : (∃ x ∈ m :: waits.reduceOption, fragmentsLeft x = 0) ↔
        ∃ x ∈ waits.reduceOption, fragmentsLeft x = 0 := by simp [hm]
    rw [if_neg hm, if_neg hm, foldl_round (by exact hm)]
    simp only [hex, List.foldl_cons, odlistInit]

/-- A call whose first wait gets nothing is over. -/
theorem odlistRead_of_silent (hready : ready.error = none) (h0 : waits.head? = some none) :
    odlistRead ready len buf waits = ⟨(odlistInit len buf).finish, false, true⟩ := by
  obtain ⟨waits, rfl⟩ : ∃ ws, waits = none :: ws := by
    cases waits with
    | nil => cases h0
    | cons w waits => exact ⟨waits, by rw [Option.some.inj h0]⟩
  unfold odlistRead
  rw [odlistStart_of_none hready, List.foldl_cons, round_none_of_eq rfl, foldl_of_returned rfl]
  rfl

end

/-! ## Reassembly -/

/-- A buffer whose first bytes are these. -/
def overlay (buf : Mem) (bytes : List UInt8) : Mem := fun i => bytes.getD i (buf i)

theorem overlay_of_ge {buf : Mem} {bytes : List UInt8} {i : ℕ} (h : bytes.length ≤ i) :
    overlay buf bytes i = buf i := by
  unfold overlay
  rw [List.getD_eq_getElem?_getD, List.getElem?_eq_none h, Option.getD_none]

/-- To copy behind these bytes is to append to them. -/
theorem overlay_copy (buf : Mem) (bytes : List UInt8) (m : Message) (offset n : ℕ) :
    (overlay buf bytes).copy bytes.length (fun i => m (offset + i)) n =
      overlay buf (bytes ++ bytesAt m offset n) := by
  funext i
  have hlen : (bytes ++ bytesAt m offset n).length = bytes.length + n := by simp [bytesAt]
  by_cases hlt : i < bytes.length
  · rw [Mem.copy_of_lt _ _ _ hlt]
    unfold overlay
    rw [List.getD_append _ _ _ _ hlt]
  by_cases hge : bytes.length + n ≤ i
  · rw [Mem.copy_of_ge _ _ hge, overlay_of_ge (by omega), overlay_of_ge (by omega)]
  obtain ⟨j, rfl⟩ : ∃ j, i = bytes.length + j := ⟨i - bytes.length, by omega⟩
  rw [Mem.copy_add _ _ _ _ (by omega)]
  unfold overlay
  rw [List.getD_append_right _ _ _ _ (by omega), Nat.add_sub_cancel_left]
  have hj : j < n := by omega
  simp [bytesAt, List.getD, hj]

/-- The data of a first fragment, without the list type. -/
def firstData (m : Message) : List UInt8 := bytesAt m 14 (mbxLength m - 8)

def restData (m : Message) : List UInt8 := bytesAt m 12 (mbxLength m - 6)

/-- What the fragments carry. -/
def objectList (first : Message) (rest : List Message) : List UInt8 :=
  firstData first ++ rest.flatMap restData

/-- The size that a first fragment announces. -/
def announced (m : Message) : ℕ := (mbxLength m - 8) + fragmentsLeft m * (mbxLength m - 6)

/-- The fragments of a slave that follows the protocol. -/
structure Conforming (first : Message) (rest : List Message) : Prop where
  response : ∀ m ∈ first :: rest,
    service m = EC_COE_SDOINFO ∧ opcode m = EC_COE_SDO_INFO_ODLIST_RESP
  fragmentsLeft_first : fragmentsLeft first = rest.length
  fragmentsLeft_rest : ∀ pre m post, rest = pre ++ m :: post → fragmentsLeft m = post.length
  length : ∀ m ∈ rest.dropLast, mbxLength m = mbxLength first
  listType : 8 ≤ mbxLength first
  index : rest ≠ [] → 10 ≤ mbxLength first
  header : ∀ m ∈ rest, 6 ≤ mbxLength m

/-- After these bytes the call has them in its buffer. -/
structure Filled (buf : Mem) (len : ℕ) (bytes : List UInt8) (s : OdList) : Prop where
  ret : s.ret = .ok
  len : s.len = len
  val : s.val = bytes.length
  buf : s.buf = overlay buf bytes

section
variable {len : ℕ} {buf : Mem} {bytes : List UInt8} {s : OdList} {m first : Message}
  {rest : List Message}

theorem fragmentsLeft_lt (m : Message) : fragmentsLeft m < 2 ^ 16 := u16_lt m 10

theorem length_sub {n : ℕ} (h : n ≤ mbxLength m) (hn : n < 2 ^ 16) :
    (UInt32.ofNat (mbxLength m) - UInt32.ofNat n).toNat = mbxLength m - n := by
  have := mbxLength_lt m
  rw [UInt32.toNat_sub_of_le _ _ (by
      rw [UInt32.le_iff_toNat_le, UInt32.toNat_ofNat', UInt32.toNat_ofNat']
      omega),
    UInt32.toNat_ofNat', UInt32.toNat_ofNat']
  omega

/-- The size fits 32 bits. -/
theorem odLen_eq (h : 8 ≤ mbxLength m) : odLen m = announced m := by
  have hfirst : (UInt32.ofNat (mbxLength m) - 8).toNat = mbxLength m - 8 := length_sub h (by decide)
  have hrest : (UInt32.ofNat (mbxLength m) - 6).toNat = mbxLength m - 6 :=
    length_sub (n := 6) (by omega) (by decide)
  have hleft := fragmentsLeft_lt m
  have hlen := mbxLength_lt m
  have hmul : fragmentsLeft m * (mbxLength m - 6) ≤ (2 ^ 16 - 1) * (2 ^ 16 - 7) :=
    Nat.mul_le_mul (by omega) (by omega)
  unfold odLen announced
  rw [UInt32.toNat_add, UInt32.toNat_mul, hfirst, hrest, UInt32.toNat_ofNat',
    Nat.mod_eq_of_lt (a := fragmentsLeft m) (by omega)]
  omega

theorem actLen_first (h : 8 ≤ mbxLength m) : actLen len 0 m = min (mbxLength m - 8) len := by
  have : (UInt32.ofNat (mbxLength m) - 8).toNat = mbxLength m - 8 := length_sub h (by decide)
  unfold actLen
  simp only [if_true, this]
  split_ifs <;> omega

theorem actLen_rest {val : ℕ} (hval : 0 < val) (h : 6 ≤ mbxLength m) :
    actLen len val m = min (mbxLength m - 6) (len - val) := by
  have : (UInt32.ofNat (mbxLength m) - 6).toNat = mbxLength m - 6 := length_sub h (by decide)
  unfold actLen
  simp only [if_neg (Nat.ne_of_gt hval), this]
  split_ifs <;> omega

/-- What appending leaves in the buffer, when there is room for `n` bytes. -/
theorem Filled.append (h : Filled buf len bytes s) {n : ℕ} (hn : actLen len bytes.length m = n) :
    Filled buf len (bytes ++ bytesAt m (fragmentOffset bytes.length) n) (s.append m) := by
  unfold OdList.append
  rw [h.len, h.val, hn]
  by_cases hpos : 0 < n
  · rw [if_pos ⟨h.ret, hpos⟩]
    refine ⟨h.ret, rfl, by simp [bytesAt], ?_⟩
    rw [h.buf]
    exact overlay_copy _ _ _ _ _
  · obtain rfl : n = 0 := Nat.eq_zero_of_not_pos hpos
    rw [if_neg (fun hlt => hpos hlt.2)]
    simpa [bytesAt] using h

/-- A fragment behind the first one, for which there is room. -/
theorem Filled.take (h : Filled buf len bytes s) (hpos : 0 < bytes.length)
    (hheader : 6 ≤ mbxLength m) (hle : bytes.length + (mbxLength m - 6) ≤ len) :
    Filled buf len (bytes ++ restData m) (s.take m) := by
  have hestimate : s.estimate m = s :=
    if_neg fun hval => Nat.ne_of_gt hpos (h.val.symm.trans hval.2)
  have hact : actLen len bytes.length m = mbxLength m - 6 := by
    rw [actLen_rest hpos hheader]
    omega
  obtain ⟨hret, hlen, hval, hbuf⟩ := h.append hact
  unfold fragmentOffset at hval hbuf
  rw [if_neg (Nat.ne_of_gt hpos)] at hval hbuf
  unfold OdList.take
  rw [hestimate]
  exact ⟨hret, hlen, hval, hbuf⟩

/-- The first fragment, for which there is room. -/
theorem filled_first (hret : s.ret = .ok) (hval : s.val = 0) (h8 : 8 ≤ mbxLength first)
    (hle : announced first ≤ s.len) :
    Filled s.buf (announced first) (firstData first) (s.take first) := by
  have hestimate : s.estimate first = { s with ret := .ok, len := announced first } := by
    unfold OdList.estimate
    rw [if_pos ⟨hret, hval⟩, odLen_eq h8, if_neg (Nat.not_lt.2 hle)]
  have h0 : Filled s.buf (announced first) [] { s with ret := .ok, len := announced first } :=
    ⟨rfl, rfl, hval, rfl⟩
  have hact : actLen (announced first) 0 first = mbxLength first - 8 := by
    rw [actLen_first h8]
    unfold announced
    omega
  obtain ⟨hret, hlen, hval, hbuf⟩ := h0.append hact
  unfold OdList.take
  rw [hestimate]
  exact ⟨hret, hlen, hval, hbuf⟩

/-- All of them. -/
theorem Filled.foldl_take (h : Filled buf len bytes s) (hpos : 0 < bytes.length)
    (hheader : ∀ m ∈ rest, 6 ≤ mbxLength m)
    (hle : bytes.length + (rest.flatMap restData).length ≤ len) :
    Filled buf len (bytes ++ rest.flatMap restData) (rest.foldl OdList.take s) := by
  induction rest generalizing bytes s with
  | nil => simpa using h
  | cons m rest ih =>
    rw [List.forall_mem_cons] at hheader
    have hm : (restData m).length = mbxLength m - 6 := by simp [restData, bytesAt]
    rw [List.flatMap_cons, List.length_append] at hle
    rw [List.foldl_cons, List.flatMap_cons, ← List.append_assoc]
    refine ih (h.take hpos hheader.1 (by omega)) ?_ hheader.2 ?_
    · rw [List.length_append]
      omega
    · rw [List.length_append]
      omega

/-- A call that has failed keeps its error and the buffer. -/
theorem foldl_take_of_ne (ms : List Message) (h : s.ret ≠ .ok) :
    (ms.foldl OdList.take s).ret = s.ret ∧ (ms.foldl OdList.take s).buf = s.buf := by
  induction ms generalizing s with
  | nil => exact ⟨rfl, rfl⟩
  | cons m ms ih =>
    rw [List.foldl_cons, take_of_ne h]
    exact ih h

end

section
variable {len : ℕ} {buf : Mem} {first : Message} {rest : List Message}

/-- The last fragment is the first without fragments left. -/
theorem upToLast_of_countdown
    (h : ∀ pre m post, rest = pre ++ m :: post → fragmentsLeft m = post.length) :
    upToLast rest = rest ∧ (rest ≠ [] → ∃ m ∈ rest, fragmentsLeft m = 0) := by
  induction rest with
  | nil => exact ⟨rfl, fun hne => absurd rfl hne⟩
  | cons m rest ih =>
    have hm := h [] m rest rfl
    have hrest := ih fun pre x post heq => h (m :: pre) x post (by rw [heq, List.cons_append])
    cases rest with
    | nil => exact ⟨if_pos hm, fun _ => ⟨m, List.mem_cons_self, hm⟩⟩
    | cons x rest =>
      refine ⟨?_, fun _ => ?_⟩
      · rw [upToLast, if_neg (by rw [hm]; simp), hrest.1]
      · obtain ⟨y, hy, hleft⟩ := hrest.2 (List.cons_ne_nil _ _)
        exact ⟨y, List.mem_cons_of_mem _ hy, hleft⟩

theorem length_flatMap_restData_le {n : ℕ} (h : ∀ m ∈ rest, mbxLength m ≤ n) :
    (rest.flatMap restData).length ≤ rest.length * (n - 6) := by
  induction rest with
  | nil => simp
  | cons m rest ih =>
    rw [List.forall_mem_cons] at h
    have hm : (restData m).length = mbxLength m - 6 := by simp [restData, bytesAt]
    rw [List.flatMap_cons, List.length_append, hm, List.length_cons, Nat.add_mul, Nat.one_mul]
    have := ih h.2
    omega

theorem firstData_length : (firstData first).length = mbxLength first - 8 := by
  simp [firstData, bytesAt]

/-- No more than announced, if no fragment is longer than the first one. -/
theorem Conforming.length_objectList_le (h : Conforming first rest)
    (hlast : ∀ m ∈ rest, mbxLength m ≤ mbxLength first) :
    (objectList first rest).length ≤ announced first := by
  have := length_flatMap_restData_le hlast
  unfold objectList announced
  rw [List.length_append, firstData_length, h.fragmentsLeft_first]
  omega

/-- The call takes all fragments, and returns. -/
theorem odlistRead_of_conforming {ready : Ready} {waits : List (Option Message)}
    (h : Conforming first rest) (hready : ready.error = none)
    (hwaits : waits.reduceOption = rest) :
    odlistRead ready len buf (some first :: waits) =
      ⟨(rest.foldl OdList.take ((odlistInit len buf).take first)).finish, false, true⟩ := by
  have hcount : ∀ pre m post, first :: rest = pre ++ m :: post → fragmentsLeft m = post.length := by
    intro pre m post heq
    cases pre with
    | nil =>
      obtain ⟨rfl, rfl⟩ := List.cons_eq_cons.1 heq
      exact h.fragmentsLeft_first
    | cons x pre => exact h.fragmentsLeft_rest pre m post (List.cons_eq_cons.1 heq).2
  obtain ⟨hall, hlast⟩ := upToLast_of_countdown hcount
  rw [odlistRead_of_some hready rfl, List.reduceOption_cons_of_some, hwaits,
    if_pos (hlast (List.cons_ne_nil _ _)), hall, List.foldl_cons]

/-- With room for what is announced, the call has the list in its buffer. -/
theorem Conforming.filled (h : Conforming first rest) (buf : Mem)
    (hlast : ∀ m ∈ rest, mbxLength m ≤ mbxLength first) (hle : announced first ≤ len) :
    Filled buf (announced first) (objectList first rest)
      (rest.foldl OdList.take ((odlistInit len buf).take first)) := by
  have hfirst : Filled buf (announced first) (firstData first)
      ((odlistInit len buf).take first) :=
    filled_first (s := odlistInit len buf) rfl rfl h.listType hle
  cases rest with
  | nil => simpa [objectList] using hfirst
  | cons m rest =>
    have h10 := h.index (List.cons_ne_nil m rest)
    have hlen := h.length_objectList_le hlast
    unfold objectList at hlen ⊢
    rw [List.length_append] at hlen
    exact hfirst.foldl_take (by rw [firstData_length]; omega) h.header hlen

/-- What a call returns that has got a list. -/
structure Reassembled (len : ℕ) (buf : Mem) (first : Message) (rest : List Message) (c : OdCall) :
    Prop where
  returned : c.returned = true
  bounded : ∀ i ≥ len, c.state.buf i = buf i
  fits : announced first ≤ len → c.state.ret = .ok ∧
    c.state.len = (objectList first rest).length ∧
    c.state.buf = overlay buf (objectList first rest)
  tooSmall : len < announced first → c.state.ret = .mailboxBufferTooSmall ∧ c.state.buf = buf

/-- **The list is put together** if its last fragment is not longer than the others, and there is
room for what the first one announces. -/
theorem odlistRead_reassembles (ready : Ready) (len : ℕ) (buf : Mem) (first : Message)
    (rest : List Message) (waits : List (Option Message)) (hready : ready.error = none)
    (h : Conforming first rest) (hlast : ∀ m ∈ rest, mbxLength m ≤ mbxLength first)
    (hwaits : waits.reduceOption = rest) :
    Reassembled len buf first rest (odlistRead ready len buf (some first :: waits)) := by
  rw [odlistRead_of_conforming h hready hwaits]
  by_cases hle : announced first ≤ len
  · have hfilled := h.filled buf hlast hle
    have hlen := h.length_objectList_le hlast
    refine ⟨rfl, fun i hi => ?_, fun _ => ⟨hfilled.ret, ?_, hfilled.buf⟩, fun hlt => by omega⟩
    · exact (congrFun hfilled.buf i).trans (overlay_of_ge (by omega))
    · exact (if_pos hfilled.ret).trans hfilled.val
  · have htake := take_of_lt (s := odlistInit len buf) (m := first) rfl rfl
      (by rw [odLen_eq h.listType]; exact Nat.lt_of_not_le hle)
    obtain ⟨hret, hbuf⟩ := foldl_take_of_ne rest (s := (odlistInit len buf).take first)
      (by rw [htake]; simp)
    have hret := hret.trans (congrArg OdList.ret htake)
    have hbuf := hbuf.trans (congrArg OdList.buf htake)
    exact ⟨rfl, fun i _ => congrFun hbuf i, fun h => absurd h hle, fun _ => ⟨hret, hbuf⟩⟩

end

/-- A fragment of an object list with this length and this number of fragments left. -/
def listFragment (length left : UInt8) (data : List UInt8) : Message :=
  sendBuffer ([length, 0, 0, 0, 0, 3, 0, 0x80, 2, 0, left, 0] ++ data)

section
variable {length left : UInt8} {data : List UInt8}

theorem response_listFragment : service (listFragment length left data) = EC_COE_SDOINFO ∧
    opcode (listFragment length left data) = EC_COE_SDO_INFO_ODLIST_RESP := by
  have h6 : listFragment length left data 6 = 0 := rfl
  have h7 : listFragment length left data (6 + 1) = 0x80 := rfl
  have h8 : listFragment length left data 8 = 2 := rfl
  unfold service opcode u16
  rw [h6, h7, h8]
  decide

theorem mbxLength_listFragment : mbxLength (listFragment length left data) = length.toNat := by
  have h0 : listFragment length left data 0 = length := rfl
  have h1 : listFragment length left data (0 + 1) = 0 := rfl
  unfold mbxLength u16
  rw [h0, h1]
  simp

theorem fragmentsLeft_listFragment :
    fragmentsLeft (listFragment length left data) = left.toNat := by
  have h10 : listFragment length left data 10 = left := rfl
  have h11 : listFragment length left data (10 + 1) = 0 := rfl
  unfold fragmentsLeft u16
  rw [h10, h11]
  simp

/-- A list of two fragments. -/
theorem conforming_pair (h6 : 6 ≤ length.toNat) :
    Conforming (listFragment 10 1 [1, 0, 0x00, 0x10]) [listFragment length 0 data] where
  response := List.forall_mem_cons.2
    ⟨response_listFragment, List.forall_mem_singleton.2 response_listFragment⟩
  fragmentsLeft_first := fragmentsLeft_listFragment
  fragmentsLeft_rest pre m post heq := by
    cases pre with
    | nil =>
      obtain ⟨rfl, rfl⟩ : listFragment length 0 data = m ∧ [] = post := by simpa using heq
      exact fragmentsLeft_listFragment
    | cons x pre => simp at heq
  length := by simp
  listType := by decide
  index _ := by decide
  header := List.forall_mem_singleton.2 (by rwa [mbxLength_listFragment])

end

theorem odlistRead_reassembles_two :
    Reassembled 100 (fun _ => 0) (listFragment 10 1 [1, 0, 0x00, 0x10])
      [listFragment 8 0 [0x01, 0x10]]
      (odlistRead .all 100 (fun _ => 0)
        [some (listFragment 10 1 [1, 0, 0x00, 0x10]), none, some (listFragment 8 0 [0x01, 0x10])]) :=
  odlistRead_reassembles .all 100 (fun _ => 0) _ _ [none, some (listFragment 8 0 [0x01, 0x10])] rfl
    (conforming_pair (by decide)) (by decide) rfl

/-- A last fragment with three indices behind a first one with one: the buffer of 100 bytes gets
only the 6 bytes that have been announced. -/
theorem odlistRead_not_reassembled :
    Conforming (listFragment 10 1 [1, 0, 0x00, 0x10])
        [listFragment 12 0 [0x01, 0x10, 0x02, 0x10, 0x03, 0x10]] ∧
      ¬ Reassembled 100 (fun _ => 0) (listFragment 10 1 [1, 0, 0x00, 0x10])
        [listFragment 12 0 [0x01, 0x10, 0x02, 0x10, 0x03, 0x10]]
        (odlistRead .all 100 (fun _ => 0)
          [some (listFragment 10 1 [1, 0, 0x00, 0x10]),
            some (listFragment 12 0 [0x01, 0x10, 0x02, 0x10, 0x03, 0x10])]) := by
  refine ⟨conforming_pair (by decide), fun h => ?_⟩
  have := (h.fits (by decide)).2.1
  revert this
  decide +kernel

/-! ## The end of the call -/

/-- Each message says how many follow it. -/
def CountDown : List Message → Prop
  | [] => True
  | m :: ms => fragmentsLeft m = ms.length ∧ CountDown ms

/-- After finitely many waits the call has returned and has released the lock, and if it has
succeeded, it has got all fragments of a list. -/
def Ends (ready : Ready) (len : ℕ) (buf : Mem) (waits : ℕ → Option Message) : Prop :=
  ∃ k, (odlistRead ready len buf ((List.range k).map waits)).returned = true ∧
    (odlistRead ready len buf ((List.range k).map waits)).locked = false ∧
    ((odlistRead ready len buf ((List.range k).map waits)).state.ret = .ok →
      (odlistRead ready len buf ((List.range k).map waits)).state.received ≠ [] ∧
      CountDown (odlistRead ready len buf ((List.range k).map waits)).state.received)

/-- The first message announces a list that is too large for the buffer, or a later one does so
while none before it has had data. -/
def TooLarge : ℕ → List Message → Prop
  | _, [] => False
  | len, m :: ms => len < odLen m ∨ actLen (odLen m) 0 m = 0 ∧ TooLarge (odLen m) ms

/-- What the first `k` waits get. -/
def messages (waits : ℕ → Option Message) (k : ℕ) : List Message :=
  ((List.range k).map waits).reduceOption

/-- The messages up to the last fragment are there, and they are a whole list or too large. -/
structure Finished (len : ℕ) (ms : List Message) : Prop where
  last : ∃ m ∈ ms, fragmentsLeft m = 0
  whole : CountDown (upToLast ms) ∨ TooLarge len (upToLast ms)

section
variable {ready : Ready} {len : ℕ} {buf : Mem} {s : OdList} {m : Message} {ms : List Message}
  {waits : ℕ → Option Message}

theorem foldl_take_received (s : OdList) (ms : List Message) :
    (ms.foldl OdList.take s).received = s.received ++ ms := by
  induction ms generalizing s with
  | nil => simp
  | cons m ms ih => rw [List.foldl_cons, ih, take_received, List.append_assoc, List.singleton_append]

theorem append_ret (s : OdList) (m : Message) : (s.append m).ret = s.ret := by
  unfold OdList.append
  split_ifs <;> rfl

theorem append_len (s : OdList) (m : Message) : (s.append m).len = s.len := by
  unfold OdList.append
  split_ifs <;> rfl

theorem append_val (hret : s.ret = .ok) : (s.append m).val = s.val + actLen s.len s.val m := by
  unfold OdList.append
  split_ifs with h
  · rfl
  · have hzero : actLen s.len s.val m = 0 := by
      by_contra hne
      exact h ⟨hret, Nat.pos_of_ne_zero hne⟩
    rw [hzero, Nat.add_zero]

/-- A call that has copied something does not estimate again. -/
theorem foldl_take_ret_of_val (ms : List Message) (hret : s.ret = .ok) (hval : s.val ≠ 0) :
    (ms.foldl OdList.take s).ret = .ok := by
  induction ms generalizing s with
  | nil => exact hret
  | cons m ms ih =>
    have hestimate : s.estimate m = s := if_neg fun h => hval h.2
    have htake : s.take m =
        { s.append m with fragLeft := fragmentsLeft m, received := s.received ++ [m] } := by
      unfold OdList.take
      rw [hestimate]
    rw [List.foldl_cons, htake]
    apply ih
    · exact (append_ret s m).trans hret
    · show (s.append m).val ≠ 0
      rw [append_val hret]
      omega

/-- A first fragment that the buffer has room for. -/
theorem take_of_le (hret : s.ret = .ok) (hval : s.val = 0) (h : ¬ s.len < odLen m) :
    (s.take m).ret = .ok ∧ (s.take m).len = odLen m ∧
      (s.take m).val = actLen (odLen m) 0 m := by
  have hestimate : s.estimate m = { s with ret := .ok, len := odLen m } := by
    unfold OdList.estimate
    rw [if_pos ⟨hret, hval⟩, if_neg h]
  unfold OdList.take
  rw [hestimate]
  refine ⟨append_ret _ m, append_len _ m, ?_⟩
  show (OdList.append _ m).val = _
  rw [append_val rfl]
  simp [hval]

/-- **The error.** The call fails just if the list is too large. -/
theorem foldl_take_ret (ms : List Message) (hret : s.ret = .ok) (hval : s.val = 0) :
    (ms.foldl OdList.take s).ret = .ok ↔ ¬ TooLarge s.len ms := by
  induction ms generalizing s with
  | nil => exact iff_of_true hret id
  | cons m ms ih =>
    rw [List.foldl_cons, TooLarge]
    by_cases hlt : s.len < odLen m
    · have hfails : (s.take m).ret ≠ .ok := by
        rw [take_of_lt hret hval hlt]
        simp
      have hret' := (foldl_take_of_ne ms hfails).1
      simp [hret', hfails, hlt]
    · obtain ⟨hok, hlen, hact⟩ := take_of_le hret hval hlt
      by_cases hzero : actLen (odLen m) 0 m = 0
      · -- the next message is a first one, too
        rw [ih hok (hact.trans hzero), hlen]
        simp [hlt, hzero]
      · simp [foldl_take_ret_of_val ms hok (hact.symm ▸ hzero), hlt, hzero]

theorem upToLast_ne_nil (h : ms ≠ []) : upToLast ms ≠ [] := by
  obtain ⟨m, rest, rfl⟩ := List.exists_cons_of_ne_nil h
  rw [upToLast]
  split_ifs <;> simp

/-- The call after `k` waits, the first of which has got a message. -/
theorem odlistRead_messages (hready : ready.error = none) (h0 : waits 0 ≠ none) {k : ℕ}
    (hk : messages waits k ≠ []) : odlistRead ready len buf ((List.range k).map waits) =
      if ∃ m ∈ messages waits k, fragmentsLeft m = 0 then
        ⟨((upToLast (messages waits k)).foldl OdList.take (odlistInit len buf)).finish, false, true⟩
      else ⟨(upToLast (messages waits k)).foldl OdList.take (odlistInit len buf), true, false⟩ := by
  obtain ⟨m, hm⟩ := Option.ne_none_iff_exists'.1 h0
  cases k with
  | zero => exact absurd rfl hk
  | succ k =>
    refine odlistRead_of_some (m := m) hready ?_
    rw [List.range_succ_eq_map, List.map_cons, List.head?_cons, hm]

/-- What the call returns when it has got the last fragment. -/
theorem finished_iff (hlast : ∃ m ∈ ms, fragmentsLeft m = 0) :
    ((((upToLast ms).foldl OdList.take (odlistInit len buf)).finish).ret = .ok →
      (((upToLast ms).foldl OdList.take (odlistInit len buf)).finish).received ≠ [] ∧
      CountDown (((upToLast ms).foldl OdList.take (odlistInit len buf)).finish).received) ↔
      Finished len ms := by
  have hreceived : (((upToLast ms).foldl OdList.take (odlistInit len buf)).finish).received =
      upToLast ms := foldl_take_received (odlistInit len buf) _
  have hret : (((upToLast ms).foldl OdList.take (odlistInit len buf)).finish).ret = .ok ↔
      ¬ TooLarge len (upToLast ms) := foldl_take_ret (s := odlistInit len buf) _ rfl rfl
  have hne : upToLast ms ≠ [] := by
    obtain ⟨m, hm, -⟩ := hlast
    exact upToLast_ne_nil (List.ne_nil_of_mem hm)
  rw [hreceived, hret, and_iff_right hne, ← or_iff_not_imp_left, or_comm]
  exact ⟨fun h => ⟨hlast, h⟩, Finished.whole⟩

/-- A call that has ended as it should. -/
theorem Ends.finished (h : Ends ready len buf waits) (hready : ready.error = none) :
    waits 0 ≠ none ∧ ∃ k, Finished len (messages waits k) := by
  obtain ⟨k, hreturned, -, hok⟩ := h
  cases k with
  | zero =>
    rw [List.range_zero, List.map_nil, odlistRead, List.foldl_nil,
      odlistStart_of_none hready] at hreturned
    cases hreturned
  | succ k =>
    have hhead : ((List.range (k + 1)).map waits).head? = some (waits 0) := by
      rw [List.range_succ_eq_map, List.map_cons, List.head?_cons]
    cases h0 : waits 0 with
    | none =>
      -- nothing has come, and the call has succeeded
      rw [odlistRead_of_silent hready (by rw [hhead, h0])] at hok
      exact absurd rfl (hok rfl).1
    | some m0 =>
      have hne : waits 0 ≠ none := by simp [h0]
      have hmessages : messages waits (k + 1) ≠ [] := by
        rw [messages, List.range_succ_eq_map, List.map_cons, h0, List.reduceOption_cons_of_some]
        exact List.cons_ne_nil _ _
      rw [odlistRead_messages hready hne hmessages] at hreturned hok
      split_ifs at hreturned with hlast
      rw [if_pos hlast] at hok
      exact ⟨h0 ▸ hne, k + 1, (finished_iff hlast).1 hok⟩

/-- **The call ends as it should** if and only if its first wait gets a message, and the last
fragment of a whole list comes, or of one that is too large. -/
theorem odlistRead_ends_iff (ready : Ready) (len : ℕ) (buf : Mem) (waits : ℕ → Option Message) :
    Ends ready len buf waits ↔ (ready.error = none →
      waits 0 ≠ none ∧ ∃ k, Finished len (messages waits k)) := by
  refine ⟨Ends.finished, fun h => ?_⟩
  cases hready : ready.error with
  | some ret =>
    refine ⟨0, ?_⟩
    rw [List.range_zero, List.map_nil, odlistRead, List.foldl_nil, odlistStart_of_some hready]
    exact ⟨rfl, rfl, fun hok => absurd hok (Ready.error_ne_ok hready)⟩
  | none =>
    obtain ⟨h0, k, hfinished⟩ := h hready
    have hmessages : messages waits k ≠ [] := by
      obtain ⟨m, hm, -⟩ := hfinished.last
      exact List.ne_nil_of_mem hm
    refine ⟨k, ?_⟩
    rw [odlistRead_messages hready h0 hmessages, if_pos hfinished.last]
    exact ⟨rfl, rfl, (finished_iff hfinished.last).2 hfinished⟩

/-- The slave falls silent when one fragment is left. -/
theorem odlistRead_not_ends : ¬ Ends .all 100 (fun _ => 0)
    fun k => if k = 0 then some (listFragment 10 1 [1, 0, 0x00, 0x10]) else none := by
  intro h
  obtain ⟨-, k, ⟨m, hm, hleft⟩, -⟩ := h.finished rfl
  obtain ⟨j, -, hj⟩ := List.mem_map.1 (List.reduceOption_mem_iff.1 hm)
  split_ifs at hj
  rw [← Option.some.inj hj, fragmentsLeft_listFragment] at hleft
  exact absurd hleft (by decide)

end

end LibEthercat.Coe
