import LibEthercat.Coe.ObjectList

/-!
# Answers to SDO information requests

What the three clients make of the messages that come. `ec_coe_sdo_desc_read` and
`ec_coe_sdo_entry_desc_read` wait until an answer or an error is there, and take any message with
another op code as the end once their result is `EC_OK`, which that of the former is from the
beginning. `ec_coe_odlist_read` looks at neither service nor op code.

**Theorem (`info_matching_iff`).** When the result of a client that succeeds comes from an answer to
its request, and from inside of it.
-/

namespace LibEthercat.Coe

open Mbx.Enqueue (EC_COE_SDOINFO EC_COE_SDO_INFO_ERROR_REQUEST
  EC_COE_SDO_INFO_GET_ENTRY_DESC_RESP EC_COE_SDO_INFO_GET_OBJECT_DESC_RESP opcode fragmentsLeft)

/-! ## The descriptions -/

structure InfoRead where
  ret : Ret
  /-- What has been written to `*error_code`. -/
  errorCode : Option ℕ
  received : List Message
  /-- What `desc` has been filled with, nothing if it has been cleared. -/
  copies : List Copy

/-- One round of the loop; `fields` are filled from an answer with the op code `response`. -/
def infoAnswer (response : ℕ) (fields : Message → List Copy) (c : InfoRead) (m : Message) :
    InfoRead :=
  if service m = EC_COE_SDOINFO then
    if opcode m = response then ⟨.ok, c.errorCode, c.received ++ [m], fields m⟩
    else if opcode m = EC_COE_SDO_INFO_ERROR_REQUEST then
      ⟨.mailboxAbort, some (u32 m 12), c.received ++ [m], c.copies⟩
    else { c with received := c.received ++ [m] }
  else ⟨.mailboxRead, c.errorCode, c.received ++ [m], []⟩

/-- The loop over the messages that `ec_coe_wait` returns until it returns none. -/
def infoReadLoop (response : ℕ) (fields : Message → List Copy) (c : InfoRead) :
    List Message → InfoRead
  | [] => c
  | m :: msgs =>
    let c := infoAnswer response fields c m
    if c.ret = .ok ∨ c.ret = .mailboxAbort then c else infoReadLoop response fields c msgs

/-- `ret` is what the result is set to at first. -/
def infoRead (response : ℕ) (fields : Message → List Copy) (ret : Ret) (ready : Ready)
    (msgs : List Message) : InfoRead :=
  match ready.error with
  | some ret => ⟨ret, none, [], []⟩
  | none => infoReadLoop response fields ⟨ret, none, [], []⟩ msgs

def CANOPEN_MAXNAME : ℕ := 40

def CANOPEN_MAXDATA : ℕ := 128

/-- `name_len`, computed with 32 bits. -/
def nameLen (m : Message) : ℕ := min CANOPEN_MAXNAME (UInt32.ofNat (mbxLength m) - 6 - 6).toNat

/-- `data_len` -/
def dataLen (m : Message) : ℕ := min CANOPEN_MAXDATA (UInt32.ofNat (mbxLength m) - 6 - 10).toNat

/-- `data_type`, `max_subindices`, `obj_code` and `name`. -/
def sdoDescFields (m : Message) : List Copy :=
  [⟨m, 14, 2⟩, ⟨m, 16, 1⟩, ⟨m, 17, 1⟩, ⟨m, 18, nameLen m⟩]

/-- `value_info`, `data_type`, `bit_length`, `obj_access` and `data`. -/
def sdoEntryDescFields (m : Message) : List Copy :=
  [⟨m, 15, 1⟩, ⟨m, 16, 2⟩, ⟨m, 18, 2⟩, ⟨m, 20, 2⟩, ⟨m, 22, dataLen m⟩]

def sdoDescRead : Ready → List Message → InfoRead :=
  infoRead EC_COE_SDO_INFO_GET_OBJECT_DESC_RESP sdoDescFields .ok

def sdoEntryDescRead : Ready → List Message → InfoRead :=
  infoRead EC_COE_SDO_INFO_GET_ENTRY_DESC_RESP sdoEntryDescFields .mailboxRead

/-! ## Property and conditions -/

/-- An SDO information message with this op code. -/
def IsResponse (response : ℕ) (m : Message) : Prop :=
  service m = EC_COE_SDOINFO ∧ opcode m = response

instance (response : ℕ) (m : Message) : Decidable (IsResponse response m) :=
  inferInstanceAs (Decidable (_ ∧ _))

/-- Success means that an answer has come, and what is returned lies in answers. -/
def Matching (response : ℕ) (ret : Ret) (received : List Message) (copies : List Copy) : Prop :=
  ret = .ok → (∃ m ∈ received, IsResponse response m) ∧
    ∀ c ∈ copies, c.message ∈ received ∧ IsResponse response c.message ∧
      Inside c.message c.offset c.bytes

def InfoRead.Matches (response : ℕ) (c : InfoRead) : Prop :=
  Matching response c.ret c.received c.copies

def OdList.Matches (s : OdList) : Prop :=
  Matching EC_COE_SDO_INFO_ODLIST_RESP s.ret s.received s.copies

/-- The message ends the wait for a description, whatever has come before. -/
def Decides (response : ℕ) (m : Message) : Prop :=
  IsResponse response m ∨ IsResponse EC_COE_SDO_INFO_ERROR_REQUEST m

instance (response : ℕ) (m : Message) : Decidable (Decides response m) :=
  inferInstanceAs (Decidable (_ ∨ _))

/-- The first message that decides is not an answer with less than `n` bytes. -/
def DecidedWell (response n : ℕ) (msgs : List Message) : Prop :=
  ∀ m, msgs.find? (Decides response ·) = some m → IsResponse response m → n ≤ mbxLength m

/-- The messages that `ec_coe_odlist_read` takes. -/
def odlistMessages : List (Option Message) → List Message
  | none :: _ => []
  | waits => upToLast waits.reduceOption

/-- An answer is among the messages, and each message that adds data to the `val` bytes, as far as
`len` allows, is one and has its data in it; or the first fragment is too large. -/
def ListMatches (len val : ℕ) (answered : Prop) : List Message → Prop
  | [] => answered
  | m :: ms =>
    if val = 0 ∧ len < odLen m then True
    else
      let len := if val = 0 then odLen m else len
      (0 < actLen len val m → IsResponse EC_COE_SDO_INFO_ODLIST_RESP m ∧
        (if val = 0 then 8 else 6) ≤ mbxLength m) ∧
      ListMatches len (val + actLen len val m)
        (answered ∨ IsResponse EC_COE_SDO_INFO_ODLIST_RESP m) ms

/-! ## Fields -/

section
variable {m : Message} {offset bytes : ℕ}

theorem inside_iff : Inside m offset bytes ↔
    bytes = 0 ∨ 6 ≤ offset ∧ offset + bytes ≤ 6 + mbxLength m := by
  constructor
  · intro h
    by_cases h0 : bytes = 0
    · exact Or.inl h0
    · have hfirst := h 0 (by omega)
      have hlast := h (bytes - 1) (by omega)
      exact Or.inr ⟨by omega, by omega⟩
  · rintro (rfl | h) i hi
    · exact absurd hi (Nat.not_lt_zero i)
    · omega

theorem nameLen_eq : nameLen m = if 12 ≤ mbxLength m then min 40 (mbxLength m - 12) else 40 := by
  have hlt := mbxLength_lt m
  unfold nameLen CANOPEN_MAXNAME
  rw [UInt32.toNat_sub, UInt32.toNat_sub, UInt32.toNat_ofNat']
  simp only [UInt32.reduceToNat]
  split_ifs <;> omega

theorem dataLen_eq : dataLen m =
    if 16 ≤ mbxLength m then min 128 (mbxLength m - 16) else 128 := by
  have hlt := mbxLength_lt m
  unfold dataLen CANOPEN_MAXDATA
  rw [UInt32.toNat_sub, UInt32.toNat_sub, UInt32.toNat_ofNat']
  simp only [UInt32.reduceToNat]
  split_ifs <;> omega

/-- The fields of a description lie in a message that has all but the name. -/
theorem inside_sdoDescFields :
    (∀ c ∈ sdoDescFields m, Inside c.message c.offset c.bytes) ↔ 12 ≤ mbxLength m := by
  simp only [sdoDescFields, List.forall_mem_cons, List.not_mem_nil, IsEmpty.forall_iff,
    implies_true, and_true, inside_iff, nameLen_eq]
  split_ifs <;> simp only [false_or] <;> omega

theorem inside_sdoEntryDescFields :
    (∀ c ∈ sdoEntryDescFields m, Inside c.message c.offset c.bytes) ↔ 16 ≤ mbxLength m := by
  simp only [sdoEntryDescFields, List.forall_mem_cons, List.not_mem_nil, IsEmpty.forall_iff,
    implies_true, and_true, inside_iff, dataLen_eq]
  split_ifs <;> simp only [false_or] <;> omega

theorem message_sdoDescFields : ∀ c ∈ sdoDescFields m, c.message = m := by
  simp [sdoDescFields]

theorem message_sdoEntryDescFields : ∀ c ∈ sdoEntryDescFields m, c.message = m := by
  simp [sdoEntryDescFields]

end

/-! ## The loop for a description -/

section
variable {response n : ℕ} {fields : Message → List Copy} {c : InfoRead} {m : Message}
  {msgs : List Message}

theorem infoAnswer_response (h : IsResponse response m) :
    infoAnswer response fields c m = ⟨.ok, c.errorCode, c.received ++ [m], fields m⟩ := by
  unfold infoAnswer
  rw [if_pos h.1, if_pos h.2]

theorem infoAnswer_error (h : ¬ IsResponse response m)
    (herror : IsResponse EC_COE_SDO_INFO_ERROR_REQUEST m) :
    (infoAnswer response fields c m).ret = .mailboxAbort := by
  unfold infoAnswer
  rw [if_pos herror.1, if_neg fun hop => h ⟨herror.1, hop⟩, if_pos herror.2]

/-- A message that decides nothing leaves a result that is an error an error. -/
theorem infoAnswer_other (fields : Message → List Copy) (h : ¬ Decides response m) (hok : c.ret ≠ .ok)
    (habort : c.ret ≠ .mailboxAbort) :
    (infoAnswer response fields c m).ret ≠ .ok ∧
      (infoAnswer response fields c m).ret ≠ .mailboxAbort := by
  unfold infoAnswer
  split_ifs with hservice hop herror
  · exact absurd (Or.inl ⟨hservice, hop⟩) h
  · exact absurd (Or.inr ⟨hservice, herror⟩) h
  · exact ⟨hok, habort⟩
  · simp

/-- What is taken last, if it is an answer. -/
theorem matching_answer {received : List Message}
    (hmessage : ∀ c ∈ fields m, c.message = m)
    (hinside : (∀ c ∈ fields m, Inside c.message c.offset c.bytes) ↔ n ≤ mbxLength m)
    (h : IsResponse response m) :
    Matching response .ok (received ++ [m]) (fields m) ↔ n ≤ mbxLength m := by
  rw [← hinside]
  constructor
  · intro hmatch c hc
    exact ((hmatch rfl).2 c hc).2.2
  · intro hall _
    refine ⟨⟨m, by simp, h⟩, fun c hc => ⟨?_, ?_, hall c hc⟩⟩
    · rw [hmessage c hc]
      simp
    · rwa [hmessage c hc]

/-- A call that has no success yet. -/
theorem infoReadLoop_matching_iff (hmessage : ∀ m, ∀ c ∈ fields m, c.message = m)
    (hinside : ∀ m, (∀ c ∈ fields m, Inside c.message c.offset c.bytes) ↔ n ≤ mbxLength m)
    (hok : c.ret ≠ .ok) (habort : c.ret ≠ .mailboxAbort) :
    (infoReadLoop response fields c msgs).Matches response ↔ DecidedWell response n msgs := by
  induction msgs generalizing c with
  | nil => exact iff_of_true (fun h => absurd h hok) (by simp [DecidedWell])
  | cons m msgs ih =>
    unfold infoReadLoop
    by_cases hresponse : IsResponse response m
    · have hfind : (m :: msgs).find? (Decides response ·) = some m :=
        List.find?_cons_of_pos (decide_eq_true (Or.inl hresponse))
      rw [infoAnswer_response hresponse, if_pos (Or.inl rfl), InfoRead.Matches,
        matching_answer (hmessage m) (hinside m) hresponse]
      unfold DecidedWell
      rw [hfind]
      simp [hresponse]
    by_cases herror : IsResponse EC_COE_SDO_INFO_ERROR_REQUEST m
    · have hfind : (m :: msgs).find? (Decides response ·) = some m :=
        List.find?_cons_of_pos (decide_eq_true (Or.inr herror))
      have hret : (infoAnswer response fields c m).ret = .mailboxAbort :=
        infoAnswer_error hresponse herror
      rw [if_pos (Or.inr hret)]
      unfold DecidedWell
      rw [hfind]
      refine iff_of_true (fun h => ?_) ?_
      · rw [hret] at h
        cases h
      · intro x hx hanswer
        exact absurd (Option.some.inj hx ▸ hanswer) hresponse
    · have hother : ¬ Decides response m := fun h => h.elim hresponse herror
      have hfind : (m :: msgs).find? (Decides response ·) = msgs.find? (Decides response ·) :=
        List.find?_cons_of_neg (by simpa using hother)
      obtain ⟨hok', habort'⟩ := infoAnswer_other fields hother hok habort
      rw [if_neg (fun h => h.elim hok' habort'), ih hok' habort']
      unfold DecidedWell
      rw [hfind]

end

/-! ## The loop for a list -/

section
variable {s : OdList} {m : Message} {ms : List Message}

/-- What the call has copied lies in answers that it has got. -/
def CopiesMatch (s : OdList) : Prop :=
  ∀ c ∈ s.copies, c.message ∈ s.received ∧ IsResponse EC_COE_SDO_INFO_ODLIST_RESP c.message ∧
    Inside c.message c.offset c.bytes

/-- A message that is not the first fragment of a list that is too large. -/
theorem take_of_not_lt (hret : s.ret = .ok) (h : ¬ (s.val = 0 ∧ s.len < odLen m)) {len n : ℕ}
    (hlen : (if s.val = 0 then odLen m else s.len) = len) (hn : actLen len s.val m = n) :
    (s.take m).ret = .ok ∧ (s.take m).len = len ∧ (s.take m).val = s.val + n ∧
      (s.take m).copies =
        if 0 < n then s.copies ++ [⟨m, fragmentOffset s.val, n⟩] else s.copies := by
  have hestimate : s.estimate m = { s with len := len } := by
    unfold OdList.estimate
    by_cases hval : s.val = 0
    · rw [if_pos hval] at hlen
      rw [if_pos ⟨hret, hval⟩, if_neg (fun hlt => h ⟨hval, hlt⟩), hlen, hret]
    · rw [if_neg hval] at hlen
      rw [if_neg (fun hfirst => hval hfirst.2), ← hlen]
  unfold OdList.take
  rw [hestimate]
  unfold OdList.append
  by_cases hpos : 0 < n
  · rw [if_pos hpos, if_pos ⟨hret, by rwa [hn]⟩, hn]
    exact ⟨hret, rfl, rfl, rfl⟩
  · rw [if_neg hpos, if_neg fun hlt => hpos (by rw [← hn]; exact hlt.2)]
    have h0 : n = 0 := Nat.eq_zero_of_not_pos hpos
    exact ⟨hret, rfl, by rw [h0]; rfl, rfl⟩

/-- Data once copied remain, and the call succeeds then. -/
theorem foldl_take_ok (ms : List Message) (hret : s.ret = .ok) (hval : 0 < s.val) :
    (ms.foldl OdList.take s).ret = .ok ∧
      ∀ c ∈ s.copies, c ∈ (ms.foldl OdList.take s).copies := by
  induction ms generalizing s with
  | nil => exact ⟨hret, fun c hc => hc⟩
  | cons m ms ih =>
    obtain ⟨hret', -, hval', hcopies⟩ :=
      take_of_not_lt hret (m := m) (fun h => Nat.ne_of_gt hval h.1) (if_neg (Nat.ne_of_gt hval)) rfl
    obtain ⟨hok, hall⟩ := ih hret' (by omega)
    refine ⟨hok, fun c hc => hall c ?_⟩
    rw [hcopies]
    split_ifs with hpos
    · exact List.mem_append_left _ hc
    · exact hc

/-- Where the data of a fragment lie. -/
theorem inside_fragment {len val : ℕ} (hpos : 0 < actLen len val m) :
    Inside m (fragmentOffset val) (actLen len val m) ↔
      (if val = 0 then 8 else 6) ≤ mbxLength m := by
  rw [inside_iff]
  unfold fragmentOffset
  by_cases hval : val = 0
  · subst hval
    rw [if_pos rfl, if_pos rfl]
    by_cases h8 : 8 ≤ mbxLength m
    · rw [actLen_first h8] at hpos ⊢
      omega
    · omega
  · rw [if_neg hval, if_neg hval]
    by_cases h6 : 6 ≤ mbxLength m
    · rw [actLen_rest (by omega) h6] at hpos ⊢
      omega
    · omega

/-- A fragment from which the right data are copied. -/
theorem copiesMatch_take {len n : ℕ} (hret : s.ret = .ok) (hlt : ¬ (s.val = 0 ∧ s.len < odLen m))
    (hlen : (if s.val = 0 then odLen m else s.len) = len) (hn : actLen len s.val m = n)
    (hcopies : CopiesMatch s)
    (hgood : 0 < n → IsResponse EC_COE_SDO_INFO_ODLIST_RESP m ∧
      (if s.val = 0 then 8 else 6) ≤ mbxLength m) : CopiesMatch (s.take m) := by
  obtain ⟨-, -, -, hcopies'⟩ := take_of_not_lt hret hlt hlen hn
  have hbefore : ∀ c ∈ s.copies, c.message ∈ s.received ++ [m] ∧ _ := fun c hc =>
    ⟨List.mem_append_left _ (hcopies c hc).1, (hcopies c hc).2⟩
  intro c hc
  rw [take_received]
  rw [hcopies'] at hc
  split_ifs at hc with hpos
  · rcases List.mem_append.1 hc with hc | hc
    · exact hbefore c hc
    · obtain rfl := List.mem_singleton.1 hc
      obtain ⟨hresponse, hheader⟩ := hgood hpos
      refine ⟨by simp, hresponse, ?_⟩
      rw [← hn] at hpos ⊢
      exact (inside_fragment hpos).2 hheader
  · exact hbefore c hc

/-- The whole loop, from a call on that has copied what it should. -/
theorem foldl_take_matching_iff (ms : List Message) (hret : s.ret = .ok) (hcopies : CopiesMatch s) :
    (ms.foldl OdList.take s).Matches ↔
      ListMatches s.len s.val (∃ m ∈ s.received, IsResponse EC_COE_SDO_INFO_ODLIST_RESP m) ms := by
  induction ms generalizing s with
  | nil =>
    exact ⟨fun h => (h hret).1, fun h _ => ⟨h, hcopies⟩⟩
  | cons m ms ih =>
    rw [List.foldl_cons, ListMatches]
    by_cases hlt : s.val = 0 ∧ s.len < odLen m
    · rw [if_pos hlt]
      refine iff_of_true (fun h => ?_) trivial
      have hsmall : (s.take m).ret = .mailboxBufferTooSmall := by
        rw [take_of_lt hret hlt.1 hlt.2]
      rw [(foldl_take_of_ne ms (by rw [hsmall]; simp)).1, hsmall] at h
      cases h
    · rw [if_neg hlt]
      dsimp only
      obtain ⟨len, hlen⟩ : ∃ len, (if s.val = 0 then odLen m else s.len) = len := ⟨_, rfl⟩
      obtain ⟨n, hn⟩ : ∃ n, actLen len s.val m = n := ⟨_, rfl⟩
      obtain ⟨hret', hlen', hval', hcopies'⟩ := take_of_not_lt hret hlt hlen hn
      have hanswered : ((∃ x ∈ s.received, IsResponse EC_COE_SDO_INFO_ODLIST_RESP x) ∨
          IsResponse EC_COE_SDO_INFO_ODLIST_RESP m) =
          ∃ x ∈ (s.take m).received, IsResponse EC_COE_SDO_INFO_ODLIST_RESP x := by
        simp [or_and_right, exists_or]
      rw [hlen, hn, hanswered]
      by_cases hgood : 0 < n → IsResponse EC_COE_SDO_INFO_ODLIST_RESP m ∧
          (if s.val = 0 then 8 else 6) ≤ mbxLength m
      · have htake := copiesMatch_take hret hlt hlen hn hcopies hgood
        have hrest := ih hret' htake
        rw [hlen', hval'] at hrest
        rw [hrest, and_iff_right hgood]
      · rw [Classical.not_imp] at hgood
        obtain ⟨hpos, hbad⟩ := hgood
        obtain ⟨hok, hall⟩ := foldl_take_ok ms hret' (by omega)
        have hmem : ⟨m, fragmentOffset s.val, n⟩ ∈ (s.take m).copies := by
          rw [hcopies', if_pos hpos]
          exact List.mem_append_right _ (List.mem_singleton_self _)
        refine iff_of_false (fun h => hbad ?_) fun h => hbad (h.1 hpos)
        obtain ⟨-, hresponse, hinside⟩ := (h hok).2 _ (hall _ hmem)
        rw [← hn] at hpos hinside
        exact ⟨hresponse, (inside_fragment hpos).1 hinside⟩

end

/-! ## The clients -/

section
variable {response : ℕ} {fields : Message → List Copy} {ret : Ret} {ready : Ready}
  {msgs : List Message}

theorem infoRead_of_none (h : ready.error = none) : infoRead response fields ret ready msgs =
    infoReadLoop response fields ⟨ret, none, [], []⟩ msgs := by
  unfold infoRead
  rw [h]

/-- A call without a request. -/
theorem matches_of_error (h : ready.error ≠ none) :
    (infoRead response fields ret ready msgs).Matches response := by
  obtain ⟨e, he⟩ := Option.ne_none_iff_exists'.1 h
  unfold infoRead
  rw [he]
  exact fun hok => absurd hok (Ready.error_ne_ok he)

/-- What the first result is does not matter unless the first message keeps it. -/
theorem infoReadLoop_first (r r' : Ret) {m : Message}
    (h : service m = EC_COE_SDOINFO → Decides response m) :
    infoReadLoop response fields ⟨r, none, [], []⟩ (m :: msgs) =
      infoReadLoop response fields ⟨r', none, [], []⟩ (m :: msgs) := by
  have hanswer : infoAnswer response fields ⟨r, none, [], []⟩ m =
      infoAnswer response fields ⟨r', none, [], []⟩ m := by
    unfold infoAnswer
    split_ifs with hservice hop herror
    · rfl
    · rfl
    · exact ((h hservice).elim (fun hr => absurd hr.2 hop) fun he => absurd he.2 herror)
    · rfl
  unfold infoReadLoop
  rw [hanswer]

end

theorem sdoEntryDescRead_matching_iff (ready : Ready) (msgs : List Message) :
    (sdoEntryDescRead ready msgs).Matches EC_COE_SDO_INFO_GET_ENTRY_DESC_RESP ↔
      (ready.error = none → DecidedWell EC_COE_SDO_INFO_GET_ENTRY_DESC_RESP 16 msgs) := by
  unfold sdoEntryDescRead
  by_cases hready : ready.error = none
  · rw [infoRead_of_none hready, forall_prop_of_true hready]
    exact infoReadLoop_matching_iff (fun _ => message_sdoEntryDescFields)
      (fun _ => inside_sdoEntryDescFields) (by simp) (by simp)
  · exact iff_of_true (matches_of_error hready) fun h => absurd h hready

/-- The result of a description of an object is `EC_OK` from the beginning: there must be a first
message, and one with an op code of another kind must not be the first. -/
theorem sdoDescRead_matching_iff (ready : Ready) (msgs : List Message) :
    (sdoDescRead ready msgs).Matches EC_COE_SDO_INFO_GET_OBJECT_DESC_RESP ↔
      (ready.error = none → (∃ m ∈ msgs.head?, service m = EC_COE_SDOINFO →
          Decides EC_COE_SDO_INFO_GET_OBJECT_DESC_RESP m) ∧
        DecidedWell EC_COE_SDO_INFO_GET_OBJECT_DESC_RESP 12 msgs) := by
  unfold sdoDescRead
  by_cases hready : ready.error = none
  · rw [infoRead_of_none hready, forall_prop_of_true hready]
    cases msgs with
    | nil =>
      refine iff_of_false (fun h => ?_) (by simp)
      obtain ⟨m, hm, -⟩ := (h rfl).1
      cases hm
    | cons m msgs =>
      rw [List.head?_cons]
      by_cases hfirst : service m = EC_COE_SDOINFO → Decides EC_COE_SDO_INFO_GET_OBJECT_DESC_RESP m
      · rw [infoReadLoop_first .ok .mailboxRead hfirst,
          infoReadLoop_matching_iff (fun _ => message_sdoDescFields)
            (fun _ => inside_sdoDescFields) (by simp) (by simp)]
        exact (and_iff_right ⟨m, rfl, hfirst⟩).symm
      · refine iff_of_false (fun h => ?_) fun h => hfirst (by simpa using h.1)
        rw [Classical.not_imp] at hfirst
        obtain ⟨hservice, hother⟩ := hfirst
        have hloop : infoReadLoop EC_COE_SDO_INFO_GET_OBJECT_DESC_RESP sdoDescFields
            ⟨.ok, none, [], []⟩ (m :: msgs) = ⟨.ok, none, [m], []⟩ := by
          unfold infoReadLoop infoAnswer
          rw [if_pos hservice, if_neg fun hop => hother (Or.inl ⟨hservice, hop⟩),
            if_neg fun herror => hother (Or.inr ⟨hservice, herror⟩)]
          exact if_pos (Or.inl rfl)
        rw [hloop] at h
        obtain ⟨x, hx, hresponse⟩ := (h rfl).1
        exact hother (Or.inl (List.mem_singleton.1 hx ▸ hresponse))
  · exact iff_of_true (matches_of_error hready) fun h => absurd h hready

theorem odlistRead_matching_iff (ready : Ready) (len : ℕ) (buf : Mem)
    (waits : List (Option Message)) (h : (odlistRead ready len buf waits).returned = true) :
    (odlistRead ready len buf waits).state.Matches ↔
      (ready.error = none → ListMatches len 0 False (odlistMessages waits)) := by
  cases hready : ready.error with
  | some ret =>
    rw [odlistRead, odlistStart_of_some hready, foldl_of_returned rfl]
    exact iff_of_true (fun hok => absurd hok (Ready.error_ne_ok hready)) (by simp)
  | none =>
    rw [forall_prop_of_true rfl]
    cases waits with
    | nil =>
      rw [odlistRead, List.foldl_nil, odlistStart_of_none hready] at h
      cases h
    | cons w waits =>
      cases w with
      | none =>
        rw [odlistRead_of_silent hready rfl]
        refine iff_of_false (fun hmatch => ?_) fun hmatch => hmatch
        obtain ⟨m, hm, -⟩ := (hmatch rfl).1
        cases hm
      | some m =>
        have hnone : (∃ m ∈ (odlistInit len buf).received,
            IsResponse EC_COE_SDO_INFO_ODLIST_RESP m) = False := by simp [odlistInit]
        rw [odlistRead_of_some hready rfl] at h ⊢
        split_ifs at h ⊢ with hlast
        have hloop := foldl_take_matching_iff (upToLast (some m :: waits).reduceOption)
          (s := odlistInit len buf) rfl (fun c hc => by cases hc)
        rw [hnone] at hloop
        exact hloop

/-- **When the result of a client comes from an answer**: for all three of them. -/
theorem info_matching_iff (ready : Ready) (msgs : List Message) (len : ℕ) (buf : Mem)
    (waits : List (Option Message)) (h : (odlistRead ready len buf waits).returned = true) :
    ((sdoDescRead ready msgs).Matches EC_COE_SDO_INFO_GET_OBJECT_DESC_RESP ↔
      (ready.error = none → (∃ m ∈ msgs.head?, service m = EC_COE_SDOINFO →
          Decides EC_COE_SDO_INFO_GET_OBJECT_DESC_RESP m) ∧
        DecidedWell EC_COE_SDO_INFO_GET_OBJECT_DESC_RESP 12 msgs)) ∧
    ((sdoEntryDescRead ready msgs).Matches EC_COE_SDO_INFO_GET_ENTRY_DESC_RESP ↔
      (ready.error = none → DecidedWell EC_COE_SDO_INFO_GET_ENTRY_DESC_RESP 16 msgs)) ∧
    ((odlistRead ready len buf waits).state.Matches ↔
      (ready.error = none → ListMatches len 0 False (odlistMessages waits))) :=
  ⟨sdoDescRead_matching_iff ready msgs, sdoEntryDescRead_matching_iff ready msgs,
    odlistRead_matching_iff ready len buf waits h⟩

/-- A slave that stays silent: only the description of an entry is not a success. -/
theorem info_matching_iff_silent :
    ¬ (sdoDescRead .all []).Matches EC_COE_SDO_INFO_GET_OBJECT_DESC_RESP ∧
      (sdoEntryDescRead .all []).Matches EC_COE_SDO_INFO_GET_ENTRY_DESC_RESP ∧
      ¬ (odlistRead .all 100 (fun _ => 0) [none]).state.Matches := by
  obtain ⟨hdesc, hentry, hlist⟩ := info_matching_iff .all [] 100 (fun _ => 0) [none] rfl
  refine ⟨fun h => ?_, hentry.2 fun _ m hm => (by cases hm), fun h => hlist.1 h rfl⟩
  obtain ⟨m, hm, -⟩ := (hdesc.1 h rfl).1
  cases hm

/-- No message, and a success. -/
theorem sdoDescRead_not_matches :
    ¬ (sdoDescRead .all []).Matches EC_COE_SDO_INFO_GET_OBJECT_DESC_RESP := by
  intro h
  obtain ⟨m, hm, -⟩ := (h rfl).1
  cases hm

end LibEthercat.Coe
