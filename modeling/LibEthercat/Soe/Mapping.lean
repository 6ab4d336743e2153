import Mathlib.Tactic.Choose
import LibEthercat.Lib.Traced
import LibEthercat.Soe.ReadLength

/-!
# `ec_soe_generate_mapping`

For each drive the IDNs of the telegrams are listed in IDN 16 and IDN 24. The function reads the length
of a list, then the list, and for each element of it the attribute of the IDN with this number. The
length is what the slave says, the list that is read is not longer than 512 bytes, and the number of
drives comes from the EEPROM.

**Theorem (`mappingInside_iff`).** The function stays inside its arrays, and uses only elements that
have been read, just if there are no more drives with lists than subdevices, and each list is as long
as its length word says. That is at most 509 (`supplied_iff`).
-/

namespace LibEthercat.Soe

open LibEthercat.Coe (Message u16 u32)

namespace Mapping

def lecMaxDs402Subdevs : ℕ := 4

/-- `idn_value[512]` -/
def idnValueSize : ℕ := 512

def EC_SOE_ATTRIBUTE : UInt8 := 0x04

def EC_SOE_VALUE : UInt8 := 0x40

/-! ## The reads -/

/-- The two loops of the function: `idn_at` and `idn_mdt`. -/
inductive Telegram
  | idnAt
  | idnMdt
deriving DecidableEq

def Telegram.idn : Telegram → UInt16
  | .idnAt => 16
  | .idnMdt => 24

/-- `at_sm` and `mdt_sm` -/
def Telegram.sm : Telegram → ℕ
  | .idnAt => 3
  | .idnMdt => 2

/-- What is read for a list: its length, the list, and the attributes of its elements. -/
inductive Part
  | length
  | list
  | attr (i : ℕ)
deriving DecidableEq

structure Query where
  telegram : Telegram
  atn : UInt8
  part : Part
deriving DecidableEq

/-- What the calls of `ec_soe_read` find, and what is in their buffers before. A call gets this many
passes of its loop. -/
structure World where
  env : Query → Read.Env
  stack : Query → Message
  fuel : Query → ℕ

/-- What a call leaves: `stored` says which bytes of the buffer come from the slave. -/
structure Answer where
  ret : Ret
  buf : Message
  stored : ℕ → Bool

/-- What a `memcpy` writes to a byte; pointers have 64 bits. -/
def pieceAt (p : ℕ) (w : ℕ × List UInt8) : Option UInt8 := w.2[(p + 2 ^ 64 - w.1 % 2 ^ 64) % 2 ^ 64]?

def storedAt (writes : List (ℕ × List UInt8)) (p : ℕ) : Option UInt8 :=
  (writes.filterMap (pieceAt p)).getLast?

def answer (stack : Message) (st : Read.State) : Answer where
  ret := st.ret
  buf p := (storedAt st.writes p).getD (stack p)
  stored p := (storedAt st.writes p).isSome

/-- The call comes to an end with this answer. -/
def World.Reads (w : World) (q : Query) (a : Read.Args) (r : Answer) : Prop :=
  ∃ fuel st, ecSoeRead fuel (w.env q) a = some st ∧ r = answer (w.stack q) st

/-! ## The function -/

/-- What must stay inside: an element of `idn_value`, and whether it has been read; an element of
`subdevs`; the shift `8u << n`. -/
inductive Access
  | idnValue (i : ℕ) (read : Bool)
  | subdev (i : ℕ)
  | shift (n : ℕ)

def Access.Inside : Access → Prop
  | .idnValue i read => i < idnValueSize ∧ read = true
  | .subdev i => i < lecMaxDs402Subdevs
  | .shift n => 8 * 2 ^ n < 2 ^ 32

/-- The part of `ec_slave_t` that is set: lengths of sync managers and of the subdevices' `pdin` and
`pdout`. -/
structure Slave where
  smCh : UInt8
  smLen : ℕ → UInt16
  pdinLen : ℕ → ℕ
  pdoutLen : ℕ → ℕ

def Slave.setSubdev (slv : Slave) (t : Telegram) (atn len : ℕ) : Slave :=
  match t with
  | .idnAt => { slv with pdinLen := Function.update slv.pdinLen atn len }
  | .idnMdt => { slv with pdoutLen := Function.update slv.pdoutLen atn len }

/-- The length of the sync manager, when something is mapped. -/
def Slave.setSm (slv : Slave) (t : Telegram) (bits : UInt32) : Slave :=
  if bits ≠ 0 ∧ t.sm < slv.smCh.toNat then
    { slv with smLen := Function.update slv.smLen t.sm (UInt16.ofNat ((bits + 7) / 8).toNat) }
  else slv

/-- `ec_soe_read` -/
def World.read (w : World) (q : Query) (a : Read.Args) : Traced Access Answer :=
  .ofOption ((ecSoeRead (w.fuel q) (w.env q) a).map (answer (w.stack q)))

/-- `idn_len[0]` -/
def Answer.idnLen (r : Answer) : ℕ := u16 r.buf 0

/-- `idn_size` -/
def Answer.idnSize (r : Answer) : ℕ := min (r.idnLen + 4) 512

/-- `length` of an `ec_soe_idn_attribute_t`, the bits 16 and 17. -/
def Answer.attributeLength (r : Answer) : ℕ := u32 r.buf 0 / 2 ^ 16 % 4

/-- `idn_value[i]` -/
def Answer.idnValue (r : Answer) (i : ℕ) : ℕ := u16 r.buf (2 * i)

/-- Both bytes of `idn_value[i]` have been read. -/
def Answer.elementStored (r : Answer) (i : ℕ) : Bool := r.stored (2 * i) && r.stored (2 * i + 1)

def lengthArgs (t : Telegram) (atn : UInt8) : Read.Args := ⟨atn, t.idn, EC_SOE_VALUE, 4⟩

def listArgs (t : Telegram) (atn : UInt8) (len : Answer) : Read.Args :=
  ⟨atn, t.idn, EC_SOE_VALUE, UInt64.ofNat len.idnSize⟩

def attributeArgs (atn : UInt8) (list : Answer) (i : ℕ) : Read.Args :=
  ⟨atn, UInt16.ofNat (list.idnValue (i + 2)), EC_SOE_ATTRIBUTE, 4⟩

/-- Pass `i` of the loop over the list. -/
def mappedIdn (w : World) (t : Telegram) (atn : UInt8) (list : Answer) (bitsize : UInt32) (i : ℕ) :
    Traced Access UInt32 :=
  (Traced.event (.idnValue (i + 2) (list.elementStored (i + 2)))).bind fun _ =>
  (w.read ⟨t, atn, .attr i⟩ (attributeArgs atn list i)).bind fun attr =>
    -- `continue`
    if attr.ret ≠ .ok then .pure bitsize
    else (Traced.event (.shift attr.attributeLength)).bind fun _ =>
      .pure (bitsize + 8 <<< UInt32.ofNat attr.attributeLength)

def ecSoeGenerateMappingLocal (w : World) (t : Telegram) (atn : UInt8) :
    Traced Access (Ret × UInt32) :=
  (w.read ⟨t, atn, .length⟩ (lengthArgs t atn)).bind fun len =>
    if len.ret ≠ .ok then .pure (len.ret, 16)
    else (w.read ⟨t, atn, .list⟩ (listArgs t atn len)).bind fun list =>
      if list.ret ≠ .ok then .pure (list.ret, 16)
      else (Traced.fold (mappedIdn w t atn list) 16 (List.range (len.idnLen / 2))).bind fun bitsize =>
        .pure (.ok, bitsize)

/-- Pass `atn` of the loop over the drives. -/
def channel (w : World) (t : Telegram) (st : UInt32 × Slave) (atn : ℕ) :
    Traced Access (UInt32 × Slave) :=
  (ecSoeGenerateMappingLocal w t (UInt8.ofNat atn)).bind fun r =>
    -- `continue`
    if r.1 ≠ .ok then .pure st
    else (Traced.event (.subdev atn)).bind fun _ =>
      .pure (st.1 + r.2, st.2.setSubdev t atn (r.2 / 8).toNat)

def telegram (w : World) (soeChannels : UInt8) (slv : Slave) (t : Telegram) : Traced Access Slave :=
  (Traced.fold (channel w t) (0, slv) (List.range soeChannels.toNat)).bind fun st =>
    .pure (st.2.setSm t st.1)

end Mapping

open Mapping in
/-- The slave exists, and supports SoE. -/
def ecSoeGenerateMapping (w : World) (present soe : Bool) (soeChannels : UInt8) (slv : Slave) :
    Traced Access (Ret × Slave) :=
  if present = false then .pure (.slaveNotFound, slv)
  else if soe = false then .pure (.mailboxNotSupportedSoe, slv)
  else (telegram w soeChannels slv .idnAt).bind fun slv =>
    (telegram w soeChannels slv .idnMdt).bind fun slv => .pure (.ok, slv)

namespace Mapping

/-! ## Property -/

/-- The reads of the lengths and the lists find the same. -/
def World.SameLists (w w' : World) : Prop :=
  ∀ q : Query, (∀ i, q.part ≠ .attr i) → w'.env q = w.env q ∧ w'.stack q = w.stack q

/-- With these lengths and lists the function stays inside, whatever the attributes are. -/
def MappingInside (w : World) (soeChannels : UInt8) (slv : Slave) : Prop :=
  ∀ w', w.SameLists w' → ∀ present soe,
    (ecSoeGenerateMapping w' present soe soeChannels slv).All Access.Inside

/-- All elements that the length word counts have been read. -/
def Supplied (len list : Answer) : Prop :=
  len.idnLen < 1022 ∧ ∀ p, 4 ≤ p → p < 4 + 2 * (len.idnLen / 2) → list.stored p = true

/-- If the length and the list of the drive can be read, there is a subdevice for it, and the list is
complete. -/
def ListFits (w : World) (t : Telegram) (atn : ℕ) : Prop :=
  ∀ len list, w.Reads ⟨t, UInt8.ofNat atn, .length⟩ (lengthArgs t (UInt8.ofNat atn)) len →
    len.ret = .ok →
    w.Reads ⟨t, UInt8.ofNat atn, .list⟩ (listArgs t (UInt8.ofNat atn) len) list → list.ret = .ok →
      atn < lecMaxDs402Subdevs ∧ Supplied len list

/-- The reads of lengths and lists come to an end. -/
def World.Returns (w : World) : Prop :=
  ∀ q : Query, (∀ i, q.part ≠ .attr i) → ∀ a, ∃ fuel st, ecSoeRead fuel (w.env q) a = some st

section
variable {w w' : World} {t : Telegram} {atn : ℕ} {q : Query} {a : Read.Args} {r len list : Answer}
  {soeChannels : UInt8} {slv : Slave}

/-! ## One read -/

theorem ecSoeRead_unique {env : Read.Env} {f f' : ℕ} {st st' : Read.State}
    (h : ecSoeRead f env a = some st) (h' : ecSoeRead f' env a = some st') : st = st' := by
  unfold ecSoeRead at h h'
  cases hrefusal : env.refusal with
  | some ret =>
    rw [hrefusal] at h h'
    exact (Option.some.inj h).symm.trans (Option.some.inj h')
  | none =>
    rw [hrefusal] at h h'
    exact While.Ends.unique ⟨f, h⟩ ⟨f', h'⟩

theorem World.Reads.unique (h : w.Reads q a r) {r' : Answer} (h' : w.Reads q a r') : r = r' := by
  obtain ⟨f, st, hst, rfl⟩ := h
  obtain ⟨f', st', hst', rfl⟩ := h'
  rw [ecSoeRead_unique hst hst']

theorem reads_of_read (h : (ecSoeRead (w.fuel q) (w.env q) a).map (answer (w.stack q)) = some r) :
    w.Reads q a r := by
  obtain ⟨st, hst, rfl⟩ := Option.map_eq_some_iff.1 h
  exact ⟨_, st, hst, rfl⟩

theorem World.SameLists.reads_iff (h : w.SameLists w') (hq : ∀ i, q.part ≠ .attr i) :
    w'.Reads q a r ↔ w.Reads q a r := by
  obtain ⟨henv, hstack⟩ := h q hq
  rw [World.Reads, World.Reads, henv, hstack]

/-! ## Passes -/

theorem elementStored_of_supplied (h : Supplied len list) {i : ℕ} (hi : i < len.idnLen / 2) :
    list.elementStored (i + 2) = true := by
  unfold Answer.elementStored
  rw [h.2 (2 * (i + 2)) (by omega) (by omega), h.2 (2 * (i + 2) + 1) (by omega) (by omega)]
  rfl

/-- The shift is by two bits of the attribute. -/
theorem attributeLength_inside (r : Answer) : Access.Inside (.shift r.attributeLength) := by
  have hlt : r.attributeLength < 4 := Nat.mod_lt _ (by decide)
  have hpow : 2 ^ r.attributeLength ≤ 2 ^ 3 := Nat.pow_le_pow_right (by decide) (by omega)
  show 8 * 2 ^ r.attributeLength < 2 ^ 32
  omega

/-- Of a pass over the list, the element is what matters. -/
theorem mappedIdn_inside (w : World) (t : Telegram) (atn : UInt8) (list : Answer) (bitsize : UInt32)
    (i : ℕ) : (mappedIdn w t atn list bitsize i).All Access.Inside ↔
      i + 2 < idnValueSize ∧ list.elementStored (i + 2) = true := by
  unfold mappedIdn World.read
  rw [Traced.all_event_bind, Traced.all_ofOption_bind]
  refine and_iff_left fun attr _ => ?_
  split_ifs
  · exact Traced.all_pure.2 trivial
  · rw [Traced.all_event_bind]
    exact ⟨attributeLength_inside attr, Traced.all_pure.2 trivial⟩

/-- Both reads have succeeded when the function returns `EC_OK`. -/
theorem reads_of_local_ok {n : UInt8} {res : Ret × UInt32}
    (h : (ecSoeGenerateMappingLocal w t n).result = some res) (hok : res.1 = .ok) :
    ∃ len list, w.Reads ⟨t, n, .length⟩ (lengthArgs t n) len ∧ len.ret = .ok ∧
      w.Reads ⟨t, n, .list⟩ (listArgs t n len) list ∧ list.ret = .ok := by
  obtain ⟨len, hlen, h⟩ := Traced.bind_result_eq_some.1 h
  split_ifs at h with hne
  · cases h
    exact absurd hok hne
  · obtain ⟨list, hlist, h⟩ := Traced.bind_result_eq_some.1 h
    split_ifs at h with hne'
    · cases h
      exact absurd hok hne'
    · exact ⟨len, list, reads_of_read hlen, not_not.1 hne, reads_of_read hlist, not_not.1 hne'⟩

theorem local_inside (h : w.SameLists w') (hfits : ListFits w t atn) :
    (ecSoeGenerateMappingLocal w' t (UInt8.ofNat atn)).All Access.Inside := by
  unfold ecSoeGenerateMappingLocal World.read
  rw [Traced.all_ofOption_bind]
  intro len hlen
  split_ifs with hok
  · exact Traced.all_pure.2 trivial
  · rw [Traced.all_ofOption_bind]
    intro list hlist
    split_ifs with hok'
    · exact Traced.all_pure.2 trivial
    · obtain ⟨-, hsupplied⟩ := hfits len list
        ((h.reads_iff (by simp)).1 (reads_of_read hlen)) (not_not.1 hok)
        ((h.reads_iff (by simp)).1 (reads_of_read hlist)) (not_not.1 hok')
      rw [Traced.all_bind]
      refine ⟨Traced.all_fold_of (fun bits i hi => ?_) _, fun _ _ => Traced.all_pure.2 trivial⟩
      have hi' := List.mem_range.1 hi
      have hlt := hsupplied.1
      rw [mappedIdn_inside]
      exact ⟨by simp only [idnValueSize]; omega, elementStored_of_supplied hsupplied hi'⟩

theorem channel_inside (h : w.SameLists w') (hfits : ListFits w t atn) (st : UInt32 × Slave) :
    (channel w' t st atn).All Access.Inside := by
  unfold channel
  rw [Traced.all_bind]
  refine ⟨local_inside h hfits, fun res hres => ?_⟩
  split_ifs with hok
  · exact Traced.all_pure.2 trivial
  · obtain ⟨len, list, hlen, hlenOk, hlist, hlistOk⟩ := reads_of_local_ok hres (not_not.1 hok)
    obtain ⟨hatn, -⟩ := hfits len list ((h.reads_iff (by simp)).1 hlen) hlenOk
      ((h.reads_iff (by simp)).1 hlist) hlistOk
    rw [Traced.all_event_bind]
    exact ⟨hatn, Traced.all_pure.2 trivial⟩

theorem telegram_inside (h : w.SameLists w')
    (hfits : ∀ atn < soeChannels.toNat, ListFits w t atn) (slv : Slave) :
    (telegram w' soeChannels slv t).All Access.Inside := by
  unfold telegram
  rw [Traced.all_bind]
  refine ⟨Traced.all_fold_of (fun st atn hatn => ?_) _, fun _ _ => Traced.all_pure.2 trivial⟩
  exact channel_inside h (hfits atn (List.mem_range.1 hatn)) st

/-! ## Runs that come to an end -/

/-- All reads of the function come to an end. -/
structure Complete (w : World) : Prop where
  length : ∀ t n, ∃ len, (ecSoeRead (w.fuel ⟨t, n, .length⟩) (w.env ⟨t, n, .length⟩)
    (lengthArgs t n)).map (answer (w.stack ⟨t, n, .length⟩)) = some len
  list : ∀ t n len, w.Reads ⟨t, n, .length⟩ (lengthArgs t n) len →
    ∃ list, (ecSoeRead (w.fuel ⟨t, n, .list⟩) (w.env ⟨t, n, .list⟩)
      (listArgs t n len)).map (answer (w.stack ⟨t, n, .list⟩)) = some list
  attr : ∀ t n i a, ∃ attr, (ecSoeRead (w.fuel ⟨t, n, .attr i⟩)
    (w.env ⟨t, n, .attr i⟩) a).map (answer (w.stack ⟨t, n, .attr i⟩)) = some attr

/-- A call that is refused. -/
def refusing : Read.Env := ⟨false, false, false, 0, [], fun _ _ _ => 0⟩

/-- The same lists, and no attributes. -/
theorem World.Returns.exists_complete (h : w.Returns) : ∃ w', w.SameLists w' ∧ Complete w' := by
  have hfuel : ∀ q : Query, ∃ fuel,
      (q.part = .length → ∃ st, ecSoeRead fuel (w.env q) (lengthArgs q.telegram q.atn) = some st) ∧
      (q.part = .list → ∀ len, w.Reads ⟨q.telegram, q.atn, .length⟩
        (lengthArgs q.telegram q.atn) len →
          ∃ st, ecSoeRead fuel (w.env q) (listArgs q.telegram q.atn len) = some st) := by
    rintro ⟨t, n, part⟩
    cases part with
    | length =>
      obtain ⟨fuel, hst⟩ := h ⟨t, n, .length⟩ (by simp) (lengthArgs t n)
      exact ⟨fuel, fun _ => hst, nofun⟩
    | attr i => exact ⟨0, nofun, nofun⟩
    | list =>
      obtain ⟨fuel, st, hst⟩ := h ⟨t, n, .length⟩ (by simp) (lengthArgs t n)
      obtain ⟨fuel', hst'⟩ := h ⟨t, n, .list⟩ (by simp)
        (listArgs t n (answer (w.stack ⟨t, n, .length⟩) st))
      refine ⟨fuel', nofun, fun _ len hlen => ?_⟩
      obtain rfl := World.Reads.unique hlen ⟨fuel, st, hst, rfl⟩
      exact hst'
  choose fuel hlength hlist using hfuel
  let env : Query → Read.Env := fun q =>
    match q.part with
    | .attr _ => refusing
    | _ => w.env q
  have hsame : w.SameLists ⟨env, w.stack, fuel⟩ := by
    rintro ⟨t, n, part⟩ hq
    cases part with
    | length | list => exact ⟨rfl, rfl⟩
    | attr i => exact absurd rfl (hq i)
  refine ⟨⟨env, w.stack, fuel⟩, hsame, ⟨fun t n => ?_, fun t n len hlen => ?_, fun t n i a => ?_⟩⟩
  · obtain ⟨st, hst⟩ := hlength ⟨t, n, .length⟩ rfl
    exact ⟨_, Option.map_eq_some_iff.2 ⟨st, hst, rfl⟩⟩
  · obtain ⟨st, hst⟩ := hlist ⟨t, n, .list⟩ rfl len ((hsame.reads_iff (by simp)).1 hlen)
    exact ⟨_, Option.map_eq_some_iff.2 ⟨st, hst, rfl⟩⟩
  · exact ⟨_, rfl⟩

theorem Complete.mappedIdn (h : Complete w) (n : UInt8) (list : Answer) (bits : UInt32) (i : ℕ) :
    (mappedIdn w t n list bits i).result.isSome = true := by
  obtain ⟨attr, hattr⟩ := h.attr t n i (attributeArgs n list i)
  unfold Mapping.mappedIdn World.read
  rw [hattr, Traced.ofOption_some, Traced.pure_bind]
  refine Traced.isSome_bind rfl fun _ => ?_
  split_ifs
  · rfl
  · rfl

theorem Complete.local (h : Complete w) (n : UInt8) :
    (ecSoeGenerateMappingLocal w t n).result.isSome = true := by
  obtain ⟨len, hlen⟩ := h.length t n
  obtain ⟨list, hlist⟩ := h.list t n len (reads_of_read hlen)
  unfold ecSoeGenerateMappingLocal World.read
  rw [hlen, Traced.ofOption_some, Traced.pure_bind]
  split_ifs
  · rfl
  · rw [hlist, Traced.ofOption_some, Traced.pure_bind]
    split_ifs
    · rfl
    · exact Traced.isSome_bind (Traced.isSome_fold (fun bits i _ => h.mappedIdn n list bits i) _)
        fun _ => rfl

theorem Complete.channel (h : Complete w) (st : UInt32 × Slave) :
    (channel w t st atn).result.isSome = true := by
  refine Traced.isSome_bind (h.local _) fun res => ?_
  split_ifs
  · rfl
  · rfl

theorem Complete.telegram (h : Complete w) (slv : Slave) :
    (telegram w soeChannels slv t).result.isSome = true :=
  Traced.isSome_bind (Traced.isSome_fold (fun st _ _ => h.channel st) _) fun _ => rfl

/-- What a pass over the drives that stays inside needs. -/
theorem Complete.listFits (h : Complete w) {st : UInt32 × Slave}
    (hall : (Mapping.channel w t st atn).All Access.Inside) : ListFits w t atn := by
  intro len list hlen hlenOk hlist hlistOk
  obtain ⟨len', hlen'⟩ := h.length t (UInt8.ofNat atn)
  obtain rfl := World.Reads.unique hlen (reads_of_read hlen')
  obtain ⟨list', hlist'⟩ := h.list t (UInt8.ofNat atn) len hlen
  obtain rfl := World.Reads.unique hlist (reads_of_read hlist')
  have hlocal : ecSoeGenerateMappingLocal w t (UInt8.ofNat atn) =
      (Traced.fold (Mapping.mappedIdn w t (UInt8.ofNat atn) list) 16
        (List.range (len.idnLen / 2))).bind fun bitsize => .pure (.ok, bitsize) := by
    unfold ecSoeGenerateMappingLocal World.read
    rw [hlen', Traced.ofOption_some, Traced.pure_bind, if_neg (not_not.2 hlenOk), hlist',
      Traced.ofOption_some, Traced.pure_bind, if_neg (not_not.2 hlistOk)]
  have hend : ∀ bits, ∀ i ∈ List.range (len.idnLen / 2),
      (Mapping.mappedIdn w t (UInt8.ofNat atn) list bits i).result.isSome = true :=
    fun bits i _ => h.mappedIdn _ list bits i
  obtain ⟨bits, hbits⟩ := Option.isSome_iff_exists.1 (Traced.isSome_fold hend 16)
  unfold Mapping.channel at hall
  rw [hlocal, Traced.all_bind, Traced.all_bind] at hall
  obtain ⟨⟨hlist, -⟩, hsubdev⟩ := hall
  have hres := hsubdev (.ok, bits) (Traced.bind_result_eq_some.2 ⟨bits, hbits, rfl⟩)
  rw [if_neg (not_not.2 rfl), Traced.all_event_bind] at hres
  have hpasses := Traced.forall_of_all_fold hend
    (fun bits i _ => (mappedIdn_inside w t _ list bits i).1) hlist
  refine ⟨hres.1, ?_, fun p hp hlt => ?_⟩
  · by_contra hlong
    have hlast := (hpasses (len.idnLen / 2 - 1) (List.mem_range.2 (by omega))).1
    simp only [idnValueSize] at hlast
    omega
  · obtain ⟨-, hstored⟩ := hpasses (p / 2 - 2) (List.mem_range.2 (by omega))
    rw [Answer.elementStored, Bool.and_eq_true, show p / 2 - 2 + 2 = p / 2 by omega] at hstored
    rcases Nat.mod_two_eq_zero_or_one p with heven | hodd
    · rw [show p = 2 * (p / 2) by omega]
      exact hstored.1
    · rw [show p = 2 * (p / 2) + 1 by omega]
      exact hstored.2

theorem Complete.telegram_fits (h : Complete w)
    (hall : (Mapping.telegram w soeChannels slv t).All Access.Inside) :
    ∀ atn < soeChannels.toNat, ListFits w t atn := by
  unfold Mapping.telegram at hall
  rw [Traced.all_bind] at hall
  have hend : ∀ st, ∀ a ∈ List.range soeChannels.toNat,
      (Mapping.channel w t st a).result.isSome = true := fun st a _ => h.channel st
  have hfits : ∀ st, ∀ a ∈ List.range soeChannels.toNat,
      (Mapping.channel w t st a).All Access.Inside → ListFits w t a := fun st a _ => h.listFits
  intro atn hatn
  exact Traced.forall_of_all_fold hend hfits hall.1 atn (List.mem_range.2 hatn)

theorem World.SameLists.listFits (h : w.SameLists w') : ListFits w' t atn ↔ ListFits w t atn := by
  have hlen := fun len => h.reads_iff (q := ⟨t, UInt8.ofNat atn, .length⟩)
    (a := lengthArgs t (UInt8.ofNat atn)) (r := len) (by simp)
  have hlist := fun len list => h.reads_iff (q := ⟨t, UInt8.ofNat atn, .list⟩)
    (a := listArgs t (UInt8.ofNat atn) len) (r := list) (by simp)
  unfold ListFits
  simp only [hlen, hlist]

/-! ## Complete lists -/

theorem storedAt_isSome {ws : List (ℕ × List UInt8)} {p : ℕ} :
    (storedAt ws p).isSome = true ↔ ∃ x ∈ ws, (pieceAt p x).isSome = true := by
  rw [storedAt, List.getLast?_isSome, ne_eq, List.filterMap_eq_nil_iff]
  simp [Option.isSome_iff_ne_none]

theorem pieceAt_isSome {p o : ℕ} {bytes : List UInt8} (hp : p < 2 ^ 64)
    (ho : o + bytes.length < 2 ^ 64) :
    (pieceAt p (o, bytes)).isSome = true ↔ o ≤ p ∧ p < o + bytes.length := by
  rw [pieceAt, isSome_getElem?]
  dsimp only
  omega

/-- Fragments with headers fill the buffer from its start. -/
theorem storedAt_copies {p : ℕ} (hp : p < 2 ^ 64) {left : ℤ} {ms : List Message}
    (h : Read.AllHeaded left.toNat ms) (o : ℕ) (ho : o + left.toNat < 2 ^ 64) :
    (storedAt (Read.copies o left ms) p).isSome = true ↔
      o ≤ p ∧ p < o + min left.toNat (ms.flatMap payload).length := by
  revert ho
  refine Read.AllHeaded.induction (motive := fun o left ms => o + left.toNat < 2 ^ 64 →
    ((storedAt (Read.copies o left ms) p).isSome = true ↔
      o ≤ p ∧ p < o + min left.toNat (ms.flatMap payload).length)) ?_ ?_ ?_ h o
  · intro o left ms hleft _
    rw [Read.copies_of_nonpos hleft, Int.toNat_of_nonpos (by omega)]
    simp [storedAt]
  · intro o left _
    simp [Read.copies, storedAt]
  · intro o left m ms hleft hm ih ho
    have hlen : (dataBytes m (min (dataLen m) left.toNat)).length = min (dataLen m) left.toNat :=
      dataBytes_length m _
    rw [Read.copies_of_headed hleft hm, storedAt_isSome]
    simp only [List.mem_cons, exists_eq_or_imp]
    rw [pieceAt_isSome hp (by omega), ← storedAt_isSome, List.flatMap_cons, List.length_append,
      payload_length hm, hlen]
    by_cases hroom : 0 < left - dataLen m
    · rw [ih (by omega)]
      omega
    · rw [Read.copies_of_nonpos hroom]
      simp only [storedAt, List.filterMap_nil, List.getLast?_nil, Option.isSome_none,
        Bool.false_eq_true, or_false]
      omega

/-- What has been read of a buffer of `n` bytes, if all messages are fragments with headers. -/
theorem stored_iff {n : ℕ} (hn : 0 < n) (hsize : n ≤ 512) {m : Message} {queue : List Message}
    (hready : (w.env q).refusal = none) (hq : (w.env q).queue = m :: queue)
    (hop : ∀ x ∈ (w.env q).queue, opCode x = EC_SOE_READ_RES)
    (hheaded : Read.AllHeaded n (w.env q).handled) (hlen : a.len = UInt64.ofNat n)
    (hr : w.Reads q a r) {p : ℕ} (hp : p < 2 ^ 64) :
    r.stored p = true ↔ p < min n ((w.env q).handled.flatMap payload).length := by
  obtain ⟨fuel, st, hst, rfl⟩ := hr
  obtain ⟨st', ⟨fuel', hst'⟩, hwrites, -, -⟩ := Read.reads_eq a hready hq hop
  obtain rfl := ecSoeRead_unique hst hst'
  have hnat : a.len.toNat = n := by
    rw [hlen, UInt64.toNat_ofNat', Nat.mod_eq_of_lt (by omega)]
  have hne : a.len ≠ 0 := by
    intro h0
    rw [h0] at hnat
    exact absurd hnat (Nat.ne_of_lt hn)
  have hroom : a.room.toNat = n := by
    rw [Read.Args.room, Read.ssize_eq, hnat, Int.bmod_eq_of_le (by omega) (by omega)]
    exact Int.toNat_natCast n
  rw [Read.Args.leftAfter, if_pos hne] at hwrites
  show (storedAt st.writes p).isSome = true ↔ _
  rw [hwrites, storedAt_copies hp (by rwa [hroom]) 0 (by omega), hroom]
  omega

/-- **What a complete list is**: the length word is at most 509, and the fragments that are handled
bring as much as it says. -/
theorem supplied_iff {m : Message} {queue : List Message} (hready : (w.env q).refusal = none)
    (hq : (w.env q).queue = m :: queue)
    (hop : ∀ x ∈ (w.env q).queue, opCode x = EC_SOE_READ_RES)
    (hheaded : Read.AllHeaded len.idnSize (w.env q).handled)
    (hr : w.Reads q ⟨q.atn, q.telegram.idn, EC_SOE_VALUE, UInt64.ofNat len.idnSize⟩ list) :
    Supplied len list ↔ len.idnLen < 2 ∨
      len.idnLen ≤ 509 ∧
        4 + 2 * (len.idnLen / 2) ≤ ((w.env q).handled.flatMap payload).length := by
  have hsize : len.idnSize = min (len.idnLen + 4) 512 := rfl
  have hstored : ∀ p, p < 2 ^ 64 →
      (list.stored p = true ↔
        p < min len.idnSize ((w.env q).handled.flatMap payload).length) := fun p hp =>
    stored_iff (by omega) (by omega) hready hq hop hheaded rfl hr hp
  unfold Supplied
  constructor
  · rintro ⟨hlt, hall⟩
    by_cases hfew : len.idnLen < 2
    · exact Or.inl hfew
    · have hlast := (hstored (3 + 2 * (len.idnLen / 2)) (by omega)).1
        (hall _ (by omega) (by omega))
      exact Or.inr ⟨by omega, by omega⟩
  · intro h
    refine ⟨by omega, fun p hp hlt => (hstored p (by omega)).2 ?_⟩
    omega

end

end Mapping

open Mapping

/-- **The mapping and its arrays**: what the lists and the number of drives must be. -/
theorem mappingInside_iff (w : World) (hreturns : w.Returns) (soeChannels : UInt8) (slv : Slave) :
    MappingInside w soeChannels slv ↔ ∀ t, ∀ atn < soeChannels.toNat, ListFits w t atn := by
  constructor
  · intro hinside
    obtain ⟨w', hsame, hcomplete⟩ := hreturns.exists_complete
    have hall := hinside w' hsame true true
    unfold ecSoeGenerateMapping at hall
    rw [if_neg (by decide), if_neg (by decide), Traced.all_bind] at hall
    have hend : (telegram w' soeChannels slv .idnAt).result.isSome = true := hcomplete.telegram slv
    obtain ⟨slv', hslv⟩ := Option.isSome_iff_exists.1 hend
    have hmdt := hall.2 slv' hslv
    rw [Traced.all_bind] at hmdt
    intro t atn hatn
    rw [← hsame.listFits]
    cases t with
    | idnAt => exact hcomplete.telegram_fits hall.1 atn hatn
    | idnMdt => exact hcomplete.telegram_fits hmdt.1 atn hatn
  · intro hfits w' hsame present soe
    unfold ecSoeGenerateMapping
    split_ifs
    · exact Traced.all_pure.2 trivial
    · exact Traced.all_pure.2 trivial
    · rw [Traced.all_bind]
      refine ⟨telegram_inside hsame (hfits .idnAt) slv, fun slv' _ => ?_⟩
      rw [Traced.all_bind]
      exact ⟨telegram_inside hsame (hfits .idnMdt) slv', fun _ _ => Traced.all_pure.2 trivial⟩

/-- Each read gets a response of two bytes, which are zero. -/
def emptyLists : World := ⟨fun _ => oneResponse, fun _ _ => 0, fun _ => 1⟩

theorem emptyLists_run (a : Read.Args) : ∃ st, (∃ fuel, ecSoeRead fuel oneResponse a = some st) ∧
    st.writes = Read.copies 0 (a.leftAfter twoBytes) [twoBytes] ∧ st.ret = .ok := by
  obtain ⟨st, hst, hwrites, -, hret⟩ := Read.reads_eq a (show oneResponse.refusal = none from rfl)
    (show oneResponse.queue = [twoBytes] from rfl) (by decide)
  exact ⟨st, hst, hwrites, hret⟩

theorem emptyLists_reads (q : Query) (a : Read.Args) : ∃ r, emptyLists.Reads q a r ∧ r.ret = .ok := by
  obtain ⟨st, ⟨fuel, hst⟩, -, hret⟩ := emptyLists_run a
  exact ⟨_, ⟨fuel, st, hst, rfl⟩, hret⟩

theorem emptyLists_returns : emptyLists.Returns := by
  intro q _ a
  obtain ⟨st, ⟨fuel, hst⟩, -⟩ := emptyLists_run a
  exact ⟨fuel, st, hst⟩

theorem emptyLists_buf {q : Query} {a : Read.Args} {r : Answer} (h : emptyLists.Reads q a r) (p : ℕ) :
    r.buf p = 0 := by
  obtain ⟨fuel, st, hst, rfl⟩ := h
  obtain ⟨st', ⟨fuel', hst'⟩, hwrites, -⟩ := emptyLists_run a
  obtain rfl := ecSoeRead_unique hst hst'
  show (storedAt st.writes p).getD 0 = 0
  cases hstored : storedAt st.writes p with
  | none => rfl
  | some b =>
    rw [storedAt, hwrites, Read.copies] at hstored
    split_ifs at hstored
    · obtain ⟨x, hx, hb⟩ := List.mem_filterMap.1 (List.mem_of_getLast? hstored)
      obtain rfl := List.mem_singleton.1 hx
      obtain ⟨i, -, rfl⟩ := List.mem_map.1 (List.mem_of_getElem? hb)
      show twoBytes (10 + i) = 0
      rw [twoBytes, if_neg (by omega), if_neg (by omega)]
    · cases hstored

/-- A drive whose lists are empty. -/
theorem mappingInside_oneDrive :
    MappingInside emptyLists 1 ⟨4, fun _ => 0, fun _ => 0, fun _ => 0⟩ := by
  refine (mappingInside_iff emptyLists emptyLists_returns 1 _).2 fun t atn hatn => ?_
  intro len list hlen _ _ _
  have hatn' : atn < 1 := hatn
  have hzero : len.idnLen = 0 := by
    rw [Answer.idnLen, u16, emptyLists_buf hlen, emptyLists_buf hlen]
    rfl
  refine ⟨by simp only [lecMaxDs402Subdevs]; omega, ?_⟩
  unfold Supplied
  rw [hzero]
  exact ⟨by decide, fun p hp hlt => absurd hlt (by omega)⟩

/-- Five drives, and four subdevices. -/
theorem five_not_inside : ¬ ∀ w : World, w.Returns → ∀ soeChannels slv,
    MappingInside w soeChannels slv := by
  intro hall
  obtain ⟨w', hsame, hcomplete⟩ := emptyLists_returns.exists_complete
  have hinside := hall emptyLists emptyLists_returns 5 ⟨4, fun _ => 0, fun _ => 0, fun _ => 0⟩ w'
    hsame true true
  unfold ecSoeGenerateMapping at hinside
  rw [if_neg (by decide), if_neg (by decide), Traced.all_bind] at hinside
  have hfits := hsame.listFits.1 (hcomplete.telegram_fits hinside.1 4 (by decide))
  obtain ⟨len, hlen, hlenOk⟩ := emptyLists_reads ⟨.idnAt, 4, .length⟩ (lengthArgs .idnAt 4)
  obtain ⟨list, hlist, hlistOk⟩ := emptyLists_reads ⟨.idnAt, 4, .list⟩ (listArgs .idnAt 4 len)
  exact absurd (hfits len list hlen hlenOk hlist hlistOk).1 (by decide)

end LibEthercat.Soe
