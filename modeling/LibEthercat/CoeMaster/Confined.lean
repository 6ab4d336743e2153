import LibEthercat.CoeMaster.Model
import Mathlib.Tactic.IntervalCases

/-!
# What a read of the master's dictionary touches

The static data of an object is as long as its descriptors say, so a read of it stays inside
(`staticRead_inside`). The other objects belong to a group or a slave whose number is cut out of the
index, and most of their callbacks do not compare it with the number of groups or slaves.

**Theorem (`master_sdo_read_confined`).** A read stays inside the groups and slaves that exist, and
answers with an error where there is none, exactly when the group or slave of the index exists, or
the callback refuses the subindex before it looks (`Refused`).
-/

namespace LibEthercat.CoeMaster

variable {env : Env} {pec : Master} {o : Object}

/-! ## Inside and outside -/

/-- The access stays inside what there is, and inside the tables of the object. -/
def Access.Inside (pec : Master) (o : Object) : Access → Prop
  | .pdGroup g => g < pec.pdGroupCnt
  | .slave s => s < pec.slaveCnt
  | .data pos len => ∃ d, o.data = some d ∧ pos + len ≤ d.length
  | .entry i => i < o.bitLengths.length

/-- The group or the slave that is cut out of the index exists. The lists 0xF02n and 0xF04n are
about ranges of slaves, which need not be full. -/
def Named (pec : Master) (o : Object) (index : UInt16) : Prop :=
  if o.index = 0x2000 ∨ o.index = 0x2001 then groupOf index < pec.pdGroupCnt
  else if o.index = 0x3000 ∨ o.index = 0x8000 ∨ o.index = 0x9000 ∨ o.index = 0xA000 then
    slaveOf index < pec.slaveCnt
  else True

/-- The subindices that a callback does not have, or asks the slave for, if it exists. -/
def Refused (o : Object) (subIndex : ℕ) : Prop :=
  if o.index = 0x2000 ∨ o.index = 0x3000 then 13 < subIndex
  else if o.index = 0x8000 then ¬(subIndex ≤ 4 ∨ subIndex = 33 ∨ subIndex = 34)
  else if o.index = 0x9000 then ¬(subIndex ≤ 1 ∨ subIndex = 32)
  else if o.index = 0xA000 then 2 < subIndex
  else False

/-- The read touches nothing but what is there, and answers with an error for a group or slave that
does not exist. -/
def Confined (env : Env) (pec : Master) (index : UInt16) (subIndex : UInt8) (complete : Bool)
    (len : ℕ) : Prop :=
  (∀ a ∈ (ecCoeMasterSdoRead env pec index subIndex complete len).touched,
      ∃ o, getObject env pec index = some o ∧ a.Inside pec o) ∧
    ∀ o, getObject env pec index = some o → ¬Named pec o index →
      (ecCoeMasterSdoRead env pec index subIndex complete len).ret ≠ .ok

/-! ## Static data -/

/-- The descriptors are there, and say how the data is laid out. -/
structure Object.Static (o : Object) (data : List UInt8) : Prop where
  entries : o.maxSubindices < o.bitLengths.length
  first : o.entryLen 0 ≤ data.length
  whole : 2 + ((List.range' 1 o.maxSubindices).map o.entryLen).sum ≤ data.length

/-- An entry lies behind the ones before it, and inside the object. -/
theorem Object.Static.entry_inside {data : List UInt8} (h : o.Static data) {i : ℕ}
    (hi : i ≤ o.maxSubindices) : o.entryPos i + o.entryLen i ≤ data.length := by
  have hfirst := h.first
  have hwhole := h.whole
  cases i with
  | zero => simpa [entryPos] using hfirst
  | succ i =>
    have hsplit : List.range' 1 o.maxSubindices =
        List.range' 1 i ++ (i + 1) :: List.range' (i + 2) (o.maxSubindices - (i + 1)) := by
      have happ := @List.range'_append_1 1 i (o.maxSubindices - i)
      rw [show i + (o.maxSubindices - i) = o.maxSubindices by omega, Nat.add_comm 1 i,
        show o.maxSubindices - i = o.maxSubindices - (i + 1) + 1 by omega,
        List.range'_succ] at happ
      exact happ.symm
    rw [hsplit, List.map_append, List.sum_append, List.map_cons, List.sum_cons] at hwhole
    simp only [entryPos, if_neg (Nat.succ_ne_zero i), Nat.add_sub_cancel]
    omega

/-- What is given out lies inside the data. -/
theorem getObjectData_fits {data : List UInt8} (h : o.Static data) {subIndex : ℕ} {complete : Bool}
    {r : ℕ × ℕ} (hr : (getObjectData o subIndex complete).1 = some r) :
    r.1 + r.2 ≤ data.length := by
  have hwhole := h.whole
  cases complete with
  | false =>
    by_cases hsub : subIndex ≤ o.maxSubindices
    · simp only [getObjectData, Bool.not_false, if_true, if_pos hsub, Option.some.injEq] at hr
      rw [← hr]
      exact h.entry_inside hsub
    · simp [getObjectData, hsub] at hr
  | true =>
    simp only [getObjectData, getObjectLength, Bool.not_true, Bool.false_eq_true, if_false,
      Option.some.injEq] at hr
    rw [← hr]
    by_cases hz : subIndex = 0
    · simp only [hz, ne_eq, not_true_eq_false, if_false, decide_true, if_true]
      omega
    · simp only [hz, ne_eq, not_false_eq_true, if_true, decide_false, Bool.false_eq_true, if_false]
      omega

/-- The entries it looks at are there. -/
theorem getObjectData_entries {data : List UInt8} (h : o.Static data) (subIndex : ℕ)
    (complete : Bool) : ∀ a ∈ (getObjectData o subIndex complete).2, a.Inside pec o := by
  have hentries := h.entries
  have hrange : ∀ n, n ≤ o.maxSubindices →
      ∀ a ∈ (List.range' 1 n).map Access.entry, a.Inside pec o := by
    intro n hn a ha
    obtain ⟨i, hi, rfl⟩ := List.mem_map.1 ha
    have := List.mem_range'_1.1 hi
    simp only [Access.Inside]
    omega
  cases complete with
  | false =>
    by_cases hsub : subIndex ≤ o.maxSubindices
    · simp only [getObjectData, Bool.not_false, if_true, if_pos hsub]
      intro a ha
      rcases List.mem_append.1 ha with ha | ha
      · exact hrange _ (by omega) a ha
      · rw [List.mem_singleton.1 ha]
        simp only [Access.Inside]
        omega
    · simp only [getObjectData, Bool.not_false, if_true, if_neg hsub]
      intro a ha
      cases ha
  | true => exact hrange _ le_rfl

/-- **A read of static data stays inside** the data and the descriptors. -/
theorem staticRead_inside {data : List UInt8} (hdata : o.data = some data) (h : o.Static data)
    (subIndex : ℕ) (complete : Bool) (len : ℕ) :
    ∀ a ∈ (staticRead o data subIndex complete len).touched, a.Inside pec o := by
  have hentries : ∀ a ∈ (getObjectData o subIndex complete).2, a.Inside pec o :=
    getObjectData_entries h subIndex complete
  have hfits : ∀ r, (getObjectData o subIndex complete).1 = some r → r.1 + r.2 ≤ data.length :=
    fun r => getObjectData_fits h
  rw [staticRead]
  generalize getObjectData o subIndex complete = r at hentries hfits
  rcases r with ⟨_ | ⟨pos, dataLen⟩, touched⟩
  · exact hentries
  · intro a ha
    dsimp only at ha
    split_ifs at ha
    · rcases List.mem_append.1 ha with ha | ha
      · exact hentries a ha
      · rw [List.mem_singleton.1 ha]
        exact ⟨data, hdata, hfits _ rfl⟩
    · exact hentries a ha

theorem string_static (index : UInt16) {s : List UInt8} (hs : s ≠ []) :
    (Object.string index s).Static (s ++ [0]) := by
  have := List.length_pos_iff.2 hs
  refine ⟨Nat.zero_lt_one, ?_, ?_⟩
  · simp only [Object.string, Object.static, Object.entryLen, List.getD_cons_zero,
      List.length_append, List.length_singleton]
    omega
  · simp only [Object.string, Object.static, List.range'_zero, List.map_nil, List.sum_nil,
      List.length_append, List.length_singleton]
    omega

/-- The objects with data have the descriptors for it. -/
theorem dict_static (ho : o ∈ dict env pec) (hread : o.read = none) :
    ∃ data, o.data = some data ∧ o.Static data := by
  simp only [dict, List.mem_cons, List.not_mem_nil, or_false] at ho
  rcases ho with rfl | rfl | rfl | rfl | rfl | rfl | rfl | rfl | rfl | rfl | rfl | rfl | rfl | rfl |
    rfl
  · exact ⟨_, rfl, by decide, by decide, by decide⟩
  · exact ⟨_, rfl, string_static _ (by decide)⟩
  · exact ⟨_, rfl, string_static _ (by decide)⟩
  · exact ⟨_, rfl, string_static _ env.version_ne⟩
  · exact ⟨_, rfl, by decide, by decide, by decide⟩
  · cases hread
  · cases hread
  · cases hread
  · cases hread
  · cases hread
  · cases hread
  · exact ⟨_, rfl, by decide, by decide, by decide⟩
  · exact ⟨_, rfl, by simp [Object.static], by simp [Object.static, Object.entryLen],
      by simp [Object.static, Object.entryLen, List.range', List.getD]⟩
  · cases hread
  · cases hread

/-! ## Callbacks -/

/-- A reply of a callback that looks without asking: it touches at most `t`, and does touch it where
it does not return `EC_OK`. -/
structure Reply.Open (t : Access) (r : Reply) : Prop where
  only : ∀ a ∈ r.touched, a = t
  ok : r.ret = .ok ∨ t ∈ r.touched

/-- A reply that touches at most `t`, and that only if `t` exists, and is an error otherwise. -/
structure Reply.Guarded (ex : Prop) (t : Access) (r : Reply) : Prop where
  only : ∀ a ∈ r.touched, a = t
  touched : ¬ex → r.touched = []
  error : ¬ex → r.ret ≠ .ok

section Replies

variable {t : Access} {ex : Prop} {r : Reply}

theorem Reply.Open.confined_iff (h : r.Open t) (hex : t.Inside pec o ↔ ex) :
    ((∀ a ∈ r.touched, a.Inside pec o) ∧ (¬ex → r.ret ≠ .ok)) ↔ ex := by
  constructor
  · intro hc
    by_contra hno
    rcases h.ok with hok | ht
    · exact hc.2 hno hok
    · exact hno (hex.1 (hc.1 t ht))
  · intro he
    refine ⟨fun a ha => ?_, fun hno => absurd he hno⟩
    rw [h.only a ha]
    exact hex.2 he

theorem Reply.Guarded.confined (h : r.Guarded ex t) (hex : t.Inside pec o ↔ ex) :
    (∀ a ∈ r.touched, a.Inside pec o) ∧ (¬ex → r.ret ≠ .ok) := by
  refine ⟨fun a ha => ?_, h.error⟩
  by_cases he : ex
  · rw [h.only a ha]
    exact hex.2 he
  · rw [h.touched he] at ha
    cases ha

theorem open_bufPut (t : Access) (len n v : ℕ) : (bufPut len n v [t]).Open t := by
  unfold bufPut
  split_ifs
  · exact ⟨by simp, Or.inl rfl⟩
  · exact ⟨by simp, Or.inl rfl⟩

theorem open_bufPut_nil (t : Access) (len n v : ℕ) : (bufPut len n v []).Open t := by
  unfold bufPut
  split_ifs
  · exact ⟨by simp, Or.inl rfl⟩
  · exact ⟨by simp, Or.inl rfl⟩

theorem guarded_refused (t : Access) {ret : Ret} (hret : ret ≠ .ok) (len : ℕ) :
    (Reply.mk ret len [] []).Guarded ex t :=
  ⟨by simp, fun _ => rfl, fun _ => hret⟩

end Replies

section Slaves

variable (env pec) (slave : ℕ) (index : UInt16) (subIndex : UInt8) (complete : Bool) (len : ℕ)

theorem guarded_ecCoeSdoRead :
    (ecCoeSdoRead env pec slave index subIndex complete len).Guarded (slave < pec.slaveCnt)
      (.slave slave) := by
  unfold ecCoeSdoRead
  split_ifs with h
  · exact guarded_refused _ (by simp) len
  · exact ⟨by simp, fun hno => absurd (Nat.lt_of_not_le h) hno,
      fun hno => absurd (Nat.lt_of_not_le h) hno⟩

theorem open_mailboxValue :
    (mailboxValue env pec slave index complete len).Open (.slave slave) := by
  unfold mailboxValue
  split_ifs
  · refine ⟨fun a ha => ?_, Or.inr List.mem_cons_self⟩
    rcases List.mem_cons.1 ha with rfl | ha
    · rfl
    · exact (guarded_ecCoeSdoRead env pec slave index 0 complete len).only a ha
  · exact ⟨by simp, Or.inl rfl⟩

theorem open_mailboxSize (i : ℕ) : (mailboxSize pec slave i len).Open (.slave slave) := by
  unfold mailboxSize
  dsimp only
  split_ifs
  · exact ⟨by simp, Or.inl rfl⟩
  · exact ⟨by simp, Or.inl rfl⟩
  · exact ⟨by simp, Or.inl rfl⟩

theorem open_fprdReply (register : UInt16) :
    (fprdReply env pec slave register len).Open (.slave slave) := by
  unfold fprdReply
  split_ifs
  · exact ⟨by simp, Or.inl rfl⟩
  · exact ⟨by simp, Or.inl rfl⟩

theorem callbackMaster0x20nn_open (h : subIndex.toNat ≤ 13) :
    (callbackMaster0x20nn env pec index subIndex complete len).Open (.pdGroup (groupOf index)) := by
  unfold callbackMaster0x20nn
  dsimp only
  generalize subIndex.toNat = k at h
  interval_cases k
  · exact open_bufPut_nil _ _ _ _
  all_goals exact open_bufPut _ _ _ _

theorem callbackMaster0x20nn_guarded (ex : Prop) (h : 13 < subIndex.toNat) :
    (callbackMaster0x20nn env pec index subIndex complete len).Guarded ex
      (.pdGroup (groupOf index)) := by
  unfold callbackMaster0x20nn
  dsimp only
  split
  any_goals omega
  exact guarded_refused _ (by simp) len

theorem callbackMaster0x3nnn_open (h : subIndex.toNat ≤ 13) :
    (callbackMaster0x3nnn env pec index subIndex complete len).Open (.slave (slaveOf index)) := by
  unfold callbackMaster0x3nnn
  dsimp only
  generalize subIndex.toNat = k at h
  interval_cases k
  · exact open_bufPut_nil _ _ _ _
  all_goals exact open_bufPut _ _ _ _

theorem callbackMaster0x3nnn_guarded (ex : Prop) (h : 13 < subIndex.toNat) :
    (callbackMaster0x3nnn env pec index subIndex complete len).Guarded ex
      (.slave (slaveOf index)) := by
  unfold callbackMaster0x3nnn
  dsimp only
  split
  any_goals omega
  exact guarded_refused _ (by simp) len

theorem callbackMaster0x8nnn_open
    (h : subIndex.toNat ≤ 4 ∨ subIndex.toNat = 33 ∨ subIndex.toNat = 34) :
    (callbackMaster0x8nnn env pec index subIndex complete len).Open (.slave (slaveOf index)) := by
  unfold callbackMaster0x8nnn
  dsimp only
  generalize subIndex.toNat = k at h
  rcases h with h | rfl | rfl
  · interval_cases k
    · exact open_bufPut_nil _ _ _ _
    · split_ifs
      · exact ⟨by simp, Or.inl rfl⟩
      · exact ⟨by simp, Or.inl rfl⟩
    · exact open_mailboxValue env pec _ _ complete len
    · exact open_mailboxValue env pec _ _ complete len
    · exact open_mailboxValue env pec _ _ complete len
  · exact open_mailboxSize pec _ len 0
  · exact open_mailboxSize pec _ len 1

theorem callbackMaster0x8nnn_guarded
    (h : ¬(subIndex.toNat ≤ 4 ∨ subIndex.toNat = 33 ∨ subIndex.toNat = 34)) :
    (callbackMaster0x8nnn env pec index subIndex complete len).Guarded
      (slaveOf index < pec.slaveCnt) (.slave (slaveOf index)) := by
  unfold callbackMaster0x8nnn
  dsimp only
  split
  any_goals omega
  · exact guarded_ecCoeSdoRead env pec _ _ _ complete len
  · exact guarded_ecCoeSdoRead env pec _ _ _ complete len
  · exact guarded_ecCoeSdoRead env pec _ _ _ complete len
  · exact guarded_ecCoeSdoRead env pec _ _ _ complete len
  · exact guarded_refused _ (by simp) len

theorem callbackMaster0x9nnn_open (h : subIndex.toNat ≤ 1 ∨ subIndex.toNat = 32) :
    (callbackMaster0x9nnn env pec index subIndex complete len).Open (.slave (slaveOf index)) := by
  unfold callbackMaster0x9nnn
  dsimp only
  generalize subIndex.toNat = k at h
  rcases h with h | rfl
  · interval_cases k
    · exact open_bufPut_nil _ _ _ _
    · exact open_bufPut _ _ _ _
  · exact open_fprdReply env pec _ len _

theorem callbackMaster0x9nnn_guarded (h : ¬(subIndex.toNat ≤ 1 ∨ subIndex.toNat = 32)) :
    (callbackMaster0x9nnn env pec index subIndex complete len).Guarded
      (slaveOf index < pec.slaveCnt) (.slave (slaveOf index)) := by
  unfold callbackMaster0x9nnn
  dsimp only
  split
  any_goals omega
  · exact guarded_ecCoeSdoRead env pec _ _ _ complete len
  · exact guarded_ecCoeSdoRead env pec _ _ _ complete len
  · exact guarded_ecCoeSdoRead env pec _ _ _ complete len
  · exact guarded_ecCoeSdoRead env pec _ _ _ complete len
  · exact guarded_refused _ (by simp) len

theorem callbackMaster0xAnnn_open (h : subIndex.toNat ≤ 2) :
    (callbackMaster0xAnnn env pec index subIndex complete len).Open (.slave (slaveOf index)) := by
  unfold callbackMaster0xAnnn
  dsimp only
  generalize subIndex.toNat = k at h
  interval_cases k
  · exact open_bufPut_nil _ _ _ _
  · exact open_fprdReply env pec _ len _
  · exact open_fprdReply env pec _ len _

theorem callbackMaster0xAnnn_guarded (ex : Prop) (h : 2 < subIndex.toNat) :
    (callbackMaster0xAnnn env pec index subIndex complete len).Guarded ex
      (.slave (slaveOf index)) := by
  unfold callbackMaster0xAnnn
  dsimp only
  split
  any_goals omega
  exact guarded_refused _ (by simp) len

/-- The loop over the slaves touches the slaves that exist, and always returns `EC_OK`. -/
theorem assignedSlaves_inside (group : ℕ) (needValue : ℤ) {n slave : ℕ} {st : ℤ × Reply}
    (hle : slave + n ≤ pec.slaveCnt) (hok : st.2.ret = .ok)
    (hst : ∀ a ∈ st.2.touched, a.Inside pec o) :
    (assignedSlaves pec group needValue subIndex n slave st).2.ret = .ok ∧
      ∀ a ∈ (assignedSlaves pec group needValue subIndex n slave st).2.touched,
        a.Inside pec o := by
  induction n generalizing slave st with
  | zero => exact ⟨hok, hst⟩
  | succ n ih =>
    have htouched : ∀ a ∈ st.2.touched ++ [.slave slave], a.Inside pec o := by
      intro a ha
      rcases List.mem_append.1 ha with ha | ha
      · exact hst a ha
      · rw [List.mem_singleton.1 ha]
        simp only [Access.Inside]
        omega
    unfold assignedSlaves
    dsimp only
    split_ifs
    · exact ih (by omega) rfl htouched
    · exact ih (by omega) rfl htouched
    · exact ih (by omega) hok htouched
    · exact ih (by omega) hok htouched

theorem callbackMaster0x20nm_inside :
    (callbackMaster0x20nm env pec index subIndex complete len).ret = .ok ∧
      ∀ a ∈ (callbackMaster0x20nm env pec index subIndex complete len).touched,
        a.Inside pec o := by
  have h := @assignedSlaves_inside pec o subIndex (groupOf index) ((subIndex.toNat : ℤ) - 1)
    pec.slaveCnt 0 (-1, ⟨.ok, len, [], []⟩) (by omega) rfl (by simp)
  unfold callbackMaster0x20nm
  dsimp only
  split_ifs
  · exact h
  · exact h
  · exact h

theorem callbackMaster0xF0nn_inside :
    ∀ a ∈ (callbackMaster0xF0nn env pec index subIndex complete len).touched,
      a.Inside pec o := by
  unfold callbackMaster0xF0nn
  dsimp only
  split_ifs with h1 h2 h3
  · simp
  · intro a ha
    rw [List.mem_singleton.1 ha]
    exact h3
  · simp
  · simp

end Slaves

/-! ## The read -/

/-- The reply of a read of this object is confined. -/
def ObjectConfined (pec : Master) (o : Object) (index : UInt16) (r : Reply) : Prop :=
  (∀ a ∈ r.touched, a.Inside pec o) ∧ (¬Named pec o index → r.ret ≠ .ok)

theorem confined_of_none {index : UInt16} (h : getObject env pec index = none) (subIndex : UInt8)
    (complete : Bool) (len : ℕ) : Confined env pec index subIndex complete len := by
  rw [Confined, ecCoeMasterSdoRead, h]
  exact ⟨by simp, by simp⟩

theorem confined_iff_of_some {index : UInt16} (h : getObject env pec index = some o)
    (subIndex : UInt8) (complete : Bool) (len : ℕ) :
    Confined env pec index subIndex complete len ↔
      ObjectConfined pec o index (ecCoeMasterSdoRead env pec index subIndex complete len) := by
  simp only [Confined, ObjectConfined, h, Option.some.injEq]
  simp

theorem ecCoeMasterSdoRead_static {index : UInt16} {data : List UInt8}
    (h : getObject env pec index = some o) (hread : o.read = none) (hdata : o.data = some data)
    (subIndex : UInt8) (complete : Bool) (len : ℕ) :
    ecCoeMasterSdoRead env pec index subIndex complete len =
      staticRead o data subIndex.toNat complete len := by
  rw [ecCoeMasterSdoRead, h]
  simp only [hread, hdata]

theorem ecCoeMasterSdoRead_callback {index : UInt16} {read : Callback}
    (h : getObject env pec index = some o) (hread : o.read = some read) (subIndex : UInt8)
    (complete : Bool) (len : ℕ) :
    ecCoeMasterSdoRead env pec index subIndex complete len =
      read env pec index subIndex complete len := by
  rw [ecCoeMasterSdoRead, h]
  simp only [hread]

/-- An object with data belongs to no group and no slave. -/
theorem named_static (ho : o ∈ dict env pec) (hread : o.read = none) (index : UInt16) :
    Named pec o index := by
  simp only [dict, List.mem_cons, List.not_mem_nil, or_false] at ho
  rcases ho with rfl | rfl | rfl | rfl | rfl | rfl | rfl | rfl | rfl | rfl | rfl | rfl | rfl | rfl |
    rfl
  any_goals cases hread
  all_goals simp [Named, Object.static, Object.string]

/-- A callback that looks without asking, unless it refuses the subindex. -/
theorem objectConfined_of_open (ex refused : Prop) {index : UInt16} {k : ℕ} {t : Access}
    {r : Reply} (hn : Named pec o index ↔ ex) (ht : t.Inside pec o ↔ ex) (hr : Refused o k ↔ refused)
    (hopen : ¬refused → r.Open t) (hguarded : refused → r.Guarded ex t) :
    ObjectConfined pec o index r ↔ Named pec o index ∨ Refused o k := by
  rw [ObjectConfined, hn, hr]
  by_cases h : refused
  · exact iff_of_true ((hguarded h).confined ht) (Or.inr h)
  · rw [or_iff_left h]
    exact (hopen h).confined_iff ht

/-- The objects with a callback. -/
theorem objectConfined_callback {read : Callback} (ho : o ∈ dict env pec)
    (hread : o.read = some read) (index : UInt16) (subIndex : UInt8) (complete : Bool) (len : ℕ) :
    ObjectConfined pec o index (read env pec index subIndex complete len) ↔
      Named pec o index ∨ Refused o subIndex.toNat := by
  simp only [dict, List.mem_cons, List.not_mem_nil, or_false] at ho
  rcases ho with rfl | rfl | rfl | rfl | rfl | rfl | rfl | rfl | rfl | rfl | rfl | rfl | rfl | rfl |
    rfl
  any_goals cases hread
  · -- 0x20nn
    exact objectConfined_of_open (groupOf index < pec.pdGroupCnt) (13 < subIndex.toNat)
      (by simp [Named]) Iff.rfl (by simp [Refused])
      (fun h => callbackMaster0x20nn_open env pec index subIndex complete len (Nat.le_of_not_lt h))
      (callbackMaster0x20nn_guarded env pec index subIndex complete len _)
  · -- 0x20nm looks at the slaves only, and never returns an error
    have hin := callbackMaster0x20nm_inside (o := ⟨0x2001, 0xFF01, 255, [8, 16], none,
      some callbackMaster0x20nm⟩) env pec index subIndex complete len
    have hr : ¬Refused (⟨0x2001, 0xFF01, 255, [8, 16], none, some callbackMaster0x20nm⟩)
        subIndex.toNat := by simp [Refused]
    rw [or_iff_left hr]
    constructor
    · intro h
      by_contra hno
      exact h.2 hno hin.1
    · intro h
      exact ⟨hin.2, absurd h⟩
  · -- 0x3nnn
    exact objectConfined_of_open (slaveOf index < pec.slaveCnt) (13 < subIndex.toNat)
      (by simp [Named]) Iff.rfl (by simp [Refused])
      (fun h => callbackMaster0x3nnn_open env pec index subIndex complete len (Nat.le_of_not_lt h))
      (callbackMaster0x3nnn_guarded env pec index subIndex complete len _)
  · -- 0x8nnn
    exact objectConfined_of_open (slaveOf index < pec.slaveCnt)
      (¬(subIndex.toNat ≤ 4 ∨ subIndex.toNat = 33 ∨ subIndex.toNat = 34))
      (by simp [Named]) Iff.rfl (by simp [Refused])
      (fun h => callbackMaster0x8nnn_open env pec index subIndex complete len (not_not.1 h))
      (callbackMaster0x8nnn_guarded env pec index subIndex complete len)
  · -- 0x9nnn
    exact objectConfined_of_open (slaveOf index < pec.slaveCnt)
      (¬(subIndex.toNat ≤ 1 ∨ subIndex.toNat = 32))
      (by simp [Named]) Iff.rfl (by simp [Refused])
      (fun h => callbackMaster0x9nnn_open env pec index subIndex complete len (not_not.1 h))
      (callbackMaster0x9nnn_guarded env pec index subIndex complete len)
  · -- 0xAnnn
    exact objectConfined_of_open (slaveOf index < pec.slaveCnt) (2 < subIndex.toNat)
      (by simp [Named]) Iff.rfl (by simp [Refused])
      (fun h => callbackMaster0xAnnn_open env pec index subIndex complete len (Nat.le_of_not_lt h))
      (callbackMaster0xAnnn_guarded env pec index subIndex complete len _)
  · -- 0xF02n
    have hn : Named pec (⟨0xF020, 0xFFF0, 255, [8, 16], none, some callbackMaster0xF0nn⟩) index := by
      simp [Named]
    exact iff_of_true
      ⟨callbackMaster0xF0nn_inside env pec index subIndex complete len, absurd hn⟩ (Or.inl hn)
  · -- 0xF04n
    have hn : Named pec (⟨0xF040, 0xFFF0, 255, [8, 16], none, some callbackMaster0xF0nn⟩) index := by
      simp [Named]
    exact iff_of_true
      ⟨callbackMaster0xF0nn_inside env pec index subIndex complete len, absurd hn⟩ (Or.inl hn)

/-- Every object of the dictionary. -/
theorem objectConfined_iff (ho : o ∈ dict env pec) (index : UInt16) (subIndex : UInt8)
    (complete : Bool) (len : ℕ) (h : getObject env pec index = some o) :
    ObjectConfined pec o index (ecCoeMasterSdoRead env pec index subIndex complete len) ↔
      Named pec o index ∨ Refused o subIndex.toNat := by
  cases hread : o.read with
  | none =>
    obtain ⟨data, hdata, hstatic⟩ := dict_static ho hread
    have hnamed := named_static ho hread index
    rw [ecCoeMasterSdoRead_static h hread hdata]
    exact iff_of_true ⟨staticRead_inside hdata hstatic _ complete len, absurd hnamed⟩
      (Or.inl hnamed)
  | some read =>
    rw [ecCoeMasterSdoRead_callback h hread]
    exact objectConfined_callback ho hread index subIndex complete len

/-- **When a read is confined**: the group or slave of the index exists, or the callback refuses the
subindex. -/
theorem master_sdo_read_confined (env : Env) (pec : Master) (index : UInt16) (subIndex : UInt8)
    (complete : Bool) (len : ℕ) :
    Confined env pec index subIndex complete len ↔
      ∀ o, getObject env pec index = some o → Named pec o index ∨ Refused o subIndex.toNat := by
  cases h : getObject env pec index with
  | none => exact iff_of_true (confined_of_none h subIndex complete len) (fun o ho => by cases ho)
  | some o =>
    rw [confined_iff_of_some h, objectConfined_iff (List.mem_of_find?_eq_some h) index subIndex
      complete len h]
    simp only [Option.some.injEq, forall_eq']

/-- A master with one group and no slaves. -/
def smallMaster : Master where
  pdGroupCnt := 1
  pdGroups _ := ⟨0, 0, 0, 0, 0, 0, 0, 0, 0, 0, 0, 0, 0⟩
  slaveCnt := 0
  slaves _ := ⟨0, 0, 0, fun _ => 0, 0, 0, ⟨0, 0, 0, fun _ => 0, 0, 0, 0, 0⟩⟩
  detectModules _ := 0

/-- The logical address of group 8, of one. -/
theorem master_sdo_read_group : ¬Confined silentEnv smallMaster 0x2010 1 false 4 := by
  intro h
  have hin := h.1 (.pdGroup 8) (by decide +kernel)
  obtain ⟨o, -, ho⟩ := hin
  exact absurd ho (by simp [Access.Inside, smallMaster])

end LibEthercat.CoeMaster
