import LibEthercat.Sii.Model

/-!
# What a category leaves alone

The fixed words are read before the categories, and of the strings, the general data and the sync
managers of the slave a category touches only its own.
-/

namespace LibEthercat.Sii

open LibEthercat.Coe (Message)

/-- From `s` to `s'` nothing has been touched but what a category of the kind is for. -/
structure Kept (k : CatKind) (s s' : Dump) : Prop where
  ident : s'.slv.eeprom.ident = s.slv.eeprom.ident
  strings : k ≠ .strings → s'.slv.eeprom.strings = s.slv.eeprom.strings
  general : k ≠ .general → s'.slv.eeprom.general = s.slv.eeprom.general
  sm : k ≠ .sm → s'.slv.sm = s.slv.sm

variable {e : Rom} {k : CatKind}

theorem Kept.refl (s : Dump) : Kept k s s := ⟨rfl, fun _ => rfl, fun _ => rfl, fun _ => rfl⟩

theorem Kept.trans {s t u : Dump} (h : Kept k s t) (h' : Kept k t u) : Kept k s u where
  ident := h'.ident.trans h.ident
  strings hk := (h'.strings hk).trans (h.strings hk)
  general hk := (h'.general hk).trans (h.general hk)
  sm hk := (h'.sm hk).trans (h.sm hk)

/-- A loop that keeps in each pass, from a state on that has been kept. -/
theorem Kept.foldl {α : Type} {f : Dump → α → Dump} (h : ∀ s a, Kept k s (f s a)) {s t : Dump}
    {as : List α} (ht : Kept k s t) : Kept k s (as.foldl f t) :=
  List.foldlRecOn as f ht fun _ hu a _ => hu.trans (h _ a)

theorem stringPass_kept (s : Dump) (cursor : ℕ × ℕ) : Kept .strings s (stringPass s cursor) := by
  unfold stringPass
  dsimp only
  split_ifs <;> exact ⟨rfl, fun h => absurd rfl h, fun _ => rfl, fun _ => rfl⟩

theorem fmmuPass_kept (c : Cat) (st : Message × Dump) (j : ℕ) :
    Kept .fmmu st.2 (fmmuPass e c st j).2 := by
  refine Kept.foldl (fun s i => ?_) (Kept.refl st.2)
  unfold fmmuByte
  split_ifs <;> exact ⟨rfl, fun _ => rfl, fun _ => rfl, fun _ => rfl⟩

theorem smPass_kept (c : Cat) (s : Dump) (j : ℕ) : Kept .sm s (smPass e c s j) := by
  unfold smPass storeSm setSm
  dsimp only
  split_ifs <;> exact ⟨rfl, fun _ => rfl, fun _ => rfl, fun h => absurd rfl h⟩

theorem smReallocate_kept (s : Dump) (c : Cat) : Kept .sm s (smReallocate s c) := by
  unfold smReallocate
  split_ifs <;> exact ⟨rfl, fun _ => rfl, fun _ => rfl, fun h => absurd rfl h⟩

theorem dcPass_kept (c : Cat) (s : Dump) (j : ℕ) : Kept k s (dcPass e c s j) := by
  unfold dcPass
  dsimp only
  split_ifs <;> exact ⟨rfl, fun _ => rfl, fun _ => rfl, fun _ => rfl⟩

theorem catPdo_kept (q : Queue) (s : Dump) (c : Cat) : Kept k s (catPdo q e s c) := by
  have hpass : ∀ s adr, Kept k s (storePdo q (s.touch (pdoTouches e adr)) (tmpPdo e adr)) := by
    intro s adr
    unfold storePdo
    split_ifs <;> exact ⟨rfl, fun _ => rfl, fun _ => rfl, fun _ => rfl⟩
  unfold catPdo
  split_ifs
  · exact Kept.refl s
  · refine Kept.foldl hpass ?_
    exact ⟨rfl, fun _ => rfl, fun _ => rfl, fun _ => rfl⟩

/-- **What a category leaves alone.** -/
theorem category_kept (s : Dump) (c : Cat) : Kept c.kind s (category e s c) := by
  unfold category
  cases c.kind with
  | strings =>
    refine Kept.foldl stringPass_kept ?_
    exact ⟨rfl, fun _ => rfl, fun _ => rfl, fun _ => rfl⟩
  | general => exact ⟨rfl, fun _ => rfl, fun h => absurd rfl h, fun _ => rfl⟩
  | fmmu =>
    unfold catFmmu
    dsimp only
    split_ifs
    · exact ⟨rfl, fun _ => rfl, fun _ => rfl, fun _ => rfl⟩
    · exact List.foldlRecOn (motive := fun st : Message × Dump => Kept .fmmu s st.2) _
        (fmmuPass e c) ⟨rfl, fun _ => rfl, fun _ => rfl, fun _ => rfl⟩
        fun st hst j _ => hst.trans (fmmuPass_kept c st j)
  | sm =>
    unfold catSm
    dsimp only
    split_ifs
    · exact ⟨rfl, fun _ => rfl, fun _ => rfl, fun _ => rfl⟩
    · refine Kept.foldl (smPass_kept c) (Kept.trans ?_ (smReallocate_kept _ c))
      exact ⟨rfl, fun _ => rfl, fun _ => rfl, fun _ => rfl⟩
  | txpdo => exact catPdo_kept .tx s c
  | rxpdo => exact catPdo_kept .rx s c
  | dc =>
    refine Kept.foldl (dcPass_kept c) ?_
    exact ⟨rfl, fun _ => rfl, fun _ => rfl, fun _ => rfl⟩
  | other => exact Kept.refl s

theorem mbxSupportedText_slv (supported : ℕ) (s : Dump) :
    (mbxSupportedText supported s).slv = s.slv := by
  refine List.foldlRecOn (motive := fun st : ℕ × Dump => st.2.slv = s.slv) _ _ rfl ?_
  intro st hst flag _
  unfold addMbxSuppText
  split_ifs <;> exact hst

end LibEthercat.Sii
