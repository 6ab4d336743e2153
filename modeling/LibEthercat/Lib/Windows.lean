import LibEthercat.Lib.Loop

/-!
# Windows laid out one after the other

A `Window` is a start address, a length and a direction. `Packed lo hi ws` says that the windows
`ws` lie in `[lo, hi)` in the order of the list, with or without gaps.

* `Packed.append` — layouts of two adjacent ranges combine.
* `Packed.region_subset`, `Packed.pairwise_disjoint` — the windows of a layout stay inside its
  range and do not share an address.
* `pairwise_disjoint_of_split` — two layouts of disjoint ranges, interleaved.
* `thread_packed` — a loop whose passes lay out windows between their cursors lays out all of
  them.
-/

/-- A range of addresses that carries data one way. -/
structure Window where
  start : ℕ
  len : ℕ
  isOutput : Bool
  deriving DecidableEq, Repr

namespace Window

/-- The addresses of a window. -/
def region (w : Window) : Set ℕ := Set.Ico w.start (w.start + w.len)

/-- The addresses of a list of windows. -/
def regions (ws : List Window) : Set ℕ := {a | ∃ w ∈ ws, a ∈ w.region}

theorem region_subset_regions {ws : List Window} {w : Window} (h : w ∈ ws) :
    w.region ⊆ regions ws := fun _ ha => ⟨w, h, ha⟩

theorem regions_subset_iff {ws : List Window} {s : Set ℕ} :
    regions ws ⊆ s ↔ ∀ w ∈ ws, w.region ⊆ s :=
  ⟨fun h _ hw => (region_subset_regions hw).trans h, fun h _ ⟨w, hw, ha⟩ => h w hw ha⟩

/-- The windows lie one after the other in `[lo, hi)`. -/
inductive Packed : ℕ → ℕ → List Window → Prop
  | nil {lo hi : ℕ} : lo ≤ hi → Packed lo hi []
  | cons {lo hi : ℕ} {w : Window} {ws : List Window} :
      lo ≤ w.start → Packed (w.start + w.len) hi ws → Packed lo hi (w :: ws)

@[simp] theorem packed_nil {lo hi : ℕ} : Packed lo hi [] ↔ lo ≤ hi :=
  ⟨fun | .nil h => h, .nil⟩

@[simp] theorem packed_cons {lo hi : ℕ} {w : Window} {ws : List Window} :
    Packed lo hi (w :: ws) ↔ lo ≤ w.start ∧ Packed (w.start + w.len) hi ws :=
  ⟨fun | .cons h t => ⟨h, t⟩, fun h => .cons h.1 h.2⟩

namespace Packed

variable {lo mid hi : ℕ} {ws ws' : List Window}

theorem le (h : Packed lo hi ws) : lo ≤ hi := by
  induction h with
  | nil h => exact h
  | cons h _ ih => omega

theorem mono {lo' hi' : ℕ} (h : Packed lo hi ws) (hlo : lo' ≤ lo) (hhi : hi ≤ hi') :
    Packed lo' hi' ws := by
  induction h generalizing lo' with
  | nil h => exact .nil ((hlo.trans h).trans hhi)
  | cons h _ ih => exact .cons (hlo.trans h) (ih le_rfl hhi)

theorem append (h : Packed lo mid ws) (h' : Packed mid hi ws') : Packed lo hi (ws ++ ws') := by
  induction h with
  | nil h => exact h'.mono h le_rfl
  | cons h _ ih => exact .cons h (ih h')

theorem sublist (h : Packed lo hi ws) (hs : ws'.Sublist ws) : Packed lo hi ws' := by
  induction hs generalizing lo with
  | slnil => exact h
  | cons w _ ih =>
    obtain ⟨hw, ht⟩ := packed_cons.1 h
    exact ih (ht.mono (hw.trans (Nat.le_add_right _ _)) le_rfl)
  | cons_cons w _ ih =>
    obtain ⟨hw, ht⟩ := packed_cons.1 h
    exact .cons hw (ih ht)

theorem region_subset (h : Packed lo hi ws) : ∀ w ∈ ws, w.region ⊆ Set.Ico lo hi := by
  induction h with
  | nil => simp
  | cons h t ih =>
    intro v hv
    rcases List.mem_cons.1 hv with rfl | hv
    · exact Set.Ico_subset_Ico h t.le
    · exact (ih v hv).trans (Set.Ico_subset_Ico_left (h.trans (Nat.le_add_right _ _)))

theorem regions_subset (h : Packed lo hi ws) : regions ws ⊆ Set.Ico lo hi :=
  regions_subset_iff.2 h.region_subset

theorem pairwise_disjoint (h : Packed lo hi ws) :
    ws.Pairwise fun w w' => Disjoint w.region w'.region := by
  induction h with
  | nil => exact List.Pairwise.nil
  | cons _ t ih =>
    refine List.Pairwise.cons (fun v hv => ?_) ih
    exact Set.disjoint_of_subset_right (t.region_subset v hv) Set.Ico_disjoint_Ico_same

end Packed

/-- The output windows of a list lie one after the other below `mid`, its input windows from
`mid` on: then no two windows of the list share an address, however the two are interleaved. -/
theorem pairwise_disjoint_of_split {lo mid hi : ℕ} {ws : List Window}
    (hout : Packed lo mid (ws.filter fun w => w.isOutput == true))
    (hin : Packed mid hi (ws.filter fun w => w.isOutput == false)) :
    ws.Pairwise fun w w' => Disjoint w.region w'.region := by
  have hmid : ∀ {v w : Window}, v ∈ ws → w ∈ ws → v.isOutput = true → w.isOutput = false →
      Disjoint v.region w.region := fun {v w} hv hw ho hi' =>
    Set.disjoint_of_subset (hout.region_subset v (List.mem_filter.2 ⟨hv, by simp [ho]⟩))
      (hin.region_subset w (List.mem_filter.2 ⟨hw, by simp [hi']⟩)) Set.Ico_disjoint_Ico_same
  have hO := List.pairwise_filter.1 hout.pairwise_disjoint
  have hI := List.pairwise_filter.1 hin.pairwise_disjoint
  refine ((hO.and hI).and (List.pairwise_of_forall_mem_list (r := fun v w =>
    v.isOutput ≠ w.isOutput → Disjoint v.region w.region) fun v hv w hw hne => ?_)).imp ?_
  · cases ho : v.isOutput with
    | true => exact hmid hv hw ho (by simpa [ho] using hne.symm)
    | false => exact (hmid hw hv (by simpa [ho] using hne.symm) ho).symm
  · rintro v w ⟨⟨h1, h2⟩, h3⟩
    cases ho : v.isOutput <;> cases ho' : w.isOutput <;> simp_all

/-- The windows follow each other without a gap. -/
def Follow : ℕ → List Window → Prop
  | _, [] => True
  | a, w :: ws => w.start = a ∧ Follow (a + w.len) ws

theorem Follow.of_isPrefix {a : ℕ} {ws ws' : List Window} (h : Follow a ws) (hp : ws' <+: ws) :
    Follow a ws' := by
  induction ws' generalizing a ws with
  | nil => trivial
  | cons w ws' ih =>
    obtain ⟨rest, rfl⟩ := hp
    exact ⟨h.1, ih h.2 ⟨rest, rfl⟩⟩

theorem Follow.packed {a : ℕ} {ws : List Window} (h : Follow a ws) :
    Packed a (a + (ws.map len).sum) ws := by
  induction ws generalizing a with
  | nil => exact .nil (Nat.le_add_right _ _)
  | cons w ws ih =>
    have hrest := ih h.2
    rw [← h.1] at hrest ⊢
    rw [List.map_cons, List.sum_cons, ← Nat.add_assoc]
    exact .cons le_rfl hrest

theorem Follow.mem_regions {a k : ℕ} {ws : List Window} (h : Follow a ws)
    (hk : k < (ws.map len).sum) : a + k ∈ regions ws := by
  induction ws generalizing a k with
  | nil => exact absurd hk (Nat.not_lt_zero k)
  | cons w ws ih =>
    rw [List.map_cons, List.sum_cons] at hk
    by_cases hlt : k < w.len
    · exact ⟨w, List.mem_cons_self, by rw [region, h.1]; exact ⟨Nat.le_add_right _ _, by omega⟩⟩
    · obtain ⟨v, hv, hmem⟩ := ih (k := k - w.len) h.2 (by omega)
      rw [show a + w.len + (k - w.len) = a + k by omega] at hmem
      exact ⟨v, List.mem_cons_of_mem w hv, hmem⟩

/-- **A loop lays out its windows.** Every pass lays out windows between the cursor before it
and the cursor after it. -/
theorem thread_packed {σ α β : Type*} {f : σ → α → σ × β} (pos : σ → ℕ) (ws : β → List Window)
    (h : ∀ c a, Packed (pos c) (pos (f c a).1) (ws (f c a).2)) (c : σ) (as : List α) :
    Packed (pos c) (pos (Loop.thread f c as).1) ((Loop.thread f c as).2.flatMap ws) := by
  induction as generalizing c with
  | nil => exact .nil le_rfl
  | cons a as ih => exact (h c a).append (ih _)

end Window
