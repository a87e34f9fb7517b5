import Mathlib.Tactic

/-! A payment `c` that is halved, rounding down, every `I` steps. The potential `(2 * I - r) * (c
/ 2 ^ q)` at step `n = q * I + r` pays for all that is to come. -/
namespace HalvingSeries

variable (c : ℤ) (I : ℕ)

variable {c I}

end HalvingSeries
