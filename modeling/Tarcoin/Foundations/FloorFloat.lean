import Mathlib.Tactic

/-! Naturals rounded down to a mantissa below `M` times a power of a base `B` that divides `M`. -/
namespace FloorFloat

/-- The mantissa at exponent `e` is below the bound and no smaller exponent would do. -/
structure IsExponent (B M x e : ℕ) : Prop where
  mantissa_lt : x / B ^ e < M
  least : 0 < e → M ≤ x / B ^ (e - 1)

/-- `x` with its digits below `B ^ e` cleared. -/
def truncate (B e x : ℕ) : ℕ := x / B ^ e * B ^ e

variable {B M x y e f : ℕ}

theorem truncate_le : truncate B e x ≤ x := Nat.div_mul_le_self x (B ^ e)

@[simp] theorem truncate_zero : truncate B 0 x = x := by simp [truncate]

theorem exponent_le (hB : 0 < B) (hx : IsExponent B M x e) (hy : IsExponent B M y f) (h : x ≤ y) :
    e ≤ f := by
  by_contra hlt
  have hM := hx.least (by omega)
  have hdiv : x / B ^ (e - 1) ≤ y / B ^ f :=
    (Nat.div_le_div_right h).trans
      (Nat.div_le_div_left (Nat.pow_le_pow_right hB (by omega)) (Nat.pow_pos hB))
  have := hy.mantissa_lt
  omega

theorem exponent_unique (hB : 0 < B) (hx : IsExponent B M x e) (hy : IsExponent B M x f) : e = f :=
  le_antisymm (exponent_le hB hx hy le_rfl) (exponent_le hB hy hx le_rfl)

theorem le_mantissa (he : 0 < e) (hx : IsExponent B M x e) : M / B ≤ x / B ^ e := by
  obtain ⟨k, rfl⟩ := Nat.exists_eq_succ_of_ne_zero he.ne'
  rw [pow_succ, ← Nat.div_div_eq_div_mul]
  exact Nat.div_le_div_right (hx.least he)

theorem isExponent_truncate (hB : 0 < B) (hM : B ∣ M) (hx : IsExponent B M x e) :
    IsExponent B M (truncate B e x) e := by
  constructor
  · rw [truncate, Nat.mul_div_cancel _ (Nat.pow_pos hB)]
    exact hx.mantissa_lt
  · intro he
    have hm := Nat.mul_le_mul_right B (le_mantissa he hx)
    rw [Nat.div_mul_cancel hM] at hm
    obtain ⟨k, rfl⟩ := Nat.exists_eq_succ_of_ne_zero he.ne'
    rw [truncate, Nat.succ_sub_one, Nat.pow_succ, mul_comm (B ^ k) B, ← mul_assoc,
      Nat.mul_div_cancel _ (Nat.pow_pos hB), mul_comm B (B ^ k)]
    exact hm

theorem truncate_mono (hB : 0 < B) (hM : B ∣ M) (hx : IsExponent B M x e) (hy : IsExponent B M y f)
    (h : x ≤ y) : truncate B e x ≤ truncate B f y := by
  rcases (exponent_le hB hx hy h).eq_or_lt with rfl | hlt
  · exact Nat.mul_le_mul_right _ (Nat.div_le_div_right h)
  · have hxlt : x < M * B ^ e := (Nat.div_lt_iff_lt_mul (Nat.pow_pos hB)).mp hx.mantissa_lt
    have hmant := Nat.mul_le_mul_right (B ^ f) (le_mantissa (by omega) hy)
    have hstep : M * B ^ e ≤ M / B * B ^ f := by
      calc M * B ^ e = M / B * B ^ (e + 1) := by
            rw [pow_succ, mul_comm (B ^ e) B, ← mul_assoc, Nat.div_mul_cancel hM]
        _ ≤ M / B * B ^ f := Nat.mul_le_mul_left _ (Nat.pow_le_pow_right hB hlt)
    exact truncate_le.trans (hxlt.le.trans (hstep.trans hmant))

theorem lt_two_mul_truncate (hB : 0 < B) (hM : B ∣ M) (hM0 : 0 < M) (hx : IsExponent B M x e)
    (hpos : 0 < x) : x < 2 * truncate B e x := by
  rcases Nat.eq_zero_or_pos e with rfl | he
  · rw [truncate_zero]
    omega
  · have hone : 1 ≤ x / B ^ e :=
      lt_of_lt_of_le (Nat.div_pos (Nat.le_of_dvd hM0 hM) hB) (le_mantissa he hx)
    have hlt := Nat.lt_div_mul_add (a := x) (Nat.pow_pos hB (n := e))
    have hle := Nat.mul_le_mul_right (B ^ e) hone
    unfold truncate
    omega

end FloorFloat
