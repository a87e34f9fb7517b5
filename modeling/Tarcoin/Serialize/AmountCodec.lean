import Tarcoin.Primitives.Transaction

/-! `CompressAmount` and `DecompressAmount` of `compressor.cpp`, in 64-bit arithmetic. -/
namespace Tarcoin

/-- The loop that divides out powers of ten, with the number of turns left. -/
def stripZeros : ℕ → ℕ → ℕ → ℕ × ℕ
  | 0, e, n => (n, e)
  | turns + 1, e, n => if n % 10 = 0 then stripZeros turns (e + 1) (n / 10) else (n, e)

/-- What `CompressAmount` returns for mantissa `n` and exponent `e`, before it is cut to 64
bits. -/
def amountCode (n e : ℕ) : ℕ :=
  if e < 9 then 1 + (n / 10 * 9 + n % 10 - 1) * 10 + e else 1 + (n - 1) * 10 + 9

def compressAmount (n : ℕ) : ℕ :=
  if n = 0 then 0 else amountCode (stripZeros 9 0 n).1 (stripZeros 9 0 n).2 % 2 ^ 64

/-- The loop that multiplies the powers of ten back. -/
def multiplyTens : ℕ → ℕ → ℕ
  | 0, n => n
  | e + 1, n => multiplyTens e (n * 10 % 2 ^ 64)

/-- The mantissa that `DecompressAmount` recovers. -/
def amountMantissa (x e : ℕ) : ℕ := if e < 9 then x / 9 * 10 + (x % 9 + 1) else x + 1

def decompressAmount (x : ℕ) : ℕ :=
  if x = 0 then 0
  else multiplyTens ((x - 1) % 10) (amountMantissa ((x - 1) / 10) ((x - 1) % 10))

theorem stripZeros_spec (turns e n : ℕ) :
    ∃ k ≤ turns, (stripZeros turns e n).2 = e + k ∧ n = (stripZeros turns e n).1 * 10 ^ k ∧
      (k < turns → (stripZeros turns e n).1 % 10 ≠ 0) := by
  induction turns generalizing e n with
  | zero => exact ⟨0, le_rfl, rfl, by simp [stripZeros], by omega⟩
  | succ turns ih =>
    unfold stripZeros
    split_ifs with h
    · obtain ⟨k, hk, he, hn, hd⟩ := ih (e + 1) (n / 10)
      refine ⟨k + 1, by omega, by omega, ?_, fun hlt => hd (by omega)⟩
      rw [pow_succ, ← mul_assoc]
      omega
    · exact ⟨0, by omega, rfl, by simp, fun _ => h⟩

variable {e n m y t : ℕ}

theorem multiplyTens_eq (hn : n < 2 ^ 64) : multiplyTens e n = n * 10 ^ e % 2 ^ 64 := by
  induction e generalizing n with
  | zero =>
    simp only [multiplyTens, pow_zero, mul_one]
    exact (Nat.mod_eq_of_lt hn).symm
  | succ e ih =>
    have hlt : n * 10 % 2 ^ 64 < 2 ^ 64 := Nat.mod_lt _ (by norm_num)
    rw [multiplyTens, ih hlt, Nat.mod_mul_mod]
    ring_nf

theorem decompressAmount_amountCode (he : e ≤ 9) (hd : e < 9 → m % 10 ≠ 0) (hm : 0 < m)
    (hfit : amountCode m e < 2 ^ 64) : decompressAmount (amountCode m e) = m * 10 ^ e % 2 ^ 64 := by
  have hparts : amountCode m e ≠ 0 ∧ (amountCode m e - 1) % 10 = e ∧
      amountMantissa ((amountCode m e - 1) / 10) e = m := by
    unfold amountCode amountMantissa
    split_ifs with h9
    · refine ⟨?_, ?_, ?_⟩ <;> omega
    · refine ⟨?_, ?_, ?_⟩ <;> omega
  have hm64 : m < 2 ^ 64 := by
    unfold amountCode at hfit
    split_ifs at hfit <;> omega
  rw [decompressAmount, if_neg hparts.1, hparts.2.1, hparts.2.2, multiplyTens_eq hm64]

/-- The amounts that survive: the multiples of ten, and those whose code fits. -/
def AmountFits (n : ℕ) : Prop := n % 10 = 0 ∨ 9 * n + n % 10 < 2 ^ 64 + 9

instance (n : ℕ) : Decidable (AmountFits n) := by
  unfold AmountFits
  infer_instance

theorem exists_amountCode (hn : 0 < n) :
    ∃ m e, e ≤ 9 ∧ (e < 9 → m % 10 ≠ 0) ∧ 0 < m ∧ n = m * 10 ^ e ∧
      compressAmount n = amountCode m e % 2 ^ 64 := by
  obtain ⟨k, hk, he, hmul, hd⟩ := stripZeros_spec 9 0 n
  refine ⟨(stripZeros 9 0 n).1, (stripZeros 9 0 n).2, by omega, ?_, ?_, ?_, ?_⟩
  · intro h
    exact hd (by omega)
  · by_contra hz
    rw [Nat.eq_zero_of_not_pos hz] at hmul
    omega
  · rw [he, zero_add]
    exact hmul
  · rw [compressAmount, if_neg (by omega)]

/-- An amount with trailing zeros keeps a code below the wrap up to `MAX_MONEY`. -/
theorem amountCode_lt_of_zero (he : 0 < e) (he9 : e ≤ 9) (hn : m * 10 ^ e ≤ 5000000000000000000) :
    amountCode m e < 2 ^ 64 := by
  have hpow : 10 ≤ 10 ^ e := by
    calc 10 = 10 ^ 1 := rfl
      _ ≤ 10 ^ e := Nat.pow_le_pow_right (by norm_num) he
  have hm : m * 10 ≤ 5000000000000000000 := (Nat.mul_le_mul_left m hpow).trans hn
  unfold amountCode
  split_ifs with h9
  · omega
  · omega

/-- A linear congruence with an invertible coefficient has one solution. -/
private theorem solve_congruence {M a I n b : ℤ} (hI : M ∣ a * I - 1) (h : M ∣ a * n + b)
    (h0 : 0 ≤ n) (hM : n < M) : n = -I * b % M := by
  obtain ⟨j, hj⟩ := hI
  obtain ⟨t, ht⟩ := h
  have hdvd : M ∣ n - -I * b := ⟨I * t - j * n, by linear_combination I * ht - n * hj⟩
  calc n = n % M := (Int.emod_eq_of_lt h0 hM).symm
    _ = -I * b % M := Int.emod_eq_emod_iff_emod_sub_eq_zero.mpr (Int.emod_eq_zero_of_dvd hdvd)

/-- After one wrap the code ends in 5, so it decodes with exponent 4. A fixed point would
solve `89991 * n = -10000 * δ` modulo `2 ^ 64` for one of seventeen small `δ`. -/
theorem wrapped_once_ne (hn : n ≤ 5000000000000000000) (hy : 9 * n + n % 10 = 10 * y + 14 + 2 ^ 64)
    (h : (y / 9 * 10 + y % 9 + 1) * 10 ^ 4 = n + 2 ^ 64 * t) : False := by
  obtain ⟨δ, hδ⟩ : ∃ δ : ℤ, δ = (n % 10 : ℕ) - 5 - (y % 9 : ℕ) := ⟨_, rfl⟩
  have hlow : -12 ≤ δ := by omega
  have hhigh : δ ≤ 4 := by omega
  have hmod : 89991 * (n : ℤ) + 10000 * δ = 2 ^ 64 * (9 * t + 10000) := by omega
  have hsol := solve_congruence (M := 2 ^ 64) (a := 89991) (I := 15842828238033401399)
    (n := n) (b := 10000 * δ) (by norm_num) ⟨_, hmod⟩ (by omega) (by omega)
  clear hmod h
  interval_cases δ <;> norm_num at hsol <;> omega

/-- After two wraps the code ends in 9, so it decodes with exponent 8. -/
theorem wrapped_twice_ne (hn : n ≤ 5000000000000000000) (hy : 9 * n + n % 10 = 10 * y + 18 + 2 ^ 65)
    (h : (y / 9 * 10 + y % 9 + 1) * 10 ^ 8 = n + 2 ^ 64 * t) : False := by
  obtain ⟨δ, hδ⟩ : ∃ δ : ℤ, δ = (n % 10 : ℕ) - 9 - (y % 9 : ℕ) := ⟨_, rfl⟩
  have hlow : -16 ≤ δ := by omega
  have hhigh : δ ≤ 0 := by omega
  have hmod : 899999991 * (n : ℤ) + 100000000 * δ = 2 ^ 64 * (9 * t + 200000000) := by omega
  have hsol := solve_congruence (M := 2 ^ 64) (a := 899999991) (I := 16430456183658535111)
    (n := n) (b := 100000000 * δ) (by norm_num) ⟨_, hmod⟩ (by omega) (by omega)
  clear hmod h
  interval_cases δ <;> norm_num at hsol <;> omega

theorem exists_wraps (he : e < 9) (hy : y < 2 ^ 63) (h : decompressAmount (10 * y + e + 1) = n) :
    ∃ t, (y / 9 * 10 + y % 9 + 1) * 10 ^ e = n + 2 ^ 64 * t := by
  have hmod : (10 * y + e + 1 - 1) % 10 = e := by omega
  have hdiv : (10 * y + e + 1 - 1) / 10 = y := by omega
  have hmantissa : amountMantissa y e = y / 9 * 10 + y % 9 + 1 := if_pos he
  rw [decompressAmount, if_neg (by omega), hmod, hdiv, hmantissa, multiplyTens_eq (by omega)] at h
  exact ⟨_, by rw [← h, Nat.mod_add_div]⟩

theorem decompressAmount_wrapped_ne (hn : n ≤ 5000000000000000000)
    (hwrap : 2 ^ 64 + 9 ≤ 9 * n + n % 10) :
    decompressAmount ((9 * n + n % 10 - 9) % 2 ^ 64) ≠ n := by
  intro heq
  rcases lt_or_ge (9 * n + n % 10) (2 ^ 65 + 9) with hone | htwo
  · obtain ⟨y, hy⟩ : ∃ y, 9 * n + n % 10 = 10 * y + 14 + 2 ^ 64 :=
      ⟨(9 * n + n % 10 - 14 - 2 ^ 64) / 10, by omega⟩
    have hcode : (9 * n + n % 10 - 9) % 2 ^ 64 = 10 * y + 4 + 1 := by omega
    obtain ⟨t, ht⟩ := exists_wraps (by norm_num) (by omega) (hcode ▸ heq)
    exact wrapped_once_ne hn hy ht
  · obtain ⟨y, hy⟩ : ∃ y, 9 * n + n % 10 = 10 * y + 18 + 2 ^ 65 :=
      ⟨(9 * n + n % 10 - 18 - 2 ^ 65) / 10, by omega⟩
    have hcode : (9 * n + n % 10 - 9) % 2 ^ 64 = 10 * y + 8 + 1 := by omega
    obtain ⟨t, ht⟩ := exists_wraps (by norm_num) (by omega) (hcode ▸ heq)
    exact wrapped_twice_ne hn hy ht

theorem decompressAmount_compressAmount_iff (hn : n ≤ 5000000000000000000) :
    decompressAmount (compressAmount n) = n ↔ AmountFits n := by
  rcases Nat.eq_zero_or_pos n with rfl | hpos
  · decide
  obtain ⟨m, e, he, hd, hm, rfl, hcode⟩ := exists_amountCode hpos
  rw [hcode]
  have hround (hfit : amountCode m e < 2 ^ 64) :
      decompressAmount (amountCode m e % 2 ^ 64) = m * 10 ^ e := by
    rw [Nat.mod_eq_of_lt hfit, decompressAmount_amountCode he hd hm hfit, Nat.mod_eq_of_lt (by omega)]
  rcases Nat.eq_zero_or_pos e with rfl | hepos
  · have hd0 := hd (by norm_num)
    simp only [pow_zero, mul_one] at hn hround ⊢
    have hcode0 : amountCode m 0 = 9 * m + m % 10 - 9 := by
      simp only [amountCode, if_pos (show 0 < 9 by norm_num)]
      omega
    rw [hcode0] at hround ⊢
    constructor
    · intro h
      by_contra hfits
      simp only [AmountFits, not_or, not_lt] at hfits
      exact decompressAmount_wrapped_ne hn hfits.2 h
    · intro hfits
      have := hfits.resolve_left hd0
      exact hround (by omega)
  · have hten : m * 10 ^ e % 10 = 0 := by
      obtain ⟨k, rfl⟩ := Nat.exists_eq_succ_of_ne_zero hepos.ne'
      rw [pow_succ, ← mul_assoc]
      exact Nat.mul_mod_left _ _
    exact ⟨fun _ => .inl hten, fun _ => hround (amountCode_lt_of_zero hepos he hn)⟩

theorem compressAmount_injOn {a b : ℕ} (ha : a ≤ 5000000000000000000)
    (hb : b ≤ 5000000000000000000) (hfa : AmountFits a) (hfb : AmountFits b)
    (h : compressAmount a = compressAmount b) : a = b := by
  rw [← (decompressAmount_compressAmount_iff ha).mpr hfa, h,
    (decompressAmount_compressAmount_iff hb).mpr hfb]

theorem compressAmount_lt (n : ℕ) : compressAmount n < 2 ^ 64 := by
  unfold compressAmount
  split_ifs
  · norm_num
  · exact Nat.mod_lt _ (by norm_num)

theorem decompressAmount_lt {x : ℕ} (hx : x < 2 ^ 64) : decompressAmount x < 2 ^ 64 := by
  unfold decompressAmount
  split_ifs with h0
  · norm_num
  · have hm : amountMantissa ((x - 1) / 10) ((x - 1) % 10) < 2 ^ 64 := by
      unfold amountMantissa
      split_ifs <;> omega
    rw [multiplyTens_eq hm]
    exact Nat.mod_lt _ (by norm_num)

end Tarcoin
