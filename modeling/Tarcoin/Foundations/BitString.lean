import Mathlib.Algebra.Order.Ring.Nat
import Mathlib.Data.Nat.Bitwise

/-! Numbers as strings of bits of a given width, the most significant bit first. -/
namespace BitString

variable {m n x y v t k : ℕ}

def bits : ℕ → ℕ → List Bool
  | 0, _ => []
  | n + 1, x => x.testBit n :: bits n x

@[simp] theorem bits_zero (x : ℕ) : bits 0 x = [] := rfl

@[simp] theorem length_bits (n x : ℕ) : (bits n x).length = n := by
  induction n with
  | zero => rfl
  | succ n ih => rw [bits, List.length_cons, ih]

theorem bits_add (m n x : ℕ) : bits (m + n) x = bits m (x / 2 ^ n) ++ bits n x := by
  induction m with
  | zero => rw [Nat.zero_add, bits, List.nil_append]
  | succ m ih =>
    rw [Nat.add_right_comm, bits, bits, ih, Nat.testBit_div_two_pow, List.cons_append]

theorem bits_congr (h : ∀ i < n, x.testBit i = y.testBit i) : bits n x = bits n y := by
  induction n with
  | zero => rfl
  | succ n ih =>
    rw [bits, bits, h n (Nat.lt_succ_self n), ih (fun i hi => h i (Nat.lt_succ_of_lt hi))]

theorem bits_mod (n x : ℕ) : bits n (x % 2 ^ n) = bits n x := by
  refine bits_congr ?_
  intro i hi
  rw [Nat.testBit_mod_two_pow, decide_eq_true hi, Bool.true_and]

theorem bits_append (m v : ℕ) (ht : t < 2 ^ k) :
    bits (m + k) (v * 2 ^ k + t) = bits m v ++ bits k t := by
  have hquot : (v * 2 ^ k + t) / 2 ^ k = v := by
    rw [Nat.mul_comm, Nat.mul_add_div (Nat.two_pow_pos k), Nat.div_eq_of_lt ht, Nat.add_zero]
  have hrem : (v * 2 ^ k + t) % 2 ^ k = t := by
    rw [Nat.mul_comm, Nat.mul_add_mod, Nat.mod_eq_of_lt ht]
  rw [bits_add, hquot, ← bits_mod k (v * 2 ^ k + t), hrem]

theorem bits_ones (n x : ℕ) (h : ∀ i < n, x.testBit i = true) :
    bits n x = List.replicate n true := by
  induction n with
  | zero => rfl
  | succ n ih =>
    rw [bits, h n (Nat.lt_succ_self n), ih (fun i hi => h i (Nat.lt_succ_of_lt hi)),
      List.replicate_succ]

theorem mod_eq_of_bits (h : bits n x = bits n y) : x % 2 ^ n = y % 2 ^ n := by
  refine Nat.eq_of_testBit_eq ?_
  intro i
  rw [Nat.testBit_mod_two_pow, Nat.testBit_mod_two_pow]
  by_cases hi : i < n
  · rw [decide_eq_true hi, Bool.true_and]
    induction n with
    | zero => exact absurd hi (Nat.not_lt_zero i)
    | succ n ih =>
      rw [bits, bits, List.cons.injEq] at h
      rcases Nat.lt_succ_iff_lt_or_eq.1 hi with hi | rfl
      · exact ih h.2 hi
      · exact h.1
  · rw [decide_eq_false hi, Bool.false_and, Bool.false_and]

/-! A word of `w` bits with a string of `n` bits at its top. -/

theorem mul_mod_word {w : ℕ} (x : ℕ) (hn : n ≤ w) :
    x * 2 ^ (w - n) % 2 ^ w = x % 2 ^ n * 2 ^ (w - n) := by
  conv_lhs => rw [← Nat.add_sub_cancel' hn, Nat.pow_add]
  rw [Nat.add_sub_cancel' hn, Nat.mul_mod_mul_right]

theorem top_of_word {w : ℕ} (x : ℕ) (hk : k ≤ n) (hn : n ≤ w) :
    x * 2 ^ (w - n) % 2 ^ w / 2 ^ (w - k) = x / 2 ^ (n - k) % 2 ^ k := by
  have hword : 2 ^ (w - k) = 2 ^ (n - k) * 2 ^ (w - n) := by
    rw [← Nat.pow_add]
    congr 1
    omega
  have hstring : 2 ^ n = 2 ^ (n - k) * 2 ^ k := by rw [← Nat.pow_add, Nat.sub_add_cancel hk]
  rw [mul_mod_word x hn, hword, Nat.mul_div_mul_right _ _ (Nat.two_pow_pos _), hstring,
    Nat.mod_mul_right_div_self]

/-- More bits than the string has: zeros follow it. -/
theorem top_of_word_of_le {w : ℕ} (x : ℕ) (hn : n ≤ k) (hk : k ≤ w) :
    x * 2 ^ (w - n) % 2 ^ w / 2 ^ (w - k) = x % 2 ^ n * 2 ^ (k - n) := by
  have hword : 2 ^ (w - n) = 2 ^ (k - n) * 2 ^ (w - k) := by
    rw [← Nat.pow_add]
    congr 1
    omega
  rw [mul_mod_word x (hn.trans hk), hword, ← Nat.mul_assoc,
    Nat.mul_div_cancel _ (Nat.two_pow_pos _)]

theorem shift_or (v : ℕ) (ht : t < 2 ^ k) : v * 2 ^ k ||| t = v * 2 ^ k + t := by
  rw [Nat.mul_comm, ← Nat.two_pow_add_eq_or_of_lt ht]

theorem div_mod_add (x : ℕ) (hk : k ≤ n) :
    x / 2 ^ (n - k) % 2 ^ k * 2 ^ (n - k) + x % 2 ^ (n - k) = x % 2 ^ n := by
  have hstring : 2 ^ n = 2 ^ (n - k) * 2 ^ k := by rw [← Nat.pow_add, Nat.sub_add_cancel hk]
  rw [hstring, Nat.mod_mul, Nat.mul_comm, Nat.add_comm]

end BitString
