import Mathlib.Algebra.Order.Field.Rat
import Mathlib.Data.Prod.Lex
import Mathlib.Tactic.FieldSimp
import Mathlib.Tactic.Ring

/-! A fee and a size, compared as fractions by multiplying across. -/
namespace Tarcoin.Util

structure FeeFrac where
  fee : ℤ
  size : ℤ
deriving DecidableEq, Repr

namespace FeeFrac

/-- The constructor takes the size as a signed word of 32 bits. -/
def of (fee size : ℤ) : FeeFrac := ⟨fee, size.bmod (2 ^ 32)⟩

theorem of_eq {fee size : ℤ} (hlow : -2 ^ 31 ≤ size) (hhigh : size < 2 ^ 31) :
    of fee size = ⟨fee, size⟩ := by
  rw [of, Int.bmod_eq_of_le (by norm_num; omega) (by norm_num; omega)]

def RatioLt (a b : FeeFrac) : Prop := a.fee * b.size < b.fee * a.size

def NegSizeLt (a b : FeeFrac) : Prop :=
  a.fee * b.size < b.fee * a.size ∨ a.fee * b.size = b.fee * a.size ∧ b.size < a.size

instance (a b : FeeFrac) : Decidable (a.RatioLt b) := inferInstanceAs (Decidable (_ < _))

instance (a b : FeeFrac) : Decidable (a.NegSizeLt b) := inferInstanceAs (Decidable (_ ∨ _))

def ratio (a : FeeFrac) : ℚ := a.fee / a.size

variable {a b c : FeeFrac}

theorem ratioLt_iff (ha : 0 < a.size) (hb : 0 < b.size) : a.RatioLt b ↔ a.ratio < b.ratio := by
  have ha' : (0 : ℚ) < a.size := by exact_mod_cast ha
  have hb' : (0 : ℚ) < b.size := by exact_mod_cast hb
  rw [ratio, ratio, div_lt_div_iff₀ ha' hb']
  exact_mod_cast Iff.rfl

theorem cross_eq_iff (ha : 0 < a.size) (hb : 0 < b.size) :
    a.fee * b.size = b.fee * a.size ↔ a.ratio = b.ratio := by
  have ha' : (a.size : ℚ) ≠ 0 := by exact_mod_cast ha.ne'
  have hb' : (b.size : ℚ) ≠ 0 := by exact_mod_cast hb.ne'
  rw [ratio, ratio, div_eq_div_iff ha' hb']
  exact_mod_cast Iff.rfl

/-- The order of `ByRatioNegSize` as one of pairs. -/
def rank (a : FeeFrac) : ℚ ×ₗ ℤ := toLex (a.ratio, -a.size)

theorem negSizeLt_iff (ha : 0 < a.size) (hb : 0 < b.size) : a.NegSizeLt b ↔ a.rank < b.rank := by
  rw [rank, rank, Prod.Lex.toLex_lt_toLex, ← ratioLt_iff ha hb, ← cross_eq_iff ha hb,
    neg_lt_neg_iff]
  exact Iff.rfl

theorem one_lt_ratio_iff (ha : 0 < a.size) : 1 < a.ratio ↔ a.size < a.fee := by
  have ha' : (0 : ℚ) < a.size := by exact_mod_cast ha
  rw [ratio, lt_div_iff₀ ha', one_mul]
  exact_mod_cast Iff.rfl

end FeeFrac

end Tarcoin.Util
