import Tarcoin.Util.FixedPoint
import Tarcoin.Validation.Subsidy

/-! `ValueFromAmount` of `core_io.cpp` and `AmountFromValue` of `rpc/util.cpp`: amounts as JSON
numbers with eight decimals. -/
namespace Tarcoin

inductive VType
  | vnull
  | vobj
  | varr
  | vstr
  | vnum
  | vbool
  deriving DecidableEq, Repr

/-- A JSON value without members: its type and its text. -/
structure UniValue where
  typ : VType
  val : Text
  deriving DecidableEq, Repr

/-- The ways `AmountFromValue` throws, each with `RPC_TYPE_ERROR`. -/
inductive AmountError
  | notNumberOrString
  | invalidAmount
  | outOfRange
  deriving DecidableEq, Repr

def AmountError.message : AmountError → String
  | .notNumberOrString => "Amount is not a number or string"
  | .invalidAmount => "Invalid amount"
  | .outOfRange => "Amount out of range"

def decimal (n : ℕ) : Text :=
  if n = 0 then ['0'] else (Radix.numeral 10 n).map Nat.digitChar

/-- The conversion `%d` with the zero flag and a minimum width. -/
def formatInt (width : ℕ) (v : ℤ) : Text :=
  let digits := decimal v.natAbs
  if v < 0 then '-' :: (List.replicate (width - 1 - digits.length) '0' ++ digits)
  else List.replicate (width - digits.length) '0' ++ digits

def valueFromAmount (amount : Amount) : UniValue :=
  let quotient := if amount < 0 then -(amount.tdiv coinUnit) else amount.tdiv coinUnit
  let remainder := if amount < 0 then -(amount.tmod coinUnit) else amount.tmod coinUnit
  ⟨.vnum, (if amount < 0 then ['-'] else []) ++ formatInt 0 quotient ++ '.' ::
    formatInt 8 remainder⟩

def amountFromValue (value : UniValue) (decimals : ℤ) : Except AmountError Amount :=
  if value.typ ≠ .vnum ∧ value.typ ≠ .vstr then .error .notNumberOrString
  else match parseFixedPoint value.val decimals with
    | none => .error .invalidAmount
    | some amount => if MoneyRange amount then .ok amount else .error .outOfRange

section RoundTrip
open Radix

theorem formatInt_zero (q : ℕ) :
    formatInt 0 q = if q = 0 then ['0'] else (numeral 10 q).map Nat.digitChar := by
  simp [formatInt, decimal]

theorem formatInt_eight (r : ℕ) :
    formatInt 8 r = (paddedNumeral 10 8 r).map Nat.digitChar := by
  rcases Nat.eq_zero_or_pos r with rfl | hr
  · decide
  · simp [formatInt, decimal, paddedNumeral, hr.ne', Nat.digitChar]

theorem parseUnsigned_format (mantissaSign : Bool) (n : ℕ) :
    parseUnsigned mantissaSign 8
        (formatInt 0 (n / 100000000 : ℕ) ++ '.' :: formatInt 8 (n % 100000000 : ℕ)) =
      if (n : ℤ) ≤ upperBound then some (if mantissaSign then -(n : ℤ) else n) else none := by
  set q := n / 100000000 with hq
  set r := n % 100000000 with hr
  have hlen : (paddedNumeral 10 8 r).length = 8 :=
    length_paddedNumeral (by norm_num) (by omega)
  have hlt : ∀ d ∈ paddedNumeral 10 8 r, d < 10 := fun d => paddedNumeral_lt (by norm_num)
  have hne : paddedNumeral 10 8 r ≠ [] := List.ne_nil_of_length_pos (by omega)
  have hread : accumulate 10 q (paddedNumeral 10 8 r) = n := by
    rw [accumulate_eq, hlen, accumulate_paddedNumeral]
    omega
  have hremainder : ∀ m : Mantissa, m.Holds q → (q = 0 → m.tzeros + 8 < 18) →
      parseRemainder mantissaSign 8 m ('.' :: formatInt 8 r) =
        if (n : ℤ) ≤ upperBound then some (if mantissaSign then -(n : ℤ) else n) else none := by
    intro m hm hzero
    rw [← hlen] at hzero
    have hdigits := parseRemainder_digits hlt hne hm hzero mantissaSign
    rwa [hread, hlen, ← formatInt_eight] at hdigits
  rw [formatInt_zero]
  by_cases h0 : q = 0
  · simp only [h0, if_true, parseUnsigned, List.cons_append, List.nil_append, parseIntegral,
      Option.bind_eq_bind, Option.bind_some]
    exact hremainder ⟨0, 0⟩ (h0 ▸ Mantissa.holds_zero) (by norm_num)
  · obtain ⟨d, ds, hcons, hd0⟩ := numeral_eq_cons h0
    have hnumeral : ∀ e ∈ d :: ds, e < 10 := fun e he => numeral_lt (by norm_num) (hcons ▸ he)
    have hpoint : NoDigit ('.' :: formatInt 8 r) := by
      intro ch hch
      cases hch
      rfl
    rw [if_neg h0, hcons, parseUnsigned,
      parseIntegral_digits (hnumeral d List.mem_cons_self) hd0]
    rcases processDigits_cases hnumeral hpoint Mantissa.holds_zero with
      ⟨m, hrun, hm, -⟩ | ⟨hnone, hgt⟩
    · rw [← hcons, accumulate_numeral] at hm
      simp only [hrun, Option.bind_eq_bind, Option.bind_some]
      exact hremainder m hm (fun h => absurd h h0)
    · rw [← hcons, accumulate_numeral] at hgt
      rw [hnone, if_neg (by omega)]
      rfl

theorem head_formatInt_ne (q : ℕ) (rest : Text) :
    (formatInt 0 q ++ rest).head? ≠ some '-' := by
  rw [formatInt_zero]
  split_ifs with h0
  · simp
  · obtain ⟨d, ds, hcons, -⟩ := numeral_eq_cons (b := 10) h0
    simp [hcons]

theorem valueFromAmount_nonneg (n : ℕ) :
    (valueFromAmount n).val =
      formatInt 0 (n / 100000000 : ℕ) ++ '.' :: formatInt 8 (n % 100000000 : ℕ) := by
  rfl

theorem valueFromAmount_neg {n : ℕ} (hn : 0 < n) :
    (valueFromAmount (-(n : ℤ))).val =
      '-' :: (formatInt 0 (n / 100000000 : ℕ) ++ '.' :: formatInt 8 (n % 100000000 : ℕ)) := by
  have hlt : (-(n : ℤ)) < 0 := by omega
  simp only [valueFromAmount, hlt, if_true, Int.neg_tdiv, Int.neg_tmod, neg_neg]
  rfl

/-- `ParseFixedPoint` undoes the rendering of every amount of at most eighteen digits and
refuses the rendering of every other one. -/
theorem parseFixedPoint_valueFromAmount (a : ℤ) :
    parseFixedPoint (valueFromAmount a).val 8 = if |a| ≤ upperBound then some a else none := by
  rcases le_or_gt 0 a with hnonneg | hneg
  · obtain ⟨n, rfl⟩ := Int.eq_ofNat_of_zero_le hnonneg
    rw [valueFromAmount_nonneg, parseFixedPoint_unsigned (head_formatInt_ne _ _),
      parseUnsigned_format]
    simp
  · obtain ⟨n, hn⟩ := Int.eq_ofNat_of_zero_le (neg_nonneg.mpr hneg.le)
    obtain rfl : a = -(n : ℤ) := by omega
    rw [valueFromAmount_neg (by omega), parseFixedPoint, parseUnsigned_format, abs_neg]
    simp

theorem amountFromValue_valueFromAmount (a : Amount) :
    amountFromValue (valueFromAmount a) 8 =
      if |a| ≤ upperBound then
        if MoneyRange a then .ok a else .error .outOfRange
      else .error .invalidAmount := by
  have htype : ¬((valueFromAmount a).typ ≠ .vnum ∧ (valueFromAmount a).typ ≠ .vstr) := by
    simp [valueFromAmount]
  rw [amountFromValue, if_neg htype, parseFixedPoint_valueFromAmount]
  by_cases hbound : |a| ≤ upperBound <;> simp only [hbound, if_true, if_false]

/-- In the money range, `AmountFromValue` returns what `ValueFromAmount` was given exactly
below the premine; from the premine on it throws. -/
theorem amountFromValue_valueFromAmount_iff (a : Amount) (ha : MoneyRange a) :
    (amountFromValue (valueFromAmount a) 8 = .ok a ↔ a < premine) ∧
      (premine ≤ a → amountFromValue (valueFromAmount a) 8 = .error .invalidAmount) := by
  have hbound : |a| ≤ upperBound ↔ a < premine := by
    rw [abs_of_nonneg ha.1, upperBound, Int.le_sub_one_iff]
    rfl
  simp only [amountFromValue_valueFromAmount, hbound, if_pos ha]
  refine ⟨⟨?_, fun hlt => if_pos hlt⟩, fun hge => if_neg (not_lt.mpr hge)⟩
  intro h
  by_contra hge
  rw [if_neg hge] at h
  cases h

theorem amountFromValue_half_premine :
    MoneyRange 500000000000000000 ∧
      amountFromValue (valueFromAmount 500000000000000000) 8 = .ok 500000000000000000 := by
  have ha : MoneyRange 500000000000000000 := by decide
  exact ⟨ha, (amountFromValue_valueFromAmount_iff _ ha).1.mpr (by decide)⟩

theorem amountFromValue_premine :
    MoneyRange premine ∧
      amountFromValue (valueFromAmount premine) 8 = .error .invalidAmount := by
  refine ⟨by decide, ?_⟩
  rw [amountFromValue_valueFromAmount, if_neg (by decide)]

end RoundTrip

end Tarcoin
