import Mathlib.Algebra.Order.Ring.Abs
import Tarcoin.Foundations.Radix

/-! `ParseFixedPoint` of `util/strencodings.cpp`: digits collected into a bounded mantissa without
trailing zeros. -/
namespace Tarcoin

abbrev Text := List Char

instance : LawfulBEq Text := inferInstance

def isSpace (c : Char) : Bool :=
  c = ' ' ∨ c = '\x0c' ∨ c = '\n' ∨ c = '\r' ∨ c = '\t' ∨ c = '\x0b'

def upperBound : ℤ := 1000000000000000000 - 1

/-- The collected digits and the zeros seen since the last other digit. -/
structure Mantissa where
  mantissa : ℤ
  tzeros : ℕ
  deriving DecidableEq, Repr

def mantissaFull (x : ℤ) : Bool := x > upperBound / 10

def scaleFull (x : ℤ) : Bool := x > upperBound / 10 ∨ x < -(upperBound / 10)

/-- Multiply by ten `n` times, checking the bound before each step. -/
def timesTens (overflows : ℤ → Bool) : ℕ → ℤ → Option ℤ
  | 0, m => some m
  | n + 1, m => if overflows m then none else timesTens overflows n (m * 10)

def processMantissaDigit (ch : Char) (m : Mantissa) : Option Mantissa :=
  if ch = '0' then some ⟨m.mantissa, m.tzeros + 1⟩
  else do
    let scaled ← timesTens mantissaFull (m.tzeros + 1) m.mantissa
    some ⟨scaled + (ch.toNat - '0'.toNat), 0⟩

/-- Collect digits up to the first other character; also counts them. -/
def processDigits : Text → Mantissa → Option (Mantissa × ℕ × Text)
  | [], m => some (m, 0, [])
  | ch :: val, m =>
    if ch.isDigit then do
      let m' ← processMantissaDigit ch m
      let (m'', count, rest) ← processDigits val m'
      some (m'', count + 1, rest)
    else some (m, 0, ch :: val)

/-- The part before the point: a single zero, or digits that start with another one. -/
def parseIntegral : Text → Option (Mantissa × Text)
  | [] => none
  | ch :: val =>
    if ch = '0' then some (⟨0, 0⟩, val)
    else if '1' ≤ ch ∧ ch ≤ '9' then do
      let (m, _, rest) ← processDigits (ch :: val) ⟨0, 0⟩
      some (m, rest)
    else none

/-- The part after the point, if there is one; also gives `point_ofs`. -/
def parseFraction (m : Mantissa) : Text → Option (Mantissa × ℕ × Text)
  | '.' :: ch :: val => if ch.isDigit then processDigits (ch :: val) m else none
  | ['.'] => none
  | val => some (m, 0, val)

/-- The digits of the exponent, to the end of the text. -/
def exponentDigits : ℤ → Text → Option ℤ
  | exponent, [] => some exponent
  | exponent, ch :: val =>
    if ch.isDigit then
      if exponent > upperBound / 10 then none
      else exponentDigits (exponent * 10 + (ch.toNat - '0'.toNat)) val
    else none

/-- The exponent, if there is one. Anything else left over is refused. -/
def parseExponent : Text → Option ℤ
  | [] => some 0
  | ch :: val =>
    if ch = 'e' ∨ ch = 'E' then
      match val with
      | '+' :: digits => if digits = [] then none else exponentDigits 0 digits
      | '-' :: digits => if digits = [] then none else (exponentDigits 0 digits).map (- ·)
      | digits => if digits = [] then none else exponentDigits 0 digits
    else none

/-- Scale the signed mantissa to `decimals` places. -/
def finalizeAmount (mantissa exponent : ℤ) : Option ℤ :=
  if exponent < 0 ∨ exponent ≥ 18 then none
  else do
    let scaled ← timesTens scaleFull exponent.toNat mantissa
    if scaled > upperBound ∨ scaled < -upperBound then none else some scaled

def parseRemainder (mantissaSign : Bool) (decimals : ℤ) (integral : Mantissa) (val : Text) :
    Option ℤ := do
  let (m, pointOfs, rest) ← parseFraction integral val
  let exponent ← parseExponent rest
  finalizeAmount (if mantissaSign then -m.mantissa else m.mantissa)
    (exponent - pointOfs + m.tzeros + decimals)

def parseUnsigned (mantissaSign : Bool) (decimals : ℤ) (val : Text) : Option ℤ := do
  let (integral, rest) ← parseIntegral val
  parseRemainder mantissaSign decimals integral rest

def parseFixedPoint (val : Text) (decimals : ℤ) : Option ℤ :=
  match val with
  | '-' :: val => parseUnsigned true decimals val
  | val => parseUnsigned false decimals val

theorem parseFixedPoint_unsigned {val : Text} {decimals : ℤ} (h : val.head? ≠ some '-') :
    parseFixedPoint val decimals = parseUnsigned false decimals val := by
  unfold parseFixedPoint
  split
  · exact absurd rfl h
  · rfl

variable {overflows : ℤ → Bool} {n : ℕ} {m : ℤ}

theorem timesTens_eq_some (h : ∀ i < n, overflows (m * 10 ^ i) = false) :
    timesTens overflows n m = some (m * 10 ^ n) := by
  induction n generalizing m with
  | zero => simp [timesTens]
  | succ n ih =>
    have hfirst : overflows m = false := by simpa using h 0 n.succ_pos
    have hrest : ∀ i < n, overflows (m * 10 * 10 ^ i) = false := by
      intro i hi
      have hnext := h (i + 1) (Nat.succ_lt_succ hi)
      rwa [pow_succ', ← mul_assoc] at hnext
    simp only [timesTens, hfirst, Bool.false_eq_true, if_false, ih hrest, pow_succ']
    ring_nf

theorem timesTens_eq_none {i : ℕ} (hi : i < n) (h : overflows (m * 10 ^ i) = true) :
    timesTens overflows n m = none := by
  induction n generalizing m i with
  | zero => exact absurd hi (Nat.not_lt_zero i)
  | succ n ih =>
    cases i with
    | zero =>
      have hfirst : overflows m = true := by simpa using h
      simp [timesTens, hfirst]
    | succ i =>
      simp only [timesTens]
      split
      · rfl
      · apply ih (Nat.lt_of_succ_lt_succ hi)
        rwa [pow_succ', ← mul_assoc] at h

/-- The mantissa and its zeros stand for `v`. -/
structure Mantissa.Holds (m : Mantissa) (v : ℕ) : Prop where
  value : m.mantissa * 10 ^ m.tzeros = v
  nonneg : 0 ≤ m.mantissa
  bounded : m.mantissa ≤ upperBound

theorem Mantissa.holds_zero : (⟨0, 0⟩ : Mantissa).Holds 0 := ⟨by simp, le_rfl, by decide⟩

theorem timesTens_succ_cases (n : ℕ)
    (hover : ∀ i, overflows (m * 10 ^ i) = true ↔ upperBound / 10 < |m| * 10 ^ i) :
    (timesTens overflows (n + 1) m = some (m * 10 ^ (n + 1)) ∧
        |m| * 10 ^ (n + 1) + 9 ≤ upperBound) ∨
      (timesTens overflows (n + 1) m = none ∧ upperBound < |m| * 10 ^ (n + 1)) := by
  have hdiv : upperBound / 10 = 99999999999999999 := by decide
  have hbound : upperBound = 999999999999999999 := by decide
  rcases le_or_gt (|m| * 10 ^ n) 99999999999999999 with hle | hgt
  · refine Or.inl ⟨timesTens_eq_some ?_, ?_⟩
    · intro i hi
      rw [← Bool.not_eq_true, hover i, not_lt]
      have hmono : |m| * 10 ^ i ≤ |m| * 10 ^ n :=
        mul_le_mul_of_nonneg_left (pow_le_pow_right₀ (by norm_num) (Nat.lt_succ_iff.mp hi))
          (abs_nonneg m)
      exact hmono.trans hle
    · rw [hbound, pow_succ]
      linarith
  · refine Or.inr ⟨timesTens_eq_none n.lt_succ_self ?_, ?_⟩
    · rw [hover n]
      exact hgt
    · rw [hbound, pow_succ]
      linarith

section Digits
open Radix

theorem digitChar_facts : ∀ d : ℕ, d < 10 → d.digitChar.isDigit = true ∧
    (d.digitChar.toNat : ℤ) - ('0'.toNat : ℤ) = d ∧ (d.digitChar = '0' ↔ d = 0) ∧
    (d ≠ 0 → '1' ≤ d.digitChar ∧ d.digitChar ≤ '9') := by
  decide

variable {m : Mantissa} {v d : ℕ} {rest : Text} {ds : List ℕ}

theorem processMantissaDigit_cases (hm : m.Holds v) (hd : d < 10) :
    (∃ m', processMantissaDigit d.digitChar m = some m' ∧ m'.Holds (v * 10 + d) ∧
        m'.tzeros ≤ m.tzeros + 1) ∨
      (processMantissaDigit d.digitChar m = none ∧ upperBound < v * 10 + d) := by
  obtain ⟨-, hval, hzero, -⟩ := digitChar_facts d hd
  unfold processMantissaDigit
  by_cases h0 : d = 0
  · refine Or.inl ⟨_, if_pos (hzero.mpr h0), ⟨?_, hm.nonneg, hm.bounded⟩, le_rfl⟩
    simp only [h0, pow_succ, ← mul_assoc, hm.value]
    push_cast
    ring
  · have hscaled : m.mantissa * 10 ^ (m.tzeros + 1) = v * 10 := by
      rw [pow_succ, ← mul_assoc, hm.value]
    rw [if_neg (mt hzero.mp h0), hval]
    have hover : ∀ i, mantissaFull (m.mantissa * 10 ^ i) = true ↔
        upperBound / 10 < |m.mantissa| * 10 ^ i := by
      intro i
      rw [mantissaFull, decide_eq_true_iff, abs_of_nonneg hm.nonneg]
    rcases timesTens_succ_cases m.tzeros hover with ⟨hsome, hle⟩ | ⟨hnone, hgt⟩
    · rw [abs_of_nonneg hm.nonneg] at hle
      rw [hscaled] at hsome
      refine Or.inl ⟨⟨v * 10 + d, 0⟩, by rw [hsome]; rfl, ⟨by simp, by positivity, ?_⟩, by simp⟩
      show (v * 10 + d : ℤ) ≤ upperBound
      omega
    · rw [abs_of_nonneg hm.nonneg] at hgt
      refine Or.inr ⟨by rw [hnone]; rfl, ?_⟩
      omega

def NoDigit (rest : Text) : Prop := ∀ ch ∈ rest.head?, ch.isDigit = false

theorem processDigits_of_noDigit (hrest : NoDigit rest) (m : Mantissa) :
    processDigits rest m = some (m, 0, rest) := by
  cases rest with
  | nil => rfl
  | cons ch rest => simp [processDigits, hrest ch rfl]

/-- A run of digits: either all are collected, or the number left the bound. -/
theorem processDigits_cases (hds : ∀ d ∈ ds, d < 10) (hrest : NoDigit rest) (hm : m.Holds v) :
    (∃ m', processDigits (ds.map Nat.digitChar ++ rest) m = some (m', ds.length, rest) ∧
        m'.Holds (accumulate 10 v ds) ∧ m'.tzeros ≤ m.tzeros + ds.length) ∨
      (processDigits (ds.map Nat.digitChar ++ rest) m = none ∧
        upperBound < accumulate 10 v ds) := by
  induction ds generalizing m v with
  | nil => exact Or.inl ⟨m, processDigits_of_noDigit hrest m, hm, le_rfl⟩
  | cons d ds ih =>
    have hd : d < 10 := hds d List.mem_cons_self
    have hdigit : d.digitChar.isDigit = true := (digitChar_facts d hd).1
    simp only [List.map_cons, List.cons_append, processDigits, hdigit, if_true,
      accumulate_cons, List.length_cons]
    rcases processMantissaDigit_cases hm hd with ⟨m', hstep, hm', ht'⟩ | ⟨hnone, hgt⟩
    · rcases ih (fun e he => hds e (List.mem_cons_of_mem d he)) hm' with
        ⟨m'', hrun, hm'', ht''⟩ | ⟨hnone, hgt⟩
      · refine Or.inl ⟨m'', by simp [hstep, hrun], hm'', by omega⟩
      · exact Or.inr ⟨by simp [hstep, hnone], hgt⟩
    · refine Or.inr ⟨by simp [hnone], ?_⟩
      have hmono := le_accumulate (show 0 < 10 by norm_num) (v * 10 + d) ds
      omega

theorem finalizeAmount_eq {m : ℤ} {e : ℕ} (he : e < 18) :
    finalizeAmount m e = if |m| * 10 ^ e ≤ upperBound then some (m * 10 ^ e) else none := by
  have habs : ∀ i : ℕ, |m * 10 ^ i| = |m| * 10 ^ i := by
    intro i
    rw [abs_mul, abs_of_nonneg (show (0 : ℤ) ≤ 10 ^ i by positivity)]
  have hover : ∀ i, scaleFull (m * 10 ^ i) = true ↔ upperBound / 10 < |m| * 10 ^ i := by
    intro i
    rw [scaleFull, decide_eq_true_iff, ← habs, lt_abs, lt_neg]
  have hwithin : ∀ x : ℤ, (x > upperBound ∨ x < -upperBound) ↔ ¬ |x| ≤ upperBound := by
    intro x
    rw [not_le, lt_abs, lt_neg]
  unfold finalizeAmount
  rw [if_neg (by omega), Int.toNat_natCast]
  cases e with
  | zero =>
    simp only [timesTens, Option.bind_eq_bind, Option.bind_some, hwithin, pow_zero, mul_one,
      ite_not]
  | succ e =>
    rcases timesTens_succ_cases e hover with ⟨hsome, hle⟩ | ⟨hnone, hgt⟩
    · have hfit : |m| * 10 ^ (e + 1) ≤ upperBound := by omega
      simp [hsome, hwithin, habs, hfit]
    · simp [hnone, not_le.mpr hgt]

theorem Mantissa.Holds.finalizeAmount_eq (hm : m.Holds n) (hzero : n = 0 → m.tzeros < 18)
    (mantissaSign : Bool) :
    finalizeAmount (if mantissaSign then -m.mantissa else m.mantissa) m.tzeros =
      if (n : ℤ) ≤ upperBound then some (if mantissaSign then -(n : ℤ) else n) else none := by
  have habs : |if mantissaSign then -m.mantissa else m.mantissa| = m.mantissa := by
    cases mantissaSign <;> simp [abs_of_nonneg hm.nonneg]
  rcases lt_or_ge m.tzeros 18 with hlt | hge
  · rw [Tarcoin.finalizeAmount_eq hlt, habs]
    cases mantissaSign <;> simp [hm.value]
  · have hpos : 0 < m.mantissa := by
      apply lt_of_le_of_ne hm.nonneg
      intro h0
      have hn : (n : ℤ) = 0 := by rw [← hm.value, ← h0, zero_mul]
      omega
    have hpow : (10 : ℤ) ^ 18 ≤ 10 ^ m.tzeros := pow_le_pow_right₀ (by norm_num) hge
    have hlarge : upperBound < n := by
      rw [← hm.value]
      unfold upperBound
      nlinarith
    rw [finalizeAmount, if_pos (Or.inr (by exact_mod_cast hge)), if_neg (not_le.mpr hlarge)]

theorem parseFraction_digits (hds : ∀ d ∈ ds, d < 10) (hne : ds ≠ []) (m : Mantissa) :
    parseFraction m ('.' :: ds.map Nat.digitChar) = processDigits (ds.map Nat.digitChar) m := by
  cases ds with
  | nil => exact absurd rfl hne
  | cons d ds =>
    have hdigit := (digitChar_facts d (hds d List.mem_cons_self)).1
    simp [parseFraction, hdigit]

theorem parseRemainder_digits (hds : ∀ d ∈ ds, d < 10) (hne : ds ≠ []) (hm : m.Holds v)
    (hzero : v = 0 → m.tzeros + ds.length < 18) (mantissaSign : Bool) :
    parseRemainder mantissaSign ds.length m ('.' :: ds.map Nat.digitChar) =
      if (accumulate 10 v ds : ℤ) ≤ upperBound then
        some (if mantissaSign then -(accumulate 10 v ds : ℤ) else accumulate 10 v ds)
      else none := by
  have hend : NoDigit [] := by simp [NoDigit]
  unfold parseRemainder
  rw [parseFraction_digits hds hne, ← List.append_nil (ds.map Nat.digitChar)]
  rcases processDigits_cases hds hend hm with ⟨m', hrun, hm', ht⟩ | ⟨hnone, hgt⟩
  · have hexp : (0 : ℤ) - ds.length + m'.tzeros + ds.length = m'.tzeros := by omega
    simp only [hrun, Option.bind_eq_bind, Option.bind_some, parseExponent, hexp]
    apply hm'.finalizeAmount_eq
    intro h0
    have hv : v = 0 := Nat.le_zero.mp (h0 ▸ le_accumulate (by norm_num) v ds)
    exact ht.trans_lt (hzero hv)
  · rw [hnone, if_neg (not_le.mpr hgt)]
    rfl

theorem parseIntegral_digits (hd : d < 10) (h0 : d ≠ 0) (rest : Text) :
    parseIntegral ((d :: ds).map Nat.digitChar ++ rest) =
      (processDigits ((d :: ds).map Nat.digitChar ++ rest) ⟨0, 0⟩).bind
        fun r => some (r.1, r.2.2) := by
  obtain ⟨-, -, hzero, hrange⟩ := digitChar_facts d hd
  simp only [List.map_cons, List.cons_append, parseIntegral, if_neg (mt hzero.mp h0),
    if_pos (hrange h0)]
  rfl

end Digits

end Tarcoin
