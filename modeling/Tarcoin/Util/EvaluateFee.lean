import Tarcoin.Util.ChunkDiagrams

/-! `DivFallback`, `Div` and `EvaluateFee` of `util/feefrac.h`: division of wide products, rounded
down or up. -/
namespace Tarcoin.Util.FeeFrac
open GuardedSum

/-- What is added to a quotient rounded towards zero, by its remainder. -/
def correction (mod : ℤ) (roundDown : Bool) : ℤ :=
  (if 0 < mod then 1 else 0) - if mod ≠ 0 ∧ roundDown then 1 else 0

def divFallback (n : ℤ × ℤ) (d : ℤ) (roundDown : Bool) : ℤ :=
  let quotHigh := n.1.tdiv d
  let nLow := wrap 64 (wrap 64 (n.1.tmod d * 2 ^ 32) + n.2)
  let quotLow := nLow.tdiv d
  let modLow := wrap 32 (nLow.tmod d)
  wrap 64 (wrap 64 (quotHigh * 2 ^ 32) + wrap 64 (quotLow + correction modLow roundDown))

def div (n d : ℤ) (roundDown : Bool) : ℤ :=
  wrap 64 (wrap 64 (n.tdiv d) + correction (wrap 32 (n.tmod d)) roundDown)

def ceilDiv (dividend divisor : ℤ) : ℤ :=
  dividend / divisor + if dividend % divisor ≠ 0 then 1 else 0

def evaluateFee (platform : Platform) (a : FeeFrac) (roundDown : Bool) (atSize : ℤ) : ℤ :=
  if 0 ≤ a.fee ∧ a.fee < 0x200000000 then
    -- an unsigned word of 64 bits
    let product := a.fee * atSize % 2 ^ 64
    wrap 64 (if roundDown then product / a.size else ceilDiv product a.size)
  else
    match platform with
    | .int128 => div (a.fee * atSize) a.size roundDown
    | .fallback => divFallback (mulFallback a.fee atSize) a.size roundDown

def rounded (n d : ℤ) (roundDown : Bool) : ℤ :=
  if roundDown then ⌊(n / d : ℚ)⌋ else ⌈(n / d : ℚ)⌉

variable {n d q m : ℤ} {roundDown : Bool}

theorem correction_spec (hm : -d < m ∧ m < d) :
    (correction m true * d ≤ m ∧ m < (correction m true + 1) * d) ∧
      (correction m false - 1) * d < m ∧ m ≤ correction m false * d := by
  rcases lt_trichotomy m 0 with h | h | h
  · simp [correction, h.ne, h.not_gt]
    omega
  · simp [correction, h]
    omega
  · simp [correction, h.ne', h]
    omega

theorem rounded_eq (roundDown : Bool) (hd : 0 < d) (hn : n = d * q + m) (hm : -d < m ∧ m < d) :
    rounded n d roundDown = q + correction m roundDown := by
  have hd' : (0 : ℚ) < d := by exact_mod_cast hd
  obtain ⟨hdown, hup⟩ := correction_spec hm
  cases roundDown with
  | true =>
    rw [rounded, if_pos rfl, Int.floor_eq_iff, le_div_iff₀ hd', div_lt_iff₀ hd']
    norm_cast
    constructor <;> linarith
  | false =>
    rw [rounded, if_neg Bool.false_ne_true, Int.ceil_eq_iff, lt_div_iff₀ hd', div_le_iff₀ hd']
    norm_cast
    constructor <;> linarith

theorem wrap_wrap_add (x y : ℤ) : wrap 64 (wrap 64 x + y) = wrap 64 (x + y) := by
  unfold wrap
  norm_num
  omega

theorem tmod_bounds (hd : 0 < d) (n : ℤ) : -d < n.tmod d ∧ n.tmod d < d :=
  ⟨by have := Int.lt_tmod_of_pos n hd; omega, Int.tmod_lt_of_pos n hd⟩

theorem div_eq (hd : 0 < d ∧ d < 2 ^ 31) (hfits : Fits 64 (rounded n d roundDown)) :
    div n d roundDown = rounded n d roundDown := by
  have hm := tmod_bounds hd.1 n
  have hround := rounded_eq roundDown hd.1 (Int.mul_tdiv_add_tmod n d).symm hm
  rw [div, wrap_wrap_add, wrap_of_fits (by norm_num) (x := n.tmod d) (by norm_num [Fits]; omega),
    ← hround, wrap_of_fits (by norm_num) hfits]

theorem divFallback_eq {n : ℤ × ℤ} (hlow : 0 ≤ n.2 ∧ n.2 < 2 ^ 32) (hd : 0 < d ∧ d < 2 ^ 31)
    (hfits : Fits 64 (rounded (n.1 * 2 ^ 32 + n.2) d roundDown)) :
    divFallback n d roundDown = rounded (n.1 * 2 ^ 32 + n.2) d roundDown := by
  have hhigh := tmod_bounds hd.1 n.1
  have hn := Int.mul_tdiv_add_tmod n.1 d
  unfold divFallback
  dsimp only
  rw [wrap_of_fits (by norm_num) (x := n.1.tmod d * 2 ^ 32) (by norm_num [Fits]; omega),
    wrap_of_fits (by norm_num) (x := n.1.tmod d * 2 ^ 32 + n.2) (by norm_num [Fits]; omega)]
  generalize hnLow : n.1.tmod d * 2 ^ 32 + n.2 = nLow
  have hm := tmod_bounds hd.1 nLow
  have hsplit : n.1 * 2 ^ 32 + n.2 = d * (n.1.tdiv d * 2 ^ 32 + nLow.tdiv d) + nLow.tmod d := by
    linear_combination (-2 ^ 32) * hn - Int.mul_tdiv_add_tmod nLow d + hnLow
  have hround := rounded_eq roundDown hd.1 hsplit hm
  rw [wrap_of_fits (by norm_num) (x := nLow.tmod d) (by norm_num [Fits]; omega), wrap_wrap_add,
    add_comm, wrap_wrap_add, ← wrap_of_fits (by norm_num) hfits, hround]
  ring_nf

theorem rounded_between (roundDown : Bool) (lo hi : ℤ) (hd : 0 < d) (hlo : lo * d ≤ n) (hhi : n ≤ hi * d) :
    lo ≤ rounded n d roundDown ∧ rounded n d roundDown ≤ hi := by
  have hd' : (0 : ℚ) < d := by exact_mod_cast hd
  have hlo' : (lo : ℚ) ≤ n / d := by
    rw [le_div_iff₀ hd']
    exact_mod_cast hlo
  have hhi' : (n / d : ℚ) ≤ hi := by
    rw [div_le_iff₀ hd']
    exact_mod_cast hhi
  cases roundDown with
  | true => exact ⟨Int.le_floor.mpr hlo', by simpa [rounded] using Int.floor_mono hhi'⟩
  | false => exact ⟨by simpa [rounded] using Int.ceil_mono hlo', Int.ceil_le.mpr hhi'⟩

theorem quotient_eq (roundDown : Bool) (hd : 0 < d) :
    (if roundDown then n / d else ceilDiv n d) = rounded n d roundDown := by
  have hlow := Int.emod_nonneg n hd.ne'
  have hhigh := Int.emod_lt_of_pos n hd
  rw [rounded_eq roundDown hd (Int.mul_ediv_add_emod n d).symm ⟨by omega, hhigh⟩, ceilDiv,
    correction]
  cases roundDown <;> simp <;> split_ifs <;> omega

variable {a : FeeFrac} {atSize : ℤ}

theorem evaluateFee_eq (platform : Platform) (roundDown : Bool) (ha : a.InRange)
    (hsize : 0 < a.size) (hat : 0 ≤ atSize ∧ atSize ≤ a.size) :
    evaluateFee platform a roundDown atSize = rounded (a.fee * atSize) a.size roundDown := by
  obtain ⟨⟨hfee₁, hfee₂⟩, hsize₁, hsize₂⟩ := ha
  have hfits : Fits 64 (rounded (a.fee * atSize) a.size roundDown) := by
    rcases le_total 0 a.fee with hfee | hfee
    · have h := rounded_between roundDown 0 a.fee hsize (by nlinarith)
        (mul_le_mul_of_nonneg_left hat.2 hfee)
      exact ⟨by omega, by omega⟩
    · have h := rounded_between roundDown a.fee 0 hsize (mul_le_mul_of_nonpos_left hat.2 hfee)
        (by nlinarith)
      exact ⟨by omega, by omega⟩
  unfold evaluateFee
  split
  next hfast =>
    have hproduct : a.fee * atSize ≤ 2 ^ 33 * (2 ^ 31 - 1) :=
      mul_le_mul hfast.2.le (by omega) hat.1 (by norm_num)
    dsimp only
    rw [Int.emod_eq_of_lt (mul_nonneg hfast.1 hat.1) (by omega), quotient_eq roundDown hsize,
      wrap_of_fits (by norm_num) hfits]
  next =>
    cases platform with
    | int128 => exact div_eq ⟨hsize, hsize₂⟩ hfits
    | fallback =>
      obtain ⟨hmul, hlow⟩ := mulFallback_spec ⟨hfee₁, hfee₂⟩ (b := atSize) ⟨by omega, by omega⟩
      rw [← hmul] at hfits ⊢
      exact divFallback_eq hlow ⟨hsize, hsize₂⟩ hfits

/-- A product by halves is the exact one and compares like it, and what is divided by is divided
exactly, up to the rounding, as long as the quotient is a word of 64 bits. The fee at a part of the
size is such a quotient, on either platform. -/
theorem wide_arithmetic_exact :
    (∀ a b, Fits 64 a → Fits 32 b → (mulFallback a b).1 * 2 ^ 32 + (mulFallback a b).2 = a * b) ∧
    (∀ a b c d, Fits 64 a → Fits 32 b → Fits 64 c → Fits 32 d →
      (toLex (mulFallback a b) < toLex (mulFallback c d) ↔ a * b < c * d)) ∧
    (∀ high low d roundDown, Fits 64 high → 0 ≤ low ∧ low < 2 ^ 32 → 0 < d ∧ d < 2 ^ 31 →
      Fits 64 (rounded (high * 2 ^ 32 + low) d roundDown) →
      divFallback (high, low) d roundDown = rounded (high * 2 ^ 32 + low) d roundDown) ∧
    ∀ (platform : Platform) (a : FeeFrac) (roundDown : Bool) (atSize : ℤ), a.InRange → 0 < a.size →
      0 ≤ atSize ∧ atSize ≤ a.size →
      evaluateFee platform a roundDown atSize = rounded (a.fee * atSize) a.size roundDown := by
  refine ⟨fun a b ha hb => (mulFallback_spec ha hb).1, fun a b c d => mulFallback_lt_iff, ?_, ?_⟩
  · intro high low d roundDown _ hlow hd hfits
    exact divFallback_eq hlow hd hfits
  · intro platform a roundDown atSize ha hsize hat
    exact evaluateFee_eq platform roundDown ha hsize hat

end Tarcoin.Util.FeeFrac
