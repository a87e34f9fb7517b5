import Mathlib.Data.Nat.Bitwise
import Tarcoin.Consensus.Params
import Tarcoin.Foundations.FloorFloat
import Tarcoin.Primitives.Block

/-! `SetCompact` and `GetCompact` of `arith_uint256.cpp` and `DeriveTarget` of `pow.cpp`, on
naturals below `2 ^ 256`. -/
namespace Tarcoin
open FloorFloat

/-- `base_uint::bits`: the position of the highest set bit plus one. -/
def bits (x : ℕ) : ℕ := if x = 0 then 0 else Nat.log2 x + 1

/-- What `SetCompact` leaves in the number and in its two flags. -/
structure CompactTarget where
  value : ℕ
  negative : Bool
  overflow : Bool
  deriving DecidableEq, Repr

def setCompact (nCompact : UInt32) : CompactTarget :=
  let nSize := nCompact.toNat >>> 24
  let nWord :=
    if nSize ≤ 3 then (nCompact.toNat &&& 0x007fffff) >>> (8 * (3 - nSize))
    else nCompact.toNat &&& 0x007fffff
  { value := if nSize ≤ 3 then nWord else nWord <<< (8 * (nSize - 3)) % 2 ^ 256
    negative := nWord != 0 && nCompact.toNat &&& 0x00800000 != 0
    overflow := nWord != 0 && (decide (34 < nSize) || (decide (0xff < nWord) && decide (33 < nSize))
      || (decide (0xffff < nWord) && decide (32 < nSize))) }

def packCompact (nSize nCompact : ℕ) : UInt32 := UInt32.ofNat (nCompact ||| nSize <<< 24)

def getCompact (x : ℕ) : UInt32 :=
  let nSize := (bits x + 7) / 8
  let nCompact :=
    if nSize ≤ 3 then (x % 2 ^ 64) <<< (8 * (3 - nSize)) % 2 ^ 32
    else x >>> (8 * (nSize - 3)) % 2 ^ 64 % 2 ^ 32
  if nCompact &&& 0x00800000 != 0 then packCompact (nSize + 1) (nCompact >>> 8)
  else packCompact nSize nCompact

def deriveTarget (nBits : UInt32) (powLimit : ℕ) : Option ℕ :=
  let bnTarget := setCompact nBits
  if bnTarget.negative || bnTarget.value == 0 || bnTarget.overflow ||
      decide (powLimit < bnTarget.value) then none
  else some bnTarget.value

def uintToArith256 (hash : Bytes 32) : ℕ := hash.val.foldr (fun b n => b.toNat + 256 * n) 0

def checkProofOfWorkImpl (hash : Bytes 32) (nBits : UInt32) (params : ConsensusParams) : Bool :=
  match deriveTarget nBits params.powLimit with
  | none => false
  | some bnTarget => !decide (bnTarget < uintToArith256 hash)

theorem signBit_eq_zero_iff (n : ℕ) : n &&& 0x00800000 = 0 ↔ n / 2 ^ 23 % 2 = 0 := by
  have hand := Nat.two_pow_and n 23
  rw [Nat.and_comm, Nat.testBit_eq_decide_div_mod_eq] at hand
  change n &&& 2 ^ 23 = 0 ↔ _
  rw [hand]
  simp

theorem signBit_set_iff {n : ℕ} (hn : n < 2 ^ 24) :
    (n &&& 0x00800000 != 0) = true ↔ ¬ n < 2 ^ 23 := by
  rw [bne_iff_ne, ne_eq, signBit_eq_zero_iff]
  omega

theorem mantissaBits_eq (n : ℕ) : n &&& 0x007fffff = n % 2 ^ 23 :=
  Nat.and_two_pow_sub_one_eq_mod n 23

variable {s m x : ℕ}

theorem packCompact_toNat (hs : s < 2 ^ 8) (hm : m < 2 ^ 24) :
    (packCompact s m).toNat = s * 2 ^ 24 + m := by
  unfold packCompact
  rw [Nat.or_comm, ← Nat.shiftLeft_add_eq_or_of_lt hm, UInt32.toNat_ofNat']
  omega

theorem setCompact_packCompact (hs : s < 2 ^ 8) (hm : m < 2 ^ 23) :
    (packCompact s m).toNat >>> 24 = s ∧ (packCompact s m).toNat &&& 0x007fffff = m ∧
      (packCompact s m).toNat &&& 0x00800000 = 0 := by
  rw [packCompact_toNat hs (by omega), mantissaBits_eq,
    signBit_eq_zero_iff]
  omega

theorem setCompact_packCompact_small (hs : s ≤ 3) (hm : m < 2 ^ 23) :
    setCompact (packCompact s m) = ⟨m >>> (8 * (3 - s)), false, false⟩ := by
  obtain ⟨hsize, hword, hsign⟩ := setCompact_packCompact (s := s) (m := m) (by omega) hm
  have h32 : ¬ 32 < s := by omega
  have h33 : ¬ 33 < s := by omega
  have h34 : ¬ 34 < s := by omega
  simp only [setCompact, hsize, hword, hsign, hs, if_true]
  simp [h32, h33, h34]

theorem setCompact_packCompact_large (hs : 3 < s) (hs' : s ≤ 33) (hw : s = 33 → m ≤ 0xffff)
    (hm : m < 2 ^ 23) (hv : m * 256 ^ (s - 3) < 2 ^ 256) :
    setCompact (packCompact s m) = ⟨m * 256 ^ (s - 3), false, false⟩ := by
  obtain ⟨hsize, hword, hsign⟩ := setCompact_packCompact (s := s) (m := m) (by omega) hm
  have h33 : ¬ 33 < s := by omega
  have h34 : ¬ 34 < s := by omega
  have h32 : 32 < s → ¬ 0xffff < m := by
    intro h
    omega
  have hshift : m <<< (8 * (s - 3)) = m * 256 ^ (s - 3) := by
    rw [Nat.shiftLeft_eq, pow_mul]
    norm_num
  simp only [setCompact, hsize, hword, hsign, if_neg (show ¬ s ≤ 3 by omega), hshift,
    Nat.mod_eq_of_lt hv]
  by_cases hbig : 32 < s
  · simp [h33, h34, h32 hbig]
  · simp [h33, h34, hbig]

theorem byteSize_spec (hx : 0 < x) :
    0 < (bits x + 7) / 8 ∧ 256 ^ ((bits x + 7) / 8 - 1) ≤ x ∧ x < 256 ^ ((bits x + 7) / 8) := by
  have hlow := Nat.log2_self_le hx.ne'
  have hhigh := Nat.lt_log2_self (n := x)
  have hsize : (bits x + 7) / 8 = Nat.log2 x / 8 + 1 := by
    unfold bits
    rw [if_neg hx.ne']
    omega
  have h256 (k : ℕ) : 256 ^ k = 2 ^ (8 * k) := by
    rw [pow_mul]
    norm_num
  rw [hsize, h256, h256]
  refine ⟨by omega, ?_, ?_⟩
  · exact (Nat.pow_le_pow_right (by norm_num) (by omega)).trans hlow
  · exact hhigh.trans_le (Nat.pow_le_pow_right (by norm_num) (by omega))

/-- `GetCompact` finds the exponent `e`, and a number with a positive exponent is packed
as the size `e + 3` and its mantissa. -/
structure CompactSpec (x e : ℕ) : Prop where
  isExponent : IsExponent 256 (2 ^ 23) x e
  packed : 0 < e → getCompact x = packCompact (e + 3) (x / 256 ^ e)
  decoded : setCompact (getCompact x) = ⟨truncate 256 e x, false, false⟩

private theorem compactSpec_small (hx : 0 < x) (hs : (bits x + 7) / 8 ≤ 3) :
    ∃ e, CompactSpec x e := by
  obtain ⟨hpos, hlow, hhigh⟩ := byteSize_spec hx
  have hdef : getCompact x = if (x * 256 ^ (3 - (bits x + 7) / 8)) &&& 0x00800000 != 0 then
      packCompact ((bits x + 7) / 8 + 1) ((x * 256 ^ (3 - (bits x + 7) / 8)) >>> 8)
      else packCompact ((bits x + 7) / 8) (x * 256 ^ (3 - (bits x + 7) / 8)) := by
    unfold getCompact
    generalize (bits x + 7) / 8 = s at hs hpos hhigh ⊢
    have hn : (x % 2 ^ 64) <<< (8 * (3 - s)) % 2 ^ 32 = x * 256 ^ (3 - s) := by
      interval_cases s <;> norm_num [Nat.shiftLeft_eq] at hhigh ⊢ <;> omega
    simp only [if_pos hs, hn]
  generalize (bits x + 7) / 8 = s at hs hpos hhigh hdef
  have hn : x * 256 ^ (3 - s) < 2 ^ 24 := by
    interval_cases s <;> norm_num at hhigh ⊢ <;> omega
  have hsign := signBit_set_iff hn
  by_cases hbit : x * 256 ^ (3 - s) < 2 ^ 23
  · rw [if_neg (hsign.not.mpr (not_not.mpr hbit))] at hdef
    refine ⟨0, ⟨?_, by omega⟩, by omega, ?_⟩
    · interval_cases s <;> norm_num at hbit ⊢ <;> omega
    · rw [hdef, setCompact_packCompact_small hs hbit]
      interval_cases s <;> norm_num [Nat.shiftRight_eq_div_pow]
  · rw [if_pos (hsign.mpr hbit)] at hdef
    rcases hs.eq_or_lt with rfl | hlt
    · rw [Nat.shiftRight_eq_div_pow] at hdef
      refine ⟨1, ⟨by omega, fun _ => ?_⟩, fun _ => ?_, ?_⟩
      · simpa using not_lt.mp hbit
      · rw [hdef]
        norm_num
      rw [hdef, setCompact_packCompact_large (by norm_num) (by norm_num) (by norm_num) (by omega)
        (by omega)]
      norm_num [truncate]
    · have hshift : (x * 256 ^ (3 - s)) >>> 8 = x * 256 ^ (2 - s) := by
        interval_cases s <;> norm_num [Nat.shiftRight_eq_div_pow]
        omega
      have hle : x ≤ x * 256 ^ (2 - s) := Nat.le_mul_of_pos_right x (by positivity)
      refine ⟨0, ⟨?_, by omega⟩, by omega, ?_⟩
      · omega
      · rw [hdef, hshift, setCompact_packCompact_small (by omega) (by omega)]
        interval_cases s <;> norm_num [Nat.shiftRight_eq_div_pow]

private theorem compactSpec_large (hx : x < 2 ^ 256) (hs : 3 < (bits x + 7) / 8) :
    ∃ e, CompactSpec x e := by
  have hpos : 0 < x := by
    by_contra h
    obtain rfl : x = 0 := by omega
    simp [bits] at hs
  obtain ⟨-, hlow, hhigh⟩ := byteSize_spec hpos
  obtain ⟨k, hk⟩ : ∃ k, (bits x + 7) / 8 = k + 4 := ⟨_, (Nat.sub_add_cancel hs).symm⟩
  rw [hk] at hlow hhigh
  have hk32 : k + 3 < 32 := by
    by_contra h
    have := Nat.pow_le_pow_right (show 0 < 256 by norm_num) (not_lt.mp h)
    simp only [Nat.add_succ_sub_one] at hlow
    omega
  have hq : x / 256 ^ (k + 1) < 2 ^ 24 := by
    rw [Nat.div_lt_iff_lt_mul (by positivity)]
    calc x < 256 ^ (k + 4) := hhigh
      _ = 2 ^ 24 * 256 ^ (k + 1) := by rw [show k + 4 = 3 + (k + 1) by omega, pow_add]; norm_num
  have hleast : 2 ^ 24 ≤ x / 256 ^ k := by
    rw [Nat.le_div_iff_mul_le (by positivity)]
    calc 2 ^ 24 * 256 ^ k = 256 ^ (k + 4 - 1) := by
          rw [show k + 4 - 1 = 3 + k by omega, pow_add]; norm_num
      _ ≤ x := hlow
  have hdef : getCompact x = if (x / 256 ^ (k + 1)) &&& 0x00800000 != 0 then
      packCompact (k + 5) (x / 256 ^ (k + 1) / 256) else packCompact (k + 4) (x / 256 ^ (k + 1)) := by
    have hshift : x >>> (8 * (k + 4 - 3)) = x / 256 ^ (k + 1) := by
      rw [Nat.shiftRight_eq_div_pow, pow_mul, show k + 4 - 3 = k + 1 by omega]
      norm_num
    unfold getCompact
    simp only [hk, if_neg (show ¬ k + 4 ≤ 3 by omega), hshift, Nat.shiftRight_eq_div_pow _ 8]
    rw [Nat.mod_eq_of_lt (show x / 256 ^ (k + 1) < 2 ^ 64 by omega),
      Nat.mod_eq_of_lt (show x / 256 ^ (k + 1) < 2 ^ 32 by omega)]
  have hround (e : ℕ) : x / 256 ^ e * 256 ^ e < 2 ^ 256 := (Nat.div_mul_le_self _ _).trans_lt hx
  have hsign := signBit_set_iff hq
  by_cases hbit : x / 256 ^ (k + 1) < 2 ^ 23
  · rw [if_neg (hsign.not.mpr (not_not.mpr hbit))] at hdef
    refine ⟨k + 1, ⟨hbit, fun _ => ?_⟩, fun _ => hdef, ?_⟩
    · simp only [Nat.add_sub_cancel]
      omega
    · rw [hdef, setCompact_packCompact_large (by omega) (by omega) (by omega) hbit (hround (k + 1))]
      rfl
  · rw [if_pos (hsign.mpr hbit)] at hdef
    have hdiv : x / 256 ^ (k + 1) / 256 = x / 256 ^ (k + 2) := by
      rw [Nat.div_div_eq_div_mul, ← pow_succ]
    rw [hdiv] at hdef
    refine ⟨k + 2, ⟨by omega, fun _ => ?_⟩, fun _ => hdef, ?_⟩
    · simp only [Nat.add_succ_sub_one]
      omega
    · rw [hdef, setCompact_packCompact_large (by omega) (by omega) (by omega) (by omega)
        (hround (k + 2))]
      rfl

theorem exists_compactSpec (hx : x < 2 ^ 256) : ∃ e, CompactSpec x e := by
  rcases Nat.eq_zero_or_pos x with rfl | hpos
  · exact ⟨0, ⟨by norm_num, by omega⟩, by omega, by decide⟩
  rcases le_or_gt ((bits x + 7) / 8) 3 with hs | hs
  · exact compactSpec_small hpos hs
  · exact compactSpec_large hx hs

/-- The target that a number's compact form stands for. -/
def compactRound (x : ℕ) : ℕ := (setCompact (getCompact x)).value

section CompactRound

variable {x y : ℕ}

private theorem compactRound_eq {e : ℕ} (h : CompactSpec x e) :
    compactRound x = truncate 256 e x := by
  rw [compactRound, h.decoded]

theorem setCompact_getCompact (hx : x < 2 ^ 256) :
    setCompact (getCompact x) = ⟨compactRound x, false, false⟩ := by
  obtain ⟨e, he⟩ := exists_compactSpec hx
  rw [compactRound_eq he, he.decoded]

theorem compactRound_le (hx : x < 2 ^ 256) : compactRound x ≤ x := by
  obtain ⟨e, he⟩ := exists_compactSpec hx
  rw [compactRound_eq he]
  exact truncate_le

theorem lt_two_mul_compactRound (hx : x < 2 ^ 256) (hpos : 0 < x) : x < 2 * compactRound x := by
  obtain ⟨e, he⟩ := exists_compactSpec hx
  rw [compactRound_eq he]
  exact lt_two_mul_truncate (by norm_num) (by norm_num) (by norm_num) he.isExponent hpos

theorem compactRound_pos (hx : x < 2 ^ 256) (hpos : 0 < x) : 0 < compactRound x := by
  have := lt_two_mul_compactRound hx hpos
  omega

theorem compactRound_mono (hy : y < 2 ^ 256) (h : x ≤ y) : compactRound x ≤ compactRound y := by
  obtain ⟨e, he⟩ := exists_compactSpec (h.trans_lt hy)
  obtain ⟨f, hf⟩ := exists_compactSpec hy
  rw [compactRound_eq he, compactRound_eq hf]
  exact truncate_mono (by norm_num) (by norm_num) he.isExponent hf.isExponent h

theorem getCompact_compactRound (hx : x < 2 ^ 256) : getCompact (compactRound x) = getCompact x := by
  obtain ⟨e, he⟩ := exists_compactSpec hx
  obtain ⟨f, hf⟩ := exists_compactSpec ((compactRound_le hx).trans_lt hx)
  rw [compactRound_eq he] at hf ⊢
  obtain rfl : f = e := exponent_unique (by norm_num) hf.isExponent
    (isExponent_truncate (by norm_num) (by norm_num) he.isExponent)
  rcases Nat.eq_zero_or_pos f with rfl | hpos
  · rw [truncate_zero]
  · rw [hf.packed hpos, he.packed hpos, truncate, Nat.mul_div_cancel _ (by positivity)]

theorem getCompact_eq_iff (hx : x < 2 ^ 256) (hy : y < 2 ^ 256) :
    getCompact x = getCompact y ↔ compactRound x = compactRound y := by
  constructor
  · intro h
    rw [compactRound, h, compactRound]
  · intro h
    rw [← getCompact_compactRound hx, h, getCompact_compactRound hy]

variable {powLimit : ℕ}

theorem deriveTarget_eq_some {nBits : UInt32} {t : ℕ} (h : deriveTarget nBits powLimit = some t) :
    (setCompact nBits).value = t ∧ 0 < t ∧ t ≤ powLimit := by
  unfold deriveTarget at h
  simp only at h
  split at h
  · cases h
  rename_i hcond
  cases h
  simp only [Bool.or_eq_true, beq_iff_eq, decide_eq_true_eq, not_or, not_lt] at hcond
  exact ⟨rfl, by omega, hcond.2⟩

theorem deriveTarget_getCompact (hl : powLimit < 2 ^ 256) (hpos : 0 < x) (hx : x ≤ powLimit) :
    deriveTarget (getCompact x) powLimit = some (compactRound x) := by
  have hx' := hx.trans_lt hl
  obtain ⟨e, he⟩ := exists_compactSpec hx'
  have hne := (compactRound_pos hx' hpos).ne'
  have hle := (compactRound_le hx').trans hx
  rw [compactRound_eq he] at hne hle ⊢
  simp [deriveTarget, he.decoded, hne, hle]

end CompactRound

end Tarcoin
