import Tarcoin.Pool.Header
import Tarcoin.Pool.HexText
import Tarcoin.Validation.ContextualHeader

/-! `nBitsToTarget` and `hashMeetsTarget` are together the node's `CheckProofOfWorkImpl`, on the
bits that the node derives a target from. -/
namespace Tarcoin.Pool
open Radix

def bytesValue (bytes : List UInt8) : ℕ := accumulate 256 0 (bytes.map UInt8.toNat)

theorem bytes_lt (bytes : List UInt8) : ∀ d ∈ bytes.map UInt8.toNat, d < 256 := by
  intro d hd
  obtain ⟨b, -, rfl⟩ := List.mem_map.mp hd
  exact b.toNat_lt

theorem bytesAtMost_iff {as bs : List UInt8} (h : as.length = bs.length) :
    bytesAtMost as bs = true ↔ bytesValue as ≤ bytesValue bs := by
  induction as generalizing bs with
  | nil =>
    obtain rfl := List.length_eq_zero_iff.mp h.symm
    simp [bytesAtMost]
  | cons a as ih =>
    cases bs with
    | nil => cases h
    | cons b bs =>
      have hlen : as.length = bs.length := Nat.succ.inj h
      have hcons := accumulate_cons_le_iff (d := a.toNat) (e := b.toNat) (by decide) (bytes_lt as)
        (bytes_lt bs) (by rw [List.length_map, List.length_map, hlen])
      rw [bytesValue, bytesValue, List.map_cons, List.map_cons, hcons, bytesAtMost]
      split_ifs with hlt hgt
      · simp [UInt8.lt_iff_toNat_lt.mp hlt]
      · have hgt := UInt8.lt_iff_toNat_lt.mp hgt
        simp only [false_iff]
        omega
      · have heq : a.toNat = b.toNat := by
          rw [UInt8.lt_iff_toNat_lt] at hlt hgt
          omega
        rw [ih hlen]
        simp [heq, bytesValue]

theorem bytesValue_reverse (hash : Bytes 32) : bytesValue hash.val.reverse = uintToArith256 hash := by
  rw [bytesValue, List.map_reverse, accumulate_reverse, uintToArith256]
  induction hash.val with
  | nil => rfl
  | cons b bytes ih =>
    rw [List.map_cons, Nat.ofDigits_cons, ih, List.foldr_cons]

/-- Three bytes laid into 32 zero bytes from position `i` on, as far as they fit. -/
theorem accumulate_laid (i a b c : ℕ) :
    accumulate 256 0 ((((List.replicate 32 0).set i a).set (i + 1) b).set (i + 2) c) =
      if i ≤ 29 then (a * 2 ^ 16 + b * 2 ^ 8 + c) * 256 ^ (29 - i)
      else if i = 30 then a * 2 ^ 8 + b else if i = 31 then a else 0 := by
  have hzero : ∀ j < 32, (List.replicate 32 0)[j]? = some 0 := fun j hj => by
    rw [List.getElem?_replicate, if_pos hj]
  have hnil : accumulate 256 0 (List.replicate 32 0) = 0 := by
    rw [← List.append_nil (List.replicate 32 0), accumulate_zeros, accumulate_nil]
  have hfirst : i < 32 → accumulate 256 0 ((List.replicate 32 0).set i a) = a * 256 ^ (31 - i) := by
    intro hi
    rw [accumulate_set 256 0 a (hzero i hi), hnil, zero_add, List.length_replicate]
  have hsecond : i < 31 → accumulate 256 0 (((List.replicate 32 0).set i a).set (i + 1) b) =
      a * 256 ^ (31 - i) + b * 256 ^ (30 - i) := by
    intro hi
    have hfree : ((List.replicate 32 0).set i a)[i + 1]? = some 0 := by
      rw [List.getElem?_set_ne (by omega), hzero _ (by omega)]
    rw [accumulate_set 256 0 b hfree, hfirst (by omega), List.length_set, List.length_replicate,
      show 32 - 1 - (i + 1) = 30 - i by omega]
  have hpast : ∀ (ds : List ℕ) (j d : ℕ), ds.length = 32 → 32 ≤ j → ds.set j d = ds :=
    fun ds j d hlen hj => List.set_eq_of_length_le (by omega)
  split_ifs with h29 h30 h31
  · have hfree : (((List.replicate 32 0).set i a).set (i + 1) b)[i + 2]? = some 0 := by
      rw [List.getElem?_set_ne (by omega), List.getElem?_set_ne (by omega), hzero _ (by omega)]
    rw [accumulate_set 256 0 c hfree, hsecond (by omega), List.length_set, List.length_set,
      List.length_replicate, show 32 - 1 - (i + 2) = 29 - i by omega,
      show 31 - i = 29 - i + 2 by omega, show 30 - i = 29 - i + 1 by omega]
    ring
  · subst h30
    simp
  · subst h31
    simp
  · rw [hpast _ _ _ (by simp) (by omega), hpast _ _ _ (by simp) (by omega), hpast _ _ _ (by simp) (by omega),
      hnil]

/-- The value of a mantissa with a size byte, the bytes below the last one cut off. -/
def sizedValue (nSize mantissa : ℕ) : ℕ :=
  if nSize ≤ 3 then mantissa / 256 ^ (3 - nSize) else mantissa * 256 ^ (nSize - 3)

theorem ofNat_and_toNat (n : ℕ) : (UInt8.ofNat (n &&& 0xff)).toNat = n % 2 ^ 8 := by
  rw [UInt8.toNat_ofNat', Nat.and_two_pow_sub_one_eq_mod n 8, Nat.mod_mod]

theorem bytesValue_nBitsToTarget {nBits : UInt32} (h : nBits.toNat / 2 ^ 24 ≤ 32) :
    (nBitsToTarget (hex8 nBits).toList).length = 32 ∧
      bytesValue (nBitsToTarget (hex8 nBits).toList) =
        sizedValue (nBits.toNat / 2 ^ 24) (nBits.toNat % 2 ^ 23) := by
  have hlt := nBits.toNat_lt
  have hbits : (toBits32 (parseInt16 (hex8 nBits).toList)).toNat = nBits.toNat := by
    rw [hex8, String.toList_ofList]
    change (toBits32 (parseInt16 (padStart 8 (Nat.toDigits 16 nBits.toNat)))).toNat = _
    rw [parseInt16_padStart, toBits32_natCast hlt]
  have hexponent : nBits.toNat >>> 24 &&& 0xff = nBits.toNat / 2 ^ 24 := by
    rw [Nat.and_two_pow_sub_one_eq_mod _ 8]
    omega
  simp only [nBitsToTarget, hbits, hexponent, mantissaBits_eq, if_pos h]
  refine ⟨by simp, ?_⟩
  have hm : nBits.toNat % 2 ^ 23 < 2 ^ 23 := Nat.mod_lt _ (by decide)
  generalize nBits.toNat % 2 ^ 23 = m at hm ⊢
  generalize nBits.toNat / 2 ^ 24 = e at h ⊢
  simp only [bytesValue, List.map_set, List.map_replicate, ofNat_and_toNat, Nat.shiftRight_eq_div_pow]
  change accumulate 256 0 ((((List.replicate 32 0).set (32 - e) _).set (32 - e + 1) _).set
    (32 - e + 2) _) = _
  rw [accumulate_laid, sizedValue]
  -- Below three bytes the last ones do not fit into the buffer.
  rcases Nat.lt_or_ge e 3 with hsmall | hlarge
  · interval_cases e <;> simp <;> omega
  · rw [if_pos (by omega), show 29 - (32 - e) = e - 3 by omega,
      show m / 2 ^ 16 % 2 ^ 8 * 2 ^ 16 + m / 2 ^ 8 % 2 ^ 8 * 2 ^ 8 + m % 2 ^ 8 = m by omega]
    split_ifs with hthree
    · rw [show e = 3 by omega]
      simp
    · rfl

/-- The size byte of a target within the limit of the main network is at most 32, so that nothing
is shifted out of the 256 bits. -/
theorem size_le_of_target {e m : ℕ} (hsize : e ≤ 34) (h8 : 0xff < m → e ≤ 33)
    (h16 : 0xffff < m → e ≤ 32) (hzero : m * 2 ^ (8 * (e - 3)) % 2 ^ 256 ≠ 0)
    (hlimit : m * 2 ^ (8 * (e - 3)) % 2 ^ 256 ≤ mainParams.powLimit) : e ≤ 32 := by
  change _ ≤ 2 ^ 240 - 1 at hlimit
  by_contra hbig
  obtain rfl | rfl : e = 33 ∨ e = 34 := by omega
  · omega
  · omega

theorem deriveTarget_eq {nBits : UInt32} {t : ℕ}
    (h : deriveTarget nBits mainParams.powLimit = some t) :
    nBits.toNat / 2 ^ 24 ≤ 32 ∧ t = sizedValue (nBits.toNat / 2 ^ 24) (nBits.toNat % 2 ^ 23) := by
  have hm : nBits.toNat % 2 ^ 23 < 2 ^ 23 := Nat.mod_lt _ (by decide)
  have h256 (k : ℕ) : 2 ^ (8 * k) = 256 ^ k := by
    rw [pow_mul]
    norm_num
  simp only [deriveTarget, setCompact, Nat.shiftRight_eq_div_pow, mantissaBits_eq,
    Nat.shiftLeft_eq] at h
  generalize nBits.toNat % 2 ^ 23 = m at hm h ⊢
  generalize nBits.toNat / 2 ^ 24 = e at h ⊢
  split_ifs at h with hthree hrange hrange
  · refine ⟨by omega, ?_⟩
    rw [sizedValue, if_pos hthree, ← h256]
    exact (Option.some.inj h).symm
  · simp only [Bool.or_eq_true, Bool.and_eq_true, beq_iff_eq, bne_iff_ne, decide_eq_true_eq,
      not_or, not_and, not_lt] at hrange
    obtain ⟨⟨⟨-, hzero⟩, hoverflow⟩, hlimit⟩ := hrange
    have hne : m ≠ 0 := by
      rintro rfl
      simp at hzero
    obtain ⟨⟨hsize, h8⟩, h16⟩ := hoverflow hne
    have he := size_le_of_target hsize h8 h16 hzero hlimit
    refine ⟨he, ?_⟩
    have hlt : m * 2 ^ (8 * (e - 3)) < 2 ^ 256 := by
      calc m * 2 ^ (8 * (e - 3)) < 2 ^ 23 * 2 ^ (8 * (e - 3)) :=
            Nat.mul_lt_mul_of_pos_right hm (by positivity)
        _ ≤ 2 ^ 23 * 2 ^ 232 := Nat.mul_le_mul_left _ (Nat.pow_le_pow_right (by decide) (by omega))
        _ ≤ 2 ^ 256 := by norm_num
    rw [sizedValue, if_neg hthree, ← h256, ← Nat.mod_eq_of_lt hlt]
    exact (Option.some.inj h).symm

/-- On all bits that the node derives a target from, the pool and the node accept the same hashes. -/
theorem networkTarget_agrees (nBits : UInt32) (target : ℕ) (hash : Bytes 32)
    (h : deriveTarget nBits mainParams.powLimit = some target) :
    hashMeetsTarget hash (nBitsToTarget (hex8 nBits).toList) =
      checkProofOfWorkImpl hash nBits mainParams := by
  obtain ⟨hsize, rfl⟩ := deriveTarget_eq h
  obtain ⟨hlen, hvalue⟩ := bytesValue_nBitsToTarget hsize
  have hlengths : hash.val.reverse.length = (nBitsToTarget (hex8 nBits).toList).length := by
    rw [List.length_reverse, hash.property, hlen]
  have hcompare := bytesAtMost_iff hlengths
  rw [bytesValue_reverse, hvalue] at hcompare
  rw [Bool.eq_iff_iff, hashMeetsTarget, hcompare]
  simp [checkProofOfWorkImpl, h]

theorem networkTarget_agrees_genesis :
    hashMeetsTarget ⟨List.replicate 32 0, rfl⟩ (nBitsToTarget (hex8 0x1f00ffff).toList) =
      checkProofOfWorkImpl ⟨List.replicate 32 0, rfl⟩ 0x1f00ffff mainParams :=
  networkTarget_agrees 0x1f00ffff _ _ (by decide : deriveTarget 0x1f00ffff mainParams.powLimit =
    some (0xffff * 2 ^ 224))

end Tarcoin.Pool
