import Mathlib.Data.Nat.Bitwise
import Tarcoin.Foundations.Radix

/-! `ConvertBits` of `util/strencodings.h`. The accumulator keeps only as many low bits as can
still be needed. -/
namespace Tarcoin
open Radix

/-- The inner loop: take groups while there are enough bits. Also gives the bits left. -/
def emitGroups (tobits acc bits : ℕ) : List ℕ × ℕ :=
  if 0 < tobits ∧ tobits ≤ bits then
    let rest := emitGroups tobits acc (bits - tobits)
    (((acc >>> (bits - tobits)) &&& (2 ^ tobits - 1)) :: rest.1, rest.2)
  else ([], bits)
termination_by bits
decreasing_by omega

/-- The loop over the input; gives the output, the accumulator and the bits left in it. -/
def convertLoop (frombits tobits : ℕ) : List ℕ → ℕ → ℕ → List ℕ × ℕ × ℕ
  | [], acc, bits => ([], acc, bits)
  | v :: input, acc, bits =>
    let acc := ((acc <<< frombits) ||| v) &&& (2 ^ (frombits + tobits - 1) - 1)
    let groups := emitGroups tobits acc (bits + frombits)
    let rest := convertLoop frombits tobits input acc groups.2
    (groups.1 ++ rest.1, rest.2)

def convertBits (frombits tobits : ℕ) (pad : Bool) (input : List ℕ) : Option (List ℕ) :=
  let r := convertLoop frombits tobits input 0 0
  let bits := r.2.2
  let last := (r.2.1 <<< (tobits - bits)) &&& (2 ^ tobits - 1)
  if pad then some (r.1 ++ if bits ≠ 0 then [last] else [])
  else if bits ≥ frombits ∨ last ≠ 0 then none
  else some r.1

section Regrouping
variable {f t : ℕ}

variable {v bits : ℕ} {input : List ℕ}

theorem window_of_kept {k b : ℕ} (h : b + t ≤ k) :
    ((v % 2 ^ k) >>> b) &&& (2 ^ t - 1) = v / 2 ^ b % 2 ^ t := by
  obtain ⟨j, rfl⟩ := Nat.exists_eq_add_of_le h
  rw [Nat.and_two_pow_sub_one_eq_mod, Nat.shiftRight_eq_div_pow, pow_add, pow_add, Nat.mul_assoc,
    Nat.mod_mul_right_div_self, Nat.mod_mul_right_mod]

theorem emitGroups_spec (ht : 0 < t) (v : ℕ) (hbits : bits ≤ f + t - 1) :
    ∃ groups left, emitGroups t (v % 2 ^ (f + t - 1)) bits = (groups, left) ∧
      left < t ∧ groups.length * t + left = bits ∧ (∀ g ∈ groups, g < 2 ^ t) ∧
      accumulate (2 ^ t) (v / 2 ^ bits) groups = v / 2 ^ left := by
  induction bits using Nat.strong_induction_on with
  | _ bits ih =>
    rw [emitGroups]
    by_cases hgo : t ≤ bits
    · rw [if_pos ⟨ht, hgo⟩]
      obtain ⟨groups, left, hrest, hleft, hlen, hlt, hval⟩ := ih (bits - t) (by omega) (by omega)
      refine ⟨_ :: groups, left, by rw [hrest], hleft, ?_, ?_, ?_⟩
      · rw [List.length_cons, Nat.succ_mul]
        omega
      · intro g hg
        rcases List.mem_cons.mp hg with rfl | hmem
        · rw [window_of_kept (by omega)]
          exact Nat.mod_lt _ (by positivity)
        · exact hlt g hmem
      · have hsplit : 2 ^ bits = 2 ^ (bits - t) * 2 ^ t := by
          rw [← pow_add, Nat.sub_add_cancel hgo]
        rw [accumulate_cons, window_of_kept (by omega), hsplit, ← Nat.div_div_eq_div_mul,
          Nat.mul_comm, Nat.div_add_mod]
        exact hval
    · rw [if_neg (by omega)]
      exact ⟨[], bits, rfl, by omega, by simp, by simp, rfl⟩

theorem convertLoop_spec (ht : 0 < t) (hinput : ∀ x ∈ input, x < 2 ^ f) (v : ℕ) (hbits : bits < t) :
    ∃ out left, convertLoop f t input (v % 2 ^ (f + t - 1)) bits =
        (out, accumulate (2 ^ f) v input % 2 ^ (f + t - 1), left) ∧
      left < t ∧ out.length * t + left = bits + input.length * f ∧ (∀ g ∈ out, g < 2 ^ t) ∧
      accumulate (2 ^ t) (v / 2 ^ bits) out = accumulate (2 ^ f) v input / 2 ^ left := by
  induction input generalizing v bits with
  | nil => exact ⟨[], bits, rfl, hbits, by simp, by simp, rfl⟩
  | cons x input ih =>
    have hx : x < 2 ^ f := hinput x List.mem_cons_self
    have hacc : (((v % 2 ^ (f + t - 1)) <<< f) ||| x) &&& (2 ^ (f + t - 1) - 1) =
        (v * 2 ^ f + x) % 2 ^ (f + t - 1) := by
      rw [Nat.and_two_pow_sub_one_eq_mod, ← Nat.shiftLeft_add_eq_or_of_lt hx, Nat.shiftLeft_eq,
        Nat.add_mod, Nat.mod_mul_mod, ← Nat.add_mod]
    have hdiv : (v * 2 ^ f + x) / 2 ^ (bits + f) = v / 2 ^ bits := by
      rw [Nat.add_comm bits f, pow_add, ← Nat.div_div_eq_div_mul, Nat.mul_comm v,
        Nat.mul_add_div (by positivity), Nat.div_eq_of_lt hx, Nat.add_zero]
    obtain ⟨groups, left, hemit, hleft, hlen, hlt, hval⟩ :=
      emitGroups_spec ht (v * 2 ^ f + x) (show bits + f ≤ f + t - 1 by omega)
    obtain ⟨out, left', hloop, hleft', hlen', hlt', hval'⟩ :=
      ih (fun y hy => hinput y (List.mem_cons_of_mem x hy)) (v * 2 ^ f + x) hleft
    refine ⟨groups ++ out, left', ?_, hleft', ?_, ?_, ?_⟩
    · simp [convertLoop, hacc, hemit, hloop, accumulate_cons]
    · rw [List.length_append, List.length_cons, Nat.add_mul, Nat.succ_mul]
      omega
    · intro g hg
      rcases List.mem_append.mp hg with h | h
      · exact hlt g h
      · exact hlt' g h
    · rw [hdiv] at hval
      rw [accumulate_append, hval, hval', accumulate_cons]

theorem last_group (v : ℕ) {left : ℕ} (hleft : left < t) (hf : 0 < f) :
    ((v % 2 ^ (f + t - 1)) <<< (t - left)) &&& (2 ^ t - 1) = v % 2 ^ left * 2 ^ (t - left) := by
  have hsplit : 2 ^ t = 2 ^ left * 2 ^ (t - left) := by
    rw [← pow_add, Nat.add_sub_cancel' hleft.le]
  have hdvd : 2 ^ left ∣ 2 ^ (f + t - 1) := pow_dvd_pow 2 (by omega)
  rw [Nat.and_two_pow_sub_one_eq_mod, Nat.shiftLeft_eq, hsplit, Nat.mul_mod_mul_right,
    Nat.mod_mod_of_dvd _ hdvd]

theorem convertBits_pad (hf : 0 < f) (ht : 0 < t) (hinput : ∀ x ∈ input, x < 2 ^ f) :
    ∃ out p, convertBits f t true input = some out ∧ p < t ∧
      out.length * t = input.length * f + p ∧ (∀ g ∈ out, g < 2 ^ t) ∧
      accumulate (2 ^ t) 0 out = accumulate (2 ^ f) 0 input * 2 ^ p := by
  obtain ⟨out, left, hloop, hleft, hlen, hlt, hval⟩ :=
    convertLoop_spec ht hinput 0 ht
  rw [Nat.zero_mod] at hloop
  rw [Nat.zero_div] at hval
  unfold convertBits
  simp only [hloop, if_true]
  by_cases h0 : left = 0
  · refine ⟨_, 0, rfl, ht, ?_, ?_, ?_⟩
    · simp only [h0, ne_eq, not_true, if_false, List.append_nil]
      omega
    · simpa [h0] using hlt
    · simpa [h0] using hval
  · set v := accumulate (2 ^ f) 0 input
    have hlast := last_group v hleft hf
    have hgroup : v % 2 ^ left * 2 ^ (t - left) < 2 ^ t := by
      rw [← hlast, Nat.and_two_pow_sub_one_eq_mod]
      exact Nat.mod_lt _ (by positivity)
    refine ⟨_, t - left, rfl, by omega, ?_, ?_, ?_⟩
    · simp only [if_pos h0, List.length_append, List.length_singleton, Nat.succ_mul]
      omega
    · intro g hg
      rw [if_pos h0, hlast] at hg
      rcases List.mem_append.mp hg with h | h
      · exact hlt g h
      · rwa [List.mem_singleton.mp h]
    · have hsplit : 2 ^ t = 2 ^ left * 2 ^ (t - left) := by
        rw [← pow_add, Nat.add_sub_cancel' hleft.le]
      rw [if_pos h0, hlast, accumulate_append, hval, accumulate_cons, accumulate_nil, hsplit]
      conv_rhs => rw [← Nat.div_add_mod v (2 ^ left)]
      ring

/-- Without padding, fewer zero bits than a group of either size are dropped. -/
theorem convertBits_noPad (ht : 0 < t) (hinput : ∀ x ∈ input, x < 2 ^ f) {n p : ℕ} (hpf : p < f)
    (hpt : p < t) (hlen : input.length * f = n * t + p)
    (hval : accumulate (2 ^ f) 0 input = v * 2 ^ p) :
    ∃ out, convertBits f t false input = some out ∧ out.length = n ∧ (∀ g ∈ out, g < 2 ^ t) ∧
      accumulate (2 ^ t) 0 out = v := by
  obtain ⟨out, left, hloop, hleft, hlen', hlt, hout⟩ :=
    convertLoop_spec ht hinput 0 ht
  rw [Nat.zero_mod] at hloop
  have hsum : out.length * t + left = n * t + p := by omega
  have hleft_eq : left = p := by
    have hmod := congrArg (· % t) hsum
    simpa [Nat.add_mod, Nat.mod_eq_of_lt hleft, Nat.mod_eq_of_lt hpt] using hmod
  subst hleft_eq
  refine ⟨out, ?_, ?_, hlt, ?_⟩
  · unfold convertBits
    simp only [hloop, last_group _ hleft (by omega : 0 < f), hval, Nat.mul_mod_left, Nat.zero_mul,
      Bool.false_eq_true, if_false]
    rw [if_neg (by omega)]
  · exact Nat.eq_of_mul_eq_mul_right ht (by omega)
  · rw [hval, Nat.mul_div_cancel _ (by positivity)] at hout
    exact hout

theorem convertBits_convertBits (ht : 0 < t) (htf : t ≤ f) (hinput : ∀ x ∈ input, x < 2 ^ f) :
    ∃ out, convertBits f t true input = some out ∧ (∀ g ∈ out, g < 2 ^ t) ∧
      out.length * t < input.length * f + t ∧ convertBits t f false out = some input := by
  obtain ⟨out, p, hpad, hp, hlen, hlt, hval⟩ := convertBits_pad (by omega) ht hinput
  obtain ⟨back, hback, hblen, hblt, hbval⟩ :=
    convertBits_noPad (by omega : 0 < f) hlt hp (by omega) hlen hval
  have hsame : back = input :=
    accumulate_inj (Nat.one_lt_two_pow (by omega)) hblt hinput hblen hbval
  exact ⟨out, hpad, hlt, by omega, hsame ▸ hback⟩

end Regrouping

end Tarcoin
