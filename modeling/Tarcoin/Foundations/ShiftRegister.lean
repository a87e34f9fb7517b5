import Mathlib.Data.Nat.Bitwise
import Tarcoin.Foundations.Radix

/-! A register is fed symbols, with exclusive or as addition. When the feedback is additive and
only shifts small registers, the last symbols can be chosen to reach any register; and when the
shifts of single symbols stay apart, up to three changed symbols change the register. -/
namespace ShiftRegister
open Radix

/-- Feed the symbols `vs` to the register `c`. -/
def feed (feedback : ℕ → ℕ) : ℕ → List ℕ → ℕ
  | c, [] => c
  | c, v :: vs => feed feedback (feedback c ^^^ v) vs

variable {feedback : ℕ → ℕ}

theorem feed_append (c : ℕ) (vs ws : List ℕ) :
    feed feedback c (vs ++ ws) = feed feedback (feed feedback c vs) ws := by
  induction vs generalizing c with
  | nil => rfl
  | cons v vs ih => exact ih _

variable {k c w : ℕ} {vs : List ℕ}

theorem feed_lt (hfeedback : ∀ c, feedback c < 2 ^ k) (hvs : ∀ v ∈ vs, v < 2 ^ k) (hc : c < 2 ^ k) :
    feed feedback c vs < 2 ^ k := by
  induction vs generalizing c with
  | nil => exact hc
  | cons v vs ih =>
    apply ih (fun w hw => hvs w (List.mem_cons_of_mem v hw))
    exact Nat.xor_lt_two_pow (hfeedback c) (hvs v List.mem_cons_self)

theorem feed_xor (hadd : ∀ a b, feedback (a ^^^ b) = feedback a ^^^ feedback b) (a b : ℕ)
    (vs : List ℕ) :
    feed feedback (a ^^^ b) vs =
      feed feedback a (List.replicate vs.length 0) ^^^ feed feedback b vs := by
  induction vs generalizing a b with
  | nil => rfl
  | cons v vs ih =>
    rw [List.length_cons, List.replicate_succ, feed, feed, Nat.xor_zero, hadd,
      Nat.xor_assoc]
    exact ih (feedback a) (feedback b ^^^ v)

theorem shifted_xor {v : ℕ} (hv : v < 2 ^ w) : (c * 2 ^ w) ^^^ v = c * 2 ^ w + v := by
  rw [Nat.mul_comm]
  apply Nat.eq_of_testBit_eq
  intro j
  rw [Nat.testBit_xor, Nat.testBit_two_pow_mul, Nat.testBit_two_pow_mul_add c hv]
  by_cases hj : j < w
  · simp [hj, not_le.mpr hj]
  · have hhigh : v.testBit j = false :=
      Nat.testBit_lt_two_pow (hv.trans_le (Nat.pow_le_pow_right (by norm_num) (not_lt.mp hj)))
    simp [hj, hhigh, not_lt.mp hj]

theorem feed_eq_accumulate (hshift : ∀ x < 2 ^ (w * k), feedback x = x * 2 ^ w)
    (hvs : ∀ v ∈ vs, v < 2 ^ w) {n : ℕ} (hc : c < 2 ^ (w * n)) (hlen : n + vs.length ≤ k + 1) :
    feed feedback c vs = accumulate (2 ^ w) c vs := by
  induction vs generalizing n c with
  | nil => rfl
  | cons v vs ih =>
    rw [List.length_cons] at hlen
    have hv : v < 2 ^ w := hvs v List.mem_cons_self
    have hsmall : c < 2 ^ (w * k) :=
      hc.trans_le (Nat.pow_le_pow_right (by norm_num) (Nat.mul_le_mul_left w (by omega)))
    have hstep : feedback c ^^^ v = c * 2 ^ w + v := by
      rw [hshift c hsmall, shifted_xor hv]
    have hnext : c * 2 ^ w + v < 2 ^ (w * (n + 1)) := by
      rw [Nat.mul_succ, pow_add]
      nlinarith
    rw [feed, hstep]
    exact ih (fun u hu => hvs u (List.mem_cons_of_mem v hu)) hnext (by omega)

/-- The `k` groups of `w` bits of `x`, the highest first. -/
def groups (w k x : ℕ) : List ℕ :=
  (List.range k).map fun i => (x >>> (w * (k - 1 - i))) &&& (2 ^ w - 1)

theorem groups_succ (w k x : ℕ) :
    groups w (k + 1) x = ((x >>> (w * k)) &&& (2 ^ w - 1)) :: groups w k x := by
  rw [groups, List.range_succ_eq_map, List.map_cons, List.map_map]
  congr 1
  apply List.map_congr_left
  intro i hi
  rw [Function.comp_apply, show k + 1 - 1 - (i + 1) = k - 1 - i by omega]

@[simp] theorem length_groups (w k x : ℕ) : (groups w k x).length = k := by simp [groups]

theorem groups_lt {x : ℕ} : ∀ g ∈ groups w k x, g < 2 ^ w := by
  intro g hg
  obtain ⟨i, -, rfl⟩ := List.mem_map.mp hg
  rw [Nat.and_two_pow_sub_one_eq_mod]
  exact Nat.mod_lt _ (by positivity)

theorem accumulate_groups (w k x : ℕ) :
    accumulate (2 ^ w) 0 (groups w k x) = x % 2 ^ (w * k) := by
  induction k with
  | zero => simp [groups, Nat.mod_one]
  | succ k ih =>
    rw [groups_succ, accumulate_cons, accumulate_eq, ih, length_groups,
      Nat.and_two_pow_sub_one_eq_mod, Nat.shiftRight_eq_div_pow, Nat.mul_succ, pow_add,
      Nat.mod_mul]
    ring

/-- After as many symbols as the register has groups, the symbols that close it at `target`
are the groups of what zeros leave, added to the target. -/
theorem feed_closing (hadd : ∀ a b, feedback (a ^^^ b) = feedback a ^^^ feedback b)
    (hfeedback : ∀ c, feedback c < 2 ^ (w * (k + 1)))
    (hshift : ∀ x < 2 ^ (w * k), feedback x = x * 2 ^ w) (c target : ℕ)
    (htarget : target < 2 ^ (w * (k + 1))) :
    feed feedback c (groups w (k + 1)
      (feed feedback c (List.replicate (k + 1) 0) ^^^ target)) = target := by
  set residue := feed feedback c (List.replicate (k + 1) 0) with hresidue
  have hlt : residue ^^^ target < 2 ^ (w * (k + 1)) := by
    refine Nat.xor_lt_two_pow ?_ htarget
    rw [hresidue, List.replicate_succ, feed]
    apply feed_lt hfeedback
    · intro v hv
      rw [List.eq_of_mem_replicate hv]
      positivity
    · rw [Nat.xor_zero]
      exact hfeedback c
  have hdigits : feed feedback 0 (groups w (k + 1) (residue ^^^ target)) = residue ^^^ target := by
    rw [feed_eq_accumulate hshift groups_lt (n := 0) (by simp) (by simp), accumulate_groups,
      Nat.mod_eq_of_lt hlt]
  have hsplit := feed_xor hadd c 0 (groups w (k + 1) (residue ^^^ target))
  rw [Nat.xor_zero, length_groups, hdigits, ← Nat.xor_assoc, Nat.xor_self,
    Nat.zero_xor] at hsplit
  exact hsplit

section Errors

/-- The symbols other than zero, each with the number of symbols after it. -/
def errors : List ℕ → List (ℕ × ℕ)
  | [] => []
  | v :: vs => if v = 0 then errors vs else (vs.length, v) :: errors vs

theorem length_errors (vs : List ℕ) : (errors vs).length = vs.countP (· ≠ 0) := by
  induction vs with
  | nil => rfl
  | cons v vs ih => by_cases hv : v = 0 <;> simp [errors, hv, ih]

theorem lt_of_mem_errors {e : ℕ × ℕ} (he : e ∈ errors vs) :
    e.1 < vs.length ∧ e.2 ∈ vs ∧ e.2 ≠ 0 := by
  induction vs with
  | nil => simp [errors] at he
  | cons v vs ih =>
    rw [errors] at he
    split at he
    · obtain ⟨hlt, hmem, hne⟩ := ih he
      exact ⟨hlt.trans (Nat.lt_succ_self _), List.mem_cons_of_mem v hmem, hne⟩
    · rcases List.mem_cons.mp he with rfl | he
      · exact ⟨Nat.lt_succ_self _, List.mem_cons_self, ‹_›⟩
      · obtain ⟨hlt, hmem, hne⟩ := ih he
        exact ⟨hlt.trans (Nat.lt_succ_self _), List.mem_cons_of_mem v hmem, hne⟩

theorem pairwise_errors (vs : List ℕ) : (errors vs).Pairwise fun d e => e.1 < d.1 := by
  induction vs with
  | nil => exact List.Pairwise.nil
  | cons v vs ih =>
    rw [errors]
    split
    · exact ih
    · exact List.pairwise_cons.mpr ⟨fun e he => (lt_of_mem_errors he).1, ih⟩

/-- Whether equal second components come with equal first ones, found out by splitting on the
lowest `n` bits of the second ones. -/
def separated : ℕ → List (ℕ × ℕ) → Bool
  | 0, l => l.all fun p => l.all fun q => p.1 = q.1
  | _ + 1, [] => true
  | _ + 1, [_] => true
  | n + 1, l => separated n (l.filter fun p => p.2.testBit n) &&
      separated n (l.filter fun p => !p.2.testBit n)

theorem fst_eq_of_separated {n : ℕ} {l : List (ℕ × ℕ)} (h : separated n l = true) {p q : ℕ × ℕ}
    (hp : p ∈ l) (hq : q ∈ l) (hsnd : p.2 = q.2) : p.1 = q.1 := by
  fun_induction separated n l with
  | case1 l => simpa using List.all_eq_true.mp (List.all_eq_true.mp h p hp) q hq
  | case2 => cases hp
  | case3 => rw [List.mem_singleton.mp hp, List.mem_singleton.mp hq]
  | case4 n l _ _ ihset ihclear =>
    rw [Bool.and_eq_true] at h
    by_cases hbit : q.2.testBit n
    · exact ihset h.1 (List.mem_filter.mpr ⟨hp, by rw [hsnd, hbit]⟩)
        (List.mem_filter.mpr ⟨hq, hbit⟩)
    · exact ihclear h.2 (List.mem_filter.mpr ⟨hp, by simpa [hsnd] using hbit⟩)
        (List.mem_filter.mpr ⟨hq, by simpa using hbit⟩)

/-- The registers `cs` after `0, …, n - 1` more shifts, without their lowest group, each with the
number of shifts counted from `j`. -/
def shiftTable (feedback : ℕ → ℕ) (w : ℕ) : ℕ → ℕ → List ℕ → List (ℕ × ℕ)
  | 0, _, _ => []
  | n + 1, j, cs => cs.map (fun c => (j, c >>> w)) ++ shiftTable feedback w n (j + 1) (cs.map feedback)

theorem mem_shiftTable {n i j : ℕ} {cs : List ℕ} (hi : i < n) (hc : c ∈ cs) :
    (j + i, feedback^[i] c >>> w) ∈ shiftTable feedback w n j cs := by
  induction n generalizing i j c cs with
  | zero => exact absurd hi (Nat.not_lt_zero i)
  | succ n ih =>
    rw [shiftTable, List.mem_append]
    cases i with
    | zero => exact .inl (List.mem_map.mpr ⟨c, hc, rfl⟩)
    | succ i =>
      rw [show j + (i + 1) = j + 1 + i by omega]
      exact .inr (ih (Nat.lt_of_succ_lt_succ hi) (List.mem_map_of_mem hc))

variable (hadd : ∀ a b, feedback (a ^^^ b) = feedback a ^^^ feedback b)
include hadd

theorem iterate_xor (n a b : ℕ) :
    feedback^[n] (a ^^^ b) = feedback^[n] a ^^^ feedback^[n] b := by
  induction n generalizing a b with
  | zero => rfl
  | succ n ih => simp only [Function.iterate_succ_apply, hadd, ih]

theorem feed_zipWith_xor (a b : ℕ) {us : List ℕ} (hlen : us.length = vs.length) :
    feed feedback (a ^^^ b) (List.zipWith (· ^^^ ·) us vs) =
      feed feedback a us ^^^ feed feedback b vs := by
  induction us generalizing a b vs with
  | nil => rw [List.eq_nil_of_length_eq_zero hlen.symm]; rfl
  | cons u us ih =>
    obtain ⟨v, vs, rfl⟩ := List.exists_cons_of_length_eq_add_one hlen.symm
    have hstep : feedback (a ^^^ b) ^^^ (u ^^^ v) = (feedback a ^^^ u) ^^^ (feedback b ^^^ v) := by
      rw [hadd]
      ac_rfl
    rw [List.zipWith_cons_cons, feed, hstep]
    exact ih _ _ (Nat.succ_injective hlen)

theorem feed_eq_errors (vs : List ℕ) :
    feed feedback 0 vs = (errors vs).foldr (fun e c => feedback^[e.1] e.2 ^^^ c) 0 := by
  have hempty : feedback 0 = 0 := by simpa using hadd 0 0
  have hzeros : ∀ n c, feed feedback c (List.replicate n 0) = feedback^[n] c := by
    intro n
    induction n with
    | zero => exact fun c => rfl
    | succ n ih =>
      intro c
      rw [List.replicate_succ, feed, Nat.xor_zero]
      exact ih _
  induction vs with
  | nil => rfl
  | cons v vs ih =>
    rw [errors, feed, hempty, Nat.zero_xor]
    split
    · rw [‹v = 0›, ih]
    · rw [List.foldr_cons, ← ih, ← hzeros, ← feed_xor hadd, Nat.xor_zero]

theorem iterate_xor_iterate {i j : ℕ} (hij : j ≤ i) (a b : ℕ) :
    feedback^[i] a ^^^ feedback^[j] b = feedback^[j] (feedback^[i - j] a ^^^ b) := by
  rw [iterate_xor hadd, ← Function.iterate_add_apply, Nat.add_sub_cancel' hij]

/-- When shifts of single symbols differ above the lowest group, one to three symbols other than
zero leave the register other than zero. -/
theorem feed_ne_zero {n bits : ℕ} (hlt : ∀ c, feedback c < 2 ^ k) (hw : w ≤ k)
    (hzero : ∀ c < 2 ^ k, feedback c = 0 → c = 0)
    (htable : separated bits (shiftTable feedback w n 0 (List.range' 1 (2 ^ w - 1))) = true)
    (hvs : ∀ v ∈ vs, v < 2 ^ w) (hlen : vs.length ≤ n) (hsome : errors vs ≠ [])
    (hfew : (errors vs).length ≤ 3) : feed feedback 0 vs ≠ 0 := by
  have hmem : ∀ e ∈ errors vs, e.1 < n ∧ e.2 < 2 ^ w ∧ e.2 ∈ List.range' 1 (2 ^ w - 1) := by
    intro e he
    obtain ⟨hpos, hin, hne⟩ := lt_of_mem_errors he
    have hsym := hvs e.2 hin
    exact ⟨hpos.trans_le hlen, hsym, List.mem_range'_1.mpr (by omega)⟩
  have hsmall : ∀ {v}, v < 2 ^ w → v < 2 ^ k := fun hv =>
    hv.trans_le (Nat.pow_le_pow_right (by norm_num) hw)
  have hshifted : ∀ i {v}, v < 2 ^ w → feedback^[i] v < 2 ^ k := by
    intro i v hv
    cases i with
    | zero => exact hsmall hv
    | succ i => rw [Function.iterate_succ_apply']; exact hlt _
  have hcancel : ∀ i {c}, c < 2 ^ k → feedback^[i] c = 0 → c = 0 := by
    intro i
    induction i with
    | zero => exact fun _ h => h
    | succ i ih => exact fun hc h => hzero _ hc (ih (hlt _) h)
  have happart : ∀ {i j u v}, i < n → j < n → u ∈ List.range' 1 (2 ^ w - 1) →
      v ∈ List.range' 1 (2 ^ w - 1) → feedback^[i] u >>> w = feedback^[j] v >>> w → i = j := by
    intro i j u v hi hj hu hv heq
    simpa using fst_eq_of_separated htable (mem_shiftTable hi hu) (mem_shiftTable hj hv) heq
  have horder := pairwise_errors vs
  rw [feed_eq_errors hadd]
  intro h
  -- The shift that the last symbol has in common with the others is taken back, which leaves it
  -- in the lowest group only.
  match herrors : errors vs, hsome, hfew with
  | [d], _, _ =>
    rw [herrors, List.foldr_cons, List.foldr_nil, Nat.xor_zero] at h
    obtain ⟨-, hd, hin⟩ := hmem d (by simp [herrors])
    rw [hcancel d.1 (hsmall hd) h] at hin
    simp at hin
  | [d, e], _, _ =>
    rw [herrors] at h horder
    obtain ⟨hdn, hd, hdin⟩ := hmem d (by simp [herrors])
    obtain ⟨hen, he, hein⟩ := hmem e (by simp [herrors])
    have hde : e.1 < d.1 := by simpa using horder
    rw [List.foldr_cons, List.foldr_cons, List.foldr_nil, Nat.xor_zero,
      iterate_xor_iterate hadd hde.le] at h
    have heq := Nat.xor_eq_zero_iff.mp
      (hcancel e.1 (Nat.xor_lt_two_pow (hshifted _ hd) (hsmall he)) h)
    have hsame : d.1 - e.1 = 0 :=
      happart (by omega) (by omega) hdin hein (congrArg (· >>> w) heq)
    omega
  | [d, e, g], _, _ =>
    rw [herrors] at h horder
    obtain ⟨hdn, hd, hdin⟩ := hmem d (by simp [herrors])
    obtain ⟨hen, he, hein⟩ := hmem e (by simp [herrors])
    obtain ⟨-, hg, -⟩ := hmem g (by simp [herrors])
    obtain ⟨⟨hde, hdg⟩, heg⟩ : (e.1 < d.1 ∧ g.1 < d.1) ∧ g.1 < e.1 := by simpa using horder
    rw [List.foldr_cons, List.foldr_cons, List.foldr_cons, List.foldr_nil, Nat.xor_zero,
      iterate_xor_iterate hadd heg.le, iterate_xor_iterate hadd hdg.le] at h
    have heq := Nat.xor_eq_zero_iff.mp (hcancel g.1 (Nat.xor_lt_two_pow (hshifted _ hd)
      (Nat.xor_lt_two_pow (hshifted _ he) (hsmall hg))) h)
    have hhigh : feedback^[d.1 - g.1] d.2 >>> w = feedback^[e.1 - g.1] e.2 >>> w := by
      rw [heq, Nat.shiftRight_xor_distrib, Nat.shiftRight_eq_div_pow g.2, Nat.div_eq_of_lt hg,
        Nat.xor_zero]
    have hsame : d.1 - g.1 = e.1 - g.1 := happart (by omega) (by omega) hdin hein hhigh
    omega

end Errors

end ShiftRegister
