import Mathlib.Data.Nat.Digits.Lemmas

/-! Numerals in any base, most significant digit first. Conversion between bases runs over a
buffer of cells, least significant first, that is multiplied and added to in place. -/
namespace Radix

/-- Read `ds` on top of the value `v` already read. -/
def accumulate (b : ℕ) : ℕ → List ℕ → ℕ
  | v, [] => v
  | v, d :: ds => accumulate b (v * b + d) ds

@[simp] theorem accumulate_nil (b v : ℕ) : accumulate b v [] = v := rfl

@[simp] theorem accumulate_cons (b v d : ℕ) (ds : List ℕ) :
    accumulate b v (d :: ds) = accumulate b (v * b + d) ds := rfl

theorem accumulate_append (b v : ℕ) (ds es : List ℕ) :
    accumulate b v (ds ++ es) = accumulate b (accumulate b v ds) es := by
  induction ds generalizing v with
  | nil => rfl
  | cons d ds ih => exact ih (v * b + d)

theorem accumulate_eq (b v : ℕ) (ds : List ℕ) :
    accumulate b v ds = v * b ^ ds.length + accumulate b 0 ds := by
  induction ds generalizing v with
  | nil => simp
  | cons d ds ih =>
    rw [accumulate_cons, accumulate_cons, ih (v * b + d), ih (0 * b + d), List.length_cons]
    ring

theorem accumulate_reverse (b : ℕ) (ds : List ℕ) :
    accumulate b 0 ds.reverse = Nat.ofDigits b ds := by
  induction ds with
  | nil => simp
  | cons d ds ih =>
    rw [List.reverse_cons, accumulate_append, ih, Nat.ofDigits_cons, accumulate_cons,
      accumulate_nil]
    ring

variable {b n d width v : ℕ} {ds es : List ℕ}

theorem le_accumulate (hb : 0 < b) (v : ℕ) (ds : List ℕ) : v ≤ accumulate b v ds := by
  rw [accumulate_eq]
  have hpow : 1 ≤ b ^ ds.length := Nat.one_le_pow _ _ hb
  nlinarith

theorem accumulate_zeros (b k : ℕ) (ds : List ℕ) :
    accumulate b 0 (List.replicate k 0 ++ ds) = accumulate b 0 ds := by
  induction k with
  | zero => rfl
  | succ k ih => simpa [List.replicate_succ] using ih

/-- The digits of `n`, none for zero. -/
def numeral (b n : ℕ) : List ℕ := (Nat.digits b n).reverse

/-- The digits of `n` after as many zeros as make `width` of them. -/
def paddedNumeral (b width n : ℕ) : List ℕ :=
  List.replicate (width - (numeral b n).length) 0 ++ numeral b n

@[simp] theorem numeral_zero (b : ℕ) : numeral b 0 = [] := by simp [numeral]

@[simp] theorem accumulate_numeral (b n : ℕ) : accumulate b 0 (numeral b n) = n := by
  rw [numeral, accumulate_reverse, Nat.ofDigits_digits]

@[simp] theorem accumulate_paddedNumeral (b width n : ℕ) :
    accumulate b 0 (paddedNumeral b width n) = n := by
  rw [paddedNumeral, accumulate_zeros, accumulate_numeral]

theorem numeral_lt (hb : 1 < b) (hd : d ∈ numeral b n) : d < b :=
  Nat.digits_lt_base hb (List.mem_reverse.mp hd)

theorem paddedNumeral_lt (hb : 1 < b) (hd : d ∈ paddedNumeral b width n) : d < b := by
  rcases List.mem_append.mp hd with hzero | hdigit
  · have := List.eq_of_mem_replicate hzero
    omega
  · exact numeral_lt hb hdigit

theorem length_paddedNumeral (hb : 1 < b) (hn : n < b ^ width) :
    (paddedNumeral b width n).length = width := by
  have hlen : (numeral b n).length ≤ width := by
    rw [numeral, List.length_reverse]
    exact (Nat.digits_length_le_iff hb n).mpr hn
  rw [paddedNumeral, List.length_append, List.length_replicate]
  omega

theorem numeral_eq_cons (hn : n ≠ 0) : ∃ d ds, numeral b n = d :: ds ∧ d ≠ 0 := by
  have hne : Nat.digits b n ≠ [] := Nat.digits_ne_nil_iff_ne_zero.mpr hn
  refine ⟨(Nat.digits b n).getLast hne, (Nat.digits b n).dropLast.reverse, ?_,
    Nat.getLast_digit_ne_zero b hn⟩
  rw [numeral]
  conv_lhs => rw [← List.dropLast_append_getLast hne]
  simp

theorem accumulate_lt (hb : 1 < b) (hds : ∀ d ∈ ds, d < b) : accumulate b 0 ds < b ^ ds.length := by
  have hlt : Nat.ofDigits b ds.reverse < b ^ ds.reverse.length := by
    apply Nat.ofDigits_lt_base_pow_length hb
    intro d hd
    exact hds d (List.mem_reverse.mp hd)
  rwa [← accumulate_reverse, List.reverse_reverse, List.length_reverse] at hlt

theorem numeral_accumulate (hb : 1 < b) (hds : ∀ d ∈ ds, d < b) (hhead : ds.head? ≠ some 0) :
    numeral b (accumulate b 0 ds) = ds := by
  have hval : accumulate b 0 ds = Nat.ofDigits b ds.reverse := by
    rw [← accumulate_reverse, List.reverse_reverse]
  have hdigits : Nat.digits b (Nat.ofDigits b ds.reverse) = ds.reverse := by
    apply Nat.digits_ofDigits b hb
    · intro d hd
      exact hds d (List.mem_reverse.mp hd)
    · intro hne hlast
      apply hhead
      rw [List.getLast_reverse] at hlast
      rw [← hlast, List.head?_eq_some_head]
  rw [hval, numeral, hdigits, List.reverse_reverse]

theorem numeral_split (hb : 1 < b) {k : ℕ} (h : n / b ^ k ≠ 0) :
    numeral b n = numeral b (n / b ^ k) ++ paddedNumeral b k (n % b ^ k) := by
  have hmod : n % b ^ k < b ^ k := Nat.mod_lt _ (Nat.pow_pos (by omega))
  have hval : accumulate b 0 (numeral b (n / b ^ k) ++ paddedNumeral b k (n % b ^ k)) = n := by
    rw [accumulate_append, accumulate_numeral, accumulate_eq, length_paddedNumeral hb hmod,
      accumulate_paddedNumeral, Nat.mul_comm, Nat.div_add_mod]
  have hdigits : ∀ d ∈ numeral b (n / b ^ k) ++ paddedNumeral b k (n % b ^ k), d < b := by
    intro d hd
    rcases List.mem_append.mp hd with h | h
    · exact numeral_lt hb h
    · exact paddedNumeral_lt hb h
  have hhead : (numeral b (n / b ^ k) ++ paddedNumeral b k (n % b ^ k)).head? ≠ some 0 := by
    obtain ⟨d, ds, hcons, hd⟩ := numeral_eq_cons (b := b) h
    simpa [hcons] using hd
  have hsame := numeral_accumulate hb hdigits hhead
  rwa [hval] at hsame

theorem accumulate_cons_le_iff {e : ℕ} (hb : 1 < b) (hds : ∀ d ∈ ds, d < b) (hes : ∀ d ∈ es, d < b)
    (hlen : ds.length = es.length) :
    accumulate b 0 (d :: ds) ≤ accumulate b 0 (e :: es) ↔
      d < e ∨ (d = e ∧ accumulate b 0 ds ≤ accumulate b 0 es) := by
  have hd := accumulate_lt hb hds
  have he := accumulate_lt hb hes
  rw [accumulate_cons, accumulate_cons, accumulate_eq b _ ds, accumulate_eq b _ es, zero_mul, zero_add,
    zero_add]
  rw [← hlen] at he ⊢
  generalize b ^ ds.length = p at hd he ⊢
  rcases lt_trichotomy d e with hlt | rfl | hgt
  · have hmul : (d + 1) * p ≤ e * p := Nat.mul_le_mul_right p hlt
    rw [add_mul] at hmul
    constructor
    · exact fun _ => .inl hlt
    · omega
  · simp
  · have hmul : (e + 1) * p ≤ d * p := Nat.mul_le_mul_right p hgt
    rw [add_mul] at hmul
    constructor
    · omega
    · rintro (hlt | ⟨rfl, -⟩)
      · exact absurd hlt (Nat.lt_asymm hgt)
      · exact absurd hgt (lt_irrefl d)

theorem accumulate_set (b v d : ℕ) {i : ℕ} (h : ds[i]? = some 0) :
    accumulate b v (ds.set i d) = accumulate b v ds + d * b ^ (ds.length - 1 - i) := by
  induction ds generalizing v i with
  | nil => cases h
  | cons d₀ ds ih =>
    cases i with
    | zero =>
      cases h
      rw [List.set_cons_zero, accumulate_cons, accumulate_cons, accumulate_eq b (v * b + d),
        accumulate_eq b (v * b + 0), List.length_cons, Nat.add_sub_cancel, Nat.sub_zero]
      ring
    | succ i =>
      rw [List.set_cons_succ, accumulate_cons, accumulate_cons, ih _ h, List.length_cons]
      congr 3
      omega

theorem accumulate_inj (hb : 1 < b) (hds : ∀ d ∈ ds, d < b) (hes : ∀ d ∈ es, d < b)
    (hlen : ds.length = es.length) (h : accumulate b 0 ds = accumulate b 0 es) : ds = es := by
  rw [← List.reverse_reverse ds, ← List.reverse_reverse es, accumulate_reverse,
    accumulate_reverse] at h
  have hrev : ds.reverse = es.reverse := by
    apply Nat.ofDigits_inj_of_len_eq hb (by simpa using hlen)
    · intro d hd
      exact hds d (List.mem_reverse.mp hd)
    · intro d hd
      exact hes d (List.mem_reverse.mp hd)
    · exact h
  exact List.reverse_injective hrev

def digitCount (b v : ℕ) : ℕ := (Nat.digits b v).length

@[simp] theorem digitCount_zero (b : ℕ) : digitCount b 0 = 0 := by simp [digitCount]

theorem digitCount_pos (hb : 1 < b) (hv : v ≠ 0) : digitCount b v = digitCount b (v / b) + 1 := by
  rw [digitCount, Nat.digits_def' hb (Nat.pos_of_ne_zero hv), List.length_cons, digitCount]

theorem digitCount_mono {w : ℕ} (h : v ≤ w) : digitCount b v ≤ digitCount b w :=
  Nat.le_length_digits_le b v w h

theorem length_numeral (b n : ℕ) : (numeral b n).length = digitCount b n := by
  rw [numeral, List.length_reverse, digitCount]

theorem head_numeral_ne (b n : ℕ) : (numeral b n).head? ≠ some 0 := by
  by_cases h0 : n = 0
  · simp [h0]
  · obtain ⟨d, ds, hcons, hd⟩ := numeral_eq_cons (b := b) h0
    simpa [hcons] using hd

/-- An estimate of the digits needed in another base, from a bound on one pair of powers. -/
theorem pow_lt_pow_estimate {a p q : ℕ} (hb : 1 < b) (hq : 0 < q) (h : a ^ q ≤ b ^ p) (n : ℕ) :
    a ^ n < b ^ (n * p / q + 1) := by
  have hexp : n * p < (n * p / q + 1) * q := by
    rw [Nat.mul_comm _ q]
    exact Nat.lt_mul_div_succ _ hq
  have hpow : (a ^ n) ^ q < (b ^ (n * p / q + 1)) ^ q := calc
    (a ^ n) ^ q = (a ^ q) ^ n := pow_right_comm a n q
    _ ≤ (b ^ p) ^ n := Nat.pow_le_pow_left h n
    _ = b ^ (n * p) := by rw [← pow_mul, Nat.mul_comm]
    _ < b ^ ((n * p / q + 1) * q) := Nat.pow_lt_pow_right hb hexp
    _ = (b ^ (n * p / q + 1)) ^ q := pow_mul b _ q
  exact lt_of_pow_lt_pow_left₀ q (Nat.zero_le _) hpow

theorem exists_digits_of_table {α : Type} [DecidableEq α] {table text : List α} {a : α}
    (f : ℕ → α) (hf : f = (table.getD · a)) (htext : ∀ c ∈ text, c ∈ table) :
    ∃ ds : List ℕ, (∀ d ∈ ds, d < table.length) ∧ ds.map f = text := by
  refine ⟨text.map table.idxOf, ?_, ?_⟩
  · intro d hd
    obtain ⟨c, hc, rfl⟩ := List.mem_map.mp hd
    exact List.idxOf_lt_length_of_mem (htext c hc)
  · rw [List.map_map]
    conv_rhs => rw [← List.map_id text]
    apply List.map_congr_left
    intro c hc
    have hlt := List.idxOf_lt_length_of_mem (htext c hc)
    simp [hf, List.getD_eq_getElem?_getD, List.getElem?_eq_getElem hlt]

/-- `n` cells, least significant first, that hold `v`. -/
def buffer (b : ℕ) : ℕ → ℕ → List ℕ
  | 0, _ => []
  | n + 1, v => v % b :: buffer b n (v / b)

theorem buffer_zero (b n : ℕ) : buffer b n 0 = List.replicate n 0 := by
  induction n with
  | zero => rfl
  | succ n ih => rw [buffer, Nat.zero_mod, Nat.zero_div, ih, List.replicate_succ]

theorem take_buffer (hb : 1 < b) (hv : v < b ^ n) :
    (buffer b n v).take (digitCount b v) = Nat.digits b v := by
  induction n generalizing v with
  | zero =>
    obtain rfl : v = 0 := by simpa using hv
    simp [buffer]
  | succ n ih =>
    by_cases h0 : v = 0
    · simp [h0]
    · have hdiv : v / b < b ^ n := Nat.div_lt_of_lt_mul (by rwa [← pow_succ'])
      rw [digitCount_pos hb h0, buffer, List.take_succ_cons, ih hdiv,
        Nat.digits_def' hb (Nat.pos_of_ne_zero h0)]

/-- Multiply the buffer by `m` and add `carry`, over `length` cells and as many more as the
carry needs. Gives the cells, the carry that is left and the number of cells visited. -/
def mulAdd (b m : ℕ) : ℕ → ℕ → List ℕ → List ℕ × ℕ × ℕ
  | _, carry, [] => ([], carry, 0)
  | length, carry, d :: ds =>
    if carry = 0 ∧ length = 0 then (d :: ds, carry, 0)
    else
      let rest := mulAdd b m (length - 1) ((carry + m * d) / b) ds
      ((carry + m * d) % b :: rest.1, rest.2.1, rest.2.2 + 1)

/-- As long as the result fits the buffer, no carry is left and the cells visited are its
digits. -/
theorem mulAdd_buffer {m : ℕ} (hb : 1 < b) (hm : 0 < m) {c : ℕ} (hfit : m * v + c < b ^ n) :
    mulAdd b m (digitCount b v) c (buffer b n v) =
      (buffer b n (m * v + c), 0, digitCount b (m * v + c)) := by
  induction n generalizing v c with
  | zero =>
    obtain ⟨hv, rfl⟩ : m * v = 0 ∧ c = 0 := by
      rw [pow_zero] at hfit
      omega
    obtain rfl : v = 0 := by
      rcases Nat.mul_eq_zero.mp hv with h | h
      · omega
      · exact h
    simp [buffer, mulAdd]
  | succ n ih =>
    by_cases hzero : c = 0 ∧ v = 0
    · obtain ⟨rfl, rfl⟩ := hzero
      simp [buffer, mulAdd]
    · have hsum : m * v + c = c + m * (v % b) + b * (m * (v / b)) := by
        conv_lhs => rw [← Nat.mod_add_div v b]
        ring
      have hne : m * v + c ≠ 0 := by
        intro h
        have hmv : m * v = 0 := by omega
        rcases Nat.mul_eq_zero.mp hmv with h | h <;> omega
      have hmod : (c + m * (v % b)) % b = (m * v + c) % b := by
        rw [hsum, Nat.add_mul_mod_self_left]
      have hdiv : m * (v / b) + (c + m * (v % b)) / b = (m * v + c) / b := by
        rw [hsum, Nat.add_mul_div_left _ _ (by omega), Nat.add_comm]
      have hlt : m * (v / b) + (c + m * (v % b)) / b < b ^ n := by
        rw [hdiv]
        exact Nat.div_lt_of_lt_mul (by rwa [← pow_succ'])
      have hcount : digitCount b v - 1 = digitCount b (v / b) := by
        by_cases hv : v = 0
        · simp [hv]
        · rw [digitCount_pos hb hv, Nat.add_sub_cancel]
      have hgo : ¬(c = 0 ∧ digitCount b v = 0) := by
        rintro ⟨rfl, hcount0⟩
        by_cases hv : v = 0
        · exact hzero ⟨rfl, hv⟩
        · rw [digitCount_pos hb hv] at hcount0
          omega
      simp [buffer, mulAdd, if_neg hgo, hcount, ih hlt, hmod, hdiv, digitCount_pos hb hne]

end Radix
