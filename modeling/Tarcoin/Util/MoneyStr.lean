import Mathlib.Data.List.DropRight
import Mathlib.Data.List.TakeWhile
import Mathlib.Algebra.Order.Field.Rat
import Tarcoin.Rpc.Amount

/-! `FormatMoney` and `ParseMoney` of `util/moneystr.cpp`. A signed operation that leaves `int64_t`
is a stop of its own. -/
namespace Tarcoin
open GuardedSum Radix

/-! ## Writing -/

/-- How many zeros the loop of `FormatMoney` counts from index `i` down. A formatted amount has
ten characters at least, so the indices 0 and 1 are not reached. -/
def excessZeros (str : Text) : ℕ → ℕ
  | i + 2 =>
    if str[i + 2]? = some '0' ∧ (str[i]?).any Char.isDigit then excessZeros str (i + 1) + 1
    else 0
  | _ => 0

def formatMoney (n : Amount) : Text :=
  let quotient := if n < 0 then -(n.tdiv coinUnit) else n.tdiv coinUnit
  let remainder := if n < 0 then -(n.tmod coinUnit) else n.tmod coinUnit
  let str := formatInt 0 quotient ++ '.' :: formatInt 8 remainder
  let nTrim := excessZeros str (str.length - 1)
  let str := str.take (str.length - nTrim)
  if n < 0 then '-' :: str else str

/-! ## Reading -/

/-- How `ParseMoney` ends without an amount: it returns `nullopt`, or a signed operation
overflows. -/
inductive ParseFailure
  | nullopt
  | overflow
  deriving DecidableEq, Repr

/-- The result of an operation on `int64_t`. -/
def int64 (x : ℤ) : Except ParseFailure ℤ := if Fits 64 x then .ok x else .error .overflow

/-- The white space in the default pattern of `TrimString` is that of `IsSpace`. -/
def trimString (str : Text) : Text := (str.dropWhile isSpace).rdropWhile isSpace

def containsNoNUL (str : Text) : Bool := str.all (· ≠ '\x00')

def digitsValue (t : Text) : ℕ := accumulate 10 0 (t.map fun c => c.toNat - '0'.toNat)

inductive FromChars
  | ok (result : ℤ)
  | invalidArgument
  | resultOutOfRange
  deriving DecidableEq, Repr

/-- The conversion of the digits `std::from_chars` finds after the sign. -/
def fromDigits (negative : Bool) (digits : Text) : FromChars :=
  let result : ℤ := if negative then -digitsValue digits else digitsValue digits
  if digits = [] then .invalidArgument
  else if Fits 64 result then .ok result
  else .resultOutOfRange

def fromChars (s : Text) : FromChars :=
  if s.head? = some '-' then fromDigits true (s.tail.takeWhile Char.isDigit)
  else fromDigits false (s.takeWhile Char.isDigit)

/-- What follows the `+` in `LocaleIndependentAtoi<int64_t>`. -/
def atoiUnsigned (s : Text) : ℤ :=
  match fromChars s with
  | .resultOutOfRange => if s.head? = some '-' then -2 ^ 63 else 2 ^ 63 - 1
  | .invalidArgument => 0
  | .ok result => result

def localeIndependentAtoi (str : Text) : ℤ :=
  let s := trimString str
  if s.head? = some '+' then
    if s.tail.head? = some '-' then 0 else atoiUnsigned s.tail
  else atoiUnsigned s

/-- The inner loop: digits after the point, as long as the multiplier is positive. -/
def parseUnits (nMult nUnits : ℤ) : Text → Except ParseFailure (ℤ × Text)
  | [] => .ok (nUnits, [])
  | p :: rest =>
    if p.isDigit ∧ nMult > 0 then do
      let product ← int64 (nMult * ((p.toNat : ℤ) - ('0'.toNat : ℤ)))
      let nUnits ← int64 (nUnits + product)
      parseUnits (nMult.tdiv 10) nUnits rest
    else .ok (nUnits, p :: rest)

/-- The outer loop, up to the `break` after the point: gives `strWhole`, `nUnits` and the text
at `p`. -/
def parseWhole (strWhole : Text) : Text → Except ParseFailure (Text × ℤ × Text)
  | [] => .ok (strWhole, 0, [])
  | p :: rest =>
    if p = '.' then do
      let (nUnits, rest) ← parseUnits (coinUnit.tdiv 10) 0 rest
      .ok (strWhole, nUnits, rest)
    else if isSpace p then .error .nullopt
    else if ¬ p.isDigit then .error .nullopt
    else parseWhole (strWhole ++ [p]) rest

def assembleMoney (strWhole : Text) (nUnits : ℤ) (rest : Text) : Except ParseFailure Amount :=
  if rest ≠ [] then .error .nullopt
  else if strWhole.length > 10 then .error .nullopt
  else if nUnits < 0 ∨ nUnits > coinUnit then .error .nullopt
  else do
    let nWhole := localeIndependentAtoi strWhole
    let product ← int64 (nWhole * coinUnit)
    let value ← int64 (product + nUnits)
    if MoneyRange value then .ok value else .error .nullopt

def parseMoney (moneyString : Text) : Except ParseFailure Amount :=
  if ¬ containsNoNUL moneyString then .error .nullopt
  else
    let str := trimString moneyString
    if str = [] then .error .nullopt
    else do
      let (strWhole, nUnits, rest) ← parseWhole [] str
      assembleMoney strWhole nUnits rest

/-! ## The number a text writes -/

def wholePart (t : Text) : Text := t.takeWhile (· ≠ '.')

def fractionPart (t : Text) : Text := (t.dropWhile (· ≠ '.')).tail

/-- The decimal number a text writes: digits, or digits on the two sides of a point. A side
without digits counts as zero. -/
def decimalValue (t : Text) : Option ℚ :=
  if (wholePart t).all Char.isDigit ∧ (fractionPart t).all Char.isDigit then
    some (digitsValue (wholePart t) +
      digitsValue (fractionPart t) / 10 ^ (fractionPart t).length)
  else none

/-! ## Digits -/

abbrev OnlyDigits (t : Text) : Prop := ∀ c ∈ t, c.isDigit = true

instance (t : Text) : Decidable (OnlyDigits t) := List.decidableBAll _ t

theorem ne_of_isDigit {c d : Char} (h : c.isDigit = true) (hd : d.isDigit = false) : c ≠ d := by
  rintro rfl
  simp [h] at hd

theorem isSpace_eq_false {c : Char} (h : c.isDigit = true) : isSpace c = false := by
  have hne := @ne_of_isDigit c
  simp only [isSpace, decide_eq_false_iff_not, not_or]
  exact ⟨hne h rfl, hne h rfl, hne h rfl, hne h rfl, hne h rfl, hne h rfl⟩

theorem digit_range {c : Char} (h : c.isDigit = true) : 48 ≤ c.toNat ∧ c.toNat ≤ 57 := by
  simpa [Char.isDigit, UInt32.le_iff_toNat_le] using h

variable {t : Text}

@[simp] theorem digitsValue_nil : digitsValue [] = 0 := rfl

theorem digitsValue_append (t u : Text) :
    digitsValue (t ++ u) = digitsValue t * 10 ^ u.length + digitsValue u := by
  simp only [digitsValue, List.map_append, accumulate_append]
  rw [accumulate_eq, List.length_map]

theorem digitsValue_cons (c : Char) (t : Text) :
    digitsValue (c :: t) = (c.toNat - '0'.toNat) * 10 ^ t.length + digitsValue t := by
  simpa [digitsValue] using digitsValue_append [c] t

theorem digitsValue_lt (h : OnlyDigits t) : digitsValue t < 10 ^ t.length := by
  have hlt : ∀ d ∈ t.map fun c => c.toNat - '0'.toNat, d < 10 := by
    intro d hd
    obtain ⟨c, hc, rfl⟩ := List.mem_map.mp hd
    have := digit_range (h c hc)
    simp only [Char.reduceToNat]
    omega
  simpa [digitsValue] using accumulate_lt (by norm_num) hlt

theorem digitsValue_lt_of_length_le (h : OnlyDigits t) (hlen : t.length ≤ 10) :
    digitsValue t < 10 ^ 10 :=
  (digitsValue_lt h).trans_le (Nat.pow_le_pow_right (by norm_num) hlen)

/-- The digits the inner loop reads when the multiplier leaves room for `m` of them. -/
def leadingDigits (m : ℕ) (t : Text) : Text := (t.takeWhile Char.isDigit).take m

theorem drop_leadingDigits_eq_nil_iff {m : ℕ} :
    t.drop (leadingDigits m t).length = [] ↔ OnlyDigits t ∧ t.length ≤ m := by
  have hle : (t.takeWhile Char.isDigit).length ≤ t.length := (List.takeWhile_sublist _).length_le
  rw [List.drop_eq_nil_iff, leadingDigits, List.length_take]
  constructor
  · intro h
    have hall : t.takeWhile Char.isDigit = t :=
      (List.takeWhile_sublist _).eq_of_length (by omega)
    exact ⟨List.takeWhile_eq_self_iff.mp hall, by omega⟩
  · intro ⟨hall, hlen⟩
    rw [List.takeWhile_eq_self_iff.mpr hall]
    omega

theorem int64_ok {x : ℤ} (hlow : -2 ^ 63 ≤ x) (hhigh : x < 2 ^ 63) : int64 x = .ok x :=
  if_pos ⟨hlow, hhigh⟩

/-! ## The loops of `ParseMoney` -/

/-- The inner loop adds the value of the digits it reads, in units of the last place, and
never overflows. -/
theorem parseUnits_eq (t : Text) (m : ℕ) (u : ℤ) (hu : 0 ≤ u) (hm : u + 10 ^ m ≤ 10 ^ 8) :
    parseUnits ((10 ^ m : ℤ).tdiv 10) u t =
      .ok (u + digitsValue (leadingDigits m t) * 10 ^ (m - (leadingDigits m t).length),
        t.drop (leadingDigits m t).length) := by
  induction t generalizing m u with
  | nil => simp [parseUnits, leadingDigits]
  | cons p rest ih =>
    cases m with
    | zero => simp [parseUnits, leadingDigits]
    | succ m =>
      have hmult : ((10 : ℤ) ^ (m + 1)).tdiv 10 = 10 ^ m := by
        rw [pow_succ, Int.mul_tdiv_cancel _ (by norm_num)]
      have hpos : (0 : ℤ) < 10 ^ m := by positivity
      simp only [parseUnits, hmult]
      by_cases hp : p.isDigit = true
      · obtain ⟨hlow, hhigh⟩ := digit_range hp
        have hsucc : (10 : ℤ) ^ (m + 1) = 10 * 10 ^ m := by ring
        obtain ⟨d, hd⟩ : ∃ d : ℕ, p.toNat = 48 + d := ⟨p.toNat - 48, by omega⟩
        have hdigit : ((p.toNat : ℤ) - ('0'.toNat : ℤ)) = d := by simp [hd]
        have hproduct : (10 : ℤ) ^ m * d ≤ 9 * 10 ^ m := by nlinarith [show (d : ℤ) ≤ 9 by omega]
        have hnonneg : 0 ≤ (10 : ℤ) ^ m * d := by positivity
        have hlead : leadingDigits (m + 1) (p :: rest) = p :: leadingDigits m rest := by
          simp [leadingDigits, hp]
        have hle : (leadingDigits m rest).length ≤ m := by simp [leadingDigits]
        rw [if_pos ⟨hp, hpos⟩, hdigit, int64_ok (by linarith) (by linarith)]
        change (int64 (u + 10 ^ m * d)).bind _ = _
        rw [int64_ok (by linarith) (by linarith)]
        change parseUnits ((10 ^ m : ℤ).tdiv 10) (u + 10 ^ m * d) rest = _
        rw [ih m (u + 10 ^ m * d) (by linarith) (by linarith), hlead, digitsValue_cons]
        simp only [List.length_cons, List.drop_succ_cons, Nat.add_sub_add_right, hd,
          Char.reduceToNat, Nat.add_sub_cancel_left]
        have hsplit : (10 : ℤ) ^ m =
            10 ^ (leadingDigits m rest).length * 10 ^ (m - (leadingDigits m rest).length) := by
          rw [← pow_add, Nat.add_sub_cancel' hle]
        congr 2
        push_cast
        nth_rewrite 1 [hsplit]
        ring
      · simp [hp, leadingDigits]

theorem parseWhole_eq (t acc : Text) :
    parseWhole acc t =
      if OnlyDigits (wholePart t) then
        .ok (acc ++ wholePart t,
          digitsValue (leadingDigits 8 (fractionPart t)) *
            10 ^ (8 - (leadingDigits 8 (fractionPart t)).length),
          (fractionPart t).drop (leadingDigits 8 (fractionPart t)).length)
      else .error .nullopt := by
  induction t generalizing acc with
  | nil => simp [parseWhole, wholePart, fractionPart, leadingDigits]
  | cons p rest ih =>
    unfold parseWhole
    by_cases hpoint : p = '.'
    · have hunits := parseUnits_eq rest 8 0 le_rfl (by norm_num)
      rw [if_pos hpoint]
      change (parseUnits ((10 ^ 8 : ℤ).tdiv 10) 0 rest).bind _ = _
      rw [hunits]
      simp [hpoint, wholePart, fractionPart, Except.bind]
    · have hwhole : wholePart (p :: rest) = p :: wholePart rest := by simp [wholePart, hpoint]
      have hfraction : fractionPart (p :: rest) = fractionPart rest := by
        simp [fractionPart, hpoint]
      rw [if_neg hpoint, hwhole, hfraction]
      by_cases hp : p.isDigit = true
      · simp [isSpace_eq_false hp, hp, ih, OnlyDigits]
      · simp [hp, OnlyDigits]

/-! ## What is accepted -/

/-- The trimmed texts `ParseMoney` accepts: at most ten digits, and at most eight more after a
point. -/
structure MoneyText (str : Text) : Prop where
  nonempty : str ≠ []
  whole : OnlyDigits (wholePart str)
  fraction : OnlyDigits (fractionPart str)
  wholeLength : (wholePart str).length ≤ 10
  fractionLength : (fractionPart str).length ≤ 8

def moneyValue (str : Text) : ℕ :=
  digitsValue (wholePart str) * 10 ^ 8 +
    digitsValue (fractionPart str) * 10 ^ (8 - (fractionPart str).length)

theorem trimString_of_forall (h : ∀ c ∈ t, isSpace c = false) : trimString t = t := by
  have hdrop : t.dropWhile isSpace = t := by
    cases t with
    | nil => rfl
    | cons c rest => simp [h c List.mem_cons_self]
  have hrdrop : t.rdropWhile isSpace = t := by
    rw [List.rdropWhile_eq_self_iff]
    intro hne
    simp [h _ (List.getLast_mem hne)]
  rw [trimString, hdrop, hrdrop]

theorem localeIndependentAtoi_digits (h : OnlyDigits t) (hlen : t.length ≤ 10) :
    localeIndependentAtoi t = digitsValue t := by
  have htrim : trimString t = t := trimString_of_forall fun c hc => isSpace_eq_false (h c hc)
  have hhead : ∀ c, t.head? = some c → c.isDigit = true := fun c hc => h c (List.mem_of_mem_head? hc)
  have hplus : t.head? ≠ some '+' := fun hc => absurd (hhead _ hc) (by decide)
  have hminus : t.head? ≠ some '-' := fun hc => absurd (hhead _ hc) (by decide)
  have hlt := digitsValue_lt_of_length_le h hlen
  have hfits : Fits 64 (digitsValue t : ℤ) := ⟨by simp, by simp; omega⟩
  have hread : fromChars t = fromDigits false t := by
    rw [fromChars, if_neg hminus, List.takeWhile_eq_self_iff.mpr h]
  simp only [localeIndependentAtoi, htrim, if_neg hplus, atoiUnsigned, hread, fromDigits]
  by_cases hnil : t = []
  · simp [hnil]
  · simp [hnil, hfits]

theorem MoneyText.units_lt (h : MoneyText t) :
    digitsValue (fractionPart t) * 10 ^ (8 - (fractionPart t).length) < 10 ^ 8 := by
  calc digitsValue (fractionPart t) * 10 ^ (8 - (fractionPart t).length)
      < 10 ^ (fractionPart t).length * 10 ^ (8 - (fractionPart t).length) :=
        Nat.mul_lt_mul_of_pos_right (digitsValue_lt h.fraction) (by positivity)
    _ = 10 ^ 8 := by rw [← pow_add, Nat.add_sub_cancel' h.fractionLength]

theorem MoneyText.moneyValue_lt (h : MoneyText t) : moneyValue t < 10 ^ 18 := by
  have hwhole := digitsValue_lt_of_length_le h.whole h.wholeLength
  have hunits := h.units_lt
  unfold moneyValue
  omega

theorem moneyRange_iff {x : ℤ} : MoneyRange x ↔ 0 ≤ x ∧ x ≤ 5000000000000000000 := Iff.rfl

theorem assembleMoney_eq {whole : Text} {units : ℕ} (hwhole : OnlyDigits whole)
    (hlen : whole.length ≤ 10) (hunits : units < 10 ^ 8) :
    assembleMoney whole units [] = .ok ((digitsValue whole * 10 ^ 8 + units : ℕ) : ℤ) := by
  have hlt := digitsValue_lt_of_length_le hwhole hlen
  have hcoin : @Eq ℤ coinUnit 100000000 := rfl
  obtain ⟨product, hproduct⟩ : ∃ product : ℤ, product = digitsValue whole * coinUnit := ⟨_, rfl⟩
  have hvalue : product = digitsValue whole * 100000000 := hproduct
  have hguard : ¬ ((units : ℤ) < 0 ∨ (units : ℤ) > coinUnit) := by omega
  have hrange : MoneyRange (product + units) := moneyRange_iff.mpr (by omega)
  simp only [assembleMoney, ne_eq, not_true_eq_false, if_false, not_lt.mpr hlen, gt_iff_lt,
    localeIndependentAtoi_digits hwhole hlen, ← hproduct]
  rw [if_neg hguard, int64_ok (by omega) (by omega)]
  change (int64 (product + units)).bind _ = _
  rw [int64_ok (by omega) (by omega)]
  change (if MoneyRange (product + units) then _ else _) = _
  rw [if_pos hrange, hvalue]
  norm_num

variable {s : Text}

theorem parseMoney_of_moneyText (hnul : containsNoNUL s = true) (h : MoneyText (trimString s)) :
    parseMoney s = .ok (moneyValue (trimString s) : ℤ) := by
  have hdrop := drop_leadingDigits_eq_nil_iff.mpr ⟨h.fraction, h.fractionLength⟩
  have hlead : leadingDigits 8 (fractionPart (trimString s)) = fractionPart (trimString s) := by
    rw [leadingDigits, List.takeWhile_eq_self_iff.mpr h.fraction,
      List.take_of_length_le h.fractionLength]
  simp only [parseMoney, hnul, not_true_eq_false, if_false, if_neg h.nonempty, parseWhole_eq,
    if_pos h.whole, List.nil_append, hdrop, bind, Except.bind]
  rw [hlead, moneyValue, ← assembleMoney_eq h.whole h.wholeLength h.units_lt]
  rfl

theorem parseMoney_of_not_moneyText (h : containsNoNUL s = true → ¬ MoneyText (trimString s)) :
    parseMoney s = .error .nullopt := by
  unfold parseMoney
  by_cases hnul : containsNoNUL s = true
  · by_cases hempty : trimString s = []
    · simp [hnul, hempty]
    · simp only [hnul, not_true_eq_false, if_false, if_neg hempty, parseWhole_eq]
      by_cases hwhole : OnlyDigits (wholePart (trimString s))
      · simp only [if_pos hwhole, List.nil_append, bind, Except.bind, assembleMoney]
        by_cases hdrop : (fractionPart (trimString s)).drop
            (leadingDigits 8 (fractionPart (trimString s))).length = []
        · obtain ⟨hfraction, hlength⟩ := drop_leadingDigits_eq_nil_iff.mp hdrop
          have hlong : (wholePart (trimString s)).length > 10 := by
            by_contra hshort
            exact h hnul ⟨hempty, hwhole, hfraction, not_lt.mp hshort, hlength⟩
          simp [hdrop, hlong]
        · simp [hdrop]
      · simp [if_neg hwhole, bind, Except.bind]
  · simp [hnul]

/-! ## What is written -/

def Writes (t : Text) (n : ℕ) : Prop := OnlyDigits t ∧ digitsValue t = n

theorem writes_map_digitChar {ds : List ℕ} (hds : ∀ d ∈ ds, d < 10) :
    Writes (ds.map Nat.digitChar) (accumulate 10 0 ds) := by
  have hmap : (ds.map Nat.digitChar).map (fun c => c.toNat - '0'.toNat) = ds.map id := by
    rw [List.map_map]
    apply List.map_congr_left
    intro d hd
    have hval := (digitChar_facts d (hds d hd)).2.1
    simp only [Function.comp_apply, id]
    omega
  constructor
  · intro c hc
    obtain ⟨d, hd, rfl⟩ := List.mem_map.mp hc
    exact (digitChar_facts d (hds d hd)).1
  · rw [digitsValue, hmap, List.map_id]

theorem writes_formatInt_zero (q : ℕ) : Writes (formatInt 0 q) q := by
  rw [formatInt_zero]
  split_ifs with h0
  · simp [h0, Writes, OnlyDigits, digitsValue]
  · have hlt : ∀ d ∈ numeral 10 q, d < 10 := fun d => numeral_lt (by norm_num)
    simpa only [accumulate_numeral] using writes_map_digitChar hlt

theorem length_formatInt_zero_le_iff (q : ℕ) : (formatInt 0 q).length ≤ 10 ↔ q < 10 ^ 10 := by
  rw [formatInt_zero]
  split_ifs with h0
  · simp [h0]
  · rw [List.length_map, numeral, List.length_reverse, Nat.digits_length_le_iff (by norm_num)]

theorem writes_formatInt_eight (r : ℕ) : Writes (formatInt 8 r) r := by
  have hlt : ∀ d ∈ paddedNumeral 10 8 r, d < 10 := fun d => paddedNumeral_lt (by norm_num)
  simpa only [formatInt_eight, accumulate_paddedNumeral] using writes_map_digitChar hlt

/-- The trimming loop at the place `p + 1` after the point: it keeps two places, and what it
counts are zeros. -/
theorem excessZeros_spec (whole fraction : Text) (p : ℕ) :
    excessZeros (whole ++ '.' :: fraction) (whole.length + p + 2) ≤ p ∧
      ∀ i, p + 1 < i + excessZeros (whole ++ '.' :: fraction) (whole.length + p + 2) →
        i ≤ p + 1 → fraction[i]? = some '0' := by
  -- the character two places back is the point exactly at the first place
  have hplace : ∀ i, (whole ++ '.' :: fraction)[whole.length + i + 1]? = fraction[i]? := by
    intro i
    rw [List.getElem?_append_right (by omega)]
    simp [show whole.length + i + 1 - whole.length = i + 1 by omega]
  induction p with
  | zero =>
    have hpoint : (whole ++ '.' :: fraction)[whole.length]? = some '.' := by simp
    have hzero : excessZeros (whole ++ '.' :: fraction) (whole.length + 0 + 2) = 0 := by
      rw [excessZeros, hpoint, if_neg (by simp)]
    rw [hzero]
    exact ⟨le_rfl, fun i hlow hhigh => by omega⟩
  | succ p ih =>
    obtain ⟨hle, hzeros⟩ := ih
    have hstep : excessZeros (whole ++ '.' :: fraction) (whole.length + (p + 1) + 2) =
        if fraction[p + 2]? = some '0' ∧ (fraction[p]?).any Char.isDigit then
          excessZeros (whole ++ '.' :: fraction) (whole.length + p + 2) + 1 else 0 := by
      rw [← hplace (p + 2), ← hplace p]
      rfl
    rw [hstep]
    split_ifs with hchar
    · refine ⟨by omega, fun i hlow hhigh => ?_⟩
      by_cases hi : i = p + 2
      · rw [hi]
        exact hchar.1
      · exact hzeros i (by omega) (by omega)
    · exact ⟨by omega, fun i hlow hhigh => by omega⟩

theorem digitsValue_zeros (h : ∀ c ∈ t, c = '0') : digitsValue t = 0 := by
  rw [List.eq_replicate_of_mem h]
  induction t.length with
  | zero => rfl
  | succ k ih => simpa [List.replicate_succ, digitsValue_cons] using ih

theorem digitsValue_take {k : ℕ} (hlen : t.length = 8) (hk : k ≤ 8)
    (h : ∀ c ∈ t.drop k, c = '0') :
    digitsValue (t.take k) * 10 ^ (8 - (t.take k).length) = digitsValue t := by
  have hsplit := digitsValue_append (t.take k) (t.drop k)
  rw [List.take_append_drop, digitsValue_zeros h, List.length_drop, hlen] at hsplit
  rw [List.length_take, hlen, min_eq_left hk, hsplit, add_zero]

/-- An amount that is not negative is written as its quotient, the point and at most eight more
digits, worth its remainder. -/
theorem formatMoney_eq (n : ℕ) : ∃ fraction,
    formatMoney n = formatInt 0 (n / 100000000 : ℕ) ++ '.' :: fraction ∧ OnlyDigits fraction ∧
      fraction.length ≤ 8 ∧
      digitsValue fraction * 10 ^ (8 - fraction.length) = n % 100000000 := by
  set whole := formatInt 0 (n / 100000000 : ℕ) with hwhole
  set fraction := formatInt 8 (n % 100000000 : ℕ) with hfraction
  obtain ⟨hdigits, hr⟩ := writes_formatInt_eight (n % 100000000)
  have hlen : fraction.length = 8 := by
    rw [hfraction, formatInt_eight, List.length_map, length_paddedNumeral (by norm_num) (by omega)]
  obtain ⟨hle, hzeros⟩ := excessZeros_spec whole fraction 6
  set nTrim := excessZeros (whole ++ '.' :: fraction) (whole.length + 6 + 2) with hTrim
  have hformat : formatMoney n = (whole ++ '.' :: fraction).take
      ((whole ++ '.' :: fraction).length - nTrim) := by
    have hindex : (whole ++ '.' :: fraction).length - 1 = whole.length + 6 + 2 := by
      simp [hlen]
    rw [hTrim, ← hindex]
    rfl
  refine ⟨fraction.take (8 - nTrim), ?_, fun c hc => hdigits c (List.mem_of_mem_take hc), ?_, ?_⟩
  · have htake : (whole ++ '.' :: fraction).length - nTrim = whole.length + (8 - nTrim + 1) := by
      simp only [List.length_append, List.length_cons, hlen]
      omega
    rw [hformat, htake, List.take_length_add_append, List.take_succ_cons]
  · rw [List.length_take]
    omega
  · rw [digitsValue_take hlen (Nat.sub_le 8 nTrim), hr]
    intro c hc
    obtain ⟨j, hj, rfl⟩ := List.mem_iff_getElem.mp hc
    rw [List.length_drop] at hj
    have hzero := hzeros (8 - nTrim + j) (by omega) (by omega)
    rw [List.getElem_drop]
    exact Option.some.inj ((List.getElem?_eq_getElem (by omega)).symm.trans hzero)

/-! ## The round trip -/

section Pointed

variable {whole fraction : Text} (hwhole : OnlyDigits whole) (hfraction : OnlyDigits fraction)
include hwhole

theorem parts_pointed : wholePart (whole ++ '.' :: fraction) = whole ∧
    fractionPart (whole ++ '.' :: fraction) = fraction := by
  have hne : ∀ c ∈ whole, decide (c ≠ '.') = true := fun c hc => by
    simp [ne_of_isDigit (hwhole c hc) (show '.'.isDigit = false from rfl)]
  rw [wholePart, fractionPart, List.takeWhile_append_of_pos hne, List.dropWhile_append_of_pos hne]
  simp

include hfraction

theorem plain_pointed : trimString (whole ++ '.' :: fraction) = whole ++ '.' :: fraction ∧
    containsNoNUL (whole ++ '.' :: fraction) = true := by
  have hplain : ∀ c ∈ whole ++ '.' :: fraction, isSpace c = false ∧ c ≠ '\x00' := by
    simp only [List.mem_append, List.mem_cons]
    rintro c (hc | rfl | hc)
    · exact ⟨isSpace_eq_false (hwhole c hc), ne_of_isDigit (hwhole c hc) rfl⟩
    · decide
    · exact ⟨isSpace_eq_false (hfraction c hc), ne_of_isDigit (hfraction c hc) rfl⟩
  refine ⟨trimString_of_forall fun c hc => (hplain c hc).1, ?_⟩
  rw [containsNoNUL, List.all_eq_true]
  exact fun c hc => decide_eq_true (hplain c hc).2

theorem moneyText_pointed_iff (hlen : fraction.length ≤ 8) :
    MoneyText (whole ++ '.' :: fraction) ↔ whole.length ≤ 10 := by
  obtain ⟨hwholePart, hfractionPart⟩ := @parts_pointed _ fraction hwhole
  constructor
  · intro h
    simpa only [hwholePart] using h.wholeLength
  · intro hlength
    constructor
    · simp
    · rwa [hwholePart]
    · rwa [hfractionPart]
    · rwa [hwholePart]
    · rwa [hfractionPart]

end Pointed

theorem parseMoney_formatMoney (n : ℕ) :
    parseMoney (formatMoney n) = if n < 10 ^ 18 then .ok (n : ℤ) else .error .nullopt := by
  obtain ⟨fraction, hformat, hfraction, hshort, hunits⟩ := formatMoney_eq n
  obtain ⟨hwhole, hq⟩ := writes_formatInt_zero (n / 100000000)
  obtain ⟨htrim, hnul⟩ := plain_pointed hwhole hfraction
  obtain ⟨hwholePart, hfractionPart⟩ := @parts_pointed _ fraction hwhole
  rw [← hformat] at htrim hnul hwholePart hfractionPart
  have hiff : MoneyText (formatMoney n) ↔ n < 10 ^ 18 := by
    rw [hformat, moneyText_pointed_iff hwhole hfraction hshort, length_formatInt_zero_le_iff]
    omega
  by_cases hn : n < 10 ^ 18
  · have hvalue : moneyValue (formatMoney n) = n := by
      rw [moneyValue, hwholePart, hfractionPart, hq]
      omega
    rw [parseMoney_of_moneyText hnul (htrim.symm ▸ hiff.mpr hn), htrim, hvalue, if_pos hn]
  · rw [parseMoney_of_not_moneyText fun _ => htrim.symm ▸ mt hiff.mp hn, if_neg hn]

theorem MoneyText.decimalValue_eq (h : MoneyText t) :
    decimalValue t = some ((moneyValue t : ℚ) / coinUnit) := by
  have hpow : (10 : ℚ) ^ 8 = 10 ^ (fractionPart t).length * 10 ^ (8 - (fractionPart t).length) := by
    rw [← pow_add, Nat.add_sub_cancel' h.fractionLength]
  have hcoin : ((coinUnit : ℤ) : ℚ) = 10 ^ 8 := by norm_num [coinUnit]
  rw [decimalValue, if_pos ⟨List.all_eq_true.mpr h.whole, List.all_eq_true.mpr h.fraction⟩, hcoin,
    moneyValue]
  rw [Nat.cast_add, Nat.cast_mul, Nat.cast_mul, Nat.cast_pow, Nat.cast_pow, Nat.cast_ofNat,
    add_div, mul_div_cancel_right₀ _ (by norm_num), hpow,
    mul_div_mul_right _ _ (by positivity)]

/-- Reading back what was written gives an amount of the money range exactly when the amount is
below ten thousand million coins: the guard on the digits before the point admits ten, and the
limit has eleven. What is read from any text is in range and is the number the trimmed text
writes, and no operation overflows. -/
theorem parseMoney_roundTrip {n : Amount} (hn : MoneyRange n) :
    (parseMoney (formatMoney n) = .ok n ↔ n < 10 ^ 10 * coinUnit) ∧
      ∀ s, parseMoney s ≠ .error .overflow ∧
        ∀ m, parseMoney s = .ok m →
          MoneyRange m ∧ ∃ v, decimalValue (trimString s) = some v ∧ (m : ℚ) = v * coinUnit := by
  constructor
  · obtain ⟨k, rfl⟩ := Int.eq_ofNat_of_zero_le hn.1
    rw [parseMoney_formatMoney]
    have hlimit : ((k : ℤ) < 10 ^ 10 * coinUnit) ↔ k < 10 ^ 18 := by
      simp only [coinUnit]
      omega
    rw [hlimit]
    split_ifs with hk
    · exact iff_of_true rfl hk
    · exact iff_of_false (by simp) hk
  · intro s
    by_cases hs : containsNoNUL s = true ∧ MoneyText (trimString s)
    · rw [parseMoney_of_moneyText hs.1 hs.2]
      refine ⟨by simp, fun m hm => ?_⟩
      cases hm
      have hlt := hs.2.moneyValue_lt
      refine ⟨moneyRange_iff.mpr (by omega), _, hs.2.decimalValue_eq, ?_⟩
      have hcoin : ((coinUnit : ℤ) : ℚ) ≠ 0 := by norm_num [coinUnit]
      rw [div_mul_cancel₀ _ hcoin, Int.cast_natCast]
    · rw [parseMoney_of_not_moneyText (not_and.mp hs)]
      simp

theorem parseMoney_roundTrip_one : parseMoney (formatMoney 1) = .ok 1 :=
  (parseMoney_roundTrip (n := 1) (by decide)).1.mpr (by decide)

/-- The limit itself is not: `50000000000.00` has eleven digits before the point. -/
theorem parseMoney_formatMoney_maxMoney :
    MoneyRange maxMoney ∧ formatMoney maxMoney = "50000000000.00".toList ∧
      parseMoney (formatMoney maxMoney) = .error .nullopt := by
  have hcast : maxMoney = ((5000000000000000000 : ℕ) : ℤ) := rfl
  refine ⟨by decide, by decide, ?_⟩
  rw [hcast, parseMoney_formatMoney, if_neg (by norm_num)]

end Tarcoin
