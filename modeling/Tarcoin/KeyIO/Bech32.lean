import Tarcoin.Foundations.ShiftRegister
import Tarcoin.Primitives.Transaction
import Tarcoin.Util.FixedPoint

/-! `Encode` and `Decode` of `bech32.cpp`, on five-bit values with a checksum from a shift
register. -/
namespace Tarcoin
open Radix ShiftRegister

def charset : Text := [
    'q', 'p', 'z', 'r', 'y', '9', 'x', '8', 'g', 'f', '2', 't', 'v', 'd', 'w', '0',
    's', '3', 'j', 'n', '5', '4', 'k', 'h', 'c', 'e', '6', 'm', 'u', 'a', '7', 'l']

/-- The value of each character, in either case, with `-1` for the others. -/
def charsetRev : List ℤ := [
    -1, -1, -1, -1, -1, -1, -1, -1, -1, -1, -1, -1, -1, -1, -1, -1,
    -1, -1, -1, -1, -1, -1, -1, -1, -1, -1, -1, -1, -1, -1, -1, -1,
    -1, -1, -1, -1, -1, -1, -1, -1, -1, -1, -1, -1, -1, -1, -1, -1,
    15, -1, 10, 17, 21, 20, 26, 30, 7, 5, -1, -1, -1, -1, -1, -1,
    -1, 29, -1, 24, 13, 25, 9, 8, 23, -1, 18, 22, 31, 27, 19, -1,
    1, 0, 3, 16, 11, 28, 12, 14, 6, 4, 2, -1, -1, -1, -1, -1,
    -1, 29, -1, 24, 13, 25, 9, 8, 23, -1, 18, 22, 31, 27, 19, -1,
    1, 0, 3, 16, 11, 28, 12, 14, 6, 4, 2, -1, -1, -1, -1, -1]

inductive Encoding
  | bech32
  | bech32m
  deriving DecidableEq, Repr

def encodingConstant : Encoding → ℕ
  | .bech32 => 1
  | .bech32m => 0x2bc830a3

def checksumSize : ℕ := 6

def charLimit : ℕ := 90

/-- The multiples of the generator that the bits of the leading value select. -/
def polyGenerator (c0 : ℕ) : ℕ :=
  (if c0.testBit 0 then 0x3b6a57b2 else 0) ^^^
  (if c0.testBit 1 then 0x26508e6d else 0) ^^^
  (if c0.testBit 2 then 0x1ea119fa else 0) ^^^
  (if c0.testBit 3 then 0x3d4233dd else 0) ^^^
  (if c0.testBit 4 then 0x2a1462b3 else 0)

/-- One value more: the leading value moves out of the register and is reduced. -/
def polyStep (c v : ℕ) : ℕ :=
  (((c &&& 0x1ffffff) <<< 5) ^^^ v) ^^^ polyGenerator (c >>> 25)

def polyMod (v : List ℕ) : ℕ := v.foldl polyStep 1

def lowerCase (c : Char) : Char :=
  if 'A' ≤ c ∧ c ≤ 'Z' then Char.ofNat (c.toNat - 'A'.toNat + 'a'.toNat) else c

/-- The indices of invalid characters, from index `i` on and given the cases seen so far. -/
def checkCharactersFrom : ℕ → Bool → Bool → Text → List ℕ
  | _, _, _, [] => []
  | i, lower, upper, c :: str =>
    if 'a' ≤ c ∧ c ≤ 'z' then
      if upper then i :: checkCharactersFrom (i + 1) lower upper str
      else checkCharactersFrom (i + 1) true upper str
    else if 'A' ≤ c ∧ c ≤ 'Z' then
      if lower then i :: checkCharactersFrom (i + 1) lower upper str
      else checkCharactersFrom (i + 1) lower true str
    else if c.toNat < 33 ∨ c.toNat > 126 then i :: checkCharactersFrom (i + 1) lower upper str
    else checkCharactersFrom (i + 1) lower upper str

def checkCharacters (str : Text) : List ℕ := checkCharactersFrom 0 false false str

def preparePolynomialCoefficients (hrp : Text) (values : List ℕ) : List ℕ :=
  hrp.map (fun c => c.toNat >>> 5) ++ 0 :: (hrp.map (fun c => c.toNat &&& 0x1f) ++ values)

def verifyChecksum (hrp : Text) (values : List ℕ) : Option Encoding :=
  let check := polyMod (preparePolynomialCoefficients hrp values)
  if check = encodingConstant .bech32 then some .bech32
  else if check = encodingConstant .bech32m then some .bech32m
  else none

def createChecksum (encoding : Encoding) (hrp : Text) (values : List ℕ) : List ℕ :=
  let enc := preparePolynomialCoefficients hrp values ++ List.replicate checksumSize 0
  groups 5 checksumSize (polyMod enc ^^^ encodingConstant encoding)

def charsetChar (v : ℕ) : Char := charset.getD v ' '

/-- `bech32::Encode`, which asserts that the human readable part has no upper case. -/
def bech32Encode (encoding : Encoding) (hrp : Text) (values : List ℕ) : Except Fault Text :=
  if hrp.any fun c => 'A' ≤ c ∧ c ≤ 'Z' then .error .assertion
  else .ok (hrp ++ '1' :: (values ++ createChecksum encoding hrp values).map charsetChar)

def rfind (ch : Char) : Text → Option ℕ
  | [] => none
  | c :: str =>
    match rfind ch str with
    | some i => some (i + 1)
    | none => if c = ch then some 0 else none

/-- The values of the characters, if all of them have one. -/
def charsetValues : Text → Option (List ℕ)
  | [] => some []
  | c :: str =>
    let rev := charsetRev.getD c.toNat (-1)
    if rev = -1 then none else (charsetValues str).map (rev.toNat :: ·)

structure DecodeResult where
  encoding : Encoding
  hrp : Text
  data : List ℕ
  deriving DecidableEq, Repr

/-- `bech32::Decode`; `none` is the result with the invalid encoding. -/
def bech32Decode (str : Text) (limit : ℕ) : Option DecodeResult :=
  if checkCharacters str ≠ [] then none
  else if str.length > limit then none
  else match rfind '1' str with
    | none => none
    | some pos =>
      if pos = 0 ∨ pos + checksumSize ≥ str.length then none
      else do
        let values ← charsetValues (str.drop (pos + 1))
        let hrp := (str.take pos).map lowerCase
        let encoding ← verifyChecksum hrp values
        some ⟨encoding, hrp, values.take (values.length - checksumSize)⟩

section Checksum

def polyFeedback (c : ℕ) : ℕ := polyStep c 0

theorem polyStep_eq (c v : ℕ) : polyStep c v = polyFeedback c ^^^ v := by
  simp only [polyFeedback, polyStep, Nat.xor_zero]
  rw [Nat.xor_assoc, Nat.xor_comm v, ← Nat.xor_assoc]

theorem polyMod_eq_feed (v : List ℕ) : polyMod v = feed polyFeedback 1 v := by
  have hfold : ∀ c, v.foldl polyStep c = feed polyFeedback c v := by
    induction v with
    | nil => exact fun c => rfl
    | cons x v ih =>
      intro c
      rw [List.foldl_cons, polyStep_eq]
      exact ih _
  exact hfold 1

theorem bit_select_xor (p q : Bool) (g : ℕ) :
    (if (p ^^ q) = true then g else 0) =
      (if p = true then g else 0) ^^^ (if q = true then g else 0) := by
  cases p <;> cases q <;> simp

theorem polyGenerator_xor (a b : ℕ) :
    polyGenerator (a ^^^ b) = polyGenerator a ^^^ polyGenerator b := by
  simp only [polyGenerator, Nat.testBit_xor, bit_select_xor]
  ac_rfl

theorem polyFeedback_xor (a b : ℕ) :
    polyFeedback (a ^^^ b) = polyFeedback a ^^^ polyFeedback b := by
  simp only [polyFeedback, polyStep, Nat.xor_zero, Nat.and_xor_distrib_right,
    Nat.shiftLeft_xor_distrib, Nat.shiftRight_xor_distrib, polyGenerator_xor]
  ac_rfl

theorem polyFeedback_lt (c : ℕ) : polyFeedback c < 2 ^ (5 * (5 + 1)) := by
  have hlow : (c &&& 0x1ffffff) <<< 5 < 2 ^ 30 := by
    have hmask : c &&& 0x1ffffff < 2 ^ 25 := Nat.and_lt_two_pow c (by norm_num)
    omega
  have hgen : polyGenerator (c >>> 25) < 2 ^ 30 := by
    unfold polyGenerator
    refine Nat.xor_lt_two_pow (Nat.xor_lt_two_pow (Nat.xor_lt_two_pow
      (Nat.xor_lt_two_pow ?_ ?_) ?_) ?_) ?_ <;> split <;> norm_num
  rw [polyFeedback, polyStep, Nat.xor_zero]
  exact Nat.xor_lt_two_pow hlow hgen

theorem polyFeedback_shift : ∀ x < 2 ^ (5 * 5), polyFeedback x = x * 2 ^ 5 := by
  intro x hx
  have hmask : x &&& 0x1ffffff = x := by
    rw [show 0x1ffffff = 2 ^ 25 - 1 by norm_num, Nat.and_two_pow_sub_one_eq_mod,
      Nat.mod_eq_of_lt hx]
  have htop : x >>> 25 = 0 := by
    rw [Nat.shiftRight_eq_div_pow]
    exact Nat.div_eq_of_lt hx
  rw [polyFeedback, polyStep, hmask, htop, Nat.shiftLeft_eq]
  simp [polyGenerator]

theorem prepare_append (hrp : Text) (values more : List ℕ) :
    preparePolynomialCoefficients hrp (values ++ more) =
      preparePolynomialCoefficients hrp values ++ more := by
  simp [preparePolynomialCoefficients]

theorem verifyChecksum_createChecksum (encoding : Encoding) (hrp : Text) (values : List ℕ) :
    verifyChecksum hrp (values ++ createChecksum encoding hrp values) = some encoding := by
  have hconst : encodingConstant encoding < 2 ^ (5 * (5 + 1)) := by
    cases encoding <;> decide
  have hclose : polyMod (preparePolynomialCoefficients hrp values ++
      createChecksum encoding hrp values) = encodingConstant encoding := by
    rw [createChecksum, polyMod_eq_feed, polyMod_eq_feed, feed_append, feed_append]
    exact feed_closing polyFeedback_xor polyFeedback_lt polyFeedback_shift _ _ hconst
  rw [verifyChecksum, prepare_append, hclose]
  cases encoding <;> rfl

end Checksum

section RoundTrip

/-- A human readable part that `Encode` accepts and `Decode` finds no fault with. -/
structure ValidHrp (hrp : Text) : Prop where
  ne_nil : hrp ≠ []
  printable : ∀ c ∈ hrp, 33 ≤ c.toNat ∧ c.toNat ≤ 126
  lower : ∀ c ∈ hrp, ¬('A' ≤ c ∧ c ≤ 'Z')

theorem checkCharactersFrom_eq_nil {str : Text} (hprintable : ∀ c ∈ str, 33 ≤ c.toNat ∧ c.toNat ≤ 126)
    (hlower : ∀ c ∈ str, ¬('A' ≤ c ∧ c ≤ 'Z')) (i : ℕ) (lower : Bool) :
    checkCharactersFrom i lower false str = [] := by
  induction str generalizing i lower with
  | nil => rfl
  | cons c str ih =>
    have hc := hprintable c List.mem_cons_self
    have hrest := ih (fun d hd => hprintable d (List.mem_cons_of_mem c hd))
      (fun d hd => hlower d (List.mem_cons_of_mem c hd))
    have hvisible : ¬(c.toNat < 33 ∨ c.toNat > 126) := by omega
    simp only [checkCharactersFrom, if_neg (hlower c List.mem_cons_self), if_neg hvisible,
      Bool.false_eq_true, if_false, hrest, ite_self]

theorem rfind_append {ch : Char} {front back : Text} (hback : ch ∉ back) :
    rfind ch (front ++ ch :: back) = some front.length := by
  have hnone : rfind ch back = none := by
    induction back with
    | nil => rfl
    | cons c back ih =>
      rw [List.mem_cons, not_or] at hback
      simp only [rfind, ih hback.2, if_neg (Ne.symm hback.1)]
  induction front with
  | nil => simp [rfind, hnone]
  | cons c front ih => simp [rfind, ih]

theorem charsetChar_facts : ∀ v < 32, charsetRev.getD (charsetChar v).toNat (-1) = v ∧
    charsetChar v ≠ '1' ∧ (33 ≤ (charsetChar v).toNat ∧ (charsetChar v).toNat ≤ 126) ∧
    ¬('A' ≤ charsetChar v ∧ charsetChar v ≤ 'Z') := by
  decide

theorem charsetValues_map {values : List ℕ} (hvalues : ∀ v ∈ values, v < 32) :
    charsetValues (values.map charsetChar) = some values := by
  induction values with
  | nil => rfl
  | cons v values ih =>
    have hrev := (charsetChar_facts v (hvalues v List.mem_cons_self)).1
    have hvalid : (v : ℤ) ≠ -1 := by omega
    simp only [List.map_cons, charsetValues, hrev, if_neg hvalid, Int.toNat_natCast,
      ih (fun w hw => hvalues w (List.mem_cons_of_mem v hw)), Option.map_some]

theorem map_lowerCase_of_lower {hrp : Text} (h : ∀ c ∈ hrp, ¬('A' ≤ c ∧ c ≤ 'Z')) :
    hrp.map lowerCase = hrp := by
  conv_rhs => rw [← List.map_id hrp]
  apply List.map_congr_left
  intro c hc
  rw [lowerCase, if_neg (h c hc), id]

theorem bech32Decode_charset {hrp : Text} (hlower : ∀ c ∈ hrp, ¬('A' ≤ c ∧ c ≤ 'Z'))
    {all : List ℕ} (hall : ∀ v ∈ all, v < 32) (limit : ℕ) :
    bech32Decode (hrp ++ '1' :: all.map charsetChar) limit =
      if checkCharacters (hrp ++ '1' :: all.map charsetChar) ≠ [] then none
      else if hrp.length + 1 + all.length > limit then none
      else if hrp.length = 0 ∨ all.length < checksumSize then none
      else (verifyChecksum hrp all).map fun encoding =>
        ⟨encoding, hrp, all.take (all.length - checksumSize)⟩ := by
  have hsep : '1' ∉ all.map charsetChar := by
    intro h
    obtain ⟨v, hv, heq⟩ := List.mem_map.mp h
    exact (charsetChar_facts v (hall v hv)).2.1 heq
  have hsize : (hrp ++ '1' :: all.map charsetChar).length = hrp.length + 1 + all.length := by
    rw [List.length_append, List.length_cons, List.length_map]
    omega
  have hdrop : (hrp ++ '1' :: all.map charsetChar).drop (hrp.length + 1) =
      all.map charsetChar := by
    simp
  have hshort : hrp.length + checksumSize ≥ hrp.length + 1 + all.length ↔
      all.length < checksumSize := by omega
  rw [bech32Decode, hsize, rfind_append hsep]
  simp only [hdrop, List.take_left, charsetValues_map hall, map_lowerCase_of_lower hlower,
    Option.bind_eq_bind, Option.bind_some, hshort]
  cases verifyChecksum hrp all <;> rfl

theorem bech32Encode_eq {hrp : Text} (hlower : ∀ c ∈ hrp, ¬('A' ≤ c ∧ c ≤ 'Z'))
    (encoding : Encoding) (values : List ℕ) : bech32Encode encoding hrp values =
      .ok (hrp ++ '1' :: (values ++ createChecksum encoding hrp values).map charsetChar) := by
  have hupper : (hrp.any fun c => 'A' ≤ c ∧ c ≤ 'Z') = false := by
    rw [List.any_eq_false]
    intro c hc
    simpa using hlower c hc
  rw [bech32Encode, hupper]
  rfl

theorem lt_of_mem_encoded {encoding : Encoding} {hrp : Text} {values : List ℕ}
    (hvalues : ∀ v ∈ values, v < 32) :
    ∀ v ∈ values ++ createChecksum encoding hrp values, v < 32 := by
  intro v hv
  rcases List.mem_append.mp hv with h | h
  · exact hvalues v h
  · exact groups_lt v h

theorem bech32Decode_bech32Encode (encoding : Encoding) {hrp : Text} (hhrp : ValidHrp hrp)
    {values : List ℕ} (hvalues : ∀ v ∈ values, v < 32) {limit : ℕ}
    (hlimit : hrp.length + 1 + values.length + checksumSize ≤ limit) :
    ∃ rest, bech32Encode encoding hrp values = .ok (hrp ++ '1' :: rest) ∧
      bech32Decode (hrp ++ '1' :: rest) limit = some ⟨encoding, hrp, values⟩ := by
  set all := values ++ createChecksum encoding hrp values with hall
  have hlen : all.length = values.length + checksumSize := by
    rw [List.length_append, createChecksum, length_groups]
  have hlt : ∀ v ∈ all, v < 32 := lt_of_mem_encoded hvalues
  have hmem : ∀ c ∈ hrp ++ '1' :: all.map charsetChar,
      (33 ≤ c.toNat ∧ c.toNat ≤ 126) ∧ ¬('A' ≤ c ∧ c ≤ 'Z') := by
    intro c hc
    rcases List.mem_append.mp hc with h | h
    · exact ⟨hhrp.printable c h, hhrp.lower c h⟩
    · rcases List.mem_cons.mp h with rfl | h
      · decide
      · obtain ⟨v, hv, rfl⟩ := List.mem_map.mp h
        exact (charsetChar_facts v (hlt v hv)).2.2
  have hcheck : checkCharacters (hrp ++ '1' :: all.map charsetChar) = [] :=
    checkCharactersFrom_eq_nil (fun c hc => (hmem c hc).1) (fun c hc => (hmem c hc).2) 0 false
  have hpos : 0 < hrp.length := List.length_pos_of_ne_nil hhrp.ne_nil
  have hdata : all.take (all.length - checksumSize) = values := by
    rw [hlen, Nat.add_sub_cancel, List.take_left]
  refine ⟨all.map charsetChar, bech32Encode_eq hhrp.lower encoding values, ?_⟩
  rw [bech32Decode_charset hhrp.lower hlt, if_neg (not_not.mpr hcheck), if_neg (by omega),
    if_neg (by omega), hdata, verifyChecksum_createChecksum]
  rfl

end RoundTrip

section Detection

theorem polyFeedback_eq_zero : ∀ c < 2 ^ 30, polyFeedback c = 0 → c = 0 := by
  intro c hc h
  have hlead : ∀ c0 < 32, polyGenerator c0 % 32 = 0 → c0 = 0 := by decide
  have hsplit := h
  rw [polyFeedback, polyStep, Nat.xor_zero, Nat.xor_eq_zero_iff,
    Nat.shiftRight_eq_div_pow] at hsplit
  have htop : c / 2 ^ 25 = 0 := hlead _ (by omega) (by omega)
  rw [polyFeedback_shift c (by omega)] at h
  omega

/-- Up to 88 positions, no two single errors at different positions agree in the leading five
values of the register. -/
theorem polyFeedback_separated :
    separated 25 (shiftTable polyFeedback 5 88 0 (List.range' 1 (2 ^ 5 - 1))) = true := by
  decide +kernel

theorem verifyChecksum_eq_some {hrp : Text} {all : List ℕ} {encoding : Encoding}
    (h : verifyChecksum hrp all = some encoding) :
    feed polyFeedback (polyMod (preparePolynomialCoefficients hrp [])) all =
      encodingConstant encoding := by
  rw [polyMod_eq_feed, ← feed_append, ← prepare_append, List.nil_append, ← polyMod_eq_feed]
  simp only [verifyChecksum] at h
  split_ifs at h with h₁ h₂ <;> cases h
  · exact h₁
  · exact h₂

def replaced (part part' : Text) : ℕ := (part.zip part').countP fun p => p.1 ≠ p.2

theorem zipWith_eq_map_zip (us vs : List ℕ) :
    List.zipWith (· ^^^ ·) us vs = (us.zip vs).map fun p => p.1 ^^^ p.2 := by
  rw [List.zip, List.map_zipWith]

theorem length_errors_zipWith {all all' : List ℕ} (hall : ∀ v ∈ all, v < 32)
    (hall' : ∀ v ∈ all', v < 32) : (errors (List.zipWith (· ^^^ ·) all all')).length =
      replaced (all.map charsetChar) (all'.map charsetChar) := by
  rw [length_errors, replaced, List.zip_map, zipWith_eq_map_zip, List.countP_map, List.countP_map]
  apply List.countP_congr
  rintro ⟨u, v⟩ hmem
  obtain ⟨hu, hv⟩ := List.of_mem_zip hmem
  have hu' := (charsetChar_facts u (hall u hu)).1
  have hv' := (charsetChar_facts v (hall' v hv)).1
  have hinj : charsetChar u = charsetChar v ↔ u = v := by
    refine ⟨fun heq => ?_, congrArg charsetChar⟩
    rw [heq, hv'] at hu'
    exact_mod_cast hu'.symm
  simp [hinj]

theorem verifyChecksum_replaced {hrp : Text} {all all' : List ℕ} {encoding : Encoding}
    (hall : ∀ v ∈ all, v < 32) (hall' : ∀ v ∈ all', v < 32) (hlen : all.length = all'.length)
    (hsize : all.length ≤ 88) (hverify : verifyChecksum hrp all = some encoding)
    (hsome : 1 ≤ replaced (all.map charsetChar) (all'.map charsetChar))
    (hfew : replaced (all.map charsetChar) (all'.map charsetChar) ≤ 3) :
    verifyChecksum hrp all' ≠ some encoding := by
  intro hverify'
  rw [← length_errors_zipWith hall hall'] at hsome hfew
  refine feed_ne_zero polyFeedback_xor polyFeedback_lt (by norm_num) polyFeedback_eq_zero
    polyFeedback_separated ?_ ?_ (List.ne_nil_of_length_pos hsome) hfew ?_
  · intro v hv
    rw [zipWith_eq_map_zip] at hv
    obtain ⟨⟨u, u'⟩, hmem, rfl⟩ := List.mem_map.mp hv
    obtain ⟨hu, hu'⟩ := List.of_mem_zip hmem
    exact Nat.xor_lt_two_pow (hall u hu) (hall' u' hu')
  · rw [List.length_zipWith]
    omega
  · have hfeed := feed_zipWith_xor polyFeedback_xor (polyMod (preparePolynomialCoefficients hrp []))
      (polyMod (preparePolynomialCoefficients hrp [])) hlen
    rw [verifyChecksum_eq_some hverify, verifyChecksum_eq_some hverify', Nat.xor_self,
      Nat.xor_self] at hfeed
    exact hfeed

/-- Replacing one to three characters of the data part of what `Encode` gives is found out by
`Decode`, and without replacements it gives back what has been encoded. -/
theorem bech32_detects (encoding : Encoding) (hrp : Text) {values : List ℕ}
    (hvalues : ∀ v ∈ values, v < 32) (limit : ℕ) :
    (∀ str, bech32Encode encoding hrp values = .ok str → str.length ≤ charLimit →
      ∃ part, str = hrp ++ '1' :: part ∧
        ∀ part', part'.length = part.length → (∀ c ∈ part', c ∈ charset) →
          1 ≤ replaced part part' → replaced part part' ≤ 3 →
          ∀ result, bech32Decode (hrp ++ '1' :: part') limit = some result →
            result.encoding ≠ encoding) ∧
    (ValidHrp hrp → hrp.length + 1 + values.length + checksumSize ≤ limit →
      ∃ str, bech32Encode encoding hrp values = .ok str ∧
        bech32Decode str limit = some ⟨encoding, hrp, values⟩) := by
  constructor
  · intro str hstr hshort
    rw [bech32Encode] at hstr
    split at hstr
    · cases hstr
    rename_i hupper
    have hlower : ∀ c ∈ hrp, ¬('A' ≤ c ∧ c ≤ 'Z') := by simpa using hupper
    cases hstr
    refine ⟨_, rfl, ?_⟩
    intro part' hlen hpart' hsome hfew result hresult
    obtain ⟨all', hall', rfl⟩ := exists_digits_of_table charsetChar rfl hpart'
    rw [bech32Decode_charset hlower hall'] at hresult
    split_ifs at hresult with _ _ hpos
    obtain ⟨encoding', hverify', rfl⟩ := Option.map_eq_some_iff.mp hresult
    rintro rfl
    simp only [List.length_append, List.length_cons, List.length_map, charLimit] at hlen hshort
    refine verifyChecksum_replaced (lt_of_mem_encoded hvalues) hall' ?_ ?_
      (verifyChecksum_createChecksum encoding' hrp values) hsome hfew hverify'
    · rw [List.length_append]
      omega
    · rw [List.length_append]
      omega
  · intro hhrp hlimit
    obtain ⟨part, hencode, hdecode⟩ := bech32Decode_bech32Encode encoding hhrp hvalues hlimit
    exact ⟨_, hencode, hdecode⟩

theorem bech32_detects_three : (∀ result,
    bech32Decode ['t', 'c', '1', 'p', 'z', '9', 'c', 'h', 'f', '2', 'q'] charLimit = some result →
      result.encoding ≠ .bech32) ∧
    ∃ str, bech32Encode .bech32 ['t', 'c'] [0, 14] = .ok str ∧
      bech32Decode str charLimit = some ⟨.bech32, ['t', 'c'], [0, 14]⟩ := by
  obtain ⟨hdetects, hreturns⟩ := @bech32_detects .bech32 ['t', 'c'] [0, 14] (by decide) charLimit
  refine ⟨?_, hreturns ⟨by decide, by simp, by simp⟩ (by decide)⟩
  obtain ⟨part, hstr, hpart⟩ := hdetects
    ['t', 'c', '1', 'q', 'w', '9', 'c', 'h', 'f', '2', 't'] (by decide) (by decide)
  obtain rfl : ['q', 'w', '9', 'c', 'h', 'f', '2', 't'] = part := by simpa using hstr
  exact hpart ['p', 'z', '9', 'c', 'h', 'f', '2', 'q'] rfl (by simp [charset]) (by decide)
    (by decide)

end Detection

end Tarcoin
