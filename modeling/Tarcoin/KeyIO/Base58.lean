import Tarcoin.Primitives.Transaction
import Tarcoin.Util.FixedPoint

/-! `base58.cpp`: conversion between base 256 and base 58 in a buffer of estimated size, which an
`assert` says no carry leaves. The counts and sizes are `int`s, exact as long as the buffer has
fewer than `2 ^ 31` cells: up to 1.5 GB of bytes, or 2 GB of text. -/
namespace Tarcoin
open Radix

/-- All alphanumeric characters except for `0`, `I`, `O` and `l`. -/
def pszBase58 : Text :=
  "123456789ABCDEFGHJKLMNPQRSTUVWXYZabcdefghijkmnopqrstuvwxyz".toList

def mapBase58 : List ℤ := [
    -1, -1, -1, -1, -1, -1, -1, -1, -1, -1, -1, -1, -1, -1, -1, -1,
    -1, -1, -1, -1, -1, -1, -1, -1, -1, -1, -1, -1, -1, -1, -1, -1,
    -1, -1, -1, -1, -1, -1, -1, -1, -1, -1, -1, -1, -1, -1, -1, -1,
    -1, 0, 1, 2, 3, 4, 5, 6, 7, 8, -1, -1, -1, -1, -1, -1,
    -1, 9, 10, 11, 12, 13, 14, 15, 16, -1, 17, 18, 19, 20, 21, -1,
    22, 23, 24, 25, 26, 27, 28, 29, 30, 31, 32, -1, -1, -1, -1, -1,
    -1, 33, 34, 35, 36, 37, 38, 39, 40, 41, 42, 43, -1, 44, 45, 46,
    47, 48, 49, 50, 51, 52, 53, 54, 55, 56, 57, -1, -1, -1, -1, -1] ++ List.replicate 128 (-1)

def base58Char (d : ℕ) : Char := pszBase58.getD d ' '

/-- One round of the conversion: the cells and how many of them are in use. -/
def convertRound (b m : ℕ) (cells : List ℕ) (length carry : ℕ) : Except Fault (List ℕ × ℕ) :=
  let r := mulAdd b m length carry cells
  if r.2.1 = 0 then .ok (r.1, r.2.2) else .error .assertion

def decodeChars (maxRetLen zeroes : ℕ) :
    Text → List ℕ → ℕ → Except Fault (Option (List ℕ × ℕ × Text))
  | [], b256, length => .ok (some (b256, length, []))
  | c :: psz, b256, length =>
    if isSpace c then .ok (some (b256, length, c :: psz))
    else
      let carry := mapBase58.getD c.toNat (-1)
      if carry = -1 then .ok none
      else do
        let (b256, length) ← convertRound 256 58 b256 length carry.toNat
        if length + zeroes > maxRetLen then .ok none
        else decodeChars maxRetLen zeroes psz b256 length

def decodeBase58 (str : Text) (maxRetLen : ℕ) : Except Fault (Option (List UInt8)) :=
  if '\x00' ∈ str then .ok none
  else
    let psz := str.dropWhile isSpace
    let zeroes := (psz.takeWhile (· = '1')).length
    let psz := psz.dropWhile (· = '1')
    if zeroes > maxRetLen then .ok none
    else do
      let size := psz.length * 733 / 1000 + 1
      match ← decodeChars maxRetLen zeroes psz (List.replicate size 0) 0 with
      | none => .ok none
      | some (b256, length, rest) =>
        if rest.dropWhile isSpace ≠ [] then .ok none
        else .ok (some (List.replicate zeroes 0 ++ (b256.take length).reverse.map UInt8.ofNat))

def encodeBytes : List UInt8 → List ℕ → ℕ → Except Fault (List ℕ × ℕ)
  | [], b58, length => .ok (b58, length)
  | byte :: input, b58, length => do
    let (b58, length) ← convertRound 58 256 b58 length byte.toNat
    encodeBytes input b58 length

def encodeBase58 (input : List UInt8) : Except Fault Text := do
  let zeroes := (input.takeWhile (· = 0)).length
  let input := input.dropWhile (· = 0)
  let size := input.length * 138 / 100 + 1
  let (b58, length) ← encodeBytes input (List.replicate size 0) 0
  .ok (List.replicate zeroes '1' ++
    ((b58.take length).reverse.dropWhile (· = 0)).map base58Char)

/-- The double hash whose first four bytes are the checksum. -/
def hash256 (sha256 : List UInt8 → Bytes 32) (input : List UInt8) : List UInt8 :=
  (sha256 (sha256 input).val).val

def encodeBase58Check (sha256 : List UInt8 → Bytes 32) (input : List UInt8) :
    Except Fault Text :=
  encodeBase58 (input ++ (hash256 sha256 input).take 4)

def maxInt : ℕ := 2147483647

def decodeBase58Check (sha256 : List UInt8 → Bytes 32) (str : Text) (maxRetLen : ℕ) :
    Except Fault (Option (List UInt8)) := do
  match ← decodeBase58 str (if maxRetLen > maxInt - 4 then maxInt else maxRetLen + 4) with
  | none => .ok none
  | some vch =>
    if vch.length < 4 then .ok none
    else
      let data := vch.take (vch.length - 4)
      if (hash256 sha256 data).take 4 ≠ vch.drop (vch.length - 4) then .ok none
      else .ok (some data)

section Conversion

variable {n v : ℕ}

theorem convertRound_buffer {b m c : ℕ} (hb : 1 < b) (hm : 0 < m) (hfit : v * m + c < b ^ n) :
    convertRound b m (buffer b n v) (digitCount b v) c =
      .ok (buffer b n (v * m + c), digitCount b (v * m + c)) := by
  rw [Nat.mul_comm] at hfit ⊢
  simp [convertRound, mulAdd_buffer hb hm hfit]

theorem base58Char_facts : ∀ d < 58, isSpace (base58Char d) = false ∧
    mapBase58.getD (base58Char d).toNat (-1) = d ∧ base58Char d ≠ '\x00' ∧
    (base58Char d = '1' ↔ d = 0) := by
  decide

theorem encodeBytes_buffer (input : List UInt8)
    (hfit : accumulate 256 v (input.map UInt8.toNat) < 58 ^ n) :
    encodeBytes input (buffer 58 n v) (digitCount 58 v) =
      .ok (buffer 58 n (accumulate 256 v (input.map UInt8.toNat)),
        digitCount 58 (accumulate 256 v (input.map UInt8.toNat))) := by
  induction input generalizing v with
  | nil => rfl
  | cons byte input ih =>
    have hround : v * 256 + byte.toNat < 58 ^ n :=
      (le_accumulate (by norm_num) _ _).trans_lt hfit
    rw [encodeBytes, convertRound_buffer (by norm_num) (by norm_num) hround]
    exact ih hfit

theorem decodeChars_buffer (maxRetLen zeroes : ℕ) {ds : List ℕ} (hds : ∀ d ∈ ds, d < 58)
    (hfit : accumulate 58 v ds < 256 ^ n) (hmax : digitCount 256 v + zeroes ≤ maxRetLen) :
    decodeChars maxRetLen zeroes (ds.map base58Char) (buffer 256 n v) (digitCount 256 v) =
      .ok (if digitCount 256 (accumulate 58 v ds) + zeroes ≤ maxRetLen then
        some (buffer 256 n (accumulate 58 v ds), digitCount 256 (accumulate 58 v ds), [])
      else none) := by
  induction ds generalizing v with
  | nil => rw [List.map_nil, decodeChars, accumulate_nil, if_pos hmax]
  | cons d ds ih =>
    rw [accumulate_cons] at hfit ⊢
    obtain ⟨hspace, hmap, -, -⟩ := base58Char_facts d (hds d List.mem_cons_self)
    have hle : v * 58 + d ≤ accumulate 58 (v * 58 + d) ds := le_accumulate (by norm_num) _ _
    have hcount := digitCount_mono (b := 256) hle
    have hvalid : (d : ℤ) ≠ -1 := by omega
    simp only [List.map_cons, decodeChars, hspace, Bool.false_eq_true, if_false, hmap, hvalid,
      Int.toNat_natCast, convertRound_buffer (show 1 < 256 by norm_num)
        (show 0 < 58 by norm_num) (hle.trans_lt hfit)]
    simp only [bind, Except.bind]
    by_cases hmany : digitCount 256 (v * 58 + d) + zeroes > maxRetLen
    · rw [if_pos hmany, if_neg (by omega)]
    · rw [if_neg hmany]
      exact ih (fun e he => hds e (List.mem_cons_of_mem d he)) hfit (by omega)

set_option maxRecDepth 2000 in
theorem mapBase58_getD_lt (i : ℕ) : mapBase58.getD i (-1) < 58 := by
  have hall : mapBase58.all (· < 58) = true := by decide
  rw [List.getD_eq_getElem?_getD]
  cases h : mapBase58[i]? with
  | none => decide
  | some x => simpa using List.all_eq_true.mp hall x (List.mem_of_getElem? h)

theorem decodeChars_ok (maxRetLen zeroes : ℕ) (psz : Text)
    (hfit : (v + 1) * 58 ^ psz.length ≤ 256 ^ n) :
    ∃ r, decodeChars maxRetLen zeroes psz (buffer 256 n v) (digitCount 256 v) = .ok r := by
  induction psz generalizing v with
  | nil => exact ⟨_, rfl⟩
  | cons c psz ih =>
    have hcarry := mapBase58_getD_lt c.toNat
    unfold decodeChars
    simp only
    split_ifs
    · exact ⟨_, rfl⟩
    · exact ⟨_, rfl⟩
    · set carry := (mapBase58.getD c.toNat (-1)).toNat
      have hnext : (v * 58 + carry + 1) * 58 ^ psz.length ≤ 256 ^ n := by
        rw [List.length_cons, pow_succ', ← mul_assoc] at hfit
        exact (Nat.mul_le_mul_right _ (by omega)).trans hfit
      have hround : v * 58 + carry < 256 ^ n :=
        (Nat.le_mul_of_pos_right _ (by positivity)).trans hnext
      rw [convertRound_buffer (by norm_num) (by norm_num) hround]
      simp only [bind, Except.bind]
      split_ifs
      · exact ⟨_, rfl⟩
      · exact ih hnext

end Conversion

section RoundTrip

variable {α : Type} {rest : List α} {maxRetLen : ℕ}

theorem takeWhile_leading [DecidableEq α] (z : ℕ) (a : α) (hrest : rest.head? ≠ some a) :
    (List.replicate z a ++ rest).takeWhile (· = a) = List.replicate z a := by
  cases rest with
  | nil => simp
  | cons c rest =>
    have hc : c ≠ a := by simpa using hrest
    simp [hc]

theorem dropWhile_leading [DecidableEq α] (z : ℕ) (a : α) (hrest : rest.head? ≠ some a) :
    (List.replicate z a ++ rest).dropWhile (· = a) = rest := by
  rw [List.dropWhile_append_of_pos (by simp +contextual [List.mem_replicate])]
  cases rest with
  | nil => rfl
  | cons c rest =>
    have hc : c ≠ a := by simpa using hrest
    simp [hc]

theorem toNat_lt_of_mem (rest : List UInt8) : ∀ d ∈ rest.map UInt8.toNat, d < 256 := by
  intro d hd
  obtain ⟨byte, -, rfl⟩ := List.mem_map.mp hd
  exact byte.toNat_lt

theorem encodeBase58_eq (z : ℕ) {rest : List UInt8} (hrest : rest.head? ≠ some 0) :
    encodeBase58 (List.replicate z 0 ++ rest) =
      .ok (List.replicate z '1' ++
        (numeral 58 (accumulate 256 0 (rest.map UInt8.toNat))).map base58Char) := by
  have hlt : accumulate 256 0 (rest.map UInt8.toNat) < 58 ^ (rest.length * 138 / 100 + 1) := by
    refine (accumulate_lt (by norm_num) (toNat_lt_of_mem rest)).trans ?_
    rw [List.length_map]
    exact pow_lt_pow_estimate (by norm_num) (by norm_num) (by norm_num) _
  have hrun := encodeBytes_buffer rest hlt
  rw [buffer_zero, digitCount_zero] at hrun
  have hnumeral := dropWhile_leading 0 0
    (head_numeral_ne 58 (accumulate 256 0 (rest.map UInt8.toNat)))
  rw [List.replicate_zero, List.nil_append] at hnumeral
  simp only [encodeBase58, takeWhile_leading z 0 hrest, dropWhile_leading z 0 hrest, hrun, bind,
    Except.bind, List.length_replicate, take_buffer (show 1 < 58 by norm_num) hlt]
  rw [← numeral, hnumeral]

theorem pow_58_le_pow_256 : 58 ^ 1000 ≤ 256 ^ 733 := by
  have hblock : 58 ^ 71 ≤ 256 ^ 52 := by norm_num
  have hrest : 58 ^ 6 ≤ 256 ^ 5 := by norm_num
  calc 58 ^ 1000 = (58 ^ 71) ^ 14 * 58 ^ 6 := by rw [← pow_mul, ← pow_add]
    _ ≤ (256 ^ 52) ^ 14 * 256 ^ 5 := Nat.mul_le_mul (Nat.pow_le_pow_left hblock 14) hrest
    _ = 256 ^ 733 := by rw [← pow_mul, ← pow_add]

theorem base58Text_facts (z : ℕ) {ds : List ℕ} (hds : ∀ d ∈ ds, d < 58) :
    ∀ c ∈ List.replicate z '1' ++ ds.map base58Char, isSpace c = false ∧ c ≠ '\x00' := by
  intro c hc
  rcases List.mem_append.mp hc with h | h
  · rw [List.eq_of_mem_replicate h]
    decide
  · obtain ⟨d, hd, rfl⟩ := List.mem_map.mp h
    exact ⟨(base58Char_facts d (hds d hd)).1, (base58Char_facts d (hds d hd)).2.2.1⟩

theorem decodeBase58_eq (z v maxRetLen : ℕ) :
    decodeBase58 (List.replicate z '1' ++ (numeral 58 v).map base58Char) maxRetLen =
      .ok (if digitCount 256 v + z ≤ maxRetLen then
        some (List.replicate z 0 ++ (numeral 256 v).map UInt8.ofNat) else none) := by
  have hds : ∀ d ∈ numeral 58 v, d < 58 := fun d => numeral_lt (by norm_num)
  have hchars := base58Text_facts z hds
  have hnul : '\x00' ∉ List.replicate z '1' ++ (numeral 58 v).map base58Char :=
    fun hmem => (hchars _ hmem).2 rfl
  have hspace : (List.replicate z '1' ++ (numeral 58 v).map base58Char).dropWhile isSpace =
      List.replicate z '1' ++ (numeral 58 v).map base58Char := by
    cases htext : List.replicate z '1' ++ (numeral 58 v).map base58Char with
    | nil => rfl
    | cons c rest => simp [(hchars c (htext ▸ List.mem_cons_self)).1]
  have hone : ((numeral 58 v).map base58Char).head? ≠ some '1' := by
    have hhead := head_numeral_ne 58 v
    cases hnum : numeral 58 v with
    | nil => simp
    | cons d ds =>
      have hd : d < 58 := hds d (hnum ▸ List.mem_cons_self)
      have hd0 : d ≠ 0 := by simpa [hnum] using hhead
      simpa using mt (base58Char_facts d hd).2.2.2.mp hd0
  have hlt : v < 256 ^ (((numeral 58 v).map base58Char).length * 733 / 1000 + 1) := by
    rw [List.length_map]
    have hpow := pow_lt_pow_estimate (show 1 < 256 by norm_num) (show 0 < 1000 by norm_num)
      pow_58_le_pow_256 (numeral 58 v).length
    refine lt_trans ?_ hpow
    have hval := accumulate_lt (by norm_num) hds
    rwa [accumulate_numeral] at hval
  by_cases hz : z > maxRetLen
  · simp only [decodeBase58, if_neg hnul, hspace, takeWhile_leading z '1' hone,
      List.length_replicate, if_pos hz]
    rw [if_neg (by omega)]
  · have hrun := decodeChars_buffer maxRetLen z (v := 0) hds (by rwa [accumulate_numeral])
      (by rw [digitCount_zero]; omega)
    rw [buffer_zero, digitCount_zero, accumulate_numeral] at hrun
    simp only [decodeBase58, if_neg hnul, hspace, takeWhile_leading z '1' hone,
      dropWhile_leading z '1' hone, List.length_replicate, hrun, bind, Except.bind, if_neg hz]
    split_ifs
    · simp only [List.dropWhile_nil, ne_eq, not_true, if_false,
        take_buffer (show 1 < 256 by norm_num) hlt]
      rfl
    · rfl

theorem exists_leading [DecidableEq α] (a : α) (l : List α) :
    ∃ z rest, l = List.replicate z a ++ rest ∧ rest.head? ≠ some a := by
  induction l with
  | nil => exact ⟨0, [], rfl, by simp⟩
  | cons x l ih =>
    by_cases ha : x = a
    · obtain ⟨z, rest, rfl, hrest⟩ := ih
      exact ⟨z + 1, rest, by rw [ha, List.replicate_succ, List.cons_append], hrest⟩
    · exact ⟨0, x :: l, rfl, by simpa using ha⟩

theorem decodeBase58_encodeBase58 (bytes : List UInt8) :
    ∃ str, encodeBase58 bytes = .ok str ∧
      ∀ maxRetLen, bytes.length ≤ maxRetLen → decodeBase58 str maxRetLen = .ok (some bytes) := by
  obtain ⟨z, rest, rfl, hrest⟩ := exists_leading 0 bytes
  have hhead : (rest.map UInt8.toNat).head? ≠ some 0 := by
    cases rest with
    | nil => simp
    | cons byte rest => simpa [← UInt8.toNat_inj] using hrest
  have hnumeral := numeral_accumulate (show 1 < 256 by norm_num) (toNat_lt_of_mem rest) hhead
  refine ⟨_, encodeBase58_eq z hrest, ?_⟩
  intro maxRetLen hmax
  have hcount : digitCount 256 (accumulate 256 0 (rest.map UInt8.toNat)) + z ≤ maxRetLen := by
    rw [← length_numeral, hnumeral, Nat.add_comm]
    simpa using hmax
  rw [decodeBase58_eq, if_pos hcount, hnumeral]
  simp [Function.comp_def]

theorem decodeBase58_ok (str : Text) (maxRetLen : ℕ) : ∃ r, decodeBase58 str maxRetLen = .ok r := by
  unfold decodeBase58
  simp only
  split_ifs
  · exact ⟨_, rfl⟩
  · exact ⟨_, rfl⟩
  · set psz := (str.dropWhile isSpace).dropWhile (· = '1')
    have hpow := pow_lt_pow_estimate (show 1 < 256 by norm_num) (show 0 < 1000 by norm_num)
      pow_58_le_pow_256 psz.length
    obtain ⟨r, hr⟩ := decodeChars_ok maxRetLen
      ((str.dropWhile isSpace).takeWhile (· = '1')).length psz (v := 0) (by simpa using hpow.le)
    rw [buffer_zero, digitCount_zero] at hr
    rw [hr]
    simp only [bind, Except.bind]
    split
    · exact ⟨_, rfl⟩
    · split_ifs
      · exact ⟨_, rfl⟩
      · exact ⟨_, rfl⟩

theorem encodeBase58_decodeBase58 {str : Text} (hstr : ∀ c ∈ str, c ∈ pszBase58)
    {bytes : List UInt8} (h : decodeBase58 str maxRetLen = .ok (some bytes)) :
    encodeBase58 bytes = .ok str := by
  obtain ⟨all, hall, rfl⟩ := exists_digits_of_table base58Char rfl hstr
  obtain ⟨z, ds, rfl, hhead⟩ := exists_leading 0 all
  have hds : ∀ d ∈ ds, d < 58 := fun d hd => hall d (List.mem_append_right _ hd)
  have hnumeral := numeral_accumulate (show 1 < 58 by norm_num) hds hhead
  have hones : (List.replicate z 0).map base58Char = List.replicate z '1' := List.map_replicate
  rw [List.map_append, hones, ← hnumeral] at h ⊢
  generalize accumulate 58 0 ds = v at h ⊢
  rw [decodeBase58_eq] at h
  split_ifs at h
  · obtain rfl := Option.some.inj (Except.ok.inj h)
    have hbytes : ((numeral 256 v).map UInt8.ofNat).map UInt8.toNat = numeral 256 v := by
      rw [List.map_map]
      refine (List.map_congr_left fun d hd => ?_).trans (List.map_id _)
      exact UInt8.toNat_ofNat_of_lt (numeral_lt (by norm_num) hd)
    rw [encodeBase58_eq, hbytes, accumulate_numeral]
    intro h0
    apply head_numeral_ne 256 v
    rw [← hbytes, List.head?_map, h0]
    rfl
  · cases Except.ok.inj h

/-- Base 58 goes both ways, and no carry is ever left. -/
theorem base58_round_trip :
    (∀ bytes, ∃ str, encodeBase58 bytes = .ok str ∧
      ∀ maxRetLen, bytes.length ≤ maxRetLen → decodeBase58 str maxRetLen = .ok (some bytes)) ∧
    ∀ str maxRetLen, ∃ result, decodeBase58 str maxRetLen = .ok result ∧
      ((∀ c ∈ str, c ∈ pszBase58) → ∀ bytes ∈ result, encodeBase58 bytes = .ok str) := by
  refine ⟨decodeBase58_encodeBase58, ?_⟩
  intro str maxRetLen
  obtain ⟨result, hresult⟩ := decodeBase58_ok str maxRetLen
  refine ⟨result, hresult, ?_⟩
  intro hstr bytes hbytes
  rw [Option.mem_def.mp hbytes] at hresult
  exact encodeBase58_decodeBase58 hstr hresult

theorem decodeBase58Check_encodeBase58Check (sha256 : List UInt8 → Bytes 32) (data : List UInt8)
    (hint : maxRetLen ≤ maxInt - 4) (hmax : data.length ≤ maxRetLen) :
    ∃ str, encodeBase58Check sha256 data = .ok str ∧
      decodeBase58Check sha256 str maxRetLen = .ok (some data) := by
  have hsum : ((hash256 sha256 data).take 4).length = 4 := by
    rw [List.length_take, hash256, (sha256 _).property]
    rfl
  obtain ⟨str, henc, hdec⟩ := decodeBase58_encodeBase58 (data ++ (hash256 sha256 data).take 4)
  have hlen : (data ++ (hash256 sha256 data).take 4).length = data.length + 4 := by
    rw [List.length_append, hsum]
  refine ⟨str, henc, ?_⟩
  unfold decodeBase58Check
  rw [if_neg (by omega), hdec _ (by omega)]
  simp only [bind, Except.bind, hlen, Nat.add_sub_cancel, List.take_left, List.drop_left, ne_eq,
    not_true, if_false]
  rw [if_neg (by omega)]

end RoundTrip

end Tarcoin
