import Tarcoin.KeyIO.Destination

/-! On the main network every witness program comes back from its address; key and script hashes
do unless their Base58 text starts like a Bech32 one. -/
namespace Tarcoin
open Radix

section Witness
variable (R : AddressRules)

theorem isBech32_main (rest : Text) :
    isBech32 mainAddressParams (mainAddressParams.bech32HRP ++ rest) = true := by
  simp [isBech32, mainAddressParams, toLower, lowerCase]

theorem decodeDestinationError_encodeWitness {encoding : Encoding} {version : ℕ}
    {program : List UInt8} (hversion : version ≤ 16) (hlen : program.length ≤ 40)
    (hencoding : encoding = .bech32 ↔ version = 0) :
    ∃ str, encodeWitness mainAddressParams encoding version program = .ok str ∧
      decodeDestinationError R mainAddressParams str = .ok (witnessDestination version program) := by
  obtain ⟨symbols, hconvert, hlt, hsize, hback⟩ := convertBits_convertBits (show 0 < 5 by norm_num)
    (show 5 ≤ 8 by norm_num) (toNat_lt_of_mem program)
  rw [List.length_map] at hsize
  have hvalues : ∀ v ∈ version :: symbols, v < 32 := by
    intro v hv
    rcases List.mem_cons.mp hv with rfl | h
    · omega
    · exact hlt v h
  have hlimit : mainAddressParams.bech32HRP.length + 1 + (version :: symbols).length +
      checksumSize ≤ charLimit := by
    rw [List.length_cons, checksumSize, charLimit]
    have hhrp : mainAddressParams.bech32HRP.length = 3 := rfl
    omega
  have hhrp : ValidHrp mainAddressParams.bech32HRP := by constructor <;> simp [mainAddressParams]
  obtain ⟨rest, henc, hdec⟩ := bech32Decode_bech32Encode encoding hhrp hvalues hlimit
  refine ⟨_, by rw [encodeWitness, hconvert]; exact henc, ?_⟩
  have hbytes : (program.map UInt8.toNat).map UInt8.ofNat = program := by
    simp [Function.comp_def]
  have hv0 : ¬(version = 0 ∧ encoding ≠ .bech32) := fun h => h.2 (hencoding.mpr h.1)
  have hv1 : ¬(version ≠ 0 ∧ encoding ≠ .bech32m) := by
    rintro ⟨hne, henc⟩
    cases encoding
    · exact hne (hencoding.mp rfl)
    · exact henc rfl
  rw [decodeDestinationError, isBech32_main, hdec]
  simp only [if_true, bech32Destination, ne_eq, not_true, if_false, if_neg hv0, if_neg hv1, hback,
    hbytes]

end Witness

section Base58
variable (R : AddressRules)

/-- The version, the hash and the checksum, read as one number of 25 bytes. -/
def base58Number (version : UInt8) (hash : Bytes 20) : ℕ :=
  let data := version :: hash.val
  accumulate 256 0 ((data ++ (hash256 R.sha256 data).take 4).map UInt8.toNat)

theorem base58Number_bounds (version : UInt8) (hash : Bytes 20) :
    version.toNat * 256 ^ 24 ≤ base58Number R version hash ∧
      base58Number R version hash < (version.toNat + 1) * 256 ^ 24 := by
  have hlt := accumulate_lt (show 1 < 256 by norm_num)
    (toNat_lt_of_mem (hash.val ++ (hash256 R.sha256 (version :: hash.val)).take 4))
  have hlen : ((hash.val ++ (hash256 R.sha256 (version :: hash.val)).take 4).map
      UInt8.toNat).length = 24 := by
    simp [hash.property, hash256, (R.sha256 _).property]
  simp only [base58Number, List.cons_append, List.map_cons, accumulate_cons]
  rw [accumulate_eq]
  rw [hlen] at hlt ⊢
  omega

theorem encodeBase58Check_eq {version : UInt8} (hversion : version ≠ 0) (hash : Bytes 20) :
    encodeBase58Check R.sha256 (version :: hash.val) =
      .ok ((numeral 58 (base58Number R version hash)).map base58Char) := by
  have hhead : ((version :: hash.val) ++
      (hash256 R.sha256 (version :: hash.val)).take 4).head? ≠ some 0 := by
    simpa using hversion
  exact encodeBase58_eq 0 hhead

theorem numeral_three {q : ℕ} (hlo : 3364 ≤ q) (hhi : q < 195112) :
    numeral 58 q = [q / 3364, q / 58 % 58, q % 58] := by
  have hval : accumulate 58 0 [q / 3364, q / 58 % 58, q % 58] = q := by
    simp only [accumulate_cons, accumulate_nil]
    omega
  have hdigits : ∀ d ∈ [q / 3364, q / 58 % 58, q % 58], d < 58 := by
    intro d hd
    simp only [List.mem_cons, List.not_mem_nil, or_false] at hd
    omega
  have hhead : [q / 3364, q / 58 % 58, q % 58].head? ≠ some 0 := by
    simp only [List.head?_cons, ne_eq, Option.some.injEq]
    omega
  have hsame := numeral_accumulate (by norm_num) hdigits hhead
  rwa [hval] at hsame

theorem lowerCase_base58Char : ∀ d < 58,
    (lowerCase (base58Char d) = 't' ↔ d = 26 ∨ d = 51) ∧
      (lowerCase (base58Char d) = 'a' ↔ d = 9 ∨ d = 33) ∧
      (lowerCase (base58Char d) = 'r' ↔ d = 24 ∨ d = 49) := by
  decide

/-- The text of a number whose leading part has three digits is taken for Bech32 exactly when
those digits spell the human readable part. -/
theorem isBech32_numeral {n : ℕ} (hlo : 3364 ≤ n / 58 ^ 31) (hhi : n / 58 ^ 31 < 195112) :
    isBech32 mainAddressParams ((numeral 58 n).map base58Char) = true ↔
      (n / 58 ^ 31 / 3364 = 26 ∨ n / 58 ^ 31 / 3364 = 51) ∧
        (n / 58 ^ 31 / 58 % 58 = 9 ∨ n / 58 ^ 31 / 58 % 58 = 33) ∧
        (n / 58 ^ 31 % 58 = 24 ∨ n / 58 ^ 31 % 58 = 49) := by
  set q := n / 58 ^ 31 with hq
  have hsplit := numeral_split (show 1 < 58 by norm_num) (n := n) (k := 31) (by omega)
  rw [numeral_three hlo hhi] at hsplit
  have ht := (lowerCase_base58Char (q / 3364) (by omega)).1
  have ha := (lowerCase_base58Char (q / 58 % 58) (by omega)).2.1
  have hr := (lowerCase_base58Char (q % 58) (by omega)).2.2
  rw [hsplit, ← ht, ← ha, ← hr]
  simp [isBech32, mainAddressParams, toLower]

def IsBase58 : Destination → Prop
  | .pkHash _ => True
  | .scriptHash _ => True
  | _ => False

variable {d : Destination}

theorem witnessDestination_not_base58 {version : ℕ} {data : List UInt8}
    (h : witnessDestination version data = .ok d) : ¬IsBase58 d := by
  unfold witnessDestination at h
  split_ifs at h <;> cases h <;> exact id

theorem bech32Destination_not_base58 {dec : DecodeResult}
    (h : bech32Destination mainAddressParams dec = .ok d) : ¬IsBase58 d := by
  unfold bech32Destination at h
  split at h
  · cases h
  · split_ifs at h
    split at h
    · cases h
    · exact witnessDestination_not_base58 h

theorem decodeDestination_ne_of_isBech32 {str : Text} (hstr : isBech32 mainAddressParams str = true)
    (hd : IsBase58 d) : decodeDestination R mainAddressParams str ≠ .ok d := by
  intro h
  rw [decodeDestination, decodeDestinationError, if_pos hstr] at h
  cases hdec : bech32Decode str charLimit with
  | none =>
    simp only [hdec, bind, Except.bind, Except.ok.injEq] at h
    exact absurd hd (h ▸ id)
  | some dec =>
    cases hdest : bech32Destination mainAddressParams dec with
    | error e =>
      simp only [hdec, hdest, bind, Except.bind, Except.ok.injEq] at h
      exact absurd hd (h ▸ id)
    | ok d' =>
      simp only [hdec, hdest, bind, Except.bind, Except.ok.injEq] at h
      exact bech32Destination_not_base58 (h ▸ hdest) hd

theorem base58_comes_back (hd : IsBase58 d) (version : UInt8) (hash : Bytes 20)
    (hversion : version ≠ 0) (henc : encodeDestination R mainAddressParams d =
      encodeBase58Check R.sha256 (version :: hash.val))
    (hdest : base58Destination mainAddressParams (version :: hash.val) = .ok d) :
    ∃ str, encodeDestination R mainAddressParams d = .ok str ∧
      (decodeDestination R mainAddressParams str = .ok d ↔
        isBech32 mainAddressParams ((numeral 58 (base58Number R version hash)).map base58Char) =
          false) := by
  obtain ⟨str, hstr, hdec⟩ := decodeBase58Check_encodeBase58Check R.sha256 (version :: hash.val)
    (show 21 ≤ maxInt - 4 by decide) (by simp [hash.property])
  have htext := encodeBase58Check_eq R hversion hash
  obtain rfl : str = (numeral 58 (base58Number R version hash)).map base58Char := by
    rw [hstr] at htext
    exact Except.ok.inj htext
  refine ⟨_, henc.trans hstr, ⟨?_, ?_⟩⟩
  · intro h
    rw [← Bool.not_eq_true]
    exact fun hb => decodeDestination_ne_of_isBech32 R hb hd h
  · intro hb
    simp only [decodeDestination, decodeDestinationError, hb, Bool.false_eq_true, if_false, hdec,
      bind, Except.bind, hdest]

end Base58

section RoundTrip
variable (R : AddressRules)

/-- The destinations that have an address, each program under its own name. -/
def HasAddress : Destination → Prop
  | .noDestination _ => False
  | .pubKeyDestination _ => False
  | .witnessUnknown version program =>
    (1 ≤ version ∧ version ≤ 16) ∧ (2 ≤ program.length ∧ program.length ≤ 40) ∧
      ¬(version = 1 ∧ program.length = 32) ∧ isPayToAnchor version program = false
  | _ => True

/-- The leading three digits of the Base58 number do not spell the human readable part. -/
def NotSpelled : Destination → Prop
  | .pkHash hash =>
    base58Number R 65 hash / 58 ^ 31 ≠ 88010 ∧ base58Number R 65 hash / 58 ^ 31 ≠ 88035
  | .scriptHash hash =>
    base58Number R 127 hash / 58 ^ 31 ≠ 172110 ∧ base58Number R 127 hash / 58 ^ 31 ≠ 172135
  | _ => True

def ComesBack (d : Destination) : Prop :=
  ∃ str, encodeDestination R mainAddressParams d = .ok str ∧
    (decodeDestination R mainAddressParams str = .ok d ↔ NotSpelled R d)

theorem pkHash_comes_back (hash : Bytes 20) : ComesBack R (.pkHash hash) := by
  obtain ⟨str, henc, hiff⟩ := base58_comes_back R (d := .pkHash hash) trivial 65 hash
    (by decide) rfl (by simp [base58Destination, mainAddressParams, hash.property])
  refine ⟨str, henc, hiff.trans ?_⟩
  obtain ⟨hlo, hhi⟩ := base58Number_bounds R 65 hash
  rw [show (65 : UInt8).toNat = 65 from rfl] at hlo hhi
  have hspell := isBech32_numeral (n := base58Number R 65 hash) (by omega) (by omega)
  rw [← Bool.not_eq_true, hspell, NotSpelled]
  omega

theorem scriptHash_comes_back (hash : Bytes 20) : ComesBack R (.scriptHash hash) := by
  obtain ⟨str, henc, hiff⟩ := base58_comes_back R (d := .scriptHash hash) trivial 127 hash
    (by decide) rfl (by simp [base58Destination, mainAddressParams, hash.property])
  refine ⟨str, henc, hiff.trans ?_⟩
  obtain ⟨hlo, hhi⟩ := base58Number_bounds R 127 hash
  rw [show (127 : UInt8).toNat = 127 from rfl] at hlo hhi
  have hspell := isBech32_numeral (n := base58Number R 127 hash) (by omega) (by omega)
  rw [← Bool.not_eq_true, hspell, NotSpelled]
  omega

theorem witness_comes_back {d : Destination} (hspelled : NotSpelled R d) (encoding : Encoding)
    (version : ℕ) (program : List UInt8) (hversion : version ≤ 16) (hlen : program.length ≤ 40)
    (hencoding : encoding = .bech32 ↔ version = 0)
    (henc : encodeDestination R mainAddressParams d =
      encodeWitness mainAddressParams encoding version program)
    (hdest : witnessDestination version program = .ok d) : ComesBack R d := by
  obtain ⟨str, hstr, hdec⟩ := decodeDestinationError_encodeWitness R hversion hlen hencoding
  refine ⟨str, henc.trans hstr, iff_of_true ?_ hspelled⟩
  simp [decodeDestination, hdec, hdest, bind, Except.bind]

theorem witnessUnknown_comes_back {version : ℕ} {program : List UInt8}
    (h : HasAddress (.witnessUnknown version program)) :
    ComesBack R (.witnessUnknown version program) := by
  obtain ⟨⟨hv1, hv16⟩, ⟨hp2, hp40⟩, htaproot, hanchor⟩ := h
  have hmax : bech32WitnessProgMaxLen = 40 := rfl
  apply witness_comes_back R (d := .witnessUnknown version program) trivial .bech32m version
    program hv16 hp40
  · simp only [reduceCtorEq, false_iff]
    omega
  · rw [encodeDestination, encodeWitnessUnknown, if_neg (by omega)]
  · rw [witnessDestination, if_neg (by omega), dif_neg htaproot, hanchor,
      if_neg Bool.false_ne_true, if_neg (by omega), if_neg (by omega)]

/-- Every destination with an address is encoded, and its address is decoded to it exactly when
its Base58 text, if it has one, does not start like a Bech32 text of the network. -/
theorem decodeDestination_encodeDestination_iff (d : Destination) (hd : HasAddress d) :
    ∃ str, encodeDestination R mainAddressParams d = .ok str ∧
      (decodeDestination R mainAddressParams str = .ok d ↔ NotSpelled R d) := by
  cases d with
  | noDestination script => exact hd.elim
  | pubKeyDestination pubkey => exact hd.elim
  | pkHash hash => exact pkHash_comes_back R hash
  | scriptHash hash => exact scriptHash_comes_back R hash
  | witnessV0ScriptHash hash =>
    apply witness_comes_back R (d := .witnessV0ScriptHash hash) trivial .bech32 0 hash.val
      (by norm_num) (by simp [hash.property]) (by simp) rfl
    simp [witnessDestination, hash.property]
  | witnessV0KeyHash hash =>
    apply witness_comes_back R (d := .witnessV0KeyHash hash) trivial .bech32 0 hash.val
      (by norm_num) (by simp [hash.property]) (by simp) rfl
    simp [witnessDestination, hash.property]
  | witnessV1Taproot key =>
    apply witness_comes_back R (d := .witnessV1Taproot key) trivial .bech32m 1 key.val
      (by norm_num) (by simp [key.property]) (by simp) rfl
    simp [witnessDestination, key.property]
  | payToAnchor =>
    exact witness_comes_back R trivial .bech32m 1 anchorBytes (by norm_num) (by decide) (by simp)
      rfl rfl
  | witnessUnknown version program => exact witnessUnknown_comes_back R hd

def zeroHashRules : AddressRules := ⟨fun _ => ⟨_, length_zeros⟩, fun _ => ("", [])⟩

/-- The key hash of twenty zeros comes back under them. -/
theorem decodeDestination_zeros :
    HasAddress (.pkHash ⟨List.replicate 20 0, rfl⟩) ∧
      ∃ str, encodeDestination zeroHashRules mainAddressParams
          (.pkHash ⟨List.replicate 20 0, rfl⟩) = .ok str ∧
        decodeDestination zeroHashRules mainAddressParams str =
          .ok (.pkHash ⟨List.replicate 20 0, rfl⟩) := by
  have hd : HasAddress (.pkHash ⟨List.replicate 20 0, rfl⟩) := trivial
  obtain ⟨str, henc, hiff⟩ := decodeDestination_encodeDestination_iff zeroHashRules _ hd
  have hspelled : NotSpelled zeroHashRules (.pkHash ⟨List.replicate 20 0, rfl⟩) := by
    unfold NotSpelled
    decide
  exact ⟨hd, str, henc, hiff.mpr hspelled⟩

/-- The key hash of twenty fives does not come back, whatever the hash: its address starts with
`TAR`. -/
theorem pkHash_fives_lost (R : AddressRules) : ∃ str,
    encodeDestination R mainAddressParams (.pkHash ⟨List.replicate 20 5, rfl⟩) = .ok str ∧
      decodeDestination R mainAddressParams str ≠
        .ok (.pkHash ⟨List.replicate 20 5, rfl⟩) := by
  obtain ⟨str, henc, hiff⟩ := pkHash_comes_back R ⟨List.replicate 20 5, rfl⟩
  refine ⟨str, henc, fun h => ?_⟩
  have hchecksum := accumulate_lt (show 1 < 256 by norm_num)
    (toNat_lt_of_mem ((hash256 R.sha256 (65 :: List.replicate 20 5)).take 4))
  have hlen : (((hash256 R.sha256 (65 :: List.replicate 20 5)).take 4).map
      UInt8.toNat).length = 4 := by
    simp [hash256, (R.sha256 _).property]
  have hfront : accumulate 256 0 ((65 :: List.replicate 20 5 : List UInt8).map UInt8.toNat) =
      95026263321358315230655272652690088101550437500165 := by decide
  have hspelled := (hiff.mp h).1
  simp only [base58Number, List.map_append, accumulate_append] at hspelled
  rw [accumulate_eq] at hspelled
  rw [hlen] at hchecksum hspelled
  omega

theorem decodeDestination_fives :
    HasAddress (.pkHash ⟨List.replicate 20 5, rfl⟩) ∧
      ∃ str, encodeDestination zeroHashRules mainAddressParams
          (.pkHash ⟨List.replicate 20 5, rfl⟩) = .ok str ∧
        decodeDestination zeroHashRules mainAddressParams str ≠
          .ok (.pkHash ⟨List.replicate 20 5, rfl⟩) :=
  ⟨trivial, pkHash_fives_lost zeroHashRules⟩

end RoundTrip

end Tarcoin
