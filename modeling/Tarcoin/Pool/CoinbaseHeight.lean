import Tarcoin.Pool.Job
import Tarcoin.Script.ScriptNum

/-! The height that the pool writes into a coinbase against the one the node expects, which has a
sign byte and opcodes for the heights up to 16. -/
namespace Tarcoin.Pool

/-- `n + 1` is the number of bytes of `h`. -/
def IsSize (n h : ℕ) : Prop := 256 ^ n ≤ h ∧ h < 256 ^ (n + 1)

section Bytes
variable {n h : ℕ}

theorem IsSize.div (hs : IsSize (n + 1) h) : IsSize n (h / 256) := by
  obtain ⟨hlow, hhigh⟩ := hs
  constructor
  · rw [Nat.le_div_iff_mul_le (by norm_num)]
    exact hlow
  · rw [Nat.div_lt_iff_lt_mul (by norm_num)]
    exact hhigh

theorem magnitudeBytes_eq {room : ℕ} (hs : IsSize n h) (hroom : n < room) :
    magnitudeBytes room h = littleEndian (n + 1) h := by
  induction n generalizing room h with
  | zero =>
    obtain ⟨room, rfl⟩ := Nat.exists_eq_add_of_lt hroom
    obtain ⟨hlow, hhigh⟩ := hs
    have hdiv : h / 256 = 0 := by omega
    have hnil : magnitudeBytes (0 + room) 0 = [] := by
      cases room <;> simp [magnitudeBytes]
    rw [magnitudeBytes, if_neg (by omega), hdiv, hnil]
    rfl
  | succ n ih =>
    obtain ⟨room, rfl⟩ := Nat.exists_eq_add_of_lt hroom
    have hpos : h ≠ 0 := by
      have := hs.1
      have : 0 < 256 ^ (n + 1) := by positivity
      omega
    rw [magnitudeBytes, if_neg hpos, ih hs.div (by omega)]
    rfl

theorem getLast?_littleEndian (hs : IsSize n h) :
    (littleEndian (n + 1) h).getLast? = some (UInt8.ofNat (h / 256 ^ n)) := by
  induction n generalizing h with
  | zero =>
    have := hs.2
    simp only [littleEndian, List.getLast?_singleton]
    rw [Nat.mod_eq_of_lt (by omega), pow_zero, Nat.div_one]
  | succ n ih =>
    rw [littleEndian, littleEndian, List.getLast?_cons_cons, ← littleEndian, ih hs.div,
      Nat.div_div_eq_div_mul, ← pow_succ']

theorem take_littleEndian {m : ℕ} (hm : n ≤ m) (h : ℕ) :
    (littleEndian m h).take n = littleEndian n h := by
  induction n generalizing m h with
  | zero => rfl
  | succ n ih =>
    obtain ⟨m, rfl⟩ := Nat.exists_eq_add_of_lt hm
    simp only [littleEndian, List.take_succ_cons]
    rw [ih (by omega)]

theorem signByte : ∀ b : Fin 256, (UInt8.ofNat b &&& 0x80 ≠ 0 ↔ 128 ≤ b.val) := by
  decide +kernel

theorem scriptNumSerialize_eq (hs : IsSize n h) (hn : n < 8) :
    scriptNumSerialize h =
      littleEndian (n + 1) h ++ if 128 ≤ h / 256 ^ n then [0] else [] := by
  have htop : h / 256 ^ n < 256 := by
    rw [Nat.div_lt_iff_lt_mul (by positivity), ← pow_succ']
    exact hs.2
  have hneg : ¬ (h : ℤ) < 0 := by omega
  simp only [scriptNumSerialize, Int.natAbs_natCast, magnitudeBytes_eq hs hn,
    getLast?_littleEndian hs, signByte ⟨_, htop⟩, hneg, if_false]
  split_ifs
  · rfl
  · rw [List.append_nil]

end Bytes

theorem littleEndian_four (h : ℕ) : littleEndian 4 h = [UInt8.ofNat (h % 256),
    UInt8.ofNat (h / 256 % 256), UInt8.ofNat (h / 256 / 256 % 256),
    UInt8.ofNat (h / 256 / 256 / 256 % 256)] := rfl

theorem ofNat_eq_zero_iff {b : ℕ} (hb : b < 256) : UInt8.ofNat b = 0 ↔ b = 0 := by
  rw [← UInt8.toNat_inj, UInt8.toNat_ofNat']
  simp only [UInt8.toNat_zero]
  omega

variable {n h : ℕ} {template : NodeTemplate}

theorem trimHeight_eq (hs : IsSize n h) (hn : n < 4) : trimHeight 4 (littleEndian 4 h) = n + 1 := by
  obtain ⟨hlow, hhigh⟩ := hs
  have h1 := ofNat_eq_zero_iff (Nat.mod_lt (h / 256) (show 0 < 256 by norm_num))
  have h2 := ofNat_eq_zero_iff (Nat.mod_lt (h / 256 / 256) (show 0 < 256 by norm_num))
  have h3 := ofNat_eq_zero_iff (Nat.mod_lt (h / 256 / 256 / 256) (show 0 < 256 by norm_num))
  simp only [trimHeight, littleEndian_four, List.getD_cons_succ, List.getD_cons_zero, h1, h2, h3]
  interval_cases n <;> norm_num at hlow hhigh ⊢ <;> split_ifs <;> omega

theorem exists_isSize (hpos : 1 ≤ h) (hlt : h < 2 ^ 31) : ∃ n < 4, IsSize n h := by
  unfold IsSize
  by_cases h1 : h < 256
  · exact ⟨0, by norm_num, by omega, by omega⟩
  by_cases h2 : h < 256 ^ 2
  · exact ⟨1, by norm_num, by omega, by omega⟩
  by_cases h3 : h < 256 ^ 3
  · exact ⟨2, by norm_num, by omega, by omega⟩
  · exact ⟨3, by norm_num, by omega, by omega⟩

theorem heightScript_eq (hs : IsSize n h) (hn : n < 4) :
    heightScript h = .ok (UInt8.ofNat (n + 1) :: littleEndian (n + 1) h) := by
  have hfit : ¬ ((h : ℤ) < 0 ∨ 2 ^ 32 ≤ (h : ℤ)) := by
    have := hs.2.trans_le (Nat.pow_le_pow_right (show 0 < 256 by norm_num) (show n + 1 ≤ 4 by omega))
    omega
  have hwrite : writeUInt32LE (some (h : ℤ)) = .ok (littleEndian 4 h) := by
    simp only [writeUInt32LE, hfit, if_false, Int.toNat_natCast]
  unfold heightScript
  rw [hwrite]
  change Except.ok (UInt8.ofNat (trimHeight 4 (littleEndian 4 h)) ::
    (littleEndian 4 h).take (trimHeight 4 (littleEndian 4 h))) = _
  rw [trimHeight_eq hs hn, take_littleEndian (by omega)]

theorem pushInt64_eq (hs : IsSize n h) (hn : n < 4) (hbig : 16 < h) :
    pushInt64 h = UInt8.ofNat (n + 1 + if 128 ≤ h / 256 ^ n then 1 else 0) ::
      (littleEndian (n + 1) h ++ if 128 ≤ h / 256 ^ n then [0] else []) := by
  have hsmall : ¬ ((h : ℤ) = -1 ∨ (1 ≤ (h : ℤ) ∧ (h : ℤ) ≤ 16)) := by omega
  have hzero : ¬ (h : ℤ) = 0 := by omega
  unfold pushInt64
  rw [if_neg hsmall, if_neg hzero, scriptNumSerialize_eq hs (by omega)]
  have hlen : (littleEndian (n + 1) h ++ if 128 ≤ h / 256 ^ n then [0] else ([] : List UInt8)).length =
      n + 1 + if 128 ≤ h / 256 ^ n then 1 else 0 := by
    split_ifs <;> simp
  rw [hlen, appendDataSize, if_pos]
  · rfl
  · change _ < 76
    split_ifs <;> omega

/-- The bytes of the coinbase behind its version, the input count, the null outpoint and the
length of the script: what the script opens with. -/
def coinbaseOpening (template : NodeTemplate) : Except JsError (List UInt8) :=
  (buildCoinbase1 template).map fun coinbase1 => (Hex.decode coinbase1).drop 42

theorem coinbaseOpening_eq {script : List UInt8} (hheight : template.height = some h) (hpos : 1 ≤ h)
    (hscript : heightScript h = .ok script) : coinbaseOpening template = .ok script := by
  have hor : orDefault 0 0 template.height = h := by
    rw [hheight, orDefault, if_neg (by omega)]
  have hfixed : "01000000".toList ++ "01".toList ++ zeroHash ++ "ffffffff".toList =
      Hex.encode ([1, 0, 0, 0, 1] ++ List.replicate 32 0 ++ [0xff, 0xff, 0xff, 0xff]) := by
    decide
  unfold coinbaseOpening buildCoinbase1
  rw [hor, hscript]
  change Except.ok ((Hex.decode (_ ++ Hex.encode [UInt8.ofNat (script.length + 8)] ++
    Hex.encode script)).drop 42) = _
  rw [hfixed, ← Hex.encode_append, ← Hex.encode_append, Hex.decode_encode]
  rfl

theorem pushInt64_small (hpos : 1 ≤ h) (hsmall : h ≤ 16) :
    pushInt64 h = [UInt8.ofNat (h + 80)] := by
  have hrange : (h : ℤ) = -1 ∨ (1 ≤ (h : ℤ) ∧ (h : ℤ) ≤ 16) := by omega
  rw [pushInt64, if_pos hrange]
  congr 1

section Agreement
variable {n h : ℕ}

theorem pushInt64_head_ne (hs : IsSize n h) (hn : n < 4)
    (hdiff : h ≤ 16 ∨ 128 ≤ h / 256 ^ n) (hpos : 1 ≤ h) :
    ∃ b rest, pushInt64 h = b :: rest ∧ b ≠ UInt8.ofNat (n + 1) := by
  by_cases hsmall : h ≤ 16
  · refine ⟨_, _, pushInt64_small hpos hsmall, ?_⟩
    rw [ne_eq, ← UInt8.toNat_inj, UInt8.toNat_ofNat', UInt8.toNat_ofNat']
    omega
  · have htop := hdiff.resolve_left hsmall
    refine ⟨_, _, pushInt64_eq hs hn (by omega), ?_⟩
    rw [if_pos htop, ne_eq, ← UInt8.toNat_inj, UInt8.toNat_ofNat', UInt8.toNat_ofNat']
    omega

theorem opening_eq_pushInt64_iff (hs : IsSize n h) (hn : n < 4) (hpos : 1 ≤ h) :
    UInt8.ofNat (n + 1) :: littleEndian (n + 1) h = pushInt64 h ↔ 16 < h ∧ h / 256 ^ n < 128 := by
  constructor
  · intro heq
    by_contra hcon
    obtain ⟨b, rest, hpush, hne⟩ := pushInt64_head_ne hs hn (by omega) hpos
    rw [hpush] at heq
    exact hne (List.cons.inj heq).1.symm
  · rintro ⟨hbig, htop⟩
    rw [pushInt64_eq hs hn hbig, if_neg (by omega), if_neg (by omega), List.append_nil]

end Agreement

/-- The pool and the node agree on a height exactly when it has no opcode of its own and its
last byte leaves the sign bit clear. -/
theorem coinbaseOpening_eq_pushInt64_iff (template : NodeTemplate) (h : ℕ)
    (hheight : template.height = some h) (hpos : 1 ≤ h) (hlt : h < 2 ^ 31) :
    coinbaseOpening template = .ok (pushInt64 h) ↔
      16 < h ∧ ¬ (2 ^ 7 ≤ h ∧ h < 2 ^ 8) ∧ ¬ (2 ^ 15 ≤ h ∧ h < 2 ^ 16) ∧
        ¬ (2 ^ 23 ≤ h ∧ h < 2 ^ 24) := by
  obtain ⟨n, hn, hs⟩ := exists_isSize hpos hlt
  rw [coinbaseOpening_eq hheight hpos (heightScript_eq hs hn), Except.ok.injEq,
    opening_eq_pushInt64_iff hs hn hpos]
  obtain ⟨hlow, hhigh⟩ := hs
  interval_cases n <;> norm_num at hlow hhigh ⊢ <;> omega

/-- A height in the first band the node's rule covers: the pool pushes two bytes, the node
expects three. -/
theorem coinbaseOpening_differs :
    coinbaseOpening ⟨none, some 32768, none, none, [], 0x20000000, []⟩ = .ok [2, 0x00, 0x80] ∧
      pushInt64 32768 = [3, 0x00, 0x80, 0x00] := by
  decide

/-- Just before that band the two agree. -/
theorem coinbaseOpening_agrees :
    coinbaseOpening ⟨none, some 32767, none, none, [], 0x20000000, []⟩ = .ok (pushInt64 32767) :=
  (coinbaseOpening_eq_pushInt64_iff ⟨none, some 32767, none, none, [], 0x20000000, []⟩ 32767 rfl
    (by norm_num) (by norm_num)).mpr (by norm_num)

/-- At the other heights the node refuses the coinbase, whatever follows the height. -/
theorem coinbaseHeightOk_iff (params : ConsensusParams) {opening : List UInt8}
    (hheight : template.height = some h) (hpos : 1 ≤ h) (hlt : h < 2 ^ 31)
    (hopen : coinbaseOpening template = .ok opening) (extraNonces : List UInt8) :
    coinbaseHeightOk params h (opening ++ extraNonces) = true ↔
      h < params.bip34Height ∨ opening = pushInt64 h := by
  obtain ⟨n, hn, hs⟩ := exists_isSize hpos hlt
  rw [coinbaseOpening_eq hheight hpos (heightScript_eq hs hn), Except.ok.injEq] at hopen
  subst hopen
  rw [coinbaseHeightOk, Bool.or_eq_true, decide_eq_true_iff, List.isPrefixOf_iff_prefix]
  apply or_congr_right
  constructor
  · rintro ⟨rest, hrest⟩
    by_contra hne
    rw [opening_eq_pushInt64_iff hs hn hpos] at hne
    obtain ⟨b, tail, hpush, hb⟩ := pushInt64_head_ne hs hn (by omega) hpos
    rw [hpush] at hrest
    exact hb (List.cons.inj hrest).1
  · intro heq
    rw [← heq]
    exact List.prefix_append _ _

theorem coinbaseHeightOk_band : ¬ coinbaseHeightOk mainParams 32768 ([2, 0, 0x80] ++ [7]) = true := by
  have hopen : coinbaseOpening ⟨none, some 32768, none, none, [], 0, []⟩ = .ok [2, 0, 0x80] := rfl
  rw [coinbaseHeightOk_iff mainParams rfl (by decide) (by decide) hopen]
  decide

end Tarcoin.Pool
