import Tarcoin.Pool.Js

/-! What `parseInt(s, 16)` and `writeUInt32LE` make of digits, and that padded `toString(16)` is
read back. -/
namespace Tarcoin.Pool
open Radix

section Read
variable {s s' : Text}

def Hex8 (s : Text) : Prop := s.length = 8 ∧ Hex.IsHex s

instance : DecidablePred Hex8 := fun s => inferInstanceAs (Decidable (s.length = 8 ∧ Hex.IsHex s))

theorem map_value_of_isHex (hs : Hex.IsHex s) : s.map Hex.value = (hexDigits s).map some := by
  induction s with
  | nil => rfl
  | cons c s ih =>
    obtain ⟨d, hd⟩ := Option.isSome_iff_exists.mp (hs c List.mem_cons_self)
    simp [hexDigits, hd, ih fun c hc => hs c (List.mem_cons_of_mem _ hc)]

theorem hexDigits_lt (s : Text) : ∀ d ∈ hexDigits s, d < 16 := by
  induction s with
  | nil => exact nofun
  | cons c s ih =>
    unfold hexDigits
    split
    · rename_i d hd
      exact List.forall_mem_cons.mpr ⟨(Hex.toLower_of_value hd).1, ih⟩
    · exact nofun

theorem notMem_of_isHex (hs : Hex.IsHex s) {m : Char} (hm : Hex.value m = none) : m ∉ s := by
  intro hmem
  have := hs m hmem
  rw [hm] at this
  cases this

theorem parseHexUnsigned_of_isHex (hs : Hex.IsHex s) (hne : s ≠ []) :
    parseHexUnsigned s = some (accumulate 16 0 (hexDigits s)) := by
  have hunsigned : parseHexUnsigned s = parseHexDigits s := by
    unfold parseHexUnsigned
    split
    · exact absurd (by simp) (notMem_of_isHex hs (m := 'x') (by decide))
    · exact absurd (by simp) (notMem_of_isHex hs (m := 'X') (by decide))
    · rfl
  obtain ⟨c, rest, rfl⟩ := List.exists_cons_of_ne_nil hne
  obtain ⟨d, hd⟩ := Option.isSome_iff_exists.mp (hs c List.mem_cons_self)
  simp [hunsigned, parseHexDigits, hexDigits, hd]

theorem parseInt16_of_isHex (hs : Hex.IsHex s) (hne : s ≠ []) :
    parseInt16 s = some ((accumulate 16 0 (hexDigits s) : ℕ) : ℤ) := by
  have hunsigned := parseHexUnsigned_of_isHex hs hne
  obtain ⟨c, rest, rfl⟩ := List.exists_cons_of_ne_nil hne
  obtain ⟨d, hd⟩ := Option.isSome_iff_exists.mp (hs c List.mem_cons_self)
  have hspace : isSpace c = false :=
    Hex.of_digit (P := fun c => (Hex.value c).isSome = true → isSpace c = false) (by decide) hd
      (hs c List.mem_cons_self)
  have hskip : (c :: rest).dropWhile isSpace = c :: rest := by
    rw [List.dropWhile_cons_of_neg (by simp [hspace])]
  unfold parseInt16
  rw [hskip]
  split
  · rename_i heq
    exact absurd (heq ▸ List.mem_cons_self) (notMem_of_isHex hs (m := '-') (by decide))
  · rename_i heq
    exact absurd (heq ▸ List.mem_cons_self) (notMem_of_isHex hs (m := '+') (by decide))
  · rw [hunsigned]
    rfl

theorem littleEndian_inj {width m n : ℕ} (hm : m < 256 ^ width) (hn : n < 256 ^ width)
    (h : littleEndian width m = littleEndian width n) : m = n := by
  induction width generalizing m n with
  | zero => omega
  | succ width ih =>
    obtain ⟨hlow, hhigh⟩ := List.cons.inj h
    have hlow : m % 256 = n % 256 := by
      simpa using congrArg UInt8.toNat hlow
    have := ih (Nat.div_lt_of_lt_mul (by omega)) (Nat.div_lt_of_lt_mul (by omega)) hhigh
    omega

theorem writeUInt32LE_of_hex8 (hs : Hex8 s) : accumulate 16 0 (hexDigits s) < 256 ^ 4 ∧
    writeUInt32LE (parseInt16 s) = .ok (littleEndian 4 (accumulate 16 0 (hexDigits s))) := by
  have hlen : (hexDigits s).length = 8 := by
    have := congrArg List.length (map_value_of_isHex hs.2)
    rw [List.length_map, List.length_map, hs.1] at this
    exact this.symm
  have hlt := accumulate_lt (b := 16) (by decide) (hexDigits_lt s)
  rw [hlen] at hlt
  have hne : s ≠ [] := List.ne_nil_of_length_pos (by rw [hs.1]; decide)
  refine ⟨by omega, ?_⟩
  rw [parseInt16_of_isHex hs.2 hne]
  simp only [writeUInt32LE]
  rw [if_neg (by omega), Int.toNat_natCast]

theorem toLower_of_written (hs : Hex8 s) (hs' : Hex8 s') {bytes : List UInt8}
    (h : writeUInt32LE (parseInt16 s) = .ok bytes) (h' : writeUInt32LE (parseInt16 s') = .ok bytes) :
    s.map Char.toLower = s'.map Char.toLower := by
  obtain ⟨hlt, hword⟩ := writeUInt32LE_of_hex8 hs
  obtain ⟨hlt', hword'⟩ := writeUInt32LE_of_hex8 hs'
  have hbytes := Except.ok.inj ((hword.symm.trans h).trans (h'.symm.trans hword'))
  have hlen : (s.map Hex.value).length = (s'.map Hex.value).length := by
    rw [List.length_map, List.length_map, hs.1, hs'.1]
  rw [map_value_of_isHex hs.2, map_value_of_isHex hs'.2, List.length_map, List.length_map] at hlen
  have hdigits := accumulate_inj (b := 16) (by decide) (hexDigits_lt s) (hexDigits_lt s') hlen
    (littleEndian_inj hlt hlt' hbytes)
  apply Hex.map_toLower_of_value hs.2
  rw [map_value_of_isHex hs.2, map_value_of_isHex hs'.2, hdigits]

end Read

section Written

theorem hexDigits_append {s : Text} (hs : Hex.IsHex s) (t : Text) :
    hexDigits (s ++ t) = hexDigits s ++ hexDigits t := by
  induction s with
  | nil => rfl
  | cons c s ih =>
    obtain ⟨d, hd⟩ := Option.isSome_iff_exists.mp (hs c List.mem_cons_self)
    simp [hexDigits, hd, ih fun c hc => hs c (List.mem_cons_of_mem _ hc)]

theorem isHex_append {s t : Text} (hs : Hex.IsHex s) (ht : Hex.IsHex t) : Hex.IsHex (s ++ t) :=
  fun c hc => (List.mem_append.mp hc).elim (hs c) (ht c)

theorem isHex_digit {d : ℕ} (hd : d < 16) : Hex.IsHex [d.digitChar] := by
  intro c hc
  obtain rfl := List.mem_singleton.mp hc
  rw [show d.digitChar = Hex.digit d from rfl, Hex.value_digit d hd]
  rfl

theorem hexDigits_digit {d : ℕ} (hd : d < 16) : hexDigits [d.digitChar] = [d] := by
  have hvalue : Hex.value d.digitChar = some d := Hex.value_digit d hd
  simp only [hexDigits, hvalue]

theorem toDigits_spec (n : ℕ) : Hex.IsHex (Nat.toDigits 16 n) ∧
    accumulate 16 0 (hexDigits (Nat.toDigits 16 n)) = n := by
  induction n using Nat.strongRecOn with
  | ind n ih =>
    rcases lt_or_ge n 16 with hlt | hge
    · rw [Nat.toDigits_of_lt_base hlt, hexDigits_digit hlt]
      exact ⟨isHex_digit hlt, by simp⟩
    · obtain ⟨hhex, hvalue⟩ := ih (n / 16) (by omega)
      have hlast : n % 16 < 16 := Nat.mod_lt n (by decide)
      rw [Nat.toDigits_of_base_le (by decide) hge, hexDigits_append hhex, accumulate_append,
        hexDigits_digit hlast]
      refine ⟨isHex_append hhex (isHex_digit hlast), ?_⟩
      rw [accumulate_cons, accumulate_nil]
      omega

theorem hexDigits_zeros (k : ℕ) (s : Text) :
    hexDigits (List.replicate k '0' ++ s) = List.replicate k 0 ++ hexDigits s := by
  induction k with
  | zero => rfl
  | succ k ih =>
    rw [List.replicate_succ, List.replicate_succ, List.cons_append, List.cons_append, ← ih]
    rfl

theorem padStart_spec (width n : ℕ) : Hex.IsHex (padStart width (Nat.toDigits 16 n)) ∧
    accumulate 16 0 (hexDigits (padStart width (Nat.toDigits 16 n))) = n := by
  obtain ⟨hhex, hvalue⟩ := toDigits_spec n
  rw [padStart, List.leftpad, hexDigits_zeros, accumulate_zeros]
  refine ⟨isHex_append ?_ hhex, hvalue⟩
  intro c hc
  rw [List.eq_of_mem_replicate hc]
  rfl

theorem parseInt16_padStart (width n : ℕ) :
    parseInt16 (padStart width (Nat.toDigits 16 n)) = some (n : ℤ) := by
  obtain ⟨hhex, hvalue⟩ := padStart_spec width n
  rw [parseInt16_of_isHex hhex, hvalue]
  exact List.append_ne_nil_of_right_ne_nil _ Nat.toDigits_ne_nil

theorem length_toDigits_le {n k : ℕ} (hk : 0 < k) (h : n < 16 ^ k) : (Nat.toDigits 16 n).length ≤ k := by
  induction k generalizing n with
  | zero => exact absurd hk (lt_irrefl 0)
  | succ k ih =>
    rcases lt_or_ge n 16 with hlt | hge
    · rw [Nat.toDigits_of_lt_base hlt, List.length_singleton]
      omega
    · have hpos : 0 < k := by
        rcases Nat.eq_zero_or_pos k with rfl | hpos
        · omega
        · exact hpos
      rw [Nat.toDigits_of_base_le (by decide) hge, List.length_append, List.length_singleton]
      have := ih (n := n / 16) hpos (by omega)
      omega

theorem hex8_padStart {n : ℕ} (h : n < 2 ^ 32) : Hex8 (padStart 8 (Nat.toDigits 16 n)) := by
  refine ⟨?_, (padStart_spec 8 n).1⟩
  have hlen := length_toDigits_le (k := 8) (by decide) (by omega)
  rw [padStart, List.length_leftpad]
  omega

end Written

section Bytes

theorem accumulate_decode : ∀ {s : Text}, Hex.IsHex s → s.length % 2 = 0 → ∀ v : ℕ,
    accumulate 16 v (hexDigits s) = accumulate 256 v ((Hex.decode s).map UInt8.toNat)
  | [], _, _, _ => rfl
  | [_], _, heven, _ => by cases heven
  | a :: b :: s, hs, heven, v => by
    obtain ⟨hi, hhi⟩ := Option.isSome_iff_exists.mp (hs a (by simp))
    obtain ⟨lo, hlo⟩ := Option.isSome_iff_exists.mp (hs b (by simp))
    have hhi' := (Hex.toLower_of_value hhi).1
    have hlo' := (Hex.toLower_of_value hlo).1
    have hbyte : (UInt8.ofNat (16 * hi + lo)).toNat = 16 * hi + lo := by
      rw [UInt8.toNat_ofNat']
      omega
    rw [Hex.decode_cons_cons hhi hlo]
    simp only [hexDigits, hhi, hlo, List.map_cons, accumulate_cons, hbyte]
    rw [accumulate_decode (s := s) (fun c hc => hs c (by simp [hc])) (by simp at heven; omega)]
    congr 1
    ring

theorem littleEndian_accumulate (bytes : List UInt8) :
    littleEndian bytes.length (accumulate 256 0 (bytes.map UInt8.toNat)) = bytes.reverse := by
  induction bytes using List.reverseRecOn with
  | nil => rfl
  | append_singleton bytes b ih =>
    have hb := b.toNat_lt
    rw [List.map_append, accumulate_append, List.length_append, List.reverse_append]
    change UInt8.ofNat ((_ * 256 + b.toNat) % 256) :: littleEndian bytes.length
      ((_ * 256 + b.toNat) / 256) = b :: bytes.reverse
    rw [show ∀ n, (n * 256 + b.toNat) % 256 = b.toNat by omega,
      show ∀ n, (n * 256 + b.toNat) / 256 = n by omega, ih, UInt8.ofNat_toNat]

theorem writeUInt32LE_decode {s : Text} (hs : Hex8 s) :
    writeUInt32LE (parseInt16 s) = .ok (Hex.decode s).reverse := by
  have heven : s.length % 2 = 0 := by rw [hs.1]
  have hlen := (Hex.decode_append hs.2 heven []).2
  rw [hs.1] at hlen
  rw [(writeUInt32LE_of_hex8 hs).2, accumulate_decode hs.2 heven, ← littleEndian_accumulate,
    show (Hex.decode s).length = 4 by omega]

end Bytes

section Bits

theorem nearestDouble_of_lt {n : ℕ} (h : n < 2 ^ 53) : nearestDouble n = n := by
  have hunit : Nat.log2 n + 1 - 53 = 0 := by
    rcases Nat.eq_zero_or_pos n with rfl | hpos
    · rfl
    · have := (Nat.log2_lt hpos.ne').mpr h
      omega
  simp [nearestDouble, hunit, Nat.mod_one]

theorem toBits32_natCast {n : ℕ} (h : n < 2 ^ 32) : (toBits32 (some (n : ℤ))).toNat = n := by
  have hsign : (n : ℤ).sign * (n : ℤ) = n := by
    rcases Nat.eq_zero_or_pos n with rfl | hpos
    · rfl
    · rw [Int.sign_eq_one_of_pos (by omega), one_mul]
  rw [toBits32, Int.natAbs_natCast, nearestDouble_of_lt (by omega), hsign, BitVec.ofInt_natCast,
    BitVec.toNat_ofNat, Nat.mod_eq_of_lt h]

end Bits

end Tarcoin.Pool
