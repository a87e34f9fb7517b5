import Mathlib.Tactic

/-! Bytes as pairs of hexadecimal digits. Reading takes both cases and stops at the first pair
that is not two digits. -/
namespace Hex

def digit (n : ℕ) : Char := Nat.digitChar n

def value (c : Char) : Option ℕ :=
  if '0' ≤ c ∧ c ≤ '9' then some (c.toNat - 48)
  else if 'a' ≤ c ∧ c ≤ 'f' then some (c.toNat - 87)
  else if 'A' ≤ c ∧ c ≤ 'F' then some (c.toNat - 55)
  else none

def encodeByte (b : UInt8) : List Char := [digit (b.toNat / 16), digit (b.toNat % 16)]

def encode (bytes : List UInt8) : List Char := bytes.flatMap encodeByte

/-- Read pairs of digits up to the first pair that is none. -/
def decode : List Char → List UInt8
  | hi :: lo :: rest =>
    match value hi, value lo with
    | some h, some l => UInt8.ofNat (16 * h + l) :: decode rest
    | _, _ => []
  | _ => []

theorem value_digit : ∀ n < 16, value (digit n) = some n := by decide

@[simp] theorem encode_cons (b : UInt8) (bytes : List UInt8) :
    encode (b :: bytes) = encodeByte b ++ encode bytes := rfl

@[simp] theorem encode_append (xs ys : List UInt8) : encode (xs ++ ys) = encode xs ++ encode ys :=
  List.flatMap_append

@[simp] theorem length_encode (bytes : List UInt8) : (encode bytes).length = 2 * bytes.length := by
  induction bytes with
  | nil => rfl
  | cons b bytes ih =>
    simp only [encode_cons, encodeByte, List.length_append, List.length_cons, List.length_nil, ih]
    omega

theorem decode_cons_cons {hi lo : Char} {h l : ℕ} (hh : value hi = some h) (hl : value lo = some l)
    (rest : List Char) : decode (hi :: lo :: rest) = UInt8.ofNat (16 * h + l) :: decode rest := by
  simp only [decode, hh, hl]

@[simp] theorem decode_encode_append (bytes : List UInt8) (rest : List Char) :
    decode (encode bytes ++ rest) = bytes ++ decode rest := by
  induction bytes with
  | nil => rfl
  | cons b bytes ih =>
    have hb := b.toNat_lt
    have hhi := value_digit (b.toNat / 16) (by omega)
    have hlo := value_digit (b.toNat % 16) (by omega)
    have hsum : 16 * (b.toNat / 16) + b.toNat % 16 = b.toNat := by omega
    rw [encode_cons, encodeByte, List.append_assoc, List.cons_append, List.cons_append,
      List.nil_append, decode_cons_cons hhi hlo, ih, hsum, UInt8.ofNat_toNat, List.cons_append]

@[simp] theorem decode_encode (bytes : List UInt8) : decode (encode bytes) = bytes := by
  simpa [decode] using decode_encode_append bytes []

theorem encode_injective : Function.Injective encode :=
  Function.LeftInverse.injective decode_encode

def IsHex (s : List Char) : Prop := ∀ c ∈ s, (value c).isSome = true

instance : DecidablePred IsHex := fun _ => decidable_of_iff _ List.all_eq_true

theorem toNat_lt_of_value {c : Char} {d : ℕ} (h : value c = some d) : c.toNat < 128 := by
  unfold value at h
  split_ifs at h with h₁ h₂ h₃
  · exact lt_of_le_of_lt (show c.toNat ≤ '9'.toNat from h₁.2) (by decide)
  · exact lt_of_le_of_lt (show c.toNat ≤ 'f'.toNat from h₂.2) (by decide)
  · exact lt_of_le_of_lt (show c.toNat ≤ 'F'.toNat from h₃.2) (by decide)

/-- A fact about digits can be checked by listing the characters below 128. -/
theorem of_digit {P : Char → Prop} (hall : ∀ n < 128, P (Char.ofNat n)) {c : Char} {d : ℕ}
    (h : value c = some d) : P c :=
  Char.ofNat_toNat c ▸ hall c.toNat (toNat_lt_of_value h)

theorem toLower_of_value {c : Char} {d : ℕ} (h : value c = some d) : d < 16 ∧ c.toLower = digit d := by
  have hc : ((value c).all fun d => decide (d < 16 ∧ c.toLower = digit d)) = true :=
    of_digit (P := fun c => ((value c).all fun d => decide (d < 16 ∧ c.toLower = digit d)) = true)
      (by decide) h
  rw [h] at hc
  exact of_decide_eq_true hc

section Digits
variable {s s' : List Char}

theorem IsHex.ascii (hs : IsHex s) : ∀ c ∈ s, c.toNat < 128 := by
  intro c hc
  obtain ⟨d, hd⟩ := Option.isSome_iff_exists.mp (hs c hc)
  exact toNat_lt_of_value hd

theorem isHex_encode (bytes : List UInt8) : IsHex (encode bytes) := by
  intro c hc
  obtain ⟨b, -, hc⟩ := List.mem_flatMap.mp hc
  have hb := b.toNat_lt
  rcases List.mem_cons.mp hc with rfl | hc
  · rw [value_digit _ (by omega)]
    rfl
  · obtain rfl := List.mem_singleton.mp hc
    rw [value_digit _ (by omega)]
    rfl

theorem map_toLower_of_value (hs : IsHex s) (h : s.map value = s'.map value) :
    s.map Char.toLower = s'.map Char.toLower := by
  induction s generalizing s' with
  | nil =>
    obtain rfl := List.map_eq_nil_iff.mp h.symm
    rfl
  | cons c s ih =>
    cases s' with
    | nil => cases h
    | cons c' s' =>
      obtain ⟨hc, hrest⟩ := List.cons.inj h
      obtain ⟨d, hd⟩ := Option.isSome_iff_exists.mp (hs c List.mem_cons_self)
      rw [List.map_cons, List.map_cons, (toLower_of_value hd).2, (toLower_of_value (hc ▸ hd)).2,
        ih (fun c hc => hs c (List.mem_cons_of_mem _ hc)) hrest]

theorem map_value_of_decode : ∀ {s s' : List Char}, IsHex s → IsHex s' → s.length = s'.length →
    s.length % 2 = 0 → decode s = decode s' → s.map value = s'.map value
  | [], [], _, _, _, _, _ => rfl
  | [_], _, _, _, _, heven, _ => by cases heven
  | [], _ :: _, _, _, hlen, _, _ => by cases hlen
  | _ :: _ :: _, [], _, _, hlen, _, _ => by cases hlen
  | _ :: _ :: _, [_], _, _, hlen, _, _ => by simp at hlen
  | a :: b :: s, a' :: b' :: s', hs, hs', hlen, heven, h => by
    obtain ⟨hi, hhi⟩ := Option.isSome_iff_exists.mp (hs a (by simp))
    obtain ⟨lo, hlo⟩ := Option.isSome_iff_exists.mp (hs b (by simp))
    obtain ⟨hi', hhi'⟩ := Option.isSome_iff_exists.mp (hs' a' (by simp))
    obtain ⟨lo', hlo'⟩ := Option.isSome_iff_exists.mp (hs' b' (by simp))
    rw [decode_cons_cons hhi hlo, decode_cons_cons hhi' hlo'] at h
    obtain ⟨hbyte, hrest⟩ := List.cons.inj h
    have hlt := (toLower_of_value hhi).1
    have hlt' := (toLower_of_value hlo).1
    have hlt₁ := (toLower_of_value hhi').1
    have hlt₁' := (toLower_of_value hlo').1
    have hnum : (16 * hi + lo) % 2 ^ 8 = (16 * hi' + lo') % 2 ^ 8 := by
      simpa using congrArg UInt8.toNat hbyte
    have ih := map_value_of_decode (fun c hc => hs c (by simp [hc])) (fun c hc => hs' c (by simp [hc]))
      (by simpa using hlen) (by simp at heven; omega) hrest
    simp only [List.map_cons, hhi, hlo, hhi', hlo', ih]
    rw [show hi = hi' by omega, show lo = lo' by omega]

theorem decode_append : ∀ {s : List Char}, IsHex s → s.length % 2 = 0 → ∀ rest : List Char,
    decode (s ++ rest) = decode s ++ decode rest ∧ 2 * (decode s).length = s.length
  | [], _, _, _ => ⟨rfl, rfl⟩
  | [_], _, heven, _ => by cases heven
  | a :: b :: s, hs, heven, rest => by
    obtain ⟨hi, hhi⟩ := Option.isSome_iff_exists.mp (hs a (by simp))
    obtain ⟨lo, hlo⟩ := Option.isSome_iff_exists.mp (hs b (by simp))
    obtain ⟨ih, ihlen⟩ := decode_append (s := s) (fun c hc => hs c (by simp [hc]))
      (by simp at heven; omega) rest
    rw [List.cons_append, List.cons_append, decode_cons_cons hhi hlo, decode_cons_cons hhi hlo, ih]
    refine ⟨rfl, ?_⟩
    rw [List.length_cons, List.length_cons, List.length_cons]
    omega

end Digits

/-- The text is the digits of the bytes, of either case. -/
structure Spells (s : List Char) (bytes : List UInt8) : Prop where
  isHex : IsHex s
  length : s.length = 2 * bytes.length
  decode : Hex.decode s = bytes

theorem spells_decode {s : List Char} (hs : IsHex s) (heven : s.length % 2 = 0) : Spells s (decode s) :=
  ⟨hs, ((decode_append hs heven []).2).symm, rfl⟩

theorem spells_encode (bytes : List UInt8) : Spells (encode bytes) bytes :=
  ⟨isHex_encode bytes, length_encode bytes, decode_encode bytes⟩

theorem Spells.append {s t : List Char} {xs ys : List UInt8} (hs : Spells s xs) (ht : Spells t ys) :
    Spells (s ++ t) (xs ++ ys) where
  isHex := fun c hc => (List.mem_append.mp hc).elim (hs.isHex c) (ht.isHex c)
  length := by
    rw [List.length_append, List.length_append, hs.length, ht.length]
    omega
  decode := by
    have heven : s.length % 2 = 0 := by
      rw [hs.length]
      omega
    rw [(decode_append hs.isHex heven t).1, hs.decode, ht.decode]

theorem spells_flatten {texts : List (List Char)} {parts : List (List UInt8)}
    (h : List.Forall₂ Spells texts parts) : Spells texts.flatten parts.flatten := by
  induction h with
  | nil => exact spells_encode []
  | cons hs _ ih => exact hs.append ih

end Hex
