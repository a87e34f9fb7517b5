import Mathlib.Tactic

/-! The decoder of UTF-8 that replaces what it cannot read: a sequence that breaks off becomes one
replacement character, and the byte that broke it is read again. -/
namespace Utf8

def encode (text : List Char) : List UInt8 := text.flatMap String.utf8EncodeChar

def replacement : Char := Char.ofNat 0xfffd

/-- A sequence that has begun: how many bytes are to come, the range of the next one, and the bits
read so far. -/
structure Begun where
  needed : ℕ
  lower : ℕ
  upper : ℕ
  code : ℕ

/-- The first byte of a sequence. The narrower ranges of the second byte exclude overlong sequences,
surrogates, and what lies beyond the last code point. -/
def lead (byte : UInt8) : List Char × Option Begun :=
  let b := byte.toNat
  if b ≤ 0x7f then ([Char.ofNat b], none)
  else if 0xc2 ≤ b ∧ b ≤ 0xdf then ([], some ⟨1, 0x80, 0xbf, b - 0xc0⟩)
  else if 0xe0 ≤ b ∧ b ≤ 0xef then
    ([], some ⟨2, if b = 0xe0 then 0xa0 else 0x80, if b = 0xed then 0x9f else 0xbf, b - 0xe0⟩)
  else if 0xf0 ≤ b ∧ b ≤ 0xf4 then
    ([], some ⟨3, if b = 0xf0 then 0x90 else 0x80, if b = 0xf4 then 0x8f else 0xbf, b - 0xf0⟩)
  else ([replacement], none)

/-- One byte: the characters it completes and the sequence it leaves open. -/
def feed : Option Begun → UInt8 → List Char × Option Begun
  | none, byte => lead byte
  | some s, byte =>
    if s.lower ≤ byte.toNat ∧ byte.toNat ≤ s.upper then
      let code := s.code * 64 + (byte.toNat - 0x80)
      if s.needed = 1 then ([Char.ofNat code], none)
      else ([], some ⟨s.needed - 1, 0x80, 0xbf, code⟩)
    else (replacement :: (lead byte).1, (lead byte).2)

def decodeFrom : Option Begun → List UInt8 → List Char
  | none, [] => []
  | some _, [] => [replacement]
  | s, byte :: bytes => (feed s byte).1 ++ decodeFrom (feed s byte).2 bytes

def decode (bytes : List UInt8) : List Char := decodeFrom none bytes

theorem encode_append (s t : List Char) : encode (s ++ t) = encode s ++ encode t :=
  List.flatMap_append

variable {s : Begun} {b : ℕ}

theorem decodeFrom_continue (hb : b < 256) (hneeded : s.needed ≠ 1)
    (hrange : s.lower ≤ b ∧ b ≤ s.upper) (bytes : List UInt8) :
    decodeFrom (some s) (UInt8.ofNat b :: bytes) =
      decodeFrom (some ⟨s.needed - 1, 0x80, 0xbf, s.code * 64 + (b - 0x80)⟩) bytes := by
  rw [decodeFrom, feed, UInt8.toNat_ofNat_of_lt' hb, if_pos hrange, if_neg hneeded]
  rfl

theorem decodeFrom_last {v : ℕ} (hb : b < 256) (hneeded : s.needed = 1)
    (hrange : s.lower ≤ b ∧ b ≤ s.upper) (bytes : List UInt8)
    (hcode : s.code * 64 + (b - 0x80) = v) :
    decodeFrom (some s) (UInt8.ofNat b :: bytes) = Char.ofNat v :: decodeFrom none bytes := by
  rw [decodeFrom, feed, UInt8.toNat_ofNat_of_lt' hb, if_pos hrange, if_pos hneeded, hcode]
  rfl

theorem lead_one (hb : b ≤ 0x7f) : lead (UInt8.ofNat b) = ([Char.ofNat b], none) := by
  rw [lead, UInt8.toNat_ofNat_of_lt' (show b < 256 by omega), if_pos hb]

theorem lead_two (hlower : 0xc2 ≤ b) (hupper : b ≤ 0xdf) :
    lead (UInt8.ofNat b) = ([], some ⟨1, 0x80, 0xbf, b - 0xc0⟩) := by
  rw [lead, UInt8.toNat_ofNat_of_lt' (show b < 256 by omega), if_neg (by omega), if_pos ⟨hlower, hupper⟩]

theorem lead_three (hlower : 0xe0 ≤ b) (hupper : b ≤ 0xef) :
    lead (UInt8.ofNat b) = ([], some ⟨2, if b = 0xe0 then 0xa0 else 0x80,
      if b = 0xed then 0x9f else 0xbf, b - 0xe0⟩) := by
  rw [lead, UInt8.toNat_ofNat_of_lt' (show b < 256 by omega), if_neg (by omega), if_neg (by omega),
    if_pos ⟨hlower, hupper⟩]

theorem lead_four (hlower : 0xf0 ≤ b) (hupper : b ≤ 0xf4) :
    lead (UInt8.ofNat b) = ([], some ⟨3, if b = 0xf0 then 0x90 else 0x80,
      if b = 0xf4 then 0x8f else 0xbf, b - 0xf0⟩) := by
  rw [lead, UInt8.toNat_ofNat_of_lt' (show b < 256 by omega), if_neg (by omega), if_neg (by omega),
    if_neg (by omega), if_pos ⟨hlower, hupper⟩]

theorem decodeFrom_encodeChar (c : Char) (bytes : List UInt8) :
    decodeFrom none (String.utf8EncodeChar c ++ bytes) = c :: decodeFrom none bytes := by
  have hback : Char.ofNat c.val.toNat = c := Char.ofNat_toNat c
  have hvalid : c.val.toNat < 0xd800 ∨ 0xdfff < c.val.toNat ∧ c.val.toNat < 0x110000 := c.valid
  conv_rhs => rw [← hback]
  unfold String.utf8EncodeChar
  generalize c.val.toNat = v at hvalid ⊢
  dsimp only
  split_ifs with h1 h2 h3
  · simp [decodeFrom, feed, lead_one h1]
  · rw [List.cons_append, decodeFrom, feed, lead_two (by omega) (by omega)]
    exact decodeFrom_last (by omega) rfl (by dsimp only; omega) _ (by dsimp only; omega)
  · rw [List.cons_append, decodeFrom, feed, lead_three (by omega) (by omega)]
    refine (decodeFrom_continue (by omega) (by dsimp only; omega) ?_ _).trans ?_
    · dsimp only
      split_ifs <;> omega
    · exact decodeFrom_last (by omega) rfl (by dsimp only; omega) _ (by dsimp only; omega)
  · rw [List.cons_append, decodeFrom, feed, lead_four (by omega) (by omega)]
    refine (decodeFrom_continue (by omega) (by dsimp only; omega) ?_ _).trans ?_
    · dsimp only
      split_ifs <;> omega
    · refine (decodeFrom_continue (by omega) (by dsimp only; omega) (by dsimp only; omega) _).trans ?_
      exact decodeFrom_last (by omega) rfl (by dsimp only; omega) _ (by dsimp only; omega)

theorem decode_encode_append (text : List Char) (bytes : List UInt8) :
    decode (encode text ++ bytes) = text ++ decode bytes := by
  induction text with
  | nil => rfl
  | cons c text ih =>
    rw [encode, List.flatMap_cons, List.append_assoc, decode, decodeFrom_encodeChar]
    exact congrArg (List.cons c) ih

theorem decode_encode (text : List Char) : decode (encode text) = text := by
  have h := decode_encode_append text []
  rw [List.append_nil] at h
  exact h.trans (List.append_nil text)

/-- A letter of two bytes that is cut between them is read as two replacement characters. -/
example : decode (encode ['é']) = ['é'] ∧
    decode ((encode ['é']).take 1) ++ decode ((encode ['é']).drop 1) =
      [replacement, replacement] := by
  decide

end Utf8
