import Tarcoin.Foundations.BitString

/-! `BitStreamReader` and `BitStreamWriter` keep one byte of a stream, of which the first bits are
used up. -/
namespace Tarcoin.Serialize

open BitString

inductive BitError
  | endOfData
  | outOfRange
deriving DecidableEq, Repr

def byteBits (bytes : List UInt8) : List Bool := bytes.flatMap (fun b => BitString.bits 8 b.toNat)

theorem byteBits_append (xs ys : List UInt8) :
    byteBits (xs ++ ys) = byteBits xs ++ byteBits ys := by
  rw [byteBits, List.flatMap_append, byteBits, byteBits]

theorem length_byteBits (bytes : List UInt8) : (byteBits bytes).length = 8 * bytes.length := by
  induction bytes with
  | nil => rfl
  | cons b bytes ih =>
    have hcons : byteBits (b :: bytes) = BitString.bits 8 b.toNat ++ byteBits bytes :=
      List.flatMap_cons
    rw [hcons, List.length_append, length_bits, List.length_cons]
    omega

theorem eq_append_of_byteBits {xs ys : List UInt8} {tail : List Bool}
    (h : byteBits xs = byteBits ys ++ tail) : ∃ zs, xs = ys ++ zs ∧ byteBits zs = tail := by
  induction ys generalizing xs with
  | nil => exact ⟨xs, rfl, h⟩
  | cons y ys ih =>
    have hcons : ∀ (b : UInt8) (bs : List UInt8),
        byteBits (b :: bs) = BitString.bits 8 b.toNat ++ byteBits bs := fun _ _ => List.flatMap_cons
    rw [hcons, List.append_assoc] at h
    cases xs with
    | nil =>
      have hlen := congrArg List.length h
      rw [List.length_append, length_bits, length_byteBits, List.length_nil] at hlen
      omega
    | cons x xs =>
      obtain ⟨hfirst, hrest⟩ := List.append_inj h (by rw [length_bits, length_bits])
      obtain ⟨zs, rfl, hzs⟩ := ih hrest
      have hxy : x.toNat = y.toNat := by
        have := mod_eq_of_bits hfirst
        rwa [Nat.mod_eq_of_lt x.toNat_lt, Nat.mod_eq_of_lt y.toNat_lt] at this
      exact ⟨zs, by rw [UInt8.toNat_inj.1 hxy, List.cons_append], hzs⟩

/-! ## Writing -/

/-- The bytes written, and the first `offset` bits of the next. -/
structure BitWriter where
  out : List UInt8
  buffer : ℕ
  offset : ℕ
  offset_lt : offset < 8

namespace BitWriter

def start (out : List UInt8) : BitWriter := ⟨out, 0, 0, by decide⟩

def flush (w : BitWriter) : BitWriter :=
  if w.offset = 0 then w else start (w.out ++ [UInt8.ofNat w.buffer])

def writeBits (w : BitWriter) (data nbits : ℕ) : BitWriter :=
  if h : nbits = 0 then w
  else
    let n := min (8 - w.offset) nbits
    let buffer := w.buffer ||| (data * 2 ^ (64 - nbits) % 2 ^ 64) / 2 ^ (64 - 8 + w.offset)
    if hfull : w.offset + n = 8 then
      writeBits (start (w.out ++ [UInt8.ofNat buffer])) data (nbits - n)
    else
      have hoffset : w.offset + n < 8 := by have := w.offset_lt; omega
      writeBits ⟨w.out, buffer, w.offset + n, hoffset⟩ data (nbits - n)
termination_by nbits
decreasing_by all_goals have := w.offset_lt; omega

def write (w : BitWriter) (data nbits : ℕ) : Except BitError BitWriter :=
  if nbits > 64 then .error .outOfRange else .ok (w.writeBits data nbits)

/-- The bits of the buffer are those of `v`. -/
def Holds (w : BitWriter) (v : ℕ) : Prop := v < 2 ^ w.offset ∧ w.buffer = v * 2 ^ (8 - w.offset)

def Wrote (w : BitWriter) (written : List Bool) : Prop :=
  ∃ v, w.Holds v ∧ written = byteBits w.out ++ BitString.bits w.offset v

variable {w : BitWriter} {written : List Bool}

theorem wrote_start (out : List UInt8) : (start out).Wrote (byteBits out) :=
  ⟨0, ⟨Nat.one_pos, rfl⟩, (List.append_nil _).symm⟩

variable {nbits : ℕ}

theorem Holds.buffer_or {v : ℕ} (hv : w.Holds v) (data : ℕ) (hn : nbits ≤ 64) :
    w.buffer ||| (data * 2 ^ (64 - nbits) % 2 ^ 64) / 2 ^ (64 - 8 + w.offset) =
      (v * 2 ^ min (8 - w.offset) nbits +
        data / 2 ^ (nbits - min (8 - w.offset) nbits) % 2 ^ min (8 - w.offset) nbits) *
        2 ^ (8 - (w.offset + min (8 - w.offset) nbits)) := by
  have hoffset := w.offset_lt
  have hword : 64 - 8 + w.offset = 64 - (8 - w.offset) := by omega
  rw [hword, hv.2]
  rcases Nat.le_total (8 - w.offset) nbits with hle | hle
  · have hzero : 8 - (w.offset + (8 - w.offset)) = 0 := by omega
    rw [min_eq_left hle, top_of_word data hle hn, hzero, Nat.pow_zero, Nat.mul_one,
      shift_or _ (Nat.mod_lt _ (Nat.two_pow_pos _))]
  · rw [min_eq_right hle, top_of_word_of_le data hle (by omega), Nat.sub_self, Nat.pow_zero,
      Nat.div_one, ← Nat.sub_sub]
    have hsplit : v * 2 ^ (8 - w.offset) = v * 2 ^ nbits * 2 ^ (8 - w.offset - nbits) := by
      rw [Nat.mul_assoc, ← Nat.pow_add, Nat.add_sub_cancel' hle]
    have hlt : data % 2 ^ nbits * 2 ^ (8 - w.offset - nbits) < 2 ^ (8 - w.offset) := by
      have hpow : 2 ^ (8 - w.offset) = 2 ^ nbits * 2 ^ (8 - w.offset - nbits) := by
        rw [← Nat.pow_add, Nat.add_sub_cancel' hle]
      rw [hpow]
      exact Nat.mul_lt_mul_of_pos_right (Nat.mod_lt _ (Nat.two_pow_pos _)) (Nat.two_pow_pos _)
    rw [shift_or _ hlt, hsplit, ← Nat.add_mul]

theorem Wrote.writeBits (hw : w.Wrote written) (data : ℕ) (hn : nbits ≤ 64) :
    (w.writeBits data nbits).Wrote (written ++ BitString.bits nbits data) := by
  induction nbits using Nat.strong_induction_on generalizing w written with
  | _ nbits ih =>
    obtain ⟨v, hv, rfl⟩ := hw
    have hoffset := w.offset_lt
    rw [BitWriter.writeBits]
    by_cases hzero : nbits = 0
    · rw [hzero, bits_zero, List.append_nil]
      exact ⟨v, hv, rfl⟩
    rw [dif_neg hzero]
    have hbuffer := hv.buffer_or data hn
    set n := min (8 - w.offset) nbits with hn'
    have hle : n ≤ nbits := min_le_right _ _
    set c := data / 2 ^ (nbits - n) % 2 ^ n with hc
    have hclt : c < 2 ^ n := Nat.mod_lt _ (Nat.two_pow_pos n)
    have hlt : v * 2 ^ n + c < 2 ^ (w.offset + n) := by
      calc v * 2 ^ n + c < (v + 1) * 2 ^ n := by rw [Nat.succ_mul]; exact Nat.add_lt_add_left hclt _
        _ ≤ 2 ^ w.offset * 2 ^ n := Nat.mul_le_mul_right _ hv.1
        _ = 2 ^ (w.offset + n) := (Nat.pow_add 2 w.offset n).symm
    have hbits : BitString.bits (w.offset + n) (v * 2 ^ n + c) ++ BitString.bits (nbits - n) data =
        BitString.bits w.offset v ++ BitString.bits nbits data := by
      rw [bits_append w.offset v hclt, bits_mod, List.append_assoc, ← bits_add,
        Nat.add_sub_cancel' hle]
    rw [hbuffer]
    by_cases hfull : w.offset + n = 8
    · rw [dif_pos hfull]
      have hbyte : byteBits [UInt8.ofNat (v * 2 ^ n + c)] =
          BitString.bits (w.offset + n) (v * 2 ^ n + c) := by
        rw [hfull] at hlt ⊢
        have hnat : (UInt8.ofNat (v * 2 ^ n + c)).toNat = v * 2 ^ n + c :=
          UInt8.toNat_ofNat_of_lt' hlt
        rw [byteBits, List.flatMap_singleton, hnat]
      have hwrote := wrote_start (w.out ++ [UInt8.ofNat ((v * 2 ^ n + c) * 2 ^ (8 - (w.offset + n)))])
      rw [hfull, Nat.pow_zero, Nat.mul_one, byteBits_append, hbyte] at hwrote
      rw [hfull, Nat.pow_zero, Nat.mul_one]
      have := ih (nbits - n) (by omega) hwrote (by omega)
      rwa [List.append_assoc, hbits, ← List.append_assoc] at this
    · rw [dif_neg hfull]
      have hwrote : Wrote ⟨w.out, (v * 2 ^ n + c) * 2 ^ (8 - (w.offset + n)), w.offset + n,
          by omega⟩ (byteBits w.out ++ BitString.bits (w.offset + n) (v * 2 ^ n + c)) :=
        ⟨v * 2 ^ n + c, ⟨hlt, rfl⟩, rfl⟩
      have := ih (nbits - n) (by omega) hwrote (by omega)
      rwa [List.append_assoc, hbits, ← List.append_assoc] at this

theorem Wrote.write (hw : w.Wrote written) (data : ℕ) (hn : nbits ≤ 64) :
    ∃ w', w.write data nbits = .ok w' ∧ w'.Wrote (written ++ BitString.bits nbits data) :=
  ⟨_, if_neg (not_lt.2 hn), hw.writeBits data hn⟩

theorem Wrote.flush (hw : w.Wrote written) :
    ∃ padding, byteBits w.flush.out = written ++ padding ∧ padding.length < 8 := by
  obtain ⟨v, ⟨hlt, hbuffer⟩, rfl⟩ := hw
  have hoffset := w.offset_lt
  unfold BitWriter.flush
  by_cases hzero : w.offset = 0
  · rw [hzero, bits_zero, List.append_nil]
    exact ⟨[], (List.append_nil _).symm, Nat.succ_pos 7⟩
  · rw [if_neg hzero]
    refine ⟨BitString.bits (8 - w.offset) 0, ?_, ?_⟩
    · have hpow : 2 ^ 8 = 2 ^ w.offset * 2 ^ (8 - w.offset) := by
        rw [← Nat.pow_add, Nat.add_sub_cancel' hoffset.le]
      have hbyte : w.buffer < 2 ^ 8 := by
        rw [hbuffer, hpow]
        exact Nat.mul_lt_mul_of_pos_right hlt (Nat.two_pow_pos _)
      have hnat : (UInt8.ofNat w.buffer).toNat = w.buffer := UInt8.toNat_ofNat_of_lt' hbyte
      have hbits := bits_append w.offset v (Nat.two_pow_pos (8 - w.offset))
      rw [Nat.add_zero, Nat.add_sub_cancel' hoffset.le, ← hbuffer] at hbits
      show byteBits (w.out ++ [UInt8.ofNat w.buffer]) = _
      rw [byteBits_append, List.append_assoc, ← hbits]
      rw [byteBits, byteBits, List.flatMap_singleton, hnat]
    · rw [length_bits]
      omega

end BitWriter

/-! ## Reading -/

/-- The bytes left, and a byte of which the first `offset` bits have been returned. -/
structure BitReader where
  rest : List UInt8
  buffer : UInt8
  offset : ℕ
  offset_le : offset ≤ 8

namespace BitReader

def start (stream : List UInt8) : BitReader := ⟨stream, 0, 8, by decide⟩

def fill (r : BitReader) : Except BitError { r : BitReader // r.offset < 8 } :=
  if h : r.offset = 8 then
    match r.rest with
    | [] => .error .endOfData
    | b :: rest => .ok ⟨⟨rest, b, 0, by decide⟩, Nat.succ_pos 7⟩
  else .ok ⟨r, by have := r.offset_le; omega⟩

def readBits (r : BitReader) (data nbits : ℕ) : Except BitError (ℕ × BitReader) :=
  if nbits = 0 then .ok (data, r)
  else
    match r.fill with
    | .error e => .error e
    | .ok ⟨r, hr⟩ =>
      let n := min (8 - r.offset) nbits
      readBits ⟨r.rest, r.buffer, r.offset + n, by omega⟩
        (data * 2 ^ n ||| (r.buffer.toNat * 2 ^ r.offset % 2 ^ 8) / 2 ^ (8 - n)) (nbits - n)
termination_by nbits
decreasing_by omega

def read (r : BitReader) (nbits : ℕ) : Except BitError (ℕ × BitReader) :=
  if nbits > 64 then .error .outOfRange else r.readBits 0 nbits

def remaining (r : BitReader) : List Bool :=
  BitString.bits (8 - r.offset) r.buffer.toNat ++ byteBits r.rest

variable {r : BitReader} {tail : List Bool}

theorem remaining_of_used (hoffset : r.offset = 8) : r.remaining = byteBits r.rest := by
  rw [remaining, hoffset, bits_zero, List.nil_append]

theorem remaining_fill {r' : { r : BitReader // r.offset < 8 }} (h : r.fill = .ok r') :
    r'.1.remaining = r.remaining := by
  unfold fill at h
  split at h
  · rename_i hoffset
    rw [remaining_of_used hoffset]
    split at h
    · cases h
    · rename_i hrest
      cases h
      rw [hrest]
      rfl
  · cases h
    rfl

theorem fill_ok (h : r.remaining ≠ []) : ∃ r', r.fill = .ok r' := by
  unfold fill
  split
  · rename_i hoffset
    rw [remaining_of_used hoffset] at h
    cases hrest : r.rest with
    | nil =>
      rw [hrest] at h
      exact absurd rfl h
    | cons b rest => exact ⟨_, rfl⟩
  · exact ⟨_, rfl⟩

variable {nbits x : ℕ} {r' : BitReader}

theorem readBits_ok (h : r.remaining = BitString.bits nbits x ++ tail) (data : ℕ) :
    ∃ r', r.readBits data nbits = .ok (data * 2 ^ nbits + x % 2 ^ nbits, r') ∧
      r'.remaining = tail := by
  induction nbits using Nat.strong_induction_on generalizing r data with
  | _ nbits ih =>
    rw [readBits]
    by_cases hzero : nbits = 0
    · refine ⟨r, ?_, ?_⟩
      · rw [if_pos hzero, hzero, Nat.pow_zero, Nat.mul_one, Nat.mod_one, Nat.add_zero]
      · rw [h, hzero, bits_zero, List.nil_append]
    rw [if_neg hzero]
    have hne : r.remaining ≠ [] := by
      rw [h]
      refine List.append_ne_nil_of_left_ne_nil (List.ne_nil_of_length_pos ?_) _
      rw [length_bits]
      omega
    obtain ⟨⟨r', hlt⟩, hfill⟩ := fill_ok hne
    have hremaining := remaining_fill hfill
    rw [hfill]
    dsimp only at hremaining ⊢
    set n := min (8 - r'.offset) nbits with hn
    have hle : n ≤ nbits := min_le_right _ _
    have hle' : n ≤ 8 - r'.offset := min_le_left _ _
    -- Both descriptions of the bits that are left start with the `n` bits of this turn.
    have hsplit : BitString.bits n (r'.buffer.toNat / 2 ^ (8 - r'.offset - n)) ++
        (BitString.bits (8 - r'.offset - n) r'.buffer.toNat ++ byteBits r'.rest) =
        BitString.bits n (x / 2 ^ (nbits - n)) ++ (BitString.bits (nbits - n) x ++ tail) := by
      rw [← List.append_assoc, ← bits_add, ← List.append_assoc, ← bits_add,
        Nat.add_sub_cancel' hle, Nat.add_sub_cancel' hle', ← h, ← hremaining, remaining]
    obtain ⟨hfirst, hrest⟩ := List.append_inj hsplit (by rw [length_bits, length_bits])
    have hchunk : r'.buffer.toNat * 2 ^ r'.offset % 2 ^ 8 / 2 ^ (8 - n) =
        x / 2 ^ (nbits - n) % 2 ^ n := by
      have htop := top_of_word (w := 8) r'.buffer.toNat hle' (Nat.sub_le 8 r'.offset)
      rw [Nat.sub_sub_self hlt.le] at htop
      rw [htop]
      exact mod_eq_of_bits hfirst
    rw [hchunk, shift_or _ (Nat.mod_lt _ (Nat.two_pow_pos n))]
    have hnext : remaining ⟨r'.rest, r'.buffer, r'.offset + n, by omega⟩ =
        BitString.bits (nbits - n) x ++ tail := by
      rw [← hrest, remaining, Nat.sub_sub]
    obtain ⟨r'', hrun, htail⟩ := ih (nbits - n) (by omega) hnext
      (data * 2 ^ n + x / 2 ^ (nbits - n) % 2 ^ n)
    refine ⟨r'', ?_, htail⟩
    rw [hrun, Nat.add_mul, Nat.add_assoc, div_mod_add x hle, Nat.mul_assoc, ← Nat.pow_add,
      Nat.add_sub_cancel' hle]

theorem read_ok (hn : nbits ≤ 64) (h : r.remaining = BitString.bits nbits x ++ tail) :
    ∃ r', r.read nbits = .ok (x % 2 ^ nbits, r') ∧ r'.remaining = tail := by
  obtain ⟨r', hrun, htail⟩ := readBits_ok h 0
  rw [Nat.zero_mul, Nat.zero_add] at hrun
  exact ⟨r', (if_neg (not_lt.2 hn)).trans hrun, htail⟩

theorem length_remaining (r : BitReader) :
    r.remaining.length = 8 - r.offset + 8 * r.rest.length := by
  rw [remaining, List.length_append, length_bits, length_byteBits]

theorem length_readBits {data : ℕ} (h : r.readBits data nbits = .ok (x, r')) :
    r'.remaining.length + nbits = r.remaining.length := by
  induction nbits using Nat.strong_induction_on generalizing r data with
  | _ nbits ih =>
    rw [readBits] at h
    by_cases hzero : nbits = 0
    · rw [if_pos hzero, Except.ok.injEq, Prod.mk.injEq] at h
      rw [h.2, hzero, Nat.add_zero]
    rw [if_neg hzero] at h
    cases hfill : r.fill with
    | error e =>
      rw [hfill] at h
      cases h
    | ok filled =>
      obtain ⟨r₁, hlt⟩ := filled
      rw [hfill] at h
      have hlen := ih (nbits - min (8 - r₁.offset) nbits) (by omega) h
      have hremaining := congrArg List.length (remaining_fill hfill)
      simp only [length_remaining] at hlen hremaining ⊢
      omega

theorem length_read (h : r.read nbits = .ok (x, r')) :
    r'.remaining.length + nbits = r.remaining.length := by
  unfold read at h
  split at h
  · cases h
  · exact length_readBits h

end BitReader

end Tarcoin.Serialize
