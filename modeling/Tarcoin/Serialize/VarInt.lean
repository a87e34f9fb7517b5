import Tarcoin.Foundations.StreamCodec
import Tarcoin.Primitives.Transaction

/-! `WriteVarInt`/`ReadVarInt` for an unsigned type of a given width, and
`WriteCompactSize`/`ReadCompactSize`. -/
namespace Tarcoin
open StreamCodec

inductive ReadError where
  | endOfData | varIntTooLarge | nonCanonicalCompactSize | compactSizeTooLarge
  deriving DecidableEq, Repr

def ReadError.text : ReadError → String
  | endOfData => "end of data"
  | varIntTooLarge => "ReadVarInt(): size too large"
  | nonCanonicalCompactSize => "non-canonical ReadCompactSize()"
  | compactSizeTooLarge => "ReadCompactSize(): size too large"

abbrev ByteReader (α : Type) := Reader ReadError UInt8 α

/-- The bytes of `WriteVarInt` for what is left of `n`, in the order they are written; the
byte written last carries `flag`. The first argument is the room left in `tmp`. -/
def varIntBytes : ℕ → ℕ → ℕ → List UInt8
  | 0, _, _ => []
  | room + 1, n, flag =>
    (if n ≤ 0x7f then [] else varIntBytes room ((n >>> 7) - 1) 0x80) ++
      [UInt8.ofNat ((n &&& 0x7f) ||| flag)]

def writeVarInt (width n : ℕ) : List UInt8 := varIntBytes ((width + 6) / 7) n 0

/-- The loop of `ReadVarInt` for a type whose largest value is `max`. -/
def readVarIntFrom (max : ℕ) : ℕ → ByteReader ℕ
  | _, [] => .error .endOfData
  | n, chData :: rest =>
    if max >>> 7 < n then .error .varIntTooLarge
    else
      let n' := (n <<< 7) ||| (chData.toNat &&& 0x7f)
      if chData.toNat &&& 0x80 ≠ 0 then
        if n' = max then .error .varIntTooLarge else readVarIntFrom max (n' + 1) rest
      else .ok (n', rest)

def readVarInt (width : ℕ) : ByteReader ℕ := readVarIntFrom (2 ^ width - 1) 0

/-- Seven bits of a value, and the flag for more to come. -/
def varIntByte (m : ℕ) (flag : Bool) : UInt8 := UInt8.ofNat (m ||| if flag then 0x80 else 0)

theorem varIntByte_spec : ∀ m < 128, ∀ flag, (varIntByte m flag).toNat &&& 0x7f = m ∧
    ((varIntByte m flag).toNat &&& 0x80 ≠ 0 ↔ flag = true) := by decide

set_option maxRecDepth 2000 in
theorem varIntByte_toNat : ∀ b < 256, varIntByte (b % 128) (128 ≤ b) = UInt8.ofNat b := by decide

variable {n m max acc w room : ℕ}

theorem shiftLeft_or_eq (hm : m < 128) : (n <<< 7) ||| m = n * 128 + m := by
  rw [← Nat.shiftLeft_add_eq_or_of_lt (show m < 2 ^ 7 by omega), Nat.shiftLeft_eq]

theorem readVarIntFrom_cons (hm : m < 128) (flag : Bool) (rest : List UInt8) :
    readVarIntFrom max acc (varIntByte m flag :: rest) =
      if max >>> 7 < acc then .error .varIntTooLarge
      else if flag then if acc * 128 + m = max then .error .varIntTooLarge
        else readVarIntFrom max (acc * 128 + m + 1) rest
      else .ok (acc * 128 + m, rest) := by
  obtain ⟨hlow, hflag⟩ := varIntByte_spec m hm flag
  simp [readVarIntFrom, hlow, hflag, shiftLeft_or_eq hm]

/-- How many values are written in at most `room` bytes. -/
def varIntCap : ℕ → ℕ
  | 0 => 0
  | room + 1 => 128 * (varIntCap room + 1)

/-- The bytes that a reader with the value `acc` has taken. -/
def varIntTaken (room acc : ℕ) : List UInt8 :=
  if acc = 0 then [] else varIntBytes room (acc - 1) 0x80

theorem varIntBytes_succ (room acc : ℕ) (hm : m < 128) (flag : Bool) :
    varIntBytes (room + 1) (acc * 128 + m) (if flag then 0x80 else 0) =
      varIntTaken room acc ++ [varIntByte m flag] := by
  rw [varIntBytes, Nat.and_two_pow_sub_one_eq_mod _ 7, varIntTaken,
    show (acc * 128 + m) % 2 ^ 7 = m by omega, show (acc * 128 + m) >>> 7 = acc by omega]
  congr 1
  by_cases hacc : acc = 0
  · rw [if_pos hacc, if_pos (by omega)]
  · rw [if_neg hacc, if_neg (by omega)]

theorem varIntTaken_succ (hm : m < 128) :
    varIntTaken (room + 1) (acc * 128 + m + 1) = varIntTaken room acc ++ [varIntByte m true] :=
  varIntBytes_succ room acc hm true

theorem readVarIntFrom_taken (hroom : acc ≤ varIntCap room) (hacc : acc ≤ max) (rest : List UInt8) :
    readVarIntFrom max 0 (varIntTaken room acc ++ rest) = readVarIntFrom max acc rest := by
  induction room generalizing acc rest with
  | zero => rw [Nat.le_zero.mp hroom]; rfl
  | succ room ih =>
    rw [varIntCap] at hroom
    cases acc with
    | zero => rfl
    | succ n =>
      have hm : n % 128 < 128 := Nat.mod_lt n (by norm_num)
      rw [← Nat.div_add_mod' n 128, varIntTaken_succ hm, List.append_assoc, List.singleton_append,
        ih (by omega) (by omega), readVarIntFrom_cons hm, if_neg (by omega), if_pos rfl,
        if_neg (by omega)]

theorem reads_varIntBytes (hroom : n < varIntCap room) (hn : n ≤ max) :
    Reads (readVarIntFrom max 0) (varIntBytes room n 0) n := by
  intro rest
  cases room with
  | zero => exact absurd hroom (Nat.not_lt_zero n)
  | succ room =>
    rw [varIntCap] at hroom
    have hm : n % 128 < 128 := Nat.mod_lt n (by norm_num)
    have hbytes := varIntBytes_succ room (n / 128) hm false
    rw [Nat.div_add_mod'] at hbytes
    rw [show 0 = if false then 0x80 else 0 from rfl, hbytes, List.append_assoc,
      List.singleton_append, if_neg Bool.false_ne_true, readVarIntFrom_taken (by omega) (by omega),
      readVarIntFrom_cons hm, if_neg (by omega), if_neg Bool.false_ne_true, Nat.div_add_mod']

theorem lt_varIntCap {width bits : ℕ} (hw : width ≤ bits) (hbits : 0 < bits) (hn : n < 2 ^ width) :
    n < varIntCap ((bits + 6) / 7) := by
  have hcap : ∀ room, 128 ^ (room + 1) ≤ varIntCap (room + 1) := by
    intro room
    induction room with
    | zero => decide
    | succ room ih =>
      rw [varIntCap, pow_succ]
      omega
  obtain ⟨room, hr⟩ : ∃ room, (bits + 6) / 7 = room + 1 := ⟨(bits + 6) / 7 - 1, by omega⟩
  calc n < 2 ^ width := hn
    _ ≤ 2 ^ (7 * (room + 1)) := Nat.pow_le_pow_right (by norm_num) (by omega)
    _ = 128 ^ (room + 1) := by rw [pow_mul]; norm_num
    _ ≤ varIntCap ((bits + 6) / 7) := hr ▸ hcap room

theorem reads_varInt {width n : ℕ} (hw : 0 < width) (hn : n < 2 ^ width) :
    Reads (readVarInt width) (writeVarInt width n) n :=
  reads_varIntBytes (lt_varIntCap le_rfl hw hn) (Nat.le_sub_one_of_lt hn)

/-! ### Only what is written is accepted -/

theorem varIntBytes_add (hroom : n < varIntCap room) (more flag : ℕ) :
    varIntBytes (room + more) n flag = varIntBytes room n flag := by
  induction room generalizing n flag with
  | zero => exact absurd hroom (Nat.not_lt_zero n)
  | succ room ih =>
    rw [varIntCap] at hroom
    rw [Nat.succ_add, varIntBytes, varIntBytes]
    split_ifs with hsmall
    · rfl
    · rw [ih (by omega)]

theorem readVarIntFrom_eq_ok (room : ℕ) {bytes rest : List UInt8} (hmax : max % 128 = 127)
    (hacc : acc ≤ varIntCap room) (h : readVarIntFrom max acc bytes = .ok (n, rest)) :
    n ≤ max ∧ ∃ k, n < varIntCap k ∧ varIntTaken room acc ++ bytes = varIntBytes k n 0 ++ rest := by
  induction bytes generalizing acc room with
  | nil => cases h
  | cons chData bytes ih =>
    have hm : chData.toNat % 128 < 128 := Nat.mod_lt _ (by norm_num)
    have hcap : acc * 128 + chData.toNat % 128 < varIntCap (room + 1) := by
      rw [varIntCap]
      omega
    rw [← @UInt8.ofNat_toNat chData, ← varIntByte_toNat _ chData.toNat_lt] at h ⊢
    rw [readVarIntFrom_cons hm] at h
    split_ifs at h with hlarge hflag
    · obtain ⟨hn, k, hk, heq⟩ := ih (room + 1) hcap h
      refine ⟨hn, k, hk, ?_⟩
      rw [← heq, varIntTaken_succ hm, hflag, List.append_assoc, List.singleton_append]
    · cases h
      refine ⟨by omega, room + 1, hcap, ?_⟩
      rw [Bool.not_eq_true] at hflag
      have hbytes := varIntBytes_succ room acc hm false
      rw [if_neg Bool.false_ne_true] at hbytes
      rw [hbytes, hflag, List.append_assoc, List.singleton_append]

theorem readVarInt_eq_ok_iff {width bits : ℕ} (hw : 7 ≤ width ∧ width ≤ bits)
    {bytes rest : List UInt8} :
    readVarInt width bytes = .ok (n, rest) ↔ n < 2 ^ width ∧ bytes = writeVarInt bits n ++ rest := by
  have hbits : 0 < bits := by omega
  constructor
  · intro h
    have hpow : 2 ^ width = 128 * 2 ^ (width - 7) := by
      rw [show 128 = 2 ^ 7 from rfl, ← pow_add, Nat.add_sub_cancel' hw.1]
    have hpos := Nat.two_pow_pos (width - 7)
    obtain ⟨hn, k, hk, heq⟩ := readVarIntFrom_eq_ok 0 (by omega) le_rfl h
    have hlt : n < 2 ^ width := by omega
    refine ⟨hlt, heq.trans ?_⟩
    rw [writeVarInt, ← varIntBytes_add hk ((bits + 6) / 7), Nat.add_comm,
      varIntBytes_add (lt_varIntCap hw.2 hbits hlt)]
  · rintro ⟨hn, rfl⟩
    exact reads_varIntBytes (lt_varIntCap hw.2 hbits hn) (Nat.le_sub_one_of_lt hn) rest

/-- For a type of `8 * 2 ^ k` bits, unsigned or without the negative values of a signed one, what
is accepted and used up are the encodings, one for each value. No encoding starts another one, and
a reader that goes on with `rest` has taken the encoding of a value of the type. -/
theorem varInt_bijOn (k : ℕ) (signed : Bool) :
    let bits := 8 * 2 ^ k
    let width := if signed then bits - 1 else bits
    Set.BijOn (writeVarInt bits) {n | n < 2 ^ width}
        {bytes | ∃ n, readVarInt width bytes = .ok (n, [])} ∧
      (∀ n < 2 ^ width, ∀ m < 2 ^ width, writeVarInt bits n <+: writeVarInt bits m → n = m) ∧
      ∀ bytes n rest, readVarInt width bytes = .ok (n, rest) ↔
        n < 2 ^ width ∧ bytes = writeVarInt bits n ++ rest := by
  intro bits width
  have hbits : 0 < 2 ^ k := Nat.two_pow_pos k
  have hw : 7 ≤ width ∧ width ≤ bits := by
    simp only [width, bits]
    split <;> omega
  have hiff {n : ℕ} {bytes rest : List UInt8} :
      readVarInt width bytes = .ok (n, rest) ↔ _ := readVarInt_eq_ok_iff hw
  have hfree : ∀ n < 2 ^ width, ∀ m < 2 ^ width,
      writeVarInt bits n <+: writeVarInt bits m → n = m := by
    rintro n hn m hm ⟨rest, hrest⟩
    have hread := hiff.mpr ⟨hm, (List.append_nil _).symm⟩
    rw [← hrest, hiff.mpr ⟨hn, rfl⟩] at hread
    exact (Prod.mk.inj (Except.ok.inj hread)).1
  refine ⟨⟨?_, ?_, ?_⟩, hfree, fun bytes n rest => hiff⟩
  · exact fun n hn => ⟨n, hiff.mpr ⟨hn, (List.append_nil _).symm⟩⟩
  · intro n hn m hm heq
    exact hfree n hn m hm (heq ▸ List.prefix_rfl)
  · rintro bytes ⟨n, hread⟩
    obtain ⟨hn, hbytes⟩ := hiff.mp hread
    exact ⟨n, hn, (hbytes.trans (List.append_nil _)).symm⟩

/-- The `w` bytes of `ser_writedata16`, `32` and `64`, least significant first. -/
def leBytes : ℕ → ℕ → List UInt8
  | 0, _ => []
  | w + 1, n => UInt8.ofNat (n % 256) :: leBytes w (n / 256)

def leValue : List UInt8 → ℕ
  | [] => 0
  | b :: bs => b.toNat + 256 * leValue bs

theorem leBytes_length (w n : ℕ) : (leBytes w n).length = w := by
  induction w generalizing n with
  | zero => rfl
  | succ w ih => rw [leBytes, List.length_cons, ih]

theorem leValue_leBytes (hn : n < 256 ^ w) : leValue (leBytes w n) = n := by
  induction w generalizing n with
  | zero =>
    simp only [leBytes, leValue]
    omega
  | succ w ih =>
    rw [leBytes, leValue, ih (by omega), UInt8.toNat_ofNat']
    omega

theorem leValue_lt (bytes : List UInt8) : leValue bytes < 256 ^ bytes.length := by
  induction bytes with
  | nil => exact Nat.one_pos
  | cons b bytes ih =>
    have hb := b.toNat_lt
    rw [leValue, List.length_cons]
    omega

def readData (w : ℕ) : ByteReader ℕ := (Reader.take .endOfData w).map leValue

theorem reads_data (hn : n < 256 ^ w) : Reads (readData w) (leBytes w n) n := by
  have h := (reads_take ReadError.endOfData (leBytes_length w n)).map leValue
  rwa [leValue_leBytes hn] at h

def writeCompactSize (nSize : ℕ) : List UInt8 :=
  if nSize < 253 then leBytes 1 nSize
  else if nSize ≤ 0xffff then leBytes 1 253 ++ leBytes 2 nSize
  else if nSize ≤ 0xffffffff then leBytes 1 254 ++ leBytes 4 nSize
  else leBytes 1 255 ++ leBytes 8 nSize

def maxSize : ℕ := 0x02000000

/-- A payload behind a marker, refused when a shorter form would have done. -/
def readCanonical (w least : ℕ) : ByteReader ℕ :=
  (readData w).bind fun n => if n < least then .fail .nonCanonicalCompactSize else .pure n

def readCompactSize (rangeCheck : Bool) : ByteReader ℕ :=
  ((readData 1).bind fun chSize =>
    if chSize < 253 then .pure chSize
    else if chSize = 253 then readCanonical 2 253
    else if chSize = 254 then readCanonical 4 0x10000
    else readCanonical 8 0x100000000).bind fun n =>
  if rangeCheck && decide (maxSize < n) then .fail .compactSizeTooLarge else .pure n

theorem reads_canonical {least : ℕ} (hl : least ≤ n) (hn : n < 256 ^ w) :
    Reads (readCanonical w least) (leBytes w n) n := by
  refine (reads_data hn).bind_nil ?_
  rw [if_neg (by omega)]
  exact reads_pure n

theorem reads_compactSize {rangeCheck : Bool} (hn : n < 2 ^ 64)
    (hr : rangeCheck = true → n ≤ maxSize) :
    Reads (readCompactSize rangeCheck) (writeCompactSize n) n := by
  refine Reads.bind_nil (x := n) ?_ ?_
  · unfold writeCompactSize
    split_ifs with h1 h2 h3
    · refine (reads_data (by omega)).bind_nil ?_
      rw [if_pos h1]
      exact reads_pure n
    · exact (reads_data (by norm_num)).bind (reads_canonical (by omega) (by omega))
    · exact (reads_data (by norm_num)).bind (reads_canonical (by omega) (by omega))
    · exact (reads_data (by norm_num)).bind (reads_canonical (by omega) (by omega))
  · have hkeep : ¬ (rangeCheck && decide (maxSize < n)) = true := by
      simp only [Bool.and_eq_true, decide_eq_true_eq, not_and, not_lt]
      exact hr
    rw [if_neg hkeep]
    exact reads_pure n

/-- A `std::vector`: its size and its elements. -/
def writeVector {α : Type} (write : α → List UInt8) (xs : List α) : List UInt8 :=
  writeCompactSize xs.length ++ xs.flatMap write

def readVector {α : Type} (read : ByteReader α) : ByteReader (List α) :=
  (readCompactSize true).bind read.many

theorem reads_vector {α : Type} {read : ByteReader α} {write : α → List UInt8} {f : α → α}
    {xs : List α} (hlen : xs.length ≤ maxSize) (h : ∀ x ∈ xs, Reads read (write x) (f x)) :
    Reads (readVector read) (writeVector write xs) (xs.map f) := by
  have hsize : xs.length < 2 ^ 64 := lt_of_le_of_lt hlen (by decide)
  exact (reads_compactSize hsize fun _ => hlen).bind (Reads.many h)

/-- A longer vector is written, but not read. -/
theorem readVector_too_large {α : Type} (read : ByteReader α) (write : α → List UInt8) {xs : List α}
    (hlen : maxSize < xs.length) (hlt : xs.length < 2 ^ 64) :
    readVector read (writeVector write xs) = .error .compactSizeTooLarge := by
  -- Without the range check the size is read, so it is the range check that fails.
  have hcheck : ∀ (r : ByteReader ℕ) bytes rest, (r.bind fun n =>
      if false && decide (maxSize < n) then .fail .compactSizeTooLarge else .pure n) bytes =
        .ok (xs.length, rest) → ((r.bind fun n =>
      if true && decide (maxSize < n) then .fail .compactSizeTooLarge else .pure n).bind
        read.many) bytes = .error .compactSizeTooLarge := by
    intro r bytes rest h
    cases hr : r bytes with
    | error e => simp [Reader.bind, hr, Except.bind] at h
    | ok p =>
      obtain rfl : p = (xs.length, rest) := by
        simpa [Reader.bind, hr, Except.bind, Reader.pure] using h
      simp [Reader.bind, hr, Except.bind, Reader.fail, hlen]
  exact hcheck _ _ _ (@reads_compactSize xs.length false hlt Bool.noConfusion (xs.flatMap write))

end Tarcoin
