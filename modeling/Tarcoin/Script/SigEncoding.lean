import Tarcoin.Script.Opcodes

/-! Byte-level rules for signatures and public keys and what they accept, and the removal of a
signature from the script it signs. A byte behind the end of a string reads as zero. -/
namespace Tarcoin.Script

/-- `CastToBool`: not zero, where a sign bit alone is zero as well. -/
def castToBool : List UInt8 → Bool
  | [] => false
  | [last] => last ≠ 0 ∧ last ≠ 0x80
  | b :: rest => b ≠ 0 || castToBool rest

def compressedSize : ℕ := 33
def uncompressedSize : ℕ := 65

def isCompressedOrUncompressedPubKey (vchPubKey : List UInt8) : Bool :=
  let first := vchPubKey.getD 0 0
  if vchPubKey.length < compressedSize then false
  else if first = 0x04 then vchPubKey.length = uncompressedSize
  else if first = 0x02 ∨ first = 0x03 then vchPubKey.length = compressedSize
  else false

def isCompressedPubKey (vchPubKey : List UInt8) : Bool :=
  vchPubKey.length = compressedSize ∧ (vchPubKey.getD 0 0 = 0x02 ∨ vchPubKey.getD 0 0 = 0x03)

/-- An integer of a signature, of length `len` with its bytes from `start` on: a positive number
without needless zeros in front. -/
def isDerInteger (sig : List UInt8) (start len : ℕ) : Bool :=
  len ≠ 0 ∧ sig.getD start 0 &&& 0x80 = 0 ∧
    ¬(1 < len ∧ sig.getD start 0 = 0 ∧ sig.getD (start + 1) 0 &&& 0x80 = 0)

def isValidSignatureEncoding (sig : List UInt8) : Bool :=
  let lenR := (sig.getD 3 0).toNat
  let lenS := (sig.getD (5 + lenR) 0).toNat
  9 ≤ sig.length ∧ sig.length ≤ 73 ∧ sig.getD 0 0 = 0x30 ∧
    (sig.getD 1 0).toNat = sig.length - 3 ∧ 5 + lenR < sig.length ∧
    lenR + lenS + 7 = sig.length ∧ sig.getD 2 0 = 0x02 ∧ isDerInteger sig 4 lenR ∧
    sig.getD (lenR + 4) 0 = 0x02 ∧ isDerInteger sig (lenR + 6) lenS

def sighashAll : UInt8 := 1
def sighashSingle : UInt8 := 3
def sighashAnyoneCanPay : UInt8 := 0x80

def isDefinedHashtypeSignature (vchSig : List UInt8) : Bool :=
  match vchSig.getLast? with
  | none => false
  | some last =>
    let nHashType := last &&& ~~~sighashAnyoneCanPay
    sighashAll ≤ nHashType ∧ nHashType ≤ sighashSingle

/-- The inner loop of `FindAndDelete`: copies of `b` at `pc` are passed over and counted. -/
def skipCopies (b : Script) : ℕ → Script → ℕ → Script × ℕ
  | 0, pc, nFound => (pc, nFound)
  | room + 1, pc, nFound =>
    if b.length ≤ pc.length ∧ pc.take b.length = b then
      skipCopies b room (pc.drop b.length) (nFound + 1)
    else (pc, nFound)

/-- The outer loop, from `pc` on, with the bytes `copy` of the opcode before it still to be
written: the result so far, the position of the last copy and the number of copies found. -/
def deleteLoop (b : Script) : ℕ → Script → Script → Script → ℕ → Script × Script × ℕ
  | 0, result, copy, pc, nFound => (result ++ copy, pc, nFound)
  | room + 1, result, copy, pc, nFound =>
    let (pc2, found) := skipCopies b pc.length pc nFound
    match getScriptOp pc2 with
    | none => (result ++ copy, pc2, found)
    | some (_, _, rest) =>
      deleteLoop b room (result ++ copy) (pc2.take (pc2.length - rest.length)) rest found

/-- `FindAndDelete`: the script without the copies of `b` that start at an opcode, and their
number. One opcode is read in each turn of the outer loop but the last. -/
def findAndDelete (script b : Script) : Script × ℕ :=
  if b = [] then (script, 0)
  else
    let (result, pc2, nFound) := deleteLoop b (script.length + 1) [] [] script 0
    if 0 < nFound then (result ++ pc2, nFound) else (script, 0)

example : findAndDelete [0x51, 0x02, 0x51, 0x51, 0x51, 0x51] [0x51] = ([0x02, 0x51, 0x51], 3) := by
  decide

example : findAndDelete [0x02, 0x51, 0x51] [0x51] = ([0x02, 0x51, 0x51], 0) := by
  decide

section Signatures

/-! ### Signatures -/

/-- The checks of an integer with every read checked, `none` for one outside the string. -/
def readDerInteger (sig : List UInt8) (start len : ℕ) : Option Bool :=
  if len = 0 then some false
  else do
    let first ← sig[start]?
    if first &&& 0x80 ≠ 0 then return false
    if 1 < len ∧ first = 0 then return (← sig[start + 1]?) &&& 0x80 ≠ 0
    return true

/-- `IsValidSignatureEncoding` with every read checked, in the order of the source. -/
def readSignatureEncoding (sig : List UInt8) : Option Bool := do
  if sig.length < 9 ∨ 73 < sig.length then return false
  if (← sig[0]?) ≠ 0x30 then return false
  if (← sig[1]?).toNat ≠ sig.length - 3 then return false
  let lenR := (← sig[3]?).toNat
  if sig.length ≤ 5 + lenR then return false
  let lenS := (← sig[5 + lenR]?).toNat
  if lenR + lenS + 7 ≠ sig.length then return false
  if (← sig[2]?) ≠ 0x02 then return false
  if !(← readDerInteger sig 4 lenR) then return false
  if (← sig[lenR + 4]?) ≠ 0x02 then return false
  readDerInteger sig (lenR + 6) lenS

variable {sig r s : List UInt8} {start len i : ℕ}

theorem read_of_lt (h : i < sig.length) : sig[i]? = some (sig.getD i 0) := by
  rw [List.getD_eq_getElem?_getD, List.getElem?_eq_getElem h, Option.getD_some]

theorem readDerInteger_eq (h : start + len < sig.length) :
    readDerInteger sig start len = some (isDerInteger sig start len) := by
  unfold readDerInteger isDerInteger
  by_cases hlen : len = 0
  · simp [hlen]
  · rw [if_neg hlen, read_of_lt (by omega), read_of_lt (by omega)]
    generalize sig.getD start 0 = first, sig.getD (start + 1) 0 = next
    by_cases hneg : first &&& 0x80 = 0 <;> by_cases hzero : 1 < len ∧ first = 0 <;>
      simp_all

theorem readSignatureEncoding_eq (sig : List UInt8) :
    readSignatureEncoding sig = some (isValidSignatureEncoding sig) := by
  unfold readSignatureEncoding isValidSignatureEncoding
  by_cases hlen : sig.length < 9 ∨ 73 < sig.length
  · rw [if_pos hlen]
    have hno : ¬(9 ≤ sig.length ∧ sig.length ≤ 73) := by omega
    simp [← and_assoc, hno]
  rw [if_neg hlen, read_of_lt (i := 0) (by omega), read_of_lt (i := 1) (by omega),
    read_of_lt (i := 2) (by omega), read_of_lt (i := 3) (by omega)]
  simp only [Option.bind_eq_bind, Option.bind_some]
  generalize (sig.getD 3 0).toNat = lenR
  by_cases hr : sig.length ≤ 5 + lenR
  · have hno : ¬5 + lenR < sig.length := by omega
    simp [hr, hno]
  rw [if_neg hr, read_of_lt (i := 5 + lenR) (by omega)]
  simp only [Option.bind_some]
  generalize (sig.getD (5 + lenR) 0).toNat = lenS
  by_cases hs : lenR + lenS + 7 ≠ sig.length
  · simp [hs]
  rw [if_neg hs, readDerInteger_eq (by omega), readDerInteger_eq (by omega),
    read_of_lt (i := lenR + 4) (by omega)]
  have hsize : 9 ≤ sig.length ∧ sig.length ≤ 73 ∧ 5 + lenR < sig.length := by omega
  simp only [Option.bind_some, hsize, not_not.mp hs, true_and]
  split_ifs <;> simp_all

/-- The content of a DER integer that is not negative, without a needless zero in front. -/
def DerInteger : List UInt8 → Prop
  | [] => False
  | [first] => first &&& 0x80 = 0
  | first :: next :: _ => first &&& 0x80 = 0 ∧ ¬(first = 0 ∧ next &&& 0x80 = 0)

/-- An integer with its tag and its length in front. -/
def DerElement (element : List UInt8) : Prop :=
  ∃ len content, element = 0x02 :: len :: content ∧ content.length = len.toNat ∧ DerInteger content

theorem isDerInteger_iff (front content back : List UInt8) :
    isDerInteger (front ++ (content ++ back)) front.length content.length ↔ DerInteger content := by
  match content with
  | [] => simp [isDerInteger, DerInteger]
  | [first] => simp [isDerInteger, DerInteger]
  | first :: next :: content => simp [isDerInteger, DerInteger, imp_iff_not_or]

theorem exists_fields (h : sig.length = i + len + 7) :
    ∃ a b c d r e f s x, sig = a :: b :: c :: d :: (r ++ e :: f :: (s ++ [x])) ∧
      r.length = i ∧ s.length = len := by
  obtain ⟨a, b, c, d, tail, rfl⟩ : ∃ a b c d tail, sig = a :: b :: c :: d :: tail := by
    match sig, h with
    | a :: b :: c :: d :: tail, _ => exact ⟨a, b, c, d, tail, rfl⟩
  simp only [List.length_cons] at h
  have hdrop : (tail.drop i).length = len + 3 := by
    rw [List.length_drop]
    omega
  match hback : tail.drop i, hdrop with
  | e :: f :: rest, hrest =>
    simp only [List.length_cons, Nat.add_left_inj] at hrest
    obtain ⟨x, hx⟩ := List.length_eq_one_iff.mp (show (rest.drop len).length = 1 by simp [hrest])
    refine ⟨a, b, c, d, tail.take i, e, f, rest.take len, x, ?_, ?_, ?_⟩
    · rw [← hx, List.take_append_drop, ← hback, List.take_append_drop]
    · exact List.length_take_of_le (by omega)
    · exact List.length_take_of_le (by omega)

theorem isValidSignatureEncoding_fields {a b c d e f x : UInt8} (hr : r.length = d.toNat)
    (hs : s.length = f.toNat) :
    isValidSignatureEncoding (a :: b :: c :: d :: (r ++ e :: f :: (s ++ [x]))) ↔
      9 ≤ r.length + s.length + 7 ∧ r.length + s.length + 7 ≤ 73 ∧ a = 0x30 ∧
        b.toNat = r.length + s.length + 4 ∧ c = 0x02 ∧ DerInteger r ∧ e = 0x02 ∧ DerInteger s := by
  have hderR : isDerInteger (a :: b :: c :: d :: (r ++ e :: f :: (s ++ [x]))) 4 r.length ↔
      DerInteger r := isDerInteger_iff [a, b, c, d] r _
  have hderS : isDerInteger (a :: b :: c :: d :: (r ++ e :: f :: (s ++ [x]))) (r.length + 6)
      s.length ↔ DerInteger s := by
    simpa using isDerInteger_iff ([a, b, c, d] ++ r ++ [e, f]) s [x]
  simp only [isValidSignatureEncoding, List.getD_cons_succ, List.getD_cons_zero, ← hr]
  simp [← hs, Nat.add_comm 5, hderR, hderS]
  grind

/-- The check reads nothing outside the string. It accepts exactly a sequence of two integers, of
at most 73 bytes together with the byte of the hash type. -/
theorem isValidSignatureEncoding_iff (sig : List UInt8) :
    readSignatureEncoding sig = some (isValidSignatureEncoding sig) ∧
      (isValidSignatureEncoding sig ↔ ∃ len R S hashtype, DerElement R ∧ DerElement S ∧
        sig = 0x30 :: len :: (R ++ S ++ [hashtype]) ∧ (R ++ S).length = len.toNat ∧
        9 ≤ sig.length ∧ sig.length ≤ 73) := by
  refine ⟨readSignatureEncoding_eq sig, ?_, ?_⟩
  · intro h
    have hlen : sig.length = (sig.getD 3 0).toNat +
        (sig.getD (5 + (sig.getD 3 0).toNat) 0).toNat + 7 := by
      simp only [isValidSignatureEncoding, decide_eq_true_eq] at h
      exact h.2.2.2.2.2.1.symm
    obtain ⟨a, b, c, d, r, e, f, s, x, rfl, hr, hs'⟩ := exists_fields hlen
    rw [List.getD_cons_succ, List.getD_cons_succ, List.getD_cons_succ, List.getD_cons_zero] at hr
    have hs : s.length = f.toNat := by
      rw [hs']
      simp [← hr, Nat.add_comm 5]
    obtain ⟨hmin, hmax, rfl, hb, rfl, hderR, rfl, hderS⟩ :=
      (isValidSignatureEncoding_fields hr hs).mp h
    refine ⟨b, _, _, x, ⟨d, r, rfl, hr, hderR⟩, ⟨f, s, rfl, hs, hderS⟩, by simp, ?_, ?_⟩
    all_goals
      simp
      omega
  · rintro ⟨b, _, _, x, ⟨d, r, rfl, hr, hderR⟩, ⟨f, s, rfl, hs, hderS⟩, rfl, hb, hmin, hmax⟩
    simp only [List.length_append, List.length_cons, List.length_nil] at hb hmin hmax
    have hvalid := (isValidSignatureEncoding_fields (b := b) (x := x) hr hs).mpr
      ⟨by omega, by omega, rfl, by omega, rfl, hderR, rfl, hderS⟩
    simpa using hvalid

end Signatures

end Tarcoin.Script
