import Tarcoin.Serialize.BitStream
import Tarcoin.Serialize.VarInt

/-! A filter has the sorted hashes of a set as Golomb-Rice codes of their differences: the quotient
by a power of two in unary, then the remainder in binary. A query walks along both lists of
hashes. -/
namespace Tarcoin.Filter

open BitString Serialize

def code (p x : ℕ) : List Bool := List.replicate (x / 2 ^ p) true ++ false :: BitString.bits p x

/-- The loop that writes the quotient, 64 bits at most in a turn. -/
def writeQuotient (w : BitWriter) (q : ℕ) : Except BitError BitWriter :=
  if q = 0 then .ok w
  else (w.write (2 ^ 64 - 1) (min q 64)).bind fun w => writeQuotient w (q - min q 64)
termination_by q
decreasing_by omega

def golombRiceEncode (w : BitWriter) (p x : ℕ) : Except BitError BitWriter := do
  let w ← writeQuotient w (x / 2 ^ p)
  let w ← w.write 0 1
  w.write x p

def readQuotient (r : BitReader) (q : ℕ) : Except BitError (ℕ × BitReader) :=
  match h : r.read 1 with
  | .error e => .error e
  | .ok (bit, r') => if bit = 1 then readQuotient r' (q + 1) else .ok (q, r')
termination_by r.remaining.length
decreasing_by
  have := BitReader.length_read h
  omega

def golombRiceDecode (r : BitReader) (p : ℕ) : Except BitError (ℕ × BitReader) := do
  let q ← readQuotient r 0
  let rem ← q.2.read p
  .ok ((q.1 * 2 ^ p + rem.1) % 2 ^ 64, rem.2)

variable {w : BitWriter} {r : BitReader} {written tail : List Bool} {p x q : ℕ}

theorem writeQuotient_wrote (hw : w.Wrote written) (q : ℕ) :
    ∃ w', writeQuotient w q = .ok w' ∧ w'.Wrote (written ++ List.replicate q true) := by
  induction q using Nat.strong_induction_on generalizing w written with
  | _ q ih =>
    rw [writeQuotient]
    by_cases hzero : q = 0
    · refine ⟨w, if_pos hzero, ?_⟩
      rwa [hzero, List.replicate_zero, List.append_nil]
    rw [if_neg hzero]
    obtain ⟨w₁, hwrite, hw₁⟩ := hw.write (2 ^ 64 - 1) (min_le_right q 64)
    have hones : BitString.bits (min q 64) (2 ^ 64 - 1) = List.replicate (min q 64) true := by
      refine bits_ones _ _ ?_
      intro i hi
      rw [Nat.testBit_two_pow_sub_one, decide_eq_true_eq]
      omega
    obtain ⟨w₂, hrest, hw₂⟩ := ih (q - min q 64) (by omega) hw₁
    refine ⟨w₂, by rw [hwrite]; exact hrest, ?_⟩
    rwa [hones, List.append_assoc, List.replicate_append_replicate,
      Nat.add_sub_cancel' (min_le_left q 64)] at hw₂

theorem golombRiceEncode_wrote (hw : w.Wrote written) (hp : p ≤ 64) (x : ℕ) :
    ∃ w', golombRiceEncode w p x = .ok w' ∧ w'.Wrote (written ++ code p x) := by
  obtain ⟨w₁, h₁, hw₁⟩ := writeQuotient_wrote hw (x / 2 ^ p)
  obtain ⟨w₂, h₂, hw₂⟩ := hw₁.write 0 (show 1 ≤ 64 by decide)
  obtain ⟨w₃, h₃, hw₃⟩ := hw₂.write x hp
  refine ⟨w₃, ?_, ?_⟩
  · simp only [golombRiceEncode, h₁, h₂, h₃, bind, Except.bind]
  · have hcode : written ++ List.replicate (x / 2 ^ p) true ++ BitString.bits 1 0 ++
        BitString.bits p x =
        written ++ code p x := by
      simp [code, BitString.bits]
    rwa [hcode] at hw₃

theorem readQuotient_eq {bit : ℕ} {r' : BitReader} (h : r.read 1 = .ok (bit, r')) (q : ℕ) :
    readQuotient r q = if bit = 1 then readQuotient r' (q + 1) else .ok (q, r') := by
  rw [readQuotient]
  split
  · rename_i hread
    rw [h] at hread
    cases hread
  · rename_i hread
    rw [h] at hread
    cases hread
    rfl

theorem readQuotient_ok (h : r.remaining = List.replicate q true ++ false :: tail) (q₀ : ℕ) :
    ∃ r', readQuotient r q₀ = .ok (q₀ + q, r') ∧ r'.remaining = tail := by
  induction q generalizing r q₀ with
  | zero =>
    obtain ⟨r', hread, htail⟩ := BitReader.read_ok (x := 0) (show 1 ≤ 64 by decide) h
    refine ⟨r', ?_, htail⟩
    rw [readQuotient_eq hread]
    rfl
  | succ q ih =>
    have hone : r.remaining = BitString.bits 1 1 ++ (List.replicate q true ++ false :: tail) := h
    obtain ⟨r₁, hread, hremaining⟩ := BitReader.read_ok (by decide) hone
    obtain ⟨r', hrun, htail⟩ := ih hremaining (q₀ + 1)
    refine ⟨r', ?_, htail⟩
    rw [readQuotient_eq hread, Nat.add_comm q 1, ← Nat.add_assoc]
    exact hrun

theorem golombRiceDecode_ok (hp : p ≤ 64) (hx : x < 2 ^ 64)
    (h : r.remaining = code p x ++ tail) :
    ∃ r', golombRiceDecode r p = .ok (x, r') ∧ r'.remaining = tail := by
  rw [code, List.append_assoc] at h
  obtain ⟨r₁, h₁, hr₁⟩ := readQuotient_ok h 0
  obtain ⟨r₂, h₂, hr₂⟩ := BitReader.read_ok hp hr₁
  refine ⟨r₂, ?_, hr₂⟩
  simp only [golombRiceDecode, h₁, h₂, bind, Except.bind, Nat.zero_add]
  rw [Nat.mul_comm, Nat.div_add_mod, Nat.mod_eq_of_lt hx]

abbrev Element := List UInt8

structure Params where
  siphashK0 : UInt64
  siphashK1 : UInt64
  p : ℕ
  m : ℕ
deriving DecidableEq, Repr

def basicFilterP : ℕ := 19

def basicFilterM : ℕ := 784931

def basicParams (k0 k1 : UInt64) : Params := ⟨k0, k1, basicFilterP, basicFilterM⟩

structure GCSFilter where
  params : Params
  n : ℕ
  f : ℕ
  encoded : List UInt8
deriving DecidableEq, Repr

inductive FilterError
  | tooManyElements
  | excessData
  | sizeMismatch
  | size (e : ReadError)
  | stream (e : BitError)

section

variable (sipHash : UInt64 → UInt64 → Element → UInt64)

/-- Hash an element to the range of the filter; the product has 128 bits. -/
def hashToRange (params : Params) (f : ℕ) (element : Element) : ℕ :=
  (sipHash params.siphashK0 params.siphashK1 element).toNat * f / 2 ^ 64

def buildHashedSet (params : Params) (f : ℕ) (elements : Finset Element) : List ℕ :=
  (elements.val.map (hashToRange sipHash params f)).sort (· ≤ ·)

def encodeDeltas (p : ℕ) : List ℕ → ℕ → BitWriter → Except BitError BitWriter
  | [], _, w => .ok w
  | value :: values, lastValue, w =>
    (golombRiceEncode w p (value - lastValue)).bind (encodeDeltas p values value)

def ofElements (params : Params) (elements : Finset Element) : Except FilterError GCSFilter :=
  let n := elements.card % 2 ^ 32
  if n ≠ elements.card then .error .tooManyElements
  else if elements = ∅ then .ok ⟨params, n, n * params.m, writeCompactSize n⟩
  else
    match encodeDeltas params.p (buildHashedSet sipHash params (n * params.m) elements) 0
        (.start (writeCompactSize n)) with
    | .error e => .error (.stream e)
    | .ok w => .ok ⟨params, n, n * params.m, w.flush.out⟩

end

/-- Decode numbers only to see that they are there. -/
def skipDeltas (p : ℕ) : ℕ → BitReader → Except BitError BitReader
  | 0, r => .ok r
  | n + 1, r => (golombRiceDecode r p).bind fun delta => skipDeltas p n delta.2

def ofEncoded (params : Params) (encodedFilter : List UInt8) (skipDecodeCheck : Bool) :
    Except FilterError GCSFilter :=
  match readCompactSize true encodedFilter with
  | .error e => .error (.size e)
  | .ok (size, stream) =>
    let n := size % 2 ^ 32
    if n ≠ size then .error .tooManyElements
    else if skipDecodeCheck then .ok ⟨params, n, n * params.m, encodedFilter⟩
    else
      match skipDeltas params.p n (.start stream) with
      | .error e => .error (.stream e)
      | .ok r => if r.rest = [] then .ok ⟨params, n, n * params.m, encodedFilter⟩
          else .error .excessData

/-- Look for a value among the hashes that are left: the answer, or where to go on. -/
def seek (value : ℕ) : List ℕ → Bool ⊕ List ℕ
  | [] => .inl false
  | hash :: hashes =>
    if hash = value then .inl true
    else if hash > value then .inr (hash :: hashes)
    else seek value hashes

def matchFrom (p : ℕ) : ℕ → BitReader → ℕ → List ℕ → Except BitError Bool
  | 0, _, _, _ => .ok false
  | n + 1, r, value, hashes =>
    (golombRiceDecode r p).bind fun delta =>
      match seek ((value + delta.1) % 2 ^ 64) hashes with
      | .inl answer => .ok answer
      | .inr hashes => matchFrom p n delta.2 ((value + delta.1) % 2 ^ 64) hashes

namespace GCSFilter

variable (filter : GCSFilter)

def matchInternal (elementHashes : List ℕ) : Except FilterError Bool :=
  match readCompactSize true filter.encoded with
  | .error e => .error (.size e)
  | .ok (n, stream) =>
    if n = filter.n then
      (matchFrom filter.params.p filter.n (.start stream) 0 elementHashes).mapError .stream
    else .error .sizeMismatch

variable (sipHash : UInt64 → UInt64 → Element → UInt64)

def matchOne (element : Element) : Except FilterError Bool :=
  filter.matchInternal [hashToRange sipHash filter.params filter.f element]

def matchAny (elements : Finset Element) : Except FilterError Bool :=
  filter.matchInternal (buildHashedSet sipHash filter.params filter.f elements)

end GCSFilter

/-! ## The walk -/

variable {p n value last : ℕ} {values hashes : List ℕ} {r : BitReader} {w : BitWriter}
  {written tail : List Bool}

def deltaCodes (p : ℕ) : List ℕ → ℕ → List Bool
  | [], _ => []
  | value :: values, last => code p (value - last) ++ deltaCodes p values value

theorem encodeDeltas_wrote (hp : p ≤ 64) (values : List ℕ) (last : ℕ) (hw : w.Wrote written) :
    ∃ w', encodeDeltas p values last w = .ok w' ∧
      w'.Wrote (written ++ deltaCodes p values last) := by
  induction values generalizing w written last with
  | nil => exact ⟨w, rfl, by rwa [deltaCodes, List.append_nil]⟩
  | cons value values ih =>
    obtain ⟨w₁, h₁, hw₁⟩ := golombRiceEncode_wrote hw hp (value - last)
    obtain ⟨w₂, h₂, hw₂⟩ := ih value hw₁
    refine ⟨w₂, by rw [encodeDeltas, h₁]; exact h₂, ?_⟩
    rwa [List.append_assoc] at hw₂

theorem skipDeltas_ok (hp : p ≤ 64) (hvalues : ∀ v ∈ values, v < 2 ^ 64)
    (h : r.remaining = deltaCodes p values last ++ tail) :
    ∃ r', skipDeltas p values.length r = .ok r' ∧ r'.remaining = tail := by
  induction values generalizing r last with
  | nil => exact ⟨r, rfl, h⟩
  | cons value values ih =>
    rw [List.forall_mem_cons] at hvalues
    rw [deltaCodes, List.append_assoc] at h
    obtain ⟨r₁, h₁, hr₁⟩ :=
      golombRiceDecode_ok hp ((Nat.sub_le value last).trans_lt hvalues.1) h
    obtain ⟨r₂, h₂, hr₂⟩ := ih hvalues.2 hr₁
    exact ⟨r₂, by rw [List.length_cons, skipDeltas, h₁]; exact h₂, hr₂⟩

theorem seek_spec (hsorted : hashes.Pairwise (· ≤ ·)) (value : ℕ) :
    (seek value hashes = .inl true ∧ value ∈ hashes) ∨
    (seek value hashes = .inl false ∧ ∀ h ∈ hashes, h < value) ∨
    ∃ rest, seek value hashes = .inr rest ∧ rest.Pairwise (· ≤ ·) ∧ value ∉ hashes ∧
      ∀ v, value ≤ v → (v ∈ rest ↔ v ∈ hashes) := by
  induction hashes with
  | nil => exact Or.inr (Or.inl ⟨rfl, by simp⟩)
  | cons h hashes ih =>
    rw [List.pairwise_cons] at hsorted
    rw [seek]
    by_cases heq : h = value
    · exact Or.inl ⟨if_pos heq, heq ▸ List.mem_cons_self⟩
    rw [if_neg heq]
    by_cases hgt : h > value
    · refine Or.inr (Or.inr ⟨_, if_pos hgt, List.pairwise_cons.2 hsorted, ?_, fun v _ => Iff.rfl⟩)
      rw [List.mem_cons, not_or]
      exact ⟨hgt.ne, fun hmem => (hsorted.1 value hmem).not_gt hgt⟩
    · rw [if_neg hgt]
      have hlt : h < value := by omega
      rcases ih hsorted.2 with ⟨hseek, hmem⟩ | ⟨hseek, hall⟩ | ⟨rest, hseek, hrest, hnot, hiff⟩
      · exact Or.inl ⟨hseek, List.mem_cons_of_mem h hmem⟩
      · exact Or.inr (Or.inl ⟨hseek, List.forall_mem_cons.2 ⟨hlt, hall⟩⟩)
      · refine Or.inr (Or.inr ⟨rest, hseek, hrest, ?_, ?_⟩)
        · rw [List.mem_cons, not_or]
          exact ⟨hlt.ne', hnot⟩
        · intro v hv
          rw [hiff v hv, List.mem_cons, or_iff_right (hlt.trans_le hv).ne']

theorem matchFrom_ok (hp : p ≤ 64) (last : ℕ) (hsmall : ∀ v ∈ values, v < 2 ^ 64)
    (hvalues : (last :: values).Pairwise (· ≤ ·)) (hhashes : hashes.Pairwise (· ≤ ·))
    (h : r.remaining = deltaCodes p values last ++ tail) :
    matchFrom p values.length r last hashes = .ok (decide (∃ v ∈ values, v ∈ hashes)) := by
  induction values generalizing r last hashes with
  | nil => simp [matchFrom]
  | cons value values ih =>
    rw [List.forall_mem_cons] at hsmall
    rw [List.pairwise_cons, List.forall_mem_cons] at hvalues
    rw [deltaCodes, List.append_assoc] at h
    obtain ⟨r₁, h₁, hr₁⟩ :=
      golombRiceDecode_ok hp ((Nat.sub_le value last).trans_lt hsmall.1) h
    have hlater := (List.pairwise_cons.1 hvalues.2).1
    have hvalue : (last + (value - last)) % 2 ^ 64 = value := by
      rw [Nat.add_sub_cancel' hvalues.1.1, Nat.mod_eq_of_lt hsmall.1]
    rw [List.length_cons, matchFrom, h₁]
    show (match seek ((last + (value - last)) % 2 ^ 64) hashes with
      | .inl answer => Except.ok answer
      | .inr hashes => matchFrom p values.length r₁ ((last + (value - last)) % 2 ^ 64) hashes) = _
    rw [hvalue]
    rcases seek_spec hhashes value with ⟨hseek, hmem⟩ | ⟨hseek, hall⟩ | ⟨rest, hseek, hrest, hnot, hiff⟩
    · have hfound : ∃ v ∈ value :: values, v ∈ hashes := ⟨value, List.mem_cons_self, hmem⟩
      rw [hseek, decide_eq_true hfound]
    · have hnone : ¬∃ v ∈ value :: values, v ∈ hashes := by
        rintro ⟨v, hv, hmem⟩
        rcases List.mem_cons.1 hv with rfl | hv
        · exact (hall v hmem).false
        · exact ((hall v hmem).trans_le (hlater v hv)).false
      rw [hseek, decide_eq_false hnone]
    · have hsame : (∃ v ∈ values, v ∈ rest) ↔ ∃ v ∈ value :: values, v ∈ hashes := by
        constructor
        · intro ⟨v, hv, hmem⟩
          exact ⟨v, List.mem_cons_of_mem value hv, (hiff v (hlater v hv)).1 hmem⟩
        · intro ⟨v, hv, hmem⟩
          rcases List.mem_cons.1 hv with rfl | hv
          · exact absurd hmem hnot
          · exact ⟨v, hv, (hiff v (hlater v hv)).2 hmem⟩
      rw [hseek]
      dsimp only
      rw [ih value hsmall.2 hvalues.2 hrest hr₁]
      simp only [hsame]

end Tarcoin.Filter
