import Mathlib.Algebra.Order.Ring.Nat
import Mathlib.Data.Nat.Size

/-! The map from addresses to autonomous systems, a bytecode over the bits of an address, decoded
bit by bit. -/
namespace Tarcoin.Util.Asmap

/-- What must not happen: a read out of range, the assertion at the end of the interpreter, and
a loop that does not end. -/
inductive Fault
  | outOfRange
  | assertFalse
  | outOfFuel
deriving DecidableEq, Repr

def invalid : ℕ := 0xFFFFFFFF

/-- A bit of the map, the lowest of a byte first, and the position after it. -/
def consumeBitLE (bitpos : ℕ) (bytes : List UInt8) : Except Fault (Bool × ℕ) :=
  match bytes[bitpos / 8]? with
  | none => .error .outOfRange
  | some byte => .ok (byte.toNat.testBit (bitpos % 8), bitpos + 1)

/-- A bit of an address, the highest of a byte first. The position is a byte. -/
def consumeBitBE (bitpos : ℕ) (bytes : List UInt8) : Except Fault (Bool × ℕ) :=
  match bytes[bitpos / 8]? with
  | none => .error .outOfRange
  | some byte => .ok (byte.toNat.testBit (7 - bitpos % 8), (bitpos + 1) % 256)

/-! ## Numbers -/

/-- The position within a class, in `left` bits. -/
def decodeMantissa (data : List UInt8) : ℕ → ℕ → ℕ → Except Fault (ℕ × ℕ)
  | 0, bitpos, val => .ok (val, bitpos)
  | left + 1, bitpos, val =>
    if data.length * 8 ≤ bitpos then .ok (invalid, bitpos)
    else do
      let bit ← consumeBitLE bitpos data
      decodeMantissa data left bit.2 ((val + bit.1.toNat * 2 ^ left) % 2 ^ 32)

/-- A number from its class on, where `val` is the smallest of the class. The last class has no
continuation bit. -/
def decodeBits (data : List UInt8) : List ℕ → ℕ → ℕ → Except Fault (ℕ × ℕ)
  | [], bitpos, _ => .ok (invalid, bitpos)
  | [size], bitpos, val => decodeMantissa data size bitpos val
  | size :: next :: sizes, bitpos, val =>
    if data.length * 8 ≤ bitpos then .ok (invalid, bitpos)
    else do
      let bit ← consumeBitLE bitpos data
      if bit.1 then decodeBits data (next :: sizes) bit.2 ((val + 2 ^ size) % 2 ^ 32)
      else decodeMantissa data size bit.2 val

inductive Instruction
  | ret
  | jump
  | compare
  | setDefault
deriving DecidableEq, Repr

def Instruction.ofNat? : ℕ → Option Instruction
  | 0 => some .ret
  | 1 => some .jump
  | 2 => some .compare
  | 3 => some .setDefault
  | _ => none

def typeBitSizes : List ℕ := [0, 0, 1]

def decodeType (bitpos : ℕ) (data : List UInt8) : Except Fault (Option Instruction × ℕ) :=
  (decodeBits data typeBitSizes bitpos 0).map (fun r => (Instruction.ofNat? r.1, r.2))

def asnBitSizes : List ℕ := [15, 16, 17, 18, 19, 20, 21, 22, 23, 24]

def decodeASN (bitpos : ℕ) (data : List UInt8) : Except Fault (ℕ × ℕ) :=
  decodeBits data asnBitSizes bitpos 1

def matchBitSizes : List ℕ := [1, 2, 3, 4, 5, 6, 7, 8]

def decodeMatch (bitpos : ℕ) (data : List UInt8) : Except Fault (ℕ × ℕ) :=
  decodeBits data matchBitSizes bitpos 2

def jumpBitSizes : List ℕ :=
  [5, 6, 7, 8, 9, 10, 11, 12, 13, 14, 15, 16, 17, 18, 19, 20, 21, 22, 23, 24, 25, 26, 27, 28, 29, 30]

def decodeJump (bitpos : ℕ) (data : List UInt8) : Except Fault (ℕ × ℕ) :=
  decodeBits data jumpBitSizes bitpos 17

/-- A pattern has a leading bit before the bits to compare. -/
def matchlen (pattern : ℕ) : ℕ := pattern.size - 1

/-! ## The interpreter -/

structure Cursor where
  pos : ℕ
  ipBit : ℕ
  defaultAsn : ℕ
deriving DecidableEq, Repr

/-- Compare the next bits of the address with the low bits of a pattern. -/
def compareBits (ip : List UInt8) (pattern : ℕ) : ℕ → ℕ → Except Fault (Option ℕ)
  | 0, ipBit => .ok (some ipBit)
  | left + 1, ipBit => do
    let bit ← consumeBitBE ipBit ip
    if bit.1 = pattern.testBit left then compareBits ip pattern left bit.2 else .ok none

variable (asmap ip : List UInt8)

def ipBitsEnd : ℕ := ip.length * 8 % 256

/-- One instruction: the answer, or where to go on. -/
def step (c : Cursor) : Except Fault (ℕ ⊕ Cursor) := do
  let op ← decodeType c.pos asmap
  match op.1 with
  | some .ret =>
    let asn ← decodeASN op.2 asmap
    if asn.1 = invalid then .error .assertFalse else .ok (.inl asn.1)
  | some .jump =>
    let jump ← decodeJump op.2 asmap
    if jump.1 = invalid ∨ c.ipBit = ipBitsEnd ip ∨ asmap.length * 8 - jump.2 ≤ jump.1 then
      .error .assertFalse
    else
      let bit ← consumeBitBE c.ipBit ip
      .ok (.inr ⟨if bit.1 then jump.2 + jump.1 else jump.2, bit.2, c.defaultAsn⟩)
  | some .compare =>
    let pattern ← decodeMatch op.2 asmap
    if pattern.1 = invalid ∨ (ipBitsEnd ip : ℤ) - c.ipBit < matchlen pattern.1 then
      .error .assertFalse
    else
      let matched ← compareBits ip pattern.1 (matchlen pattern.1) c.ipBit
      match matched with
      | none => .ok (.inl c.defaultAsn)
      | some ipBit => .ok (.inr ⟨pattern.2, ipBit, c.defaultAsn⟩)
  | some .setDefault =>
    let asn ← decodeASN op.2 asmap
    if asn.1 = invalid then .error .assertFalse else .ok (.inr ⟨asn.2, c.ipBit, asn.1⟩)
  | none => .error .assertFalse

def interpretFrom : ℕ → Cursor → Except Fault ℕ
  | 0, _ => .error .outOfFuel
  | fuel + 1, c =>
    if c.pos < asmap.length * 8 then do
      let next ← step asmap ip c
      match next with
      | .inl asn => .ok asn
      | .inr c => interpretFrom fuel c
    else .error .assertFalse

def interpret : Except Fault ℕ := interpretFrom asmap ip (asmap.length * 8 + 1) ⟨0, 0, 0⟩

/-! ## The check -/

/-- Where the check is; the next jump target is the first of `jumps`. -/
structure Check where
  pos : ℕ
  bits : ℕ
  jumps : List (ℕ × ℕ)
  prevopcode : Instruction
  hadIncompleteMatch : Bool
deriving DecidableEq, Repr

/-- Nothing but zeros is left, at most `left` of them. -/
def zeroPadding : ℕ → ℕ → Except Fault Bool
  | 0, _ => .ok true
  | left + 1, pos => do
    let bit ← consumeBitLE pos asmap
    if bit.1 then .ok false else zeroPadding left bit.2

/-- A return: the end of the map, or the next open target. -/
def checkReturn (c : Check) (bitpos : ℕ) : Except Fault (Bool ⊕ Check) :=
  if c.prevopcode = .setDefault then .ok (.inl false)
  else do
    let asn ← decodeASN bitpos asmap
    if asn.1 = invalid then .ok (.inl false)
    else
      match c.jumps with
      | [] =>
        if asmap.length * 8 - asn.2 > 7 then .ok (.inl false)
        else (zeroPadding asmap (asmap.length * 8 - asn.2) asn.2).map .inl
      | target :: jumps =>
        if asn.2 ≠ target.1 then .ok (.inl false)
        else .ok (.inr ⟨asn.2, target.2, jumps, .jump, c.hadIncompleteMatch⟩)

def checkJump (c : Check) (bitpos : ℕ) : Except Fault (Bool ⊕ Check) := do
  let jump ← decodeJump bitpos asmap
  if jump.1 = invalid ∨ asmap.length * 8 - jump.2 < jump.1 ∨ c.bits = 0 then .ok (.inl false)
  else
    let jumpOffset := (jump.2 + jump.1) % 2 ^ 32
    if c.jumps.head?.any (fun target => target.1 ≤ jumpOffset) then .ok (.inl false)
    else .ok (.inr ⟨jump.2, c.bits - 1, (jumpOffset, c.bits - 1) :: c.jumps, .jump,
      c.hadIncompleteMatch⟩)

/-- Within a sequence of matches at most one is shorter than a byte. -/
def checkMatch (c : Check) (bitpos : ℕ) : Except Fault (Bool ⊕ Check) := do
  let pattern ← decodeMatch bitpos asmap
  let incomplete := c.prevopcode = .compare ∧ c.hadIncompleteMatch
  if pattern.1 = invalid ∨ matchlen pattern.1 < 8 ∧ incomplete ∨ c.bits < matchlen pattern.1 then
    .ok (.inl false)
  else .ok (.inr ⟨pattern.2, c.bits - matchlen pattern.1, c.jumps, .compare,
    matchlen pattern.1 < 8⟩)

def checkDefault (c : Check) (bitpos : ℕ) : Except Fault (Bool ⊕ Check) :=
  if c.prevopcode = .setDefault then .ok (.inl false)
  else do
    let asn ← decodeASN bitpos asmap
    if asn.1 = invalid then .ok (.inl false)
    else .ok (.inr ⟨asn.2, c.bits, c.jumps, .setDefault, c.hadIncompleteMatch⟩)

/-- One instruction: the answer of the check, or where it goes on. -/
def checkStep (c : Check) : Except Fault (Bool ⊕ Check) := do
  let op ← decodeType c.pos asmap
  match op.1 with
  | some .ret => checkReturn asmap c op.2
  | some .jump => checkJump asmap c op.2
  | some .compare => checkMatch asmap c op.2
  | some .setDefault => checkDefault asmap c op.2
  | none => .ok (.inl false)

def checkFrom : ℕ → Check → Except Fault Bool
  | 0, _ => .error .outOfFuel
  | fuel + 1, c =>
    if c.pos = asmap.length * 8 then .ok false
    -- a jump into the middle of the previous instruction
    else if c.jumps.head?.any (fun target => target.1 ≤ c.pos) then .ok false
    else do
      let next ← checkStep asmap c
      match next with
      | .inl answer => .ok answer
      | .inr c => checkFrom fuel c

def sanityCheckAsmap (bits : ℕ) : Except Fault Bool :=
  checkFrom asmap (asmap.length * 8 + 1) ⟨0, bits, [], .jump, false⟩

end Tarcoin.Util.Asmap
