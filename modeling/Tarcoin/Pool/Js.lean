import Tarcoin.Foundations.Hex
import Tarcoin.Util.FixedPoint

/-! JSON values as the pool's JavaScript sees them. A number is kept as the text that `String`
gives it. -/
namespace Tarcoin.Pool
open Radix

inductive JsError
  | typeError
  | rangeError
  | rejected
  deriving DecidableEq, Repr

inductive Json
  | null
  | bool (b : Bool)
  | num (text : Text)
  | str (s : Text)
  | arr (items : List Json)
  | obj (fields : List (Text × Json))

/-- A JavaScript value that came out of `JSON.parse`, or `undefined`. -/
abbrev JsVal := Option Json

mutual

/-- `String(v)`. An object with a member of its own called `toString` cannot be converted. -/
def Json.toText : Json → Except JsError Text
  | .null => .ok "null".toList
  | .bool b => .ok (if b then "true" else "false").toList
  | .num text => .ok text
  | .str s => .ok s
  | .arr items => joinItems items
  | .obj fields =>
    if fields.any fun f => f.1 = "toString".toList then .error .typeError
    else .ok "[object Object]".toList

/-- `Array.prototype.join`, where `null` becomes the empty text. -/
def joinItems : List Json → Except JsError Text
  | [] => .ok []
  | item :: items => do
    let head ← match item with
      | .null => .ok []
      | item => item.toText
    match items with
      | [] => .ok head
      | items => do
        let tail ← joinItems items
        .ok (head ++ ',' :: tail)

end

def toText : JsVal → Except JsError Text
  | none => .ok "undefined".toList
  | some v => v.toText

def Json.truthy : Json → Bool
  | .null => false
  | .bool b => b
  | .num text => text != "0".toList
  | .str s => s != []
  | .arr _ => true
  | .obj _ => true

/-- What `===` and the keys of a `Map` see of a value: an array or object is only equal to
itself, and is named by the message and the position it came in. -/
inductive Key
  | undefined
  | null
  | bool (b : Bool)
  | num (text : Text)
  | str (s : Text)
  | ref (message position : ℕ)
  deriving DecidableEq, Repr

def keyOf (message position : ℕ) : JsVal → Key
  | none => .undefined
  | some .null => .null
  | some (.bool b) => .bool b
  | some (.num text) => .num text
  | some (.str s) => .str s
  | some (.arr _) => .ref message position
  | some (.obj _) => .ref message position

def Key.truthy : Key → Bool
  | .undefined => false
  | .null => false
  | .bool b => b
  | .num text => text != "0".toList
  | .str s => s != []
  | .ref _ _ => true

structure Request where
  id : JsVal
  params : JsVal

def Request.param (m : Request) (i : ℕ) : Except JsError JsVal :=
  match m.params with
  | none => .error .typeError
  | some .null => .error .typeError
  | some (.bool _) => .ok none
  | some (.num _) => .ok none
  | some (.str s) => .ok (s[i]?.map fun c => .str [c])
  | some (.arr items) => .ok items[i]?
  | some (.obj fields) => .ok (fields.lookup (Nat.toDigits 10 i))

def Request.items (m : Request) : Except JsError (List Json) :=
  match m.params with
  | some (.str s) => .ok (s.map fun c => .str [c])
  | some (.arr items) => .ok items
  | _ => .error .typeError

def isSpace (c : Char) : Bool :=
  (0x0009 ≤ c.toNat && c.toNat ≤ 0x000d) || (0x2000 ≤ c.toNat && c.toNat ≤ 0x200a) ||
    [0x0020, 0x00a0, 0x1680, 0x2028, 0x2029, 0x202f, 0x205f, 0x3000, 0xfeff].contains c.toNat

def trim (s : Text) : Text := ((s.dropWhile isSpace).reverse.dropWhile isSpace).reverse

/-- The digits that `parseInt(s, 16)` reads after the sign, as far as they go. -/
def hexDigits : Text → List ℕ
  | [] => []
  | c :: s =>
    match Hex.value c with
    | some d => d :: hexDigits s
    | none => []

def parseHexDigits (s : Text) : Option ℕ :=
  match hexDigits s with
  | [] => none
  | ds => some (accumulate 16 0 ds)

def parseHexUnsigned : Text → Option ℕ
  | '0' :: 'x' :: s => parseHexDigits s
  | '0' :: 'X' :: s => parseHexDigits s
  | s => parseHexDigits s

def parseInt16 (s : Text) : Option ℤ :=
  match s.dropWhile isSpace with
  | '-' :: rest => (parseHexUnsigned rest).map fun n => -(n : ℤ)
  | '+' :: rest => (parseHexUnsigned rest).map Int.ofNat
  | rest => (parseHexUnsigned rest).map Int.ofNat

/-- The double nearest to a natural number, halfway cases to the even mantissa. -/
def nearestDouble (n : ℕ) : ℕ :=
  let unit := 2 ^ (Nat.log2 n + 1 - 53)
  let q := n / unit
  if unit < 2 * (n % unit) ∨ (unit = 2 * (n % unit) ∧ q % 2 = 1) then (q + 1) * unit else q * unit

/-- The 32 bits that the bitwise operators see of a number. -/
def toBits32 : Option ℤ → BitVec 32
  | none => 0
  | some n => BitVec.ofInt 32 (n.sign * nearestDouble n.natAbs)

def toString16 (n : ℤ) : Text :=
  if n < 0 then '-' :: Nat.toDigits 16 n.natAbs else Nat.toDigits 16 n.natAbs

def padStart (width : ℕ) (s : Text) : Text := s.leftpad width '0'

def littleEndian : ℕ → ℕ → List UInt8
  | 0, _ => []
  | width + 1, n => UInt8.ofNat (n % 256) :: littleEndian width (n / 256)

/-- `writeUInt32LE`; `NaN` passes the range check and is written as zero. -/
def writeUInt32LE : Option ℤ → Except JsError (List UInt8)
  | none => .ok (littleEndian 4 0)
  | some n => if n < 0 ∨ 2 ^ 32 ≤ n then .error .rangeError else .ok (littleEndian 4 n.toNat)

@[simp] theorem length_littleEndian (width n : ℕ) : (littleEndian width n).length = width := by
  induction width generalizing n with
  | zero => rfl
  | succ width ih => rw [littleEndian, List.length_cons, ih]

theorem length_writeUInt32LE {v : Option ℤ} {bytes : List UInt8} (h : writeUInt32LE v = .ok bytes) :
    bytes.length = 4 := by
  cases v with
  | none =>
    cases h
    exact length_littleEndian 4 0
  | some n =>
    simp only [writeUInt32LE] at h
    split_ifs at h
    cases h
    exact length_littleEndian 4 _

end Tarcoin.Pool
