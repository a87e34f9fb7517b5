import Tarcoin.Pool.Js
import Tarcoin.Primitives.Transaction

/-! The helpers of `pool.js` around a submitted share, from the coinbase text to the header that
is hashed. -/
namespace Tarcoin.Pool

/-- What the pool takes from its runtime: the digest of `crypto`, the full Unicode
`toLowerCase`, and two results of arithmetic in doubles, `Math.round(socketDiff * (targetTime /
actualTime))` for a difficulty and a number of recent shares, and `Math.floor(blockReward *
(soloState.fee / 100))`. -/
structure Runtime where
  sha256 : List UInt8 → Bytes 32
  toLowerCase : Text → Text
  toLowerCase_ascii : ∀ s : Text, (∀ c ∈ s, c.toNat < 128) → toLowerCase s = s.map Char.toLower
  scaleDiff : ℕ → ℕ → ℕ
  soloFee : ℕ → ℕ

/-- A runtime with a constant digest, on which the model can be run. -/
def Runtime.constant : Runtime where
  sha256 := fun _ => ⟨_, length_zeros⟩
  toLowerCase := List.map Char.toLower
  toLowerCase_ascii := fun _ _ => rfl
  scaleDiff := fun diff _ => diff
  soloFee := fun reward => reward / 100

def Runtime.sha256d (rt : Runtime) (buffer : List UInt8) : Bytes 32 :=
  rt.sha256 (rt.sha256 buffer).val

/-- What `copy` leaves in a zeroed region of `n` bytes. -/
def fit (n : ℕ) (bytes : List UInt8) : List UInt8 := (bytes ++ List.replicate n 0).take n

@[simp] theorem length_fit (n : ℕ) (bytes : List UInt8) : (fit n bytes).length = n := by
  simp [fit]

theorem fit_eq_self {n : ℕ} {bytes : List UInt8} (h : bytes.length = n) : fit n bytes = bytes := by
  rw [fit, ← h, List.take_left]

theorem fit_decode_encode {n : ℕ} (hash : Bytes n) : fit n (Hex.decode (Hex.encode hash.val)) = hash.val := by
  rw [Hex.decode_encode, fit_eq_self hash.property]

def nBitsToTarget (nBits : Text) : List UInt8 :=
  let nBitsInt := (toBits32 (parseInt16 nBits)).toNat
  let exponent := nBitsInt >>> 24 &&& 0xff
  let mantissa := nBitsInt &&& 0x007fffff
  let target := List.replicate 32 0
  if exponent ≤ 32 then
    ((target.set (32 - exponent) (UInt8.ofNat (mantissa >>> 16 &&& 0xff))).set
      (32 - exponent + 1) (UInt8.ofNat (mantissa >>> 8 &&& 0xff))).set
      (32 - exponent + 2) (UInt8.ofNat (mantissa &&& 0xff))
  else target

/-- The comparison loop, most significant byte first. -/
def bytesAtMost : List UInt8 → List UInt8 → Bool
  | a :: as, b :: bs => if a < b then true else if b < a then false else bytesAtMost as bs
  | _, _ => true

def hashMeetsTarget (hash : Bytes 32) (target : List UInt8) : Bool :=
  bytesAtMost hash.val.reverse target

def hashValue (hash : List UInt8) : ℕ := hash.foldr (fun b n => b.toNat + 256 * n) 0

def encodeVarInt (n : ℕ) : Except JsError Text :=
  if n < 0xfd then .ok (padStart 2 (Nat.toDigits 16 n))
  else if n < 2 ^ 16 then .ok (Hex.encode (0xfd :: littleEndian 2 n))
  else .error .rangeError

/-- `encodeVarInt(hex.length / 2)`: for a text of odd length the argument is a half. -/
def encodeHalfVarInt (length : ℕ) : Except JsError Text :=
  if length % 2 = 0 then encodeVarInt (length / 2)
  else if length / 2 < 0xfd then
    .ok (padStart 2 (Nat.toDigits 16 (length / 2) ++ ".8".toList))
  else if length / 2 + 1 < 2 ^ 16 then .ok (Hex.encode (0xfd :: littleEndian 2 (length / 2)))
  else .error .rangeError

def swapWords : List UInt8 → List UInt8
  | a :: b :: c :: d :: rest => d :: c :: b :: a :: swapWords rest
  | _ => []

def formatPrevHashForStratum (hex : Text) : Text :=
  Hex.encode (swapWords (fit 32 (Hex.decode hex).reverse))

/-- The 80 bytes of a header from its hexadecimal fields. -/
def buildBlockHeader (version prevHash merkleRoot nTime nBits nonce : Text) :
    Except JsError (List UInt8) := do
  let versionBuf ← writeUInt32LE (parseInt16 version)
  let prevHashBuf := fit 32 (Hex.decode prevHash).reverse
  let merkleRootBuf := fit 32 (Hex.decode merkleRoot)
  let nTimeBuf ← writeUInt32LE (parseInt16 nTime)
  let nBitsBuf ← writeUInt32LE (parseInt16 nBits)
  let nonceBuf ← writeUInt32LE (parseInt16 nonce)
  .ok (versionBuf ++ prevHashBuf ++ merkleRootBuf ++ nTimeBuf ++ nBitsBuf ++ nonceBuf)

/-- The version with the bits of a sixth parameter set in it, if there is one. -/
def rollVersion (version : Text) (bits : JsVal) : Except JsError Text :=
  match bits with
  | none => .ok version
  | some v => do
    let versionBits := parseInt16 (← v.toText)
    let baseVersion := parseInt16 version
    .ok (padStart 8 (toString16 (toBits32 baseVersion ||| toBits32 versionBits).toInt))

section Rebuild
variable (rt : Runtime)

def merkleFold (coinbaseTxid : Bytes 32) (merkleBranch : List Text) : Bytes 32 :=
  merkleBranch.foldl (fun root branch => rt.sha256d (root.val ++ Hex.decode branch)) coinbaseTxid

/-- The parts of a job that a header is rebuilt from. -/
structure Work where
  coinbase1 : Text
  coinbase2 : Text
  merkleBranch : List Text
  prevHashBE : Text
  version : Text
  nBits : Text
  deriving DecidableEq, Repr

/-- The fields of a `mining.submit`, after the conversions to text. -/
structure ShareFields where
  worker : Key
  jobId : Key
  shareKey : Text
  extraNonce2 : Text
  nTime : Text
  nonce : Text
  versionBits : JsVal

/-- Destructure `message.params` and convert what the share key is made of. -/
def Request.shareFields (serial : ℕ) (m : Request) : Except JsError ShareFields := do
  let items ← m.items
  let jobId ← toText items[1]?
  let extraNonce2 ← toText items[2]?
  let nTime ← toText items[3]?
  let nonce ← toText items[4]?
  .ok {
    worker := keyOf serial 0 items[0]?
    jobId := keyOf serial 1 items[1]?
    shareKey := rt.toLowerCase jobId ++ ':' :: rt.toLowerCase extraNonce2 ++ ':' ::
      rt.toLowerCase nTime ++ ':' :: rt.toLowerCase nonce
    extraNonce2, nTime, nonce
    versionBits := items[5]?.filter Json.truthy }

def coinbaseText (work : Work) (extraNonce1 : Text) (fields : ShareFields) : Text :=
  work.coinbase1 ++ extraNonce1 ++ fields.extraNonce2 ++ work.coinbase2

def merkleRootOf (work : Work) (coinbaseHex : Text) : Bytes 32 :=
  merkleFold rt (rt.sha256d (Hex.decode coinbaseHex)) work.merkleBranch

def rebuildHeader (work : Work) (extraNonce1 : Text) (fields : ShareFields) :
    Except JsError (List UInt8) := do
  let finalVersion ← rollVersion work.version fields.versionBits
  buildBlockHeader finalVersion work.prevHashBE
    (Hex.encode (merkleRootOf rt work (coinbaseText work extraNonce1 fields)).val) fields.nTime
    work.nBits fields.nonce

end Rebuild

end Tarcoin.Pool
