import Tarcoin.Consensus.Params

/-! `CScriptNum::serialize` and `CScript::operator<<` of `script/script.h`, and the rule that a
coinbase opens with its height. -/
namespace Tarcoin

/-- The loop over the magnitude of a 64-bit number; eight bytes are enough for it. -/
def magnitudeBytes : ℕ → ℕ → List UInt8
  | 0, _ => []
  | room + 1, absvalue =>
    if absvalue = 0 then []
    else UInt8.ofNat (absvalue % 256) :: magnitudeBytes room (absvalue / 256)

def scriptNumSerialize (value : ℤ) : List UInt8 :=
  let result := magnitudeBytes 8 value.natAbs
  match result.getLast? with
  | none => []
  | some back =>
    if back &&& 0x80 ≠ 0 then result ++ [if value < 0 then 0x80 else 0]
    else if value < 0 then result.dropLast ++ [back ||| 0x80]
    else result

def opPushData1 : UInt8 := 0x4c
def opPushData2 : UInt8 := 0x4d
def opPushData4 : UInt8 := 0x4e
def op1 : UInt8 := 0x51

def appendDataSize (size : ℕ) : Script :=
  if size < opPushData1.toNat then [UInt8.ofNat size]
  else if size ≤ 0xff then [opPushData1, UInt8.ofNat size]
  else if size ≤ 0xffff then [opPushData2, UInt8.ofNat (size % 256), UInt8.ofNat (size / 256)]
  else [opPushData4, UInt8.ofNat (size % 256), UInt8.ofNat (size / 256 % 256),
    UInt8.ofNat (size / 256 ^ 2 % 256), UInt8.ofNat (size / 256 ^ 3 % 256)]

def pushInt64 (n : ℤ) : Script :=
  if n = -1 ∨ (1 ≤ n ∧ n ≤ 16) then [UInt8.ofNat (n + (op1.toNat - 1)).toNat]
  else if n = 0 then [0]
  else appendDataSize (scriptNumSerialize n).length ++ scriptNumSerialize n

/-- The coinbase of a block at `nHeight` opens with the height, once the rule is active. -/
def coinbaseHeightOk (params : ConsensusParams) (nHeight : ℕ) (scriptSig : Script) : Bool :=
  nHeight < params.bip34Height || (pushInt64 nHeight).isPrefixOf scriptSig

end Tarcoin
