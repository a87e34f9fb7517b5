import Tarcoin.KeyIO.Base58
import Tarcoin.KeyIO.Bech32
import Tarcoin.Util.ConvertBits

/-! `EncodeDestination` and `DecodeDestination` of `key_io.cpp`. A text that starts with the human
readable part, in any case, is taken for Bech32. -/
namespace Tarcoin
open Radix

inductive Destination
  | noDestination (script : Script)
  | pubKeyDestination (pubkey : List UInt8)
  | pkHash (hash : Bytes 20)
  | scriptHash (hash : Bytes 20)
  | witnessV0ScriptHash (hash : Bytes 32)
  | witnessV0KeyHash (hash : Bytes 20)
  | witnessV1Taproot (key : Bytes 32)
  | payToAnchor
  | witnessUnknown (version : ℕ) (program : List UInt8)
  deriving DecidableEq

/-- What `CChainParams` says about addresses. -/
structure AddressParams where
  pubkeyAddress : List UInt8
  scriptAddress : List UInt8
  bech32HRP : Text

def mainAddressParams : AddressParams := ⟨[65], [127], ['t', 'a', 'r']⟩

/-- The hash of the checksum, and the message and places `LocateErrors` gives for a text that is
no Bech32. -/
structure AddressRules where
  sha256 : List UInt8 → Bytes 32
  locateErrors : Text → String × List ℕ

/-- `error_str`, with the places of the errors where there are any. -/
inductive DestinationError
  | base58Length
  | base58Unsupported
  | unsupportedEncoding
  | base58Checksum
  | emptyData
  | unsupportedPrefix (expected got : Text)
  | version0Checksum
  | version1Checksum
  | version0ProgramSize (size : ℕ)
  | witnessVersion
  | programSize (size : ℕ)
  | padding
  | located (message : String) (locations : List ℕ)
  deriving DecidableEq, Repr

def bech32WitnessProgMaxLen : ℕ := 40

def anchorBytes : List UInt8 := [0x4e, 0x73]

def isPayToAnchor (version : ℕ) (program : List UInt8) : Bool :=
  version = 1 ∧ program = anchorBytes

/-- The version, then the program in groups of five bits. -/
def encodeWitness (params : AddressParams) (encoding : Encoding) (version : ℕ)
    (program : List UInt8) : Except Fault Text :=
  bech32Encode encoding params.bech32HRP
    (version :: (convertBits 8 5 true (program.map UInt8.toNat)).getD [])

def encodeWitnessUnknown (params : AddressParams) (version : ℕ) (program : List UInt8) :
    Except Fault Text :=
  if version < 1 ∨ version > 16 ∨ program.length < 2 ∨ program.length > 40 then .ok []
  else encodeWitness params .bech32m version program

def encodeDestination (R : AddressRules) (params : AddressParams) :
    Destination → Except Fault Text
  | .noDestination _ => .ok []
  | .pubKeyDestination _ => .ok []
  | .pkHash hash => encodeBase58Check R.sha256 (params.pubkeyAddress ++ hash.val)
  | .scriptHash hash => encodeBase58Check R.sha256 (params.scriptAddress ++ hash.val)
  | .witnessV0KeyHash hash => encodeWitness params .bech32 0 hash.val
  | .witnessV0ScriptHash hash => encodeWitness params .bech32 0 hash.val
  | .witnessV1Taproot key => encodeWitness params .bech32m 1 key.val
  | .payToAnchor => encodeWitnessUnknown params 1 anchorBytes
  | .witnessUnknown version program => encodeWitnessUnknown params version program

def toLower (str : Text) : Text := str.map lowerCase

def isBech32 (params : AddressParams) (str : Text) : Bool :=
  toLower (str.take params.bech32HRP.length) = params.bech32HRP

def base58Destination (params : AddressParams) (data : List UInt8) :
    Except DestinationError Destination :=
  let pubkeyPrefix := params.pubkeyAddress
  let scriptPrefix := params.scriptAddress
  if h : data.length = 20 + pubkeyPrefix.length ∧ data.take pubkeyPrefix.length = pubkeyPrefix then
    .ok (.pkHash ⟨data.drop pubkeyPrefix.length, by rw [List.length_drop]; omega⟩)
  else if h : data.length = 20 + scriptPrefix.length ∧
      data.take scriptPrefix.length = scriptPrefix then
    .ok (.scriptHash ⟨data.drop scriptPrefix.length, by rw [List.length_drop]; omega⟩)
  else if (data.length ≥ scriptPrefix.length ∧ data.take scriptPrefix.length = scriptPrefix) ∨
      (data.length ≥ pubkeyPrefix.length ∧ data.take pubkeyPrefix.length = pubkeyPrefix) then
    .error .base58Length
  else .error .base58Unsupported

/-- The destination of a witness version and program. -/
def witnessDestination (version : ℕ) (data : List UInt8) : Except DestinationError Destination :=
  if version = 0 then
    if h : data.length = 20 then .ok (.witnessV0KeyHash ⟨data, h⟩)
    else if h : data.length = 32 then .ok (.witnessV0ScriptHash ⟨data, h⟩)
    else .error (.version0ProgramSize data.length)
  else if h : version = 1 ∧ data.length = 32 then .ok (.witnessV1Taproot ⟨data, h.2⟩)
  else if isPayToAnchor version data then .ok .payToAnchor
  else if version > 16 then .error .witnessVersion
  else if data.length < 2 ∨ data.length > bech32WitnessProgMaxLen then
    .error (.programSize data.length)
  else .ok (.witnessUnknown version data)

def bech32Destination (params : AddressParams) (dec : DecodeResult) :
    Except DestinationError Destination :=
  match dec.data with
  | [] => .error .emptyData
  | version :: symbols =>
    if dec.hrp ≠ params.bech32HRP then .error (.unsupportedPrefix params.bech32HRP dec.hrp)
    else if version = 0 ∧ dec.encoding ≠ .bech32 then .error .version0Checksum
    else if version ≠ 0 ∧ dec.encoding ≠ .bech32m then .error .version1Checksum
    else match convertBits 5 8 false symbols with
      | none => .error .padding
      | some data => witnessDestination version (data.map UInt8.ofNat)

/-- `DecodeDestination` with its error; an error comes with `CNoDestination()`. -/
def decodeDestinationError (R : AddressRules) (params : AddressParams) (str : Text) :
    Except Fault (Except DestinationError Destination) :=
  if isBech32 params str then
    match bech32Decode str charLimit with
    | some dec => .ok (bech32Destination params dec)
    | none => .ok (.error (.located (R.locateErrors str).1 (R.locateErrors str).2))
  else do
    match ← decodeBase58Check R.sha256 str 21 with
    | some data => .ok (base58Destination params data)
    | none =>
      match ← decodeBase58 str 100 with
      | none => .ok (.error .unsupportedEncoding)
      | some _ => .ok (.error .base58Checksum)

def decodeDestination (R : AddressRules) (params : AddressParams) (str : Text) :
    Except Fault Destination := do
  match ← decodeDestinationError R params str with
  | .ok dest => .ok dest
  | .error _ => .ok (.noDestination [])

def Destination.isValid : Destination → Bool
  | .noDestination _ => false
  | .pubKeyDestination _ => false
  | _ => true

/-- The destination that a text names, if it is a valid address. -/
def destinationOf (R : AddressRules) (params : AddressParams) (str : Text) : Option Destination :=
  match decodeDestination R params str with
  | .ok dest => if dest.isValid then some dest else none
  | .error _ => none

def SameDestination (R : AddressRules) (params : AddressParams) (a b : Text) : Prop :=
  (destinationOf R params a).isSome ∧ destinationOf R params a = destinationOf R params b

instance (R : AddressRules) (params : AddressParams) (a b : Text) :
    Decidable (SameDestination R params a b) := inferInstanceAs (Decidable (_ ∧ _))

theorem SameDestination.symm {R : AddressRules} {params : AddressParams} {a b : Text}
    (h : SameDestination R params a b) : SameDestination R params b a :=
  ⟨h.2 ▸ h.1, h.2.symm⟩

end Tarcoin
