import Tarcoin.Foundations.Ruled
import Tarcoin.Script.ConditionStack
import Tarcoin.Script.SigEncoding

/-! The state of `EvalScript` and the accesses to it. Stacks are lists with their top first. An
access that would leave a stack is a stop of its own, as is a number outside `int64_t`. -/
namespace Tarcoin.Script
open Ruled

inductive ScriptFlag where
  | p2sh | strictEnc | derSig | lowS | nullDummy | sigPushOnly | minimalData
  | discourageUpgradableNops | cleanStack | checkLockTimeVerify | checkSequenceVerify | witness
  | discourageUpgradableWitnessProgram | minimalIf | nullFail | witnessPubKeyType
  | constScriptCode | taproot | discourageUpgradableTaprootVersion | discourageOpSuccess
  | discourageUpgradablePubKeyType
  deriving DecidableEq, Repr

/-- `ScriptError_t`, without the value for success. -/
inductive ScriptError where
  | unknownError | evalFalse | opReturn | scriptNum
  | scriptSize | pushSize | opCount | stackSize | sigCount | pubKeyCount
  | verify | equalVerify | checkMultiSigVerify | checkSigVerify | numEqualVerify
  | badOpcode | disabledOpcode | invalidStackOperation | invalidAltStackOperation
  | unbalancedConditional
  | negativeLockTime | unsatisfiedLockTime
  | sigHashType | sigDer | minimalData | sigPushOnly | sigHighS | sigNullDummy | pubKeyType
  | cleanStack | minimalIf | sigNullFail
  | discourageUpgradableNops | discourageUpgradableWitnessProgram
  | discourageUpgradableTaprootVersion | discourageOpSuccess | discourageUpgradablePubKeyType
  | witnessProgramWrongLength | witnessProgramWitnessEmpty | witnessProgramMismatch
  | witnessMalleated | witnessMalleatedP2sh | witnessUnexpected | witnessPubKeyType
  | schnorrSigSize | schnorrSigHashType | schnorrSig | taprootWrongControlSize
  | tapscriptValidationWeight | tapscriptCheckMultiSig | tapscriptMinimalIf | tapscriptEmptyPubKey
  | opCodeSeparator | sigFindAndDelete
  deriving DecidableEq, Repr

inductive SigVersion where
  | base | witnessV0 | taproot | tapscript
  deriving DecidableEq, Repr

/-- The signature versions that `EvalScript` applies the limits of size and opcodes to. -/
def SigVersion.limited (v : SigVersion) : Bool := v = .base ∨ v = .witnessV0

/-- `ScriptExecutionData`; a field that has not been initialised is `none`. -/
structure ScriptExecutionData where
  tapleafHash : Option (List UInt8)
  codeseparatorPos : Option ℕ
  /-- Whether there is an annex, and then its hash. -/
  annex : Option (Option (List UInt8))
  validationWeightLeft : Option ℤ
  outputHash : Option (List UInt8)
  deriving DecidableEq, Repr

def ScriptExecutionData.initial : ScriptExecutionData := ⟨none, none, none, none, none⟩

/-- `BaseSignatureChecker`. A Schnorr check may keep a hash in the execution data. -/
structure SignatureChecker where
  checkECDSASignature (vchSig vchPubKey : List UInt8) (scriptCode : Script) (v : SigVersion) : Bool
  checkSchnorrSignature (sig pubkey : List UInt8) (v : SigVersion) (d : ScriptExecutionData) :
    Except ScriptError ScriptExecutionData
  checkLockTime (nLockTime : ℤ) : Bool
  checkSequence (nSequence : ℤ) : Bool

/-- The hash functions and the arithmetic of the curve. -/
structure Crypto where
  ripemd160 : List UInt8 → Bytes 20
  sha1 : List UInt8 → Bytes 20
  sha256 : List UInt8 → Bytes 32
  /-- `CPubKey::CheckLowS` of a signature without its hash type. -/
  checkLowS : List UInt8 → Bool
  /-- `XOnlyPubKey::CheckTapTweak` of an output key: internal key, Merkle root and parity. -/
  checkTapTweak (output internal merkleRoot : List UInt8) (parity : Bool) : Bool

/-- What an execution is given besides the script, the stack and the flags. -/
structure Setting where
  crypto : Crypto
  checker : SignatureChecker
  sigversion : SigVersion

abbrev Stack := List (List UInt8)

/-- The variables of `EvalScript`; `pbegincodehash` is the script after the last code separator. -/
structure Machine where
  stack : Stack
  altstack : Stack
  vfExec : ConditionStack
  nOpCount : ℕ
  pc : Script
  pbegincodehash : Script
  opcodePos : ℕ
  execdata : ScriptExecutionData
  deriving DecidableEq, Repr

/-- How an execution stops before its end: an error it returns, the exception of a number that
is not well formed, or one of the things that must not happen. -/
inductive Stop where
  | error (e : ScriptError)
  | scriptNum
  | assertion
  | outOfRange
  | emptyStack
  | emptyConditions
  | overflow
  | unfinished
  deriving DecidableEq, Repr

/-- A stack is accessed where it has no element, a number leaves `int64_t`, or the loop is cut
short. -/
def Stop.isFault : Stop → Bool
  | .error _ | .scriptNum | .assertion => false
  | .outOfRange | .emptyStack | .emptyConditions | .overflow | .unfinished => true

def Stop.Allowed (e : Stop) : Prop := e.isFault = false

abbrev Op := Ruled ScriptFlag Machine Stop

/-- `return set_error(serror, e)`. -/
def setError {α : Type} (e : ScriptError) : Op α := fail (.error e)

/-- Return the error `e` unless `p`. -/
def ensure (p : Prop) [Decidable p] (e : ScriptError) : Op Unit := require p (.error e)

/-! ### Accesses to the stacks -/

/-- `stacktop(-i)`. -/
def top : ℕ → Op (List UInt8)
  | 0 => fail .outOfRange
  | i + 1 => lift fun s =>
    match s.stack[i]? with
    | some v => .ok (v, s)
    | none => .error .outOfRange

/-- `popstack(stack)`. -/
def pop : Op Unit := lift fun s =>
  match s.stack with
  | [] => .error .emptyStack
  | _ :: rest => .ok ((), { s with stack := rest })

/-- `stack.push_back(v)`. -/
def push (v : List UInt8) : Op Unit := change fun s => { s with stack := v :: s.stack }

/-- `stack.erase(stack.end() - i)`. -/
def eraseAt : ℕ → Op Unit
  | 0 => fail .outOfRange
  | i + 1 => lift fun s =>
    if i < s.stack.length then .ok ((), { s with stack := s.stack.eraseIdx i })
    else .error .outOfRange

/-- `stack.insert(stack.end() - i, v)`. -/
def insertAt (i : ℕ) (v : List UInt8) : Op Unit := lift fun s =>
  if i ≤ s.stack.length then .ok ((), { s with stack := s.stack.insertIdx i v })
  else .error .outOfRange

/-- Write `v` to `stacktop(-i)`. -/
def setTop : ℕ → List UInt8 → Op Unit
  | 0, _ => fail .outOfRange
  | i + 1, v => lift fun s =>
    if i < s.stack.length then .ok ((), { s with stack := s.stack.set i v })
    else .error .outOfRange

/-- `swap(stacktop(-i), stacktop(-j))`. -/
def swapTops (i j : ℕ) : Op Unit := do
  let vi ← top i
  let vj ← top j
  setTop i vj
  setTop j vi

/-- Refuse an opcode on a stack of fewer than `n` elements. -/
def need (n : ℕ) : Op Unit := do
  let s ← look
  ensure (n ≤ s.stack.length) .invalidStackOperation

/-- `altstacktop(-1)`, then `popstack(altstack)`. -/
def popAlt : Op (List UInt8) := lift fun s =>
  match s.altstack with
  | [] => .error .outOfRange
  | v :: rest => .ok (v, { s with altstack := rest })

def pushAlt (v : List UInt8) : Op Unit := change fun s => { s with altstack := v :: s.altstack }

def vchFalse : List UInt8 := []
def vchTrue : List UInt8 := [1]

def boolean (b : Bool) : List UInt8 := if b then vchTrue else vchFalse

/-! ### Numbers -/

/-- `CScriptNum`: a number in the range of `int64_t`. -/
structure ScriptNum where
  value : ℤ
  lower : -2 ^ 63 ≤ value
  upper : value < 2 ^ 63
  deriving DecidableEq, Repr

/-- The number `n`, as the result of an operation. -/
def number (n : ℤ) : Op ScriptNum :=
  if h : -2 ^ 63 ≤ n ∧ n < 2 ^ 63 then pure ⟨n, h.1, h.2⟩ else fail .overflow

/-- `CScriptNum::set_vch`: the magnitude with the sign in its highest bit. -/
def setVch (vch : List UInt8) : ℤ :=
  match vch.getLast? with
  | none => 0
  | some back =>
    if back &&& 0x80 ≠ 0 then -((leValue vch - 0x80 * 256 ^ (vch.length - 1) : ℕ) : ℤ)
    else leValue vch

/-- Whether a number is written in as few bytes as it can be. -/
def isMinimalNum (vch : List UInt8) : Bool :=
  match vch.reverse with
  | [] => true
  | [back] => back &&& 0x7f ≠ 0
  | back :: second :: _ => back &&& 0x7f ≠ 0 ∨ second &&& 0x80 ≠ 0

/-- The constructor of `CScriptNum` from bytes; `fRequireMinimal` is `MINIMALDATA`. -/
def scriptNum (vch : List UInt8) (nMaxNumSize : ℕ) : Op ScriptNum := do
  require (vch.length ≤ nMaxNumSize) Stop.scriptNum
  demand .minimalData (require (isMinimalNum vch) Stop.scriptNum)
  number (setVch vch)

/-- The number at `stacktop(-i)`. -/
def numAt (i nMaxNumSize : ℕ) : Op ScriptNum := do
  let vch ← top i
  scriptNum vch nMaxNumSize

def nDefaultMaxNumSize : ℕ := 4

def ScriptNum.getvch (n : ScriptNum) : List UInt8 := scriptNumSerialize n.value

def ScriptNum.getint (n : ScriptNum) : ℤ := max (-2 ^ 31) (min n.value (2 ^ 31 - 1))

end Tarcoin.Script
