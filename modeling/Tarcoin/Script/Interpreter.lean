import Tarcoin.Script.Machine

/-! `EvalScript` of `script/interpreter.cpp`. A test of a flag in the source is a `demand` of the
flag here. -/
namespace Tarcoin.Script
open Ruled

variable (env : Setting)

/-! ### Signatures -/

def checkSignatureEncoding (vchSig : List UInt8) : Op Unit :=
  inCase (vchSig.length ≠ 0) do
    demand .derSig (ensure (isValidSignatureEncoding vchSig) .sigDer)
    demand .lowS (ensure (isValidSignatureEncoding vchSig) .sigDer)
    demand .strictEnc (ensure (isValidSignatureEncoding vchSig) .sigDer)
    demand .lowS (ensure (env.crypto.checkLowS vchSig.dropLast) .sigHighS)
    demand .strictEnc (ensure (isDefinedHashtypeSignature vchSig) .sigHashType)

def checkPubKeyEncoding (vchPubKey : List UInt8) : Op Unit := do
  demand .strictEnc (ensure (isCompressedOrUncompressedPubKey vchPubKey) .pubKeyType)
  inCase (env.sigversion = .witnessV0)
    (demand .witnessPubKeyType (ensure (isCompressedPubKey vchPubKey) .witnessPubKeyType))

/-- Before witnesses, the script that is signed is taken without the signature. -/
def dropSignature (vchSig : List UInt8) (scriptCode : Script) : Op Script :=
  if env.sigversion = .base then do
    let deleted := findAndDelete scriptCode (pushBytes vchSig)
    demand .constScriptCode (ensure (deleted.2 = 0) .sigFindAndDelete)
    pure deleted.1
  else pure scriptCode

def evalChecksigPreTapscript (vchSig vchPubKey : List UInt8) : Op Bool := do
  let s ← look
  let scriptCode ← dropSignature env vchSig s.pbegincodehash
  checkSignatureEncoding env vchSig
  checkPubKeyEncoding env vchPubKey
  let fSuccess := env.checker.checkECDSASignature vchSig vchPubKey scriptCode env.sigversion
  demand .nullFail (ensure (fSuccess ∨ vchSig.length = 0) .sigNullFail)
  pure fSuccess

def maxScriptElementSize : ℕ := 520
def maxOpsPerScript : ℕ := 201
def maxPubkeysPerMultisig : ℕ := 20
def maxStackSize : ℕ := 1000
def validationWeightPerSigopPassed : ℤ := 50

/-- Count `n` operations against the limit. -/
def countOps (n : ℕ) : Op Unit := do
  change fun s => { s with nOpCount := s.nOpCount + n }
  let s ← look
  ensure (s.nOpCount ≤ maxOpsPerScript) .opCount

/-- The weight of one signature, taken from what the witness has left. -/
def chargeSigop : Op Unit := do
  let s ← look
  match s.execdata.validationWeightLeft with
  | none => fail .assertion
  | some left => do
    let weight := left - validationWeightPerSigopPassed
    change fun s => { s with execdata := { s.execdata with validationWeightLeft := some weight } }
    ensure (0 ≤ weight) .tapscriptValidationWeight

def checkSchnorr (sig pubkey : List UInt8) : Op Unit := lift fun s =>
  match env.checker.checkSchnorrSignature sig pubkey env.sigversion s.execdata with
  | .ok execdata => .ok ((), { s with execdata := execdata })
  | .error e => .error (.error e)

/-- The check of `EvalChecksigTapscript`, by the size of the key. -/
def checkTapscriptKey (sig pubkey : List UInt8) : Op Unit :=
  if pubkey.length = 0 then setError .tapscriptEmptyPubKey
  else if pubkey.length = 32 then inCase (sig ≠ []) (checkSchnorr env sig pubkey)
  else demand .discourageUpgradablePubKeyType (setError .discourageUpgradablePubKeyType)

def evalChecksigTapscript (sig pubkey : List UInt8) : Op Bool := do
  inCase (sig ≠ []) chargeSigop
  checkTapscriptKey env sig pubkey
  pure (sig ≠ [])

def evalChecksig (sig pubkey : List UInt8) : Op Bool :=
  match env.sigversion with
  | .base | .witnessV0 => evalChecksigPreTapscript env sig pubkey
  | .tapscript => evalChecksigTapscript env sig pubkey
  | .taproot => fail .assertion

/-! ### Numbers and hashes -/

/-- The inner `switch` over the opcodes with one operand. -/
def UnaryOp.apply : UnaryOp → ScriptNum → Op ScriptNum
  | .oneAdd, bn => number (bn.value + 1)
  | .oneSub, bn => number (bn.value - 1)
  | .negate, bn => number (-bn.value)
  | .abs, bn => if bn.value < 0 then number (-bn.value) else pure bn
  | .not, bn => number (bn.value = 0 : Bool).toInt
  | .zeroNotEqual, bn => number (bn.value ≠ 0 : Bool).toInt

/-- The inner `switch` over the opcodes with two operands. -/
def BinaryOp.apply : BinaryOp → ScriptNum → ScriptNum → Op ScriptNum
  | .add, bn1, bn2 => number (bn1.value + bn2.value)
  | .sub, bn1, bn2 => number (bn1.value - bn2.value)
  | .boolAnd, bn1, bn2 => number (bn1.value ≠ 0 ∧ bn2.value ≠ 0 : Bool).toInt
  | .boolOr, bn1, bn2 => number (bn1.value ≠ 0 ∨ bn2.value ≠ 0 : Bool).toInt
  | .numEqual, bn1, bn2 => number (bn1.value = bn2.value : Bool).toInt
  | .numEqualVerify, bn1, bn2 => number (bn1.value = bn2.value : Bool).toInt
  | .numNotEqual, bn1, bn2 => number (bn1.value ≠ bn2.value : Bool).toInt
  | .lessThan, bn1, bn2 => number (bn1.value < bn2.value : Bool).toInt
  | .greaterThan, bn1, bn2 => number (bn1.value > bn2.value : Bool).toInt
  | .lessThanOrEqual, bn1, bn2 => number (bn1.value ≤ bn2.value : Bool).toInt
  | .greaterThanOrEqual, bn1, bn2 => number (bn1.value ≥ bn2.value : Bool).toInt
  | .min, bn1, bn2 => pure (if bn1.value < bn2.value then bn1 else bn2)
  | .max, bn1, bn2 => pure (if bn1.value > bn2.value then bn1 else bn2)

def HashOp.apply (crypto : Crypto) : HashOp → List UInt8 → List UInt8
  | .ripemd160, vch => crypto.ripemd160 vch
  | .sha1, vch => crypto.sha1 vch
  | .sha256, vch => crypto.sha256 vch
  | .hash160, vch => crypto.ripemd160 (crypto.sha256 vch)
  | .hash256, vch => crypto.sha256 (crypto.sha256 vch)

/-! ### The opcodes -/

namespace Exec

def smallInt (n : ℤ) : Op Unit := do
  let bn ← number n
  push bn.getvch

def checkLockTimeVerify : Op Unit := demand .checkLockTimeVerify do
  need 1
  let nLockTime ← numAt 1 5
  ensure (0 ≤ nLockTime.value) .negativeLockTime
  ensure (env.checker.checkLockTime nLockTime.value) .unsatisfiedLockTime

def sequenceLocktimeDisableFlag : ℕ := 2 ^ 31

def checkSequenceVerify : Op Unit := demand .checkSequenceVerify do
  need 1
  let nSequence ← numAt 1 5
  ensure (0 ≤ nSequence.value) .negativeLockTime
  inCase (nSequence.value.toNat &&& sequenceLocktimeDisableFlag = 0)
    (ensure (env.checker.checkSequence nSequence.value) .unsatisfiedLockTime)

/-- `OP_NOP1` and `OP_NOP4` to `OP_NOP10`. -/
def upgradableNop : Op Unit :=
  demand .discourageUpgradableNops (setError .discourageUpgradableNops)

def isMinimalIf (vch : List UInt8) : Bool := vch = vchFalse ∨ vch = vchTrue

/-- The value that an executed `OP_IF` or `OP_NOTIF` branches on. -/
def branchValue (notIf : Bool) : Op Bool := do
  need 1
  let vch ← top 1
  inCase (env.sigversion = .tapscript) (ensure (isMinimalIf vch) .tapscriptMinimalIf)
  inCase (env.sigversion = .witnessV0)
    (demand .minimalIf (ensure (isMinimalIf vch) .minimalIf))
  pop
  pure (castToBool vch != notIf)

/-- In a branch that is not executed the value is false. -/
def branchCondition (fExec notIf : Bool) : Op Bool :=
  if fExec then branchValue env notIf else pure false

def branch (fExec notIf : Bool) : Op Unit := do
  let fValue ← branchCondition env fExec notIf
  change fun s => { s with vfExec := s.vfExec.pushBack fValue }

/-- A method of the condition stack that asserts it is not empty. -/
def setConditions (f : ConditionStack → Option ConditionStack) : Op Unit := lift fun s =>
  match f s.vfExec with
  | some vfExec => .ok ((), { s with vfExec := vfExec })
  | none => .error .emptyConditions

/-- Change the innermost conditional, if there is one. -/
def onConditions (f : ConditionStack → Option ConditionStack) : Op Unit := do
  let s ← look
  ensure (s.vfExec.empty = false) .unbalancedConditional
  setConditions f

def otherwise : Op Unit := onConditions ConditionStack.toggleTop

def endIf : Op Unit := onConditions ConditionStack.popBack

def verify : Op Unit := do
  need 1
  let vch ← top 1
  ensure (castToBool vch) .verify
  pop

def toAltStack : Op Unit := do
  need 1
  let vch ← top 1
  pushAlt vch
  pop

def fromAltStack : Op Unit := do
  let s ← look
  ensure (1 ≤ s.altstack.length) .invalidAltStackOperation
  let vch ← popAlt
  push vch

def twoDrop : Op Unit := do
  need 2
  pop
  pop

def twoDup : Op Unit := do
  need 2
  let vch1 ← top 2
  let vch2 ← top 1
  push vch1
  push vch2

def threeDup : Op Unit := do
  need 3
  let vch1 ← top 3
  let vch2 ← top 2
  let vch3 ← top 1
  push vch1
  push vch2
  push vch3

def twoOver : Op Unit := do
  need 4
  let vch1 ← top 4
  let vch2 ← top 3
  push vch1
  push vch2

def twoRot : Op Unit := do
  need 6
  let vch1 ← top 6
  let vch2 ← top 5
  -- the range from six below the end up to four below it
  eraseAt 6
  eraseAt 5
  push vch1
  push vch2

def twoSwap : Op Unit := do
  need 4
  swapTops 4 2
  swapTops 3 1

def ifDup : Op Unit := do
  need 1
  let vch ← top 1
  inCase (castToBool vch) (push vch)

def depth : Op Unit := do
  let s ← look
  let bn ← number s.stack.length
  push bn.getvch

def drop : Op Unit := do
  need 1
  pop

def dup : Op Unit := do
  need 1
  let vch ← top 1
  push vch

def nip : Op Unit := do
  need 2
  eraseAt 2

def overTop : Op Unit := do
  need 2
  let vch ← top 2
  push vch

def pick (roll : Bool) : Op Unit := do
  need 2
  let bn ← numAt 1 nDefaultMaxNumSize
  let n := bn.getint
  pop
  let s ← look
  ensure (0 ≤ n ∧ n < s.stack.length) .invalidStackOperation
  let vch ← top (n.toNat + 1)
  inCase roll (eraseAt (n.toNat + 1))
  push vch

def rot : Op Unit := do
  need 3
  swapTops 3 2
  swapTops 2 1

def swap : Op Unit := do
  need 2
  swapTops 2 1

def tuck : Op Unit := do
  need 2
  let vch ← top 1
  insertAt 2 vch

def size : Op Unit := do
  need 1
  let vch ← top 1
  let bn ← number vch.length
  push bn.getvch

/-- Push the outcome of a test; the `VERIFY` form of an opcode takes it off again or fails. -/
def outcome (isVerify fSuccess : Bool) (e : ScriptError) : Op Unit := do
  push (boolean fSuccess)
  inCase isVerify do
    ensure fSuccess e
    pop

def equal (isVerify : Bool) : Op Unit := do
  need 2
  let vch1 ← top 2
  let vch2 ← top 1
  pop
  pop
  outcome isVerify (vch1 = vch2) .equalVerify

def unary (op : UnaryOp) : Op Unit := do
  need 1
  let bn ← numAt 1 nDefaultMaxNumSize
  let result ← op.apply bn
  pop
  push result.getvch

def binary (op : BinaryOp) : Op Unit := do
  need 2
  let bn1 ← numAt 2 nDefaultMaxNumSize
  let bn2 ← numAt 1 nDefaultMaxNumSize
  let bn ← op.apply bn1 bn2
  pop
  pop
  push bn.getvch
  inCase (op = .numEqualVerify) do
    let vch ← top 1
    ensure (castToBool vch) .numEqualVerify
    pop

def within : Op Unit := do
  need 3
  let bn1 ← numAt 3 nDefaultMaxNumSize
  let bn2 ← numAt 2 nDefaultMaxNumSize
  let bn3 ← numAt 1 nDefaultMaxNumSize
  pop
  pop
  pop
  push (boolean (bn2.value ≤ bn1.value ∧ bn1.value < bn3.value))

def hash (op : HashOp) : Op Unit := do
  need 1
  let vch ← top 1
  pop
  push (op.apply env.crypto vch)

def codeSeparator : Op Unit := change fun s =>
  { s with
    pbegincodehash := s.pc
    execdata := { s.execdata with codeseparatorPos := some s.opcodePos } }

def checkSig (isVerify : Bool) : Op Unit := do
  need 2
  let vchSig ← top 2
  let vchPubKey ← top 1
  let fSuccess ← evalChecksig env vchSig vchPubKey
  pop
  pop
  outcome isVerify fSuccess .checkSigVerify

def checkSigAdd : Op Unit := do
  ensure (env.sigversion.limited = false) .badOpcode
  need 3
  let sig ← top 3
  let num ← numAt 2 nDefaultMaxNumSize
  let pubkey ← top 1
  let success ← evalChecksig env sig pubkey
  pop
  pop
  pop
  let sum ← number (num.value + success.toInt)
  push sum.getvch

/-- The first loop of `OP_CHECKMULTISIG`: the signatures from `stacktop(-isig)` on are taken out
of the script they sign. -/
def dropSignatures : ℕ → ℕ → Script → Op Script
  | 0, _, scriptCode => pure scriptCode
  | nSigsCount + 1, isig, scriptCode => do
    let vchSig ← top isig
    let rest ← dropSignature env vchSig scriptCode
    dropSignatures nSigsCount (isig + 1) rest

/-- The second loop: each key is tried on the first signature not matched yet, until no
signature is left or more signatures than keys are. Never are there more signatures than keys
at the head of the loop, so that without keys none is left. -/
def checkKeys (scriptCode : Script) : ℕ → ℕ → ℕ → ℕ → Op Bool
  | 0, _, _, _ => pure true
  | nKeysCount + 1, ikey, nSigsCount, isig =>
    if nSigsCount = 0 then pure true
    else do
      let vchSig ← top isig
      let vchPubKey ← top ikey
      checkSignatureEncoding env vchSig
      checkPubKeyEncoding env vchPubKey
      let fOk := env.checker.checkECDSASignature vchSig vchPubKey scriptCode env.sigversion
      let left := if fOk then nSigsCount - 1 else nSigsCount
      if nKeysCount < left then pure false
      else checkKeys scriptCode nKeysCount (ikey + 1) left (if fOk then isig + 1 else isig)

/-- The third loop: `n` arguments are taken off the stack, the last of them, after `ikey2` others,
being signatures. -/
def cleanUp (fSuccess : Bool) : ℕ → ℕ → Op Unit
  | 0, _ => pure ()
  | n + 1, ikey2 => do
    inCase (fSuccess = false ∧ ikey2 = 0) (demand .nullFail do
      let vch ← top 1
      ensure (vch.length = 0) .sigNullFail)
    pop
    cleanUp fSuccess n (ikey2 - 1)

/-- `OP_CHECKMULTISIG` once the numbers of keys and signatures have been read: the position of
the first key is 2, and the argument below the signatures is not used. -/
def checkSignatures (isVerify : Bool) (nKeysCount nSigsCount : ℕ) : Op Unit := do
  let isig := 3 + nKeysCount
  need (isig + nSigsCount)
  let s ← look
  let scriptCode ← dropSignatures env nSigsCount isig s.pbegincodehash
  let fSuccess ← checkKeys env scriptCode nKeysCount 2 nSigsCount isig
  cleanUp fSuccess (2 + nKeysCount + nSigsCount) (nKeysCount + 2)
  need 1
  demand .nullDummy do
    let vch ← top 1
    ensure (vch.length = 0) .sigNullDummy
  pop
  outcome isVerify fSuccess .checkMultiSigVerify

def checkMultiSig (isVerify : Bool) : Op Unit := do
  ensure (env.sigversion ≠ .tapscript) .tapscriptCheckMultiSig
  need 1
  let keys ← numAt 1 nDefaultMaxNumSize
  ensure (0 ≤ keys.getint ∧ keys.getint ≤ maxPubkeysPerMultisig) .pubKeyCount
  let nKeysCount := keys.getint.toNat
  countOps nKeysCount
  need (2 + nKeysCount)
  let sigs ← numAt (2 + nKeysCount) nDefaultMaxNumSize
  ensure (0 ≤ sigs.getint ∧ sigs.getint ≤ nKeysCount) .sigCount
  checkSignatures env isVerify nKeysCount sigs.getint.toNat

end Exec

def execute (fExec : Bool) : Instr → Op Unit
  | .smallInt n => Exec.smallInt n
  | .nop => pure ()
  | .checkLockTimeVerify => Exec.checkLockTimeVerify env
  | .checkSequenceVerify => Exec.checkSequenceVerify env
  | .upgradableNop => Exec.upgradableNop
  | .branch notIf => Exec.branch env fExec notIf
  | .otherwise => Exec.otherwise
  | .endIf => Exec.endIf
  | .verify => Exec.verify
  | .returns => setError .opReturn
  | .toAltStack => Exec.toAltStack
  | .fromAltStack => Exec.fromAltStack
  | .twoDrop => Exec.twoDrop
  | .twoDup => Exec.twoDup
  | .threeDup => Exec.threeDup
  | .twoOver => Exec.twoOver
  | .twoRot => Exec.twoRot
  | .twoSwap => Exec.twoSwap
  | .ifDup => Exec.ifDup
  | .depth => Exec.depth
  | .drop => Exec.drop
  | .dup => Exec.dup
  | .nip => Exec.nip
  | .overTop => Exec.overTop
  | .pick roll => Exec.pick roll
  | .rot => Exec.rot
  | .swap => Exec.swap
  | .tuck => Exec.tuck
  | .size => Exec.size
  | .equal isVerify => Exec.equal isVerify
  | .unary op => Exec.unary op
  | .binary op => Exec.binary op
  | .within => Exec.within
  | .hash op => Exec.hash env op
  | .codeSeparator => Exec.codeSeparator
  | .checkSig isVerify => Exec.checkSig env isVerify
  | .checkSigAdd => Exec.checkSigAdd env
  | .checkMultiSig isVerify => Exec.checkMultiSig env isVerify
  | .unknown => setError .badOpcode

/-- What is done with an opcode that has been read: a push, a case of the `switch`, or nothing in
a branch that is not taken. -/
def dispatch (opcode : UInt8) (vchPushValue : List UInt8) : Op Unit := do
  let s ← look
  let fExec := s.vfExec.allTrue
  if fExec ∧ opcode ≤ opPushData4 then do
    demand .minimalData (ensure (checkMinimalPush vchPushValue opcode) .minimalData)
    push vchPushValue
  else inCase (fExec ∨ (opIf ≤ opcode ∧ opcode ≤ opEndIf)) (execute env fExec (instruction opcode))

def fetch : Op (UInt8 × List UInt8) := lift fun s =>
  match getScriptOp s.pc with
  | none => .error (.error .badOpcode)
  | some (opcode, vchPushValue, rest) => .ok ((opcode, vchPushValue), { s with pc := rest })

def step : Op Unit := do
  let op ← fetch
  ensure (op.2.length ≤ maxScriptElementSize) .pushSize
  inCase (env.sigversion.limited ∧ op16 < op.1) (countOps 1)
  ensure (isDisabled op.1 = false) .disabledOpcode
  inCase (op.1 = opCodeSeparator ∧ env.sigversion = .base)
    (demand .constScriptCode (setError .opCodeSeparator))
  dispatch env op.1 op.2
  let s ← look
  ensure (s.stack.length + s.altstack.length ≤ maxStackSize) .stackSize
  change fun s => { s with opcodePos := s.opcodePos + 1 }

/-- The loop, cut short after `n` turns. -/
def evalLoop : ℕ → Op Unit
  | 0 => do
    let s ← look
    require (s.pc = []) Stop.unfinished
  | n + 1 => do
    let s ← look
    if s.pc = [] then pure ()
    else do
      step env
      evalLoop n

def start (stack : Stack) (script : Script) (execdata : ScriptExecutionData) : Machine where
  stack := stack
  altstack := []
  vfExec := ConditionStack.initial
  nOpCount := 0
  pc := script
  pbegincodehash := script
  opcodePos := 0
  execdata := { execdata with codeseparatorPos := some 0xffffffff }

/-- The body of `EvalScript` on the script at `pc`. -/
def evalBody (script : Script) : Op Unit := do
  require (env.sigversion ≠ .taproot) Stop.assertion
  ensure (env.sigversion.limited = false ∨ script.length ≤ maxScriptSize) .scriptSize
  evalLoop env script.length
  let s ← look
  ensure s.vfExec.empty .unbalancedConditional

/-- The exceptions that `EvalScript` catches. -/
def caught : Stop → Stop
  | .scriptNum => .error .scriptNum
  | .outOfRange | .emptyStack => .error .unknownError
  | e => e

def evalScript {σ : Type} (stack : Stack) (script : Script) (execdata : ScriptExecutionData) :
    Ruled ScriptFlag σ Stop Stack := do
  let final ← Ruled.within (start stack script execdata) (restate caught (evalBody env script))
  pure final.2.stack

end Tarcoin.Script
