import Tarcoin.Script.ScriptNum
import Tarcoin.Serialize.VarInt

/-! Scripts as sequences of opcodes, and the shapes of scripts that the verifier looks for. An
iterator into a script is what is left of the script from it on. -/
namespace Tarcoin.Script

def op0 : UInt8 := 0x00
def op16 : UInt8 := 0x60
def opIf : UInt8 := 0x63
def opEndIf : UInt8 := 0x68
def opCodeSeparator : UInt8 := 0xab

/-- A little-endian number of `n` bytes, and what follows it. -/
def readLE (n : ℕ) (pc : Script) : Option (ℕ × Script) :=
  if pc.length < n then none else some (leValue (pc.take n), pc.drop n)

/-- The size of the immediate operand of a push, and where the operand starts. -/
def operandSize (opcode : UInt8) (pc : Script) : Option (ℕ × Script) :=
  if opcode < opPushData1 then some (opcode.toNat, pc)
  else if opcode = opPushData1 then readLE 1 pc
  else if opcode = opPushData2 then readLE 2 pc
  else readLE 4 pc

/-- `GetScriptOp`: the opcode at `pc`, the value it pushes and where the next one starts. -/
def getScriptOp : Script → Option (UInt8 × List UInt8 × Script)
  | [] => none
  | opcode :: pc =>
    if opcode ≤ opPushData4 then
      match operandSize opcode pc with
      | none => none
      | some (nSize, pc) =>
        if pc.length < nSize then none else some (opcode, pc.take nSize, pc.drop nSize)
    else some (opcode, [], pc)

variable {n : ℕ} {pc rest : Script} {op : UInt8 × List UInt8 × Script}

theorem readLE_length {v : ℕ} (h : readLE n pc = some (v, rest)) : rest.length ≤ pc.length := by
  simp only [readLE, Option.ite_none_left_eq_some, Option.some.injEq, Prod.mk.injEq] at h
  rw [← h.2.2, List.length_drop]
  omega

theorem operandSize_length {opcode : UInt8} (h : operandSize opcode pc = some (n, rest)) :
    rest.length ≤ pc.length := by
  unfold operandSize at h
  split_ifs at h
  · cases h
    exact le_rfl
  all_goals exact readLE_length h

theorem getScriptOp_eq_some (h : getScriptOp pc = some op) :
    op.2.2.length < pc.length ∧ (op.1 ≤ opPushData4 ∨ op.2.1 = []) := by
  cases pc with
  | nil => cases h
  | cons first pc =>
    simp only [getScriptOp] at h
    split_ifs at h with hpush
    · cases hsize : operandSize first pc with
      | none =>
        rw [hsize] at h
        cases h
      | some operand =>
        rw [hsize] at h
        have hlen := operandSize_length hsize
        simp only [Option.ite_none_left_eq_some, Option.some.injEq] at h
        rw [← h.2, List.length_drop, List.length_cons]
        exact ⟨by omega, Or.inl hpush⟩
    · cases h
      exact ⟨Nat.lt_succ_self _, Or.inr rfl⟩

section Fold

variable {β : Type} (done broken : β) (visit : UInt8 → β → β)

/-- A loop over the opcodes of a script that looks at nothing else, with room for `n` of them. -/
def foldOps : ℕ → Script → β
  | 0, _ => done
  | n + 1, pc =>
    if pc = [] then done
    else match getScriptOp pc with
      | none => broken
      | some (opcode, _, rest) => visit opcode (foldOps n rest)

def overOps (script : Script) : β := foldOps done broken visit script.length script

end Fold

def isPushOnly (script : Script) : Bool :=
  overOps true false (fun opcode rest => decide (opcode ≤ op16) && rest) script

def isOpSuccess (opcode : UInt8) : Bool :=
  let op := opcode.toNat
  op = 80 ∨ op = 98 ∨ (126 ≤ op ∧ op ≤ 129) ∨ (131 ≤ op ∧ op ≤ 134) ∨ (137 ≤ op ∧ op ≤ 138) ∨
    (141 ≤ op ∧ op ≤ 142) ∨ (149 ≤ op ∧ op ≤ 153) ∨ (187 ≤ op ∧ op ≤ 254)

def checkMinimalPush (data : List UInt8) (opcode : UInt8) : Bool :=
  if data.length = 0 then opcode = op0
  else if data.length = 1 ∧ 1 ≤ data.headD 0 ∧ data.headD 0 ≤ 16 then false
  else if data.length = 1 ∧ data.headD 0 = 0x81 then false
  else if data.length ≤ 75 then opcode.toNat = data.length
  else if data.length ≤ 255 then opcode = opPushData1
  else if data.length ≤ 65535 then opcode = opPushData2
  else true

/-- `CScript() << data`. -/
def pushBytes (data : List UInt8) : Script := appendDataSize data.length ++ data

def isPayToScriptHash (script : Script) : Bool :=
  script.length = 23 ∧ script.getD 0 0 = opHash160 ∧ script.getD 1 0 = 0x14 ∧
    script.getD 22 0 = opEqual

/-- `CScript::DecodeOP_N`, for `OP_0` and `OP_1` to `OP_16`. -/
def decodeOpN (opcode : UInt8) : ℕ := if opcode = op0 then 0 else opcode.toNat - (op1.toNat - 1)

/-- `CScript::IsWitnessProgram`, with the version and the program it stores. -/
def isWitnessProgram (script : Script) : Option (ℕ × List UInt8) :=
  let first := script.getD 0 0
  if script.length < 4 ∨ 42 < script.length then none
  else if first ≠ op0 ∧ (first < op1 ∨ op16 < first) then none
  else if (script.getD 1 0).toNat + 2 = script.length then some (decodeOpN first, script.drop 2)
  else none

inductive UnaryOp where
  | oneAdd | oneSub | negate | abs | not | zeroNotEqual
  deriving DecidableEq, Repr

inductive BinaryOp where
  | add | sub | boolAnd | boolOr | numEqual | numEqualVerify | numNotEqual | lessThan | greaterThan
  | lessThanOrEqual | greaterThanOrEqual | min | max
  deriving DecidableEq, Repr

inductive HashOp where
  | ripemd160 | sha1 | sha256 | hash160 | hash256
  deriving DecidableEq, Repr

/-- The cases of the `switch` of `EvalScript`; an opcode and its `VERIFY` form are one case. -/
inductive Instr where
  | smallInt (n : ℤ)
  | nop | checkLockTimeVerify | checkSequenceVerify | upgradableNop
  | branch (notIf : Bool) | otherwise | endIf | verify | returns
  | toAltStack | fromAltStack | twoDrop | twoDup | threeDup | twoOver | twoRot | twoSwap
  | ifDup | depth | drop | dup | nip | overTop | pick (roll : Bool) | rot | swap | tuck | size
  | equal (verify : Bool)
  | unary (op : UnaryOp) | binary (op : BinaryOp) | within
  | hash (op : HashOp)
  | codeSeparator | checkSig (verify : Bool) | checkSigAdd | checkMultiSig (verify : Bool)
  | unknown
  deriving DecidableEq, Repr

/-- The case of the `switch` that an opcode selects. -/
def instruction (opcode : UInt8) : Instr :=
  match opcode.toNat with
  | 0x4f => .smallInt (-1)
  | 0x61 => .nop
  | 0x63 => .branch false
  | 0x64 => .branch true
  | 0x67 => .otherwise
  | 0x68 => .endIf
  | 0x69 => .verify
  | 0x6a => .returns
  | 0x6b => .toAltStack
  | 0x6c => .fromAltStack
  | 0x6d => .twoDrop
  | 0x6e => .twoDup
  | 0x6f => .threeDup
  | 0x70 => .twoOver
  | 0x71 => .twoRot
  | 0x72 => .twoSwap
  | 0x73 => .ifDup
  | 0x74 => .depth
  | 0x75 => .drop
  | 0x76 => .dup
  | 0x77 => .nip
  | 0x78 => .overTop
  | 0x79 => .pick false
  | 0x7a => .pick true
  | 0x7b => .rot
  | 0x7c => .swap
  | 0x7d => .tuck
  | 0x82 => .size
  | 0x87 => .equal false
  | 0x88 => .equal true
  | 0x8b => .unary .oneAdd
  | 0x8c => .unary .oneSub
  | 0x8f => .unary .negate
  | 0x90 => .unary .abs
  | 0x91 => .unary .not
  | 0x92 => .unary .zeroNotEqual
  | 0x93 => .binary .add
  | 0x94 => .binary .sub
  | 0x9a => .binary .boolAnd
  | 0x9b => .binary .boolOr
  | 0x9c => .binary .numEqual
  | 0x9d => .binary .numEqualVerify
  | 0x9e => .binary .numNotEqual
  | 0x9f => .binary .lessThan
  | 0xa0 => .binary .greaterThan
  | 0xa1 => .binary .lessThanOrEqual
  | 0xa2 => .binary .greaterThanOrEqual
  | 0xa3 => .binary .min
  | 0xa4 => .binary .max
  | 0xa5 => .within
  | 0xa6 => .hash .ripemd160
  | 0xa7 => .hash .sha1
  | 0xa8 => .hash .sha256
  | 0xa9 => .hash .hash160
  | 0xaa => .hash .hash256
  | 0xab => .codeSeparator
  | 0xac => .checkSig false
  | 0xad => .checkSig true
  | 0xae => .checkMultiSig false
  | 0xaf => .checkMultiSig true
  | 0xb1 => .checkLockTimeVerify
  | 0xb2 => .checkSequenceVerify
  | 0xba => .checkSigAdd
  | op =>
    if 0x51 ≤ op ∧ op ≤ 0x60 then .smallInt (op - 0x50)
    else if op = 0xb0 ∨ (0xb3 ≤ op ∧ op ≤ 0xb9) then .upgradableNop
    else .unknown

/-- The opcodes that end a script even in a branch that is not executed. -/
def isDisabled (opcode : UInt8) : Bool :=
  opcode.toNat ∈ [0x7e, 0x7f, 0x80, 0x81, 0x83, 0x84, 0x85, 0x86, 0x8d, 0x8e, 0x95, 0x96, 0x97, 0x98,
    0x99]

end Tarcoin.Script
