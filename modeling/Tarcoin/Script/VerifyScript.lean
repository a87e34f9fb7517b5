import Tarcoin.KeyIO.Destination
import Tarcoin.Script.Runs
import Tarcoin.Serialize.TxCodec

/-! `VerifyScript` of `script/interpreter.cpp` and its parts, and how the verdict depends on the
flags. -/
namespace Tarcoin.Script
open Ruled FallibleRun

/-- A computation of the verifier: it has no state of its own. -/
abbrev Check := Ruled ScriptFlag Unit Stop

variable (crypto : Crypto) (checker : SignatureChecker)

def failure {α : Type} (e : ScriptError) : Check α := fail (.error e)

/-- Fail with the error `e` unless `q`. -/
def expect (q : Prop) [Decidable q] (e : ScriptError) : Check Unit := require q (.error e)

/-- What the scan for `OP_SUCCESSx` comes to first. -/
inductive SuccessScan where
  | none | badOpcode | opSuccess
  deriving DecidableEq, Repr

def scanOpSuccess (script : Script) : SuccessScan :=
  overOps .none .badOpcode (fun opcode rest => if isOpSuccess opcode then .opSuccess else rest) script

/-- The end of `ExecuteWitnessScript`: `stack` has its top first. -/
def runWitnessScript (stack : Stack) (script : Script) (v : SigVersion) (d : ScriptExecutionData) :
    Check Unit := do
  expect (∀ elem ∈ stack, elem.length ≤ maxScriptElementSize) .pushSize
  let final ← evalScript ⟨crypto, checker, v⟩ stack script d
  expect (final.length = 1) .cleanStack
  expect (castToBool (final.headD [])) .evalFalse

def executeWitnessScript (stack : Stack) (script : Script) (v : SigVersion)
    (d : ScriptExecutionData) : Check Unit :=
  if v = .tapscript then
    match scanOpSuccess script with
    | .badOpcode => failure .badOpcode
    | .opSuccess => demand .discourageOpSuccess (failure .discourageOpSuccess)
    | .none => do
      expect (stack.length ≤ maxStackSize) .stackSize
      runWitnessScript crypto checker stack script v d
  else runWitnessScript crypto checker stack script v d

/-! ### Taproot -/

def textBytes (text : String) : List UInt8 := text.toList.map fun c => UInt8.ofNat c.toNat

def taggedHash (tag : String) (bytes : List UInt8) : List UInt8 :=
  let tagHash : List UInt8 := crypto.sha256 (textBytes tag)
  crypto.sha256 (tagHash ++ tagHash ++ bytes)

def computeTapleafHash (leafVersion : UInt8) (script : List UInt8) : List UInt8 :=
  taggedHash crypto "TapLeaf" (leafVersion :: writeBytes script)

/-- `ComputeTapbranchHash`: the smaller of the two comes first. -/
def computeTapbranchHash (a b : List UInt8) : List UInt8 :=
  taggedHash crypto "TapBranch" (if a < b then a ++ b else b ++ a)

def taprootLeafMask : UInt8 := 0xfe
def taprootLeafTapscript : UInt8 := 0xc0
def taprootControlBaseSize : ℕ := 33
def taprootControlNodeSize : ℕ := 32
def taprootControlMaxSize : ℕ := 33 + 32 * 128
def annexTag : UInt8 := 0x50
def validationWeightOffset : ℤ := 50

/-- `ComputeTaprootMerkleRoot`: the nodes of the path are folded onto the leaf. -/
def foldPath : ℕ → List UInt8 → List UInt8 → List UInt8
  | 0, _, k => k
  | pathLen + 1, path, k =>
    foldPath pathLen (path.drop taprootControlNodeSize)
      (computeTapbranchHash crypto k (path.take taprootControlNodeSize))

def computeTaprootMerkleRoot (control tapleafHash : List UInt8) : List UInt8 :=
  foldPath crypto ((control.length - taprootControlBaseSize) / taprootControlNodeSize)
    (control.drop taprootControlBaseSize) tapleafHash

def verifyTaprootCommitment (control program tapleafHash : List UInt8) : Bool :=
  crypto.checkTapTweak program ((control.drop 1).take (taprootControlBaseSize - 1))
    (computeTaprootMerkleRoot crypto control tapleafHash) (control.headD 0 &&& 1 = 1)

/-- The script path of Taproot: the last two elements of `stack`, which has its top first, are the
control block and the script. -/
def verifyScriptPath (witness : Stack) (stack : Stack) (program : List UInt8)
    (d : ScriptExecutionData) : Check Unit := do
  let control := stack.headD []
  let script := (stack.drop 1).headD []
  expect (taprootControlBaseSize ≤ control.length ∧ control.length ≤ taprootControlMaxSize ∧
    (control.length - taprootControlBaseSize) % taprootControlNodeSize = 0) .taprootWrongControlSize
  let leaf := control.headD 0 &&& taprootLeafMask
  let tapleafHash := computeTapleafHash crypto leaf script
  expect (verifyTaprootCommitment crypto control program tapleafHash) .witnessProgramMismatch
  if leaf = taprootLeafTapscript then
    executeWitnessScript crypto checker (stack.drop 2) script .tapscript
      { d with
        tapleafHash := some tapleafHash
        validationWeightLeft :=
          some ((writeVector writeBytes witness).length + validationWeightOffset) }
  else demand .discourageUpgradableTaprootVersion (failure .discourageUpgradableTaprootVersion)

/-- The annex of a witness with its top first, and what is below it. -/
def dropAnnex (stack : Stack) : Option (List UInt8) × Stack :=
  match stack with
  | annex :: below =>
    if below ≠ [] ∧ annex.head? = some annexTag then (some annex, below) else (none, stack)
  | [] => (none, [])

/-- Spending a Taproot output, where the flag is set. -/
def verifyTaproot (witness : Stack) (program : List UInt8) : Check Unit := do
  expect (witness ≠ []) .witnessProgramWitnessEmpty
  let rest := dropAnnex witness.reverse
  let d : ScriptExecutionData :=
    { ScriptExecutionData.initial with
      annex := some (rest.1.map fun bytes => (crypto.sha256 (writeBytes bytes)).1) }
  match rest.2 with
  | [sig] =>
    match checker.checkSchnorrSignature sig program .taproot d with
    | .ok _ => pure ()
    | .error e => failure e
  | stack => verifyScriptPath crypto checker witness stack program d

/-! ### Witness programs -/

def witnessV0ScripthashSize : ℕ := 32
def witnessV0KeyhashSize : ℕ := 20
def witnessV1TaprootSize : ℕ := 32

/-- The script of a `P2WPKH` program. -/
def keyhashScript (program : List UInt8) : Script :=
  [opDup, opHash160] ++ pushBytes program ++ [opEqualVerify, opCheckSig]

/-- A program of version 0: a script hash or a key hash. -/
def verifyWitnessV0 (witness : Stack) (program : List UInt8) : Check Unit :=
  if program.length = witnessV0ScripthashSize then
    match witness.reverse with
    | [] => failure .witnessProgramWitnessEmpty
    | script :: stack => do
      expect (crypto.sha256 script = program) .witnessProgramMismatch
      executeWitnessScript crypto checker stack script .witnessV0 .initial
  else if program.length = witnessV0KeyhashSize then do
    expect (witness.length = 2) .witnessProgramMismatch
    executeWitnessScript crypto checker witness.reverse (keyhashScript program) .witnessV0 .initial
  else failure .witnessProgramWrongLength

/-- `VerifyWitnessProgram`; `witness` is the stack of the witness, in the order it is written. -/
def verifyWitnessProgram (witness : Stack) (version : ℕ) (program : List UInt8) (isP2sh : Bool) :
    Check Unit :=
  if version = 0 then verifyWitnessV0 crypto checker witness program
  else if version = 1 ∧ program.length = witnessV1TaprootSize ∧ isP2sh = false then
    demand .taproot (verifyTaproot crypto checker witness program)
  else if isP2sh = false ∧ isPayToAnchor version program then pure ()
  else demand .discourageUpgradableWitnessProgram (failure .discourageUpgradableWitnessProgram)

/-! ### `VerifyScript` -/

def evalBase (stack : Stack) (script : Script) : Check Stack :=
  evalScript ⟨crypto, checker, .base⟩ stack script .initial

/-- Evaluate a script that has to leave a true value on the top of the stack. -/
def evalTrue (stack : Stack) (script : Script) : Check Stack := do
  let final ← evalBase crypto checker stack script
  expect (final ≠ []) .evalFalse
  expect (castToBool (final.headD [])) .evalFalse
  pure final

/-- The evaluation of the two scripts: the stack between them and the stack after them. -/
def evalBoth (scriptSig scriptPubKey : Script) : Check (Stack × Stack) := do
  demand .sigPushOnly (expect (isPushOnly scriptSig) .sigPushOnly)
  let stackCopy ← evalBase crypto checker [] scriptSig
  let stack ← evalTrue crypto checker stackCopy scriptPubKey
  pure (stackCopy, stack)

/-- The evaluation of the redeem script on top of the stack that `scriptSig` left: the script and
the stack after it. -/
def evalRedeem (scriptSig : Script) (stackCopy : Stack) : Check (Script × Stack) := do
  expect (isPushOnly scriptSig) .sigPushOnly
  match stackCopy with
  | [] => fail .assertion
  | pubKey2 :: rest => do
    let stack ← evalTrue crypto checker rest pubKey2
    pure (pubKey2, stack)

/-- Spending a witness program, for which `scriptSig` has to be what `script` leaves no choice in. -/
def spendWitness (witness : Stack) (scriptSig script : Script) (version : ℕ)
    (program : List UInt8) (isP2sh : Bool) : Check Unit := do
  expect (scriptSig = if isP2sh then pushBytes script else [])
    (if isP2sh then .witnessMalleatedP2sh else .witnessMalleated)
  verifyWitnessProgram crypto checker witness version program isP2sh

def resizeOne (stack : Stack) : Stack := [stack.getLastD []]

/-- The stack to look at in the end, and whether there was a witness program. -/
abbrev Spent := Stack × Bool

/-- The branch for witness programs, of `scriptPubKey` and of the redeem script. -/
def witnessBranch (witness : Stack) (scriptSig script : Script) (isP2sh : Bool)
    (F : Finset ScriptFlag) (spent : Spent) : Except Stop Spent :=
  if .witness ∈ F then
    match isWitnessProgram script with
    | none => .ok spent
    | some (version, program) =>
      ((spendWitness crypto checker witness scriptSig script version program isP2sh).run F ()).map
        fun _ => (resizeOne spent.1, true)
  else .ok spent

def p2shBranch (witness : Stack) (scriptSig scriptPubKey : Script) (stackCopy : Stack)
    (F : Finset ScriptFlag) (spent : Spent) : Except Stop Spent :=
  if .p2sh ∈ F ∧ isPayToScriptHash scriptPubKey then
    ((evalRedeem crypto checker scriptSig stackCopy).run F ()).bind fun r =>
      witnessBranch crypto checker witness scriptSig r.1.1 true F (r.1.2, spent.2)
  else .ok spent

/-- The checks at the end, which assert that the flags fit together. -/
def closing (witness : Stack) (F : Finset ScriptFlag) (spent : Spent) : Except Stop Unit :=
  if .cleanStack ∈ F ∧ (.p2sh ∉ F ∨ .witness ∉ F) then .error .assertion
  else if .cleanStack ∈ F ∧ spent.1.length ≠ 1 then .error (.error .cleanStack)
  else if .witness ∈ F ∧ .p2sh ∉ F then .error .assertion
  else if .witness ∈ F ∧ spent.2 = false ∧ witness ≠ [] then .error (.error .witnessUnexpected)
  else .ok ()

/-- `VerifyScript`; no witness is the empty one. -/
def verifyScript (scriptSig scriptPubKey : Script) (witness : Option Stack)
    (F : Finset ScriptFlag) : Except Stop Unit :=
  ((evalBoth crypto checker scriptSig scriptPubKey).run F ()).bind fun r =>
    (witnessBranch crypto checker (witness.getD []) scriptSig scriptPubKey false F
      (r.1.2, false)).bind fun bare =>
    (p2shBranch crypto checker (witness.getD []) scriptSig scriptPubKey r.1.1 F bare).bind
      (closing (witness.getD []) F)

/-! ### Fewer flags -/

/-- The flags that `VerifyScript` asks for together. -/
structure FlagsFit (F : Finset ScriptFlag) : Prop where
  witness : .witness ∈ F → .p2sh ∈ F
  cleanStack : .cleanStack ∈ F → .p2sh ∈ F ∧ .witness ∈ F
  taproot : .taproot ∈ F → .witness ∈ F

section

variable {crypto checker} {F G : Finset ScriptFlag} {w stackCopy : Stack}
  {scriptSig script : Script} {isP2sh : Bool} {spent spent' : Spent}

theorem witnessBranch_of_notMem (hF : .witness ∉ F) :
    witnessBranch crypto checker w scriptSig script isP2sh F spent = .ok spent :=
  if_neg hF

theorem witnessBranch_relax (hsub : F ⊆ G) (hF : .witness ∈ F)
    (h : witnessBranch crypto checker w scriptSig script isP2sh G spent = .ok spent') :
    witnessBranch crypto checker w scriptSig script isP2sh F spent = .ok spent' := by
  rw [witnessBranch, if_pos (hsub hF)] at h
  rw [witnessBranch, if_pos hF]
  cases hprogram : isWitnessProgram script with
  | none =>
    rw [hprogram] at h
    exact h
  | some program =>
    rw [hprogram] at h
    obtain ⟨r, hr, hspent⟩ := map_eq_ok_iff.mp h
    exact map_eq_ok_iff.mpr ⟨r, Ruled.relax _ hsub hr, hspent⟩

/-- With the flag for witnesses the branch ends as it did; without it, it ends all the same. -/
theorem p2shBranch_relax (hsub : F ⊆ G) (hF : .p2sh ∈ F)
    (h : p2shBranch crypto checker w scriptSig script stackCopy G spent = .ok spent') :
    (.witness ∈ F → p2shBranch crypto checker w scriptSig script stackCopy F spent = .ok spent') ∧
      (.witness ∉ F → ∀ bare, ∃ rest,
        p2shBranch crypto checker w scriptSig script stackCopy F bare = .ok rest) := by
  by_cases hhash : isPayToScriptHash script = true
  · rw [p2shBranch, if_pos ⟨hsub hF, hhash⟩] at h
    obtain ⟨r, hr, hbranch⟩ := bind_eq_ok_iff.mp h
    have hredeem := Ruled.relax _ hsub hr
    refine ⟨fun hwitness => ?_, fun hwitness bare => ?_⟩
    · rw [p2shBranch, if_pos ⟨hF, hhash⟩]
      exact bind_eq_ok_iff.mpr ⟨r, hredeem, witnessBranch_relax hsub hwitness hbranch⟩
    · rw [p2shBranch, if_pos ⟨hF, hhash⟩]
      exact ⟨_, bind_eq_ok_iff.mpr ⟨r, hredeem, witnessBranch_of_notMem hwitness⟩⟩
  · have hplain : ∀ (H : Finset ScriptFlag) (sp : Spent),
        p2shBranch crypto checker w scriptSig script stackCopy H sp = .ok sp :=
      fun H sp => if_neg fun hif => hhash hif.2
    rw [hplain] at h
    exact ⟨fun _ => (hplain F spent).trans h, fun _ bare => ⟨bare, hplain F bare⟩⟩

theorem closing_relax (hsub : F ⊆ G) (hfit : FlagsFit F) (h : closing w G spent = .ok ()) :
    closing w F spent = .ok () := by
  unfold closing at h
  split_ifs at h with hfits hclean hshape hunexpected
  unfold closing
  rw [if_neg, if_neg, if_neg, if_neg]
  · exact fun hw => hunexpected ⟨hsub hw.1, hw.2⟩
  · exact fun hw => hw.2 (hfit.witness hw.1)
  · exact fun hc => hclean ⟨hsub hc.1, hc.2⟩
  · intro hc
    obtain ⟨hp2sh, hwitness⟩ := hfit.cleanStack hc.1
    exact hc.2.elim (fun hn => hn hp2sh) fun hn => hn hwitness

theorem closing_of_notMem (hfit : FlagsFit F) (hF : .witness ∉ F) : closing w F spent = .ok () := by
  have hclean : .cleanStack ∉ F := fun hc => hF (hfit.cleanStack hc).2
  simp [closing, hF, hclean]

end

/-- Script flags are soft forks: what `VerifyScript` accepts under a set of flags it accepts under
every smaller set whose flags fit together. -/
theorem verifyScript_relax {F G : Finset ScriptFlag} (hsub : F ⊆ G) (hF : FlagsFit F)
    (scriptSig scriptPubKey : Script) (witness : Option Stack)
    (h : verifyScript crypto checker scriptSig scriptPubKey witness G = .ok ()) :
    verifyScript crypto checker scriptSig scriptPubKey witness F = .ok () := by
  obtain ⟨r, hr, h⟩ := bind_eq_ok_iff.mp h
  obtain ⟨bare, hbare, h⟩ := bind_eq_ok_iff.mp h
  obtain ⟨spent, hspent, hclosing⟩ := bind_eq_ok_iff.mp h
  have hboth := Ruled.relax _ hsub hr
  apply bind_eq_ok_iff.mpr ⟨r, hboth, _⟩
  by_cases hwitness : .witness ∈ F
  · -- both runs take the same branches
    have hp2sh := p2shBranch_relax hsub (hF.witness hwitness) hspent
    apply bind_eq_ok_iff.mpr ⟨bare, witnessBranch_relax hsub hwitness hbare, _⟩
    exact bind_eq_ok_iff.mpr ⟨spent, hp2sh.1 hwitness, closing_relax hsub hF hclosing⟩
  · apply bind_eq_ok_iff.mpr ⟨_, witnessBranch_of_notMem hwitness, _⟩
    by_cases hp2sh : .p2sh ∈ F
    · obtain ⟨rest, hrest⟩ := (p2shBranch_relax hsub hp2sh hspent).2 hwitness (r.1.2, false)
      exact bind_eq_ok_iff.mpr ⟨rest, hrest, closing_of_notMem hF hwitness⟩
    · have hplain : p2shBranch crypto checker (witness.getD []) scriptSig scriptPubKey r.1.1 F
          (r.1.2, false) = .ok (r.1.2, false) := if_neg fun hif => hp2sh hif.1
      exact bind_eq_ok_iff.mpr ⟨_, hplain, closing_of_notMem hF hwitness⟩

/-- A key hash spent with its witness is spent as well where witnesses are not looked at. -/
theorem verifyScript_relax_keyhash :
    verifyScript blankCrypto mirrorChecker [] ([0x00, 0x14] ++ List.replicate 20 1)
      (some [[2, 3], [2, 3]]) {.p2sh, .witness, .cleanStack, .nullFail} = .ok () ∧
    verifyScript blankCrypto mirrorChecker [] ([0x00, 0x14] ++ List.replicate 20 1)
      (some [[2, 3], [2, 3]]) {.p2sh} = .ok () := by
  have hG : verifyScript blankCrypto mirrorChecker [] ([0x00, 0x14] ++ List.replicate 20 1)
      (some [[2, 3], [2, 3]]) {.p2sh, .witness, .cleanStack, .nullFail} = .ok () := by
    decide
  refine ⟨hG, verifyScript_relax blankCrypto mirrorChecker ?_ ?_ _ _ _ hG⟩
  · decide
  · constructor <;> decide

end Tarcoin.Script
