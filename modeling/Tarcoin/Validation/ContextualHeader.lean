import Tarcoin.Pow.NextWork

/-! `ContextualCheckBlockHeader` of `validation.cpp`. -/
namespace Tarcoin

inductive HeaderRejectReason where
  | block1Checkpoint | diffbits | timeTooOld | timewarpAttack | timeTooNew
  | version (nVersion : Int32)
  deriving DecidableEq, Repr

def hex8 (n : UInt32) : String :=
  String.ofList ((Nat.toDigits 16 n.toNat).leftpad 8 '0')

def HeaderRejectReason.text : HeaderRejectReason → String
  | block1Checkpoint => "bad-block-1-checkpoint"
  | diffbits => "bad-diffbits"
  | timeTooOld => "time-too-old"
  | timewarpAttack => "time-timewarp-attack"
  | timeTooNew => "time-too-new"
  | version nVersion => "bad-version(0x" ++ hex8 nVersion.toUInt32 ++ ")"

/-- The hash the main network requires of block 1. -/
def premineBlockHash : Uint256 :=
  0x00002a8effcc4422d6d3d6db933a9e1201d6b23d009817651136c156805e7d3c

def maxTimewarp : ℤ := 600
def maxFutureBlockTime : ℤ := 2 * 60 * 60

section Check

variable (params : ConsensusParams) (isMain : Bool) (hash : Uint256) (block : BlockHeader)
  (pindexPrev : BlockIndex) (pprev : Chain) (now : ℤ)

/-- The version rules, each active from its deployment height on. -/
def isOutdatedVersion (nHeight : ℕ) : Bool :=
  (decide (block.nVersion < 2) && decide (params.bip34Height ≤ nHeight)) ||
  (decide (block.nVersion < 3) && decide (params.bip66Height ≤ nHeight)) ||
  (decide (block.nVersion < 4) && decide (params.bip65Height ≤ nHeight))

/-- `ContextualCheckBlockHeader` on top of `pindexPrev`, for a header with the given hash. -/
def contextualCheckBlockHeader : Except HeaderRejectReason Unit :=
  let nHeight := Chain.nextHeight (pindexPrev :: pprev)
  if isMain ∧ nHeight = 1 ∧ hash ≠ premineBlockHash then .error .block1Checkpoint
  else if block.nBits ≠ getNextWorkRequired pindexPrev pprev block params then .error .diffbits
  else if block.blockTime ≤ Chain.medianTimePast (pindexPrev :: pprev) then .error .timeTooOld
  else if params.enforceBip94 ∧ nHeight % params.difficultyAdjustmentInterval = 0 ∧
      block.blockTime < pindexPrev.blockTime - maxTimewarp then .error .timewarpAttack
  else if now + maxFutureBlockTime < block.blockTime then .error .timeTooNew
  else if isOutdatedVersion params block nHeight then .error (.version block.nVersion)
  else .ok ()

theorem contextualCheck_diffbits_iff (h : Chain.nextHeight (pindexPrev :: pprev) ≠ 1) :
    contextualCheckBlockHeader params isMain hash block pindexPrev pprev now = .error .diffbits ↔
      block.nBits ≠ getNextWorkRequired pindexPrev pprev block params := by
  unfold contextualCheckBlockHeader
  simp only [h, false_and, and_false, if_false]
  constructor
  · intro hres
    split_ifs at hres with hbits
    · exact hbits
    all_goals cases hres
  · intro hbits
    rw [if_pos hbits]

end Check

end Tarcoin
