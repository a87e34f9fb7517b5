import Tarcoin.Primitives.Transaction

/-! Chain parameters of `consensus/params.h` and the main network's values from
`kernel/chainparams.cpp`. -/
namespace Tarcoin

structure ConsensusParams where
  hashGenesisBlock : Uint256
  nSubsidyHalvingInterval : ℕ
  bip34Height : ℕ
  bip34Hash : Uint256
  bip65Height : ℕ
  bip66Height : ℕ
  powLimit : ℕ
  fPowAllowMinDifficultyBlocks : Bool
  enforceBip94 : Bool
  fPowNoRetargeting : Bool
  nPowTargetSpacing : ℕ
  nPowTargetTimespan : ℕ
  signetBlocks : Bool

def ConsensusParams.difficultyAdjustmentInterval (params : ConsensusParams) : ℕ :=
  params.nPowTargetTimespan / params.nPowTargetSpacing

def mainParams : ConsensusParams where
  hashGenesisBlock := 0x0000e37ee7aa8a88d1254ee3fe7c497c8fdaff36b29747eb64d8da68fbd9939e
  nSubsidyHalvingInterval := 400000
  bip34Height := 380
  bip34Hash := 0
  bip65Height := 380
  bip66Height := 380
  powLimit := 0x0000ffffffffffffffffffffffffffffffffffffffffffffffffffffffffffff
  fPowAllowMinDifficultyBlocks := false
  enforceBip94 := false
  fPowNoRetargeting := false
  nPowTargetSpacing := 10 * 60
  nPowTargetTimespan := 14 * 24 * 60 * 60
  signetBlocks := false

end Tarcoin
