import Tarcoin.Consensus.Params
import Tarcoin.Foundations.HalvingSeries

/-! `GetBlockSubsidy` of `validation.cpp` and the total it can ever issue. -/
namespace Tarcoin

def premine : Amount := 10000000000 * coinUnit

def getBlockSubsidy (nHeight : ℕ) (params : ConsensusParams) : Amount :=
  if nHeight = 1 then premine
  else if 64 ≤ nHeight / params.nSubsidyHalvingInterval then 0
  else (50000 * coinUnit) >>> (nHeight / params.nSubsidyHalvingInterval)

variable (params : ConsensusParams)

end Tarcoin
