import Tarcoin.Foundations.FinmapSum
import Tarcoin.Validation.ConnectBlock

/-! A transaction moves value and leaves its fee, so a block raises the total of the UTXO map by
at most its subsidy. -/
namespace Tarcoin
open FallibleRun FinmapLookup

def UtxoMap.total (m : UtxoMap) : ℤ := FinmapSum.total (fun c => c.val.out.nValue) m

variable {m m' : UtxoMap} {o : OutPoint} {s : Chain × ChainView}

section Block

variable {R : BlockRules} {P : ConsensusParams} {pindex : BlockIndex} {pprev : Chain}

variable {st st' : ConnectState}

end Block

variable {R : BlockRules} {P : ConsensusParams}

/-- Rules that accept every hash and script, number transactions by lock time and blocks
by nonce, and know the main network's genesis hash. -/
def permissiveRules : BlockRules where
  txid tx := BitVec.ofNat 256 tx.nLockTime
  blockHash header :=
    if header.nNonce = 0 then mainParams.hashGenesisBlock else BitVec.ofNat 256 header.nNonce.toNat
  checkProofOfWork _ := true
  checkSignetBlockSolution _ := true
  blockMerkleRoot _ := (0, false)
  legacySigOpCount _ := 0
  transactionSigOpCost _ _ _ := 0
  sequenceLocks _ _ _ := true
  checkInputScripts _ _ _ := none

def coinbaseTx (lockTime : ℕ) (out : TxOut) : Transaction where
  version := 2
  vin := [⟨⟨0, OutPoint.nullIndex⟩, [0x51, 0x51], 0xffffffff, []⟩]
  vout := [out]
  nLockTime := lockTime

def coinbaseBlock (nonce : UInt32) (out : TxOut) : Block :=
  ⟨⟨1, 0, 0, 0, 0, nonce⟩, [coinbaseTx nonce.toNat out]⟩

end Tarcoin
