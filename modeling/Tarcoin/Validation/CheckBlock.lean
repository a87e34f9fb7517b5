import Tarcoin.Consensus.Params
import Tarcoin.Consensus.TxVerify
import Tarcoin.Foundations.FallibleRun
import Tarcoin.Primitives.Block

/-! `CheckBlock` of `validation.cpp`. Hashes, proof of work and script execution are parameters
(`BlockRules`). -/
namespace Tarcoin
open FallibleRun

inductive BlockRejectReason where
  | highHash | signetBlksig | txnMrklRoot | txnsDuplicate
  | blkLength | cbMissing | cbMultiple | blkSigops
  | bip30 | accumulatedFeeOutOfRange | nonfinal | cbAmount
  | tx (reason : TxRejectReason)
  | script (reason : String)
  deriving DecidableEq, Repr

namespace BlockRejectReason

/-- The reasons reported with `BLOCK_MUTATED`. -/
def isMutated : BlockRejectReason → Bool
  | txnMrklRoot | txnsDuplicate => true
  | _ => false

end BlockRejectReason

/-- A rejected block, a fault, or the fatal error of a corrupt block on disk. -/
inductive BlockFailure where
  | invalid (reason : BlockRejectReason)
  | fault (f : Fault)
  | fatalError
  deriving DecidableEq, Repr

def BlockFailure.ofTx : TxFailure → BlockFailure
  | .invalid reason => .invalid (.tx reason)
  | .fault f => .fault f

/-- What block validation takes as given here: hashes, proof of work, merkle roots
(with the mutation flag), lock times, script execution and its operation counts. -/
structure BlockRules where
  txid : Transaction → Uint256
  blockHash : BlockHeader → Uint256
  checkProofOfWork : BlockHeader → Bool
  checkSignetBlockSolution : Block → Bool
  blockMerkleRoot : List Transaction → Uint256 × Bool
  legacySigOpCount : Transaction → ℕ
  transactionSigOpCost : Transaction → UtxoMap → Chain → ℕ
  sequenceLocks : Transaction → List ℕ → Chain → Bool
  checkInputScripts : Transaction → UtxoMap → Chain → Option String

def maxBlockSigopsCost : ℕ := 80000

section CheckBlock

variable (R : BlockRules) (P : ConsensusParams)

def checkMerkleRoot (block : Block) : Except BlockFailure Unit :=
  if block.header.hashMerkleRoot ≠ (R.blockMerkleRoot block.vtx).1 then
    .error (.invalid .txnMrklRoot)
  else if (R.blockMerkleRoot block.vtx).2 then .error (.invalid .txnsDuplicate)
  else .ok ()

/-- One turn of the transaction loop of `CheckBlock`; failures other than consensus
failures trip its assertion. -/
def checkBlockTx (_ : Unit) (tx : Transaction) : Except BlockFailure Unit :=
  (checkTransaction tx).mapError fun
    | .invalid reason =>
      if reason.result = .txConsensus then .invalid (.tx reason) else .fault .assertion
    | .fault f => .fault f

/-- The sum and the product are taken in `unsigned int`. -/
def exceedsLegacySigops (vtx : List Transaction) : Bool :=
  decide (maxBlockSigopsCost <
    (vtx.map R.legacySigOpCount).sum % 2 ^ 32 * witnessScaleFactor % 2 ^ 32)

def checkBlockBody (block : Block) : Except BlockFailure Unit :=
  if block.vtx = [] ∨ maxBlockWeight < block.vtx.length * witnessScaleFactor ∨
      maxBlockWeight < block.serializeSizeNoWitness * witnessScaleFactor then
    .error (.invalid .blkLength)
  else if ¬ block.vtx.head?.any Transaction.isCoinBase then .error (.invalid .cbMissing)
  else if block.vtx.tail.any Transaction.isCoinBase then .error (.invalid .cbMultiple)
  else (run checkBlockTx () block.vtx).bind fun _ =>
    if exceedsLegacySigops R block.vtx then .error (.invalid .blkSigops) else .ok ()

/-- `CheckBlock`, without the flag that remembers an earlier success. -/
def checkBlock (block : Block) (fCheckPOW fCheckMerkleRoot : Bool) : Except BlockFailure Unit :=
  if fCheckPOW && !R.checkProofOfWork block.header then .error (.invalid .highHash)
  else if P.signetBlocks && fCheckPOW && !R.checkSignetBlockSolution block then
    .error (.invalid .signetBlksig)
  else (if fCheckMerkleRoot then checkMerkleRoot R block else .ok ()).bind fun _ =>
    checkBlockBody R block

variable {R P}

/-- What `CheckBlock` guarantees about the transactions of an accepted block. -/
structure CheckedBlock (cb : Transaction) (rest : List Transaction) : Prop where
  coinbase : cb.isCoinBase = true
  others : ∀ tx ∈ rest, tx.isCoinBase = false
  length_le : (cb :: rest).length * witnessScaleFactor ≤ maxBlockWeight
  checked : ∀ tx ∈ cb :: rest, CheckedTx tx

private theorem checkBlockTxs_ok {vtx : List Transaction} (h : run checkBlockTx () vtx = .ok ()) :
    ∀ tx ∈ vtx, CheckedTx tx := by
  induction vtx with
  | nil => simp
  | cons tx vtx ih =>
    obtain ⟨_, htx, hrest⟩ := run_cons_ok_iff.mp h
    rw [List.forall_mem_cons]
    exact ⟨checkTransaction_ok (mapError_eq_ok_iff.mp htx), ih hrest⟩

theorem checkBlockBody_ok {block : Block} (h : checkBlockBody R block = .ok ()) :
    ∃ cb rest, block.vtx = cb :: rest ∧ CheckedBlock cb rest := by
  unfold checkBlockBody at h
  split at h
  · cases h
  rename_i hlen
  split at h
  · cases h
  rename_i hcb
  split at h
  · cases h
  rename_i hmulti
  cases hv : block.vtx with
  | nil => simp [hv] at hlen
  | cons cb rest =>
    obtain ⟨_, htxs, -⟩ := bind_eq_ok_iff.mp h
    rw [hv] at hlen hcb hmulti htxs
    refine ⟨cb, rest, rfl, by simpa using hcb, by simpa using hmulti, ?_, checkBlockTxs_ok htxs⟩
    rw [not_or, not_or] at hlen
    exact not_lt.mp hlen.2.1

theorem checkBlock_ok {block : Block} {pow merkle : Bool}
    (h : checkBlock R P block pow merkle = .ok ()) :
    ∃ cb rest, block.vtx = cb :: rest ∧ CheckedBlock cb rest := by
  unfold checkBlock at h
  split at h
  · cases h
  split at h
  · cases h
  obtain ⟨_, -, hbody⟩ := bind_eq_ok_iff.mp h
  exact checkBlockBody_ok hbody

end CheckBlock

end Tarcoin
