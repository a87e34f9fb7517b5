import Tarcoin.Primitives.Transaction

/-! Headers and blocks of `primitives/block.h`. An index entry stands at the head of the list of
its ancestors. -/
namespace Tarcoin

structure BlockHeader where
  nVersion : Int32
  hashPrevBlock : Uint256
  hashMerkleRoot : Uint256
  nTime : UInt32
  nBits : UInt32
  nNonce : UInt32
  deriving DecidableEq

structure Block where
  header : BlockHeader
  vtx : List Transaction
  deriving DecidableEq

/-- `GetSerializeSize(TX_NO_WITNESS(block))`: the 80 byte header, the transaction count
and the transactions. -/
def Block.serializeSizeNoWitness (b : Block) : ℕ :=
  80 + sizeOfCompactSize b.vtx.length + (b.vtx.map Transaction.serializeSizeNoWitness).sum

structure BlockIndex where
  hash : Uint256
  nVersion : Int32
  nTime : UInt32
  nBits : UInt32
  deriving DecidableEq

def BlockIndex.blockTime (b : BlockIndex) : ℤ := b.nTime.toNat

def BlockHeader.blockTime (b : BlockHeader) : ℤ := b.nTime.toNat

/-- A `CBlockIndex` with its ancestors, newest first; `[]` is the null pointer. -/
abbrev Chain := List BlockIndex

namespace Chain

/-- The height of a block whose `pprev` is this entry. -/
def nextHeight (pprev : Chain) : ℕ := pprev.length

def getAncestor (pindex : Chain) (height : ℕ) : Option BlockIndex := pindex.reverse[height]?

/-- `GetBlockHash` through the pointer, with the null hash for a null pointer. -/
def tipHash : Chain → Uint256
  | [] => 0
  | pindex :: _ => pindex.hash

/-- `GetMedianTimePast`: the middle one of the last eleven times, sorted. -/
def medianTimePast (pindex : Chain) : ℤ :=
  let times := ((pindex.take 11).map BlockIndex.blockTime).insertionSort (· ≤ ·)
  times.getD (times.length / 2) 0

end Chain

end Tarcoin
