import Tarcoin.Foundations.FiniteReach
import Tarcoin.Primitives.Transaction

/-! `policy/truc_policy.cpp`: transactions of version 3 stay in clusters of one parent and one
child. In `CTxMemPool`, ancestors and descendants are what the spending of outputs reaches. -/
namespace Tarcoin
open FiniteReach

section Spends

variable (txid : Transaction → Uint256)

def Spends (p c : Transaction) : Prop := txid p ∈ c.vin.map fun i => i.prevout.hash

instance : DecidableRel (Spends txid) := fun _ _ => inferInstanceAs (Decidable (_ ∈ _))

structure Mempool where
  entries : List Transaction
  nodup : (entries.map txid).Nodup

end Spends

namespace Mempool

variable {txid : Transaction → Uint256} (pool : Mempool txid)

/-- `GetParents`: the entries that a transaction spends outputs of. -/
def getParents (tx : Transaction) : List Transaction :=
  pool.entries.filter fun p => Spends txid p tx

/-- `TxGraph::GetAncestors`, the entry itself included. -/
def getAncestors (entry : Transaction) : List Transaction :=
  reach (Function.swap (Spends txid)) pool.entries entry

/-- `TxGraph::GetDescendants`, the entry itself included. -/
def calculateDescendants (entry : Transaction) : List Transaction :=
  reach (Spends txid) pool.entries entry

def getAncestorCount (entry : Transaction) : ℕ := (pool.getAncestors entry).length

def getDescendantCount (entry : Transaction) : ℕ := (pool.calculateDescendants entry).length

def directConflicts (tx : Transaction) : List Uint256 :=
  (pool.entries.filter fun c =>
    ∃ o ∈ tx.vin.map (fun i => i.prevout), o ∈ c.vin.map fun i => i.prevout).map txid

/-- The conflicts that a replacement removes, and all that descend from them. -/
def isRemoved (conflicts : List Uint256) (entry : Transaction) : Bool :=
  pool.entries.any fun c => txid c ∈ conflicts ∧ entry ∈ pool.calculateDescendants c

def removeConflicts (conflicts : List Uint256) : Mempool txid where
  entries := pool.entries.filter fun e => !pool.isRemoved conflicts e
  nodup := pool.nodup.sublist (List.filter_sublist.map txid)

/-- `addNewTransaction`: an entry is added under its id, if there is none. -/
def add (tx : Transaction) : Mempool txid :=
  if h : txid tx ∈ pool.entries.map txid then pool
  else ⟨tx :: pool.entries, List.nodup_cons.mpr ⟨h, pool.nodup⟩⟩

def addAll (txs : List Transaction) : Mempool txid := txs.foldl add pool

end Mempool

def trucVersion : ℕ := 3
def trucAncestorLimit : ℕ := 2
def trucDescendantLimit : ℕ := 2
def trucMaxVsize : ℤ := 10000
def trucChildMaxVsize : ℤ := 1000

def Transaction.isTruc (tx : Transaction) : Prop := tx.version = trucVersion

instance (tx : Transaction) : Decidable tx.isTruc := inferInstanceAs (Decidable (_ = _))

/-- A violated rule, with the transactions and sizes that its text names. -/
inductive TrucError where
  | tooBig (tx : Transaction) (vsize : ℤ)
  | childTooBig (tx : Transaction) (vsize : ℤ)
  | tooManyAncestors (tx : Transaction)
  | spendsNonTruc (tx parent : Transaction)
  | spendsTruc (tx parent : Transaction)
  | descendantLimit (parent : Transaction)
  deriving DecidableEq

section Checks

variable {txid : Transaction → Uint256} (pool : Mempool txid) (ptx : Transaction)

section Package

variable (package : List Transaction)

/-- The positions of the direct parents of a transaction in its package. Transactions of a package
are told apart by address in the source; no two of them are equal. -/
def findInPackageParentsFrom (txid : Transaction → Uint256) (ptx : Transaction) :
    ℕ → List Transaction → List ℕ
  | _, [] => []
  | i, tx :: rest =>
    if tx = ptx then []
    else if Spends txid tx ptx then i :: findInPackageParentsFrom txid ptx (i + 1) rest
    else findInPackageParentsFrom txid ptx (i + 1) rest

def findInPackageParents (txid : Transaction → Uint256) : List ℕ :=
  findInPackageParentsFrom txid ptx 0 package

/-- What is asked about the parent: its id and version are read off the transaction. -/
structure ParentInfo where
  tx : Transaction
  hasMempoolDescendant : Bool

/-- The parent in the pool if there is one, otherwise the one in the package. -/
def parentInfo (mempoolParents inPackageParents : List Transaction) : Option ParentInfo :=
  match mempoolParents with
  | p :: _ => some ⟨p, 1 < pool.getDescendantCount p⟩
  | [] => inPackageParents.head?.map fun p => ⟨p, false⟩

/-- The inputs of the other transactions of the package, each against the parent and against the
transaction itself. -/
def packageRelatives (txid : Transaction → Uint256) (parent : Transaction) : Option TrucError :=
  (package.filter fun tx => tx ≠ ptx).findSome? fun tx => tx.vin.findSome? fun input =>
    if input.prevout.hash = txid parent then some (.descendantLimit parent)
    else if input.prevout.hash = txid ptx then some (.tooManyAncestors tx)
    else none

def packageTRUCChecks (vsize : ℤ) (mempoolParents : List Transaction) : Option TrucError :=
  let indices := findInPackageParents ptx package txid
  let inPackageParents := indices.filterMap fun i => package[i]?
  if ptx.isTruc then
    if trucMaxVsize < vsize then some (.tooBig ptx vsize)
    else if trucAncestorLimit < mempoolParents.length + indices.length + 1 then
      some (.tooManyAncestors ptx)
    else if mempoolParents.head?.any fun p =>
        trucAncestorLimit < pool.getAncestorCount p + indices.length + 1 then
      some (.tooManyAncestors ptx)
    else match parentInfo pool mempoolParents inPackageParents with
      | none => none
      | some parent =>
        if trucChildMaxVsize < vsize then some (.childTooBig ptx vsize)
        else if ¬ parent.tx.isTruc then some (.spendsNonTruc ptx parent.tx)
        else (packageRelatives ptx package txid parent.tx).or
          (if parent.hasMempoolDescendant then some (.descendantLimit parent.tx) else none)
  else ((mempoolParents ++ inPackageParents).find? fun p => p.isTruc).map (.spendsTruc ptx)

end Package

/-- `SingleTRUCChecks`: a violated rule and, where its eviction may be considered, the sibling. -/
def singleTRUCChecks (mempoolParents : List Transaction) (directConflicts : List Uint256)
    (vsize : ℤ) : Option (TrucError × Option Transaction) :=
  let inheritance := mempoolParents.findSome? fun p =>
    if ¬ ptx.isTruc ∧ p.isTruc then some (TrucError.spendsTruc ptx p)
    else if ptx.isTruc ∧ ¬ p.isTruc then some (.spendsNonTruc ptx p)
    else none
  match inheritance with
  | some e => some (e, none)
  | none =>
    if ¬ ptx.isTruc then none
    else if trucMaxVsize < vsize then some (.tooBig ptx vsize, none)
    else if trucAncestorLimit < mempoolParents.length + 1 then some (.tooManyAncestors ptx, none)
    else match mempoolParents with
      | [] => none
      | parent :: _ =>
        if trucAncestorLimit < pool.getAncestorCount parent + 1 then
          some (.tooManyAncestors ptx, none)
        else if trucChildMaxVsize < vsize then some (.childTooBig ptx vsize, none)
        else
          let descendants := (pool.calculateDescendants parent).erase parent
          let childWillBeReplaced := descendants.any fun child => txid child ∈ directConflicts
          if trucDescendantLimit < pool.getDescendantCount parent + 1 ∧ ¬ childWillBeReplaced then
            some (.descendantLimit parent, descendants.head?.filter fun sibling =>
              pool.getDescendantCount parent = 2 ∧ pool.getAncestorCount sibling = 2)
          else none

end Checks

section Sorted

variable (txid : Transaction → Uint256)

/-- The loop of `IsTopoSortedPackage`, with the ids of the transaction and the later ones. -/
def isTopoSortedFrom : Finset Uint256 → List Transaction → Bool
  | _, [] => true
  | laterTxids, tx :: rest =>
    if tx.vin.any fun input => input.prevout.hash ∈ laterTxids then false
    else isTopoSortedFrom (laterTxids.erase (txid tx)) rest

def isTopoSortedPackage (txns : List Transaction) : Bool :=
  isTopoSortedFrom txid (txns.map txid).toFinset txns

end Sorted

end Tarcoin
