import Tarcoin.Validation.ConnectBlock

/-! `ApplyTxInUndo` and `Chainstate::DisconnectBlock` of `validation.cpp`, over the UTXO map. -/
namespace Tarcoin
open FallibleRun

inductive DisconnectResult where
  | ok | unclean | failed
  deriving DecidableEq, Repr

inductive DisconnectStop where
  | failed
  | fault (f : Fault)
  deriving DecidableEq, Repr

/-- `MAX_OUTPUTS_PER_BLOCK`; an empty output takes nine bytes. -/
def maxOutputsPerBlock : ℕ := maxBlockWeight / (witnessScaleFactor * 9)

/-- `AccessByTxid`: the first unspent output of the transaction. -/
def accessByTxid (m : UtxoMap) (txid : Uint256) : Coin :=
  match (List.range maxOutputsPerBlock).find? fun n => m.haveCoin ⟨txid, n⟩ with
  | some n => m.accessCoin ⟨txid, n⟩
  | none => Coin.empty

/-- The coin to restore. Old undo files have the metadata of a transaction only with the last spend
of its outputs, so that it must be with some output that is there. -/
def undoneCoin (undo : Coin) (m : UtxoMap) (out : OutPoint) : Except DisconnectStop Coin :=
  if undo.nHeight = 0 then
    let alternate := accessByTxid m out.hash
    if alternate.isSpent then .error .failed
    else .ok ⟨undo.out, alternate.fCoinBase, alternate.nHeight⟩
  else .ok undo

/-- `ApplyTxInUndo`; the flag tells `DISCONNECT_OK` from `DISCONNECT_UNCLEAN`. -/
def applyTxInUndo (undo : Coin) (m : UtxoMap) (out : OutPoint) :
    Except DisconnectStop (Bool × UtxoMap) :=
  let fClean := !m.haveCoin out
  (undoneCoin undo m out).bind fun coin =>
    ((m.addCoin out coin (!fClean)).mapError .fault).map fun m' => (fClean, m')

/-- The locals of `DisconnectBlock`. -/
@[ext] structure DisconnectState where
  fClean : Bool
  coins : UtxoMap

/-- The block that is disconnected has outputs that a later block has overwritten. -/
def isBip30Overwritten (nHeight : ℕ) (hash : Uint256) : Bool :=
  (nHeight == 91722 &&
    hash == 0x00000000000271a2dc26e7667f8419f2e15416dc6955e5a6c6cdf3f2574dd08e) ||
  (nHeight == 91812 &&
    hash == 0x00000000000af0aed4792b1acee3d966af36cf5def14935db8de83d6f9306f2f)

def outputMatches (spent : Option Coin) (out : TxOut) (nHeight : ℕ) (isCoinbase : Bool) : Bool :=
  match spent with
  | none => false
  | some coin => out == coin.out && nHeight == coin.nHeight && isCoinbase == coin.fCoinBase

/-- The loop over the outputs of a transaction, from output number `o` on. -/
def removeOutputs (txid : Uint256) (nHeight : ℕ) (isCoinbase isBip30Exception : Bool) :
    DisconnectState → ℕ → List TxOut → DisconnectState
  | s, _, [] => s
  | s, o, out :: rest =>
    let s' :=
      if isUnspendable out.scriptPubKey then s
      else
        let clean := outputMatches (s.coins.getCoin ⟨txid, o⟩) out nHeight isCoinbase
        ⟨s.fClean && (clean || isBip30Exception), s.coins.spendCoin ⟨txid, o⟩⟩
    removeOutputs txid nHeight isCoinbase isBip30Exception s' (o + 1) rest

def restoreInput (s : DisconnectState) (a : TxIn × Coin) : Except DisconnectStop DisconnectState :=
  (applyTxInUndo a.2 s.coins a.1.prevout).map fun r => ⟨s.fClean && r.1, r.2⟩

section DisconnectBlock

variable (R : BlockRules)

def disconnectOutputs (nHeight : ℕ) (fEnforceBIP30 : Bool) (s : DisconnectState)
    (tx : Transaction) : DisconnectState :=
  removeOutputs (R.txid tx) nHeight tx.isCoinBase (tx.isCoinBase && !fEnforceBIP30) s 0 tx.vout

/-- One turn of the loop over the transactions, for all but the first one. -/
def disconnectTx (nHeight : ℕ) (fEnforceBIP30 : Bool) (s : DisconnectState)
    (a : Transaction × TxUndo) : Except DisconnectStop DisconnectState :=
  let s' := disconnectOutputs R nHeight fEnforceBIP30 s a.1
  if a.2.length ≠ a.1.vin.length then .error .failed
  else run restoreInput s' (a.1.vin.zip a.2).reverse

/-- The loop over the transactions, last one first. -/
def disconnectTxs (nHeight : ℕ) (fEnforceBIP30 : Bool) (m : UtxoMap) (vtx : List Transaction)
    (blockUndo : BlockUndo) : Except DisconnectStop DisconnectState :=
  match vtx with
  | [] => .error .failed
  | cb :: rest =>
    if blockUndo.length ≠ rest.length then .error .failed
    else (run (disconnectTx R nHeight fEnforceBIP30) ⟨true, m⟩ (rest.zip blockUndo).reverse).map
      fun s => disconnectOutputs R nHeight fEnforceBIP30 s cb

/-- `DisconnectBlock` of a block on top of `pprev`, with the file that the undo data is read from.
When it fails the view is of no use, and none of the callers uses it. -/
def disconnectBlock (D : UndoRules) (pprev : Chain) (view : ChainView) (block : Block)
    (undoFile : List UInt8) : Except Fault (DisconnectResult × ChainView) :=
  match readBlockUndo D pprev.tipHash undoFile with
  | none => .ok (.failed, view)
  | some blockUndo =>
    let fEnforceBIP30 := !isBip30Overwritten pprev.nextHeight (R.blockHash block.header)
    match disconnectTxs R pprev.nextHeight fEnforceBIP30 view.coins block.vtx blockUndo with
    | .error .failed => .ok (.failed, view)
    | .error (.fault f) => .error f
    | .ok s => .ok (if s.fClean then .ok else .unclean, ⟨s.coins, pprev.tipHash⟩)

end DisconnectBlock

end Tarcoin
