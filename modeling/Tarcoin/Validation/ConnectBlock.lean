import Tarcoin.Serialize.Undo
import Tarcoin.Validation.CheckBlock
import Tarcoin.Validation.Subsidy

/-! `UpdateCoins` and `Chainstate::ConnectBlock` of `validation.cpp`, over the UTXO map. -/
namespace Tarcoin
open FallibleRun

structure ChainView where
  coins : UtxoMap
  bestBlock : Uint256

def ChainView.empty : ChainView := ⟨∅, 0⟩

/-- The spending loop of `UpdateCoins`, with its assertion. -/
def spendInputs : UtxoMap → List TxIn → Except Fault (UtxoMap × TxUndo)
  | m, [] => .ok (m, [])
  | m, txin :: rest =>
    match m.getCoin txin.prevout with
    | none => .error .assertion
    | some coin => (spendInputs (m.spendCoin txin.prevout) rest).map fun r => (r.1, coin :: r.2)

/-- The loop of `AddCoins` from output number `i` on. -/
def addOutputs (txid : Uint256) (nHeight : ℕ) (fCoinbase : Bool) :
    UtxoMap → ℕ → List TxOut → Except Fault UtxoMap
  | m, _, [] => .ok m
  | m, i, out :: rest =>
    (m.addCoin ⟨txid, i⟩ ⟨out, fCoinbase, nHeight⟩ fCoinbase).bind fun m' =>
      addOutputs txid nHeight fCoinbase m' (i + 1) rest

section ConnectBlock

variable (R : BlockRules) (P : ConsensusParams)

/-- `AddCoins` without the overwrite check, as `UpdateCoins` calls it. -/
def addCoins (m : UtxoMap) (tx : Transaction) (nHeight : ℕ) : Except Fault UtxoMap :=
  addOutputs (R.txid tx) nHeight tx.isCoinBase m 0 tx.vout

def updateCoins (m : UtxoMap) (tx : Transaction) (nHeight : ℕ) :
    Except Fault (UtxoMap × TxUndo) :=
  (if tx.isCoinBase then .ok (m, []) else spendInputs m tx.vin).bind fun r =>
    (addCoins R r.1 tx nHeight).map fun m' => (m', r.2)

/-- The two historical duplicates of the parent project's chain. -/
def isBip30Repeat (nHeight : ℕ) (hash : Uint256) : Bool :=
  (nHeight == 91842 &&
    hash == 0x00000000000a4d0a398161ffc163c503763b1f4360639393e0e4c8e300e0caec) ||
  (nHeight == 91880 &&
    hash == 0x00000000000743f190a18c5577a3c2d2a1f610ae9601ac046a38084ccb7cd721)

def bip34ImpliesBip30Limit : ℕ := 1983702

/-- Whether the scan for duplicate unspent transaction ids runs. -/
def enforcesBip30 (pindex : BlockIndex) (pprev : Chain) : Bool :=
  (!isBip30Repeat pprev.nextHeight pindex.hash &&
    (pprev.getAncestor P.bip34Height).all fun b => b.hash != P.bip34Hash) ||
  decide (bip34ImpliesBip30Limit ≤ pprev.nextHeight)

def duplicatesUnspent (m : UtxoMap) (vtx : List Transaction) : Bool :=
  vtx.any fun tx => (List.range tx.vout.length).any fun o => m.haveCoin ⟨R.txid tx, o⟩

structure ConnectState where
  i : ℕ
  coins : UtxoMap
  nFees : Amount
  nSigOpsCost : ℕ
  vtxundo : BlockUndo

/-- The input checks of a transaction; the result is the new accumulated fee. -/
def connectInputs (pindex : BlockIndex) (pprev : Chain) (st : ConnectState) (tx : Transaction) :
    Except BlockFailure Amount :=
  if tx.isCoinBase then .ok st.nFees
  else ((checkTxInputs st.coins pprev.nextHeight tx).mapError BlockFailure.ofTx).bind fun txfee =>
    if ¬ MoneyRange (addAmount st.nFees txfee) then .error (.invalid .accumulatedFeeOutOfRange)
    else if ¬ R.sequenceLocks tx (tx.vin.map fun i => (st.coins.accessCoin i.prevout).nHeight)
        (pindex :: pprev) then .error (.invalid .nonfinal)
    else .ok (addAmount st.nFees txfee)

def scriptFailure (pindex : BlockIndex) (pprev : Chain) (m : UtxoMap) (tx : Transaction) :
    Option String :=
  if tx.isCoinBase then none else R.checkInputScripts tx m (pindex :: pprev)

def connectTx (pindex : BlockIndex) (pprev : Chain) (st : ConnectState) (tx : Transaction) :
    Except BlockFailure ConnectState :=
  (connectInputs R pindex pprev st tx).bind fun nFees =>
    let cost := st.nSigOpsCost + R.transactionSigOpCost tx st.coins (pindex :: pprev)
    if maxBlockSigopsCost < cost then .error (.invalid .blkSigops)
    else match scriptFailure R pindex pprev st.coins tx with
      | some reason => .error (.invalid (.script reason))
      | none => ((updateCoins R st.coins tx pprev.nextHeight).mapError .fault).map fun r =>
          { i := st.i + 1
            coins := r.1
            nFees := nFees
            nSigOpsCost := cost
            vtxundo := if st.i = 0 then st.vtxundo else st.vtxundo ++ [r.2] }

def indexOf (header : BlockHeader) : BlockIndex :=
  ⟨R.blockHash header, header.nVersion, header.nTime, header.nBits⟩

def coinbaseValueOut (block : Block) : Except TxFailure Amount :=
  match block.vtx with
  | [] => .error (.fault .assertion)
  | cb :: _ => getValueOut cb

/-- The view after the block and the undo data written for it. -/
structure Connected where
  view : ChainView
  undo : Option BlockUndo

/-- The part of `ConnectBlock` behind the genesis special case. -/
def connectTxs (pprev : Chain) (view : ChainView) (block : Block) (fJustCheck : Bool) :
    Except BlockFailure Connected :=
  let pindex := indexOf R block.header
  if enforcesBip30 P pindex pprev && duplicatesUnspent R view.coins block.vtx then
    .error (.invalid .bip30)
  else (run (connectTx R pindex pprev) ⟨0, view.coins, 0, 0, []⟩ block.vtx).bind fun st =>
    ((coinbaseValueOut block).mapError BlockFailure.ofTx).bind fun valueOut =>
      if addAmount st.nFees (getBlockSubsidy pprev.nextHeight P) < valueOut then
        .error (.invalid .cbAmount)
      else if fJustCheck then .ok ⟨⟨st.coins, view.bestBlock⟩, none⟩
      else .ok ⟨⟨st.coins, pindex.hash⟩, some st.vtxundo⟩

def connectBlock (pprev : Chain) (view : ChainView) (block : Block) (fJustCheck : Bool) :
    Except BlockFailure Connected :=
  ((checkBlock R P block (!fJustCheck) (!fJustCheck)).mapError fun
    | .invalid reason => if reason.isMutated then .fatalError else .invalid reason
    | e => e).bind fun _ =>
  if pprev.tipHash ≠ view.bestBlock then .error (.fault .assertion)
  else if R.blockHash block.header = P.hashGenesisBlock then
    .ok ⟨if fJustCheck then view else { view with bestBlock := R.blockHash block.header }, none⟩
  else if pprev = [] then .error (.fault .assertion)
  else connectTxs R P pprev view block fJustCheck

def connectTip (s : Chain × ChainView) (block : Block) : Except BlockFailure (Chain × ChainView) :=
  (connectBlock R P s.1 s.2 block false).map fun c => (indexOf R block.header :: s.1, c.view)

/-- Connect a list of blocks, the oldest first, to a chainstate without any block. The
first one can only be the genesis block. -/
def connectChain (blocks : List Block) : Except BlockFailure (Chain × ChainView) :=
  run (connectTip R P) ([], ChainView.empty) blocks

end ConnectBlock

section Inversion

variable {R : BlockRules} {P : ConsensusParams}

variable {m m' : UtxoMap} {vin : List TxIn} {undo : TxUndo} {tx : Transaction} {h : ℕ}
  {pindex : BlockIndex} {pprev : Chain} {st : ConnectState}

theorem spendInputs_cons_ok {txin : TxIn} {r : UtxoMap × TxUndo}
    (h : spendInputs m (txin :: vin) = .ok r) :
    ∃ c : UnspentCoin, ∃ undo, m.lookup txin.prevout = some c ∧
      spendInputs (m.spendCoin txin.prevout) vin = .ok (r.1, undo) ∧ r.2 = c.val :: undo := by
  unfold spendInputs at h
  split at h
  · cases h
  rename_i coin hcoin
  obtain ⟨c, hl, rfl⟩ := getCoin_eq_some hcoin
  obtain ⟨⟨m', undo⟩, hs, rfl⟩ := map_eq_ok_iff.mp h
  exact ⟨c, undo, hl, hs, rfl⟩

theorem spendInputs_undo (hnd : (vin.map TxIn.prevout).Nodup)
    (h : spendInputs m vin = .ok (m', undo)) : undo = vin.map fun i => m.accessCoin i.prevout := by
  induction vin generalizing m undo with
  | nil =>
    obtain ⟨-, rfl⟩ := Prod.mk.inj (Except.ok.inj h)
    rfl
  | cons txin vin ih =>
    obtain ⟨c, rest, hl, hs, rfl⟩ := spendInputs_cons_ok h
    rw [List.map_cons, List.nodup_cons] at hnd
    rw [List.map_cons, UtxoMap.accessCoin_of_lookup hl, ih hnd.2 hs]
    congr 1
    apply List.map_congr_left
    intro i hi
    have hne : i.prevout ≠ txin.prevout := by
      intro he
      exact hnd.1 (he ▸ List.mem_map_of_mem hi)
    simp [UtxoMap.accessCoin, UtxoMap.getCoin, UtxoMap.spendCoin, Finmap.lookup_erase_ne hne]

theorem updateCoins_coinbase_ok (hcb : tx.isCoinBase = true)
    (hu : updateCoins R m tx h = .ok (m', undo)) : undo = [] ∧ addCoins R m tx h = .ok m' := by
  unfold updateCoins at hu
  rw [if_pos hcb] at hu
  obtain ⟨_, hm, heq⟩ := map_eq_ok_iff.mp hu
  cases heq
  exact ⟨rfl, hm⟩

theorem updateCoins_ok (hcb : tx.isCoinBase = false) (hu : updateCoins R m tx h = .ok (m', undo)) :
    ∃ m₁, spendInputs m tx.vin = .ok (m₁, undo) ∧ addCoins R m₁ tx h = .ok m' := by
  unfold updateCoins at hu
  rw [if_neg (by simp [hcb])] at hu
  obtain ⟨⟨m₁, cs⟩, hs, hmap⟩ := bind_eq_ok_iff.mp hu
  obtain ⟨_, hm, heq⟩ := map_eq_ok_iff.mp hmap
  cases heq
  exact ⟨m₁, hs, hm⟩

theorem getCoin_of_not_duplicatesUnspent {vtx : List Transaction}
    (hdup : duplicatesUnspent R m vtx = false) (htx : tx ∈ vtx) {k : ℕ} (hk : k < tx.vout.length) :
    m.getCoin ⟨R.txid tx, k⟩ = none := by
  simp only [duplicatesUnspent, List.any_eq_false, Bool.not_eq_true, UtxoMap.haveCoin_eq] at hdup
  simpa using hdup tx htx k (List.mem_range.mpr hk)

theorem connectTx_ok {st' : ConnectState} (h : connectTx R pindex pprev st tx = .ok st') :
    connectInputs R pindex pprev st tx = .ok st'.nFees ∧
      ∃ undo, updateCoins R st.coins tx pprev.nextHeight = .ok (st'.coins, undo) ∧
        st'.i = st.i + 1 ∧
        st'.vtxundo = if st.i = 0 then st.vtxundo else st.vtxundo ++ [undo] := by
  unfold connectTx at h
  obtain ⟨nFees, hin, h⟩ := bind_eq_ok_iff.mp h
  simp only at h
  split at h
  · cases h
  split at h
  · cases h
  obtain ⟨⟨m, undo⟩, hu, rfl⟩ := map_eq_ok_iff.mp h
  exact ⟨hin, undo, mapError_eq_ok_iff.mp hu, rfl, rfl⟩

theorem connectInputs_ok {nFees : Amount} (hcb : tx.isCoinBase = false)
    (h : connectInputs R pindex pprev st tx = .ok nFees) :
    ∃ txfee, checkTxInputs st.coins pprev.nextHeight tx = .ok txfee ∧
      MoneyRange nFees ∧ nFees = addAmount st.nFees txfee := by
  unfold connectInputs at h
  rw [if_neg (by simp [hcb])] at h
  obtain ⟨txfee, hfee, h⟩ := bind_eq_ok_iff.mp h
  split at h
  · cases h
  rename_i hr
  split at h
  · cases h
  cases h
  exact ⟨txfee, mapError_eq_ok_iff.mp hfee, not_not.mp hr, rfl⟩

/-- A connected block is the genesis block, which changes no coin, or a checked block
whose transactions all passed the loop and whose coinbase stays within the reward. -/
theorem connectBlock_ok {view : ChainView} {block : Block} {c : Connected}
    (h : connectBlock R P pprev view block false = .ok c) :
    pprev.tipHash = view.bestBlock ∧ c.view.bestBlock = R.blockHash block.header ∧
    ∃ cb rest, block.vtx = cb :: rest ∧ CheckedBlock cb rest ∧
      ((R.blockHash block.header = P.hashGenesisBlock ∧ c.view.coins = view.coins ∧
          c.undo = none) ∨
        (pprev ≠ [] ∧
          (enforcesBip30 P (indexOf R block.header) pprev = true →
            duplicatesUnspent R view.coins block.vtx = false) ∧
          ∃ st, run (connectTx R (indexOf R block.header) pprev) ⟨0, view.coins, 0, 0, []⟩
              block.vtx = .ok st ∧
            totalValue cb.vout ≤ addAmount st.nFees (getBlockSubsidy pprev.nextHeight P) ∧
            c.view.coins = st.coins ∧ c.undo = some st.vtxundo)) := by
  unfold connectBlock at h
  obtain ⟨_, hcheck, h⟩ := bind_eq_ok_iff.mp h
  obtain ⟨cb, rest, hv, hchecked⟩ := checkBlock_ok (mapError_eq_ok_iff.mp hcheck)
  split at h
  · cases h
  rename_i htip
  split at h
  · rename_i hg
    cases h
    exact ⟨not_not.mp htip, rfl, cb, rest, hv, hchecked, .inl ⟨hg, rfl, rfl⟩⟩
  split at h
  · cases h
  rename_i hne
  unfold connectTxs at h
  simp only at h
  split at h
  · cases h
  rename_i hbip
  obtain ⟨st, hrun, h⟩ := bind_eq_ok_iff.mp h
  obtain ⟨valueOut, hval, h⟩ := bind_eq_ok_iff.mp h
  split at h
  · cases h
  rename_i hamount
  cases h
  refine ⟨not_not.mp htip, rfl, cb, rest, hv, hchecked,
    .inr ⟨hne, ?_, st, hrun, ?_, rfl, rfl⟩⟩
  · intro he
    simpa [he] using hbip
  · have hval' := mapError_eq_ok_iff.mp hval
    simp only [coinbaseValueOut, hv,
      getValueOut_of_checked (hchecked.checked cb List.mem_cons_self)] at hval'
    cases hval'
    exact not_lt.mp hamount

end Inversion

end Tarcoin
