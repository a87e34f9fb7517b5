import Tarcoin.Serialize.TxCodec
import Tarcoin.Validation.DisconnectTx
import Tarcoin.Validation.Supply

/-! `AddCoins` never meets an unspent coin: a transaction that occurs again in a block would spend
again what its first occurrence has spent, and those coins can only come back with a transaction
that itself occurs again, earlier. -/
namespace Tarcoin
open FallibleRun

section Calls

variable (R : BlockRules) (P : ConsensusParams)

/-- The map that `AddCoins` is called on in a turn of the transaction loop, if the turn gets that
far. -/
def addCoinsMap (pindex : BlockIndex) (pprev : Chain) (st : ConnectState) (tx : Transaction) :
    Option UtxoMap :=
  match connectInputs R pindex pprev st tx with
  | .error _ => none
  | .ok _ =>
    if maxBlockSigopsCost <
        st.nSigOpsCost + R.transactionSigOpCost tx st.coins (pindex :: pprev) then none
    else if (scriptFailure R pindex pprev st.coins tx).isSome then none
    else if tx.isCoinBase then some st.coins
    else match spendInputs st.coins tx.vin with
      | .error _ => none
      | .ok r => some r.1

/-- The calls of `AddCoins` in the transaction loop: whose outputs, and on which map. -/
def addCoinsCallsFrom (pindex : BlockIndex) (pprev : Chain) :
    ConnectState → List Transaction → List (Transaction × UtxoMap)
  | _, [] => []
  | st, tx :: rest =>
    ((addCoinsMap R pindex pprev st tx).map fun m => (tx, m)).toList ++
      match connectTx R pindex pprev st tx with
      | .error _ => []
      | .ok st' => addCoinsCallsFrom pindex pprev st' rest

/-- Whether `ConnectBlock` gets to its transaction loop. -/
def entersTxLoop (s : Chain × ChainView) (block : Block) : Bool :=
  (checkBlock R P block true true).isOk && s.1.tipHash == s.2.bestBlock &&
    R.blockHash block.header != P.hashGenesisBlock && !s.1.isEmpty &&
    !(enforcesBip30 P (indexOf R block.header) s.1 && duplicatesUnspent R s.2.coins block.vtx)

/-- The calls of `AddCoins` while a block is connected. -/
def addCoinsCalls (s : Chain × ChainView) (block : Block) : List (Transaction × UtxoMap) :=
  if entersTxLoop R P s block then
    addCoinsCallsFrom R (indexOf R block.header) s.1 ⟨0, s.2.coins, 0, 0, []⟩ block.vtx
  else []

end Calls

section Outputs

variable {txid : Uint256} {h : ℕ} {cb : Bool} {m m₁ : UtxoMap} {outs : List TxOut}

theorem addOutputs_take_getCoin {k : ℕ} (hadd : addOutputs txid h cb m 0 (outs.take k) = .ok m₁) :
    m₁.getCoin ⟨txid, k⟩ = m.getCoin ⟨txid, k⟩ := by
  have hnone : createdCoin txid h cb 0 (outs.take k) ⟨txid, k⟩ = none := by
    by_contra hne
    obtain ⟨c, hc⟩ := Option.ne_none_iff_exists'.mp hne
    obtain ⟨-, j, out, hj, hout, -⟩ := createdCoin_eq_some_iff.mp hc
    have hlt := (List.getElem?_eq_some_iff.mp hout).1
    rw [List.length_take] at hlt
    simp only at hj
    omega
  rw [(addOutputs_getCoin hadd).1, hnone, Option.none_or]

theorem addOutputs_ne_logicError {i : ℕ}
    (hfree : ∀ k < outs.length, m.getCoin ⟨txid, i + k⟩ = none) :
    addOutputs txid h cb m i outs ≠ .error .logicError := by
  induction outs generalizing m i with
  | nil => simp [addOutputs]
  | cons out outs ih =>
    intro herr
    obtain hfirst | ⟨m', hfirst, hrest⟩ := bind_eq_error_iff.mp herr
    · have hnone : m.haveCoin ⟨txid, i⟩ = false := by
        have hzero := hfree 0 (by simp)
        rw [Nat.add_zero] at hzero
        rw [UtxoMap.haveCoin_eq, hzero, Option.isSome_none]
      unfold UtxoMap.addCoin at hfirst
      simp only [hnone, Bool.and_false, Bool.false_eq_true, if_false] at hfirst
      split_ifs at hfirst
      cases hfirst
    · refine ih ?_ hrest
      intro k hk
      have hsucc := hfree (k + 1) (by simpa using hk)
      have hne : (⟨txid, i + 1 + k⟩ : OutPoint) ≠ ⟨txid, i⟩ := by
        intro heq
        have hn := (OutPoint.mk.inj heq).2
        omega
      rw [UtxoMap.getCoin_addCoin hfirst, if_neg fun hand => hne hand.1, ← hsucc]
      congr 2
      omega

theorem spendInputs_ne_logicError (m : UtxoMap) (vin : List TxIn) :
    spendInputs m vin ≠ .error .logicError := by
  induction vin generalizing m with
  | nil => simp [spendInputs]
  | cons txin vin ih =>
    unfold spendInputs
    split
    · simp
    · rw [Ne, map_eq_error_iff]
      exact ih _

end Outputs

theorem isCoinBase_congr {a b : Transaction}
    (h : a.vin.map TxIn.prevout = b.vin.map TxIn.prevout) : a.isCoinBase = b.isCoinBase := by
  unfold Transaction.isCoinBase
  rcases ha : a.vin with _ | ⟨i, _ | ⟨j, rest⟩⟩ <;>
    rcases hb : b.vin with _ | ⟨i', _ | ⟨j', rest'⟩⟩ <;> simp_all

section Block

variable {R : BlockRules} {m₀ m m₁ m₂ : UtxoMap} {done : List Transaction} {tx : Transaction}

/-- Where the coins of the map come from once the transactions `done` of a block have been
connected to the map `m₀`, and that what they have spent is gone. -/
structure DistinctRun (R : BlockRules) (m₀ : UtxoMap) (done : List Transaction) (m : UtxoMap) :
    Prop where
  origin : ∀ p, m.getCoin p ≠ none → m₀.getCoin p ≠ none ∨ ∃ t ∈ done, R.txid t = p.hash
  spent : ∀ t ∈ done, t.isCoinBase = false → ∀ i ∈ t.vin, m.getCoin i.prevout = none
  known : ∀ t ∈ done, t.isCoinBase = false → ∀ i ∈ t.vin,
    m₀.getCoin i.prevout ≠ none ∨ ∃ t ∈ done, R.txid t = i.prevout.hash

def Vacant (R : BlockRules) (m : UtxoMap) (tx : Transaction) : Prop :=
  ∀ k < tx.vout.length, m.getCoin ⟨R.txid tx, k⟩ = none

variable {h : ℕ}

/-- A transaction whose inputs are all there is none of those that were connected before: the
first of its inputs would be gone. -/
theorem DistinctRun.txid_new (hd : DistinctRun R m₀ done m) (hcb : tx.isCoinBase = false)
    (hvin : tx.vin ≠ []) (hin : ∀ i ∈ tx.vin, m.getCoin i.prevout ≠ none)
    (hinj : ∀ t ∈ done, R.txid t = R.txid tx → t.withoutWitness = tx.withoutWitness) :
    ∀ t ∈ done, R.txid t ≠ R.txid tx := by
  intro t ht heq
  have hsame := hinj t ht heq
  have hprevouts : t.vin.map TxIn.prevout = tx.vin.map TxIn.prevout := by
    have hmap := congrArg (fun u : Transaction => u.vin.map TxIn.prevout) hsame
    simpa [Transaction.withoutWitness, Function.comp_def, TxIn.withoutWitness] using hmap
  obtain ⟨i, rest, hi⟩ := List.exists_cons_of_ne_nil hvin
  have hmem : i.prevout ∈ t.vin.map TxIn.prevout := by
    rw [hprevouts, hi]
    exact List.mem_cons_self
  obtain ⟨j, hj, hjp⟩ := List.mem_map.mp hmem
  refine hin i (by rw [hi]; exact List.mem_cons_self) ?_
  rw [← hjp]
  exact hd.spent t ht (by rw [isCoinBase_congr hprevouts, hcb]) j hj

theorem DistinctRun.vacant (hd : DistinctRun R m₀ done m) (hfree : Vacant R m₀ tx)
    (hnew : ∀ t ∈ done, R.txid t ≠ R.txid tx) : Vacant R m tx := by
  intro k hk
  by_contra hne
  rcases hd.origin _ hne with h₀ | ⟨t, ht, heq⟩
  · exact h₀ (hfree k hk)
  · exact hnew t ht heq

theorem DistinctRun.coinbase (hcb : tx.isCoinBase = true) (hadd : addCoins R m₀ tx h = .ok m) :
    DistinctRun R m₀ [tx] m where
  origin p hp := by
    rw [(addOutputs_getCoin hadd).1] at hp
    cases hc : createdCoin (R.txid tx) h tx.isCoinBase 0 tx.vout p with
    | some c => exact .inr ⟨tx, List.mem_singleton_self tx, (createdCoin_eq_some_iff.mp hc).1.symm⟩
    | none =>
      rw [hc] at hp
      exact .inl hp
  spent t ht hnot := by
    rw [List.mem_singleton.mp ht, hcb] at hnot
    cases hnot
  known t ht hnot := by
    rw [List.mem_singleton.mp ht, hcb] at hnot
    cases hnot

theorem DistinctRun.step {undo : TxUndo} (hd : DistinctRun R m₀ done m) (hfree : Vacant R m₀ tx)
    (hnew : ∀ t ∈ done, R.txid t ≠ R.txid tx) (hin : ∀ i ∈ tx.vin, m.getCoin i.prevout ≠ none)
    (hspend : spendInputs m tx.vin = .ok (m₁, undo)) (hadd : addCoins R m₁ tx h = .ok m₂) :
    DistinctRun R m₀ (tx :: done) m₂ := by
  have hget := (addOutputs_getCoin hadd).1
  have hback : ∀ p, m₁.getCoin p ≠ none → m.getCoin p ≠ none := by
    intro p hp
    obtain ⟨c, hc⟩ := Option.ne_none_iff_exists'.mp hp
    rw [getCoin_of_spendInputs hspend hc]
    exact Option.some_ne_none c
  have hknown : ∀ t ∈ tx :: done, t.isCoinBase = false → ∀ i ∈ t.vin,
      m₀.getCoin i.prevout ≠ none ∨ ∃ t ∈ done, R.txid t = i.prevout.hash := by
    intro t ht hcb i hi
    rcases List.mem_cons.mp ht with rfl | ht
    · exact hd.origin _ (hin i hi)
    · exact hd.known t ht hcb i hi
  refine ⟨?_, ?_, ?_⟩
  · intro p hp
    rw [hget p] at hp
    cases hc : createdCoin (R.txid tx) h tx.isCoinBase 0 tx.vout p with
    | some c => exact .inr ⟨tx, List.mem_cons_self, (createdCoin_eq_some_iff.mp hc).1.symm⟩
    | none =>
      rw [hc] at hp
      rcases hd.origin p (hback p hp) with h₀ | ⟨t, ht, heq⟩
      · exact .inl h₀
      · exact .inr ⟨t, List.mem_cons_of_mem _ ht, heq⟩
  · intro t ht hcb i hi
    have hnone : m₁.getCoin i.prevout = none := by
      rcases List.mem_cons.mp ht with rfl | ht
      · rw [spendInputs_getCoin hspend, if_pos (List.mem_map_of_mem hi)]
      · by_contra hne
        exact hback _ hne (hd.spent t ht hcb i hi)
    -- what brought the coin here the first time had an id that `tx` does not have
    have hcreated : createdCoin (R.txid tx) h tx.isCoinBase 0 tx.vout i.prevout = none := by
      by_contra hne
      obtain ⟨hhash, h₀⟩ := getCoin_of_createdCoin hfree hne
      rcases hknown t ht hcb i hi with h₁ | ⟨u, hu, heq⟩
      · exact h₁ h₀
      · exact hnew u hu (heq.trans hhash)
    rw [hget, hcreated, hnone, Option.none_or]
  · intro t ht hcb i hi
    rcases hknown t ht hcb i hi with h₀ | ⟨u, hu, heq⟩
    · exact .inl h₀
    · exact .inr ⟨u, List.mem_cons_of_mem _ hu, heq⟩

end Block

section Turns

variable {R : BlockRules} {pindex : BlockIndex} {pprev : Chain} {st st' : ConnectState}
  {tx : Transaction} {m m₀ : UtxoMap} {done : List Transaction}

theorem addCoinsMap_eq_some (h : addCoinsMap R pindex pprev st tx = some m) :
    (∃ nFees, connectInputs R pindex pprev st tx = .ok nFees) ∧
      ((tx.isCoinBase = true ∧ m = st.coins) ∨
        tx.isCoinBase = false ∧ ∃ undo, spendInputs st.coins tx.vin = .ok (m, undo)) := by
  unfold addCoinsMap at h
  split at h
  · cases h
  rename_i nFees hin
  refine ⟨⟨nFees, hin⟩, ?_⟩
  split_ifs at h with hcost hscript hcb
  · exact .inl ⟨hcb, (Option.some.inj h).symm⟩
  · split at h
    · cases h
    rename_i r hs
    cases h
    exact .inr ⟨by simpa using hcb, r.2, hs⟩

theorem checkInputCoins_ne_logicError (h : ℕ) (acc : Amount) (coins : List Coin) :
    (checkInputCoins h acc coins).result ≠ .error (.fault .logicError) := by
  induction coins generalizing acc with
  | nil => simp [checkInputCoins]
  | cons c coins ih =>
    unfold checkInputCoins
    split_ifs
    · simp
    · simp
    · exact ih _
    · simp

variable {h : ℕ}

theorem checkTxInputs_ne_logicError (hchk : CheckedTx tx) :
    checkTxInputs m h tx ≠ .error (.fault .logicError) := by
  unfold checkTxInputs checkTxInputsRun
  split_ifs
  · simp only [getValueOut_of_checked hchk]
    refine bind_ne_error (checkInputCoins_ne_logicError _ _ _) fun _ => ?_
    simp only [Except.bind, tallyFee]
    split_ifs <;> simp
  · simp

theorem connectInputs_ne_logicError (hchk : CheckedTx tx) :
    connectInputs R pindex pprev st tx ≠ .error (.fault .logicError) := by
  unfold connectInputs
  split
  · simp
  refine bind_ne_error ?_ fun _ => by split_ifs <;> simp
  intro hfee
  obtain ⟨e, he, hof⟩ := mapError_eq_error_iff.mp hfee
  cases e with
  | invalid reason => cases hof
  | fault f =>
    obtain rfl := BlockFailure.fault.inj hof
    exact checkTxInputs_ne_logicError hchk he

theorem updateCoins_logicError (herr : updateCoins R m tx h = .error .logicError) :
    ∃ m₁, ((tx.isCoinBase = true ∧ m₁ = m) ∨
        tx.isCoinBase = false ∧ ∃ undo, spendInputs m tx.vin = .ok (m₁, undo)) ∧
      addCoins R m₁ tx h = .error .logicError := by
  unfold updateCoins at herr
  split at herr
  · rename_i hcb
    obtain hok | ⟨r, hr, hadd⟩ := bind_eq_error_iff.mp herr
    · cases hok
    cases hr
    exact ⟨m, .inl ⟨hcb, rfl⟩, map_eq_error_iff.mp hadd⟩
  · rename_i hcb
    obtain hs | ⟨r, hr, hadd⟩ := bind_eq_error_iff.mp herr
    · exact absurd hs (spendInputs_ne_logicError _ _)
    · exact ⟨r.1, .inr ⟨by simpa using hcb, r.2, hr⟩, map_eq_error_iff.mp hadd⟩

theorem connectTx_ne_logicError (hchk : CheckedTx tx)
    (hfree : ∀ m, addCoinsMap R pindex pprev st tx = some m → Vacant R m tx) :
    connectTx R pindex pprev st tx ≠ .error (.fault .logicError) := by
  intro herr
  unfold connectTx at herr
  obtain hin | ⟨nFees, hin, hrest⟩ := bind_eq_error_iff.mp herr
  · exact connectInputs_ne_logicError hchk hin
  simp only at hrest
  split at hrest
  · cases hrest
  rename_i hcost
  split at hrest
  · cases hrest
  rename_i hscript
  obtain ⟨f, hupdate, hf⟩ := mapError_eq_error_iff.mp (map_eq_error_iff.mp hrest)
  obtain rfl := BlockFailure.fault.inj hf
  obtain ⟨m₁, hm₁, hadd⟩ := updateCoins_logicError hupdate
  have hmap : addCoinsMap R pindex pprev st tx = some m₁ := by
    simp only [addCoinsMap, hin, if_neg hcost, hscript, Option.isSome_none, Bool.false_eq_true,
      if_false]
    rcases hm₁ with ⟨hcb, rfl⟩ | ⟨hcb, undo, hs⟩
    · rw [if_pos hcb]
    · rw [hs, hcb, if_neg Bool.false_ne_true]
  refine addOutputs_ne_logicError ?_ hadd
  simpa [Vacant] using hfree m₁ hmap

theorem inputs_present {nFees : Amount} (hchk : CheckedTx tx) (hcb : tx.isCoinBase = false)
    (hin : connectInputs R pindex pprev st tx = .ok nFees) :
    ∀ i ∈ tx.vin, st.coins.getCoin i.prevout ≠ none := by
  obtain ⟨txfee, hfee, -⟩ := connectInputs_ok hcb hin
  have hhave := (checkTxInputs_ok hchk hfee).1
  simp only [haveInputs, hcb, Bool.false_or, List.all_eq_true] at hhave
  intro i hi
  have hcoin := hhave i hi
  rw [UtxoMap.haveCoin_eq] at hcoin
  exact Option.isSome_iff_ne_none.mp hcoin

/-- What the transactions of a block are to the map before it: none of their outputs is there,
and two with one id spend and create the same. -/
structure ScannedBlock (R : BlockRules) (m₀ : UtxoMap) (vtx : List Transaction) : Prop where
  vacant : ∀ t ∈ vtx, Vacant R m₀ t
  txid_inj : ∀ a ∈ vtx, ∀ b ∈ vtx, R.txid a = R.txid b → a.withoutWitness = b.withoutWitness

variable {vtx rest : List Transaction}

theorem Vacant.of_spendInputs {m₁ : UtxoMap} {vin : List TxIn} {undo : TxUndo}
    (hv : Vacant R m tx) (hs : spendInputs m vin = .ok (m₁, undo)) : Vacant R m₁ tx := by
  intro k hk
  by_contra hne
  obtain ⟨c, hc⟩ := Option.ne_none_iff_exists'.mp hne
  have hback := getCoin_of_spendInputs hs hc
  rw [hv k hk] at hback
  cases hback

theorem DistinctRun.turn (hd : DistinctRun R m₀ done st.coins) (hscan : ScannedBlock R m₀ vtx)
    (hdone : ∀ t ∈ done, t ∈ vtx) (htx : tx ∈ vtx) (hchk : CheckedTx tx)
    (hcb : tx.isCoinBase = false) :
    (∀ m, addCoinsMap R pindex pprev st tx = some m → Vacant R m tx) ∧
      ∀ st', connectTx R pindex pprev st tx = .ok st' →
        DistinctRun R m₀ (tx :: done) st'.coins := by
  have hnew {nFees : Amount} (hin : connectInputs R pindex pprev st tx = .ok nFees) :
      ∀ t ∈ done, R.txid t ≠ R.txid tx :=
    hd.txid_new hcb hchk.vin_ne (inputs_present hchk hcb hin)
      fun t ht => hscan.txid_inj t (hdone t ht) tx htx
  constructor
  · intro m hm
    obtain ⟨⟨nFees, hin⟩, ⟨hcb', -⟩ | ⟨-, undo, hs⟩⟩ := addCoinsMap_eq_some hm
    · rw [hcb] at hcb'
      cases hcb'
    · exact (hd.vacant (hscan.vacant tx htx) (hnew hin)).of_spendInputs hs
  · intro st' hok
    obtain ⟨hin, undo, hupdate, -⟩ := connectTx_ok hok
    obtain ⟨m₁, hs, hadd⟩ := updateCoins_ok hcb hupdate
    exact hd.step (hscan.vacant tx htx) (hnew hin) (inputs_present hchk hcb hin) hs hadd

/-- In every call of `AddCoins` from here on the outputs go to vacant places, and none throws. -/
def CallsVacant (R : BlockRules) (pindex : BlockIndex) (pprev : Chain) (st : ConnectState)
    (vtx : List Transaction) : Prop :=
  (∀ c ∈ addCoinsCallsFrom R pindex pprev st vtx, Vacant R c.2 c.1) ∧
    run (connectTx R pindex pprev) st vtx ≠ .error (.fault .logicError)

theorem callsVacant_cons (hchk : CheckedTx tx)
    (hfree : ∀ m, addCoinsMap R pindex pprev st tx = some m → Vacant R m tx)
    (hnext : ∀ st', connectTx R pindex pprev st tx = .ok st' → CallsVacant R pindex pprev st' rest) :
    CallsVacant R pindex pprev st (tx :: rest) := by
  have hno := connectTx_ne_logicError hchk hfree
  have hfirst : ∀ c ∈ ((addCoinsMap R pindex pprev st tx).map fun m => (tx, m)).toList,
      Vacant R c.2 c.1 := by
    intro c hc
    obtain ⟨m, hm, rfl⟩ := Option.map_eq_some_iff.mp (Option.mem_toList.mp hc)
    exact hfree m hm
  rw [CallsVacant, addCoinsCallsFrom, run]
  cases hturn : connectTx R pindex pprev st tx with
  | error e =>
    rw [hturn] at hno
    rw [List.append_nil]
    exact ⟨hfirst, hno⟩
  | ok st' =>
    obtain ⟨hcalls, hrun⟩ := hnext st' hturn
    exact ⟨List.forall_mem_append.mpr ⟨hfirst, hcalls⟩, hrun⟩

theorem DistinctRun.callsVacant (hd : DistinctRun R m₀ done st.coins)
    (hscan : ScannedBlock R m₀ vtx) (hdone : ∀ t ∈ done, t ∈ vtx) (hrest : ∀ t ∈ rest, t ∈ vtx)
    (hchk : ∀ t ∈ rest, CheckedTx t) (hcb : ∀ t ∈ rest, t.isCoinBase = false) :
    CallsVacant R pindex pprev st rest := by
  induction rest generalizing st done with
  | nil => simp [CallsVacant, addCoinsCallsFrom]
  | cons tx rest ih =>
    rw [List.forall_mem_cons] at hrest hchk hcb
    obtain ⟨hfree, hnext⟩ := hd.turn hscan hdone hrest.1 hchk.1 hcb.1
    refine callsVacant_cons hchk.1 hfree ?_
    intro st' hturn
    exact ih (hnext st' hturn) (List.forall_mem_cons.mpr ⟨hrest.1, hdone⟩) hrest.2 hchk.2 hcb.2

/-- The whole loop, which starts with the coinbase on the map the ids were looked up in. -/
theorem CheckedBlock.callsVacant {cb : Transaction} (hblock : CheckedBlock cb rest)
    (hscan : ScannedBlock R st.coins (cb :: rest)) :
    CallsVacant R pindex pprev st (cb :: rest) := by
  have hself : cb ∈ cb :: rest := List.mem_cons_self
  refine callsVacant_cons (hblock.checked cb hself) ?_ ?_
  · intro m hm
    obtain ⟨-, ⟨-, rfl⟩ | ⟨hcb, -⟩⟩ := addCoinsMap_eq_some hm
    · exact hscan.vacant cb hself
    · rw [hblock.coinbase] at hcb
      cases hcb
  · intro st' hturn
    obtain ⟨-, undo, hupdate, -⟩ := connectTx_ok hturn
    have hd := DistinctRun.coinbase hblock.coinbase
      (updateCoins_coinbase_ok hblock.coinbase hupdate).2
    refine hd.callsVacant hscan ?_ (fun t => List.mem_cons_of_mem cb)
      (fun t ht => hblock.checked t (List.mem_cons_of_mem cb ht)) hblock.others
    intro t ht
    rw [List.mem_singleton.mp ht]
    exact hself

end Turns

section CheckBlock

variable {R : BlockRules} {P : ConsensusParams}

theorem checkOutputs_ne_fault (acc : Amount) (outs : List TxOut) (f : Fault) :
    (checkOutputs acc outs).result ≠ .error (.fault f) := by
  induction outs generalizing acc with
  | nil => simp [checkOutputs]
  | cons out outs ih =>
    unfold checkOutputs
    split_ifs
    · simp
    · simp
    · exact ih _
    · simp

theorem checkTransaction_ne_fault (tx : Transaction) (f : Fault) :
    checkTransaction tx ≠ .error (.fault f) := by
  unfold checkTransaction checkTransactionRun
  split_ifs
  · simp
  · simp
  · simp
  · refine bind_ne_error (checkOutputs_ne_fault _ _ _) fun _ => ?_
    unfold checkInputsShape
    split_ifs <;> simp

theorem checkBlockTxs_ne_logicError (vtx : List Transaction) :
    run checkBlockTx () vtx ≠ .error (.fault .logicError) := by
  intro herr
  obtain ⟨_, tx, -, htx⟩ := exists_step_of_run_error herr
  obtain ⟨e, he, hof⟩ := mapError_eq_error_iff.mp htx
  cases e with
  | invalid reason =>
    simp only at hof
    split_ifs at hof
    cases hof
  | fault f => exact checkTransaction_ne_fault tx f he

theorem checkBlockBody_ne_logicError (block : Block) :
    checkBlockBody R block ≠ .error (.fault .logicError) := by
  unfold checkBlockBody
  split
  · simp
  split
  · simp
  split
  · simp
  refine bind_ne_error (checkBlockTxs_ne_logicError block.vtx) fun _ => ?_
  split <;> simp

theorem checkBlock_ne_logicError (block : Block) (pow merkle : Bool) :
    checkBlock R P block pow merkle ≠ .error (.fault .logicError) := by
  unfold checkBlock checkMerkleRoot
  split_ifs
  all_goals first
    | exact checkBlockBody_ne_logicError block
    | simp [Except.bind]

end CheckBlock

section Chains

variable {R : BlockRules}

variable {P : ConsensusParams} {s : Chain × ChainView} {block : Block}

theorem connectTips_chain {blocks : List Block} {s' : Chain × ChainView}
    (h : run (connectTip R P) s blocks = .ok s') :
    s'.1 = (blocks.map fun b => indexOf R b.header).reverse ++ s.1 := by
  induction blocks generalizing s with
  | nil =>
    cases h
    rfl
  | cons block blocks ih =>
    obtain ⟨s₁, htip, hrest⟩ := run_cons_ok_iff.mp h
    obtain ⟨c, -, rfl⟩ := map_eq_ok_iff.mp htip
    rw [ih hrest, List.map_cons, List.reverse_cons, List.append_assoc, List.singleton_append]

/-- Without a block of hash zero, and outside the two historical blocks, the scan always runs: the
main network's `BIP34Hash` is zero. -/
theorem enforcesBip30_main {pindex : BlockIndex} {pprev : Chain} (hhash : ∀ b ∈ pprev, b.hash ≠ 0)
    (hrepeat : isBip30Repeat pprev.nextHeight pindex.hash = false) :
    enforcesBip30 mainParams pindex pprev = true := by
  have hall : (pprev.getAncestor mainParams.bip34Height).all
      (fun b => b.hash != mainParams.bip34Hash) = true := by
    rw [Option.all_eq_true]
    intro b hb
    have hmem : b ∈ pprev := List.mem_reverse.mp (List.mem_of_getElem? hb)
    exact bne_iff_ne.mpr (hhash b hmem)
  rw [enforcesBip30, hrepeat, hall]
  rfl

theorem entersTxLoop_eq_true (h : entersTxLoop R P s block = true) :
    checkBlock R P block true true = .ok () ∧
      (enforcesBip30 P (indexOf R block.header) s.1 = true →
        duplicatesUnspent R s.2.coins block.vtx = false) := by
  simp only [entersTxLoop, Bool.and_eq_true, Bool.not_eq_true'] at h
  constructor
  · cases hcheck : checkBlock R P block true true with
    | error e => simp [hcheck, Except.isOk, Except.toBool] at h
    | ok r => rfl
  · intro he
    simpa [he] using h.2

theorem connectTip_logicError (herr : connectTip R P s block = .error (.fault .logicError)) :
    entersTxLoop R P s block = true ∧ run (connectTx R (indexOf R block.header) s.1)
      ⟨0, s.2.coins, 0, 0, []⟩ block.vtx = .error (.fault .logicError) := by
  have hconnect := map_eq_error_iff.mp herr
  unfold connectBlock at hconnect
  obtain hcheck | ⟨_, hcheck, hrest⟩ := bind_eq_error_iff.mp hconnect
  · obtain ⟨e, he, hof⟩ := mapError_eq_error_iff.mp hcheck
    cases e with
    | invalid reason =>
      simp only at hof
      split_ifs at hof
    | fault f =>
      obtain rfl := BlockFailure.fault.inj hof
      exact absurd he (checkBlock_ne_logicError block _ _)
    | fatalError => cases hof
  have hok := mapError_eq_ok_iff.mp hcheck
  obtain ⟨cb, rest, hv, hchecked⟩ := checkBlock_ok hok
  split at hrest
  · cases hrest
  rename_i htip
  split at hrest
  · cases hrest
  rename_i hgenesis
  split at hrest
  · cases hrest
  rename_i hne
  unfold connectTxs at hrest
  simp only at hrest
  split at hrest
  · cases hrest
  rename_i hbip
  constructor
  · rw [Bool.not_false] at hok
    simp only [entersTxLoop, hok, Except.isOk, Except.toBool, not_not.mp htip, beq_self_eq_true,
      Bool.true_and, Bool.and_eq_true, bne_iff_ne, Bool.not_eq_true', List.isEmpty_eq_false_iff]
    exact ⟨⟨hgenesis, hne⟩, by simpa using hbip⟩
  · obtain hrun | ⟨st, -, hend⟩ := bind_eq_error_iff.mp hrest
    · exact hrun
    · simp only [coinbaseValueOut, hv, getValueOut_of_checked (hchecked.checked cb List.mem_cons_self),
        Except.mapError, Except.bind] at hend
      split at hend <;> cases hend

/-- On the main network, with a chain of accepted blocks and a further block, none with hash zero
or a hash of `IsBIP30Repeat`: where `AddCoins` writes an output while the block is connected there
is no unspent coin, whether from an earlier block or from this one, and no logic error is thrown.
Ids are taken to be injective in what they commit to, on the transactions of the block. -/
theorem addCoins_never_overwrites (R : BlockRules) (blocks : List Block) (s : Chain × ChainView)
    (hchain : connectChain R mainParams blocks = .ok s) (block : Block)
    (htxid : ∀ a ∈ block.vtx, ∀ b ∈ block.vtx,
      R.txid a = R.txid b → a.withoutWitness = b.withoutWitness)
    (hhash : ∀ b ∈ block :: blocks, R.blockHash b.header ≠ 0 ∧
      ∀ nHeight, isBip30Repeat nHeight (R.blockHash b.header) = false) :
    (∀ c ∈ addCoinsCalls R mainParams s block, ∀ k < c.1.vout.length, ∀ m,
      addOutputs (R.txid c.1) s.1.nextHeight c.1.isCoinBase c.2 0 (c.1.vout.take k) = .ok m →
        m.haveCoin ⟨R.txid c.1, k⟩ = false) ∧
      connectTip R mainParams s block ≠ .error (.fault .logicError) := by
  have hindex : ∀ b ∈ s.1, b.hash ≠ 0 := by
    intro b hb
    rw [connectTips_chain hchain, List.append_nil, List.mem_reverse] at hb
    obtain ⟨block', hblock', rfl⟩ := List.mem_map.mp hb
    exact (hhash block' (List.mem_cons_of_mem block hblock')).1
  have henforce : enforcesBip30 mainParams (indexOf R block.header) s.1 = true :=
    enforcesBip30_main hindex ((hhash block List.mem_cons_self).2 _)
  have hloop (henter : entersTxLoop R mainParams s block = true) :
      CallsVacant R (indexOf R block.header) s.1 ⟨0, s.2.coins, 0, 0, []⟩ block.vtx := by
    obtain ⟨hcheck, hscan⟩ := entersTxLoop_eq_true henter
    obtain ⟨cb, rest, hv, hchecked⟩ := checkBlock_ok hcheck
    have hscanned : ScannedBlock R s.2.coins block.vtx := by
      refine ⟨?_, htxid⟩
      exact fun t ht k hk => getCoin_of_not_duplicatesUnspent (hscan henforce) ht hk
    rw [hv] at hscanned ⊢
    exact hchecked.callsVacant hscanned
  constructor
  · intro c hc k hk m hadd
    unfold addCoinsCalls at hc
    split at hc
    · rename_i henter
      rw [UtxoMap.haveCoin_eq, addOutputs_take_getCoin hadd, (hloop henter).1 c hc k hk]
      rfl
    · cases hc
  · intro herr
    obtain ⟨henter, hrun⟩ := connectTip_logicError herr
    exact (hloop henter).2 hrun

/-- A chain in which the coinbase of the first block has matured, and a block that spends it. -/
def ripeBlocks : List Block := coinbaseBlock 0 ⟨0, []⟩ :: coinbaseBlock 1 ⟨premine, [opDup]⟩ ::
  (List.range 99).map fun i => coinbaseBlock (.ofNat (i + 2)) ⟨0, [opDup]⟩

def spendingBlock : Block :=
  ⟨⟨1, 100, 0, 0, 0, 101⟩, [coinbaseTx 101 ⟨5, [opDup]⟩,
    ⟨2, [⟨⟨1, 0⟩, [], 0xffffffff, []⟩], [⟨premine - 7, [opDup]⟩, ⟨7, [opDup]⟩], 102⟩]⟩

theorem addCoins_never_overwrites_spend : ∃ s,
    connectChain permissiveRules mainParams ripeBlocks = .ok s ∧
    (addCoinsCalls permissiveRules mainParams s spendingBlock).length = 2 ∧
    (∀ c ∈ addCoinsCalls permissiveRules mainParams s spendingBlock,
      ∀ k < c.1.vout.length, ∀ m, addOutputs (permissiveRules.txid c.1) s.1.nextHeight
        c.1.isCoinBase c.2 0 (c.1.vout.take k) = .ok m →
          m.haveCoin ⟨permissiveRules.txid c.1, k⟩ = false) ∧
    connectTip permissiveRules mainParams s spendingBlock ≠ .error (.fault .logicError) := by
  have hcalls : ((connectChain permissiveRules mainParams ripeBlocks).toOption.map fun s =>
      (addCoinsCalls permissiveRules mainParams s spendingBlock).length) = some 2 := by
    decide +kernel
  cases hchain : connectChain permissiveRules mainParams ripeBlocks with
  | error e =>
    rw [hchain] at hcalls
    cases hcalls
  | ok s =>
    rw [hchain] at hcalls
    refine ⟨s, rfl, Option.some.inj hcalls, addCoins_never_overwrites permissiveRules ripeBlocks s
      hchain spendingBlock (by decide) fun b hb => ?_⟩
    have hall : ∀ b ∈ spendingBlock :: ripeBlocks, permissiveRules.blockHash b.header ≠ 0 ∧
        isBip30Repeat 91842 (permissiveRules.blockHash b.header) = false ∧
        isBip30Repeat 91880 (permissiveRules.blockHash b.header) = false := by decide +kernel
    obtain ⟨hzero, hfirst, hsecond⟩ := hall b hb
    refine ⟨hzero, fun nHeight => ?_⟩
    rcases eq_or_ne nHeight 91842 with rfl | hne
    · exact hfirst
    rcases eq_or_ne nHeight 91880 with rfl | hne'
    · exact hsecond
    · simp [isBip30Repeat, hne, hne']

end Chains

end Tarcoin
