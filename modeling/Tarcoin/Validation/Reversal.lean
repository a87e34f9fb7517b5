import Tarcoin.Validation.DisconnectTx
import Tarcoin.Validation.Supply

/-! The transactions of a block are taken back newest first, with undo data that went through the
undo file. -/
namespace Tarcoin
open FallibleRun Simulation

section Spent

variable {R : BlockRules} {h : ℕ} {m m₁ : UtxoMap} {G : TxOut → Prop}

/-- The coins of the map, where `S` holds, have outputs as `G` asks. -/
def CoinsMeet (m : UtxoMap) (G : TxOut → Prop) (S : OutPoint → Prop) : Prop :=
  ∀ p, S p → ∀ c ∈ m.getCoin p, G c.out

def SpentBy (vtx : List Transaction) (p : OutPoint) : Prop :=
  ∃ tx ∈ vtx, p ∈ tx.vin.map TxIn.prevout

/-- The outputs that can be spent and that the later transaction spends are as `G` asks. -/
def LinkMeets (R : BlockRules) (G : TxOut → Prop) (made tx : Transaction) : Prop :=
  ∀ i ∈ tx.vin, i.prevout.hash = R.txid made →
    ∀ out ∈ made.vout[i.prevout.n]?, isUnspendable out.scriptPubKey = false → G out

theorem coinsMeet_spendInputs {vin : List TxIn} {cs : TxUndo} {S : OutPoint → Prop}
    (hspend : spendInputs m vin = .ok (m₁, cs)) :
    CoinsMeet m G (fun p => p ∈ vin.map TxIn.prevout ∨ S p) ↔
      (∀ c ∈ cs, G c.out) ∧ CoinsMeet m₁ G S := by
  constructor
  · intro hall
    refine ⟨fun c hc => ?_, fun p hp c hc => hall p (.inr hp) c (getCoin_of_spendInputs hspend hc)⟩
    obtain ⟨i, hi, hget⟩ := (mem_spent_iff hspend).mp hc
    exact hall i.prevout (.inl (List.mem_map_of_mem hi)) c hget
  · rintro ⟨hcs, hrest⟩ p hp c hc
    by_cases hin : p ∈ vin.map TxIn.prevout
    · obtain ⟨i, hi, rfl⟩ := List.mem_map.mp hin
      exact hcs c ((mem_spent_iff hspend).mpr ⟨i, hi, hc⟩)
    · refine hrest p (hp.resolve_left hin) c ?_
      rw [spendInputs_getCoin hspend, if_neg hin]
      exact hc

theorem coinsMeet_addCoins {tx : Transaction} {later : List Transaction}
    (hadd : addCoins R m tx h = .ok m₁)
    (hfresh : ∀ p, createdCoin (R.txid tx) h tx.isCoinBase 0 tx.vout p ≠ none → m.getCoin p = none) :
    CoinsMeet m₁ G (SpentBy later) ↔
      CoinsMeet m G (SpentBy later) ∧ ∀ tx' ∈ later, LinkMeets R G tx tx' := by
  obtain ⟨hget, -⟩ := addOutputs_getCoin hadd
  constructor
  · intro hall
    refine ⟨fun p hp c hc => ?_, fun tx' htx' i hi hhash out hout hu => ?_⟩
    · have hnone : createdCoin (R.txid tx) h tx.isCoinBase 0 tx.vout p = none := by
        by_contra hcreated
        rw [hfresh p hcreated] at hc
        cases hc
      refine hall p hp c ?_
      rw [hget p, hnone]
      exact hc
    · have hcreated : createdCoin (R.txid tx) h tx.isCoinBase 0 tx.vout i.prevout =
          some ⟨out, tx.isCoinBase, h⟩ :=
        createdCoin_eq_some_iff.mpr ⟨hhash, i.prevout.n, out, by omega, hout, hu, rfl⟩
      refine hall i.prevout ⟨tx', htx', List.mem_map_of_mem hi⟩ ⟨out, tx.isCoinBase, h⟩ ?_
      rw [hget i.prevout, hcreated]
      rfl
  · rintro ⟨hold, hlinks⟩ p ⟨tx', htx', hp⟩ c hc
    rw [hget p] at hc
    cases hcreated : createdCoin (R.txid tx) h tx.isCoinBase 0 tx.vout p with
    | none =>
      rw [hcreated] at hc
      exact hold p ⟨tx', htx', hp⟩ c hc
    | some d =>
      rw [hcreated] at hc
      cases hc
      obtain ⟨hhash, k, out, hn, hout, hu, rfl⟩ := createdCoin_eq_some_iff.mp hcreated
      obtain ⟨i, hi, rfl⟩ := List.mem_map.mp hp
      rw [Nat.zero_add] at hn
      exact hlinks tx' htx' i hi hhash out (hn ▸ hout) hu

/-- Along a run, the coins that are spent are those of the first map and those that the run made
itself. -/
theorem spent_meet_iff {vtx : List Transaction} {us : BlockUndo}
    (hcb : ∀ tx ∈ vtx, tx.isCoinBase = false)
    (hrun : runMachine (fun m tx => updateCoins R m tx h) m vtx = .ok (m₁, us)) :
    (∀ u ∈ us, ∀ c ∈ u, G c.out) ↔
      CoinsMeet m G (SpentBy vtx) ∧ vtx.Pairwise (LinkMeets R G) := by
  induction vtx generalizing m us with
  | nil =>
    obtain ⟨-, rfl⟩ := Prod.mk.inj (Except.ok.inj hrun)
    refine ⟨fun _ => ⟨fun p hp => ?_, List.Pairwise.nil⟩, fun _ u hu => ?_⟩
    · obtain ⟨tx, htx, -⟩ := hp
      cases htx
    · cases hu
  | cons tx vtx ih =>
    obtain ⟨m', u, us', hu, hrest, rfl⟩ := runMachine_cons_ok_iff.mp hrun
    rw [List.forall_mem_cons] at hcb
    obtain ⟨ms, hspend, hadd⟩ := updateCoins_ok hcb.1 hu
    have hfresh := (addOutputs_getCoin hadd).2 hcb.1
    have hsplit : SpentBy (tx :: vtx) = fun p => p ∈ tx.vin.map TxIn.prevout ∨ SpentBy vtx p := by
      funext p
      simp [SpentBy]
    rw [List.forall_mem_cons, ih hcb.2 hrest, coinsMeet_addCoins hadd hfresh, hsplit,
      coinsMeet_spendInputs hspend, List.pairwise_cons, and_assoc, and_assoc]

end Spent

/-- The amounts of the coins that a block spends: those it finds in the map, and those of its own
outputs that a later transaction of it spends. -/
def SpentAmountsFit (R : BlockRules) (m : UtxoMap) (vtx : List Transaction) : Prop :=
  (∀ tx ∈ vtx.tail, ∀ i ∈ tx.vin, ∀ c ∈ m.getCoin i.prevout, AmountFits c.out.nValue.toNat) ∧
    vtx.Pairwise fun made tx => ∀ i ∈ tx.vin, i.prevout.hash = R.txid made →
      ∀ out ∈ made.vout[i.prevout.n]?, isUnspendable out.scriptPubKey = false →
        AmountFits out.nValue.toNat

instance (R : BlockRules) (m : UtxoMap) (vtx : List Transaction) :
    Decidable (SpentAmountsFit R m vtx) := by
  unfold SpentAmountsFit
  infer_instance

section Block

variable {R : BlockRules} {P : ConsensusParams} {pindex : BlockIndex} {pprev : Chain}
variable {st st' : ConnectState}

variable {tx cb : Transaction} {p : OutPoint} {c : Coin} {vtx rest : List Transaction} {m : UtxoMap}
  {ds : BlockUndo}

/-- A coinbase output of this height is too young to be spent, so that it stays where it is and
nothing can be put in its place. -/
theorem connectTx_youngCoinbase (hcb : tx.isCoinBase = false) (hc : st.coins.getCoin p = some c)
    (hcoin : c.fCoinBase = true) (hheight : c.nHeight = pprev.nextHeight)
    (hstep : connectTx R pindex pprev st tx = .ok st') :
    Untouched R pprev.nextHeight tx p ∧ st'.coins.getCoin p = some c := by
  obtain ⟨hin, undo, hu, -⟩ := connectTx_ok hstep
  obtain ⟨m', hspend, hadd⟩ := updateCoins_ok hcb hu
  obtain ⟨txfee, hfee, -⟩ := connectInputs_ok hcb hin
  have hvin : p ∉ tx.vin.map TxIn.prevout := by
    intro hp
    obtain ⟨i, hi, rfl⟩ := List.mem_map.mp hp
    have hmature := checkTxInputs_mature hfee (st.coins.accessCoin i.prevout)
      (List.mem_map_of_mem hi)
    rw [UtxoMap.accessCoin, hc] at hmature
    simp [isPremature, hcoin, hheight, coinbaseMaturity] at hmature
  have hkept : m'.getCoin p = some c := by
    rw [spendInputs_getCoin hspend, if_neg hvin, hc]
  unfold addCoins at hadd
  obtain ⟨hget, hfresh⟩ := addOutputs_getCoin hadd
  have hvout : createdCoin (R.txid tx) pprev.nextHeight tx.isCoinBase 0 tx.vout p = none := by
    by_contra hcreated
    rw [hfresh hcb p hcreated] at hkept
    cases hkept
  refine ⟨⟨hvin, hvout⟩, ?_⟩
  rw [hget p, hvout, Option.none_or, hkept]

theorem connectTxs_youngCoinbase (hcb : ∀ tx ∈ vtx, tx.isCoinBase = false)
    (hc : st.coins.getCoin p = some c) (hcoin : c.fCoinBase = true)
    (hheight : c.nHeight = pprev.nextHeight)
    (hrun : run (connectTx R pindex pprev) st vtx = .ok st') :
    (∀ tx ∈ vtx, Untouched R pprev.nextHeight tx p) ∧ st'.coins.getCoin p = some c := by
  induction vtx generalizing st with
  | nil =>
    cases hrun
    exact ⟨by simp, hc⟩
  | cons tx vtx ih =>
    obtain ⟨st₁, hstep, hrest⟩ := run_cons_ok_iff.mp hrun
    rw [List.forall_mem_cons] at hcb
    obtain ⟨hun, hc₁⟩ := connectTx_youngCoinbase hcb.1 hc hcoin hheight hstep
    obtain ⟨huns, hc'⟩ := ih hcb.2 hc₁ hrest
    exact ⟨List.forall_mem_cons.mpr ⟨hun, huns⟩, hc'⟩

/-- What the loop says about one entry of the undo data. -/
structure UndoEntry (u : TxUndo) : Prop where
  length_le : u.length ≤ maxSize
  storable : ∀ c ∈ u, Storable c
  inRange : ∀ c ∈ u, MoneyRange c.out.nValue

theorem connectTxs_undo (hi : st.i ≠ 0) (hpos : 0 < pprev.nextHeight)
    (hlt : pprev.nextHeight < 2 ^ 31) (hm : st.coins.AllStorable)
    (hcb : ∀ tx ∈ vtx, tx.isCoinBase = false) (hchk : ∀ tx ∈ vtx, CheckedTx tx)
    (hrun : run (connectTx R pindex pprev) st vtx = .ok st') :
    ∃ us, runMachine (fun m tx => updateCoins R m tx pprev.nextHeight) st.coins vtx =
        .ok (st'.coins, us) ∧
      st'.vtxundo = st.vtxundo ++ us ∧ us.length = vtx.length ∧ ∀ u ∈ us, UndoEntry u := by
  induction vtx generalizing st with
  | nil =>
    cases hrun
    exact ⟨[], rfl, (List.append_nil _).symm, rfl, by simp⟩
  | cons tx vtx ih =>
    obtain ⟨st₁, hstep, hrest⟩ := run_cons_ok_iff.mp hrun
    rw [List.forall_mem_cons] at hcb hchk
    obtain ⟨hin, u, hu, hi₁, hundo⟩ := connectTx_ok hstep
    rw [if_neg hi] at hundo
    obtain ⟨hm₁, hstore⟩ := updateCoins_allStorable hpos hlt hm hu
    obtain ⟨us, hus, hundos, hlen, hentries⟩ := ih (by omega) hm₁ hcb.2 hchk.2 hrest
    obtain ⟨txfee, hfee, -⟩ := connectInputs_ok hcb.1 hin
    obtain ⟨m', hspend, -⟩ := updateCoins_ok hcb.1 hu
    have hspent : u = spentCoins st.coins tx := spendInputs_undo hchk.1.prevouts_nodup hspend
    have hentry : UndoEntry u := by
      refine ⟨?_, hstore, fun c hc => ?_⟩
      · have hsize := hchk.1.size_le
        have hvin := tx.vin_length_le
        rw [spendInputs_length hspend]
        simp only [witnessScaleFactor, maxBlockWeight, maxSize] at hsize ⊢
        omega
      · exact ((checkTxInputs_ok hchk.1 hfee).2.1 c (hspent ▸ hc)).2
    refine ⟨u :: us, runMachine_cons_ok_iff.mpr ⟨st₁.coins, u, us, hu, hus, rfl⟩, ?_, ?_, ?_⟩
    · rw [hundos, hundo, List.append_assoc, List.singleton_append]
    · rw [List.length_cons, hlen, List.length_cons]
    · exact List.forall_mem_cons.mpr ⟨hentry, hentries⟩

theorem fresh_of_not_duplicatesUnspent {h : ℕ} {cb : Bool}
    (hdup : duplicatesUnspent R m vtx = false) (htx : tx ∈ vtx) (p : OutPoint)
    (hp : createdCoin (R.txid tx) h cb 0 tx.vout p ≠ none) : m.getCoin p = none :=
  (getCoin_of_createdCoin (fun _ hk => getCoin_of_not_duplicatesUnspent hdup htx hk) hp).2

theorem disconnectBlock_ok_iff {D : UndoRules} {view view' : ChainView} {block : Block}
    {file : List UInt8} (hread : readBlockUndo D pprev.tipHash file = some ds)
    (htip : pprev.tipHash = view'.bestBlock) :
    disconnectBlock R D pprev view block file = .ok (.ok, view') ↔
      disconnectTxs R pprev.nextHeight
        (!isBip30Overwritten pprev.nextHeight (R.blockHash block.header)) view.coins block.vtx ds =
        .ok ⟨true, view'.coins⟩ := by
  simp only [disconnectBlock, hread]
  cases disconnectTxs R pprev.nextHeight
    (!isBip30Overwritten pprev.nextHeight (R.blockHash block.header)) view.coins block.vtx ds with
  | error stop => cases stop <;> simp
  | ok s =>
    obtain ⟨clean, coins⟩ := s
    obtain ⟨coins', best⟩ := view'
    cases clean <;> simp [htip]

theorem map_eq_self_iff {α : Type*} {f : α → α} {l : List α} :
    l.map f = l ↔ ∀ x ∈ l, f x = x := by
  have hmap := @List.map_inj_left _ _ l f id
  rwa [List.map_id] at hmap

theorem undoAfterRead_eq_iff {undo : BlockUndo} (h : ∀ u ∈ undo, UndoEntry u) :
    undo.map (List.map coinAfterRead) = undo ↔
      ∀ u ∈ undo, ∀ c ∈ u, AmountFits c.out.nValue.toNat := by
  rw [map_eq_self_iff]
  refine forall₂_congr fun u hu => ?_
  rw [map_eq_self_iff]
  exact forall₂_congr fun c hc => coinAfterRead_eq_iff ((h u hu).inRange c hc)

variable (hchecked : CheckedBlock cb rest) (hpos : 0 < pprev.nextHeight)
  (hlt : pprev.nextHeight < 2 ^ 31) (hm : m.AllStorable)
  (hrun : run (connectTx R pindex pprev) ⟨0, m, 0, 0, []⟩ (cb :: rest) = .ok st)
include hchecked hpos hlt hm hrun

theorem connectBlockTxs_ok : ∃ st₁, addCoins R m cb pprev.nextHeight = .ok st₁.coins ∧ st₁.coins.AllStorable ∧
      run (connectTx R pindex pprev) st₁ rest = .ok st ∧
      runMachine (fun m tx => updateCoins R m tx pprev.nextHeight) st₁.coins rest =
        .ok (st.coins, st.vtxundo) ∧
      st.vtxundo.length = rest.length ∧ ∀ u ∈ st.vtxundo, UndoEntry u := by
  obtain ⟨st₁, hfirst, hrest⟩ := run_cons_ok_iff.mp hrun
  obtain ⟨-, undo, hu, hi, hundo⟩ := connectTx_ok hfirst
  obtain ⟨-, hadd⟩ := updateCoins_coinbase_ok hchecked.coinbase hu
  have hm₁ := (updateCoins_allStorable hpos hlt hm hu).1
  have hchk : ∀ tx ∈ rest, CheckedTx tx :=
    fun tx htx => hchecked.checked tx (List.mem_cons_of_mem cb htx)
  obtain ⟨us, hus, hundos, hlen, hentries⟩ :=
    connectTxs_undo (by omega) hpos hlt hm₁ hchecked.others hchk hrest
  obtain rfl : st.vtxundo = us := by
    rw [hundos, hundo]
    rfl
  exact ⟨st₁, hadd, hm₁, hrest, hus, hlen, hentries⟩

variable (hdup : duplicatesUnspent R m (cb :: rest) = false)
include hdup

theorem disconnectTxs_iff {fEnforce : Bool} (hlen : ds.length = rest.length) (hds : ∀ u ∈ ds, ∀ d ∈ u, d.nHeight ≠ 0) :
    disconnectTxs R pprev.nextHeight fEnforce st.coins (cb :: rest) ds = .ok ⟨true, m⟩ ↔
      ds = st.vtxundo := by
  obtain ⟨st₁, hadd, hm₁, hrest, hus, -⟩ := connectBlockTxs_ok hchecked hpos hlt hm hrun
  have hback : ∀ t : DisconnectState,
      run (disconnectTx R pprev.nextHeight fEnforce) t (rest.zip ds).reverse
        = .ok ⟨true, st₁.coins⟩ ↔ t = ⟨true, st.coins⟩ ∧ ds = st.vtxundo := by
    intro t
    refine runMachine_reversal UtxoMap.AllStorable ?_ hm₁ hus hlen hds
    intro m tx htx m' u hm hstep
    exact ⟨(updateCoins_allStorable hpos hlt hm hstep).1, fun t v hv =>
      disconnectTx_iff (hchecked.others tx htx) hm hstep hv⟩
  simp only [disconnectTxs, hlen, ne_eq, not_true, if_false, map_eq_ok_iff]
  constructor
  · rintro ⟨s, hs, hout⟩
    -- In the exempt blocks a mismatch goes unnoticed, so the coinbase outputs are followed there.
    have hthere : ∀ p c,
        createdCoin (R.txid cb) pprev.nextHeight cb.isCoinBase 0 cb.vout p = some c →
        s.coins.getCoin p = some c := by
      intro p c hc
      obtain ⟨-, k, out, -, -, -, rfl⟩ := createdCoin_eq_some_iff.mp hc
      have hc₁ : st₁.coins.getCoin p = some ⟨out, cb.isCoinBase, pprev.nextHeight⟩ := by
        rw [(addOutputs_getCoin hadd).1 p, hc, Option.some_or]
      obtain ⟨huns, hend⟩ := connectTxs_youngCoinbase hchecked.others hc₁ hchecked.coinbase rfl
        hrest
      rw [← hend]
      refine run_invariant (P := fun t => t.coins.getCoin p = st.coins.getCoin p) ?_ rfl hs
      intro t a t' ha ht hstep
      have hmem := (List.of_mem_zip (List.mem_reverse.mp ha)).1
      rw [disconnectTx_untouched (huns a.1 hmem) hstep, ht]
    obtain rfl := eq_of_removeOutputs hadd hout hthere
    exact ((hback _).mp hs).2
  · intro heq
    refine ⟨⟨true, st₁.coins⟩, (hback _).mpr ⟨rfl, heq⟩, ?_⟩
    exact removeOutputs_of_added _ hadd
      (fresh_of_not_duplicatesUnspent hdup List.mem_cons_self)

theorem undo_fits_iff : (∀ u ∈ st.vtxundo, ∀ c ∈ u, AmountFits c.out.nValue.toNat) ↔
      SpentAmountsFit R m (cb :: rest) := by
  obtain ⟨st₁, hadd, -, -, hus, -⟩ := connectBlockTxs_ok hchecked hpos hlt hm hrun
  have hfresh : ∀ p, createdCoin (R.txid cb) pprev.nextHeight cb.isCoinBase 0 cb.vout p ≠ none →
      m.getCoin p = none := fresh_of_not_duplicatesUnspent hdup List.mem_cons_self
  have hmap : CoinsMeet m (fun out => AmountFits out.nValue.toNat) (SpentBy rest) ↔
      ∀ tx ∈ rest, ∀ i ∈ tx.vin, ∀ c ∈ m.getCoin i.prevout, AmountFits c.out.nValue.toNat := by
    constructor
    · intro hall tx htx i hi
      exact hall i.prevout ⟨tx, htx, List.mem_map_of_mem hi⟩
    · rintro hall p ⟨tx, htx, hp⟩
      obtain ⟨i, hi, rfl⟩ := List.mem_map.mp hp
      exact hall tx htx i hi
  rw [spent_meet_iff (G := fun out => AmountFits out.nValue.toNat) hchecked.others hus,
    coinsMeet_addCoins hadd hfresh, hmap, and_assoc, ← List.pairwise_cons]
  rfl

end Block

/-- A block that was connected where duplicate transaction ids are rejected is taken back cleanly,
to the view it was connected to, exactly when every coin that it spends has an amount that the
undo file keeps. -/
theorem disconnectBlock_connectBlock_iff (R : BlockRules) (P : ConsensusParams) (D : UndoRules)
    (pprev : Chain) (view : ChainView) (block : Block) (c : Connected) (undo : BlockUndo)
    (after : List UInt8) (hheight : pprev.nextHeight < 2 ^ 31) (hview : view.coins.AllStorable)
    (hbip30 : enforcesBip30 P (indexOf R block.header) pprev = true)
    (hconnect : connectBlock R P pprev view block false = .ok c) (hundo : c.undo = some undo) :
    disconnectBlock R D pprev c.view block (writeBlockUndo D pprev.tipHash undo ++ after) =
        .ok (.ok, view) ↔ SpentAmountsFit R view.coins block.vtx := by
  obtain ⟨htip, -, cb, rest, hv, hchecked, ⟨-, -, hnone⟩ | ⟨hne, hdup, st, hrun, -, hcoins, hu⟩⟩ :=
    connectBlock_ok hconnect
  · rw [hundo] at hnone
    cases hnone
  have hpos : 0 < pprev.nextHeight := List.length_pos_of_ne_nil hne
  rw [hv] at hdup hrun
  obtain ⟨-, -, -, -, -, hlen, hentries⟩ := connectBlockTxs_ok hchecked hpos hheight hview hrun
  obtain rfl : undo = st.vtxundo := Option.some.inj (hundo.symm.trans hu)
  have hmax : st.vtxundo.length ≤ maxSize := by
    have hsize := hchecked.length_le
    simp only [List.length_cons, witnessScaleFactor, maxBlockWeight, maxSize] at hsize ⊢
    omega
  have hread := readBlockUndo_writeBlockUndo (D := D) pprev.tipHash hmax
    (fun u hu => (hentries u hu).length_le) (fun u hu => (hentries u hu).storable) after
  rw [disconnectBlock_ok_iff hread htip, hcoins, hv,
    disconnectTxs_iff hchecked hpos hheight hview hrun (hdup hbip30) (by rw [List.length_map, hlen])]
  · rw [undoAfterRead_eq_iff hentries, undo_fits_iff hchecked hpos hheight hview hrun (hdup hbip30)]
  · intro u hu d hd
    obtain ⟨w, hw, rfl⟩ := List.mem_map.mp hu
    obtain ⟨c, hc, rfl⟩ := List.mem_map.mp hd
    rw [coinAfterRead]
    exact ((hentries w hw).storable c hc).height_pos.ne'

theorem connectBlock_allStorable {R : BlockRules} {P : ConsensusParams} {pprev : Chain}
    {view : ChainView} {block : Block} {c : Connected} (hheight : pprev.nextHeight < 2 ^ 31)
    (hview : view.coins.AllStorable) (h : connectBlock R P pprev view block false = .ok c) :
    c.view.coins.AllStorable := by
  obtain ⟨-, -, cb, rest, -, -, ⟨-, hc, -⟩ | ⟨hne, -, st, hrun, -, hc, -⟩⟩ := connectBlock_ok h
  · rwa [hc]
  · rw [hc]
    refine run_invariant (P := fun st : ConnectState => st.coins.AllStorable)
      (fun s tx s' _ hs hstep => ?_) hview hrun
    obtain ⟨-, undo, hu, -⟩ := connectTx_ok hstep
    exact (updateCoins_allStorable (List.length_pos_of_ne_nil hne) hheight hs hu).1

/-- The chainstate of every chain that was connected block by block meets the condition on the
view above. -/
theorem connectChain_allStorable {R : BlockRules} {P : ConsensusParams} {blocks : List Block}
    {s : Chain × ChainView} (hlen : blocks.length ≤ 2 ^ 31) (h : connectChain R P blocks = .ok s) :
    s.2.coins.AllStorable := by
  suffices hall : ∀ s₀ : Chain × ChainView, s₀.1.length + blocks.length ≤ 2 ^ 31 →
      s₀.2.coins.AllStorable → run (connectTip R P) s₀ blocks = .ok s → s.2.coins.AllStorable by
    exact hall ([], ChainView.empty) (by simpa using hlen) (fun p c hc => by cases hc) h
  clear h hlen
  induction blocks with
  | nil =>
    intro s₀ _ hs h
    cases h
    exact hs
  | cons block blocks ih =>
    intro s₀ hlen hs h
    obtain ⟨s₁, hstep, hrest⟩ := run_cons_ok_iff.mp h
    obtain ⟨c, hc, rfl⟩ := map_eq_ok_iff.mp hstep
    rw [List.length_cons] at hlen
    refine ih _ ?_ (connectBlock_allStorable ?_ hs hc) hrest
    · rw [List.length_cons]
      omega
    · rw [Chain.nextHeight]
      omega

def twoBlocks : Chain := [⟨1, 1, 0, 0⟩, ⟨mainParams.hashGenesisBlock, 1, 0, 0⟩]

def oneCoinView (n : ℕ) : ChainView :=
  ⟨Finmap.insert ⟨7, 0⟩ ⟨⟨⟨n, [opDup]⟩, false, 1⟩, by simp [Coin.isSpent, TxOut.isNull]⟩ ∅, 1⟩

theorem oneCoinView_allStorable (n : ℕ) : (oneCoinView n).coins.AllStorable := by
  intro p c hp
  rw [oneCoinView, UtxoMap.getCoin_insert] at hp
  split_ifs at hp
  · cases hp
    exact ⟨rfl, Nat.one_pos, by norm_num⟩
  · cases hp

def movingBlock (n : ℕ) : Block :=
  ⟨⟨1, 1, 0, 0, 0, 2⟩, [coinbaseTx 2 ⟨0, [opDup]⟩,
    ⟨2, [⟨⟨7, 0⟩, [], 0xffffffff, []⟩], [⟨n, [opDup]⟩], 3⟩]⟩

def sampleUndoRules : UndoRules := ⟨noUncompressedKeys, fun _ => 0⟩

theorem disconnectBlock_cent : ∃ c undo,
    connectBlock permissiveRules mainParams twoBlocks (oneCoinView 1000000) (movingBlock 1000000)
      false = .ok c ∧
    c.undo = some undo ∧
    disconnectBlock permissiveRules sampleUndoRules twoBlocks c.view (movingBlock 1000000)
      (writeBlockUndo sampleUndoRules twoBlocks.tipHash undo) = .ok (.ok, oneCoinView 1000000) := by
  refine ⟨_, _, rfl, rfl, ?_⟩
  have hiff := disconnectBlock_connectBlock_iff permissiveRules mainParams sampleUndoRules twoBlocks
    (oneCoinView 1000000) (movingBlock 1000000) _ _ [] (by decide) (oneCoinView_allStorable _)
    (by decide) rfl rfl
  apply hiff.mpr
  decide

/-- The undo file turns a coin of 20496382304.12172403 into one of 0.0001. -/
theorem readBlockUndo_shrunk :
    readBlockUndo sampleUndoRules 1
      (writeBlockUndo sampleUndoRules 1 [[⟨⟨2049638230412172403, [opDup]⟩, false, 1⟩]]) =
      some [[⟨⟨10000, [opDup]⟩, false, 1⟩]] := by
  have hstore : Storable ⟨⟨2049638230412172403, [opDup]⟩, false, 1⟩ := ⟨rfl, by decide, by decide⟩
  have hread := @readBlockUndo_writeBlockUndo sampleUndoRules 1
    [[⟨⟨2049638230412172403, [opDup]⟩, false, 1⟩]] (by decide) (by decide) (by simpa using hstore) []
  have hmod : ((2049638230412172403 : ℤ) % 2 ^ 64).toNat = 2049638230412172403 := by decide
  have hback : decompressAmount (compressAmount 2049638230412172403) = 10000 := by decide
  have hwrap : GuardedSum.wrap 64 ((10000 : ℕ) : ℤ) = 10000 := by decide
  simpa only [List.append_nil, List.map_cons, List.map_nil, coinAfterRead, hmod, hback, hwrap]
    using hread

/-- A coin of 20496382304.12172403 comes back as one of 0.0001, and the result is
`DISCONNECT_OK`. -/
theorem disconnectBlock_shrinks : ∃ c undo,
    connectBlock permissiveRules mainParams twoBlocks (oneCoinView 2049638230412172403)
      (movingBlock 2049638230412172403) false = .ok c ∧
    c.undo = some undo ∧
    enforcesBip30 mainParams (indexOf permissiveRules (movingBlock 2049638230412172403).header)
      twoBlocks = true ∧
    (oneCoinView 2049638230412172403).coins.AllStorable ∧
    disconnectBlock permissiveRules sampleUndoRules twoBlocks c.view
      (movingBlock 2049638230412172403) (writeBlockUndo sampleUndoRules twoBlocks.tipHash undo) =
      .ok (.ok, oneCoinView 10000) ∧
    oneCoinView 10000 ≠ oneCoinView 2049638230412172403 := by
  refine ⟨_, _, rfl, rfl, by decide, oneCoinView_allStorable _,
    (disconnectBlock_ok_iff readBlockUndo_shrunk rfl).mpr rfl, ?_⟩
  intro heq
  have hcoin := congrArg (fun v => v.coins.getCoin ⟨7, 0⟩) heq
  revert hcoin
  decide

end Tarcoin
