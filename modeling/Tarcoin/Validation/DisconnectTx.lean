import Tarcoin.Foundations.Simulation
import Tarcoin.Validation.Disconnect

/-! One transaction, taken back: its outputs are removed and its inputs restored. -/
namespace Tarcoin
open FallibleRun FinmapLookup Simulation

namespace UtxoMap

/-- Every coin of the map is one that `AddCoin` can have stored. -/
def AllStorable (m : UtxoMap) : Prop := ∀ p c, m.getCoin p = some c → Storable c

theorem AllStorable.spendCoin {m : UtxoMap} (h : m.AllStorable) (o : OutPoint) :
    (m.spendCoin o).AllStorable := by
  intro p c hp
  rw [getCoin_spendCoin] at hp
  split_ifs at hp
  exact h p c hp

end UtxoMap

section Inputs

variable {m m₁ x : UtxoMap} {o : OutPoint} {d : Coin}

theorem applyTxInUndo_iff {c : UnspentCoin} (hc : m.lookup o = some c) (hstore : Storable c.val)
    (hd : d.nHeight ≠ 0) :
    applyTxInUndo d x o = .ok (true, m) ↔ x = m.spendCoin o ∧ d = c.val := by
  unfold applyTxInUndo undoneCoin
  rw [if_neg hd]
  simp only [Except.bind, map_eq_ok_iff, mapError_eq_ok_iff]
  constructor
  · rintro ⟨m', hadd, heq⟩
    obtain ⟨hclean, rfl⟩ := Prod.mk.inj heq
    have hmiss : x.lookup o = none := UtxoMap.haveCoin_eq_false_iff.mp (by simpa using hclean)
    obtain ⟨-, ⟨-, rfl⟩ | ⟨-, -, hunspent, rfl⟩⟩ := UtxoMap.addCoin_cases hadd
    · rw [hmiss] at hc
      cases hc
    · rw [Finmap.lookup_insert] at hc
      cases hc
      exact ⟨(erase_insert_of_lookup_none hmiss).symm, rfl⟩
  · rintro ⟨rfl, rfl⟩
    have hmiss : (m.spendCoin o).haveCoin o = false :=
      UtxoMap.haveCoin_eq_false_iff.mpr (Finmap.lookup_erase o m)
    refine ⟨m, ?_, by rw [hmiss]; rfl⟩
    rw [UtxoMap.addCoin, dif_pos c.property, hstore.spendable, hmiss]
    exact congrArg Except.ok (insert_erase_of_lookup hc)

/-- One turn of the loop of `UpdateCoins`. -/
def spendInput (m : UtxoMap) (txin : TxIn) : Except Fault (UtxoMap × Coin) :=
  match m.getCoin txin.prevout with
  | none => .error .assertion
  | some coin => .ok (m.spendCoin txin.prevout, coin)

theorem spendInputs_eq (m : UtxoMap) (vin : List TxIn) :
    spendInputs m vin = runMachine spendInput m vin := by
  induction vin generalizing m with
  | nil => rfl
  | cons txin vin ih =>
    rw [spendInputs, runMachine, spendInput]
    cases m.getCoin txin.prevout with
    | none => rfl
    | some coin =>
      simp only [Except.bind, ih]

variable {vin : List TxIn} {cs : TxUndo} {p : OutPoint} {c : Coin}

theorem spendInputs_length (h : spendInputs m vin = .ok (m₁, cs)) : cs.length = vin.length := by
  induction vin generalizing m cs with
  | nil =>
    obtain ⟨-, rfl⟩ := Prod.mk.inj (Except.ok.inj h)
    rfl
  | cons txin vin ih =>
    obtain ⟨c, rest, -, hs, rfl⟩ := spendInputs_cons_ok h
    rw [List.length_cons, ih hs, List.length_cons]

theorem spendInputs_getCoin (h : spendInputs m vin = .ok (m₁, cs)) (p : OutPoint) :
    m₁.getCoin p = if p ∈ vin.map TxIn.prevout then none else m.getCoin p := by
  induction vin generalizing m cs with
  | nil =>
    obtain ⟨rfl, -⟩ := Prod.mk.inj (Except.ok.inj h)
    rfl
  | cons txin vin ih =>
    obtain ⟨c, rest, -, hs, rfl⟩ := spendInputs_cons_ok h
    rw [ih hs, UtxoMap.getCoin_spendCoin, List.map_cons]
    by_cases hp : p = txin.prevout <;> simp [hp]

theorem mem_spent_iff (h : spendInputs m vin = .ok (m₁, cs)) :
    c ∈ cs ↔ ∃ i ∈ vin, m.getCoin i.prevout = some c := by
  induction vin generalizing m cs with
  | nil =>
    obtain ⟨-, rfl⟩ := Prod.mk.inj (Except.ok.inj h)
    simp
  | cons txin vin ih =>
    obtain ⟨u, rest, hl, hs, rfl⟩ := spendInputs_cons_ok h
    have hu : m.getCoin txin.prevout = some u.val := by rw [UtxoMap.getCoin, hl, Option.map_some]
    rw [List.mem_cons, ih hs]
    simp only [List.mem_cons, exists_eq_or_imp, UtxoMap.getCoin_spendCoin, hu, Option.some.injEq]
    constructor
    · rintro (rfl | ⟨i, hi, hc⟩)
      · exact .inl rfl
      · split_ifs at hc
        exact .inr ⟨i, hi, hc⟩
    · rintro (rfl | ⟨i, hi, hc⟩)
      · exact .inl rfl
      · by_cases hp : i.prevout = txin.prevout
        · rw [hp, hu] at hc
          exact .inl (Option.some.inj hc).symm
        · exact .inr ⟨i, hi, by rw [if_neg hp, hc]⟩

theorem getCoin_of_spendInputs (h : spendInputs m vin = .ok (m₁, cs)) (hp : m₁.getCoin p = some c) :
    m.getCoin p = some c := by
  rw [spendInputs_getCoin h] at hp
  split_ifs at hp
  exact hp

theorem spendInputs_allStorable (hm : m.AllStorable) (h : spendInputs m vin = .ok (m₁, cs)) :
    m₁.AllStorable ∧ ∀ c ∈ cs, Storable c := by
  refine ⟨fun p c hp => hm p c (getCoin_of_spendInputs h hp), fun c hc => ?_⟩
  obtain ⟨i, -, hget⟩ := (mem_spent_iff h).mp hc
  exact hm _ _ hget

theorem restoreInputs_iff {ds : TxUndo} {s : DisconnectState} (hm : m.AllStorable)
    (h : spendInputs m vin = .ok (m₁, cs)) (hlen : ds.length = vin.length)
    (hds : ∀ d ∈ ds, d.nHeight ≠ 0) :
    run restoreInput s (vin.zip ds).reverse = .ok ⟨true, m⟩ ↔ s = ⟨true, m₁⟩ ∧ ds = cs := by
  rw [spendInputs_eq] at h
  refine runMachine_reversal UtxoMap.AllStorable ?_ hm h hlen hds
  intro m txin _ m' c hm hspend
  unfold spendInput at hspend
  split at hspend
  · cases hspend
  rename_i coin hcoin
  cases hspend
  refine ⟨hm.spendCoin _, fun t d hd => ?_⟩
  obtain ⟨u, hl, rfl⟩ := getCoin_eq_some hcoin
  have hiff := applyTxInUndo_iff (x := t.coins) hl (hm _ _ hcoin) hd
  unfold restoreInput
  rw [map_eq_ok_iff]
  constructor
  · rintro ⟨⟨clean, m'⟩, happly, heq⟩
    obtain ⟨hflag, rfl⟩ := DisconnectState.mk.inj heq
    obtain ⟨ht, rfl⟩ := Bool.and_eq_true_iff.mp hflag
    obtain ⟨hcoins, rfl⟩ := hiff.mp happly
    refine ⟨?_, rfl⟩
    rw [← hcoins, ← ht]
  · rintro ⟨rfl, rfl⟩
    exact ⟨(true, m), hiff.mpr ⟨rfl, rfl⟩, rfl⟩

end Inputs

section Outputs

variable {txid : Uint256} {h i : ℕ} {cb : Bool} {outs : List TxOut} {m m₁ : UtxoMap}
variable {p : OutPoint}

/-- The coin that the outputs from number `i` on put at an outpoint. -/
def createdCoin (txid : Uint256) (nHeight : ℕ) (fCoinbase : Bool) :
    ℕ → List TxOut → OutPoint → Option Coin
  | _, [], _ => none
  | i, out :: rest, p =>
    if p = ⟨txid, i⟩ then
      if isUnspendable out.scriptPubKey then none else some ⟨out, fCoinbase, nHeight⟩
    else createdCoin txid nHeight fCoinbase (i + 1) rest p

theorem createdCoin_of_lt (hp : p.n < i) : createdCoin txid h cb i outs p = none := by
  induction outs generalizing i with
  | nil => rfl
  | cons out outs ih =>
    have hne : p ≠ ⟨txid, i⟩ := by
      rintro rfl
      exact lt_irrefl _ hp
    rw [createdCoin, if_neg hne]
    exact ih (Nat.lt_succ_of_lt hp)

variable {out : TxOut} {c : Coin} {ex : Bool} {s : DisconnectState}

theorem createdCoin_cons_of_unspendable (hu : isUnspendable out.scriptPubKey = true)
    (p : OutPoint) :
    createdCoin txid h cb i (out :: outs) p = createdCoin txid h cb (i + 1) outs p := by
  rw [createdCoin]
  split_ifs with hp
  · exact (createdCoin_of_lt (by rw [hp]; exact Nat.lt_succ_self i)).symm
  · rfl

theorem createdCoin_cons_of_spendable (hu : isUnspendable out.scriptPubKey = false) (p : OutPoint) :
    createdCoin txid h cb i (out :: outs) p =
      if p = ⟨txid, i⟩ then some ⟨out, cb, h⟩ else createdCoin txid h cb (i + 1) outs p := by
  rw [createdCoin, hu, if_neg Bool.false_ne_true]

theorem createdCoin_succ_ne (hc : createdCoin txid h cb (i + 1) outs p = some c) :
    p ≠ ⟨txid, i⟩ := by
  rintro rfl
  rw [createdCoin_of_lt (Nat.lt_succ_self i)] at hc
  cases hc

theorem createdCoin_eq_some_iff :
    createdCoin txid h cb i outs p = some c ↔
      p.hash = txid ∧ ∃ k out, p.n = i + k ∧ outs[k]? = some out ∧
        isUnspendable out.scriptPubKey = false ∧ c = ⟨out, cb, h⟩ := by
  induction outs generalizing i with
  | nil => simp [createdCoin]
  | cons out outs ih =>
    by_cases hp : p = ⟨txid, i⟩
    · have hfirst : ∀ k out', p.n = i + k → (out :: outs)[k]? = some out' → out' = out := by
        intro k out' hk hout
        rw [hp] at hk
        obtain rfl : k = 0 := by
          simp only at hk
          omega
        exact (Option.some.inj hout).symm
      rw [createdCoin]
      split_ifs with hu
      · constructor
        · intro hc
          cases hc
        · rintro ⟨-, k, out', hk, hout, hs, -⟩
          rw [hfirst k out' hk hout, hu] at hs
          cases hs
      · rw [Option.some.injEq]
        constructor
        · rintro rfl
          exact ⟨by rw [hp], 0, out, by rw [hp, Nat.add_zero], rfl, by simpa using hu, rfl⟩
        · rintro ⟨-, k, out', hk, hout, -, rfl⟩
          rw [hfirst k out' hk hout]
    · rw [createdCoin, if_neg hp, ih]
      constructor
      · rintro ⟨hhash, k, out', hk, hout, hs, rfl⟩
        exact ⟨hhash, k + 1, out', by omega, hout, hs, rfl⟩
      · rintro ⟨hhash, k, out', hk, hout, hs, rfl⟩
        cases k with
        | zero =>
          exact absurd (congrArg₂ OutPoint.mk hhash hk) hp
        | succ k => exact ⟨hhash, k, out', by omega, hout, hs, rfl⟩

theorem getCoin_of_createdCoin (hvacant : ∀ k < outs.length, m.getCoin ⟨txid, k⟩ = none)
    (hp : createdCoin txid h cb 0 outs p ≠ none) : p.hash = txid ∧ m.getCoin p = none := by
  obtain ⟨c, hc⟩ := Option.ne_none_iff_exists'.mp hp
  obtain ⟨hhash, k, out, hn, hout, -⟩ := createdCoin_eq_some_iff.mp hc
  rw [Nat.zero_add] at hn
  have hnone := hvacant k (List.getElem?_eq_some_iff.mp hout).1
  rw [← hhash, ← hn] at hnone
  exact ⟨hhash, hnone⟩

/-- What `AddCoins` leaves: the created coins over the map. Without overwriting there was nothing
in their places. -/
theorem addOutputs_getCoin (hadd : addOutputs txid h cb m i outs = .ok m₁) :
    (∀ p, m₁.getCoin p = (createdCoin txid h cb i outs p).or (m.getCoin p)) ∧
      (cb = false → ∀ p, createdCoin txid h cb i outs p ≠ none → m.getCoin p = none) := by
  induction outs generalizing m i with
  | nil =>
    cases hadd
    exact ⟨fun p => rfl, fun _ p hp => absurd rfl hp⟩
  | cons out outs ih =>
    obtain ⟨m', hfirst, hrest⟩ := bind_eq_ok_iff.mp hadd
    obtain ⟨hget, hfresh⟩ := ih hrest
    have hadded := UtxoMap.getCoin_addCoin hfirst
    constructor
    · intro p
      rw [hget p, hadded p, createdCoin]
      by_cases hp : p = ⟨txid, i⟩
      · have hlater : createdCoin txid h cb (i + 1) outs p = none :=
          createdCoin_of_lt (by rw [hp]; exact Nat.lt_succ_self i)
        cases isUnspendable out.scriptPubKey <;> simp [hp, hp ▸ hlater]
      · simp [hp]
    · intro hcb p hp
      rw [createdCoin] at hp
      split_ifs at hp with heq hu
      · exact absurd rfl hp
      · obtain ⟨-, ⟨hun, -⟩ | ⟨-, how | hnone, -⟩⟩ := UtxoMap.addCoin_cases hfirst
        · exact absurd hun hu
        · rw [hcb] at how
          cases how
        · rw [heq, UtxoMap.getCoin, hnone, Option.map_none]
      · rw [← hfresh hcb p hp, hadded p, if_neg (fun hand => heq hand.1)]

theorem outputMatches_iff {spent : Option Coin} :
    outputMatches spent out h cb = true ↔ spent = some ⟨out, cb, h⟩ := by
  cases spent with
  | none => simp [outputMatches]
  | some coin =>
    obtain ⟨cout, ccb, ch⟩ := coin
    simp only [outputMatches, Bool.and_eq_true, beq_iff_eq, Option.some.injEq, Coin.mk.injEq]
    constructor
    · rintro ⟨⟨rfl, rfl⟩, rfl⟩
      exact ⟨rfl, rfl, rfl⟩
    · rintro ⟨rfl, rfl, rfl⟩
      exact ⟨⟨rfl, rfl⟩, rfl⟩

theorem removeOutputs_cons_of_unspendable (hu : isUnspendable out.scriptPubKey = true) :
    removeOutputs txid h cb ex s i (out :: outs) = removeOutputs txid h cb ex s (i + 1) outs := by
  rw [removeOutputs, if_pos hu]

theorem removeOutputs_cons_of_spendable (hu : isUnspendable out.scriptPubKey = false) :
    removeOutputs txid h cb ex s i (out :: outs) =
      removeOutputs txid h cb ex
        ⟨s.fClean && (outputMatches (s.coins.getCoin ⟨txid, i⟩) out h cb || ex),
          s.coins.spendCoin ⟨txid, i⟩⟩ (i + 1) outs := by
  rw [removeOutputs, hu, if_neg Bool.false_ne_true]

theorem removeOutputs_getCoin (ex : Bool) (s : DisconnectState) (p : OutPoint) :
    (removeOutputs txid h cb ex s i outs).coins.getCoin p =
      if (createdCoin txid h cb i outs p).isSome then none else s.coins.getCoin p := by
  induction outs generalizing s i with
  | nil => rfl
  | cons out outs ih =>
    cases hu : isUnspendable out.scriptPubKey with
    | true => rw [removeOutputs_cons_of_unspendable hu, ih, createdCoin_cons_of_unspendable hu]
    | false =>
      rw [removeOutputs_cons_of_spendable hu, ih, createdCoin_cons_of_spendable hu,
        UtxoMap.getCoin_spendCoin]
      by_cases hp : p = ⟨txid, i⟩ <;> simp [hp]

/-- It stays clean where the created coins are there, and in the exempt blocks. -/
theorem removeOutputs_clean_iff (ex : Bool) (s : DisconnectState) :
    (removeOutputs txid h cb ex s i outs).fClean = true ↔ s.fClean = true ∧
      (ex = true ∨ ∀ p c, createdCoin txid h cb i outs p = some c → s.coins.getCoin p = some c) := by
  induction outs generalizing s i with
  | nil =>
    refine ⟨fun hs => ⟨hs, .inr fun p c hc => ?_⟩, fun hs => hs.1⟩
    cases hc
  | cons out outs ih =>
    cases hu : isUnspendable out.scriptPubKey with
    | true =>
      simp [removeOutputs_cons_of_unspendable hu, ih, createdCoin_cons_of_unspendable hu]
    | false =>
      rw [removeOutputs_cons_of_spendable hu, ih]
      cases ex with
      | true => simp
      | false =>
        simp only [Bool.or_false, Bool.and_eq_true, outputMatches_iff, Bool.false_eq_true,
          false_or, and_assoc, createdCoin_cons_of_spendable hu, UtxoMap.getCoin_spendCoin]
        refine and_congr_right fun _ => ⟨fun ⟨hhere, hlater⟩ p c hc => ?_, fun hall => ⟨?_, ?_⟩⟩
        · split_ifs at hc with hp
          · rw [hp, hhere, hc]
          · have hkept := hlater p c hc
            rwa [if_neg hp] at hkept
        · exact hall ⟨txid, i⟩ _ (if_pos rfl)
        · intro p c hc
          have hp := createdCoin_succ_ne hc
          rw [if_neg hp]
          exact hall p c (by rw [if_neg hp, hc])

theorem removeOutputs_of_added (ex : Bool) (hadd : addOutputs txid h cb m i outs = .ok m₁)
    (hfresh : ∀ p, createdCoin txid h cb i outs p ≠ none → m.getCoin p = none) :
    removeOutputs txid h cb ex ⟨true, m₁⟩ i outs = ⟨true, m⟩ := by
  obtain ⟨hget, -⟩ := addOutputs_getCoin hadd
  have hclean : (removeOutputs txid h cb ex ⟨true, m₁⟩ i outs).fClean = true := by
    refine (removeOutputs_clean_iff ex _).mpr ⟨rfl, .inr fun p c hc => ?_⟩
    simp only [hget p, hc, Option.some_or]
  have hcoins : (removeOutputs txid h cb ex ⟨true, m₁⟩ i outs).coins = m := by
    apply UtxoMap.ext_getCoin
    intro p
    simp only [removeOutputs_getCoin, hget p]
    cases hc : createdCoin txid h cb i outs p with
    | none => simp
    | some c => simp [hfresh p (by simp [hc])]
  exact DisconnectState.ext hclean hcoins

theorem eq_of_removeOutputs (hadd : addOutputs txid h cb m i outs = .ok m₁)
    (hs : removeOutputs txid h cb ex s i outs = ⟨true, m⟩)
    (hthere : ∀ p c, createdCoin txid h cb i outs p = some c → s.coins.getCoin p = some c) :
    s = ⟨true, m₁⟩ := by
  obtain ⟨hget, -⟩ := addOutputs_getCoin hadd
  have hclean : s.fClean = true :=
    ((removeOutputs_clean_iff ex s).mp (congrArg DisconnectState.fClean hs)).1
  have hcoins : s.coins = m₁ := by
    apply UtxoMap.ext_getCoin
    intro p
    have hback : (removeOutputs txid h cb ex s i outs).coins.getCoin p = _ :=
      removeOutputs_getCoin ex s p
    rw [hs] at hback
    rw [hget p]
    cases hc : createdCoin txid h cb i outs p with
    | none => simpa [hc] using hback.symm
    | some c => exact hthere p c hc
  exact DisconnectState.ext hclean hcoins

theorem removeOutputs_iff (hadd : addOutputs txid h cb m i outs = .ok m₁)
    (hfresh : ∀ p, createdCoin txid h cb i outs p ≠ none → m.getCoin p = none) :
    removeOutputs txid h cb false s i outs = ⟨true, m⟩ ↔ s = ⟨true, m₁⟩ := by
  constructor
  · intro hs
    have hclean := (removeOutputs_clean_iff false s).mp (congrArg DisconnectState.fClean hs)
    exact eq_of_removeOutputs hadd hs (hclean.2.resolve_left Bool.false_ne_true)
  · rintro rfl
    exact removeOutputs_of_added false hadd hfresh

theorem addOutputs_allStorable (hm : m.AllStorable) (hpos : 0 < h) (hlt : h < 2 ^ 31)
    (hadd : addOutputs txid h cb m i outs = .ok m₁) : m₁.AllStorable := by
  obtain ⟨hget, -⟩ := addOutputs_getCoin hadd
  intro p c hp
  rw [hget p] at hp
  cases hc : createdCoin txid h cb i outs p with
  | none =>
    rw [hc] at hp
    exact hm p c hp
  | some d =>
    rw [hc] at hp
    cases hp
    obtain ⟨-, k, out, -, -, hu, rfl⟩ := createdCoin_eq_some_iff.mp hc
    exact ⟨hu, hpos, hlt⟩

end Outputs

section Transactions

variable {R : BlockRules} {h : ℕ} {m m₁ : UtxoMap} {tx : Transaction} {cs ds : TxUndo}
variable {fEnforce : Bool}

theorem updateCoins_allStorable (hpos : 0 < h) (hlt : h < 2 ^ 31) (hm : m.AllStorable)
    (hu : updateCoins R m tx h = .ok (m₁, cs)) : m₁.AllStorable ∧ ∀ c ∈ cs, Storable c := by
  cases hcb : tx.isCoinBase with
  | true =>
    obtain ⟨rfl, hadd⟩ := updateCoins_coinbase_ok hcb hu
    exact ⟨addOutputs_allStorable hm hpos hlt hadd, by simp⟩
  | false =>
    obtain ⟨m', hspend, hadd⟩ := updateCoins_ok hcb hu
    obtain ⟨hm', hcs⟩ := spendInputs_allStorable hm hspend
    exact ⟨addOutputs_allStorable hm' hpos hlt hadd, hcs⟩

/-- A transaction is taken back cleanly to the map it was applied to only from the map it left and
with the coins it spent. -/
theorem disconnectTx_iff {s : DisconnectState} (hcb : tx.isCoinBase = false) (hm : m.AllStorable)
    (hu : updateCoins R m tx h = .ok (m₁, cs)) (hds : ∀ d ∈ ds, d.nHeight ≠ 0) :
    disconnectTx R h fEnforce s (tx, ds) = .ok ⟨true, m⟩ ↔ s = ⟨true, m₁⟩ ∧ ds = cs := by
  obtain ⟨m', hspend, hadd⟩ := updateCoins_ok hcb hu
  unfold addCoins at hadd
  rw [hcb] at hadd
  have hout : disconnectOutputs R h fEnforce s tx = ⟨true, m'⟩ ↔ s = ⟨true, m₁⟩ := by
    unfold disconnectOutputs
    rw [hcb]
    exact removeOutputs_iff hadd ((addOutputs_getCoin hadd).2 rfl)
  have hlen := spendInputs_length hspend
  unfold disconnectTx
  by_cases hsize : ds.length = tx.vin.length
  · rw [if_neg (not_not.mpr hsize), restoreInputs_iff hm hspend hsize hds, hout]
  · rw [if_pos hsize]
    constructor
    · intro hfail
      cases hfail
    · rintro ⟨-, rfl⟩
      exact absurd hlen hsize

/-- The transaction neither spends nor creates the outpoint. -/
def Untouched (R : BlockRules) (h : ℕ) (tx : Transaction) (p : OutPoint) : Prop :=
  p ∉ tx.vin.map TxIn.prevout ∧ createdCoin (R.txid tx) h tx.isCoinBase 0 tx.vout p = none

theorem disconnectTx_untouched {s s' : DisconnectState} {p : OutPoint} (hp : Untouched R h tx p)
    (hstep : disconnectTx R h fEnforce s (tx, ds) = .ok s') :
    s'.coins.getCoin p = s.coins.getCoin p := by
  obtain ⟨hvin, hvout⟩ := hp
  unfold disconnectTx at hstep
  split at hstep
  · cases hstep
  have hout : (disconnectOutputs R h fEnforce s tx).coins.getCoin p = s.coins.getCoin p := by
    rw [disconnectOutputs, removeOutputs_getCoin, hvout]
    rfl
  refine run_invariant (P := fun t => t.coins.getCoin p = s.coins.getCoin p) ?_ hout hstep
  intro t a t' ha ht hrestore
  obtain ⟨⟨clean, m'⟩, happly, rfl⟩ := map_eq_ok_iff.mp hrestore
  obtain ⟨coin, -, hmap⟩ := bind_eq_ok_iff.mp happly
  obtain ⟨m'', hadd, heq⟩ := map_eq_ok_iff.mp hmap
  obtain ⟨-, rfl⟩ := Prod.mk.inj heq
  have hne : p ≠ a.1.prevout := by
    rintro rfl
    exact hvin (List.mem_map_of_mem (List.of_mem_zip (List.mem_reverse.mp ha)).1)
  rw [← ht]
  simp [UtxoMap.getCoin_addCoin (mapError_eq_ok_iff.mp hadd) p, hne]

end Transactions

end Tarcoin
