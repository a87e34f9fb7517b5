import Tarcoin.Coins.Utxo
import Tarcoin.Consensus.TxCheck

/-! `Consensus::CheckTxInputs` of `consensus/tx_verify.cpp` over the UTXO map. -/
namespace Tarcoin
open GuardedSum

def haveInputs (m : UtxoMap) (tx : Transaction) : Bool :=
  tx.isCoinBase || tx.vin.all fun i => m.haveCoin i.prevout

def isPremature (nSpendHeight : ℕ) (coin : Coin) : Bool :=
  coin.fCoinBase && decide ((nSpendHeight : ℤ) - coin.nHeight < coinbaseMaturity)

/-- The input loop of `CheckTxInputs`, over the coins the inputs access. -/
def checkInputCoins (nSpendHeight : ℕ) : Amount → List Coin → AmountRun Amount
  | nValueIn, [] => ⟨.ok nValueIn, []⟩
  | nValueIn, coin :: rest =>
    if coin.isSpent then ⟨.error (.fault .assertion), []⟩
    else if isPremature nSpendHeight coin then ⟨.error (.invalid .prematureSpendOfCoinbase), []⟩
    else if MoneyRange coin.out.nValue ∧ MoneyRange (addAmount nValueIn coin.out.nValue) then
      let tail := checkInputCoins nSpendHeight (addAmount nValueIn coin.out.nValue) rest
      ⟨tail.result, (nValueIn + coin.out.nValue) :: tail.sums⟩
    else ⟨.error (.invalid .inputValuesOutOfRange), [nValueIn + coin.out.nValue]⟩

def spentCoins (m : UtxoMap) (tx : Transaction) : List Coin :=
  tx.vin.map fun i => m.accessCoin i.prevout

def tallyFee (nValueIn valueOut : Amount) : Except TxFailure Amount :=
  if nValueIn < valueOut then .error (.invalid .inBelowOut)
  else if MoneyRange (wrap 64 (nValueIn - valueOut)) then .ok (wrap 64 (nValueIn - valueOut))
  else .error (.invalid .feeOutOfRange)

/-- `CheckTxInputs` with the additions of its input loop; the result is the fee. -/
def checkTxInputsRun (m : UtxoMap) (nSpendHeight : ℕ) (tx : Transaction) : AmountRun Amount :=
  if haveInputs m tx then
    let ins := checkInputCoins nSpendHeight 0 (spentCoins m tx)
    ⟨ins.result.bind fun nValueIn => (getValueOut tx).bind fun valueOut =>
      tallyFee nValueIn valueOut, ins.sums⟩
  else ⟨.error (.invalid .inputsMissingOrSpent), []⟩

def checkTxInputs (m : UtxoMap) (nSpendHeight : ℕ) (tx : Transaction) : Except TxFailure Amount :=
  (checkTxInputsRun m nSpendHeight tx).result

def totalCoins (coins : List Coin) : ℤ := (coins.map fun c => c.out.nValue).sum

@[simp] theorem totalCoins_nil : totalCoins [] = 0 := rfl

@[simp] theorem totalCoins_cons (c : Coin) (coins : List Coin) :
    totalCoins (c :: coins) = c.out.nValue + totalCoins coins := by simp [totalCoins]

variable {h : ℕ} {acc n fee : Amount} {coins : List Coin} {m : UtxoMap} {tx : Transaction}

theorem checkInputCoins_ok (ha : MoneyRange acc)
    (hc : (checkInputCoins h acc coins).result = .ok n) :
    (∀ c ∈ coins, isPremature h c = false ∧ c.isSpent = false ∧ MoneyRange c.out.nValue) ∧
      n = acc + totalCoins coins ∧ MoneyRange n := by
  induction coins generalizing acc with
  | nil =>
    cases hc
    simpa using ha
  | cons c coins ih =>
    unfold checkInputCoins at hc
    split_ifs at hc with hs hp hr
    obtain ⟨hall, hn, hmr⟩ := ih hr.2 hc
    refine ⟨List.forall_mem_cons.mpr ⟨⟨by simpa using hp, by simpa using hs, hr.1⟩, hall⟩, ?_, hmr⟩
    rw [hn, addAmount_eq ha hr.1 hr.2, totalCoins_cons]
    ring

theorem checkTxInputs_mature (hok : checkTxInputs m h tx = .ok fee) :
    ∀ c ∈ spentCoins m tx, isPremature h c = false := by
  unfold checkTxInputs checkTxInputsRun at hok
  split_ifs at hok with hi
  cases hin : (checkInputCoins h 0 (spentCoins m tx)).result with
  | error e => simp [hin, Except.bind] at hok
  | ok n => exact fun c hc => ((checkInputCoins_ok moneyRange_zero hin).1 c hc).1

theorem tallyFee_ok {a b : Amount} (ha : MoneyRange a) (hb : MoneyRange b)
    (h : tallyFee a b = .ok fee) : fee = a - b ∧ MoneyRange fee := by
  unfold tallyFee at h
  split_ifs at h with hlt hr
  cases h
  refine ⟨wrap_of_fits (by norm_num) ⟨?_, ?_⟩, hr⟩
  · have hp : (0 : ℤ) < 2 ^ (64 - 1) := by norm_num
    linarith [not_lt.mp hlt]
  · linarith [ha.2, hb.1, maxMoney_lt_int64]

/-- What `CheckTxInputs` guarantees: the spent coins are unspent and in range, and
the fee is the exact surplus of their values over the outputs. -/
theorem checkTxInputs_ok (hchk : CheckedTx tx) (hok : checkTxInputs m h tx = .ok fee) :
    haveInputs m tx = true ∧
      (∀ c ∈ spentCoins m tx, c.isSpent = false ∧ MoneyRange c.out.nValue) ∧
      fee = totalCoins (spentCoins m tx) - totalValue tx.vout ∧ MoneyRange fee := by
  unfold checkTxInputs checkTxInputsRun at hok
  split_ifs at hok with hi
  cases hin : (checkInputCoins h 0 (spentCoins m tx)).result with
  | error e => simp [hin, Except.bind] at hok
  | ok n =>
    obtain ⟨hall, hn, hr⟩ := checkInputCoins_ok moneyRange_zero hin
    simp only [hin, Except.bind, getValueOut_of_checked hchk] at hok
    obtain ⟨hfee, hfr⟩ := tallyFee_ok hr hchk.total hok
    rw [zero_add] at hn
    exact ⟨hi, fun c hc => (hall c hc).2, hn ▸ hfee, hfr⟩

def entersInputSum (nSpendHeight : ℕ) (coin : Coin) : Bool :=
  !coin.isSpent && !isPremature nSpendHeight coin

def coinInRange (coin : Coin) : Bool := decide (MoneyRange coin.out.nValue)

theorem checkInputCoins_sums (h : ℕ) (acc : Amount) (coins : List Coin) :
    (checkInputCoins h acc coins).sums =
      sums 64 maxMoney (entersInputSum h) coinInRange (fun c => c.out.nValue) acc coins := by
  induction coins generalizing acc with
  | nil => rfl
  | cons c coins ih =>
    unfold checkInputCoins sums
    by_cases hs : c.isSpent = true
    · simp [hs, entersInputSum]
    by_cases hp : isPremature h c = true
    · simp [hs, hp, entersInputSum]
    have he : entersInputSum h c = true := by simp [entersInputSum, hs, hp]
    simp only [if_neg hs, if_neg hp, if_pos he, coinInRange, Bool.and_eq_true, decide_eq_true_eq]
    simp only [apply_ite AmountRun.sums, ih]
    rfl

/-- Every 64-bit addition that `CheckTransaction`, `GetValueOut` and the input loop of
`CheckTxInputs` evaluate for this transaction has a representable exact result. -/
def AmountSumsFit (m : UtxoMap) (nSpendHeight : ℕ) (tx : Transaction) : Prop :=
  (∀ s ∈ (checkTransactionRun tx).sums, Fits 64 s) ∧
  (∀ s ∈ (getValueOutRun tx).sums, Fits 64 s) ∧
  ∀ s ∈ (checkTxInputsRun m nSpendHeight tx).sums, Fits 64 s

instance (m : UtxoMap) (h : ℕ) (tx : Transaction) : Decidable (AmountSumsFit m h tx) := by
  unfold AmountSumsFit
  infer_instance

/-- Some output is in range, follows in-range outputs with a total of at most
`maxMoney`, and takes that total past the largest 64-bit integer. -/
def OutputsOverflow (tx : Transaction) : Prop :=
  Overflows 64 maxMoney valueInRange (fun _ => true) TxOut.nValue 0 tx.vout

/-- All inputs are available, and some mature spent coin follows mature in-range
coins with a total of at most `maxMoney` and takes that total past the largest
64-bit integer. -/
def InputsOverflow (m : UtxoMap) (nSpendHeight : ℕ) (tx : Transaction) : Prop :=
  haveInputs m tx = true ∧ Overflows 64 maxMoney (entersInputSum nSpendHeight) coinInRange
    (fun c => c.out.nValue) 0 (spentCoins m tx)

private theorem outputs_fit_iff (tx : Transaction) :
    (∀ s ∈ sums 64 maxMoney valueInRange (fun _ => true) TxOut.nValue 0 tx.vout, Fits 64 s) ↔
      ¬ OutputsOverflow tx := by
  apply sums_fit_iff (by norm_num) maxMoney_lt_int64 _ _ _ moneyRange_zero
  intro o _ ho
  exact of_decide_eq_true ho

private theorem checkTransaction_fit (tx : Transaction) (h : ¬ OutputsOverflow tx) :
    ∀ s ∈ (checkTransactionRun tx).sums, Fits 64 s := by
  unfold checkTransactionRun
  split_ifs <;> simp only [List.not_mem_nil, false_implies, implies_true]
  rw [checkOutputs_sums]
  exact (outputs_fit_iff tx).mpr h

/-- Spent coins in range as the caller provides them. -/
def SpentInRange (m : UtxoMap) (tx : Transaction) : Prop :=
  ∀ i ∈ tx.vin, ∀ c, m.lookup i.prevout = some c → MoneyRange c.val.out.nValue

private theorem inputs_fit_iff (h : ℕ) (hm : SpentInRange m tx) :
    (∀ s ∈ (checkTxInputsRun m h tx).sums, Fits 64 s) ↔ ¬ InputsOverflow m h tx := by
  unfold checkTxInputsRun InputsOverflow
  by_cases hi : haveInputs m tx = true
  · simp only [checkInputCoins_sums, hi, true_and]
    apply sums_fit_iff (by norm_num) maxMoney_lt_int64 _ _ _ moneyRange_zero
    intro c hc he
    obtain ⟨i, hiv, rfl⟩ := List.mem_map.mp hc
    cases hl : m.lookup i.prevout with
    | none => simp [entersInputSum, UtxoMap.accessCoin, UtxoMap.getCoin, hl] at he
    | some u =>
      rw [UtxoMap.accessCoin_of_lookup hl]
      exact hm i hiv u hl
  · simp [hi]

/-- No addition overflows exactly when neither the outputs nor the spent coins hold a
guarded prefix that the next value takes past `2 ^ 63 - 1`. -/
theorem amountSums_fit_iff (m : UtxoMap) (nSpendHeight : ℕ) (tx : Transaction)
    (hm : SpentInRange m tx) :
    AmountSumsFit m nSpendHeight tx ↔ ¬ OutputsOverflow tx ∧ ¬ InputsOverflow m nSpendHeight tx := by
  unfold AmountSumsFit
  rw [inputs_fit_iff nSpendHeight hm]
  have hv : (∀ s ∈ (getValueOutRun tx).sums, Fits 64 s) ↔ ¬ OutputsOverflow tx := by
    rw [← outputs_fit_iff tx]
    simp only [getValueOutRun, sumValueOut_sums]
  rw [hv]
  constructor
  · exact fun h => h.2
  · exact fun h => ⟨checkTransaction_fit tx h.1, h⟩

def spendOne (vout : List TxOut) : Transaction where
  version := 2
  vin := [⟨⟨1, 0⟩, [], 0xffffffff, []⟩]
  vout := vout
  nLockTime := 0

def oneCoin (nValue : Amount) (h : (Coin.mk ⟨nValue, [opDup]⟩ false 1).isSpent = false) : UtxoMap :=
  Finmap.insert ⟨1, 0⟩ ⟨⟨⟨nValue, [opDup]⟩, false, 1⟩, h⟩ ∅

private theorem oneCoin_spentInRange {nValue : Amount} (hv : MoneyRange nValue)
    (h : (Coin.mk ⟨nValue, [opDup]⟩ false 1).isSpent = false) (vout : List TxOut) :
    SpentInRange (oneCoin nValue h) (spendOne vout) := by
  intro i hi c hc
  obtain rfl := List.mem_singleton.mp hi
  cases hc
  exact hv

theorem amountSums_fit_premine :
    SpentInRange (oneCoin 1000000000000000000 rfl) (spendOne [⟨1000000000000000000, [opDup]⟩]) ∧
      (AmountSumsFit (oneCoin 1000000000000000000 rfl) 2
          (spendOne [⟨1000000000000000000, [opDup]⟩]) ↔
        ¬ OutputsOverflow (spendOne [⟨1000000000000000000, [opDup]⟩]) ∧
        ¬ InputsOverflow (oneCoin 1000000000000000000 rfl) 2
          (spendOne [⟨1000000000000000000, [opDup]⟩])) := by
  have hm := oneCoin_spentInRange (show MoneyRange 1000000000000000000 by decide) rfl
    [⟨1000000000000000000, [opDup]⟩]
  exact ⟨hm, amountSums_fit_iff _ 2 _ hm⟩

/-- Two outputs of `MAX_MONEY` each: the second is added to the first before any total is
compared, and `2 * MAX_MONEY` is not a 64-bit integer. -/
theorem amountSums_overflow_twoMax :
    SpentInRange (oneCoin maxMoney rfl) (spendOne [⟨maxMoney, []⟩, ⟨maxMoney, []⟩]) ∧
      ¬ AmountSumsFit (oneCoin maxMoney rfl) 2 (spendOne [⟨maxMoney, []⟩, ⟨maxMoney, []⟩]) :=
  ⟨oneCoin_spentInRange (by decide) rfl _, by decide⟩

end Tarcoin
