import Tarcoin.Primitives.Transaction

/-! `CheckTransaction` of `consensus/tx_check.cpp` and `CTransaction::GetValueOut`, with the exact
results of the additions they evaluate. -/
namespace Tarcoin
open GuardedSum

inductive TxValidationResult where
  | txConsensus | txMissingInputs | txPrematureSpend
  deriving DecidableEq, Repr

inductive TxRejectReason where
  | vinEmpty | voutEmpty | oversize | voutNegative | voutTooLarge | outTotalTooLarge
  | inputsDuplicate | cbLength | prevoutNull
  | inputsMissingOrSpent | prematureSpendOfCoinbase | inputValuesOutOfRange
  | inBelowOut | feeOutOfRange
  deriving DecidableEq, Repr

namespace TxRejectReason

def result : TxRejectReason → TxValidationResult
  | inputsMissingOrSpent => .txMissingInputs
  | prematureSpendOfCoinbase => .txPrematureSpend
  | _ => .txConsensus

end TxRejectReason

inductive TxFailure where
  | invalid (reason : TxRejectReason)
  | fault (f : Fault)
  deriving DecidableEq, Repr

/-- A result together with the exact results of the amount additions behind it. -/
structure AmountRun (α : Type) where
  result : Except TxFailure α
  sums : List ℤ

def checkOutputs : Amount → List TxOut → AmountRun Amount
  | nValueOut, [] => ⟨.ok nValueOut, []⟩
  | nValueOut, txout :: rest =>
    if txout.nValue < 0 then ⟨.error (.invalid .voutNegative), []⟩
    else if maxMoney < txout.nValue then ⟨.error (.invalid .voutTooLarge), []⟩
    else if MoneyRange (addAmount nValueOut txout.nValue) then
      let tail := checkOutputs (addAmount nValueOut txout.nValue) rest
      ⟨tail.result, (nValueOut + txout.nValue) :: tail.sums⟩
    else ⟨.error (.invalid .outTotalTooLarge), [nValueOut + txout.nValue]⟩

/-- The input checks that close `CheckTransaction`. -/
def checkInputsShape (tx : Transaction) : Except TxFailure Unit :=
  if ¬ (tx.vin.map TxIn.prevout).Nodup then .error (.invalid .inputsDuplicate)
  else if tx.isCoinBase then
    if tx.vin.head?.any fun i => decide (i.scriptSig.length < 2 ∨ 100 < i.scriptSig.length) then
      .error (.invalid .cbLength)
    else .ok ()
  else if tx.vin.any fun i => i.prevout.isNull then .error (.invalid .prevoutNull)
  else .ok ()

def isOversize (tx : Transaction) : Bool :=
  decide (maxBlockWeight < tx.serializeSizeNoWitness * witnessScaleFactor)

def checkTransactionRun (tx : Transaction) : AmountRun Unit :=
  if tx.vin = [] then ⟨.error (.invalid .vinEmpty), []⟩
  else if tx.vout = [] then ⟨.error (.invalid .voutEmpty), []⟩
  else if isOversize tx then ⟨.error (.invalid .oversize), []⟩
  else
    let outs := checkOutputs 0 tx.vout
    ⟨outs.result.bind fun _ => checkInputsShape tx, outs.sums⟩

def checkTransaction (tx : Transaction) : Except TxFailure Unit := (checkTransactionRun tx).result

/-- The loop of `GetValueOut`. The sum is computed in the guard and again by `+=`;
it is recorded once. -/
def sumValueOut : Amount → List TxOut → AmountRun Amount
  | nValueOut, [] => ⟨.ok nValueOut, []⟩
  | nValueOut, txout :: rest =>
    if MoneyRange txout.nValue then
      if MoneyRange (addAmount nValueOut txout.nValue) then
        let tail := sumValueOut (addAmount nValueOut txout.nValue) rest
        ⟨tail.result, (nValueOut + txout.nValue) :: tail.sums⟩
      else ⟨.error (.fault .runtimeError), [nValueOut + txout.nValue]⟩
    else ⟨.error (.fault .runtimeError), []⟩

def getValueOutRun (tx : Transaction) : AmountRun Amount :=
  let total := sumValueOut 0 tx.vout
  ⟨total.result.bind fun n => if MoneyRange n then .ok n else .error (.fault .assertion), total.sums⟩

def getValueOut (tx : Transaction) : Except TxFailure Amount := (getValueOutRun tx).result

theorem moneyRange_zero : MoneyRange 0 := by decide

def totalValue (outs : List TxOut) : ℤ := (outs.map TxOut.nValue).sum

@[simp] theorem totalValue_nil : totalValue [] = 0 := rfl

@[simp] theorem totalValue_cons (o : TxOut) (outs : List TxOut) :
    totalValue (o :: outs) = o.nValue + totalValue outs := by simp [totalValue]

variable {acc : Amount} {outs : List TxOut} {tx : Transaction}

theorem checkOutputs_ok {n : Amount} (ha : MoneyRange acc)
    (h : (checkOutputs acc outs).result = .ok n) :
    (∀ o ∈ outs, MoneyRange o.nValue) ∧ n = acc + totalValue outs ∧ MoneyRange n := by
  induction outs generalizing acc with
  | nil =>
    cases h
    simpa using ha
  | cons o outs ih =>
    unfold checkOutputs at h
    split_ifs at h with hneg hbig hr
    have ho : MoneyRange o.nValue := ⟨not_lt.mp hneg, not_lt.mp hbig⟩
    obtain ⟨hall, hn, hmr⟩ := ih hr h
    refine ⟨List.forall_mem_cons.mpr ⟨ho, hall⟩, ?_, hmr⟩
    rw [hn, addAmount_eq ha ho hr, totalValue_cons]
    ring

theorem sumValueOut_eq (ha : MoneyRange acc) (hall : ∀ o ∈ outs, MoneyRange o.nValue)
    (ht : acc + totalValue outs ≤ maxMoney) :
    (sumValueOut acc outs).result = .ok (acc + totalValue outs) := by
  induction outs generalizing acc with
  | nil => simp [sumValueOut]
  | cons o outs ih =>
    obtain ⟨ho, hrest⟩ := List.forall_mem_cons.mp hall
    have hnn : 0 ≤ totalValue outs := List.sum_nonneg (by simpa using fun x hx => (hrest x hx).1)
    rw [totalValue_cons] at ht
    have hr : MoneyRange (addAmount acc o.nValue) :=
      (moneyRange_addAmount_iff ha ho).mpr (by linarith)
    have he := addAmount_eq ha ho hr
    simp only [sumValueOut, if_pos ho, if_pos hr]
    rw [ih hr hrest (by rw [he]; linarith), he, totalValue_cons, add_assoc]

theorem checkInputsShape_nodup (h : checkInputsShape tx = .ok ()) :
    (tx.vin.map TxIn.prevout).Nodup := by
  unfold checkInputsShape at h
  split_ifs at h <;> simp_all

/-- What `CheckTransaction` guarantees about an accepted transaction. -/
structure CheckedTx (tx : Transaction) : Prop where
  vin_ne : tx.vin ≠ []
  vout_ne : tx.vout ≠ []
  size_le : tx.serializeSizeNoWitness * witnessScaleFactor ≤ maxBlockWeight
  values : ∀ o ∈ tx.vout, MoneyRange o.nValue
  total : MoneyRange (totalValue tx.vout)
  prevouts_nodup : (tx.vin.map TxIn.prevout).Nodup

theorem checkTransaction_ok (h : checkTransaction tx = .ok ()) : CheckedTx tx := by
  unfold checkTransaction checkTransactionRun at h
  split_ifs at h with hin hout hsize
  cases ho : (checkOutputs 0 tx.vout).result with
  | error e => simp [ho, Except.bind] at h
  | ok n =>
    obtain ⟨hv, hn, hr⟩ := checkOutputs_ok moneyRange_zero ho
    simp only [ho, Except.bind] at h
    rw [zero_add] at hn
    exact ⟨hin, hout, by simpa [isOversize] using hsize, hv, hn ▸ hr, checkInputsShape_nodup h⟩

theorem getValueOut_of_checked (h : CheckedTx tx) : getValueOut tx = .ok (totalValue tx.vout) := by
  have hs := sumValueOut_eq moneyRange_zero h.values (by simpa using h.total.2)
  simp [getValueOut, getValueOutRun, hs, Except.bind, h.total]

def valueInRange (o : TxOut) : Bool := decide (MoneyRange o.nValue)

theorem checkOutputs_sums (acc : Amount) (outs : List TxOut) :
    (checkOutputs acc outs).sums =
      sums 64 maxMoney valueInRange (fun _ => true) TxOut.nValue acc outs := by
  induction outs generalizing acc with
  | nil => rfl
  | cons o outs ih =>
    unfold checkOutputs sums
    by_cases hneg : o.nValue < 0
    · simp [hneg, valueInRange, MoneyRange, not_le.mpr hneg]
    by_cases hbig : maxMoney < o.nValue
    · simp [hneg, hbig, valueInRange, MoneyRange, not_le.mpr hbig]
    have ho : valueInRange o = true := decide_eq_true ⟨not_lt.mp hneg, not_lt.mp hbig⟩
    simp only [if_neg hneg, if_neg hbig, if_pos ho, Bool.true_and, decide_eq_true_eq]
    simp only [apply_ite AmountRun.sums, ih]
    rfl

theorem sumValueOut_sums (acc : Amount) (outs : List TxOut) :
    (sumValueOut acc outs).sums =
      sums 64 maxMoney valueInRange (fun _ => true) TxOut.nValue acc outs := by
  induction outs generalizing acc with
  | nil => rfl
  | cons o outs ih =>
    unfold sumValueOut sums
    by_cases ho : MoneyRange o.nValue
    · have hv : valueInRange o = true := decide_eq_true ho
      simp only [if_pos ho, if_pos hv, Bool.true_and, decide_eq_true_eq]
      simp only [apply_ite AmountRun.sums, ih]
      rfl
    · simp [ho, valueInRange]

end Tarcoin
