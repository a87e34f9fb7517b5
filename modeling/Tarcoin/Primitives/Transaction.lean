import Tarcoin.Foundations.GuardedSum

/-! Amounts, scripts, outpoints and transactions. Amounts are integers; every addition the node
performs on them is followed by the 64-bit wrap. -/
namespace Tarcoin
open GuardedSum

abbrev Uint256 := BitVec 256
abbrev Amount := ℤ
abbrev Script := List UInt8

abbrev Bytes (n : ℕ) := {bytes : List UInt8 // bytes.length = n}

theorem length_zeros : (List.replicate 32 (0 : UInt8)).length = 32 := rfl

def coinUnit : Amount := 100000000

def maxMoney : Amount := 50000000000 * coinUnit

def MoneyRange (nValue : Amount) : Prop := 0 ≤ nValue ∧ nValue ≤ maxMoney

instance (nValue : Amount) : Decidable (MoneyRange nValue) := by
  unfold MoneyRange
  infer_instance

/-- `CAmount` addition: exact sum, then the 64-bit register. -/
def addAmount (a b : Amount) : Amount := wrap 64 (a + b)

theorem maxMoney_lt_int64 : maxMoney < 2 ^ (64 - 1) := by decide

theorem moneyRange_addAmount_iff {a b : Amount} (ha : MoneyRange a) (hb : MoneyRange b) :
    MoneyRange (addAmount a b) ↔ a + b ≤ maxMoney :=
  wrap_in_range_iff (by norm_num) maxMoney_lt_int64 ha hb

theorem addAmount_eq {a b : Amount} (ha : MoneyRange a) (hb : MoneyRange b)
    (h : MoneyRange (addAmount a b)) : addAmount a b = a + b :=
  wrap_add_of_le (by norm_num) maxMoney_lt_int64 ha.1 hb.1 ((moneyRange_addAmount_iff ha hb).mp h)

/-- What ends a run of the node other than a verdict: a failed `assert`, the
`std::logic_error` of the coins cache, or the `std::runtime_error` of `GetValueOut`. -/
inductive Fault where
  | assertion
  | logicError
  | runtimeError
  deriving DecidableEq, Repr

def opReturn : UInt8 := 0x6a
def opDup : UInt8 := 0x76
def opEqual : UInt8 := 0x87
def opEqualVerify : UInt8 := 0x88
def opHash160 : UInt8 := 0xa9
def opCheckSig : UInt8 := 0xac

def maxScriptSize : ℕ := 10000

def isUnspendable (script : Script) : Bool :=
  script.head? == some opReturn || decide (maxScriptSize < script.length)

structure OutPoint where
  hash : Uint256
  n : ℕ
  deriving DecidableEq, Repr

def OutPoint.nullIndex : ℕ := 2 ^ 32 - 1

def OutPoint.isNull (o : OutPoint) : Bool := o.hash == 0 && o.n == OutPoint.nullIndex

structure TxIn where
  prevout : OutPoint
  scriptSig : Script
  nSequence : ℕ
  scriptWitness : List (List UInt8)
  deriving DecidableEq, Repr

structure TxOut where
  nValue : Amount
  scriptPubKey : Script
  deriving DecidableEq, Repr

/-- `CTxOut::SetNull`, which `CTxOut()` also calls. -/
def TxOut.null : TxOut := ⟨-1, []⟩

def TxOut.isNull (o : TxOut) : Bool := o.nValue == -1

structure Transaction where
  version : ℕ
  vin : List TxIn
  vout : List TxOut
  nLockTime : ℕ
  deriving DecidableEq, Repr

def Transaction.isCoinBase (tx : Transaction) : Bool :=
  match tx.vin with
  | [i] => i.prevout.isNull
  | _ => false

def sizeOfCompactSize (n : ℕ) : ℕ :=
  if n < 253 then 1 else if n ≤ 0xffff then 3 else if n ≤ 0xffffffff then 5 else 9

def scriptSize (s : Script) : ℕ := sizeOfCompactSize s.length + s.length

/-- `GetSerializeSize(TX_NO_WITNESS(tx))`: version and lock time take four bytes each,
an outpoint 36, a sequence number four and an amount eight. -/
def Transaction.serializeSizeNoWitness (tx : Transaction) : ℕ :=
  4 + sizeOfCompactSize tx.vin.length + (tx.vin.map fun i => 36 + scriptSize i.scriptSig + 4).sum +
    sizeOfCompactSize tx.vout.length + (tx.vout.map fun o => 8 + scriptSize o.scriptPubKey).sum + 4

theorem Transaction.vin_length_le (tx : Transaction) :
    41 * tx.vin.length ≤ tx.serializeSizeNoWitness := by
  have hone (s : Script) : 1 ≤ scriptSize s := by
    unfold scriptSize sizeOfCompactSize
    split_ifs <;> omega
  have hsum := List.card_nsmul_le_sum (tx.vin.map fun i => 36 + scriptSize i.scriptSig + 4) 41 (by
    intro x hx
    obtain ⟨i, -, rfl⟩ := List.mem_map.mp hx
    have := hone i.scriptSig
    omega)
  simp only [List.length_map, smul_eq_mul] at hsum
  unfold serializeSizeNoWitness
  omega

def witnessScaleFactor : ℕ := 4
def maxBlockWeight : ℕ := 4000000
def coinbaseMaturity : ℕ := 100

end Tarcoin
