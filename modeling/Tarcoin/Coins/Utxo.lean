import Tarcoin.Foundations.FinmapSum
import Tarcoin.Primitives.Transaction

/-! Coins and the logical UTXO map, a finite map from outpoints to unspent coins. -/
namespace Tarcoin

structure Coin where
  out : TxOut
  fCoinBase : Bool
  nHeight : ℕ
  deriving DecidableEq, Repr

/-- `Coin()`, `coinEmpty` and the state `Coin::Clear` leaves behind. -/
def Coin.empty : Coin := ⟨TxOut.null, false, 0⟩

def Coin.isSpent (c : Coin) : Bool := c.out.isNull

@[simp] theorem Coin.empty_isSpent : Coin.empty.isSpent = true := rfl

abbrev UnspentCoin := {c : Coin // c.isSpent = false}

abbrev UtxoMap := Finmap fun _ : OutPoint => UnspentCoin

namespace UtxoMap
open FinmapLookup

def getCoin (m : UtxoMap) (o : OutPoint) : Option Coin := (m.lookup o).map Subtype.val

def haveCoin (m : UtxoMap) (o : OutPoint) : Bool := (m.lookup o).isSome

def accessCoin (m : UtxoMap) (o : OutPoint) : Coin := (m.getCoin o).getD Coin.empty

def spendCoin (m : UtxoMap) (o : OutPoint) : UtxoMap := m.erase o

/-- `AddCoin`. Unspendable outputs are not stored, and overwriting an unspent coin
without `possibleOverwrite` is a logic error. -/
def addCoin (m : UtxoMap) (o : OutPoint) (c : Coin) (possibleOverwrite : Bool) :
    Except Fault UtxoMap :=
  if h : c.isSpent = false then
    if isUnspendable c.out.scriptPubKey then .ok m
    else if !possibleOverwrite && m.haveCoin o then .error .logicError
    else .ok (m.insert o ⟨c, h⟩)
  else .error .assertion

variable {m m' : UtxoMap} {o : OutPoint} {c : Coin} {ow : Bool}

theorem haveCoin_eq_false_iff : m.haveCoin o = false ↔ m.lookup o = none := by
  simp [haveCoin]

theorem accessCoin_of_lookup {c : UnspentCoin} (h : m.lookup o = some c) :
    m.accessCoin o = c.val := by
  simp [accessCoin, getCoin, h]

theorem addCoin_cases (h : m.addCoin o c ow = .ok m') :
    c.isSpent = false ∧ ((isUnspendable c.out.scriptPubKey = true ∧ m' = m) ∨
      (isUnspendable c.out.scriptPubKey = false ∧ (ow = true ∨ m.lookup o = none) ∧
        ∃ hc, m' = m.insert o ⟨c, hc⟩)) := by
  unfold addCoin at h
  split at h
  next hc =>
    refine ⟨hc, ?_⟩
    split at h
    next hu => exact .inl ⟨hu, (Except.ok.inj h).symm⟩
    next hu =>
      split at h
      next => cases h
      next hw =>
        refine .inr ⟨by simpa using hu, ?_, hc, (Except.ok.inj h).symm⟩
        cases ow
        · rw [← haveCoin_eq_false_iff]
          simpa using hw
        · exact .inl rfl
  next => cases h

theorem ext_getCoin (h : ∀ p, m.getCoin p = m'.getCoin p) : m = m' :=
  Finmap.ext_lookup fun p => Option.map_injective Subtype.val_injective (h p)

theorem getCoin_insert (m : UtxoMap) (o p : OutPoint) (c : UnspentCoin) :
    UtxoMap.getCoin (m.insert o c) p = if p = o then some c.val else m.getCoin p := by
  rw [getCoin, lookup_insert_eq, apply_ite (Option.map Subtype.val)]
  rfl

theorem getCoin_spendCoin (m : UtxoMap) (o p : OutPoint) :
    (m.spendCoin o).getCoin p = if p = o then none else m.getCoin p := by
  rw [getCoin, spendCoin, lookup_erase_eq, apply_ite (Option.map Subtype.val)]
  rfl

theorem haveCoin_eq (m : UtxoMap) (o : OutPoint) : m.haveCoin o = (m.getCoin o).isSome := by
  rw [haveCoin, getCoin, Option.isSome_map]

theorem getCoin_addCoin (h : m.addCoin o c ow = .ok m') (p : OutPoint) :
    m'.getCoin p =
      if p = o ∧ isUnspendable c.out.scriptPubKey = false then some c else m.getCoin p := by
  obtain ⟨-, ⟨hu, rfl⟩ | ⟨hu, -, hc, rfl⟩⟩ := addCoin_cases h
  · simp [hu]
  · rw [getCoin_insert]
    simp [hu]

end UtxoMap

theorem getCoin_eq_some {m : UtxoMap} {o : OutPoint} {coin : Coin}
    (h : m.getCoin o = some coin) : ∃ c : UnspentCoin, m.lookup o = some c ∧ c.val = coin :=
  Option.map_eq_some_iff.mp h

end Tarcoin
