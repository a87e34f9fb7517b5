import Tarcoin.Coins.Utxo

/-! `CCoinsViewCache` of `coins.cpp`: caches stacked over a backing map, with the flagged entries
linked in a list that `BatchWrite` walks. -/
namespace Tarcoin

def Coin.toUnspent (c : Coin) : Option UnspentCoin :=
  if h : c.isSpent = false then some ⟨c, h⟩ else none

/-- The memory a script takes beyond the 28 bytes that need none, rounded as the allocator
rounds it. -/
def Coin.dynamicMemoryUsage (c : Coin) : ℕ :=
  if c.out.scriptPubKey.length ≤ 28 then 0 else (c.out.scriptPubKey.length + 31) / 16 * 16

structure CacheEntry where
  coin : Coin
  dirty : Bool
  fresh : Bool
  deriving DecidableEq, Repr

/-- One cache. `overlay` tells `CoinsViewOverlay`, which does not fill the caches below, from a
plain cache; `flagged` is the linked list, without its sentinel. -/
structure Cache where
  overlay : Bool
  cacheCoins : Finmap fun _ : OutPoint => CacheEntry
  flagged : List OutPoint
  dirtyCount : ℕ
  cachedCoinsUsage : ℕ
  blockHash : Uint256

structure Backing where
  coins : UtxoMap
  bestBlock : Uint256

inductive CoinsView
  | backing (db : Backing)
  | cached (cache : Cache) (base : CoinsView)

/-- `TrySub`, which leaves the counter as it is when it would go below zero. -/
def trySub (i j : ℕ) : ℕ := if i < j then i else i - j

namespace Cache

def new (overlay : Bool) : Cache := ⟨overlay, ∅, [], 0, 0, 0⟩

def fill (c : Cache) (o : OutPoint) (coin : UnspentCoin) : Cache :=
  { c with
    cacheCoins := c.cacheCoins.insert o ⟨coin.val, false, false⟩
    cachedCoinsUsage := c.cachedCoinsUsage + coin.val.dynamicMemoryUsage }

/-- Erase an entry, which also takes it out of the linked list. -/
def eraseEntry (c : Cache) (o : OutPoint) : Cache :=
  { c with cacheCoins := c.cacheCoins.erase o, flagged := c.flagged.erase o }

/-- Store a dirty entry; it goes to the end of the linked list unless it had a flag before. -/
def store (c : Cache) (o : OutPoint) (coin : Coin) (fresh : Bool) : Cache :=
  { c with
    cacheCoins := c.cacheCoins.insert o ⟨coin, true, fresh⟩
    flagged :=
      match c.cacheCoins.lookup o with
      | some e => if e.dirty || e.fresh then c.flagged else c.flagged ++ [o]
      | none => c.flagged ++ [o] }

def discount (c : Cache) (e : CacheEntry) : Cache :=
  { c with
    dirtyCount := trySub c.dirtyCount e.dirty.toNat
    cachedCoinsUsage := trySub c.cachedCoinsUsage e.coin.dynamicMemoryUsage }

/-- Put a dirty entry with this coin into the two counters. -/
def recount (c : Cache) (coin : Coin) : Cache :=
  { c with
    dirtyCount := c.dirtyCount + 1
    cachedCoinsUsage := c.cachedCoinsUsage + coin.dynamicMemoryUsage }

def addCoin (c : Cache) (o : OutPoint) (coin : Coin) (possibleOverwrite : Bool) :
    Except Fault Cache :=
  if coin.isSpent then .error .assertion
  else if isUnspendable coin.out.scriptPubKey then .ok c
  else match c.cacheCoins.lookup o with
    | none => .ok ((c.store o coin (!possibleOverwrite)).recount coin)
    | some e =>
      if !possibleOverwrite && !e.coin.isSpent then .error .logicError
      else
        let fresh := !possibleOverwrite && !e.dirty
        .ok (((c.discount e).store o coin (e.fresh || fresh)).recount coin)

/-- What `SpendCoin` does to the entry it found. -/
def spendEntry (c : Cache) (o : OutPoint) (e : CacheEntry) : Cache :=
  if e.fresh then (c.discount e).eraseEntry o
  else ((c.discount e).store o Coin.empty e.fresh).recount Coin.empty

def uncache (c : Cache) (o : OutPoint) : Cache :=
  match c.cacheCoins.lookup o with
  | none => c
  | some e =>
    if e.dirty then c
    else
      { c.eraseEntry o with
        cachedCoinsUsage := trySub c.cachedCoinsUsage e.coin.dynamicMemoryUsage }

def reset (c : Cache) : Cache := ⟨c.overlay, ∅, [], 0, 0, 0⟩

def cursor (c : Cache) : List (OutPoint × CacheEntry) :=
  c.flagged.filterMap fun o => (c.cacheCoins.lookup o).map fun e => (o, e)

def countDown (c : Cache) : ℕ :=
  c.cursor.foldl (fun n w => trySub n w.2.dirty.toNat) c.dirtyCount

/-- `NextAndMaybeErase` when the cache is kept: spent entries go, the others lose their flags. -/
def passEntry (c : Cache) (w : OutPoint × CacheEntry) : Cache :=
  if w.2.coin.isSpent then c.eraseEntry w.1
  else
    { c with
      cacheCoins := c.cacheCoins.insert w.1 ⟨w.2.coin, false, false⟩
      flagged := c.flagged.erase w.1 }

/-- One entry of `BatchWrite`, in the cache that is written to. -/
def batchWriteEntry (c : Cache) (w : OutPoint × CacheEntry) : Except Fault Cache :=
  if !w.2.dirty then .ok c
  else match c.cacheCoins.lookup w.1 with
    | none =>
      if w.2.fresh && w.2.coin.isSpent then .ok c
      else .ok ((c.store w.1 w.2.coin w.2.fresh).recount w.2.coin)
    | some e =>
      if w.2.fresh && !e.coin.isSpent then .error .logicError
      else if e.fresh && w.2.coin.isSpent then .ok ((c.discount e).eraseEntry w.1)
      else
        .ok { c.store w.1 w.2.coin e.fresh with
          dirtyCount := c.dirtyCount + (!e.dirty).toNat
          cachedCoinsUsage := trySub c.cachedCoinsUsage e.coin.dynamicMemoryUsage +
            w.2.coin.dynamicMemoryUsage }

def batchWriteEntries : Cache → List (OutPoint × CacheEntry) → Except Fault Cache
  | c, [] => .ok c
  | c, w :: ws => (c.batchWriteEntry w).bind fun c' => batchWriteEntries c' ws

end Cache

/-- One entry of `BatchWrite` to the backing map. -/
def UtxoMap.writeEntry (m : UtxoMap) (w : OutPoint × CacheEntry) : UtxoMap :=
  if w.2.dirty then
    match w.2.coin.toUnspent with
    | some coin => m.insert w.1 coin
    | none => m.erase w.1
  else m

namespace CoinsView

/-- `PeekCoin`: what the view has, without filling any cache. -/
def peekCoin : CoinsView → OutPoint → Option UnspentCoin
  | .backing db, o => db.coins.lookup o
  | .cached c base, o =>
    match c.cacheCoins.lookup o with
    | some e => e.coin.toUnspent
    | none => base.peekCoin o

/-- `FetchCoin` in a cache, given what the base answers on a miss. -/
def fetchWith (c : Cache) (base : CoinsView) (missed : Option UnspentCoin × CoinsView)
    (o : OutPoint) : Option CacheEntry × Cache × CoinsView :=
  match c.cacheCoins.lookup o with
  | some e => (some e, c, base)
  | none =>
    match missed.1 with
    | some coin => (some ⟨coin.val, false, false⟩, c.fill o coin, missed.2)
    | none => (none, c, missed.2)

/-- `GetCoin`, which fills the caches it passes. -/
def getCoin : CoinsView → OutPoint → Option UnspentCoin × CoinsView
  | .backing db, o => (db.coins.lookup o, .backing db)
  | .cached c base, o =>
    let missed := if c.overlay then (base.peekCoin o, base) else base.getCoin o
    let r := fetchWith c base missed o
    (r.1.bind fun e => e.coin.toUnspent, .cached r.2.1 r.2.2)

def fetchCoin (c : Cache) (base : CoinsView) (o : OutPoint) :
    Option CacheEntry × Cache × CoinsView :=
  fetchWith c base (if c.overlay then (base.peekCoin o, base) else base.getCoin o) o

def haveCoin (c : Cache) (base : CoinsView) (o : OutPoint) : Bool × CoinsView :=
  let r := fetchCoin c base o
  (r.1.any fun e => !e.coin.isSpent, .cached r.2.1 r.2.2)

def accessCoin (c : Cache) (base : CoinsView) (o : OutPoint) : Coin × CoinsView :=
  let r := fetchCoin c base o
  (match r.1 with
    | some e => e.coin
    | none => Coin.empty, .cached r.2.1 r.2.2)

/-- `SpendCoin`, with the flag it returns and the coin it moves out. An entry that is already
spent counts as found. -/
def spendCoin (c : Cache) (base : CoinsView) (o : OutPoint) : (Bool × Coin) × CoinsView :=
  let r := fetchCoin c base o
  match r.1 with
  | none => ((false, Coin.empty), .cached r.2.1 r.2.2)
  | some e => ((true, e.coin), .cached (r.2.1.spendEntry o e) r.2.2)

def batchWrite : CoinsView → List (OutPoint × CacheEntry) → Uint256 → Except Fault CoinsView
  | .backing db, entries, hash => .ok (.backing ⟨entries.foldl UtxoMap.writeEntry db.coins, hash⟩)
  | .cached c base, entries, hash =>
    (c.batchWriteEntries entries).map fun c' => .cached { c' with blockHash := hash } base

def flush (c : Cache) (base : CoinsView) : Except Fault CoinsView :=
  (base.batchWrite c.cursor c.blockHash).map fun base' =>
    .cached ⟨c.overlay, ∅, [], c.countDown, 0, c.blockHash⟩ base'

def sync (c : Cache) (base : CoinsView) : Except Fault CoinsView :=
  (base.batchWrite c.cursor c.blockHash).bind fun base' =>
    let c' := c.cursor.foldl Cache.passEntry c
    if c'.flagged ≠ [] then .error .logicError
    else .ok (.cached { c' with dirtyCount := c.countDown } base')

end CoinsView

end Tarcoin
