import Tarcoin.Foundations.AsyncOwned
import Tarcoin.Pool.PayoutMap

/-! `processPayouts`, run every hour: one `sendmany` for the shares, then a bonus for each wallet
that has mined enough. A request is carried out between the call and the answer, and may fail
before or after it. -/
namespace Tarcoin.Pool

/-- `claimed` are the keys `miner:bonus:`, and `bountyCount` is `miner:bounty_count`. -/
structure PayoutWorld where
  pool : World
  claimed : Text → Bool
  bountyCount : ℕ
  inputs : ℕ
  running : List ℕ
  bonuses : List Text

/-- An entry of `solo:blocks` that can be parsed. -/
structure SoloBlock where
  wallet : JsVal
  worker : JsVal

inductive PayoutCall (A : Type)
  | pool (c : Call)
  | getBalance
  | lRangeShares
  | validateAddress (address : Text)
  | setPending (payouts : SlotMap Text A)
  | sendMany (payouts : SlotMap Text A)
  | listTransactions
  | delPending
  | lPushHistory
  | lTrimHistory
  | getFaucetBalance
  | lRangeSoloBlocks
  | incrLifetime (wallet : Text) (amount : A)
  | getLifetime (wallet : Text)
  | getBonus (wallet : Text)
  | getBountyCount
  | sendToAddress (wallet : Text)
  | incrBountyCount
  | setBonus (wallet : Text)

/-- `transactions` says whether a payment of the last two minutes is among those listed. -/
inductive PayoutAnswer (A : Type)
  | rejects
  | done
  | pool (answer : Answer)
  | balance (amount : A)
  | shares (workers : List Key)
  | validated (isvalid : Bool)
  | transactions (recent : Bool)
  | soloBlocks (blocks : List (Option SoloBlock))
  | lifetime (amount : A)

def PayoutAnswer.failed {A : Type} : PayoutAnswer A → Option JsError
  | .rejects => some .rejected
  | _ => none

abbrev PayoutM (A : Type) := Async PayoutWorld (PayoutCall A) (PayoutAnswer A) Output JsError

/-- The functions of the pool run on its part of the state. -/
def payoutHost (A : Type) :
    Async.Host World Call Answer Output PayoutWorld (PayoutCall A) (PayoutAnswer A) Output where
  get w := w.pool
  set w pool := { w with pool := pool }
  call := .pool
  answer r := match r with
    | .pool answer => answer
    | _ => .rejects
  output := id

section Engine
variable {A : Type} (M : Money A) (rt : Runtime)

def payoutCall (c : PayoutCall A) : PayoutM A (PayoutAnswer A) :=
  .await c fun r => match r.failed with
    | some e => .throw e
    | none => .pure r

def resolveName (raw : Text) : PayoutM A Text :=
  (awaited (resolveTnsToAddress rt raw)).embed (payoutHost A)

def collectWallets : List Key → PayoutM A (List Text)
  | [] => pure []
  | worker :: shares => do
    let wallet ← resolveName rt (parseMinerWorker rt worker).wallet
    let wallets ← collectWallets shares
    pure (wallet :: wallets)

/-- Whether the node calls an address invalid; a failure of the call is logged only. -/
def askInvalid (address : Text) : PayoutM A Bool :=
  (do
    match ← payoutCall (.validateAddress address) with
    | .validated isvalid => pure (!isvalid)
    | _ => pure true : PayoutM A Bool).catching fun _ => pure false

def validateAddresses (feeWallet : Text) : List Text → SlotMap Text A → PayoutM A (SlotMap Text A)
  | [], payouts => pure payouts
  | address :: rest, payouts =>
    if address = feeWallet then validateAddresses feeWallet rest payouts
    else do
      let isInvalid ← askInvalid address
      validateAddresses feeWallet rest (if isInvalid then reassign M feeWallet payouts address else payouts)

/-- The balance; when it cannot be fetched the run ends. -/
def fetchBalance : PayoutM A (Option A) :=
  (do
    match ← payoutCall .getBalance with
    | .balance amount => pure (some amount)
    | _ => pure none : PayoutM A (Option A)).catching fun _ => pure none

def fetchShares : PayoutM A (List Key) := do
  match ← payoutCall .lRangeShares with
  | .shares workers => pure workers
  | _ => .throw .typeError

/-- The steps up to the address check: the fee wallet and the object that is sent, unless there is
nothing to pay. -/
def payoutsToSend : PayoutM A (Option (Text × SlotMap Text A)) := do
  match ← fetchBalance with
  | none => pure none
  | some balance =>
    if M.tooLow balance then pure none
    else
      let shares ← fetchShares
      if shares = [] then pure none
      else
        let wallets ← collectWallets rt shares
        let w ← Async.get
        let feeWallet := w.pool.feeWallet
        let payouts ← Async.ofExcept (payFee M balance feeWallet (minerPayouts M balance wallets))
        if objectKeys payouts = [] then pure none
        else
          let payouts ← validateAddresses M feeWallet (objectKeys payouts) payouts
          pure (some (feeWallet, payouts))

/-- What follows a `sendmany` that threw: the run goes on if the payment is found all the same. -/
def recoverPayout (sendErr : JsError) : PayoutM A Unit :=
  (do
    match ← payoutCall .listTransactions with
    | .transactions true => pure ()
    | _ =>
      let _ ← payoutCall .delPending
      .throw sendErr : PayoutM A Unit).catching fun _ => do
    let _ ← payoutCall .delPending
    .throw sendErr

def sendPayouts (payouts : SlotMap Text A) : PayoutM A Unit := do
  let _ ← payoutCall (.setPending payouts)
  (do let _ ← payoutCall (.sendMany payouts)
      pure () : PayoutM A Unit).catching recoverPayout
  let _ ← payoutCall .lPushHistory
  let _ ← payoutCall .lTrimHistory
  let _ ← payoutCall .delPending

/-- `data.wallet || parseMinerWorker(data.worker).wallet`, where a wallet that is no text resolves
to the empty one. -/
def SoloBlock.rawWallet (block : SoloBlock) : Text :=
  if block.wallet.any Json.truthy then
    match block.wallet with
    | some (.str wallet) => wallet
    | _ => []
  else (parseMinerWorker rt (keyOf 0 0 block.worker)).wallet

/-- How many solo blocks each wallet has; the prototype cannot be written over by a number. -/
def soloRewards : List (Option SoloBlock) → SlotMap Text ℕ → PayoutM A (SlotMap Text ℕ)
  | [], rewards => pure rewards
  | none :: blocks, rewards => soloRewards blocks rewards
  | some block :: blocks, rewards => do
    let wallet ← resolveName rt (block.rawWallet rt)
    soloRewards blocks (if wallet = "__proto__".toList then rewards
      else rewards.set wallet ((rewards.get wallet).getD 0 + 1))

/-- The keys of `allRewards`; its values are not used. -/
def allRewards (payouts : SlotMap Text A) (solo : SlotMap Text ℕ) : List Text :=
  objectKeys ((objectKeys payouts ++ objectKeys solo).foldl (fun m k => m.set k ()) .empty)

/-- The lifetime total of a wallet, if it is a number. For a name from the prototype `payouts` gives
a function, which is no increment that Redis accepts. -/
def lifetimeOf (payouts : SlotMap Text A) (worker : Text) : PayoutM A (Option A) := do
  if worker ∈ inheritedNames then .throw .rejected
  else
    let paid := (payouts.get worker).filter M.truthy
    match ← payoutCall (paid.elim (.getLifetime worker) (.incrLifetime worker)) with
    | .lifetime amount => pure (some amount)
    | _ => pure none

def PayoutWorld.send (w : PayoutWorld) (worker : Text) : PayoutWorld :=
  { w with bonuses := w.bonuses ++ [worker] }

def PayoutWorld.count (w : PayoutWorld) : PayoutWorld := { w with bountyCount := w.bountyCount + 1 }

def PayoutWorld.claim (w : PayoutWorld) (worker : Text) : PayoutWorld :=
  { w with claimed := Function.update w.claimed worker true }

def payoutRemote {α : Type} (c : PayoutCall A) (f : PayoutWorld → PayoutWorld × α) : PayoutM A α :=
  Async.remote c PayoutAnswer.failed f

def awardBonus (worker : Text) : PayoutM A Unit := do
  let alreadyClaimed ← payoutRemote (.getBonus worker) fun w => (w, w.claimed worker)
  if alreadyClaimed then pure ()
  else
    let bountyCount ← payoutRemote .getBountyCount fun w => (w, w.bountyCount)
    if bountyCount < 4000 then
      payoutRemote (.sendToAddress worker) fun w => (w.send worker, ())
      payoutRemote .incrBountyCount fun w => (w.count, ())
      payoutRemote (.setBonus worker) fun w => (w.claim worker, ())
    else pure ()

def checkBonus (payouts : SlotMap Text A) (solo : SlotMap Text ℕ) (worker : Text) :
    PayoutM A Unit := do
  let lifetimePool ← lifetimeOf M payouts worker
  if lifetimePool.any fun lifetime => M.eligible lifetime ((solo.get worker).getD 0) then
    awardBonus worker
  else pure ()

def checkBonuses (feeWallet : Text) (payouts : SlotMap Text A) (solo : SlotMap Text ℕ) :
    List Text → PayoutM A Unit
  | [] => pure ()
  | worker :: workers => do
    if worker = feeWallet then pure () else checkBonus M payouts solo worker
    checkBonuses feeWallet payouts solo workers

def bonusEngine (feeWallet : Text) (payouts : SlotMap Text A) : PayoutM A Unit := do
  match ← payoutCall .getFaucetBalance with
  | .balance faucetBalance =>
    if M.funded faucetBalance then
      match ← payoutCall .lRangeSoloBlocks with
      | .soloBlocks blocks =>
        let solo ← soloRewards rt blocks .empty
        checkBonuses M feeWallet payouts solo (allRewards payouts solo)
      | _ => .throw .typeError
    else pure ()
  | _ => pure ()

def processPayouts : PayoutM A Unit := do
  let w ← Async.get
  if !w.pool.redis then pure ()
  else (do
    match ← payoutsToSend M rt with
    | none => pure ()
    | some (feeWallet, payouts) =>
      sendPayouts payouts
      (bonusEngine M rt feeWallet payouts).catching fun _ => pure ()
    : PayoutM A Unit).catching fun _ => pure ()

end Engine

/-- The hour strikes, time passes, or another function of the pool resolves a name. -/
inductive PayoutInput
  | hour
  | tick (elapsed : ℕ)
  | resolved (domain address : Text)

def PayoutWorld.cacheName (w : PayoutWorld) (domain address : Text) (expiresAt : ℕ) : PayoutWorld :=
  { w with pool := { w.pool with
      tnsResolutionCache := (domain, address, expiresAt) :: w.pool.tnsResolutionCache } }

def PayoutWorld.beginRun (w : PayoutWorld) : PayoutWorld :=
  { w with inputs := w.inputs + 1, running := w.inputs :: w.running }

def PayoutWorld.endRun (w : PayoutWorld) (n : ℕ) : PayoutWorld :=
  { w with running := w.running.filter (· ≠ n) }

def servePayouts {A : Type} (M : Money A) (rt : Runtime) : PayoutInput → PayoutM A Unit
  | .hour => do
    let w ← Async.get
    Async.modify PayoutWorld.beginRun
    processPayouts M rt
    Async.modify fun w' => w'.endRun w.inputs
  | .tick elapsed => Async.modify fun w =>
    { w with inputs := w.inputs + 1, pool := { w.pool with now := w.pool.now + elapsed } }
  | .resolved domain address => Async.modify fun w =>
    { w.cacheName domain address (w.pool.now + 300000) with inputs := w.inputs + 1 }

end Tarcoin.Pool
