import Tarcoin.Pool.Names

/-! A refresh puts the new template in place first and then rebuilds the coinbases of the solo
miners one by one, with several waits for each. -/
namespace Tarcoin.Pool

def BlockTemplate.job (t : BlockTemplate) : Job :=
  ⟨.str t.jobId, t.stratumPrevHash, some t.coinbase1, some t.coinbase2, t.merkleBranch, t.version,
    t.nBits, t.nTime⟩

/-- The job that a solo miner is sent: its own coinbase and name in the shared template. -/
def Miner.job (m : Miner) (t : BlockTemplate) : Job :=
  ⟨m.jobId, t.stratumPrevHash, m.coinbase1, m.coinbase2, t.merkleBranch, t.version, t.nBits,
    t.nTime⟩

def sendWork (socket : ℕ) : PoolM Unit := do
  match (← Async.get).blockTemplate with
  | none => pure ()
  | some t => Async.output (.notify socket none t.job)

def sendSoloWork (socket miner : ℕ) : PoolM Unit := do
  let w ← Async.get
  match w.blockTemplate, w.soloMiners.entries[miner]? with
  | some t, some m => Async.output (.notify socket (some miner) (m.job t))
  | _, _ => pure ()

def World.activeSockets (w : World) : List ℕ :=
  (List.range w.sockets.length).filter fun i =>
    w.sockets[i]?.any fun s => decide (s.server = .pool) && !s.destroyed

def sendWorks : List ℕ → PoolM Unit
  | [] => pure ()
  | socket :: sockets => do
    sendWork socket
    sendWorks sockets

/-- The connection of a solo entry, unless it is gone. -/
def World.liveSocket (w : World) (miner : ℕ) : Option ℕ := do
  let m ← w.soloMiners.entries[miner]?
  let socket ← m.socket
  let s ← w.sockets[socket]?
  if s.destroyed then none else some socket

section Refresh
variable (rt : Runtime)

/-- The two halves of a coinbase that pays the miner and the fee wallet. The node is asked for
both scripts. -/
def buildSoloCoinbase (minerAddress : Text) (template : NodeTemplate) : PoolM (Text × Text) := do
  match ← call (.validateAddress minerAddress) with
  | .address true (some minerScript) =>
    if minerScript = [] then .throw .rejected
    else do
      let feeWallet := (← Async.get).feeWallet
      match ← call (.validateAddress feeWallet) with
      | .address _ feeScript => do
        let feeScript := orDefault [] ("76a914".toList ++ feeWallet ++ "88ac".toList) feeScript
        let coinbase1 ← Async.ofExcept (buildCoinbase1 template)
        let coinbase2 ← Async.ofExcept (buildSoloCoinbase2 rt template minerScript feeScript)
        pure (coinbase1, coinbase2)
      | _ => .throw .typeError
  | _ => .throw .rejected

def refreshMiner (template : NodeTemplate) (name : Key) (miner : ℕ) : PoolM Unit := do
  match (← Async.get).liveSocket miner with
  | none => pure ()
  | some socket =>
    (do
      let minerAddress ← awaited (resolveTnsToAddress rt (parseMinerWorker rt name).wallet)
      let (coinbase1, coinbase2) ← awaited (buildSoloCoinbase rt minerAddress template)
      let jobId ← randomHex 4
      Async.modify fun w => w.updateMiner .solo miner fun m =>
        { m with coinbase1 := some coinbase1, coinbase2 := some coinbase2, jobId := .str jobId }
      sendSoloWork socket miner).catching fun _ => pure ()

/-- The loop over the entries of the solo map from a position on. It sees what is added or
deleted while it waits; `rounds` bounds how many entries it visits. -/
def refreshSolo (template : NodeTemplate) : ℕ → ℕ → PoolM Unit
  | 0, _ => pure ()
  | rounds + 1, position => do
    match (← Async.get).soloMiners.miners.next position with
    | none => pure ()
    | some (i, name, miner) => do
      refreshMiner rt template name miner
      refreshSolo template rounds (i + 1)

def refreshBlockTemplate (rounds : ℕ) : PoolM Unit :=
  (do
    match ← call .getBlockTemplate with
    | .template (some template) => do
      let jobId ← randomHex 4
      let t ← Async.ofExcept (buildTemplate rt jobId (← Async.get).now template)
      Async.modify fun w => { w with blockTemplate := some t }
      Async.output (.refreshed t)
      sendWorks (← Async.get).activeSockets
      refreshSolo rt template rounds 0
    | _ => pure () : PoolM Unit).catching fun _ => pure ()

end Refresh

end Tarcoin.Pool
