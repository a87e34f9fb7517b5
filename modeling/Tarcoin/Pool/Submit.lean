import Tarcoin.Pool.Names

/-! `handleSubmit` and `handleSoloSubmit` share most of their parts; they differ in the job a
share is checked against and in the order of what follows a counted share. -/
namespace Tarcoin.Pool

def recreatedMiner : Server → Miner
  | .pool => ⟨0, 0, none, none, [], .undefined, none, none, none, .undefined⟩
  | .solo => ⟨0, 0, some startDiff, none, [], .undefined, none, none, none, .undefined⟩

/-- The worker of a submit: the one the connection authorized, or the one it names, or a new
one under that name. -/
def findWorker (server : Server) (serial : ℕ) (message : Request) (workerName : Key) : PoolM ℕ := do
  let w ← Async.get
  match (w.registry server).miners.get workerName with
  | some miner => pure miner
  | none => do
    let name ← Async.ofExcept (message.param 0)
    match (w.registry server).miners.get (keyOf serial 0 name) with
    | some miner => pure miner
    | none => do
      Async.modify fun w => w.updateRegistry server fun r =>
        r.add (keyOf serial 0 name) (recreatedMiner server)
      pure (w.registry server).entries.length

/-- The shares seen for a job; those of another job are forgotten. -/
def Miner.seen (m : Miner) (jobId : Key) : List Text :=
  if m.lastJobId ≠ jobId then [] else m.submittedShares

def Miner.remember (jobId : Key) (shareKey : Text) (m : Miner) : Miner :=
  { m with
    lastJobId := jobId
    submittedShares :=
      if shareKey ∈ m.seen jobId then m.seen jobId else shareKey :: m.seen jobId }

def Miner.credit (m : Miner) : Miner :=
  { m with validShares := m.validShares + 1, shares := m.shares + 1 }

def runRedis : List RedisCommand → PoolM Unit
  | [] => pure ()
  | command :: commands => do
    let _ ← call (.redis command)
    runRedis commands

/-- The commands for a wallet's hash rate and uptime. -/
def walletCommands (wallet : Text) : List RedisCommand := [
  .lPush (.hashrateHistory wallet) .hashrate, .lTrim (.hashrateHistory wallet),
  .expire (.hashrateHistory wallet), .sAdd (.uptime wallet), .expire (.uptime wallet)]

section Submit
variable (rt : Runtime)

def trackWallet (server : Server) (miner : ℕ) (worker : Key) : PoolM Unit := do
  let wallet ← awaited (resolveTnsToAddress rt (parseMinerWorker rt worker).wallet)
  Async.modify fun w =>
    if wallet = [] then w
    else w.updateMiner server miner fun m => { m with resolvedAddress := some (rt.toLowerCase wallet) }
  runRedis (walletCommands wallet)

/-- The full block, in the hexadecimal that `submitblock` takes: header, number of transactions,
coinbase, transactions. -/
def blockText (header : List UInt8) (coinbaseHex : Text) (txData : List Text) :
    Except JsError Text := do
  let txCount ← encodeVarInt (1 + txData.length)
  .ok (Hex.encode header ++ txCount ++ coinbaseHex ++ txData.flatten)

/-- Assemble the block from the template that is in place now, submit it, and record the
outcome. -/
def submitFound (accepted rejected : ℕ → List RedisCommand) (header : List UInt8)
    (coinbaseHex : Text) : PoolM Unit := do
  match (← Async.get).blockTemplate with
  | none => .throw .typeError
  | some t => do
    let blockHex ← Async.ofExcept (blockText header coinbaseHex t.txData)
    let height := orDefault 0 0 t.height
    match ← call (.submitBlock blockHex) with
    | .submitted none => do
      if (← Async.get).redis then runRedis (accepted height) else pure ()
    | .submitted (some _) => do
      if (← Async.get).redis then runRedis (rejected height) else pure ()
    | _ => .throw .rejected

def handleBlockFound (header : List UInt8) (coinbaseHex : Text) (worker : Key) : PoolM Unit := do
  Async.modify fun w => { w with blocksFound := w.blocksFound + 1 }
  (submitFound (fun height => [.lPush .blocks (.block worker height)])
    (fun height => [.lPush .rejectedBlocks (.block worker height), .lTrim .rejectedBlocks])
    header coinbaseHex).catching fun _ => pure ()

def handleSoloBlockFound (header : List UInt8) (coinbaseHex : Text) (worker : Key) :
    PoolM Unit := do
  Async.modify fun w => { w with soloBlocksFound := w.soloBlocksFound + 1 }
  (submitFound (fun height => [.lPush .soloBlocks (.block worker height), .lTrim .soloBlocks])
    (fun height => [.lPush .soloRejectedBlocks (.block worker height), .lTrim .soloRejectedBlocks])
    header coinbaseHex).catching fun _ => pure ()

/-- What the two handlers know about a share when they rebuild its header. -/
structure Attempt where
  server : Server
  socket : ℕ
  id : JsVal
  miner : ℕ
  fields : ShareFields
  template : BlockTemplate
  work : Work
  extraNonce1 : Text

def Attempt.coinbaseHex (a : Attempt) : Text := coinbaseText a.work a.extraNonce1 a.fields

def Attempt.share (a : Attempt) (header : List UInt8) : Share where
  server := a.server
  socket := a.socket
  miner := a.miner
  worker := a.fields.worker
  jobId := a.fields.jobId
  template := a.template
  work := a.work
  extraNonce1 := a.extraNonce1
  extraNonce2 := a.fields.extraNonce2
  nTime := a.fields.nTime
  nonce := a.fields.nonce
  header := header

def Attempt.header (a : Attempt) : Except JsError (List UInt8) :=
  rebuildHeader rt a.work a.extraNonce1 a.fields

/-- Count a share and reply. The header is hashed, but no target of the share is looked at. -/
def creditShare (a : Attempt) (header : List UInt8) : PoolM Unit := do
  Async.modify fun w => w.updateMiner a.server a.miner Miner.credit
  Async.output (.credited (a.share header))
  reply a.socket a.id .accepted

def meetsNetwork (a : Attempt) (header : List UInt8) : Bool :=
  hashMeetsTarget (rt.sha256d header) (nBitsToTarget a.template.nBits)

/-- The bookkeeping of the shared pool for a counted share. -/
def poolBooks (a : Attempt) : PoolM Unit := do
  if (← Async.get).redis then do
    runRedis [.lPush .shares (.share a.fields.worker), .lTrim .shares]
    trackWallet rt .pool a.miner a.fields.worker
  else pure ()

def poolBlock (a : Attempt) (header : List UInt8) : PoolM Unit :=
  if meetsNetwork rt a header then
    awaited (handleBlockFound header a.coinbaseHex a.fields.worker)
  else pure ()

def verifyShare (a : Attempt) : PoolM Unit :=
  (do
    let header ← Async.ofExcept (a.header rt)
    creditShare a header
    poolBooks rt a
    poolBlock rt a header).catching fun _ => reply a.socket a.id .verificationError

def soloBooks (a : Attempt) : PoolM Unit := do
  if (← Async.get).redis then trackWallet rt .solo a.miner a.fields.worker else pure ()

def soloBlock (a : Attempt) (header : List UInt8) : PoolM Unit :=
  if meetsNetwork rt a header then
    awaited (handleSoloBlockFound header a.coinbaseHex a.fields.worker)
  else pure ()

def verifySoloShare (a : Attempt) : PoolM Unit :=
  (do
    let header ← Async.ofExcept (a.header rt)
    creditShare a header
    soloBlock rt a header
    soloBooks rt a).catching fun _ => reply a.socket a.id .verificationError

/-- The part before the job is looked at: find the worker, read the fields, and remember the
share. The result is the worker and the fields, or nothing for a duplicate. -/
def admitShare (server : Server) (serial socket : ℕ) (message : Request) (workerName : Key) :
    PoolM (Option (ℕ × ShareFields)) := do
  let miner ← findWorker server serial message workerName
  let fields ← Async.ofExcept (message.shareFields rt serial)
  let entry := ((← Async.get).registry server).entries[miner]?
  Async.modify fun w =>
    w.updateMiner server miner (Miner.remember fields.jobId fields.shareKey)
  if entry.any fun m => fields.shareKey ∈ m.seen fields.jobId then do
    reply socket message.id .duplicateShare
    pure none
  else pure (some (miner, fields))

/-- A share of the shared pool is checked against the template in place. -/
def checkJob (socket : ℕ) (id : JsVal) (extraNonce1 : Text) (miner : ℕ) (fields : ShareFields) :
    PoolM Unit := do
  match (← Async.get).blockTemplate with
  | none => reply socket id .jobNotFound
  | some t =>
    if .str t.jobId ≠ fields.jobId then reply socket id .jobNotFound
    else verifyShare rt ⟨.pool, socket, id, miner, fields, t, t.work t.coinbase1 t.coinbase2,
      extraNonce1⟩

def handleSubmit (serial socket : ℕ) (message : Request) (workerName : Key) (extraNonce1 : Text) :
    PoolM Unit := do
  match ← admitShare rt .pool serial socket message workerName with
  | none => pure ()
  | some (miner, fields) => checkJob rt socket message.id extraNonce1 miner fields

/-- The custom coinbase of a solo miner, once both halves are there. -/
def Miner.coinbase (m : Miner) : Option (Text × Text) :=
  match m.coinbase1, m.coinbase2 with
  | some c1, some c2 => if c1 = [] ∨ c2 = [] then none else some (c1, c2)
  | _, _ => none

/-- A share of a solo miner is checked against the name of its own job, and then paired with the
template in place. -/
def checkSoloJob (socket : ℕ) (id : JsVal) (extraNonce1 : Text) (miner : ℕ)
    (fields : ShareFields) : PoolM Unit := do
  let w ← Async.get
  match w.blockTemplate, w.soloMiners.entries[miner]? with
  | some t, some m =>
    if m.jobId ≠ fields.jobId then reply socket id .jobNotFound
    else
      match m.coinbase with
      | none => reply socket id .coinbaseNotReady
      | some (coinbase1, coinbase2) =>
        verifySoloShare rt ⟨.solo, socket, id, miner, fields, t, t.work coinbase1 coinbase2,
          extraNonce1⟩
  | _, _ => reply socket id .jobNotFound

def handleSoloSubmit (serial socket : ℕ) (message : Request) (workerName : Key)
    (extraNonce1 : Text) : PoolM Unit := do
  match ← admitShare rt .solo serial socket message workerName with
  | none => pure ()
  | some (miner, fields) => checkSoloJob rt socket message.id extraNonce1 miner fields

end Submit

end Tarcoin.Pool
