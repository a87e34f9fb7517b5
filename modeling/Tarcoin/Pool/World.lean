import Tarcoin.Foundations.Async
import Tarcoin.Foundations.SlotMap
import Tarcoin.Pool.Job

/-! The state of `pool.js` and the variables that each connection closes over. An entry is an
object that several holders share, so the maps hold references into a list of entries. -/
namespace Tarcoin.Pool

/-- The shared pool on port 3333 and the solo pool on port 3334. -/
inductive Server
  | pool
  | solo
  deriving DecidableEq, Repr

/-- An entry of `miners`. The last four members are only used by the solo server. -/
structure Miner where
  shares : ℕ
  validShares : ℕ
  difficulty : Option ℕ
  resolvedAddress : Option Text
  submittedShares : List Text
  lastJobId : Key
  socket : Option ℕ
  coinbase1 : Option Text
  coinbase2 : Option Text
  jobId : Key

/-- The variables of one connection; `timers` are its intervals that are running. -/
structure Socket where
  server : Server
  destroyed : Bool
  workerName : Key
  workerId : Text
  extraNonce1 : Text
  socketDiff : ℕ
  diffOverridden : Bool
  shareTimestamps : List ℕ
  vardiffTimer : Option ℕ
  timers : List ℕ

structure Registry where
  entries : List Miner
  miners : SlotMap Key ℕ

structure World where
  now : ℕ
  redis : Bool
  entropy : ℕ → List UInt8
  drawn : ℕ
  serial : ℕ
  nextTimer : ℕ
  tnsResolutionCache : List (Text × Text × ℕ)
  feeWallet : Text
  blockTemplate : Option BlockTemplate
  poolMiners : Registry
  soloMiners : Registry
  activeWorkers : ℕ
  blocksFound : ℕ
  soloBlocksFound : ℕ
  sockets : List Socket

inductive RedisKey
  | shares
  | hashrateHistory (wallet : Text)
  | uptime (wallet : Text)
  | blocks
  | rejectedBlocks
  | soloBlocks
  | soloRejectedBlocks
  deriving DecidableEq, Repr

/-- What is pushed to a list, without its time stamp and the measured hash rate. -/
inductive Record
  | share (worker : Key)
  | hashrate
  | block (worker : Key) (height : ℕ)
  deriving DecidableEq, Repr

inductive RedisCommand
  | lPush (key : RedisKey) (record : Record)
  | lTrim (key : RedisKey)
  | sAdd (key : RedisKey)
  | expire (key : RedisKey)
  deriving DecidableEq, Repr

/-- What an asynchronous function can wait for; `settled` is a promise of another one. -/
inductive Call
  | settled
  | redis (command : RedisCommand)
  | tns (domain : Text)
  | getBlockTemplate
  | validateAddress (address : Text)
  | submitBlock (blockHex : Text)
  deriving DecidableEq, Repr

inductive Answer
  | rejects
  | done
  | resolved (data : JsVal)
  | template (template : Option NodeTemplate)
  | address (isvalid : Bool) (scriptPubKey : Option Text)
  | submitted (reason : Option Text)

inductive Reply
  | configured (mask : JsVal)
  | subscribed (workerId extraNonce1 : Text)
  | accepted
  | duplicateShare
  | jobNotFound
  | coinbaseNotReady
  | verificationError

def Reply.error : Reply → Option (ℕ × String)
  | .duplicateShare => some (22, "Duplicate share")
  | .jobNotFound => some (21, "Job not found")
  | .coinbaseNotReady => some (20, "Coinbase not ready, please wait")
  | .verificationError => some (20, "Verification error")
  | _ => none

structure Job where
  jobId : Key
  stratumPrevHash : Text
  coinbase1 : Option Text
  coinbase2 : Option Text
  merkleBranch : List Text
  version : Text
  nBits : Text
  nTime : Text
  deriving DecidableEq, Repr

/-- A share that has been counted, with all that its header was rebuilt from. -/
structure Share where
  server : Server
  socket : ℕ
  miner : ℕ
  worker : Key
  jobId : Key
  template : BlockTemplate
  work : Work
  extraNonce1 : Text
  extraNonce2 : Text
  nTime : Text
  nonce : Text
  header : List UInt8
  deriving DecidableEq, Repr

/-- What is written to a connection. Two further events, that a job was put in place and that a
share was counted, are recorded with them. -/
inductive Output
  | reply (socket : ℕ) (id : JsVal) (body : Reply)
  | setDifficulty (socket diff : ℕ)
  | notify (socket : ℕ) (miner : Option ℕ) (job : Job)
  | refreshed (template : BlockTemplate)
  | credited (share : Share)

abbrev PoolM := Async World Call Answer Output JsError

def World.registry (w : World) : Server → Registry
  | .pool => w.poolMiners
  | .solo => w.soloMiners

def World.updateRegistry (w : World) (server : Server) (f : Registry → Registry) : World :=
  match server with
  | .pool => { w with poolMiners := f w.poolMiners }
  | .solo => { w with soloMiners := f w.soloMiners }

def World.updateMiner (w : World) (server : Server) (miner : ℕ) (f : Miner → Miner) : World :=
  w.updateRegistry server fun r => { r with entries := r.entries.modify miner f }

def World.updateSocket (w : World) (socket : ℕ) (f : Socket → Socket) : World :=
  { w with sockets := w.sockets.modify socket f }

def Registry.add (r : Registry) (name : Key) (miner : Miner) : Registry :=
  ⟨r.entries ++ [miner], r.miners.set name r.entries.length⟩

/-- `await` of a call to the outside; a rejection is thrown. -/
def call (c : Call) : PoolM Answer :=
  .await c fun answer => match answer with
    | .rejects => .throw .rejected
    | answer => .pure answer

/-- `await` of another asynchronous function. -/
def awaited {α : Type} (t : PoolM α) : PoolM α := t.settle .settled

def reply (socket : ℕ) (id : JsVal) (body : Reply) : PoolM Unit := .output (.reply socket id body)

/-- `crypto.randomBytes(n).toString('hex')`. -/
def randomHex (n : ℕ) : PoolM Text := do
  let w ← Async.get
  Async.modify fun w => { w with drawn := w.drawn + 1 }
  pure (Hex.encode (fit n (w.entropy w.drawn)))

end Tarcoin.Pool
