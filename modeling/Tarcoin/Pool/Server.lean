import Tarcoin.Pool.Refresh
import Tarcoin.Pool.Submit

/-! What a connection does with each message, with its timer and with its end, and the inputs of
the process. -/
namespace Tarcoin.Pool

inductive Method
  | configure
  | subscribe
  | authorize
  | submit
  deriving DecidableEq, Repr

/-- What the process reacts to. The data of a connection arrive message by message; a message
that came in one piece with others may be handled after the connection was closed. -/
inductive Input
  | connect (server : Server)
  | message (socket : ℕ) (method : Method) (request : Request)
  | vardiff (socket timer : ℕ)
  | close (socket : ℕ)
  | refresh (rounds : ℕ)
  | clock (now : ℕ)

/-- `net.createServer`: the variables of a new connection. -/
def connect (server : Server) : PoolM Unit := do
  let workerId ← randomHex 8
  let extraNonce1 ← randomHex 4
  Async.modify fun w => { w with
    sockets := w.sockets ++ [⟨server, false, .str [], workerId, extraNonce1, startDiff, false, [],
      none, []⟩] }

def sendDifficulty (socket diff : ℕ) : PoolM Unit := do
  Async.modify fun w => w.updateSocket socket fun s => { s with socketDiff := diff }
  Async.output (.setDifficulty socket diff)
  Async.modify fun w =>
    match w.sockets[socket]? with
    | some s =>
      match (w.registry s.server).miners.get s.workerName with
      | some miner =>
        if s.workerName.truthy then
          w.updateMiner s.server miner fun m => { m with difficulty := some diff }
        else w
      | none => w
    | none => w

/-- `startVardiff` and `startSoloVardiff`: a new interval; the one before it is not cleared. -/
def Socket.startVardiff (timer : ℕ) (s : Socket) : Socket :=
  if s.diffOverridden then s
  else { s with vardiffTimer := some timer, timers := timer :: s.timers }

def World.stamp (w : World) (socket : ℕ) : World :=
  w.updateSocket socket fun s =>
    { s with shareTimestamps := (w.now :: s.shareTimestamps).take 500 }

def window : ℕ := 60

def Socket.recentShares (now : ℕ) (s : Socket) : ℕ :=
  (s.shareTimestamps.filter fun t => now - t ≤ window * 1000).length

/-- The difficulty the timer announces, if it changes. The pace of `recent` shares in the window
is outside the variance when there are at most four of them or more than eight. -/
def Socket.retarget (rt : Runtime) (now : ℕ) (s : Socket) : Option ℕ :=
  let recent := s.recentShares now
  if recent ≤ 4 ∨ 8 < recent then
    let newDiff := min maxDiff (max minDiff (rt.scaleDiff s.socketDiff recent))
    if newDiff ≠ s.socketDiff then some newDiff else none
  else none

/-- The members of a new entry of `mining.authorize`. -/
def authorizedMiner (server : Server) (socket diff : ℕ) (jobId : Key) : Miner where
  shares := 0
  validShares := 0
  difficulty := some diff
  resolvedAddress := some []
  submittedShares := []
  lastJobId := .undefined
  socket := match server with
    | .pool => none
    | .solo => some socket
  coinbase1 := none
  coinbase2 := none
  jobId := jobId

/-- The mask that `mining.configure` answers with. -/
def configureMask (request : Request) : JsVal :=
  let mask := match request.params.filter Json.truthy, request.param 1 with
    | some _, .ok v => member "version-rolling.mask" (v.filter Json.truthy)
    | _, _ => none
  (mask.filter Json.truthy).or (some (.str "1fffe000".toList))

section Server
variable (rt : Runtime)

def announceRetarget (socket : ℕ) : Option ℕ → PoolM Unit
  | some newDiff => sendDifficulty socket newDiff
  | none => pure ()

def vardiff (socket timer : ℕ) : PoolM Unit := do
  let w ← Async.get
  match w.sockets[socket]? with
  | none => pure ()
  | some s =>
    if timer ∉ s.timers ∨ s.shareTimestamps.length < 2 then pure ()
    else do
      announceRetarget socket (s.retarget rt w.now)
      Async.modify fun w => w.updateSocket socket fun s => { s with shareTimestamps := [] }

/-- What follows an authorization of the shared pool: the address of a name. -/
def resolveMiner (miner : ℕ) (name : Key) : PoolM Unit :=
  (do
    let wallet := (parseMinerWorker rt name).wallet
    if endsWith wallet ".tar".toList then do
      let address ← awaited (resolveTnsToAddress rt wallet)
      Async.modify fun w =>
        if address = [] then w
        else w.updateMiner .pool miner fun m =>
          { m with resolvedAddress := some (rt.toLowerCase address) }
    else pure () : PoolM Unit).catching fun _ => pure ()

/-- What follows an authorization of the solo pool: the coinbase and the first job. -/
def prepareMiner (socket miner : ℕ) (name : Key) : PoolM Unit :=
  (do
    match (← Async.get).blockTemplate with
    | none => pure ()
    | some _ => do
      let minerAddress ← awaited (resolveTnsToAddress rt (parseMinerWorker rt name).wallet)
      Async.modify fun w =>
        if minerAddress = [] then w
        else w.updateMiner .solo miner fun m =>
          { m with resolvedAddress := some (rt.toLowerCase minerAddress) }
      match (← Async.get).blockTemplate with
      | none => .throw .typeError
      | some t => do
        let (coinbase1, coinbase2) ← awaited (buildSoloCoinbase rt minerAddress t.rawTemplate)
        Async.modify fun w => w.updateMiner .solo miner fun m =>
          { m with coinbase1 := some coinbase1, coinbase2 := some coinbase2 }
        if (← Async.get).sockets[socket]?.any fun s => !s.destroyed then
          sendSoloWork socket miner
        else pure () : PoolM Unit).catching fun _ => pure ()

def subscribe (socket : ℕ) (s : Socket) (request : Request) : PoolM Unit := do
  reply socket request.id (.subscribed s.workerId s.extraNonce1)
  sendDifficulty socket s.socketDiff
  match s.server with
  | .pool => sendWork socket
  | .solo => pure ()

def overrideDifficulty (socket : ℕ) (password : JsVal) : PoolM Unit :=
  match parseDiffOverride (password.filter Json.truthy) with
  | none => pure ()
  | some diff => do
    Async.modify fun w => w.updateSocket socket fun s => { s with diffOverridden := true }
    sendDifficulty socket diff

/-- Register a worker under its name; the result is its entry. -/
def register (server : Server) (socket : ℕ) (name : Key) (jobId : Key) : PoolM ℕ := do
  let w ← Async.get
  let diff := (w.sockets[socket]?.map Socket.socketDiff).getD startDiff
  Async.modify fun w => w.updateRegistry server fun r =>
    r.add name (authorizedMiner server socket diff jobId)
  pure (w.registry server).entries.length

def startTimer (socket : ℕ) : PoolM Unit :=
  Async.modify fun w => { w.updateSocket socket (Socket.startVardiff w.nextTimer) with
    nextTimer := w.nextTimer + 1 }

/-- What an authorization goes on with, in a function of its own that nobody waits for. -/
def followUp (server : Server) (socket miner : ℕ) (name : Key) : PoolM Unit :=
  match server with
  | .pool => resolveMiner rt miner name
  | .solo => prepareMiner rt socket miner name

/-- Enter the worker of an authorization and reply. -/
def enter (server : Server) (socket : ℕ) (name : Key) (id : JsVal) : PoolM Unit :=
  match server with
  | .pool => do
    let miner ← register .pool socket name .undefined
    reply socket id .accepted
    Async.modify fun w => { w with activeWorkers := w.poolMiners.miners.size }
    startTimer socket
    followUp rt .pool socket miner name
  | .solo => do
    let jobId ← randomHex 4
    let miner ← register .solo socket name (.str jobId)
    reply socket id .accepted
    startTimer socket
    followUp rt .solo socket miner name

def authorize (serial socket : ℕ) (s : Socket) (request : Request) : PoolM Unit := do
  let name := keyOf serial 0 (← Async.ofExcept (request.param 0))
  Async.modify fun w => w.updateSocket socket fun s => { s with workerName := name }
  overrideDifficulty socket (← Async.ofExcept (request.param 1))
  enter rt s.server socket name request.id

def submit (serial socket : ℕ) (s : Socket) (request : Request) : PoolM Unit := do
  Async.modify fun w => w.stamp socket
  match s.server with
  | .pool => handleSubmit rt serial socket request s.workerName s.extraNonce1
  | .solo => handleSoloSubmit rt serial socket request s.workerName s.extraNonce1

/-- One round of the message loop, with its `try`. -/
def receive (socket : ℕ) (method : Method) (request : Request) : PoolM Unit := do
  let w ← Async.get
  Async.modify fun w => { w with serial := w.serial + 1 }
  match w.sockets[socket]? with
  | none => pure ()
  | some s =>
    (match method with
    | .configure => reply socket request.id (.configured (configureMask request))
    | .subscribe => subscribe socket s request
    | .authorize => authorize rt w.serial socket s request
    | .submit => submit rt w.serial socket s request).catching fun _ => pure ()

/-- The `close` event. Only the interval that was started last is cleared. -/
def close (socket : ℕ) : PoolM Unit := do
  let w ← Async.get
  match w.sockets[socket]? with
  | none => pure ()
  | some s => do
    Async.modify fun w => w.updateSocket socket fun s =>
      { s with destroyed := true, timers := s.timers.filter fun t => some t ≠ s.vardiffTimer }
    if s.workerName.truthy then
      Async.modify fun w =>
        let w := w.updateRegistry s.server fun r => { r with miners := r.miners.delete s.workerName }
        match s.server with
        | .pool => { w with activeWorkers := w.poolMiners.miners.size }
        | .solo => w
    else pure ()

def start : Input → PoolM Unit
  | .connect server => connect server
  | .message socket method request => receive rt socket method request
  | .vardiff socket timer => vardiff rt socket timer
  | .close socket => close socket
  | .refresh rounds => refreshBlockTemplate rt rounds
  | .clock now => Async.modify fun w => { w with now }

def World.initial (redis : Bool) (entropy : ℕ → List UInt8) (feeWallet : Text) : World where
  now := 0
  redis := redis
  entropy := entropy
  drawn := 0
  serial := 0
  nextTimer := 0
  tnsResolutionCache := []
  feeWallet := feeWallet
  blockTemplate := none
  poolMiners := ⟨[], .empty⟩
  soloMiners := ⟨[], .empty⟩
  activeWorkers := 0
  blocksFound := 0
  soloBlocksFound := 0
  sockets := []

/-- The state at the start when no random bytes are drawn and there is no fee wallet. -/
abbrev World.fresh (redis : Bool) : World := .initial redis (fun _ => []) []

abbrev Process := Async.System World Call Answer Output JsError Input
abbrev PoolThread := Async.Thread World Call Answer Output JsError Input
abbrev PoolMove := Async.Move Answer Input

/-- The process after a list of inputs and answers, in any order. -/
def runPool (w : World) (moves : List PoolMove) : Process :=
  Async.run (start rt) (.initial w) moves

end Server

end Tarcoin.Pool
