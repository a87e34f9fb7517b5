import Tarcoin.Foundations.AsyncOwned
import Tarcoin.KeyIO.Destination
import Tarcoin.Pool.Names

/-! The handler of `POST /api/faucet`. Redis keeps a key for the client and one for the address
that is paid; both are looked up before the waits and set after them. -/
namespace Tarcoin.Pool

inductive FaucetKey
  | ip (ip : Text)
  | address (address : Text)
  deriving DecidableEq, Repr

/-- A `sendtoaddress`: when the key of the address was set, and when the call was made. -/
structure Payment where
  address : Text
  marked : ℕ
  time : ℕ
  deriving DecidableEq, Repr

/-- `expiry` is the time until which a key is there, in milliseconds as `now` is. -/
structure FaucetWorld where
  now : ℕ
  redis : Bool
  turnstileSecret : Bool
  expiry : FaucetKey → ℕ
  inputs : ℕ
  requests : List (ℕ × Text)
  issued : List Payment

inductive FaucetCall
  | siteverify (token remoteip : Text)
  | get (key : FaucetKey)
  | setEx (key : FaucetKey)
  | validateAddress (address : Text)
  | getBalance
  | sendToAddress (address : Text)

inductive FaucetAnswer
  | rejects
  | done
  | verified (success : Bool)
  | validated (isvalid : Bool)
  | balance (amount : ℤ)
  | txid (txid : Text)
  deriving DecidableEq, Repr

inductive FaucetReply
  | addressRequired
  | tokenRequired
  | botVerificationFailed
  | invalidFormat
  | ipClaimed
  | addressClaimed
  | invalidAddress
  | limitReached
  | sent (txid : Text)
  | serverError
  deriving DecidableEq, Repr

/-- A request, with what `getClientIp` reads of it. -/
structure FaucetPost where
  body : JsVal
  forwarded : Option Text
  remoteAddress : Option Text

abbrev FaucetM := Async FaucetWorld FaucetCall FaucetAnswer (ℕ × FaucetReply) JsError

def looksLikeIp (s : Text) : Bool :=
  s != [] && s.all fun c => c.isDigit || c == '.' || c == ':' ||
    ('a' ≤ c && c ≤ 'f') || ('A' ≤ c && c ≤ 'F')

def getClientIp (post : FaucetPost) : Text :=
  let first := trim ((post.forwarded.getD []).takeWhile (· ≠ ','))
  if post.forwarded.getD [] ≠ [] ∧ looksLikeIp first then first
  else orText "0.0.0.0".toList (post.remoteAddress.getD [])

def FaucetAnswer.failed : FaucetAnswer → Option JsError
  | .rejects => some .rejected
  | _ => none

/-- A call of the node or of the verification service; a rejection is thrown. -/
def faucetCall (c : FaucetCall) : FaucetM FaucetAnswer :=
  .await c fun r => match r.failed with
    | some e => .throw e
    | none => .pure r

def redisGet (key : FaucetKey) : FaucetM Bool :=
  Async.remote (.get key) FaucetAnswer.failed fun w => (w, decide (w.now < w.expiry key))

def keyLifetime : ℕ := 315360000 * 1000

def FaucetWorld.setEx (w : FaucetWorld) (key : FaucetKey) : FaucetWorld :=
  { w with expiry := Function.update w.expiry key (w.now + keyLifetime) }

def redisSetEx (key : FaucetKey) : FaucetM ℕ :=
  Async.remote (.setEx key) FaucetAnswer.failed fun w => (w.setEx key, w.now)

def verifyToken (token : JsVal) (ip : Text) : FaucetM Bool := do
  let w ← Async.get
  if w.turnstileSecret then
    let response ← Async.ofExcept (toText token)
    match ← faucetCall (.siteverify response ip) with
    | .verified success => pure success
    | _ => pure false
  else pure true

def startsWith (s start : Text) : Bool := start.isPrefixOf s

/-- The rate limits: the reply that refuses a request, if one of its keys is there. -/
def checkLimits (ip address : Text) : FaucetM (Option FaucetReply) := do
  let w ← Async.get
  if w.redis then
    let ipCheck ← redisGet (.ip ip)
    if ipCheck then pure (some .ipClaimed)
    else
      let addrCheck ← redisGet (.address address)
      if addrCheck then pure (some .addressClaimed) else pure none
  else pure none

/-- `validation.isvalid`; an answer of another kind has no such member. -/
def validated (address : Text) : FaucetM Bool := do
  match ← faucetCall (.validateAddress address) with
  | .validated isvalid => pure isvalid
  | _ => pure false

/-- Whether `balance < 100` holds of the answer, which is in whole coins there. -/
def balanceTooLow : FaucetM Bool := do
  match ← faucetCall .getBalance with
  | .balance amount => pure (decide (amount < 100 * 100000000))
  | _ => pure false

/-- Set both keys; the result is the time of the second. -/
def recordLimits (ip address : Text) : FaucetM ℕ := do
  let w ← Async.get
  if w.redis then
    let _ ← redisSetEx (.ip ip)
    redisSetEx (.address address)
  else pure w.now

def FaucetWorld.issue (w : FaucetWorld) (address : Text) (marked : ℕ) : FaucetWorld :=
  { w with issued := w.issued ++ [⟨address, marked, w.now⟩] }

def sendTar (address : Text) (marked : ℕ) : FaucetM FaucetReply := do
  Async.modify fun w => w.issue address marked
  match ← faucetCall (.sendToAddress address) with
  | .txid txid => pure (.sent txid)
  | _ => pure (.sent [])

def claim (ip address : Text) : FaucetM FaucetReply := do
  match ← checkLimits ip address with
  | some refusal => pure refusal
  | none =>
    if !(← validated address) then pure .invalidAddress
    else if ← balanceTooLow then pure .limitReached
    else
      let marked ← recordLimits ip address
      sendTar address marked

/-- The body of the `try` block. Of the values that get to the format check only a text has a
`startsWith`. -/
def faucet (post : FaucetPost) : FaucetM FaucetReply := do
  let address := member "address" post.body
  let token := member "token" post.body
  let ip := getClientIp post
  if !address.any Json.truthy then pure .addressRequired
  else if !token.any Json.truthy then pure .tokenRequired
  else if !(← verifyToken token ip) then pure .botVerificationFailed
  else match address with
    | some (.str address) =>
      if !startsWith address "tar1".toList && !startsWith address "T".toList then pure .invalidFormat
      else claim ip address
    | _ => .throw .typeError

def FaucetPost.address? (post : FaucetPost) : Option Text :=
  match member "address" post.body with
  | some (.str address) => some address
  | _ => none

inductive FaucetInput
  | post (post : FaucetPost)
  | tick (elapsed : ℕ)

/-- A request begins to be served; its number is how many inputs there were before it. -/
def enterRequest (post : FaucetPost) (w : FaucetWorld) : FaucetWorld :=
  { w with
    inputs := w.inputs + 1
    requests := w.requests ++ (post.address?.map (Prod.mk w.inputs)).toList }

def leaveRequest (n : ℕ) (w : FaucetWorld) : FaucetWorld :=
  { w with requests := w.requests.filter (·.1 ≠ n) }

def serveFaucet : FaucetInput → FaucetM Unit
  | .post post => do
    let w ← Async.get
    Async.modify (enterRequest post)
    let reply ← (faucet post).catching fun _ => pure .serverError
    Async.output (w.inputs, reply)
    Async.modify (leaveRequest w.inputs)
  | .tick elapsed =>
    Async.modify fun w => { w with now := w.now + elapsed, inputs := w.inputs + 1 }

end Tarcoin.Pool
