import Tarcoin.Pool.World

/-! Worker names and passwords: `parseMinerWorker`, `resolveTnsToAddress` and
`parseDiffOverride` of `pool.js`. -/
namespace Tarcoin.Pool

structure MinerWorker where
  wallet : Text
  worker : Text
  isTns : Bool
  deriving DecidableEq, Repr

def isNameChar (c : Char) : Bool := c.isAlphanum || c == '-'

/-- The characters that `.` in a pattern does not match. -/
def isLineEnd (c : Char) : Bool :=
  [0x000a, 0x000d, 0x2028, 0x2029].contains c.toNat

/-- `/^([a-z0-9\-]+\.tar)(?:\.(.+))?$/i`: the domain and the worker after it. -/
def matchTar (s : Text) : Option (Text × Option Text) :=
  let label := s.takeWhile isNameChar
  let rest := s.drop label.length
  if label = [] ∨ (rest.take 4).map Char.toLower ≠ ".tar".toList then none
  else
    match rest.drop 4 with
    | [] => some (label ++ rest.take 4, none)
    | '.' :: worker =>
      if worker = [] ∨ worker.any isLineEnd then none else some (label ++ rest.take 4, some worker)
    | _ => none

def orText (d : Text) (s : Text) : Text := if s = [] then d else s

def parseMinerWorker (rt : Runtime) (workerInput : Key) : MinerWorker :=
  match workerInput with
  | .str input =>
    if input = [] then ⟨[], "default".toList, false⟩
    else
      let str := trim input
      match matchTar str with
      | some (domain, worker) => ⟨rt.toLowerCase domain, worker.getD "default".toList, true⟩
      | none =>
        let wallet := str.takeWhile (· ≠ '.')
        ⟨wallet, orText "default".toList (str.drop (wallet.length + 1)), false⟩
  | _ => ⟨[], "default".toList, false⟩

def endsWith (s ending : Text) : Bool := ending.isSuffixOf s

def isLowerOrDigit (c : Char) : Bool := c.isLower || c.isDigit

def isTarDomain (s : Text) : Bool :=
  let label := s.take (s.length - 4)
  endsWith s ".tar".toList && decide (1 ≤ label.length) && decide (label.length ≤ 63) &&
    (label.head?.any isLowerOrDigit) &&
    label.tail.all fun c => isLowerOrDigit c || c == '_' || c == '-'

def isTarAddress (s : Text) : Bool :=
  (s.take 4).map Char.toLower == "tar1".toList && (s.drop 4).all Char.isAlphanum &&
    decide (38 ≤ (s.drop 4).length) && decide ((s.drop 4).length ≤ 62)

/-- A member of an object; other values have none of the names used here. -/
def member (name : String) : JsVal → JsVal
  | some (.obj fields) => fields.lookup name.toList
  | _ => none

/-- The address in an answer of the name service, if it is one. -/
def targetAddress (data : JsVal) : Option Text :=
  if data.any Json.truthy ∧ (member "success" data).any Json.truthy then
    match member "targetAddress" data with
    | some (.str resolved) => if isTarAddress (trim resolved) then some (trim resolved) else none
    | _ => none
  else none

/-- `resolveTnsToAddress`: every failure of the service is caught, and the name itself is
returned. -/
def resolveTnsToAddress (rt : Runtime) (walletOrDomain : Text) : PoolM Text := do
  if walletOrDomain = [] then pure []
  else
    let domain := trim (rt.toLowerCase walletOrDomain)
    if !endsWith domain ".tar".toList || !isTarDomain domain then pure walletOrDomain
    else
      let w ← Async.get
      match w.tnsResolutionCache.lookup domain with
      | some (address, expiresAt) =>
        if w.now < expiresAt then pure address else fetch domain w.now
      | none => fetch domain w.now
where
  fetch (domain : Text) (now : ℕ) : PoolM Text :=
    (do
      match ← call (.tns domain) with
      | .resolved data =>
        match targetAddress data with
        | some address => do
          Async.modify fun w => { w with
            tnsResolutionCache := (domain, address, now + 300000) :: w.tnsResolutionCache }
          pure address
        | none => pure walletOrDomain
      | _ => pure walletOrDomain : PoolM Text).catching fun _ => pure walletOrDomain

def minDiff : ℕ := 5000
def maxDiff : ℕ := 30000000
def startDiff : ℕ := 12500

/-- `diff=` or `d=` with digits after it, in either case of the letters. -/
def diffSetting (s : Text) : Option ℕ :=
  let digits (n : ℕ) := (s.drop n).takeWhile Char.isDigit
  let value (n : ℕ) := Radix.accumulate 10 0 ((digits n).map fun c => c.toNat - 48)
  if (s.take 5).map Char.toLower = "diff=".toList ∧ digits 5 ≠ [] then some (value 5)
  else if (s.take 2).map Char.toLower = "d=".toList ∧ digits 2 ≠ [] then some (value 2)
  else none

/-- The first setting in a password, at its start or after `,` or `;`. -/
def findDiffSetting : Text → Option ℕ
  | [] => none
  | c :: s => if c = ',' ∨ c = ';' then (diffSetting s).or (findDiffSetting s) else findDiffSetting s

def parseDiffOverride (password : JsVal) : Option ℕ :=
  match password with
  | some (.str s) =>
    ((diffSetting s).or (findDiffSetting s)).map fun requested => min maxDiff (max minDiff requested)
  | _ => none

end Tarcoin.Pool
