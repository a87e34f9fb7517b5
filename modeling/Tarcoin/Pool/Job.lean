import Tarcoin.Pool.Header

/-! How `refreshBlockTemplate` and `buildSoloCoinbase` turn a template of the node into a job. -/
namespace Tarcoin.Pool

structure TemplateTx where
  txid : Option Text
  hash : Text
  data : Text
  deriving DecidableEq, Repr

/-- The members of a `getblocktemplate` result that the pool reads. -/
structure NodeTemplate where
  previousblockhash : Option Text
  height : Option ℕ
  coinbasevalue : Option ℕ
  defaultWitnessCommitment : Option Text
  transactions : List TemplateTx
  version : ℤ
  bits : Text
  deriving DecidableEq, Repr

/-- The template of a first block with the given transactions, at the lowest difficulty. -/
def NodeTemplate.first (transactions : List TemplateTx) : NodeTemplate :=
  ⟨none, some 1, none, none, transactions, 0x20000000, "207fffff".toList⟩

/-- `x || d` for a text or number that may be missing. -/
def orDefault {α : Type} [DecidableEq α] (falsy d : α) : Option α → α
  | none => d
  | some x => if x = falsy then d else x

/-- The loop that drops the zero bytes at the end but keeps one byte. -/
def trimHeight : ℕ → List UInt8 → ℕ
  | 0, _ => 0
  | 1, _ => 1
  | stop + 2, heightBuf =>
    if heightBuf.getD (stop + 1) 0 = 0 then trimHeight (stop + 1) heightBuf else stop + 2

/-- The push of the block height that opens the coinbase script. -/
def heightScript (height : ℕ) : Except JsError (List UInt8) := do
  let heightBuf ← writeUInt32LE (some height)
  let stop := trimHeight 4 heightBuf
  .ok (UInt8.ofNat stop :: heightBuf.take stop)

def zeroHash : Text := List.replicate 64 '0'

/-- The coinbase up to the extra nonces, which add eight bytes to its script. -/
def buildCoinbase1 (template : NodeTemplate) : Except JsError Text := do
  let script ← heightScript (orDefault 0 0 template.height)
  .ok ("01000000".toList ++ "01".toList ++ zeroHash ++ "ffffffff".toList ++
    Hex.encode [UInt8.ofNat (script.length + 8)] ++ Hex.encode script)

/-- `writeBigUInt64LE` of a number that is not negative. -/
def writeBigUInt64LE (n : ℕ) : Except JsError (List UInt8) :=
  if n < 2 ^ 64 then .ok (littleEndian 8 n) else .error .rangeError

/-- One output: its value, the length of its script and the script. -/
def outputText (value : ℕ) (script : Text) : Except JsError Text := do
  let valueBuf ← writeBigUInt64LE value
  .ok (Hex.encode valueBuf ++ (← encodeHalfVarInt script.length) ++ script)

def witnessOutput (template : NodeTemplate) : Except JsError (Option Text) :=
  match template.defaultWitnessCommitment with
  | none => .ok none
  | some commitment => if commitment = [] then .ok none else (outputText 0 commitment).map some

def blockReward (template : NodeTemplate) : ℕ := orDefault 0 5000000000000 template.coinbasevalue

def poolScriptPubKey : Text := "00140de17bfae2199542aefe26f3dc8d0bd475475e31".toList

/-- The rest of the coinbase: sequence, outputs and lock time. -/
def coinbase2Text (paid : List Text) (witness : Option Text) : Text :=
  "ffffffff".toList ++ padStart 2 (Nat.toDigits 16 (paid.length + witness.toList.length)) ++
    paid.flatten ++ witness.getD [] ++ "00000000".toList

def buildCoinbase2 (template : NodeTemplate) : Except JsError Text := do
  let rewardOutput ← outputText (blockReward template) poolScriptPubKey
  .ok (coinbase2Text [rewardOutput] (← witnessOutput template))

/-- The two outputs of a solo coinbase: the miner and the fee wallet. -/
def buildSoloCoinbase2 (rt : Runtime) (template : NodeTemplate) (minerScript feeScript : Text) :
    Except JsError Text := do
  let feeAmount := rt.soloFee (blockReward template)
  if blockReward template < feeAmount then .error .rangeError
  else
    let minerOutput ← outputText (blockReward template - feeAmount) minerScript
    let feeOutput ← outputText feeAmount feeScript
    .ok (coinbase2Text [minerOutput, feeOutput] (← witnessOutput template))

section Branch
variable (rt : Runtime)

def joinLevel : List (Option (List UInt8)) → Except JsError (List (Option (List UInt8)))
  | some a :: some b :: rest => do
    let next ← joinLevel rest
    .ok (some (rt.sha256d (a ++ b)).val :: next)
  | [] => .ok []
  | _ => .error .typeError

/-- The loop over the levels; the `null` in front stands for the coinbase. The fuel bounds the
number of levels, which is never more than the number of hashes. -/
def merkleLevels : ℕ → List (Option (List UInt8)) → Except JsError (List (Option (List UInt8)))
  | 0, _ => .ok []
  | fuel + 1, hashes =>
    if hashes.length ≤ 1 then .ok []
    else
      let hashes := if hashes.length % 2 ≠ 0 then hashes ++ hashes.getLast?.toList else hashes
      do
        let next ← joinLevel rt (hashes.drop 2)
        let above ← merkleLevels fuel (none :: next)
        .ok (hashes[1]?.join :: above)

/-- `merkleBranch`, from the ids as the node writes them. -/
def merkleBranch (txHashes : List Text) : Except JsError (List Text) :=
  if txHashes = [] then .ok []
  else do
    let hashes := none :: txHashes.map fun h => some (Hex.decode h).reverse
    let branch ← merkleLevels rt hashes.length hashes
    branch.mapM fun b => match b with
      | some b => .ok (Hex.encode b)
      | none => .error .typeError

end Branch

structure BlockTemplate where
  jobId : Text
  prevHashBE : Text
  stratumPrevHash : Text
  coinbase1 : Text
  coinbase2 : Text
  merkleBranch : List Text
  txData : List Text
  version : Text
  nBits : Text
  nTime : Text
  height : Option ℕ
  rawTemplate : NodeTemplate
  deriving DecidableEq, Repr

def BlockTemplate.work (t : BlockTemplate) (coinbase1 coinbase2 : Text) : Work :=
  ⟨coinbase1, coinbase2, t.merkleBranch, t.prevHashBE, t.version, t.nBits⟩

/-- The job that `refreshBlockTemplate` puts in place, at a time in milliseconds. -/
def buildTemplate (rt : Runtime) (jobId : Text) (now : ℕ) (template : NodeTemplate) :
    Except JsError BlockTemplate := do
  let originalPrevHash := orDefault [] zeroHash template.previousblockhash
  let coinbase1 ← buildCoinbase1 template
  let coinbase2 ← buildCoinbase2 template
  let branch ← merkleBranch rt (template.transactions.map fun t => orDefault [] t.hash t.txid)
  .ok {
    jobId
    prevHashBE := originalPrevHash
    stratumPrevHash := formatPrevHashForStratum originalPrevHash
    coinbase1, coinbase2
    merkleBranch := branch
    txData := template.transactions.map TemplateTx.data
    version := padStart 8 (toString16 template.version)
    nBits := template.bits
    nTime := padStart 8 (Nat.toDigits 16 (now / 1000))
    height := template.height
    rawTemplate := template }

theorem buildTemplate_eq {rt : Runtime} {jobId : Text} {now : ℕ} {template : NodeTemplate}
    {t : BlockTemplate} (h : buildTemplate rt jobId now template = .ok t) :
    ∃ coinbase1 coinbase2 branch, buildCoinbase1 template = .ok coinbase1 ∧
      buildCoinbase2 template = .ok coinbase2 ∧
      merkleBranch rt (template.transactions.map fun t => orDefault [] t.hash t.txid) = .ok branch ∧
      t = ⟨jobId, orDefault [] zeroHash template.previousblockhash,
        formatPrevHashForStratum (orDefault [] zeroHash template.previousblockhash), coinbase1, coinbase2,
        branch, template.transactions.map TemplateTx.data, padStart 8 (toString16 template.version),
        template.bits, padStart 8 (Nat.toDigits 16 (now / 1000)), template.height, template⟩ := by
  simp only [buildTemplate, bind, Except.bind] at h
  cases h1 : buildCoinbase1 template with
  | error e => simp [h1] at h
  | ok coinbase1 =>
    cases h2 : buildCoinbase2 template with
    | error e => simp [h1, h2] at h
    | ok coinbase2 =>
      cases hb : merkleBranch rt (template.transactions.map fun t => orDefault [] t.hash t.txid) with
      | error e => simp [h1, h2, hb] at h
      | ok branch =>
        simp only [h1, h2, hb] at h
        exact ⟨coinbase1, coinbase2, branch, rfl, rfl, rfl, (Except.ok.inj h).symm⟩

/-- The bytes of a coinbase up to the extra nonces: version, one input without a previous output,
and the start of its script. -/
def coinbaseFront (script : List UInt8) : List UInt8 :=
  [1, 0, 0, 0, 1] ++ List.replicate 32 0 ++ [0xff, 0xff, 0xff, 0xff] ++
    (UInt8.ofNat (script.length + 8) :: script)

theorem buildCoinbase1_eq {template : NodeTemplate} {coinbase1 : Text}
    (h : buildCoinbase1 template = .ok coinbase1) :
    ∃ script, heightScript (orDefault 0 0 template.height) = .ok script ∧
      coinbase1 = Hex.encode (coinbaseFront script) := by
  simp only [buildCoinbase1, bind, Except.bind] at h
  cases hscript : heightScript (orDefault 0 0 template.height) with
  | error e => simp [hscript] at h
  | ok script =>
    simp only [hscript] at h
    have hfront : "01000000".toList ++ "01".toList ++ zeroHash ++ "ffffffff".toList =
        Hex.encode ([1, 0, 0, 0, 1] ++ List.replicate 32 0 ++ [0xff, 0xff, 0xff, 0xff]) := by
      decide
    refine ⟨script, rfl, ?_⟩
    rw [← Except.ok.inj h, hfront, ← Hex.encode_append, ← Hex.encode_append, coinbaseFront]
    simp

end Tarcoin.Pool
