import Tarcoin.Primitives.Block

/-! `HeadersSyncState` of `headerssync.cpp`: headers are downloaded twice. The first time one bit
is kept for every period, the second time the bits are checked and headers are released. -/
namespace Tarcoin.HeadersSync
open GuardedSum

/-- What the sync takes as given: hashes, the rule for difficulties, the work of a header, and the
salted bit of a hash. -/
structure SyncRules where
  blockHash : BlockHeader → Uint256
  permittedDifficultyTransition : ℤ → UInt32 → UInt32 → Bool
  blockProof : BlockHeader → ℕ
  commitmentBit : Uint256 → Bool

/-- The constants of one `HeadersSyncState`. -/
structure Setup extends SyncRules where
  commitmentPeriod : ℕ
  redownloadBufferSize : ℕ
  commitOffset : ℕ
  offset_lt : commitOffset < commitmentPeriod
  chainStart : BlockHeader
  chainStartHeight : ℕ
  chainStartWork : ℕ
  minimumRequiredWork : ℕ
  maxCommitments : ℕ

/-- A header without the hash of the one before it. -/
structure CompressedHeader where
  nVersion : Int32
  hashMerkleRoot : Uint256
  nTime : UInt32
  nBits : UInt32
  nNonce : UInt32
  deriving DecidableEq

def compress (header : BlockHeader) : CompressedHeader :=
  ⟨header.nVersion, header.hashMerkleRoot, header.nTime, header.nBits, header.nNonce⟩

def CompressedHeader.getFullHeader (h : CompressedHeader) (hashPrevBlock : Uint256) : BlockHeader :=
  ⟨h.nVersion, hashPrevBlock, h.hashMerkleRoot, h.nTime, h.nBits, h.nNonce⟩

inductive DownloadState where
  | presync | redownload | final
  deriving DecidableEq

structure State where
  downloadState : DownloadState
  currentChainWork : ℕ
  headerCommitments : List Bool
  lastHeaderReceived : BlockHeader
  currentHeight : ℤ
  redownloadedHeaders : List CompressedHeader
  redownloadBufferLastHeight : ℤ
  redownloadBufferLastHash : Uint256
  redownloadBufferFirstPrevHash : Uint256
  redownloadChainWork : ℕ
  processAllRemainingHeaders : Bool
  deriving DecidableEq

/-- A `headers` message, and whether it was at capacity. -/
structure HeadersMessage where
  headers : List BlockHeader
  full : Bool

structure ProcessingResult where
  powValidatedHeaders : List BlockHeader
  success : Bool
  requestMore : Bool
  deriving DecidableEq

def nullHeader : BlockHeader := ⟨0, 0, 0, 0, 0, 0⟩

def addWork (a b : ℕ) : ℕ := (a + b) % 2 ^ 256

def finalize (s : State) : State :=
  { s with
    downloadState := .final
    headerCommitments := []
    lastHeaderReceived := nullHeader
    currentHeight := 0
    redownloadedHeaders := []
    redownloadBufferLastHash := 0
    redownloadBufferFirstPrevHash := 0
    processAllRemainingHeaders := false }

section Sync

variable (C : Setup)

def initial : State where
  downloadState := .presync
  currentChainWork := C.chainStartWork
  headerCommitments := []
  lastHeaderReceived := C.chainStart
  currentHeight := C.chainStartHeight
  redownloadedHeaders := []
  redownloadBufferLastHeight := 0
  redownloadBufferLastHash := 0
  redownloadBufferFirstPrevHash := 0
  redownloadChainWork := 0
  processAllRemainingHeaders := false

/-- Whether a header of this height is committed to. The height is made a `size_t` first. -/
def commitsAt (height : ℤ) : Bool :=
  (height % 2 ^ 64).toNat % C.commitmentPeriod == C.commitOffset

/-- The height of the next header in the first phase, which is kept in an `int`. -/
def presyncHeight (s : State) : ℤ := wrap 32 (s.currentHeight + 1)

def storeCommitment (s : State) (current : BlockHeader) : State :=
  if commitsAt C (presyncHeight s) then
    { s with headerCommitments := s.headerCommitments ++ [C.commitmentBit (C.blockHash current)] }
  else s

def validateAndProcessSingleHeader (s : State) (current : BlockHeader) : Option State :=
  let nextHeight := presyncHeight s
  if C.permittedDifficultyTransition nextHeight s.lastHeaderReceived.nBits current.nBits then
    let s' := storeCommitment C s current
    if commitsAt C nextHeight && decide (C.maxCommitments < s'.headerCommitments.length) then none
    else some { s' with
      currentChainWork := addWork s'.currentChainWork (C.blockProof current)
      lastHeaderReceived := current
      currentHeight := nextHeight }
  else none

/-- The switch to the second phase, once there is enough work. -/
def switchToRedownload (s : State) : State :=
  if C.minimumRequiredWork ≤ s.currentChainWork then
    { s with
      redownloadedHeaders := []
      redownloadBufferLastHeight := C.chainStartHeight
      redownloadBufferFirstPrevHash := C.blockHash C.chainStart
      redownloadBufferLastHash := C.blockHash C.chainStart
      redownloadChainWork := C.chainStartWork
      downloadState := .redownload }
  else s

def validateAndStoreHeadersCommitments (s : State) : List BlockHeader → Option State
  | [] => some s
  | first :: rest =>
    if first.hashPrevBlock ≠ C.blockHash s.lastHeaderReceived then none
    else ((first :: rest).foldlM (validateAndProcessSingleHeader C) s).map (switchToRedownload C)

/-- The difficulty before the next header of the second phase. -/
def previousBits (s : State) : UInt32 :=
  match s.redownloadedHeaders.getLast? with
  | some header => header.nBits
  | none => C.chainStart.nBits

/-- The commitment a header of the second phase is checked against, if it is checked: nothing
once there is enough work, and `none` where the commitments have run out. -/
def dueCommitment (s : State) (header : BlockHeader) : Option (Option Bool) :=
  let reached := s.processAllRemainingHeaders ||
    decide (C.minimumRequiredWork ≤ addWork s.redownloadChainWork (C.blockProof header))
  if !reached && commitsAt C (s.redownloadBufferLastHeight + 1) then
    some s.headerCommitments.head?
  else none

def validateAndStoreRedownloadedHeader (s : State) (header : BlockHeader) : Option State :=
  let nextHeight := s.redownloadBufferLastHeight + 1
  if header.hashPrevBlock ≠ s.redownloadBufferLastHash then none
  else if C.permittedDifficultyTransition nextHeight (previousBits C s) header.nBits then
    let work := addWork s.redownloadChainWork (C.blockProof header)
    let stored : State := { s with
      redownloadChainWork := work
      processAllRemainingHeaders :=
        s.processAllRemainingHeaders || decide (C.minimumRequiredWork ≤ work)
      redownloadedHeaders := s.redownloadedHeaders ++ [compress header]
      redownloadBufferLastHeight := nextHeight
      redownloadBufferLastHash := C.blockHash header }
    match dueCommitment C s header with
    | none => some stored
    | some none => none
    | some (some expected) =>
      if C.commitmentBit (C.blockHash header) ≠ expected then none
      else some { stored with headerCommitments := s.headerCommitments.tail }
  else none

/-- The loop of `PopHeadersReadyForAcceptance`, over the buffer and the hash before it. -/
def popHeaders (processAll : Bool) : Uint256 → List CompressedHeader →
    List BlockHeader × Uint256 × List CompressedHeader
  | prev, [] => ([], prev, [])
  | prev, h :: rest =>
    if C.redownloadBufferSize < (h :: rest).length || processAll then
      let header := h.getFullHeader prev
      let popped := popHeaders processAll (C.blockHash header) rest
      (header :: popped.1, popped.2)
    else ([], prev, h :: rest)

def popHeadersReadyForAcceptance (s : State) : List BlockHeader × State :=
  let popped := popHeaders C s.processAllRemainingHeaders s.redownloadBufferFirstPrevHash
    s.redownloadedHeaders
  (popped.1, { s with
    redownloadBufferFirstPrevHash := popped.2.1
    redownloadedHeaders := popped.2.2 })

/-- A result, and the state it leaves: one that does not ask for more ends the sync. -/
def conclude (ret : ProcessingResult) (s : State) : ProcessingResult × State :=
  (ret, if ret.success && ret.requestMore then s else finalize s)

def processNextHeaders (s : State) (msg : HeadersMessage) : ProcessingResult × State :=
  if msg.headers = [] then (⟨[], false, false⟩, s)
  else match s.downloadState with
    | .final => (⟨[], false, false⟩, s)
    | .presync =>
      match validateAndStoreHeadersCommitments C s msg.headers with
      | none => conclude ⟨[], false, false⟩ s
      | some s' => conclude ⟨[], true, msg.full || s'.downloadState == .redownload⟩ s'
    | .redownload =>
      match msg.headers.foldlM (validateAndStoreRedownloadedHeader C) s with
      | none => conclude ⟨[], false, false⟩ s
      | some s₁ =>
        let popped := popHeadersReadyForAcceptance C s₁
        let done := popped.2.redownloadedHeaders.isEmpty && popped.2.processAllRemainingHeaders
        conclude ⟨popped.1, true, !done && msg.full⟩ popped.2

end Sync

section Observations

variable (C : Setup)

/-- The messages of a peer, each with the state it meets. -/
def trace : State → List HeadersMessage → List (State × HeadersMessage)
  | _, [] => []
  | s, msg :: msgs => (s, msg) :: trace (processNextHeaders C s msg).2 msgs

/-- All `pow_validated_headers`, in order. -/
def released (t : List (State × HeadersMessage)) : List BlockHeader :=
  t.flatMap fun turn => (processNextHeaders C turn.1 turn.2).1.powValidatedHeaders

def receivedIn (phase : DownloadState) (t : List (State × HeadersMessage)) : List BlockHeader :=
  t.flatMap fun turn => if turn.1.downloadState = phase then turn.2.headers else []

/-- The headers that a loop looks at, each with the state it meets, up to the first that fails. -/
def visits (step : State → BlockHeader → Option State) :
    State → List BlockHeader → List (State × BlockHeader)
  | _, [] => []
  | s, header :: rest => (s, header) ::
    match step s header with
    | none => []
    | some s' => visits step s' rest

def presyncVisits (turn : State × HeadersMessage) : List (State × BlockHeader) :=
  if turn.1.downloadState = .presync ∧
      turn.2.headers.head?.map BlockHeader.hashPrevBlock =
        some (C.blockHash turn.1.lastHeaderReceived) then
    visits (validateAndProcessSingleHeader C) turn.1 turn.2.headers
  else []

def redownloadVisits (turn : State × HeadersMessage) : List (State × BlockHeader) :=
  if turn.1.downloadState = .redownload then
    visits (validateAndStoreRedownloadedHeader C) turn.1 turn.2.headers
  else []

/-- The commitment that is stored for a header of the first phase, with its height. -/
def storedAt (visit : State × BlockHeader) : Option (ℤ × Bool) :=
  let height := presyncHeight visit.1
  if C.permittedDifficultyTransition height visit.1.lastHeaderReceived.nBits visit.2.nBits &&
      commitsAt C height then
    some (height, C.commitmentBit (C.blockHash visit.2))
  else none

/-- The commitment that a header of the second phase is compared with, with its height. -/
def checkedAt (visit : State × BlockHeader) : Option (ℤ × Bool) :=
  let height := visit.1.redownloadBufferLastHeight + 1
  if visit.2.hashPrevBlock == visit.1.redownloadBufferLastHash &&
      C.permittedDifficultyTransition height (previousBits C visit.1) visit.2.nBits then
    (dueCommitment C visit.1 visit.2).join.map fun expected => (height, expected)
  else none

def storedCommitments (t : List (State × HeadersMessage)) : List (ℤ × Bool) :=
  t.flatMap fun turn => (presyncVisits C turn).filterMap (storedAt C)

def checkedCommitments (t : List (State × HeadersMessage)) : List (ℤ × Bool) :=
  t.flatMap fun turn => (redownloadVisits C turn).filterMap (checkedAt C)

/-- The states that a message passes through, as far as something is stored in them. -/
def moments (turn : State × HeadersMessage) : List State :=
  turn.1 :: (processNextHeaders C turn.1 turn.2).2 ::
    ((presyncVisits C turn).flatMap (fun visit => [visit.1, storeCommitment C visit.1 visit.2]) ++
      (redownloadVisits C turn).flatMap fun visit =>
        visit.1 :: (validateAndStoreRedownloadedHeader C visit.1 visit.2).toList)

/-- The commitments to headers that come after the height `height`. -/
def commitmentsFrom : ℤ → List BlockHeader → List (ℤ × Bool)
  | _, [] => []
  | height, header :: rest =>
    (if commitsAt C (height + 1) then [(height + 1, C.commitmentBit (C.blockHash header))] else []) ++
      commitmentsFrom (height + 1) rest

def endHash (prev : Uint256) (headers : List BlockHeader) : Uint256 :=
  headers.foldl (fun _ header => C.blockHash header) prev

/-- The headers are linked by their hashes, the first one to `prev`. -/
def Linked : Uint256 → List BlockHeader → Prop
  | _, [] => True
  | prev, header :: rest => header.hashPrevBlock = prev ∧ Linked (C.blockHash header) rest

def workAfter (work : ℕ) (headers : List BlockHeader) : ℕ :=
  headers.foldl (fun work header => addWork work (C.blockProof header)) work

/-- Whether the work reaches the minimum with one of these headers. -/
def reachesWork : ℕ → List BlockHeader → Bool
  | _, [] => false
  | work, header :: rest =>
    decide (C.minimumRequiredWork ≤ addWork work (C.blockProof header)) ||
      reachesWork (addWork work (C.blockProof header)) rest

end Observations

section Append

variable (C : Setup) (t : List (State × HeadersMessage)) (s : State) (msg : HeadersMessage)

theorem released_snoc : released C (t ++ [(s, msg)]) =
    released C t ++ (processNextHeaders C s msg).1.powValidatedHeaders := by
  simp [released]

theorem receivedIn_snoc (phase : DownloadState) : receivedIn phase (t ++ [(s, msg)]) =
    receivedIn phase t ++ if s.downloadState = phase then msg.headers else [] := by
  simp [receivedIn]

theorem storedCommitments_snoc : storedCommitments C (t ++ [(s, msg)]) =
    storedCommitments C t ++ (presyncVisits C (s, msg)).filterMap (storedAt C) := by
  simp [storedCommitments]

theorem checkedCommitments_snoc : checkedCommitments C (t ++ [(s, msg)]) =
    checkedCommitments C t ++ (redownloadVisits C (s, msg)).filterMap (checkedAt C) := by
  simp [checkedCommitments]

end Append

section Chains

variable {C : Setup}

theorem linked_append {prev : Uint256} {as bs : List BlockHeader} :
    Linked C prev (as ++ bs) ↔ Linked C prev as ∧ Linked C (endHash C prev as) bs := by
  induction as generalizing prev with
  | nil => simp [Linked, endHash]
  | cons a as ih =>
    rw [List.cons_append, Linked, ih, Linked, and_assoc]
    rfl

theorem workAfter_append (work : ℕ) (headers : List BlockHeader) (header : BlockHeader) :
    workAfter C work (headers ++ [header]) =
      addWork (workAfter C work headers) (C.blockProof header) := by
  rw [workAfter, List.foldl_append]
  rfl

theorem reachesWork_append (work : ℕ) (headers : List BlockHeader) (header : BlockHeader) :
    reachesWork C work (headers ++ [header]) = (reachesWork C work headers ||
      decide (C.minimumRequiredWork ≤
        addWork (workAfter C work headers) (C.blockProof header))) := by
  induction headers generalizing work with
  | nil =>
    simp only [List.nil_append, reachesWork, workAfter, List.foldl_nil, Bool.or_false,
      Bool.false_or]
    exact decide_eq_decide.mpr Iff.rfl
  | cons h headers ih =>
    rw [List.cons_append, reachesWork, ih, reachesWork, Bool.or_assoc]
    rfl

@[simp] theorem getFullHeader_compress (header : BlockHeader) :
    (compress header).getFullHeader header.hashPrevBlock = header := rfl

end Chains

end Tarcoin.HeadersSync
