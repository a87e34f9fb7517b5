import Tarcoin.Validation.ContextualHeader

/-! `CreateNewBlock` and `UpdateTime` of `node/miner.cpp`, and the template cache of
`getblocktemplate`. -/
namespace Tarcoin

section Stamp

variable (params : ConsensusParams) (pindexPrev : BlockIndex) (pprev : Chain)

def getMinimumTime : ℤ :=
  let minTime := Chain.medianTimePast (pindexPrev :: pprev) + 1
  if Chain.nextHeight (pindexPrev :: pprev) % params.difficultyAdjustmentInterval = 0 then
    max minTime (pindexPrev.blockTime - maxTimewarp)
  else minTime

/-- The time an `UpdateTime` at clock `now` leaves in a header stamped `old`. -/
def updatedTime (old : UInt32) (now : ℤ) : UInt32 :=
  if (old.toNat : ℤ) < max (getMinimumTime params pindexPrev pprev) now then
    UInt32.ofInt (max (getMinimumTime params pindexPrev pprev) now)
  else old

/-- `UpdateTime`: the header and the number of seconds it moved. Only networks that allow
minimum-difficulty blocks recompute the bits. -/
def updateTime (pblock : BlockHeader) (now : ℤ) : BlockHeader × ℤ :=
  let timed := { pblock with nTime := updatedTime params pindexPrev pprev pblock.nTime now }
  (if params.fPowAllowMinDifficultyBlocks then
      { timed with nBits := getNextWorkRequired pindexPrev pprev timed params }
    else timed,
    max (getMinimumTime params pindexPrev pprev) now - pblock.blockTime)

end Stamp

/-- What one `getblocktemplate` call reads: the mempool counter, the clock at its checks,
twice while a block is assembled and once when it is served, and the header fields that
do not bear on time or work. -/
structure TemplateCall where
  transactionsUpdated : ℕ
  time : ℤ
  created : ℤ
  assembled : ℤ
  served : ℤ
  nVersion : Int32
  hashMerkleRoot : Uint256

structure TemplateCache where
  pindexPrev : BlockIndex
  pprev : Chain
  nTransactionsUpdatedLast : ℕ
  timeStart : ℤ
  block : BlockHeader

section Call

variable (params : ConsensusParams) (tip : BlockIndex) (pprev : Chain)

/-- The header that `CreateNewBlock` fills in on top of the tip. -/
def createNewBlock (call : TemplateCall) : BlockHeader :=
  let stamped : BlockHeader :=
    ⟨call.nVersion, tip.hash, call.hashMerkleRoot, UInt32.ofInt call.created, 0, 0⟩
  let pblock := (updateTime params tip pprev stamped call.assembled).1
  { pblock with nBits := getNextWorkRequired tip pprev pblock params }

/-- A cached template is replaced when the tip moved, or when the mempool changed and the
template is more than five seconds old. -/
def refreshes (cache : TemplateCache) (call : TemplateCall) : Prop :=
  cache.pindexPrev.hash ≠ tip.hash ∨
    (call.transactionsUpdated ≠ cache.nTransactionsUpdatedLast ∧ 5 < call.time - cache.timeStart)

instance (cache : TemplateCache) (call : TemplateCall) : Decidable (refreshes tip cache call) := by
  unfold refreshes
  infer_instance

def newTemplate (call : TemplateCall) : TemplateCache where
  pindexPrev := tip
  pprev := pprev
  nTransactionsUpdatedLast := call.transactionsUpdated
  timeStart := call.time
  block := createNewBlock params tip pprev call

def currentTemplate (cache : Option TemplateCache) (call : TemplateCall) : TemplateCache :=
  match cache with
  | none => newTemplate params tip pprev call
  | some c => if refreshes tip c call then newTemplate params tip pprev call else c

/-- `getblocktemplate` in template mode: the cache it leaves and the header whose time and
bits it returns. The cached block is copied, so serving does not change it. -/
def getBlockTemplate (cache : Option TemplateCache) (call : TemplateCall) :
    TemplateCache × BlockHeader :=
  let c := currentTemplate params tip pprev cache call
  (c, { (updateTime params c.pindexPrev c.pprev c.block call.served).1 with nNonce := 0 })

def cacheAfter (cache : TemplateCache) (calls : List TemplateCall) : TemplateCache :=
  calls.foldl (fun c call => (getBlockTemplate params tip pprev (some c) call).1) cache

variable {params tip pprev}

theorem getBlockTemplate_reserve {cache : TemplateCache} {call : TemplateCall}
    (h : ¬ refreshes tip cache call) :
    getBlockTemplate params tip pprev (some cache) call = (cache,
      { (updateTime params cache.pindexPrev cache.pprev cache.block call.served).1 with
        nNonce := 0 }) := by
  simp [getBlockTemplate, currentTemplate, h]

theorem cacheAfter_eq {cache : TemplateCache} {calls : List TemplateCall}
    (h : ∀ call ∈ calls, ¬ refreshes tip cache call) :
    cacheAfter params tip pprev cache calls = cache := by
  induction calls with
  | nil => rfl
  | cons call calls ih =>
    rw [List.forall_mem_cons] at h
    rw [cacheAfter, List.foldl_cons, getBlockTemplate_reserve h.1]
    exact ih h.2

end Call

/-- The bits a header carries are the work required at its own time. -/
def WorkCoherent (tip : BlockIndex) (pprev : Chain) (header : BlockHeader) : Prop :=
  header.nBits = getNextWorkRequired tip pprev header mainParams

section Main

variable (tip : BlockIndex) (pprev : Chain)

/-- Coherent bits are what it takes for every block solved at that time and with those
bits to pass the work check. -/
theorem workCoherent_iff_passes (header : BlockHeader)
    (h : Chain.nextHeight (tip :: pprev) ≠ 1) :
    WorkCoherent tip pprev header ↔
      ∀ solved : BlockHeader, solved.nTime = header.nTime → solved.nBits = header.nBits →
        ∀ hash now, contextualCheckBlockHeader mainParams true hash solved tip pprev now ≠
          .error .diffbits := by
  have hwork (solved : BlockHeader) (ht : solved.nTime = header.nTime) :
      getNextWorkRequired tip pprev solved mainParams =
        getNextWorkRequired tip pprev header mainParams := by
    simp [getNextWorkRequired_main, BlockHeader.blockTime, ht]
  constructor
  · intro hc solved ht hb hash now hcheck
    rw [contextualCheck_diffbits_iff _ _ _ _ _ _ _ h, hwork solved ht, hb] at hcheck
    exact hcheck hc
  · intro hall
    by_contra hc
    exact hall header rfl rfl 0 0 ((contextualCheck_diffbits_iff _ _ _ _ _ _ _ h).mpr hc)

def templateTime (create : TemplateCall) : UInt32 :=
  updatedTime mainParams tip pprev (UInt32.ofInt create.created) create.assembled

def servedTime (create serve : TemplateCall) : UInt32 :=
  updatedTime mainParams tip pprev (templateTime tip pprev create) serve.served

/-- Six-hour periods between the tip and a time, as the emergency rule counts them. -/
def periodsAt (t : UInt32) : ℕ := emergencyPeriods (t.toNat - tip.blockTime)

private theorem updateTime_main (pblock : BlockHeader) (now : ℤ) :
    (updateTime mainParams tip pprev pblock now).1 =
      { pblock with nTime := updatedTime mainParams tip pprev pblock.nTime now } := by
  simp [updateTime, mainParams]

/-- A template served again carries bits that match its new time exactly when both times
fall into the same emergency period, or the gravity target is zero, or the target of the
earlier period is already the easiest one. -/
theorem reservedTemplate_coherent_iff (create : TemplateCall) (between : List TemplateCall)
    (serve : TemplateCall)
    (hkeep : ∀ call ∈ between ++ [serve],
      ¬ refreshes tip (newTemplate mainParams tip pprev create) call) :
    WorkCoherent tip pprev
        (getBlockTemplate mainParams tip pprev
          (some (cacheAfter mainParams tip pprev
            (getBlockTemplate mainParams tip pprev none create).1 between)) serve).2 ↔
      periodsAt tip (templateTime tip pprev create) =
          periodsAt tip (servedTime tip pprev create serve) ∨
        gravityTarget (tip :: pprev) mainParams = 0 ∨
        easiestTarget ≤ gravityTarget (tip :: pprev) mainParams *
          2 ^ min (periodsAt tip (templateTime tip pprev create))
            (periodsAt tip (servedTime tip pprev create serve)) := by
  have hcreate : (getBlockTemplate mainParams tip pprev none create).1 =
      newTemplate mainParams tip pprev create := rfl
  rw [hcreate, cacheAfter_eq fun call hc => hkeep call (List.mem_append_left _ hc),
    getBlockTemplate_reserve (hkeep serve (by simp)), ← getCompact_capped_eq_iff]
  simp only [WorkCoherent, newTemplate, createNewBlock, updateTime_main,
    getNextWorkRequired_main, BlockHeader.blockTime]
  rfl

end Main

def callAt (t : ℤ) : TemplateCall := ⟨0, t, t, t, t, 4, 0⟩

/-- A template of the first hour after the tip, served twice more in that hour. -/
theorem reservedTemplate_coherent_hour :
    (∀ call ∈ [callAt 1800000700] ++ [callAt 1800000800],
      ¬ refreshes steadyBlock (newTemplate mainParams steadyBlock
        steadyChain (callAt 1800000600)) call) ∧
    WorkCoherent steadyBlock steadyChain
      (getBlockTemplate mainParams steadyBlock steadyChain
        (some (cacheAfter mainParams steadyBlock steadyChain
          (getBlockTemplate mainParams steadyBlock steadyChain none
            (callAt 1800000600)).1 [callAt 1800000700])) (callAt 1800000800)).2 := by
  have hkeep : ∀ call ∈ [callAt 1800000700] ++ [callAt 1800000800],
      ¬ refreshes steadyBlock (newTemplate mainParams steadyBlock
        steadyChain (callAt 1800000600)) call := by decide
  exact ⟨hkeep, (reservedTemplate_coherent_iff _ _ _ _ _ hkeep).mpr (.inl (by decide))⟩

/-- Created exactly six hours after the tip and served one second later: the served time
asks for twice the target of the cached bits. -/
theorem reservedTemplate_incoherent_six_hours :
    ¬ refreshes steadyBlock (newTemplate mainParams steadyBlock
        steadyChain (callAt 1800021600)) (callAt 1800021601) ∧
    ¬ WorkCoherent steadyBlock steadyChain
      (getBlockTemplate mainParams steadyBlock steadyChain
        (some (getBlockTemplate mainParams steadyBlock steadyChain none
          (callAt 1800021600)).1) (callAt 1800021601)).2 := by
  unfold WorkCoherent
  decide

end Tarcoin
