import Mathlib.Data.Finset.Sort
import Mathlib.Data.Finset.Union
import Mathlib.Data.List.AList
import Tarcoin.Foundations.OrderedIndex
import Tarcoin.Util.FeeFrac

/-! Transactions whose parents are not known yet, one entry for each transaction and announcing
peer. Over a global limit, the peers that use more than their share lose announcements. -/
namespace Tarcoin.Net.Orphanage

open OrderedIndex Tarcoin.Util

abbrev NodeId := ℤ

abbrev Wtxid := ℕ

abbrev OutPoint := ℕ × ℕ

structure Tx where
  wtxid : Wtxid
  weight : ℕ
  vin : List OutPoint
deriving DecidableEq, Repr

structure Announcement where
  tx : Tx
  announcer : NodeId
  entrySequence : ℕ
  reconsider : Bool
deriving DecidableEq, Repr

namespace Announcement

def memUsage (ann : Announcement) : ℕ := ann.tx.weight

def latencyScore (ann : Announcement) : ℕ := 1 + ann.tx.vin.length / 10

end Announcement

def byWtxidView (ann : Announcement) : ℕ ×ₗ ℤ := toLex (ann.tx.wtxid, ann.announcer)

def byPeerView (ann : Announcement) : ℤ ×ₗ Bool ×ₗ ℕ :=
  toLex (ann.announcer, toLex (ann.reconsider, ann.entrySequence))

structure PeerDoSInfo where
  totalUsage : ℕ
  countAnnouncements : ℕ
  totalLatencyScore : ℕ
deriving DecidableEq, Repr

namespace PeerDoSInfo

def add (info : PeerDoSInfo) (ann : Announcement) : PeerDoSInfo :=
  ⟨info.totalUsage + ann.memUsage, info.countAnnouncements + 1,
    info.totalLatencyScore + ann.latencyScore⟩

/-- The statistics without the announcement, unless an assumption on them fails. -/
def subtract (info : PeerDoSInfo) (ann : Announcement) : Option PeerDoSInfo :=
  if ann.memUsage ≤ info.totalUsage ∧ ann.latencyScore ≤ info.totalLatencyScore ∧
      1 ≤ info.countAnnouncements then
    some ⟨info.totalUsage - ann.memUsage, info.countAnnouncements - 1,
      info.totalLatencyScore - ann.latencyScore⟩
  else none

/-- The greater of the two fractions of what the peer is allowed. -/
def dosScore (info : PeerDoSInfo) (maxPeerLatencyScore maxPeerMemory : ℕ) : FeeFrac :=
  let latencyScore := FeeFrac.of info.totalLatencyScore maxPeerLatencyScore
  let memScore := FeeFrac.of info.totalUsage maxPeerMemory
  if latencyScore.NegSizeLt memScore then memScore else latencyScore

end PeerDoSInfo

/-- The two parameters of an orphanage, positive words of 32 bits with a sign. -/
structure Limits where
  maxGlobalLatencyScore : ℕ
  reservedUsagePerPeer : ℕ
  latency_pos : 0 < maxGlobalLatencyScore
  latency_lt : maxGlobalLatencyScore < 2 ^ 31
  usage_pos : 0 < reservedUsagePerPeer
  usage_lt : reservedUsagePerPeer < 2 ^ 31

/-- `DEFAULT_MAX_ORPHANAGE_LATENCY_SCORE` and `DEFAULT_RESERVED_ORPHAN_WEIGHT_PER_PEER`. -/
def Limits.default : Limits :=
  ⟨3000, 404000, by decide, by decide, by decide, by decide⟩

def maxStandardTxWeight : ℕ := 400000

structure Pool where
  currentSequence : ℕ
  orphans : List Announcement
  uniqueOrphans : ℕ
  uniqueOrphanUsage : ℕ
  uniqueRoundedInputScores : ℕ
  outpointToOrphanWtxids : AList (fun _ : OutPoint => Finset Wtxid)
  reconsiderableWtxids : Finset Wtxid
  peerOrphanageInfo : AList (fun _ : NodeId => PeerDoSInfo)

def Pool.empty : Pool := ⟨0, [], 0, 0, 0, ∅, ∅, ∅⟩

namespace Pool

variable (lim : Limits) (s : Pool)

def totalLatencyScore : ℕ := s.uniqueRoundedInputScores + s.orphans.length

def totalOrphanUsage : ℕ := s.uniqueOrphanUsage

def peers : ℕ := s.peerOrphanageInfo.entries.length

def maxPeerLatencyScore : ℕ := lim.maxGlobalLatencyScore / max s.peers 1

def maxGlobalUsage : ℕ := lim.reservedUsagePerPeer * max s.peers 1

def needsTrim : Bool :=
  s.totalLatencyScore > lim.maxGlobalLatencyScore ∨ s.totalOrphanUsage > s.maxGlobalUsage lim

def haveTx (wtxid : Wtxid) : Bool := s.orphans.any (fun ann => ann.tx.wtxid = wtxid)

/-- No neighbour in the order by transaction is about the same one. -/
def isUnique (it : Announcement) : Bool :=
  (after? byWtxidView s.orphans it).all (fun next => next.tx.wtxid ≠ it.tx.wtxid) &&
    (before? byWtxidView s.orphans it).all (fun prev => prev.tx.wtxid ≠ it.tx.wtxid)

/-- A transaction that is gone is not a child of its parents' outputs any more. -/
def unlink (wtxid : Wtxid) (map : AList (fun _ : OutPoint => Finset Wtxid)) (prevout : OutPoint) :
    AList (fun _ : OutPoint => Finset Wtxid) :=
  match map.lookup prevout with
  | none => map
  | some wtxids => if wtxids.erase wtxid = ∅ then map.erase prevout
      else map.insert prevout (wtxids.erase wtxid)

def link (wtxid : Wtxid) (map : AList (fun _ : OutPoint => Finset Wtxid)) (prevout : OutPoint) :
    AList (fun _ : OutPoint => Finset Wtxid) :=
  map.insert prevout (insert wtxid ((map.lookup prevout).getD ∅))

/-- Take an announcement out, when `info` is left of its peer's statistics. -/
def remove (it : Announcement) (info : PeerDoSInfo) : Pool :=
  let unique := s.isUnique it
  { s with
    orphans := s.orphans.filter (fun ann => ann ≠ it)
    uniqueOrphans := s.uniqueOrphans - unique.toNat
    uniqueOrphanUsage := s.uniqueOrphanUsage - if unique then it.memUsage else 0
    uniqueRoundedInputScores := s.uniqueRoundedInputScores -
      if unique then it.latencyScore - 1 else 0
    outpointToOrphanWtxids := if unique then
        it.tx.vin.foldl (unlink it.tx.wtxid) s.outpointToOrphanWtxids
      else s.outpointToOrphanWtxids
    reconsiderableWtxids := if it.reconsider then s.reconsiderableWtxids.erase it.tx.wtxid
      else s.reconsiderableWtxids
    peerOrphanageInfo := if info.countAnnouncements = 0 then
        s.peerOrphanageInfo.erase it.announcer
      else s.peerOrphanageInfo.insert it.announcer info }

/-- Erase an announcement, unless an assumption on its peer fails. -/
def erase (it : Announcement) : Option Pool :=
  ((s.peerOrphanageInfo.lookup it.announcer).bind (fun info => info.subtract it)).map (s.remove it)

/-! ## Limiting -/

structure Erasure where
  before : Pool
  ann : Announcement

/-- The order of the heap: the worse score, then the more recent peer. -/
def compareScore (left right : NodeId × FeeFrac) : Bool :=
  if left.2 ≠ right.2 then left.2.NegSizeLt right.2 else left.1 < right.1

/-- The front of the heap is an entry that no other is worse than. -/
def front? (heap : List (NodeId × FeeFrac)) : Option (NodeId × FeeFrac) :=
  heap.find? (fun entry => heap.all (fun other => !compareScore entry other))

/-- Trim a peer from its announcement `it?` on, until it is no worse than the threshold. -/
def trimPeer (maxLat maxMem : ℕ) (worstPeer : NodeId) (threshold : FeeFrac) :
    ℕ → Pool → Option Announcement → List Erasure → Option (Pool × List Erasure)
  | 0, s, _, erased => if s.needsTrim lim then none else some (s, erased)
  | fuel + 1, s, it?, erased =>
    if s.needsTrim lim then do
      let it ← it?
      if it.announcer = worstPeer then
        let t ← s.erase it
        match t.peerOrphanageInfo.lookup worstPeer with
        | none => some (t, erased ++ [⟨s, it⟩])
        | some info =>
          if threshold.NegSizeLt (info.dosScore maxLat maxMem) then
            trimPeer maxLat maxMem worstPeer threshold fuel t (after? byPeerView s.orphans it)
              (erased ++ [⟨s, it⟩])
          else some (t, erased ++ [⟨s, it⟩])
      else none
    else some (s, erased)

/-- A peer that has announcements left goes back into the heap. -/
def pushBack (maxLat maxMem : ℕ) (peer : NodeId) (heap : List (NodeId × FeeFrac)) :
    List (NodeId × FeeFrac) :=
  match s.peerOrphanageInfo.lookup peer with
  | none => heap
  | some info => if info.countAnnouncements > 0 then heap ++ [(peer, info.dosScore maxLat maxMem)]
      else heap

/-- Trim the worst peer, put it back, and go on until the limits are respected. -/
def trimHeap (maxLat maxMem : ℕ) : ℕ → List (NodeId × FeeFrac) → Pool → List Erasure →
    Option (Pool × List Erasure)
  | 0, _, _, _ => none
  | fuel + 1, heap, s, erased => do
    let worst ← front? heap
    let rest := heap.erase worst
    if FeeFrac.RatioLt ⟨1, 1⟩ worst.2 then
      let _ ← s.peerOrphanageInfo.lookup worst.1
      let r ← trimPeer lim maxLat maxMem worst.1 (((front? rest).map Prod.snd).getD ⟨1, 1⟩)
        s.orphans.length s
        (lowerBound? byPeerView s.orphans (toLex (worst.1, toLex (false, 0)))) erased
      if r.1.needsTrim lim then
        trimHeap maxLat maxMem fuel (r.1.pushBack maxLat maxMem worst.1 rest) r.1 r.2
      else some r
    else none

def dosPeers (maxLat maxMem : ℕ) : List (NodeId × FeeFrac) :=
  (s.peerOrphanageInfo.entries.map (fun entry => (entry.1, entry.2.dosScore maxLat maxMem))).filter
    (fun entry => FeeFrac.RatioLt ⟨1, 1⟩ entry.2)

/-- Limit the orphanage, with what was erased. Nothing is returned if an assertion or an
assumption fails. -/
def limitOrphans : Option (Pool × List Erasure) :=
  if s.needsTrim lim then
    if s.maxPeerLatencyScore lim = 0 then none
    else trimHeap lim (s.maxPeerLatencyScore lim) lim.reservedUsagePerPeer (s.orphans.length + 1)
      (s.dosPeers (s.maxPeerLatencyScore lim) lim.reservedUsagePerPeer) s []
  else some (s, [])

/-! ## The calls -/

/-- A new announcement, unless the peer has announced the transaction already. -/
def emplace (tx : Tx) (peer : NodeId) : Option Pool :=
  if s.orphans.any (fun ann => ann.tx.wtxid = tx.wtxid ∧ ann.announcer = peer) then none
  else
    let ann : Announcement := ⟨tx, peer, s.currentSequence, false⟩
    some { s with
      currentSequence := s.currentSequence + 1
      orphans := s.orphans ++ [ann]
      peerOrphanageInfo := s.peerOrphanageInfo.insert peer
        (((s.peerOrphanageInfo.lookup peer).getD ⟨0, 0, 0⟩).add ann) }

def addUnique (tx : Tx) : Pool :=
  { s with
    uniqueOrphans := s.uniqueOrphans + 1
    uniqueOrphanUsage := s.uniqueOrphanUsage + tx.weight
    uniqueRoundedInputScores := s.uniqueRoundedInputScores + tx.vin.length / 10
    outpointToOrphanWtxids := tx.vin.foldl (link tx.wtxid) s.outpointToOrphanWtxids }

def mark (it : Announcement) (reconsider : Bool) : Pool :=
  { s with
    orphans := s.orphans.map
      (fun ann => if ann = it then { ann with reconsider := reconsider } else ann)
    reconsiderableWtxids := if reconsider then insert it.tx.wtxid s.reconsiderableWtxids
      else s.reconsiderableWtxids.erase it.tx.wtxid }

def addTx (tx : Tx) (peer : NodeId) : Option (Pool × Bool) :=
  if tx.weight > maxStandardTxWeight then some (s, false)
  else
    match s.emplace tx peer with
    | none => some (s, false)
    | some t =>
      let brandNew := !s.haveTx tx.wtxid
      let t := if brandNew then t.addUnique tx else t
      if t.isUnique ⟨tx, peer, s.currentSequence, false⟩ = brandNew then
        (t.limitOrphans lim).map (fun r => (r.1, brandNew))
      else none

def announcementsOf (wtxid : Wtxid) : List Announcement :=
  (view byWtxidView s.orphans).filter (fun ann => ann.tx.wtxid = wtxid)

def addAnnouncer (wtxid : Wtxid) (peer : NodeId) : Option (Pool × Bool) :=
  match s.announcementsOf wtxid with
  | [] => some (s, false)
  | it :: _ =>
    match s.emplace it.tx peer with
    | none => some (s, false)
    | some t =>
      if t.isUnique ⟨it.tx, peer, s.currentSequence, false⟩ then none
      else (t.limitOrphans lim).map (fun r => (r.1, true))

def eraseTxInternal (wtxid : Wtxid) : Option Pool := (s.announcementsOf wtxid).foldlM erase s

def eraseTx (wtxid : Wtxid) : Option (Pool × Bool) := do
  let t ← s.eraseTxInternal wtxid
  (t.limitOrphans lim).map (fun r => (r.1, s.haveTx wtxid))

def eraseForPeer (peer : NodeId) : Option Pool := do
  let anns := (view byPeerView s.orphans).filter (fun ann => ann.announcer = peer)
  if anns = [] then some s
  else
    let t ← anns.foldlM erase s
    if t.peerOrphanageInfo.lookup peer = none then (t.limitOrphans lim).map Prod.fst else none

/-- The transactions that spend an output that a block spends. -/
def wtxidsToErase (inputs : List OutPoint) : Finset Wtxid :=
  inputs.toFinset.biUnion (fun prevout => (s.outpointToOrphanWtxids.lookup prevout).getD ∅)

/-- Erase what a block includes or conflicts with, by the inputs of its transactions. -/
def eraseForBlock (inputs : List OutPoint) : Option Pool := do
  if s.orphans = [] then some s
  else
    let t ← ((s.wtxidsToErase inputs).sort (· ≤ ·)).foldlM eraseTxInternal s
    if ∀ wtxid ∈ s.wtxidsToErase inputs, s.haveTx wtxid then (t.limitOrphans lim).map Prod.fst
    else none

def addChild (draw : Wtxid → ℕ) (wtxid : Wtxid) : Option Pool :=
  if wtxid ∈ s.reconsiderableWtxids then some s
  else do
    let anns := s.announcementsOf wtxid
    let it ← anns[draw wtxid % anns.length]?
    if it.reconsider then none else some (s.mark it true)

def addChildrenToWorkSet (txid : ℕ) (vout : ℕ) (draw : Wtxid → ℕ) : Option Pool :=
  (List.range vout).foldlM (fun t n =>
    (((t.outpointToOrphanWtxids.lookup (txid, n)).getD ∅).sort (· ≤ ·)).foldlM
      (fun t wtxid => t.addChild draw wtxid) t) s

def getTxToReconsider (peer : NodeId) : Pool × Option Tx :=
  match lowerBound? byPeerView s.orphans (toLex (peer, toLex (true, 0))) with
  | none => (s, none)
  | some it => if it.announcer = peer ∧ it.reconsider then (s.mark it false, some it.tx)
      else (s, none)

end Pool

inductive Call
  | addTx (tx : Tx) (peer : NodeId)
  | addAnnouncer (wtxid : Wtxid) (peer : NodeId)
  | eraseTx (wtxid : Wtxid)
  | eraseForPeer (peer : NodeId)
  | eraseForBlock (inputs : List OutPoint)
  | addChildrenToWorkSet (txid : ℕ) (vout : ℕ) (draw : Wtxid → ℕ)
  | getTxToReconsider (peer : NodeId)

def Pool.call (lim : Limits) (s : Pool) : Call → Option Pool
  | .addTx tx peer => (s.addTx lim tx peer).map Prod.fst
  | .addAnnouncer wtxid peer => (s.addAnnouncer lim wtxid peer).map Prod.fst
  | .eraseTx wtxid => (s.eraseTx lim wtxid).map Prod.fst
  | .eraseForPeer peer => s.eraseForPeer lim peer
  | .eraseForBlock inputs => s.eraseForBlock lim inputs
  | .addChildrenToWorkSet txid vout draw => s.addChildrenToWorkSet txid vout draw
  | .getTxToReconsider peer => some (s.getTxToReconsider peer).1

end Tarcoin.Net.Orphanage
