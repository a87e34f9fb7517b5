import Mathlib.Algebra.Order.Ring.Nat
import Mathlib.Data.Prod.Lex
import Tarcoin.Foundations.OrderedIndex

/-! The transaction request tracker: announcements in one container with three orders. The best
candidate of each hash is kept up to date by moves between neighbours of the order by hash. -/
namespace Tarcoin.Net.TxRequest

open OrderedIndex

abbrev NodeId := ℤ

abbrev TxHash := ℕ

inductive GenTxid where
  | txid (hash : TxHash)
  | wtxid (hash : TxHash)
deriving DecidableEq, Repr

def GenTxid.toUint256 : GenTxid → TxHash
  | .txid hash => hash
  | .wtxid hash => hash

/-- The states of an announcement, in the order in which the container sorts them. -/
inductive State where
  | candidateDelayed
  | candidateReady
  | candidateBest
  | requested
  | completed
deriving DecidableEq, Repr

def State.rank : State → ℕ
  | .candidateDelayed => 0
  | .candidateReady => 1
  | .candidateBest => 2
  | .requested => 3
  | .completed => 4

structure Announcement where
  gtxid : GenTxid
  /-- The time from which a candidate may be requested, or the expiry of a request. -/
  time : ℤ
  peer : NodeId
  /-- A bit field of 59 bits. -/
  sequence : ℕ
  preferred : Bool
  state : State
deriving DecidableEq, Repr

namespace Announcement

def hash (ann : Announcement) : TxHash := ann.gtxid.toUint256

def setState (state : State) (ann : Announcement) : Announcement := { ann with state }

def isSelected (ann : Announcement) : Bool :=
  ann.state = .candidateBest ∨ ann.state = .requested

def isWaiting (ann : Announcement) : Bool :=
  ann.state = .requested ∨ ann.state = .candidateDelayed

def isSelectable (ann : Announcement) : Bool :=
  ann.state = .candidateReady ∨ ann.state = .candidateBest

end Announcement

/-- The priority of an announcement, from its hash, its peer and whether it is preferred. -/
abbrev PriorityComputer := TxHash → NodeId → Bool → ℕ

def PriorityComputer.of (computer : PriorityComputer) (ann : Announcement) : ℕ :=
  computer ann.hash ann.peer ann.preferred

def byPeerView (ann : Announcement) : ℤ ×ₗ Bool ×ₗ ℕ :=
  toLex (ann.peer, toLex (decide (ann.state = .candidateBest), ann.hash))

def byTxHashView (computer : PriorityComputer) (ann : Announcement) : ℕ ×ₗ ℕ ×ₗ ℕ :=
  toLex (ann.hash, toLex (ann.state.rank,
    if ann.state = .candidateReady then computer.of ann else 0))

/-- Future events come first, announcements whose time is not relevant next, past events last. -/
def waitState (ann : Announcement) : ℕ :=
  if ann.isWaiting then 0 else if ann.isSelectable then 2 else 1

def byTimeView (ann : Announcement) : ℕ ×ₗ ℤ := toLex (waitState ann, ann.time)

structure PeerInfo where
  total : ℕ
  completed : ℕ
  requested : ℕ
deriving DecidableEq, Repr

/-- The tracker. A peer without an entry in the statistics counts as one whose entry is zero. -/
structure Tracker where
  currentSequence : ℕ
  index : List Announcement
  peerinfo : NodeId → PeerInfo

def Tracker.empty : Tracker := ⟨0, [], fun _ => ⟨0, 0, 0⟩⟩

namespace Tracker

variable (computer : PriorityComputer) (s : Tracker)

/-- Take an announcement out; an iterator is the announcement it points to. -/
def erase (it : Announcement) : Tracker :=
  { s with
    index := s.index.filter (fun ann => ann ≠ it)
    peerinfo := Function.update s.peerinfo it.peer
      { total := (s.peerinfo it.peer).total - 1
        completed := (s.peerinfo it.peer).completed - (it.state == .completed).toNat
        requested := (s.peerinfo it.peer).requested - (it.state == .requested).toNat } }

def modify (it : Announcement) (modifier : Announcement → Announcement) : Tracker :=
  { s with
    index := s.index.map (fun ann => if ann = it then modifier ann else ann)
    peerinfo := Function.update s.peerinfo it.peer
      { total := (s.peerinfo it.peer).total
        completed := (s.peerinfo it.peer).completed - (it.state == .completed).toNat +
          ((modifier it).state == .completed).toNat
        requested := (s.peerinfo it.peer).requested - (it.state == .requested).toNat +
          ((modifier it).state == .requested).toNat } }

/-- The delayed candidate is ready; it becomes the best one where none is selected for its hash
or where it beats the one that is best so far, its neighbour then. -/
def promoteCandidateReady (it : Announcement) : Tracker :=
  let s₁ := s.modify it (.setState .candidateReady)
  let it₁ := it.setState .candidateReady
  match after? (byTxHashView computer) s₁.index it₁ with
  | none => s₁.modify it₁ (.setState .candidateBest)
  | some next =>
    if next.hash ≠ it₁.hash ∨ next.state = .completed then
      s₁.modify it₁ (.setState .candidateBest)
    else if next.state = .candidateBest ∧ computer.of it₁ > computer.of next then
      (s₁.modify next (.setState .candidateReady)).modify it₁ (.setState .candidateBest)
    else s₁

/-- If the announcement is selected, the ready candidate to its left is best from now on. -/
def reselect (it : Announcement) : Tracker :=
  if it.isSelected then
    match before? (byTxHashView computer) s.index it with
    | none => s
    | some prev =>
      if prev.hash = it.hash ∧ prev.state = .candidateReady then
        s.modify prev (.setState .candidateBest)
      else s
  else s

/-- The announcement takes a state that is not selected. -/
def changeAndReselect (it : Announcement) (newState : State) : Tracker :=
  (s.reselect computer it).modify it (.setState newState)

def isOnlyNonCompleted (it : Announcement) : Bool :=
  (before? (byTxHashView computer) s.index it).all (fun prev => prev.hash ≠ it.hash) &&
    (after? (byTxHashView computer) s.index it).all
      (fun next => next.hash ≠ it.hash ∨ next.state = .completed)

/-- Erase the announcements of a hash one after another, as long as they come next. -/
def eraseWhile (txhash : TxHash) : Tracker → List Announcement → Tracker
  | s, [] => s
  | s, it :: rest => if it.hash = txhash then eraseWhile txhash (s.erase it) rest else s

/-- Complete an announcement, or forget its hash if no other one is left to complete. The flag
says whether the announcement still exists. -/
def makeCompleted (it : Announcement) : Tracker × Bool :=
  if it.state = .completed then (s, true)
  else if s.isOnlyNonCompleted computer it then
    (eraseWhile it.hash s ((view (byTxHashView computer) s.index).dropWhile (fun ann => ann ≠ it)),
      false)
  else (s.changeAndReselect computer it .completed, true)

/-- Ready the delayed candidates and complete the requests whose time has come. -/
def settleDue (now : ℤ) : ℕ → Tracker → List (NodeId × GenTxid) →
    Tracker × List (NodeId × GenTxid)
  | 0, s, expired => (s, expired)
  | fuel + 1, s, expired =>
    match first? byTimeView s.index with
    | none => (s, expired)
    | some it =>
      if it.state = .candidateDelayed ∧ it.time ≤ now then
        settleDue now fuel (s.promoteCandidateReady computer it) expired
      else if it.state = .requested ∧ it.time ≤ now then
        settleDue now fuel (s.makeCompleted computer it).1 (expired ++ [(it.peer, it.gtxid)])
      else (s, expired)

/-- Delay the candidates again whose time is to come, should the clock have gone backwards. -/
def delayEarly (now : ℤ) : ℕ → Tracker → Tracker
  | 0, s => s
  | fuel + 1, s =>
    match last? byTimeView s.index with
    | none => s
    | some it =>
      if it.isSelectable ∧ it.time > now then
        delayEarly now fuel (s.changeAndReselect computer it .candidateDelayed)
      else s

/-- Every turn of the two loops uses up one announcement. -/
def setTimePoint (now : ℤ) : Tracker × List (NodeId × GenTxid) :=
  let r := settleDue computer now s.index.length s []
  (delayEarly computer now r.1.index.length r.1, r.2)

/-- The announcement that an iterator points to after the container was changed. -/
def deref (it : Announcement) : Option Announcement :=
  s.index.find? (fun ann => ann.peer = it.peer ∧ ann.hash = it.hash)

def disconnectFrom (peer : NodeId) : ℕ → Tracker → Option Announcement → Tracker
  | 0, s, _ => s
  | _ + 1, s, none => s
  | fuel + 1, s, some it =>
    if it.peer = peer then
      let next := (after? byPeerView s.index it).filter (fun ann => ann.peer = peer)
      let r := s.makeCompleted computer it
      let s₁ := if r.2 then r.1.erase (it.setState .completed) else r.1
      disconnectFrom peer fuel s₁ (next.bind s₁.deref)
    else s

def disconnectedPeer (peer : NodeId) : Tracker :=
  disconnectFrom computer peer s.index.length s
    (lowerBound? byPeerView s.index (toLex (peer, toLex (false, 0))))

def forgetTxHash (txhash : TxHash) : Tracker :=
  eraseWhile txhash s ((view (byTxHashView computer) s.index).dropWhile
    (fun ann => byTxHashView computer ann < toLex (txhash, toLex (State.candidateDelayed.rank, 0))))

def receivedInv (peer : NodeId) (gtxid : GenTxid) (preferred : Bool) (reqtime : ℤ) : Tracker :=
  let key (best : Bool) : ℤ ×ₗ Bool ×ₗ ℕ := toLex (peer, toLex (best, gtxid.toUint256))
  if s.index.any (fun ann => byPeerView ann = key true) then s
  -- The order by peer is unique, so nothing is added where there is an announcement already.
  else if s.index.any (fun ann => byPeerView ann = key false) then s
  else
    { currentSequence := (s.currentSequence + 1) % 2 ^ 64
      index := s.index ++
        [⟨gtxid, reqtime, peer, s.currentSequence % 2 ^ 59, preferred, .candidateDelayed⟩]
      peerinfo := Function.update s.peerinfo peer
        { s.peerinfo peer with total := (s.peerinfo peer).total + 1 } }

def selected (peer : NodeId) : List Announcement :=
  (((view byPeerView s.index).dropWhile
      (fun ann => byPeerView ann < toLex (peer, toLex (true, 0)))).takeWhile
    (fun ann => ann.peer = peer ∧ ann.state = .candidateBest)).insertionSort
      (fun a b => a.sequence ≤ b.sequence)

/-- What to request from the peer now, with the requests that have expired. -/
def getRequestable (peer : NodeId) (now : ℤ) : Tracker × List GenTxid × List (NodeId × GenTxid) :=
  let r := s.setTimePoint computer now
  (r.1, (r.1.selected peer).map Announcement.gtxid, r.2)

def findBy (key : ℤ ×ₗ Bool ×ₗ ℕ) : Option Announcement :=
  s.index.find? (fun ann => byPeerView ann = key)

def deselect (txhash : TxHash) : Tracker :=
  match lowerBound? (byTxHashView computer) s.index
      (toLex (txhash, toLex (State.candidateBest.rank, 0))) with
  | none => s
  | some old =>
    if old.hash = txhash then
      match old.state with
      | .candidateBest => s.modify old (.setState .candidateReady)
      | .requested => s.modify old (.setState .completed)
      | _ => s
    else s

def requestedTx (peer : NodeId) (txhash : TxHash) (expiry : ℤ) : Tracker :=
  let request (ann : Announcement) : Announcement := { ann with state := .requested, time := expiry }
  match s.findBy (toLex (peer, toLex (true, txhash))) with
  | some it => s.modify it request
  | none =>
    match s.findBy (toLex (peer, toLex (false, txhash))) with
    | none => s
    | some it =>
      if it.state = .candidateDelayed ∨ it.state = .candidateReady then
        (s.deselect computer txhash).modify it request
      else s

def receivedResponse (peer : NodeId) (txhash : TxHash) : Tracker :=
  match (s.findBy (toLex (peer, toLex (false, txhash)))).or
      (s.findBy (toLex (peer, toLex (true, txhash)))) with
  | none => s
  | some it => (s.makeCompleted computer it).1

end Tracker

inductive Call where
  | receivedInv (peer : NodeId) (gtxid : GenTxid) (preferred : Bool) (reqtime : ℤ)
  | requestedTx (peer : NodeId) (txhash : TxHash) (expiry : ℤ)
  | receivedResponse (peer : NodeId) (txhash : TxHash)
  | forgetTxHash (txhash : TxHash)
  | disconnectedPeer (peer : NodeId)
  | getRequestable (peer : NodeId) (now : ℤ)
deriving DecidableEq, Repr

def Tracker.call (computer : PriorityComputer) (s : Tracker) : Call → Tracker
  | .receivedInv peer gtxid preferred reqtime => s.receivedInv peer gtxid preferred reqtime
  | .requestedTx peer txhash expiry => s.requestedTx computer peer txhash expiry
  | .receivedResponse peer txhash => s.receivedResponse computer peer txhash
  | .forgetTxHash txhash => s.forgetTxHash computer txhash
  | .disconnectedPeer peer => s.disconnectedPeer computer peer
  | .getRequestable peer now => (s.getRequestable computer peer now).1

def Tracker.run (computer : PriorityComputer) (calls : List Call) : Tracker :=
  calls.foldl (Tracker.call computer) .empty

end Tarcoin.Net.TxRequest
