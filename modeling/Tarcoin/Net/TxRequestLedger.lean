import Tarcoin.Net.TxRequest

/-! The announcements in the order in which they were made, each a candidate, requested or
completed. -/
namespace Tarcoin.Net.TxRequest

inductive Phase where
  | candidate
  | requested
  | completed
deriving DecidableEq, Repr

/-- What is known of an announcement: the time is that from which a candidate may be requested,
and the expiry of a request. -/
structure Note where
  gtxid : GenTxid
  time : ℤ
  peer : NodeId
  preferred : Bool
  phase : Phase
deriving DecidableEq, Repr

namespace Note

def hash (n : Note) : TxHash := n.gtxid.toUint256

def priority (computer : PriorityComputer) (n : Note) : ℕ := computer n.hash n.peer n.preferred

def About (peer : NodeId) (txhash : TxHash) (n : Note) : Prop := n.peer = peer ∧ n.hash = txhash

instance (peer : NodeId) (txhash : TxHash) (n : Note) : Decidable (n.About peer txhash) :=
  inferInstanceAs (Decidable (_ ∧ _))

def complete (n : Note) : Note := { n with phase := .completed }

def Due (now : ℤ) (n : Note) : Prop := n.phase = .candidate ∧ n.time ≤ now

def Expired (now : ℤ) (n : Note) : Prop := n.phase = .requested ∧ n.time ≤ now

instance (now : ℤ) (n : Note) : Decidable (n.Due now) := inferInstanceAs (Decidable (_ ∧ _))

instance (now : ℤ) (n : Note) : Decidable (n.Expired now) := inferInstanceAs (Decidable (_ ∧ _))

end Note

/-- Forget the hashes of which only completed announcements remain. -/
def purge (notes : List Note) : List Note :=
  notes.filter (fun n => ∃ m ∈ notes, m.hash = n.hash ∧ m.phase ≠ .completed)

def finish (peer : NodeId) (txhash : TxHash) (notes : List Note) : List Note :=
  purge (notes.map (fun n => if n.About peer txhash then n.complete else n))

def expire (now : ℤ) (notes : List Note) : List Note :=
  purge (notes.map (fun n => if n.Expired now then n.complete else n))

def expiredNotes (now : ℤ) (notes : List Note) : List (NodeId × GenTxid) :=
  (notes.filter (fun n => n.Expired now)).map (fun n => (n.peer, n.gtxid))

def withdraw (peer : NodeId) (notes : List Note) : List Note :=
  purge (notes.filter (fun n => n.peer ≠ peer))

/-- One announcement is requested; a request to another peer is given up. -/
def request (peer : NodeId) (txhash : TxHash) (expiry : ℤ) (notes : List Note) : List Note :=
  if ∃ n ∈ notes, n.About peer txhash ∧ n.phase = .candidate then
    notes.map (fun n =>
      if n.About peer txhash then { n with phase := .requested, time := expiry }
      else if n.hash = txhash ∧ n.phase = .requested then n.complete else n)
  else notes

/-- The notes, and how many announcements were taken in. -/
structure Ledger where
  announced : ℕ
  notes : List Note
deriving DecidableEq, Repr

namespace Ledger

def empty : Ledger := ⟨0, []⟩

def announce (l : Ledger) (peer : NodeId) (gtxid : GenTxid) (preferred : Bool) (reqtime : ℤ) :
    Ledger :=
  if ∃ n ∈ l.notes, n.About peer gtxid.toUint256 then l
  else ⟨l.announced + 1, l.notes ++ [⟨gtxid, reqtime, peer, preferred, .candidate⟩]⟩

def call (l : Ledger) : Call → Ledger
  | .receivedInv peer gtxid preferred reqtime => l.announce peer gtxid preferred reqtime
  | .requestedTx peer txhash expiry => { l with notes := request peer txhash expiry l.notes }
  | .receivedResponse peer txhash => { l with notes := finish peer txhash l.notes }
  | .forgetTxHash txhash => { l with notes := l.notes.filter (fun n => n.hash ≠ txhash) }
  | .disconnectedPeer peer => { l with notes := withdraw peer l.notes }
  | .getRequestable _ now => { l with notes := expire now l.notes }

def run (calls : List Call) : Ledger := calls.foldl call empty

/-- The hash may be requested now: no request for it is outstanding. -/
def Free (l : Ledger) (now : ℤ) (txhash : TxHash) : Prop :=
  ∀ n ∈ l.notes, n.hash = txhash → n.phase = .requested → n.time ≤ now

/-- The note has the highest priority among the candidates of its hash whose time has come. -/
def Foremost (l : Ledger) (computer : PriorityComputer) (now : ℤ) (n : Note) : Prop :=
  ∀ m ∈ l.notes, m.hash = n.hash → m.Due now → m.priority computer ≤ n.priority computer

instance (l : Ledger) (now : ℤ) (txhash : TxHash) : Decidable (l.Free now txhash) :=
  inferInstanceAs (Decidable (∀ n ∈ l.notes, _))

instance (l : Ledger) (computer : PriorityComputer) (now : ℤ) (n : Note) :
    Decidable (l.Foremost computer now n) :=
  inferInstanceAs (Decidable (∀ m ∈ l.notes, _))

def requestable (l : Ledger) (computer : PriorityComputer) (peer : NodeId) (now : ℤ) :
    List GenTxid :=
  (l.notes.filter (fun n => n.peer = peer ∧ n.Due now ∧ l.Foremost computer now n ∧
    l.Free now n.hash)).map Note.gtxid

def expired (l : Ledger) (now : ℤ) : List (NodeId × GenTxid) := expiredNotes now l.notes

end Ledger

/-! ## Forgetting in one go or step by step -/

theorem mem_purge {notes : List Note} {n : Note} :
    n ∈ purge notes ↔ n ∈ notes ∧ ∃ m ∈ notes, m.hash = n.hash ∧ m.phase ≠ .completed := by
  simp [purge]

def Alive (notes : List Note) : Prop :=
  ∀ n ∈ notes, ∃ m ∈ notes, m.hash = n.hash ∧ m.phase ≠ .completed

theorem purge_eq_self {notes : List Note} (h : Alive notes) : purge notes = notes :=
  List.filter_eq_self.mpr (fun n hn => decide_eq_true (h n hn))

theorem purge_complete_self {notes : List Note} {p : Note → Prop} [DecidablePred p]
    (halive : Alive notes) (h : ∀ n ∈ notes, ¬ p n) :
    purge (notes.map (fun n => if p n then n.complete else n)) = notes := by
  rw [List.map_congr_left (fun n hn => if_neg (h n hn)), List.map_id', purge_eq_self halive]

theorem finish_forget {notes : List Note} {peer : NodeId} {txhash : TxHash} (halive : Alive notes)
    (h : ∀ n ∈ notes, n.hash = txhash → ¬ n.About peer txhash → n.phase = .completed) :
    finish peer txhash notes = notes.filter (fun n => n.hash ≠ txhash) := by
  let f : Note → Note := fun n => if n.About peer txhash then n.complete else n
  have hhash : ∀ n, (f n).hash = n.hash := by
    intro n
    simp only [f]
    split <;> rfl
  have hother : ∀ n, n.hash ≠ txhash → f n = n := fun n hn => if_neg (fun habout => hn habout.2)
  have hlive : ∀ n ∈ notes, (∃ m ∈ notes.map f, m.hash = (f n).hash ∧ m.phase ≠ .completed) ↔
      n.hash ≠ txhash := by
    intro n hn
    rw [hhash]
    constructor
    · rintro ⟨m, hm, hmn, hopen⟩ hnt
      obtain ⟨o, ho, rfl⟩ := List.mem_map.mp hm
      rw [hhash] at hmn
      by_cases habout : o.About peer txhash
      · exact hopen (by simp [f, habout, Note.complete])
      · exact hopen (by simp [f, habout, h o ho (hmn.trans hnt) habout])
    · intro hnt
      obtain ⟨m, hm, hmn, hopen⟩ := halive n hn
      exact ⟨m, List.mem_map.mpr ⟨m, hm, hother m (hmn ▸ hnt)⟩, hmn, hopen⟩
  show purge (notes.map f) = _
  rw [purge, List.filter_map, Function.comp_def,
    List.filter_congr (fun n hn => decide_eq_decide.mpr (hlive n hn))]
  refine (List.map_congr_left (fun n hn => hother n ?_)).trans (List.map_id _)
  simpa using (List.mem_filter.mp hn).2

/-- A change that keeps the hash and revives nothing commutes with forgetting. -/
structure Settles (change : Note → Option Note) : Prop where
  hash : ∀ {n m}, change n = some m → m.hash = n.hash
  completed : ∀ {n m}, change n = some m → n.phase = .completed → m.phase = .completed

theorem purge_filterMap_purge {change : Note → Option Note} (h : Settles change)
    (notes : List Note) :
    purge ((purge notes).filterMap change) = purge (notes.filterMap change) := by
  -- A survivor after both has a live fellow, and that fellow is not forgotten by the first.
  have hlive : ∀ m : Note, (∃ n ∈ notes.filterMap change, n.hash = m.hash ∧ n.phase ≠ .completed) →
      ∃ n ∈ (purge notes).filterMap change, n.hash = m.hash ∧ n.phase ≠ .completed := by
    intro m hm
    obtain ⟨n, hn, hhash, hphase⟩ := hm
    obtain ⟨o, ho, hchange⟩ := List.mem_filterMap.mp hn
    have hopen : o.phase ≠ .completed := fun hc => hphase (h.completed hchange hc)
    have hkept : o ∈ purge notes := mem_purge.mpr ⟨ho, o, ho, rfl, hopen⟩
    exact ⟨n, List.mem_filterMap.mpr ⟨o, hkept, hchange⟩, hhash, hphase⟩
  have hsame : ∀ m : Note, (∃ n ∈ (purge notes).filterMap change, n.hash = m.hash ∧
      n.phase ≠ .completed) ↔ ∃ n ∈ notes.filterMap change, n.hash = m.hash ∧
      n.phase ≠ .completed := by
    intro m
    refine ⟨?_, hlive m⟩
    intro hm
    obtain ⟨n, hn, hrest⟩ := hm
    obtain ⟨o, ho, hchange⟩ := List.mem_filterMap.mp hn
    exact ⟨n, List.mem_filterMap.mpr ⟨o, (mem_purge.mp ho).1, hchange⟩, hrest⟩
  have hleft : purge ((purge notes).filterMap change) = ((purge notes).filterMap change).filter
      (fun n => ∃ m ∈ notes.filterMap change, m.hash = n.hash ∧ m.phase ≠ .completed) := by
    refine List.filter_congr (fun n _ => ?_)
    rw [decide_eq_decide]
    exact hsame n
  rw [hleft, purge, purge, List.filter_filterMap, List.filter_filterMap, List.filterMap_filter]
  refine List.filterMap_congr (fun n hn => ?_)
  split
  · rfl
  · rename_i hdead
    cases hchange : change n with
    | none => rfl
    | some m =>
      rw [Option.filter_some, if_neg]
      intro hm
      obtain ⟨o, ho, hhash, hphase⟩ := of_decide_eq_true hm
      obtain ⟨o', ho', hchange'⟩ := List.mem_filterMap.mp ho
      refine hdead (decide_eq_true ⟨o', ho', ?_, fun hc => hphase (h.completed hchange' hc)⟩)
      rw [← h.hash hchange', hhash, h.hash hchange]

end Tarcoin.Net.TxRequest
