import Tarcoin.Net.TxRequestTime

/-! Each call keeps the announcements consistent and changes the notes as the ledger says. -/
namespace Tarcoin.Net.TxRequest

open OrderedIndex

variable {computer : PriorityComputer} {s : Tracker} {I J : List Announcement}
  {a b c it : Announcement} {peer : NodeId} {txhash : TxHash}

/-! ## Forgetting a hash -/

theorem forgetTxHash_index :
    (s.forgetTxHash computer txhash).index = s.index.filter (fun a => a.hash ≠ txhash) := by
  have hsorted : ((view (byTxHashView computer) s.index).dropWhile (fun ann =>
      byTxHashView computer ann < toLex (txhash, toLex (State.candidateDelayed.rank, 0)))).Pairwise
        (fun a b => a.hash ≤ b.hash) :=
    ((view_pairwise (byTxHashView computer) s.index).sublist (List.dropWhile_sublist _)).imp
      (fun h => hash_le_of_view_le h)
  refine eraseWhile_index _ hsorted (fun a ha => ?_) (fun a ha hah => ?_)
  · exact Prod.Lex.monotone_fst _ _ (mem_dropWhile_lt.mp ha).2
  · exact mem_dropWhile_lt.mpr ⟨ha, bound_le_view_iff.mpr (.inr ⟨hah.symm, Nat.zero_le _⟩)⟩

theorem kept_forgetTxHash (hI : Consistent computer s.index) :
    Kept computer s (s.forgetTxHash computer txhash)
      (s.notes.filter (fun n => n.hash ≠ txhash)) where
  toFewer := (move_eraseWhile _ : Move computer txhash _ _).toFewer
  consistent := hI.forget (move_eraseWhile _) forgetTxHash_index
  notes := by
    rw [Tracker.notes, forgetTxHash_index, Tracker.notes, List.filter_map]
    rfl

/-! ## A response -/

variable {notes : List Note} {best : Bool}

theorem byPeerView_eq_iff : byPeerView a = toLex (peer, toLex (best, txhash)) ↔
    a.peer = peer ∧ decide (a.state = .candidateBest) = best ∧ a.hash = txhash := by
  simp [byPeerView, Prod.ext_iff]

theorem findBy_eq_some (h : s.findBy (toLex (peer, toLex (best, txhash))) = some it) :
    it ∈ s.index ∧ it.peer = peer ∧ decide (it.state = .candidateBest) = best ∧ it.hash = txhash :=
  ⟨List.mem_of_find?_eq_some h, byPeerView_eq_iff.mp (by simpa using List.find?_some h)⟩

theorem findBy_eq_none (h : s.findBy (toLex (peer, toLex (best, txhash))) = none)
    (ha : a ∈ s.index) (habout : a.note.About peer txhash) :
    decide (a.state = .candidateBest) ≠ best := by
  intro hbest
  have := List.find?_eq_none.mp h a ha
  simp [byPeerView_eq_iff.mpr ⟨habout.1, hbest, habout.2⟩] at this

theorem findBy_eq_none_none (hplain : s.findBy (toLex (peer, toLex (false, txhash))) = none)
    (hbest : s.findBy (toLex (peer, toLex (true, txhash))) = none) :
    ∀ n ∈ s.notes, ¬ n.About peer txhash := by
  intro n hn habout
  obtain ⟨a, ha, rfl⟩ := mem_notes.mp hn
  have hnot := findBy_eq_none hbest ha habout
  exact findBy_eq_none hplain ha habout (by simpa using hnot)

theorem kept_receivedResponse (hI : Consistent computer s.index) :
    Kept computer s (s.receivedResponse computer peer txhash) (finish peer txhash s.notes) := by
  rw [Tracker.receivedResponse]
  cases hfind : (s.findBy (toLex (peer, toLex (false, txhash)))).or
      (s.findBy (toLex (peer, toLex (true, txhash)))) with
  | none =>
    obtain ⟨hplain, hbest⟩ := Option.or_eq_none_iff.mp hfind
    have hnone := findBy_eq_none_none hplain hbest
    exact ⟨.refl s, hI, (purge_complete_self hI.alive_notes hnone).symm⟩
  | some it =>
    have hfound : it ∈ s.index ∧ it.peer = peer ∧ it.hash = txhash := by
      rcases Option.or_eq_some_iff.mp hfind with h | ⟨-, h⟩ <;>
        exact (findBy_eq_some h).imp_right (fun h => ⟨h.1, h.2.2⟩)
    obtain ⟨hit, rfl, rfl⟩ := hfound
    exact (completed_makeCompleted hI hit).toKept

/-! ## A peer that goes -/

theorem settles_withdraw (peer : NodeId) :
    Settles (Option.guard (fun n : Note => n.peer ≠ peer)) where
  hash h := by
    obtain ⟨rfl, -⟩ := Option.guard_eq_some_iff.mp h
    rfl
  completed h hc := by
    obtain ⟨rfl, -⟩ := Option.guard_eq_some_iff.mp h
    exact hc

theorem withdraw_finish (notes : List Note) :
    withdraw peer (finish peer txhash notes) = withdraw peer notes := by
  have hpurge := purge_filterMap_purge (settles_withdraw peer)
    (notes.map (fun n => if n.About peer txhash then n.complete else n))
  rw [List.filterMap_eq_filter] at hpurge
  rw [withdraw, finish, hpurge, withdraw, List.filter_map]
  have hpeer : ∀ n : Note, (if n.About peer txhash then n.complete else n).peer = n.peer := by
    intro n
    split <;> rfl
  have hkeep : notes.filter ((fun n : Note => decide (n.peer ≠ peer)) ∘
      fun n => if n.About peer txhash then n.complete else n) =
        notes.filter (fun n => n.peer ≠ peer) :=
    List.filter_congr (fun n _ => by simp only [Function.comp_apply, hpeer])
  have hother : ∀ n ∈ notes.filter (fun n => n.peer ≠ peer),
      (if n.About peer txhash then n.complete else n) = n := by
    intro n hn
    refine if_neg (fun habout => ?_)
    simpa [habout.1] using (List.mem_filter.mp hn).2
  rw [hkeep, List.map_congr_left hother, List.map_id']

theorem withdraw_filter (notes : List Note) :
    withdraw peer (notes.filter (fun n => ¬ n.About peer txhash)) = withdraw peer notes := by
  rw [withdraw, List.filter_filter]
  congr 1
  refine List.filter_congr (fun n _ => ?_)
  by_cases hn : n.peer = peer
  · simp [hn]
  · simp [hn, Note.About]

theorem peer_le_of_view_le (h : byPeerView a ≤ byPeerView b) : a.peer ≤ b.peer :=
  Prod.Lex.monotone_fst _ _ h

theorem Consistent.eq_of_byPeerView (hI : Consistent computer I) (ha : a ∈ I) (hb : b ∈ I)
    (h : byPeerView a = byPeerView b) : a = b := by
  have hkey := byPeerView_eq_iff.mp (h : byPeerView a = toLex (b.peer, toLex (_, b.hash)))
  exact hI.eq_of_slot ha hb hkey.1 hkey.2.2

/-- The iterator stands at the first announcement of the peer, or past all of them. -/
def AtPeer (peer : NodeId) (I : List Announcement) : Option Announcement → Prop
  | none => ∀ a ∈ I, a.peer ≠ peer
  | some it => it ∈ I ∧ (it.peer ≠ peer → ∀ a ∈ I, a.peer ≠ peer) ∧
      ∀ a ∈ I, a.peer = peer → byPeerView it ≤ byPeerView a

theorem next_of_peer (hI : Consistent computer I) (hit : it ∈ I) (hpeer : it.peer = peer)
    (hmin : ∀ a ∈ I, a.peer = peer → byPeerView it ≤ byPeerView a) (ha : a ∈ I)
    (hap : a.peer = peer) (hne : a ≠ it) :
    ∃ n, (after? byPeerView I it).filter (fun ann => ann.peer = peer) = some n ∧
      byPeerView n ≤ byPeerView a := by
  rcases neighbour byPeerView hit ha hne with ⟨b, -, hab, hbit⟩ | ⟨b, hb, hitb, hba⟩
  · have := le_antisymm (hab.trans hbit) (hmin a ha hap)
    exact absurd (hI.eq_of_byPeerView ha hit this) hne
  · have hbp : b.peer = peer :=
      le_antisymm (hap ▸ peer_le_of_view_le hba) (hpeer ▸ peer_le_of_view_le hitb)
    exact ⟨b, by simp [hb, hbp], hba⟩

/-- One turn of the loop: the announcement is completed and taken out. -/
structure Dropped (computer : PriorityComputer) (s : Tracker) (it : Announcement) (t : Tracker) :
    Prop extends Fewer s t where
  consistent : Consistent computer t.index
  notes : withdraw it.peer t.notes = withdraw it.peer s.notes
  mem : ∀ a, a.peer = it.peer → (a ∈ t.index ↔ a ∈ s.index ∧ a ≠ it)

variable (hI : Consistent computer s.index)
include hI

/-- A completed announcement may go, since one that is open remains. -/
theorem Consistent.erase_completed (hstate : it.state = .completed) :
    Consistent computer (s.erase it).index := by
  refine hI.move move_erase ((hI.block it.hash).congr (fun a _ ha => ?_) (fun a ha hah => ?_))
  · have hne : a ≠ it := by
      rintro rfl
      simp [hstate] at ha
    simp [mem_erase, hne]
  · obtain ⟨b, hb, hbh, hopen⟩ := (hI.block it.hash).alive a (mem_erase.mp ha).1 hah
    exact ⟨b, mem_erase.mpr ⟨hb, fun h => hopen (h ▸ hstate)⟩, hbh, hopen⟩

theorem notes_erase (hit : it ∈ s.index) :
    (s.erase it).notes = s.notes.filter (fun n => ¬ n.About it.peer it.hash) := by
  rw [Tracker.notes, Tracker.notes, List.filter_map]
  congr 1
  refine List.filter_congr (fun a ha => ?_)
  simp [about_iff hI.unique hit ha]

theorem dropped (hit : it ∈ s.index) :
    Dropped computer s it (if (s.makeCompleted computer it).2 then
      (s.makeCompleted computer it).1.erase (it.setState .completed)
    else (s.makeCompleted computer it).1) := by
  have hC := completed_makeCompleted hI hit
  have hfinish : withdraw it.peer (s.makeCompleted computer it).1.notes = withdraw it.peer s.notes := by
    rw [hC.notes, withdraw_finish]
  -- The other announcements of the peer are about other hashes.
  have hother : ∀ a ∈ s.index, a.peer = it.peer → a ≠ it → a.hash ≠ it.hash :=
    fun a ha hpeer hne hhash => hne (hI.eq_of_slot ha hit hpeer hhash)
  split
  · rename_i hkept
    have hit' := hC.kept hkept
    have herase : Move computer (it.setState .completed).hash (s.makeCompleted computer it).1 _ :=
      move_erase
    refine ⟨hC.toFewer.trans herase.toFewer, hC.consistent.erase_completed rfl, ?_, fun a hpeer => ?_⟩
    · rw [notes_erase hC.consistent hit', Announcement.setState_peer, withdraw_filter, hfinish]
    · rw [mem_erase]
      constructor
      · intro ha
        have hhash : a.hash ≠ it.hash :=
          fun hhash => ha.2 (hC.consistent.eq_of_slot ha.1 hit' hpeer hhash)
        exact ⟨(hC.frame a hhash).mp ha.1, fun h => hhash (h ▸ rfl)⟩
      · intro ha
        have hhash := hother a ha.1 hpeer ha.2
        exact ⟨(hC.frame a hhash).mpr ha.1, fun h => hhash (h ▸ rfl)⟩
  · rename_i hkept
    have hgone := hC.forgotten (Bool.eq_false_iff.mpr hkept)
    refine ⟨hC.toFewer, hC.consistent, hfinish, fun a hpeer => ?_⟩
    constructor
    · intro ha
      exact ⟨(hC.frame a (hgone a ha)).mp ha, fun h => hgone a ha (h ▸ rfl)⟩
    · intro ha
      exact (hC.frame a (hother a ha.1 hpeer ha.2)).mpr ha.1

theorem deref_eq_some (ha : a ∈ s.index) : s.deref a = some a := by
  rw [Tracker.deref]
  cases hfind : s.index.find? (fun ann => ann.peer = a.peer ∧ ann.hash = a.hash) with
  | none => simpa using List.find?_eq_none.mp hfind a ha
  | some b =>
    have hb : b.peer = a.peer ∧ b.hash = a.hash := by simpa using List.find?_some hfind
    rw [hI.eq_of_slot (List.mem_of_find?_eq_some hfind) ha hb.1 hb.2]

theorem kept_withdraw_stop (h : ∀ a ∈ s.index, a.peer ≠ peer) :
    Kept computer s s (withdraw peer s.notes) := by
  have hothers : ∀ n ∈ s.notes, decide (n.peer ≠ peer) = true := by
    intro n hn
    obtain ⟨a, ha, rfl⟩ := mem_notes.mp hn
    exact decide_eq_true (h a ha)
  refine ⟨.refl s, hI, ?_⟩
  rw [withdraw, List.filter_eq_self.mpr hothers, purge_eq_self hI.alive_notes]

theorem atPeer_next {t : Tracker} (hit : it ∈ s.index) (hpeer : it.peer = peer)
    (hmin : ∀ a ∈ s.index, a.peer = peer → byPeerView it ≤ byPeerView a)
    (hdrop : Dropped computer s it t) :
    AtPeer peer t.index
      (((after? byPeerView s.index it).filter (fun ann => ann.peer = peer)).bind t.deref) := by
  have hnext : ∀ a ∈ t.index, a.peer = peer → ∃ n, (after? byPeerView s.index it).filter
      (fun ann => ann.peer = peer) = some n ∧ byPeerView n ≤ byPeerView a := by
    intro a ha hap
    obtain ⟨haI, hne⟩ := (hdrop.mem a (hap.trans hpeer.symm)).mp ha
    exact next_of_peer hI hit hpeer hmin haI hap hne
  cases hfilter : (after? byPeerView s.index it).filter (fun ann => ann.peer = peer) with
  | none =>
    intro a ha hap
    obtain ⟨n, hn, -⟩ := hnext a ha hap
    rw [hfilter] at hn
    cases hn
  | some n =>
    obtain ⟨hn, hnp⟩ := Option.filter_eq_some_iff.mp hfilter
    have hnp : n.peer = peer := of_decide_eq_true hnp
    obtain ⟨hnI, hne, -⟩ := after?_eq_some hit hI.nodup hn
    have hnt : n ∈ t.index := (hdrop.mem n (hnp.trans hpeer.symm)).mpr ⟨hnI, hne⟩
    rw [Option.bind_some, deref_eq_some hdrop.consistent hnt]
    refine ⟨hnt, fun h => absurd hnp h, fun a ha hap => ?_⟩
    obtain ⟨n', hn', hle⟩ := hnext a ha hap
    obtain rfl : n = n' := Option.some.inj (hfilter.symm.trans hn')
    exact hle

theorem kept_disconnectFrom (fuel : ℕ) (it? : Option Announcement) (hat : AtPeer peer s.index it?)
    (hfuel : (s.index.filter (fun a => a.peer = peer)).length ≤ fuel) :
    Kept computer s (Tracker.disconnectFrom computer peer fuel s it?) (withdraw peer s.notes) := by
  induction fuel generalizing s it? with
  | zero =>
    refine kept_withdraw_stop hI (fun a ha hpeer => ?_)
    have hnil := List.eq_nil_of_length_eq_zero (Nat.le_zero.mp hfuel)
    exact List.filter_eq_nil_iff.mp hnil a ha (by simpa using hpeer)
  | succ fuel ih =>
    cases it? with
    | none => exact kept_withdraw_stop hI hat
    | some it =>
      obtain ⟨hit, hpast, hmin⟩ := hat
      rw [Tracker.disconnectFrom]
      split
      · rename_i hpeer
        have hdrop := dropped hI hit
        have hlt := filter_lt_of_gone (p := fun a => decide (a.peer = peer)) hI hdrop.consistent hit
          (by simpa using hpeer)
          (fun a ha hap => (hdrop.mem a ((of_decide_eq_true hap).trans hpeer.symm)).mp ha)
        have hr := ih hdrop.consistent _ (atPeer_next hI hit hpeer hmin hdrop) (by omega)
        have hnotes := hdrop.notes
        rw [hpeer] at hnotes
        exact ⟨hdrop.toFewer.trans hr.toFewer, hr.consistent, hr.notes.trans hnotes⟩
      · rename_i hpeer
        exact kept_withdraw_stop hI (hpast hpeer)

theorem kept_disconnectedPeer :
    Kept computer s (s.disconnectedPeer computer peer) (withdraw peer s.notes) := by
  have hbound : ∀ a : Announcement, toLex (peer, toLex (false, 0)) ≤ byPeerView a ↔
      peer ≤ a.peer := by
    refine fun a => ⟨Prod.Lex.monotone_fst _ _, fun h => Prod.Lex.toLex_le_toLex.mpr ?_⟩
    rcases h.lt_or_eq with h | h
    · exact .inl h
    · refine .inr ⟨h, Prod.Lex.toLex_le_toLex.mpr ?_⟩
      cases decide (a.state = .candidateBest) <;> simp
  refine kept_disconnectFrom hI _ _ ?_ (List.length_filter_le _ _)
  cases hfind : lowerBound? byPeerView s.index (toLex (peer, toLex (false, 0))) with
  | none =>
    intro a ha hap
    exact absurd ((hbound a).mpr hap.ge) (not_le.mpr (lowerBound?_eq_none hfind a ha))
  | some it =>
    obtain ⟨hit, hge, hmin⟩ := lowerBound?_eq_some hfind
    have hmin' : ∀ a ∈ s.index, a.peer = peer → byPeerView it ≤ byPeerView a :=
      fun a ha hap => hmin a ha ((hbound a).mpr hap.ge)
    refine ⟨hit, fun hne a ha hap => hne ?_, hmin'⟩
    exact le_antisymm (hap ▸ peer_le_of_view_le (hmin' a ha hap)) ((hbound it).mp hge)

end Tarcoin.Net.TxRequest
