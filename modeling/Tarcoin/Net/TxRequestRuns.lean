import Tarcoin.Net.TxRequestCalls

/-! Announcing and requesting, and what the tracker answers after any sequence of calls. -/
namespace Tarcoin.Net.TxRequest

open OrderedIndex

variable {computer : PriorityComputer} {s : Tracker} {I J : List Announcement}
  {a b c it : Announcement} {peer : NodeId} {txhash : TxHash}

/-! ## Requesting -/

def giveUp (txhash : TxHash) (n : Note) : Note :=
  if n.hash = txhash ∧ n.phase = .requested then n.complete else n

/-- The announcements after room was made for a request. -/
structure Deselected (computer : PriorityComputer) (s : Tracker) (txhash : TxHash) (t : Tracker) :
    Prop where
  move : Move computer txhash s t
  plain : ∀ a ∈ t.index, a.hash = txhash → a.state ≠ .candidateBest ∧ a.state ≠ .requested
  stays : ∀ a ∈ s.index, a.state ≠ .candidateBest → a.state ≠ .requested → a ∈ t.index
  notes : t.notes = s.notes.map (giveUp txhash)

theorem lowerBound?_selected (hI : Consistent computer s.index) (hc : c ∈ s.index)
    (hch : c.hash = txhash) (hcs : c.state = .candidateBest ∨ c.state = .requested) :
    lowerBound? (byTxHashView computer) s.index
      (toLex (txhash, toLex (State.candidateBest.rank, 0))) = some c := by
  have hrank : 2 ≤ c.state.rank ∧ c.state.rank ≤ 3 := by
    rcases hcs with h | h <;> simp [h]
  have hbound : toLex (txhash, toLex (State.candidateBest.rank, 0)) ≤ byTxHashView computer c :=
    bound_le_view_iff.mpr (.inr ⟨hch.symm, hrank.1⟩)
  cases hfind : lowerBound? (byTxHashView computer) s.index
      (toLex (txhash, toLex (State.candidateBest.rank, 0))) with
  | none => exact absurd hbound (not_le.mpr (lowerBound?_eq_none hfind c hc))
  | some old =>
    obtain ⟨hold, hge, hmin⟩ := lowerBound?_eq_some hfind
    have hle := hmin c hc hbound
    have hhash : old.hash = c.hash :=
      le_antisymm (hash_le_of_view_le hle) (hch ▸ Prod.Lex.monotone_fst _ _ hge)
    have hlow : 2 ≤ old.state.rank := by
      rcases bound_le_view_iff.mp hge with h | ⟨-, h⟩
      · exact absurd (hhash.trans hch).symm h.ne
      · exact h
    have hhigh := rank_le_of_view_le hle hhash
    have hsel : old.state = .candidateBest ∨ old.state = .requested := by
      cases hstate : old.state with
      | candidateDelayed => simp [hstate] at hlow
      | candidateReady => simp [hstate] at hlow
      | candidateBest => exact .inl rfl
      | requested => exact .inr rfl
      | completed =>
        rw [hstate, State.rank_completed] at hhigh
        omega
    rw [hI.eq_of_selected hold hc hhash hsel hcs]

theorem map_giveUp (h : ∀ a ∈ s.index, a.hash = txhash → a.state ≠ .requested) :
    s.notes.map (giveUp txhash) = s.notes := by
  refine (List.map_congr_left (fun n hn => ?_)).trans (List.map_id _)
  obtain ⟨a, ha, rfl⟩ := mem_notes.mp hn
  exact if_neg (fun hn => h a ha hn.1 (State.phase_eq_requested.mp hn.2))

theorem deselected (txhash : TxHash) (hI : Consistent computer s.index) :
    Deselected computer s txhash (s.deselect computer txhash) := by
  by_cases hsel : ∃ c ∈ s.index, c.hash = txhash ∧ (c.state = .candidateBest ∨ c.state = .requested)
  · obtain ⟨c, hc, hch, hcs⟩ := hsel
    have hother := hI.alone hc hch hcs
    rw [Tracker.deselect, lowerBound?_selected hI hc hch hcs]
    simp only [hch, ↓reduceIte]
    have hchange : ∀ st, st ≠ .candidateBest → st ≠ .requested →
        (s.modify c (.setState st)).notes = s.notes.map (giveUp txhash) →
        Deselected computer s txhash (s.modify c (.setState st)) := by
      refine fun st hb hr hnotes => ⟨move_setState hch, fun a ha hah => ?_, fun a ha hab har => ?_, hnotes⟩
      · rcases mem_modify.mp ha with ⟨rfl, -⟩ | ⟨ha, hne⟩
        · exact ⟨hb, hr⟩
        · exact (hother a ha hah hne).symm
      · exact mem_modify.mpr (.inr ⟨ha, by grind⟩)
    rcases hcs with hcs | hcs
    · simp only [hcs]
      refine hchange _ (by simp) (by simp) ?_
      rw [map_giveUp (fun a ha hah => (hI.foremost_of_best hc hcs).1 a ha (hah.trans hch.symm))]
      exact map_modify _ (by simp [Announcement.note, Announcement.setState, hcs, State.phase])
    · simp only [hcs]
      refine hchange _ (by simp) (by simp) ?_
      rw [notes_modify_about hI.unique hc (g := Note.complete) rfl]
      refine List.map_congr_left (fun n hn => ?_)
      obtain ⟨a, ha, rfl⟩ := mem_notes.mp hn
      have habout := about_iff hI.unique hc ha
      by_cases hac : a = c
      · subst hac
        rw [if_pos (habout.mpr rfl), giveUp, if_pos ⟨hch, State.phase_eq_requested.mpr hcs⟩]
      · rw [if_neg (fun h => hac (habout.mp h)), giveUp, if_neg]
        exact fun h => (hother a ha h.1 hac).1 (State.phase_eq_requested.mp h.2)
  · have hplain : ∀ a ∈ s.index, a.hash = txhash → a.state ≠ .candidateBest ∧ a.state ≠ .requested :=
      fun a ha hah => ⟨fun h => hsel ⟨a, ha, hah, .inl h⟩, fun h => hsel ⟨a, ha, hah, .inr h⟩⟩
    have hsame : s.deselect computer txhash = s := by
      rw [Tracker.deselect]
      split
      · rfl
      · rename_i old hold
        split
        · rename_i hhash
          have := hplain old (lowerBound?_eq_some hold).1 hhash
          split
          · exact absurd ‹_› this.1
          · exact absurd ‹_› this.2
          · rfl
        · rfl
    rw [hsame]
    exact ⟨.refl s, hplain, fun a ha _ _ => ha,
      (map_giveUp (fun a ha hah => (hplain a ha hah).2)).symm⟩

variable {t : Tracker} {expiry : ℤ} {notes : List Note} {l : Ledger}

theorem kept_request (hI : Consistent computer s.index)
    (hmove : Move computer it.hash s t)
    (hplain : ∀ a ∈ t.index, a.hash = it.hash → a ≠ it →
      a.state ≠ .candidateBest ∧ a.state ≠ .requested)
    (hnotes : t.notes = s.notes.map (giveUp it.hash)) (hit : it ∈ s.index) (hit' : it ∈ t.index)
    (hcand : it.state.phase = .candidate) :
    Kept computer s (t.modify it (fun ann => { ann with state := .requested, time := expiry }))
      (request it.peer it.hash expiry s.notes) := by
  have hask : Move computer it.hash s
      (t.modify it (fun ann => { ann with state := .requested, time := expiry })) :=
    hmove.trans (move_modify rfl rfl)
  refine ⟨hask.toFewer, ?_, ?_⟩
  · refine hI.move hask
      (.of_requested (mem_modify.mpr (.inl ⟨rfl, hit'⟩)) rfl rfl (fun b hb hbh hne => ?_))
    rcases mem_modify.mp hb with ⟨rfl, -⟩ | ⟨hb, hbi⟩
    · exact absurd rfl hne
    · exact (hplain b hb hbh hbi).symm
  · have hunique : (t.index.map Announcement.slot).Nodup := hI.unique.sublist hmove.slots
    have hexists : ∃ n ∈ s.notes, n.About it.peer it.hash ∧ n.phase = .candidate :=
      ⟨it.note, mem_notes.mpr ⟨it, hit, rfl⟩, ⟨rfl, rfl⟩, hcand⟩
    rw [notes_modify_about hunique hit'
      (g := fun n => { n with phase := .requested, time := expiry }) rfl, hnotes, List.map_map,
      request, if_pos hexists]
    refine List.map_congr_left (fun n hn => ?_)
    obtain ⟨a, ha, rfl⟩ := mem_notes.mp hn
    simp only [Function.comp_apply]
    by_cases habout : a.note.About it.peer it.hash
    · obtain rfl := (about_iff hI.unique hit ha).mp habout
      have hstay : giveUp a.hash a.note = a.note :=
        if_neg (fun h => by simpa [hcand] using (show a.state.phase = .requested from h.2))
      rw [hstay, if_pos habout, if_pos habout]
    · have habout' : ¬ (giveUp it.hash a.note).About it.peer it.hash := by
        unfold giveUp
        split
        · exact habout
        · exact habout
      rw [if_neg habout, if_neg habout']
      rfl

theorem request_eq_self (h : ∀ n ∈ notes, n.About peer txhash → n.phase ≠ .candidate) :
    request peer txhash expiry notes = notes :=
  if_neg (fun hex => by
    obtain ⟨n, hn, habout, hphase⟩ := hex
    exact h n hn habout hphase)

theorem kept_requestedTx (hI : Consistent computer s.index) :
    Kept computer s (s.requestedTx computer peer txhash expiry)
      (request peer txhash expiry s.notes) := by
  rw [Tracker.requestedTx]
  cases hbest : s.findBy (toLex (peer, toLex (true, txhash))) with
  | some it =>
    obtain ⟨hit, rfl, hstate, rfl⟩ := findBy_eq_some hbest
    have hstate : it.state = .candidateBest := of_decide_eq_true hstate
    exact kept_request hI (.refl s)
      (fun a ha hah hne => (hI.alone hit rfl (.inl hstate) a ha hah hne).symm)
      (map_giveUp (hI.foremost_of_best hit hstate).1).symm hit hit (by simp [hstate, State.phase])
  | none =>
    cases hplain : s.findBy (toLex (peer, toLex (false, txhash))) with
    | none =>
      have hnone := findBy_eq_none_none hplain hbest
      exact ⟨.refl s, hI, (request_eq_self (fun n hn habout => absurd habout (hnone n hn))).symm⟩
    | some it =>
      obtain ⟨hit, rfl, -, rfl⟩ := findBy_eq_some hplain
      dsimp only
      split
      · rename_i hstate
        have hD := deselected it.hash hI
        have hcand : it.state.phase = .candidate := by
          rcases hstate with h | h <;> simp [h, State.phase]
        refine kept_request hI hD.move (fun a ha hah _ => hD.plain a ha hah) hD.notes hit
          (hD.stays it hit ?_ ?_) hcand
        · rcases hstate with h | h <;> simp [h]
        · rcases hstate with h | h <;> simp [h]
      · refine ⟨.refl s, hI, (request_eq_self (fun n hn habout hphase => ?_)).symm⟩
        obtain ⟨a, ha, rfl⟩ := mem_notes.mp hn
        obtain rfl := (about_iff hI.unique hit ha).mp habout
        have hnot : a.state ≠ .candidateBest := by simpa using findBy_eq_none hbest hit habout
        have hphase : a.state.phase = .candidate := hphase
        cases hs : a.state <;> simp_all [State.phase]

/-! ## Announcing -/

/-- The tracker agrees with the ledger, and the sequence numbers follow the announcements. -/
structure Follows (computer : PriorityComputer) (s : Tracker) (l : Ledger) : Prop where
  consistent : Consistent computer s.index
  notes : s.notes = l.notes
  order : (s.index.map Announcement.sequence).Pairwise (· < ·)
  below : ∀ a ∈ s.index, a.sequence < l.announced
  sequence : s.currentSequence = l.announced

theorem Follows.kept (h : Follows computer s l) (hkept : Kept computer s t notes) :
    Follows computer t { l with notes } where
  consistent := hkept.consistent
  notes := hkept.notes
  order := by
    have hsub := hkept.stamps.map Prod.snd
    rw [List.map_map, List.map_map] at hsub
    exact h.order.sublist hsub
  below a ha := by
    have hsub := hkept.stamps.subset (List.mem_map_of_mem ha)
    obtain ⟨b, hb, hstamp⟩ := List.mem_map.mp hsub
    have hseq : b.sequence = a.sequence := congrArg Prod.snd hstamp
    exact hseq ▸ h.below b hb
  sequence := hkept.sequence.trans h.sequence

theorem any_byPeerView {best : Bool} :
    s.index.any (fun ann => byPeerView ann = toLex (peer, toLex (best, txhash))) = true ↔
      ∃ a ∈ s.index, a.peer = peer ∧ decide (a.state = .candidateBest) = best ∧ a.hash = txhash := by
  simp [byPeerView_eq_iff]

theorem receivedInv_new (s : Tracker) (peer : NodeId) (gtxid : GenTxid) (preferred : Bool)
    (reqtime : ℤ) (hnew : ∀ a ∈ s.index, a.peer = peer → a.hash ≠ gtxid.toUint256) :
    (s.receivedInv peer gtxid preferred reqtime).index = s.index ++
        [⟨gtxid, reqtime, peer, s.currentSequence % 2 ^ 59, preferred, .candidateDelayed⟩] ∧
      (s.receivedInv peer gtxid preferred reqtime).currentSequence =
        (s.currentSequence + 1) % 2 ^ 64 := by
  have hnone : ∀ best, ¬ s.index.any
      (fun ann => byPeerView ann = toLex (peer, toLex (best, gtxid.toUint256))) = true := by
    intro best hany
    obtain ⟨a, ha, hpeer, -, hhash⟩ := any_byPeerView.mp hany
    exact hnew a ha hpeer hhash
  rw [Tracker.receivedInv]
  rw [if_neg (hnone true), if_neg (hnone false)]
  exact ⟨rfl, rfl⟩

/-- A new delayed candidate does not disturb the order of its hash. -/
theorem Consistent.append (hI : Consistent computer I) (hstate : it.state = .candidateDelayed)
    (hnew : ∀ a ∈ I, a.slot ≠ it.slot)
    (hapart : ∀ a ∈ I, a.hash = it.hash → computer.of a ≠ computer.of it) :
    Consistent computer (I ++ [it]) := by
  have hmem : ∀ a, a ∈ I ++ [it] ↔ a ∈ I ∨ a = it := by simp
  refine ⟨?_, fun a ha b hb hhash hprio => ?_, fun txhash => ?_⟩
  · rw [List.map_append, List.nodup_append]
    refine ⟨hI.unique, by simp, fun x hx y hy => ?_⟩
    obtain ⟨a, ha, rfl⟩ := List.mem_map.mp hx
    obtain rfl : y = it.slot := by simpa using hy
    exact hnew a ha
  · rcases (hmem a).mp ha with haI | rfl
    · rcases (hmem b).mp hb with hbI | rfl
      · exact hI.apart a haI b hbI hhash hprio
      · exact absurd hprio (hapart a haI hhash)
    · rcases (hmem b).mp hb with hbI | rfl
      · exact absurd hprio.symm (hapart b hbI hhash.symm)
      · rfl
  · refine (hI.block txhash).congr (fun a _ ha => ?_) (fun a ha hah => ?_)
    · have hne : a ≠ it := by
        rintro rfl
        simp [hstate] at ha
      simp [hmem, hne]
    · rcases (hmem a).mp ha with haI | rfl
      · obtain ⟨b, hb, hbh, hopen⟩ := (hI.block txhash).alive a haI hah
        exact ⟨b, (hmem b).mpr (.inl hb), hbh, hopen⟩
      · exact ⟨a, ha, hah, by simp [hstate]⟩

theorem Follows.receivedInv {gtxid : GenTxid} {preferred : Bool} {reqtime : ℤ}
    (h : Follows computer s l) (hapart : ∀ a ∈ s.index, a.hash = gtxid.toUint256 →
      computer.of a = computer gtxid.toUint256 peer preferred → a.peer = peer)
    (hfew : (l.announce peer gtxid preferred reqtime).announced ≤ 2 ^ 59) :
    Follows computer (s.receivedInv peer gtxid preferred reqtime)
      (l.announce peer gtxid preferred reqtime) := by
  by_cases hknown : ∃ a ∈ s.index, a.peer = peer ∧ a.hash = gtxid.toUint256
  · have hnote : ∃ n ∈ l.notes, n.About peer gtxid.toUint256 := by
      obtain ⟨a, ha, hpeer, hhash⟩ := hknown
      exact ⟨a.note, h.notes ▸ mem_notes.mpr ⟨a, ha, rfl⟩, hpeer, hhash⟩
    have hsame : s.receivedInv peer gtxid preferred reqtime = s := by
      obtain ⟨a, ha, hpeer, hhash⟩ := hknown
      rw [Tracker.receivedInv]
      split
      · rfl
      · rename_i hbest
        rw [if_pos]
        refine any_byPeerView.mpr ⟨a, ha, hpeer, ?_, hhash⟩
        by_contra hstate
        exact hbest (any_byPeerView.mpr ⟨a, ha, hpeer, by simpa using hstate, hhash⟩)
    rw [hsame, Ledger.announce, if_pos hnote]
    exact h
  · obtain ⟨hindex, hsequence⟩ := receivedInv_new s peer gtxid preferred reqtime
      (fun a ha hpeer hhash => hknown ⟨a, ha, hpeer, hhash⟩)
    have hnote : ¬ ∃ n ∈ l.notes, n.About peer gtxid.toUint256 := by
      rintro ⟨n, hn, habout⟩
      rw [← h.notes] at hn
      obtain ⟨a, ha, rfl⟩ := mem_notes.mp hn
      exact hknown ⟨a, ha, habout⟩
    rw [Ledger.announce, if_neg hnote] at hfew ⊢
    dsimp only at hfew
    have hseq : s.currentSequence % 2 ^ 59 = l.announced := by
      rw [h.sequence]
      exact Nat.mod_eq_of_lt (by omega)
    constructor
    · rw [hindex]
      refine h.consistent.append rfl (fun a ha hslot => ?_) (fun a ha hhash hprio => ?_)
      · exact hknown ⟨a, ha, congrArg Prod.fst hslot, congrArg Prod.snd hslot⟩
      · exact hknown ⟨a, ha, hapart a ha hhash hprio, hhash⟩
    · rw [Tracker.notes, hindex, List.map_append, ← Tracker.notes, h.notes]
      rfl
    · rw [hindex, List.map_append, List.pairwise_append]
      refine ⟨h.order, List.pairwise_singleton _ _, fun x hx y hy => ?_⟩
      obtain ⟨a, ha, rfl⟩ := List.mem_map.mp hx
      rw [List.mem_singleton.mp hy, hseq]
      exact h.below a ha
    · rw [hindex]
      intro a ha
      rcases List.mem_append.mp ha with ha | ha
      · exact (h.below a ha).trans (Nat.lt_succ_self _)
      · rw [List.mem_singleton.mp ha, hseq]
        exact Nat.lt_succ_self _
    · rw [hsequence, h.sequence]
      exact Nat.mod_eq_of_lt (by omega)

end Tarcoin.Net.TxRequest
