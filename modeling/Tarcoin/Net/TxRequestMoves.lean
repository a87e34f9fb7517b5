import Tarcoin.Net.TxRequestInvariant

/-! Readying a delayed candidate, reselecting, completing and forgetting keep the announcements
consistent. -/
namespace Tarcoin.Net.TxRequest

open OrderedIndex

variable {computer : PriorityComputer} {s t u : Tracker} {I J : List Announcement}
  {a b c it : Announcement} {txhash : TxHash}

def State.phase : State → Phase
  | .candidateDelayed => .candidate
  | .candidateReady => .candidate
  | .candidateBest => .candidate
  | .requested => .requested
  | .completed => .completed

def Announcement.note (a : Announcement) : Note :=
  ⟨a.gtxid, a.time, a.peer, a.preferred, a.state.phase⟩

/-- What the announcements say, without the order among the candidates. -/
def Tracker.notes (s : Tracker) : List Note := s.index.map Announcement.note

/-! ## Changes within one hash -/

variable {f : Announcement → Announcement} {st newState : State}

theorem mem_modify :
    a ∈ (s.modify it f).index ↔ (a = f it ∧ it ∈ s.index) ∨ (a ∈ s.index ∧ a ≠ it) := by
  simp only [Tracker.modify, List.mem_map]
  constructor
  · intro h
    obtain ⟨b, hb, rfl⟩ := h
    by_cases hbi : b = it
    · simp [hbi, hbi ▸ hb]
    · simp [hbi, hb]
  · intro h
    rcases h with ⟨rfl, hit⟩ | ⟨ha, hne⟩
    · exact ⟨it, hit, by simp⟩
    · exact ⟨a, ha, by simp [hne]⟩

theorem mem_erase : a ∈ (s.erase it).index ↔ a ∈ s.index ∧ a ≠ it := by
  simp [Tracker.erase]

/-- No announcement comes in, and no sequence number is given out. -/
structure Fewer (s t : Tracker) : Prop where
  stamps : (t.index.map Announcement.stamp).Sublist (s.index.map Announcement.stamp)
  sequence : t.currentSequence = s.currentSequence

theorem Fewer.refl (s : Tracker) : Fewer s s := ⟨List.Sublist.refl _, rfl⟩

theorem Fewer.trans (h : Fewer s t) (h' : Fewer t u) : Fewer s u :=
  ⟨h'.stamps.trans h.stamps, h'.sequence.trans h.sequence⟩

theorem Fewer.slots (h : Fewer s t) :
    (t.index.map Announcement.slot).Sublist (s.index.map Announcement.slot) := by
  have hslots := h.stamps.map Prod.fst
  rw [List.map_map, List.map_map] at hslots
  exact hslots

/-- The announcements of one hash change their states or go; who announced what stays. -/
structure Move (computer : PriorityComputer) (txhash : TxHash) (s t : Tracker) : Prop
    extends Fewer s t where
  origin : ∀ a ∈ t.index, ∃ b ∈ s.index, a.slot = b.slot ∧ computer.of a = computer.of b
  frame : ∀ a, a.hash ≠ txhash → (a ∈ t.index ↔ a ∈ s.index)

theorem Move.refl (s : Tracker) : Move computer txhash s s :=
  ⟨.refl s, fun a ha => ⟨a, ha, rfl, rfl⟩, fun _ _ => Iff.rfl⟩

theorem Move.trans (h : Move computer txhash s t)
    (h' : Move computer txhash t u) : Move computer txhash s u where
  toFewer := h.toFewer.trans h'.toFewer
  origin a ha := by
    obtain ⟨b, hb, hslot, hprio⟩ := h'.origin a ha
    obtain ⟨c, hc, hslot', hprio'⟩ := h.origin b hb
    exact ⟨c, hc, hslot.trans hslot', hprio.trans hprio'⟩
  frame a ha := (h'.frame a ha).trans (h.frame a ha)

/-- The states change within their phases, so that the notes stay. -/
structure Shuffle (computer : PriorityComputer) (txhash : TxHash) (s t : Tracker) : Prop
    extends Move computer txhash s t where
  notes : t.notes = s.notes

theorem Shuffle.refl (s : Tracker) : Shuffle computer txhash s s := ⟨.refl s, rfl⟩

theorem Shuffle.trans (h : Shuffle computer txhash s t) (h' : Shuffle computer txhash t u) :
    Shuffle computer txhash s u :=
  ⟨h.toMove.trans h'.toMove, h'.notes.trans h.notes⟩

theorem map_modify {β : Type} (g : Announcement → β) (h : g (f it) = g it) :
    (s.modify it f).index.map g = s.index.map g := by
  simp only [Tracker.modify, List.map_map]
  refine List.map_congr_left (fun a _ => ?_)
  by_cases hai : a = it
  · simp [hai, h]
  · simp [hai]

theorem move_modify (hstamp : (f it).stamp = it.stamp)
    (hprio : computer.of (f it) = computer.of it) :
    Move computer it.hash s (s.modify it f) where
  stamps := by rw [map_modify _ hstamp]
  sequence := rfl
  origin a ha := by
    rcases mem_modify.mp ha with ⟨rfl, hit⟩ | ⟨ha, -⟩
    · exact ⟨it, hit, congrArg Prod.fst hstamp, hprio⟩
    · exact ⟨a, ha, rfl, rfl⟩
  frame a ha := by
    have hne : a ≠ it := fun h => ha (h ▸ rfl)
    have hne' : a ≠ f it := fun h => ha (h ▸ congrArg (fun x => x.1.2) hstamp)
    simp [mem_modify, hne, hne']

theorem move_setState (hhash : it.hash = txhash) :
    Move computer txhash s (s.modify it (.setState st)) :=
  hhash ▸ move_modify rfl rfl

theorem shuffle_setState (hhash : it.hash = txhash) (hphase : st.phase = it.state.phase) :
    Shuffle computer txhash s (s.modify it (.setState st)) :=
  ⟨move_setState hhash, map_modify _ (by simp [Announcement.note, Announcement.setState, hphase])⟩

theorem move_erase : Move computer it.hash s (s.erase it) where
  stamps := List.filter_sublist.map _
  sequence := rfl
  origin a ha := ⟨a, (mem_erase.mp ha).1, rfl, rfl⟩
  frame a ha := by
    have hne : a ≠ it := fun h => ha (h ▸ rfl)
    simp [mem_erase, hne]

theorem move_eraseWhile (l : List Announcement) :
    Move computer txhash s (Tracker.eraseWhile txhash s l) := by
  induction l generalizing s with
  | nil => exact .refl s
  | cons it rest ih =>
    rw [Tracker.eraseWhile]
    split
    · rename_i hhash
      exact (hhash ▸ move_erase : Move computer txhash s (s.erase it)).trans ih
    · exact .refl s

theorem Consistent.move (hI : Consistent computer s.index) (h : Move computer txhash s t)
    (hblock : Block computer t.index txhash) : Consistent computer t.index where
  unique := hI.unique.sublist h.slots
  apart a ha b hb hhash hprio := by
    obtain ⟨a', ha', hslot, hprio'⟩ := h.origin a ha
    obtain ⟨b', hb', hslot', hprio''⟩ := h.origin b hb
    obtain ⟨hpa, hha⟩ := Prod.ext_iff.mp hslot
    obtain ⟨hpb, hhb⟩ := Prod.ext_iff.mp hslot'
    have := hI.apart a' ha' b' hb' (hha.symm.trans (hhash.trans hhb))
      (hprio'.symm.trans (hprio.trans hprio''))
    exact hpa.trans (this.trans hpb.symm)
  block other := by
    by_cases hother : other = txhash
    · exact hother ▸ hblock
    · refine (hI.block other).congr (fun a ha _ => h.frame a (ha ▸ hother)) (fun a ha hah => ?_)
      obtain ⟨b, hb, hbh, hopen⟩ :=
        (hI.block other).alive a ((h.frame a (hah ▸ hother)).mp ha) hah
      exact ⟨b, (h.frame b (hbh ▸ hother)).mpr hb, hbh, hopen⟩

/-! ## Readying a candidate -/

/-- The three outcomes: the candidate is best where nothing is selected, it stays behind a
selected announcement, or it takes the place of the best candidate. -/
inductive Promoted (computer : PriorityComputer) (I J : List Announcement) (it : Announcement) :
    Prop where
  | alone (hnone : ∀ b ∈ I, b.hash = it.hash → ¬ (b.state = .candidateBest ∨ b.state = .requested))
      (hmem : ∀ a, a ∈ J ↔ a = it.setState .candidateBest ∨ a ∈ I ∧ a ≠ it)
  | behind (b : Announcement) (hb : b ∈ I) (hhash : b.hash = it.hash)
      (hstate : b.state = .requested ∨ b.state = .candidateBest ∧ computer.of it < computer.of b)
      (hmem : ∀ a, a ∈ J ↔ a = it.setState .candidateReady ∨ a ∈ I ∧ a ≠ it)
  | ahead (b : Announcement) (hb : b ∈ I) (hhash : b.hash = it.hash) (hbest : b.state = .candidateBest)
      (hprio : computer.of b < computer.of it)
      (hmem : ∀ a, a ∈ J ↔ a = it.setState .candidateBest ∨ a = b.setState .candidateReady ∨
        a ∈ I ∧ a ≠ it ∧ a ≠ b)

theorem Promoted.block (hI : Consistent computer I)
    (hstate : it.state = .candidateDelayed) (h : Promoted computer I J it) :
    Block computer J it.hash := by
  cases h with
  | alone hnone hmem =>
    have hrest := (hI.leads it.hash).resolve_left (by grind) |>.resolve_left (by grind)
    refine .of_best ((hmem _).mpr (.inl rfl)) rfl rfl (fun c hc hch hne => ?_)
    grind
  | behind b hb hhash hbs hmem =>
    have hbJ : b ∈ J := (hmem b).mpr (.inr ⟨hb, by grind⟩)
    have hother := hI.alone hb hhash (by grind)
    rcases hbs with hbs | ⟨hbs, hlt⟩
    · refine .of_requested hbJ hhash hbs (fun c hc hch hne => ?_)
      grind [Announcement.setState_state]
    · refine .of_best hbJ hhash hbs (fun c hc hch hne => ?_)
      rcases (hmem c).mp hc with rfl | ⟨hc, -⟩
      · exact ⟨by simp, by simp, fun _ => hlt⟩
      · exact ⟨(hother c hc hch hne).1, (hother c hc hch hne).2,
          hI.lt_of_best hb hbs hc (hch.trans hhash.symm)⟩
  | ahead b hb hhash hbest hprio hmem =>
    refine .of_best ((hmem _).mpr (.inl rfl)) rfl rfl (fun c hc hch hne => ?_)
    rcases (hmem c).mp hc with rfl | rfl | ⟨hc, hci, hcb⟩
    · exact absurd rfl hne
    · exact ⟨by simp, by simp, fun _ => hprio⟩
    · obtain ⟨hnr, hnb⟩ := hI.alone hb hhash (.inl hbest) c hc hch hcb
      exact ⟨hnr, hnb, fun hready =>
        (hI.lt_of_best hb hbest hc (hch.trans hhash.symm) hready).trans hprio⟩

/-- If an announcement of the hash is selected, the right neighbour of a candidate that is
ready now is of the hash and not completed. -/
theorem next_of_selected (computer : PriorityComputer) (hit : it ∈ s.index)
    (hstate : it.state = .candidateDelayed) (hb : b ∈ s.index) (hhash : b.hash = it.hash)
    (hbs : b.state = .candidateBest ∨ b.state = .requested) :
    ∃ next, after? (byTxHashView computer) (s.modify it (.setState .candidateReady)).index
        (it.setState .candidateReady) = some next ∧ next.hash = it.hash ∧
      next.state ≠ .completed := by
  have hmem : it.setState .candidateReady ∈ (s.modify it (.setState .candidateReady)).index :=
    mem_modify.mpr (.inl ⟨rfl, hit⟩)
  have hbmem : b ∈ (s.modify it (.setState .candidateReady)).index :=
    mem_modify.mpr (.inr ⟨hb, by grind⟩)
  have hrank : 2 ≤ b.state.rank ∧ b.state.rank ≤ 3 := by
    rcases hbs with h | h <;> simp [h]
  rcases neighbour (byTxHashView computer) hmem hbmem (by grind [Announcement.setState_state])
    with ⟨c, -, hbc, hcit⟩ | ⟨c, hc, hitc, hcb⟩
  · have := (between hbc hcit hhash).2
    simp only [Announcement.setState_state, State.rank_candidateReady] at this
    omega
  · obtain ⟨hch, -, hcr⟩ := between hitc hcb hhash.symm
    refine ⟨c, hc, hch.trans hhash, fun hdone => ?_⟩
    rw [hdone, State.rank_completed] at hcr
    omega

theorem promoted (hI : Consistent computer s.index) (hit : it ∈ s.index)
    (hstate : it.state = .candidateDelayed) :
    Promoted computer s.index (s.promoteCandidateReady computer it).index it := by
  set it₁ := it.setState .candidateReady with hit₁
  set s₁ := s.modify it (.setState .candidateReady) with hs₁
  have hfresh : it₁ ∉ s.index := fun h =>
    Announcement.setState_ne (by simp [hstate]) (hI.eq_of_slot h hit rfl rfl)
  have hmem₁ : ∀ a, a ∈ s₁.index ↔ a = it₁ ∨ a ∈ s.index ∧ a ≠ it := by
    simp [hs₁, mem_modify, hit, hit₁]
  have hbest : ∀ a, a ∈ (s₁.modify it₁ (.setState .candidateBest)).index ↔
      a = it.setState .candidateBest ∨ a ∈ s.index ∧ a ≠ it := by
    intro a
    rw [mem_modify, hmem₁]
    grind [Announcement.setState_setState]
  have hmove : Move computer it.hash s s₁ := move_setState rfl
  have hnodup : s₁.index.Nodup := (hI.unique.sublist hmove.slots).of_map
  -- Where an announcement is selected, the right neighbour is of the hash and not completed.
  have halone : (∀ next, after? (byTxHashView computer) s₁.index it₁ = some next →
      next.hash ≠ it.hash ∨ next.state = .completed) →
      Promoted computer s.index (s₁.modify it₁ (.setState .candidateBest)).index it := by
    refine fun hnext => .alone (fun b hb hbh hbs => ?_) hbest
    obtain ⟨next, hafter, hnh, hnd⟩ := next_of_selected computer hit hstate hb hbh hbs
    exact (hnext next hafter).elim (fun h => h hnh) hnd
  rw [Tracker.promoteCandidateReady]
  cases hnext : after? (byTxHashView computer) s₁.index it₁ with
  | none => exact halone (by simp [hnext])
  | some next =>
    dsimp only
    split
    · exact halone (by simpa [hnext])
    · rename_i hcond
      push Not at hcond
      obtain ⟨hnh, hnd⟩ := hcond
      obtain ⟨hnmem, hne, hle⟩ := after?_eq_some ((hmem₁ it₁).mpr (.inl rfl)) hnodup hnext
      obtain ⟨hnI, -⟩ := ((hmem₁ next).mp hnmem).resolve_left hne
      have hrank : 1 ≤ next.state.rank := rank_le_of_view_le hle hnh.symm
      have hprio : computer.of it ≠ computer.of next := by
        intro h
        have := hI.eq_of_priority hit hnI hnh.symm h
        simp [← this, hstate] at hrank
      split
      · rename_i hahead
        refine .ahead next hnI hnh hahead.1 hahead.2 (fun a => ?_)
        have hapart : next.setState .candidateReady ≠ it₁ := by
          intro h
          have hpeer : (next.setState .candidateReady).peer = it₁.peer := congrArg _ h
          simp [hI.eq_of_slot hnI hit hpeer hnh, hstate] at hahead
        have hmem₂ : ∀ a, a ∈ (s₁.modify next (.setState .candidateReady)).index ↔
            a = next.setState .candidateReady ∨ (a = it₁ ∨ a ∈ s.index ∧ a ≠ it) ∧ a ≠ next := by
          intro a
          rw [mem_modify, hmem₁ a]
          simp only [hnmem, and_true]
        rw [mem_modify, hmem₂]
        grind [Announcement.setState_setState]
      · rename_i hahead
        -- The neighbour is ready, best or requested; a selected one beats it if it is ready.
        cases hns : next.state with
        | candidateDelayed => simp [hns] at hrank
        | candidateReady =>
          have hle' : computer.of it₁ ≤ computer.of next :=
            priority_le_of_view_le hle hnh.symm rfl hns
          have hlt : computer.of it < computer.of next := lt_of_le_of_ne hle' hprio
          obtain ⟨c, hc, hch, hcs⟩ := hI.exists_selected hnI hns
          refine .behind c hc (hch.trans hnh) ?_ hmem₁
          exact hcs.imp_right (fun h => ⟨h.1, hlt.trans h.2⟩)
        | candidateBest =>
          have hle : computer.of it ≤ computer.of next :=
            not_lt.mp (fun h => hahead ⟨hns, h⟩)
          exact .behind next hnI hnh (.inr ⟨hns, lt_of_le_of_ne hle hprio⟩) hmem₁
        | requested => exact .behind next hnI hnh (.inl hns) hmem₁
        | completed => exact absurd hns hnd

theorem shuffle_promote (hstate : it.state = .candidateDelayed) :
    Shuffle computer it.hash s (s.promoteCandidateReady computer it) := by
  have hready : Shuffle computer it.hash s (s.modify it (.setState .candidateReady)) :=
    shuffle_setState rfl (by rw [hstate]; rfl)
  have hbest : ∀ t : Tracker, Shuffle computer it.hash t
      (t.modify (it.setState .candidateReady) (.setState .candidateBest)) :=
    fun t => shuffle_setState rfl rfl
  rw [Tracker.promoteCandidateReady]
  split
  · exact hready.trans (hbest _)
  · split
    · exact hready.trans (hbest _)
    · rename_i next _ hsame
      push Not at hsame
      split
      · rename_i hahead
        have hstep : ∀ t : Tracker, Shuffle computer it.hash t
            (t.modify next (.setState .candidateReady)) :=
          fun t => shuffle_setState hsame.1 (by rw [hahead.1]; rfl)
        exact (hready.trans (hstep _)).trans (hbest _)
      · exact hready

theorem Consistent.promote (hI : Consistent computer s.index) (hit : it ∈ s.index)
    (hstate : it.state = .candidateDelayed) :
    Consistent computer (s.promoteCandidateReady computer it).index :=
  hI.move (shuffle_promote hstate).toMove ((promoted hI hit hstate).block hI hstate)

/-! ## Reselecting -/

/-- An announcement is given up; the first of the candidates that are ready follows it if it was
selected. -/
inductive Reselected (computer : PriorityComputer) (I J : List Announcement) (it : Announcement)
    (newState : State) : Prop where
  | follow (b : Announcement) (hb : b ∈ I) (hhash : b.hash = it.hash)
      (hselected : it.state = .candidateBest ∨ it.state = .requested)
      (hready : b.state = .candidateReady)
      (hmax : ∀ c ∈ I, c.hash = it.hash → c.state = .candidateReady → c ≠ b →
        computer.of c < computer.of b)
      (hmem : ∀ a, a ∈ J ↔ a = it.setState newState ∨ a = b.setState .candidateBest ∨
        a ∈ I ∧ a ≠ it ∧ a ≠ b)
  | leave (hplain : ¬ (it.state = .candidateBest ∨ it.state = .requested) ∨
        ∀ c ∈ I, c.hash = it.hash → c.state ≠ .candidateReady)
      (hmem : ∀ a, a ∈ J ↔ a = it.setState newState ∨ a ∈ I ∧ a ≠ it)

theorem Reselected.block (hI : Consistent computer I) (hit : it ∈ I)
    (hnew : newState = .completed ∨ newState = .candidateDelayed)
    (halive : newState = .completed → ∃ c ∈ I, c ≠ it ∧ c.hash = it.hash ∧ c.state ≠ .completed)
    (h : Reselected computer I J it newState) : Block computer J it.hash := by
  cases h with
  | follow b hb hhash hselected hready hmax hmem =>
    refine .of_best ((hmem _).mpr (.inr (.inl rfl))) hhash rfl (fun c hc hch hne => ?_)
    rcases (hmem c).mp hc with rfl | rfl | ⟨hc, hci, hcb⟩
    · rcases hnew with rfl | rfl <;> simp
    · exact absurd rfl hne
    · have hsel := hI.eq_of_selected hc hit hch
      exact ⟨by grind, by grind, fun hcr => hmax c hc hch hcr hcb⟩
  | leave hplain hmem =>
    have halive' : ∃ c ∈ J, c.hash = it.hash ∧ c.state ≠ .completed := by
      rcases hnew with rfl | rfl
      · obtain ⟨c, hc, hne, hch, hcs⟩ := halive rfl
        exact ⟨c, (hmem c).mpr (.inr ⟨hc, hne⟩), hch, hcs⟩
      · exact ⟨_, (hmem _).mpr (.inl rfl), rfl, by simp⟩
    -- With the selected announcement gone and none ready, no other one is singled out.
    have hplain' : (it.state = .candidateBest ∨ it.state = .requested) →
        ∀ b ∈ J, b.hash = it.hash → b.state = .candidateDelayed ∨ b.state = .completed := by
      intro hsel b hb hbh
      rcases (hmem b).mp hb with rfl | ⟨hbI, hne⟩
      · exact hnew.symm
      · have hone := hI.eq_of_selected hbI hit hbh
        exact State.delayed_or_completed (hplain.resolve_left (not_not.mpr hsel) b hbI hbh)
          (by grind) (by grind)
    rcases hI.leads it.hash with ⟨t, ht, hth, hts, hother⟩ | ⟨t, ht, hth, hts, hother⟩ | hother
    · by_cases hti : t = it
      · exact .of_delayed (hplain' (.inr (hti ▸ hts))) (fun _ _ _ => halive')
      · refine .of_requested ((hmem t).mpr (.inr ⟨ht, hti⟩)) hth hts (fun b hb hbh hne => ?_)
        grind [Announcement.setState_state]
    · by_cases hti : t = it
      · exact .of_delayed (hplain' (.inl (hti ▸ hts))) (fun _ _ _ => halive')
      · refine .of_best ((hmem t).mpr (.inr ⟨ht, hti⟩)) hth hts (fun b hb hbh hne => ?_)
        grind [Announcement.setState_state]
    · refine .of_delayed (fun b hb hbh => ?_) (fun _ _ _ => halive')
      rcases (hmem b).mp hb with rfl | ⟨hbI, -⟩
      · exact hnew.symm
      · exact hother b hbI hbh

/-- The ready candidate to the left of the selected announcement has the highest priority. -/
theorem prev_of_ready (hI : Consistent computer I) (hit : it ∈ I)
    (hselected : it.state = .candidateBest ∨ it.state = .requested) (hc : c ∈ I)
    (hch : c.hash = it.hash) (hcs : c.state = .candidateReady) :
    ∃ prev, before? (byTxHashView computer) I it = some prev ∧ prev ∈ I ∧ prev.hash = it.hash ∧
      prev.state = .candidateReady ∧ computer.of c ≤ computer.of prev := by
  have hne : c ≠ it := by grind
  have hrank : 2 ≤ it.state.rank ∧ it.state.rank ≤ 3 := by
    rcases hselected with h | h <;> simp [h]
  rcases neighbour (byTxHashView computer) hit hc hne with
    ⟨b, hb, hcb, hbit⟩ | ⟨b, -, hitb, hbc⟩
  · obtain ⟨hbI, hbne, -⟩ := before?_eq_some hit hb
    obtain ⟨hbh, hlow, hhigh⟩ := between hcb hbit hch
    have hsel := hI.eq_of_selected hbI hit hbh
    have hbs : b.state = .candidateReady := by
      cases hstate : b.state with
      | candidateDelayed => simp [hstate, hcs] at hlow
      | candidateReady => rfl
      | candidateBest => exact absurd (hsel (.inl hstate) hselected) hbne
      | requested => exact absurd (hsel (.inr hstate) hselected) hbne
      | completed =>
        rw [hstate, State.rank_completed] at hhigh
        omega
    exact ⟨b, hb, hbI, hbh, hbs, priority_le_of_view_le hcb (hch.trans hbh.symm) hcs hbs⟩
  · have := (between hitb hbc hch.symm).2
    rw [hcs, State.rank_candidateReady] at this
    omega

theorem reselected (hI : Consistent computer s.index) (hit : it ∈ s.index) (newState : State)
    (hnew : newState ≠ .candidateBest) :
    Reselected computer s.index (s.changeAndReselect computer it newState).index it newState := by
  have hleave : ∀ a, a ∈ (s.modify it (.setState newState)).index ↔
      a = it.setState newState ∨ a ∈ s.index ∧ a ≠ it := by
    simp [mem_modify, hit]
  rw [Tracker.changeAndReselect, Tracker.reselect]
  split
  · rename_i hsel
    have hselected := (Announcement.isSelected_iff it).mp hsel
    have hnone : (∀ prev, before? (byTxHashView computer) s.index it = some prev →
        ¬ (prev.hash = it.hash ∧ prev.state = .candidateReady)) →
        ∀ c ∈ s.index, c.hash = it.hash → c.state ≠ .candidateReady := by
      intro h c hc hch hcs
      obtain ⟨prev, hprev, -, hph, hps, -⟩ := prev_of_ready hI hit hselected hc hch hcs
      exact h prev hprev ⟨hph, hps⟩
    cases hprev : before? (byTxHashView computer) s.index it with
    | none => exact .leave (.inr (hnone (by simp [hprev]))) hleave
    | some prev =>
      dsimp only
      split
      · rename_i hready
        obtain ⟨hph, hps⟩ := hready
        have hpI := (before?_eq_some hit hprev).1
        refine .follow prev hpI hph hselected hps (fun c hc hch hcs hne => ?_) (fun a => ?_)
        · obtain ⟨prev', hprev', -, -, -, hle⟩ := prev_of_ready hI hit hselected hc hch hcs
          obtain rfl : prev = prev' := Option.some.inj (hprev.symm.trans hprev')
          exact lt_of_le_of_ne hle (fun h => hne (hI.eq_of_priority hc hpI (hch.trans hph.symm) h))
        · have hfresh : it.setState newState ≠ prev.setState .candidateBest :=
            fun h => hnew (congrArg Announcement.state h)
          have hne : it ≠ prev := by grind
          have hit' : it ≠ prev.setState .candidateBest := by
            intro h
            have hpeer : it.peer = (prev.setState .candidateBest).peer := congrArg _ h
            exact hne (hI.eq_of_slot hit hpI hpeer hph.symm)
          rw [mem_modify, mem_modify, mem_modify]
          grind
      · rename_i hready
        exact .leave (.inr (hnone (by simpa [hprev] using hready))) hleave
  · rename_i hsel
    exact .leave (.inl (fun h => hsel ((Announcement.isSelected_iff it).mpr h))) hleave

theorem shuffle_reselect : Shuffle computer it.hash s (s.reselect computer it) := by
  rw [Tracker.reselect]
  split
  · split
    · exact .refl s
    · split
      · rename_i hprev
        exact shuffle_setState hprev.1 (by rw [hprev.2]; rfl)
      · exact .refl s
  · exact .refl s

theorem move_changeAndReselect :
    Move computer it.hash s (s.changeAndReselect computer it newState) :=
  shuffle_reselect.toMove.trans (move_setState rfl)

theorem Consistent.changeAndReselect (hI : Consistent computer s.index) (hit : it ∈ s.index)
    (hnew : newState = .completed ∨ newState = .candidateDelayed) (halive : newState = .completed →
      ∃ c ∈ s.index, c ≠ it ∧ c.hash = it.hash ∧ c.state ≠ .completed) :
    Consistent computer (s.changeAndReselect computer it newState).index :=
  hI.move move_changeAndReselect
    ((reselected hI hit newState (by rcases hnew with rfl | rfl <;> simp)).block hI hit hnew halive)

end Tarcoin.Net.TxRequest
