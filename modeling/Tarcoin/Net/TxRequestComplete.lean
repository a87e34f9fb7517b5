import Tarcoin.Net.TxRequestMoves

/-! Readying and delaying change no notes; completing an announcement finishes its note. -/
namespace Tarcoin.Net.TxRequest

open OrderedIndex

variable {computer : PriorityComputer} {s t : Tracker} {a b c it : Announcement} {txhash : TxHash}
  {st : State} {f : Announcement → Announcement}

theorem State.phase_eq_completed : st.phase = .completed ↔ st = .completed := by
  cases st <;> simp [State.phase]

theorem State.phase_eq_requested : st.phase = .requested ↔ st = .requested := by
  cases st <;> simp [State.phase]

theorem mem_notes {n : Note} : n ∈ s.notes ↔ ∃ a ∈ s.index, a.note = n := List.mem_map

theorem about_iff (hunique : (s.index.map Announcement.slot).Nodup) (hit : it ∈ s.index)
    (ha : a ∈ s.index) : a.note.About it.peer it.hash ↔ a = it := by
  constructor
  · exact fun h => List.inj_on_of_nodup_map hunique ha hit (Prod.ext h.1 h.2)
  · rintro rfl
    exact ⟨rfl, rfl⟩

theorem notes_modify_about (hunique : (s.index.map Announcement.slot).Nodup) (hit : it ∈ s.index)
    {g : Note → Note} (h : (f it).note = g it.note) :
    (s.modify it f).notes =
      s.notes.map (fun n => if n.About it.peer it.hash then g n else n) := by
  simp only [Tracker.notes, Tracker.modify, List.map_map]
  refine List.map_congr_left (fun a ha => ?_)
  simp only [Function.comp_apply, about_iff hunique hit ha]
  by_cases hai : a = it
  · simp [hai, h]
  · simp [hai]

theorem Reselected.settled {I J : List Announcement} (hI : Consistent computer I) (hit : it ∈ I)
    (h : Reselected computer I J it st) (ha : a ∈ J) :
    a = it.setState st ∨ a.slot ≠ it.slot ∧ ∃ b ∈ I, b.slot = a.slot ∧
      b.time = a.time ∧ (a = b ∨ b.state = .candidateReady ∧ a.state = .candidateBest) := by
  have hapart : ∀ b ∈ I, b ≠ it → b.slot ≠ it.slot := fun b hb hne hslot =>
    hne (hI.eq_of_slot hb hit (congrArg Prod.fst hslot) (congrArg Prod.snd hslot))
  cases h with
  | follow b hb hhash hsel hready hmax hmem =>
    rcases (hmem a).mp ha with rfl | rfl | ⟨ha, hne, -⟩
    · exact .inl rfl
    · have hne : b ≠ it := by grind
      exact .inr ⟨hapart b hb hne, b, hb, rfl, rfl, .inr ⟨hready, rfl⟩⟩
    · exact .inr ⟨hapart a ha hne, a, ha, rfl, rfl, .inl rfl⟩
  | leave hplain hmem =>
    rcases (hmem a).mp ha with rfl | ⟨ha, hne⟩
    · exact .inl rfl
    · exact .inr ⟨hapart a ha hne, a, ha, rfl, rfl, .inl rfl⟩

theorem Reselected.mem_self {I J : List Announcement} (h : Reselected computer I J it st) :
    it.setState st ∈ J := by
  cases h with
  | follow b hb hhash hsel hready hmax hmem => exact (hmem _).mpr (.inl rfl)
  | leave hplain hmem => exact (hmem _).mpr (.inl rfl)

theorem Consistent.alive_notes (hI : Consistent computer s.index) : Alive s.notes := by
  intro n hn
  obtain ⟨a, ha, rfl⟩ := mem_notes.mp hn
  obtain ⟨b, hb, hbh, hopen⟩ := (hI.block a.hash).alive a ha rfl
  exact ⟨b.note, mem_notes.mpr ⟨b, hb, rfl⟩, hbh, fun h => hopen (State.phase_eq_completed.mp h)⟩

theorem mem_reselect (hit : it ∈ s.index) : it ∈ (s.reselect computer it).index := by
  rw [Tracker.reselect]
  split
  · split
    · exact hit
    · rename_i prev hprev
      split
      · exact mem_modify.mpr (.inr ⟨hit, (before?_eq_some hit hprev).2.1.symm⟩)
      · exact hit
  · exact hit

/-! ## Completing -/

theorem isOnlyNonCompleted_iff (hI : Consistent computer s.index) (hit : it ∈ s.index)
    (hopen : it.state ≠ .completed) : s.isOnlyNonCompleted computer it = true ↔
      ∀ c ∈ s.index, c.hash = it.hash → c ≠ it → c.state = .completed := by
  have hrank : it.state.rank < 4 := by
    cases h : it.state <;> simp_all
  rw [Tracker.isOnlyNonCompleted, Bool.and_eq_true]
  constructor
  · intro h c hc hch hne
    by_contra hcs
    have hcrank : c.state.rank < 4 := by
      cases h : c.state <;> simp_all
    rcases neighbour (byTxHashView computer) hit hc hne with
      ⟨b, hb, hcb, hbit⟩ | ⟨b, hb, hitb, hbc⟩
    · have hbh := (between hcb hbit hch).1
      simp [hb, hbh] at h
    · obtain ⟨hbh, -, hbr⟩ := between hitb hbc hch.symm
      have hbs : b.state ≠ .completed := by
        intro hbs
        rw [hbs, State.rank_completed] at hbr
        omega
      simp [hb, hbh.trans hch, hbs] at h
  · intro h
    constructor
    · cases hprev : before? (byTxHashView computer) s.index it with
      | none => rfl
      | some prev =>
        obtain ⟨hpI, hpne, hle⟩ := before?_eq_some hit hprev
        have hph : prev.hash ≠ it.hash := by
          intro hph
          have := rank_le_of_view_le hle hph
          rw [h prev hpI hph hpne, State.rank_completed] at this
          omega
        simpa using hph
    · cases hnext : after? (byTxHashView computer) s.index it with
      | none => rfl
      | some next =>
        obtain ⟨hnI, hnne, -⟩ := after?_eq_some hit hI.nodup hnext
        by_cases hnh : next.hash = it.hash
        · simp [h next hnI hnh hnne]
        · simp [hnh]

theorem eraseWhile_index (l : List Announcement) (hsorted : l.Pairwise (fun a b => a.hash ≤ b.hash))
    (hlow : ∀ a ∈ l, txhash ≤ a.hash) (hall : ∀ a ∈ s.index, a.hash = txhash → a ∈ l) :
    (Tracker.eraseWhile txhash s l).index = s.index.filter (fun a => a.hash ≠ txhash) := by
  induction l generalizing s with
  | nil =>
    refine (List.filter_eq_self.mpr (fun a ha => ?_)).symm
    exact decide_eq_true (fun h => List.not_mem_nil (hall a ha h))
  | cons it rest ih =>
    rw [Tracker.eraseWhile]
    split
    · rename_i hhash
      rw [ih hsorted.tail (fun a ha => hlow a (List.mem_cons_of_mem _ ha))]
      · rw [Tracker.erase, List.filter_filter]
        refine List.filter_congr (fun a _ => ?_)
        by_cases ha : a = it
        · simp [ha, hhash]
        · simp [ha]
      · intro a ha hah
        obtain ⟨ha, hne⟩ := mem_erase.mp ha
        exact (List.mem_cons.mp (hall a ha hah)).resolve_left hne
    · rename_i hhash
      -- From a greater hash on the announcements of the hash are behind.
      refine (List.filter_eq_self.mpr (fun a ha => ?_)).symm
      rw [decide_eq_true_iff]
      intro hah
      have hit : txhash < it.hash :=
        lt_of_le_of_ne (hlow it List.mem_cons_self) (fun h => hhash h.symm)
      rcases List.mem_cons.mp (hall a ha hah) with rfl | hmem
      · exact hhash hah
      · exact absurd (List.rel_of_pairwise_cons hsorted hmem) (not_le.mpr (hah ▸ hit))

theorem forget_index (hit : it ∈ s.index) (hopen : it.state ≠ .completed)
    (honly : ∀ c ∈ s.index, c.hash = it.hash → c ≠ it → c.state = .completed) :
    (Tracker.eraseWhile it.hash s ((view (byTxHashView computer) s.index).dropWhile
      (fun ann => ann ≠ it))).index = s.index.filter (fun a => a.hash ≠ it.hash) := by
  obtain ⟨left, right, hview, hleft, -⟩ := view_split (byTxHashView computer) hit
  have hne : ∀ b ∈ left, decide (b ≠ it) = true :=
    fun b hb => decide_eq_true (fun h => hleft (h ▸ hb))
  have hdrop : (view (byTxHashView computer) s.index).dropWhile (fun ann => ann ≠ it) =
      it :: right := by
    rw [hview, List.dropWhile_append_of_pos hne]
    simp
  have hsorted := view_pairwise (byTxHashView computer) s.index
  rw [hview, List.pairwise_append] at hsorted
  rw [hdrop]
  refine eraseWhile_index _ (hsorted.2.1.imp hash_le_of_view_le) (fun a ha => ?_) (fun a ha hah => ?_)
  · rcases List.mem_cons.mp ha with rfl | ha
    · exact le_rfl
    · exact hash_le_of_view_le (List.rel_of_pairwise_cons hsorted.2.1 ha)
  · have hmem : a ∈ left ++ it :: right := hview ▸ mem_view.mpr ha
    refine (List.mem_append.mp hmem).resolve_left (fun hal => ?_)
    -- Left of an open announcement nothing of its hash is completed.
    have := rank_le_of_view_le (hsorted.2.2 a hal it List.mem_cons_self) hah
    cases h : it.state <;> simp_all

theorem Consistent.forget (hI : Consistent computer s.index) (hmove : Move computer txhash s t)
    (ht : t.index = s.index.filter (fun a => a.hash ≠ txhash)) : Consistent computer t.index := by
  have hmem : ∀ a ∈ t.index, a.hash ≠ txhash := by simp [ht]
  exact hI.move hmove (.of_delayed (fun b hb hbh => absurd hbh (hmem b hb))
    (fun b hb hbh => absurd hbh (hmem b hb)))

/-- A call that takes in no announcement, with the notes it leaves. -/
structure Kept (computer : PriorityComputer) (s t : Tracker) (notes : List Note) : Prop
    extends Fewer s t where
  consistent : Consistent computer t.index
  notes : t.notes = notes

structure Completed (computer : PriorityComputer) (s : Tracker) (it : Announcement)
    (r : Tracker × Bool) : Prop extends Kept computer s r.1 (finish it.peer it.hash s.notes) where
  gone : it.state ≠ .completed → it ∉ r.1.index
  kept : r.2 = true → it.setState .completed ∈ r.1.index
  forgotten : r.2 = false → ∀ a ∈ r.1.index, a.hash ≠ it.hash
  frame : ∀ a, a.hash ≠ it.hash → (a ∈ r.1.index ↔ a ∈ s.index)
  settled : ∀ a ∈ r.1.index, a ∈ s.index ∨ a.state = .candidateBest ∨ a.state = .completed

section
variable (hI : Consistent computer s.index) (hit : it ∈ s.index)
include hI hit

theorem completed_again (hdone : it.state = .completed) : Completed computer s it (s, true) where
  toFewer := .refl s
  consistent := hI
  notes := by
    rw [finish, ← notes_modify_about (f := .setState .completed) hI.unique hit rfl]
    have hsame : (s.modify it (.setState .completed)).notes = s.notes :=
      map_modify _ (by simp [Announcement.note, Announcement.setState, hdone])
    rw [hsame, purge_eq_self hI.alive_notes]
  gone h := absurd hdone h
  kept _ := by
    rw [← hdone]
    exact hit
  forgotten h := by cases h
  frame _ _ := Iff.rfl
  settled _ ha := .inl ha

theorem completed_forget (honly : ∀ c ∈ s.index, c.hash = it.hash → c ≠ it → c.state = .completed)
    (hmove : Move computer it.hash s t)
    (ht : t.index = s.index.filter (fun a => a.hash ≠ it.hash)) :
    Completed computer s it (t, false) where
  toFewer := hmove.toFewer
  consistent := hI.forget hmove ht
  notes := by
    rw [finish_forget hI.alive_notes, Tracker.notes, ht, Tracker.notes, List.filter_map]
    · rfl
    · intro n hn hhash habout
      obtain ⟨a, ha, rfl⟩ := mem_notes.mp hn
      rw [about_iff hI.unique hit ha] at habout
      exact State.phase_eq_completed.mpr (honly a ha hhash habout)
  gone _ := by simp [ht]
  kept h := by cases h
  forgotten _ := by simp [ht]
  frame := hmove.frame
  settled a ha := .inl (List.mem_of_mem_filter (ht ▸ ha))

theorem completed_reselect (hopen : it.state ≠ .completed)
    (hother : ∃ c ∈ s.index, c ≠ it ∧ c.hash = it.hash ∧ c.state ≠ .completed) :
    Completed computer s it (s.changeAndReselect computer it .completed, true) := by
  have hC := hI.changeAndReselect hit (.inl rfl) (fun _ => hother)
  have hmove : Move computer it.hash s (s.changeAndReselect computer it .completed) :=
    move_changeAndReselect
  have hself := reselected hI hit .completed (by simp)
  refine ⟨⟨hmove.toFewer, hC, ?_⟩, fun _ hmem => ?_, fun _ => hself.mem_self, nofun, hmove.frame, ?_⟩
  · have hselect : Shuffle computer it.hash s (s.reselect computer it) := shuffle_reselect
    rw [finish, ← hselect.notes, ← notes_modify_about (f := .setState .completed)
      (hI.unique.sublist hselect.slots) (mem_reselect hit) rfl]
    exact (purge_eq_self hC.alive_notes).symm
  · exact Announcement.setState_ne hopen (hC.eq_of_slot hself.mem_self hmem rfl rfl)
  · intro a ha
    rcases hself.settled hI hit ha with rfl | ⟨-, b, hb, -, -, rfl | ⟨-, hbest⟩⟩
    · exact .inr (.inr rfl)
    · exact .inl hb
    · exact .inr (.inl hbest)

theorem completed_makeCompleted : Completed computer s it (s.makeCompleted computer it) := by
  rw [Tracker.makeCompleted]
  split
  · rename_i hdone
    exact completed_again hI hit hdone
  · rename_i hopen
    split
    · rename_i honly
      have honly' := (isOnlyNonCompleted_iff hI hit hopen).mp honly
      exact completed_forget hI hit honly' (move_eraseWhile _) (forget_index hit hopen honly')
    · rename_i honly
      rw [isOnlyNonCompleted_iff hI hit hopen] at honly
      push Not at honly
      obtain ⟨c, hc, hch, hne, hcs⟩ := honly
      exact completed_reselect hI hit hopen ⟨c, hc, hne, hch, hcs⟩

end

end Tarcoin.Net.TxRequest
