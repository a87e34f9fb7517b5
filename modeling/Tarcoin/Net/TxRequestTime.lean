import Tarcoin.Net.TxRequestComplete

/-! The two loops bring the announcements in line with a point in time, before or after the last
one. -/
namespace Tarcoin.Net.TxRequest

open OrderedIndex

variable {computer : PriorityComputer} {s : Tracker} {I J : List Announcement}
  {a b c it : Announcement} {now : ℤ}

/-! ## Expiry in one go or request by request -/

theorem settles_expire (now : ℤ) :
    Settles (fun n => some (if n.Expired now then n.complete else n)) where
  hash h := by
    cases h
    split <;> rfl
  completed h hc := by
    cases h
    split
    · rfl
    · exact hc

theorem expire_finish {peer : NodeId} {txhash : TxHash} {notes : List Note}
    (h : ∀ n ∈ notes, n.About peer txhash → n.Expired now) :
    expire now (finish peer txhash notes) = expire now notes := by
  have hpurge := purge_filterMap_purge (settles_expire now)
    (notes.map (fun n => if n.About peer txhash then n.complete else n))
  rw [List.filterMap_eq_map', List.map_map] at hpurge
  rw [expire, finish, hpurge]
  congr 1
  refine List.map_congr_left (fun n hn => ?_)
  simp only [Function.comp_apply]
  by_cases habout : n.About peer txhash
  · have hdone : ¬ n.complete.Expired now := fun hexp => by cases hexp.1
    rw [if_pos habout, if_neg hdone, if_pos (h n hn habout)]
  · rw [if_neg habout]

/-! ## The order by time -/

theorem waitState_of_waiting (h : a.isWaiting = true) : waitState a = 0 := by
  simp only [waitState, h, ↓reduceIte]

theorem waitState_of_selectable (h : a.isSelectable = true) : waitState a = 2 := by
  have hnot : a.isWaiting = false := by
    rcases (Announcement.isSelectable_iff a).mp h with h | h <;> simp [Announcement.isWaiting, h]
  simp [waitState, hnot, h]

theorem byTimeView_le_iff : byTimeView a ≤ byTimeView b ↔
    waitState a < waitState b ∨ waitState a = waitState b ∧ a.time ≤ b.time := by
  simp [byTimeView, Prod.Lex.toLex_le_toLex]

theorem waiting_of_first (hfirst : ∀ b ∈ I, byTimeView it ≤ byTimeView b)
    (h : ¬ (it.isWaiting = true ∧ it.time ≤ now)) :
    ∀ b ∈ I, b.isWaiting = true → now < b.time := by
  intro b hb hbw
  have hle := byTimeView_le_iff.mp (hfirst b hb)
  rw [waitState_of_waiting hbw] at hle
  by_cases hit : it.isWaiting = true
  · have hnow : now < it.time := not_le.mp (fun hle => h ⟨hit, hle⟩)
    omega
  · have : 0 < waitState it := by
      unfold waitState
      rw [if_neg hit]
      split <;> omega
    omega

theorem selectable_of_last (hlast : ∀ b ∈ I, byTimeView b ≤ byTimeView it)
    (h : ¬ (it.isSelectable = true ∧ it.time > now)) :
    ∀ b ∈ I, b.isSelectable = true → b.time ≤ now := by
  intro b hb hbs
  have hle := byTimeView_le_iff.mp (hlast b hb)
  rw [waitState_of_selectable hbs] at hle
  by_cases hit : it.isSelectable = true
  · rw [waitState_of_selectable hit] at hle
    have hnow : it.time ≤ now := not_lt.mp (fun hlt => h ⟨hit, hlt⟩)
    omega
  · have : waitState it < 2 := by
      unfold waitState
      split
      · omega
      · simp
    omega

theorem length_filter_lt {p : Announcement → Bool} (hJ : (J.map Announcement.slot).Nodup)
    (hit : it ∈ I) (hp : p it = true)
    (h : ∀ a ∈ J, p a = true → a.slot ≠ it.slot ∧ ∃ b ∈ I, p b = true ∧ b.slot = a.slot) :
    (J.filter p).length < (I.filter p).length := by
  have hmem : it.slot ∈ (I.filter p).map Announcement.slot :=
    List.mem_map_of_mem (List.mem_filter.mpr ⟨hit, hp⟩)
  have hsub : (J.filter p).map Announcement.slot ⊆
      ((I.filter p).map Announcement.slot).erase it.slot := by
    intro x hx
    obtain ⟨a, ha, rfl⟩ := List.mem_map.mp hx
    obtain ⟨ha, hpa⟩ := List.mem_filter.mp ha
    obtain ⟨hne, b, hb, hpb, hslot⟩ := h a ha hpa
    refine (List.mem_erase_of_ne hne).mpr (hslot ▸ List.mem_map_of_mem ?_)
    exact List.mem_filter.mpr ⟨hb, hpb⟩
  have hnodup : ((J.filter p).map Announcement.slot).Nodup :=
    hJ.sublist (List.filter_sublist.map _)
  have hle := (hnodup.subperm hsub).length_le
  rw [List.length_erase_of_mem hmem, List.length_map, List.length_map] at hle
  have := List.length_pos_of_mem (List.mem_filter.mpr ⟨hit, hp⟩ : it ∈ I.filter p)
  omega

/-! ## What has come due -/

theorem Promoted.settled (h : Promoted computer I J it) (ha : a ∈ J) :
    (a ∈ I ∧ a ≠ it) ∨ a.state = .candidateReady ∨ a.state = .candidateBest := by
  cases h with
  | alone hnone hmem =>
    rcases (hmem a).mp ha with rfl | ha
    · exact .inr (.inr rfl)
    · exact .inl ha
  | behind b hb hhash hstate hmem =>
    rcases (hmem a).mp ha with rfl | ha
    · exact .inr (.inl rfl)
    · exact .inl ha
  | ahead b hb hhash hbest hprio hmem =>
    rcases (hmem a).mp ha with rfl | rfl | ⟨ha, hne, -⟩
    · exact .inr (.inr rfl)
    · exact .inr (.inl rfl)
    · exact .inl ⟨ha, hne⟩

def isDue (now : ℤ) (a : Announcement) : Bool := a.isWaiting && decide (a.time ≤ now)

theorem filter_lt_of_gone {p : Announcement → Bool} (hI : Consistent computer I)
    (hJ : Consistent computer J) (hit : it ∈ I) (hp : p it = true)
    (h : ∀ a ∈ J, p a = true → a ∈ I ∧ a ≠ it) :
    (J.filter p).length < (I.filter p).length := by
  refine length_filter_lt hJ.unique hit hp (fun a ha hpa => ?_)
  obtain ⟨haI, hne⟩ := h a ha hpa
  refine ⟨fun hslot => hne ?_, a, haI, hpa, rfl⟩
  exact hI.eq_of_slot haI hit (congrArg Prod.fst hslot) (congrArg Prod.snd hslot)

theorem due_lt (now : ℤ) (hI : Consistent computer I) (hJ : Consistent computer J) (hit : it ∈ I)
    (hdue : isDue now it = true) (h : ∀ a ∈ J, a.isWaiting = true → a ∈ I ∧ a ≠ it) :
    (J.filter (isDue now)).length < (I.filter (isDue now)).length :=
  filter_lt_of_gone hI hJ hit hdue (fun a ha hpa => h a ha (Bool.and_eq_true _ _ ▸ hpa).1)

theorem expiredNotes_complete (hI : Consistent computer s.index) (hit : it ∈ s.index)
    (hstate : it.state = .requested) (htime : it.time ≤ now) {r : Tracker × Bool}
    (h : Completed computer s it r) :
    (expiredNotes now s.notes).Perm ((it.peer, it.gtxid) :: expiredNotes now r.1.notes) := by
  have hpair : ∀ t : Tracker, expiredNotes now t.notes =
      (t.index.filter (fun a => a.state = .requested ∧ a.time ≤ now)).map
        (fun a => (a.peer, a.gtxid)) := by
    intro t
    rw [expiredNotes, Tracker.notes, List.filter_map, List.map_map]
    congr 1
    refine List.filter_congr (fun a _ => ?_)
    simp [Note.Expired, Announcement.note, State.phase_eq_requested]
  rw [hpair, hpair]
  rw [← List.map_cons (f := fun a : Announcement => (a.peer, a.gtxid)) (a := it)]
  refine List.Perm.map _ ?_
  refine (List.perm_ext_iff_of_nodup (hI.nodup.filter _) ?_).mpr (fun a => ?_)
  · refine List.nodup_cons.mpr ⟨fun hmem => ?_, h.consistent.nodup.filter _⟩
    exact h.gone (by simp [hstate]) (List.mem_of_mem_filter hmem)
  · simp only [List.mem_filter, List.mem_cons, decide_eq_true_iff]
    constructor
    · intro ha
      by_cases hai : a = it
      · exact .inl hai
      · -- Another request is for another hash.
        have hne : a.hash ≠ it.hash :=
          fun hh => hai (hI.eq_of_requested ha.1 hit hh ha.2.1 hstate)
        exact .inr ⟨(h.frame a hne).mpr ha.1, ha.2⟩
    · intro ha
      rcases ha with rfl | ⟨ha, hreq, htime⟩
      · exact ⟨hit, hstate, htime⟩
      · rcases h.settled a ha with haI | hs | hs
        · exact ⟨haI, hreq, htime⟩
        · simp [hs] at hreq
        · simp [hs] at hreq

structure Settled (computer : PriorityComputer) (now : ℤ) (s : Tracker)
    (expired : List (NodeId × GenTxid)) (r : Tracker × List (NodeId × GenTxid)) : Prop
    extends Kept computer s r.1 (expire now s.notes) where
  expired : r.2.Perm (expired ++ expiredNotes now s.notes)
  future : ∀ a ∈ r.1.index, a.isWaiting = true → now < a.time

theorem settled_stop (hI : Consistent computer s.index) (expired : List (NodeId × GenTxid))
    (h : ∀ a ∈ s.index, a.isWaiting = true → now < a.time) :
    Settled computer now s expired (s, expired) := by
  have hnone : ∀ n ∈ s.notes, ¬ n.Expired now := by
    intro n hn hexp
    obtain ⟨a, ha, rfl⟩ := mem_notes.mp hn
    have hreq := State.phase_eq_requested.mp hexp.1
    exact absurd hexp.2 (not_le.mpr (h a ha (by simp [hreq])))
  refine ⟨⟨.refl s, hI, (purge_complete_self hI.alive_notes hnone).symm⟩, ?_, h⟩
  have : expiredNotes now s.notes = [] := by
    rw [expiredNotes, List.filter_eq_nil_iff.mpr (fun n hn => by simpa using hnone n hn)]
    rfl
  rw [this, List.append_nil]

theorem settled_settleDue (now : ℤ) (fuel : ℕ) (expired : List (NodeId × GenTxid))
    (hI : Consistent computer s.index) (hfuel : (s.index.filter (isDue now)).length ≤ fuel) :
    Settled computer now s expired (Tracker.settleDue computer now fuel s expired) := by
  induction fuel generalizing s expired with
  | zero =>
    refine settled_stop hI expired (fun a ha hw => not_le.mp (fun hle => ?_))
    have hnil := List.eq_nil_of_length_eq_zero (Nat.le_zero.mp hfuel)
    exact List.filter_eq_nil_iff.mp hnil a ha (by simp only [isDue, hw, hle]; rfl)
  | succ fuel ih =>
    rw [Tracker.settleDue]
    cases hfirst : first? byTimeView s.index with
    | none =>
      have hnil := first?_eq_none hfirst
      exact settled_stop hI expired (fun a ha => by simp [hnil] at ha)
    | some it =>
      obtain ⟨hit, hmin⟩ := first?_eq_some hfirst
      dsimp only
      split
      · rename_i hdelayed
        have hJ := hI.promote hit hdelayed.1
        have hpro := promoted hI hit hdelayed.1
        have hlt := due_lt now hI hJ hit (by simp [isDue, hdelayed]) (fun a ha hw => by
          rcases hpro.settled ha with h | h | h
          · exact h
          · simp [h] at hw
          · simp [h] at hw)
        have hr := ih expired hJ (by omega)
        have hmove : Shuffle computer it.hash s (s.promoteCandidateReady computer it) :=
          shuffle_promote hdelayed.1
        exact ⟨⟨hmove.toFewer.trans hr.toFewer, hr.consistent, hmove.notes ▸ hr.notes⟩,
          hmove.notes ▸ hr.expired, hr.future⟩
      · split
        · rename_i hrequested
          have hC := completed_makeCompleted hI hit
          have hlt := due_lt now hI hC.consistent hit (by simp [isDue, hrequested])
            (fun a ha hw => by
              refine ⟨?_, fun h => hC.gone (by simp [hrequested.1]) (h ▸ ha)⟩
              rcases hC.settled a ha with h | h | h
              · exact h
              · simp [h] at hw
              · simp [h] at hw)
          have hr := ih (expired ++ [(it.peer, it.gtxid)]) hC.consistent (by omega)
          refine ⟨⟨hC.toFewer.trans hr.toFewer, hr.consistent, ?_⟩, hr.expired.trans ?_, hr.future⟩
          · rw [hr.notes, hC.notes]
            refine expire_finish (fun n hn habout => ?_)
            obtain ⟨a, ha, rfl⟩ := mem_notes.mp hn
            rw [(about_iff hI.unique hit ha).mp habout]
            exact ⟨State.phase_eq_requested.mpr hrequested.1, hrequested.2⟩
          · rw [List.append_assoc]
            exact ((expiredNotes_complete hI hit hrequested.1 hrequested.2 hC).symm).append_left _
        · rename_i hdelayed hrequested
          refine settled_stop hI expired (waiting_of_first hmin (fun h => ?_))
          rcases (Announcement.isWaiting_iff it).mp h.1 with hs | hs
          · exact hrequested ⟨hs, h.2⟩
          · exact hdelayed ⟨hs, h.2⟩

/-! ## What is early -/

def isEarly (now : ℤ) (a : Announcement) : Bool := a.isSelectable && decide (a.time > now)

structure Delayed (computer : PriorityComputer) (now : ℤ) (s r : Tracker) : Prop
    extends Kept computer s r s.notes where
  future : ∀ a ∈ r.index, a.isWaiting = true → now < a.time
  past : ∀ a ∈ r.index, a.isSelectable = true → a.time ≤ now

theorem delayed_delayEarly (fuel : ℕ) (hI : Consistent computer s.index)
    (hfuture : ∀ a ∈ s.index, a.isWaiting = true → now < a.time)
    (hfuel : (s.index.filter (isEarly now)).length ≤ fuel) :
    Delayed computer now s (Tracker.delayEarly computer now fuel s) := by
  induction fuel generalizing s with
  | zero =>
    refine ⟨⟨.refl s, hI, rfl⟩, hfuture, fun a ha hs => not_lt.mp (fun hlt => ?_)⟩
    have hnil := List.eq_nil_of_length_eq_zero (Nat.le_zero.mp hfuel)
    exact List.filter_eq_nil_iff.mp hnil a ha (by simp only [isEarly, hs, gt_iff_lt, hlt]; rfl)
  | succ fuel ih =>
    rw [Tracker.delayEarly]
    cases hlast : last? byTimeView s.index with
    | none =>
      have hnil := last?_eq_none hlast
      exact ⟨⟨.refl s, hI, rfl⟩, hfuture, fun a ha => by simp [hnil] at ha⟩
    | some it =>
      obtain ⟨hit, hmax⟩ := last?_eq_some hlast
      dsimp only
      split
      · rename_i hearly
        have hJ := hI.changeAndReselect hit (.inr rfl) (fun h => by cases h)
        have hres := reselected hI hit .candidateDelayed (by simp)
        have hlt : ((s.changeAndReselect computer it .candidateDelayed).index.filter
            (isEarly now)).length < (s.index.filter (isEarly now)).length := by
          refine length_filter_lt hJ.unique hit (by simp [isEarly, hearly]) (fun a ha hpa => ?_)
          obtain ⟨hsel, htime⟩ := (Bool.and_eq_true _ _ ▸ hpa)
          rcases hres.settled hI hit ha with rfl | ⟨hne, b, hb, hslot, hbt, hab⟩
          · simp at hsel
          · refine ⟨hne, b, hb, ?_, hslot⟩
            rcases hab with rfl | ⟨hbs, -⟩
            · exact hpa
            · simpa [isEarly, hbs, hbt] using htime
        have hfuture' : ∀ a ∈ (s.changeAndReselect computer it .candidateDelayed).index,
            a.isWaiting = true → now < a.time := by
          intro a ha hw
          rcases hres.settled hI hit ha with rfl | ⟨-, b, hb, -, -, rfl | ⟨-, hab⟩⟩
          · exact hearly.2
          · exact hfuture a hb hw
          · simp [hab] at hw
        have hr := ih hJ hfuture' (by omega)
        have hphase : State.candidateDelayed.phase = it.state.phase := by
          rcases (Announcement.isSelectable_iff it).mp hearly.1 with h | h <;> rw [h] <;> rfl
        have hmove : Shuffle computer it.hash s
            (s.changeAndReselect computer it .candidateDelayed) :=
          shuffle_reselect.trans (shuffle_setState rfl hphase)
        exact ⟨⟨hmove.toFewer.trans hr.toFewer, hr.consistent, hr.notes.trans hmove.notes⟩,
          hr.future, hr.past⟩
      · rename_i hearly
        exact ⟨⟨.refl s, hI, rfl⟩, hfuture, selectable_of_last hmax hearly⟩

/-- What the tracker looks like at a point in time. -/
structure AtTime (computer : PriorityComputer) (now : ℤ) (s : Tracker)
    (r : Tracker × List (NodeId × GenTxid)) : Prop
    extends Kept computer s r.1 (expire now s.notes) where
  expired : r.2.Perm (expiredNotes now s.notes)
  future : ∀ a ∈ r.1.index, a.isWaiting = true → now < a.time
  past : ∀ a ∈ r.1.index, a.isSelectable = true → a.time ≤ now

theorem atTime_setTimePoint (hI : Consistent computer s.index) (now : ℤ) :
    AtTime computer now s (s.setTimePoint computer now) := by
  have hsettled := settled_settleDue now s.index.length [] hI (List.length_filter_le _ _)
  have hdelayed := delayed_delayEarly _ hsettled.consistent hsettled.future
    (List.length_filter_le _ _)
  exact ⟨⟨hsettled.toFewer.trans hdelayed.toFewer, hdelayed.consistent,
    hdelayed.notes.trans hsettled.notes⟩, hsettled.expired, hdelayed.future, hdelayed.past⟩

end Tarcoin.Net.TxRequest
