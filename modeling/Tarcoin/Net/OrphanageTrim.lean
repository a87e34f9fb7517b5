import Tarcoin.Net.OrphanageLimit

/-! The front of the heap is a peer that uses more than its share, and it loses announcements only
while it does. -/
namespace Tarcoin.Net.Orphanage

open OrderedIndex Tarcoin.Util

variable {lim : Limits} {s t : Pool} {a b it : Announcement} {p worst : NodeId}
  {maxLat maxMem : ℕ}

/-! ## The announcements of a peer in order -/

/-- The iterator is at the first announcement of the peer, if the peer has one. -/
def AtPeer (peer : NodeId) (s : Pool) (it? : Option Announcement) : Prop :=
  ∀ a ∈ s.orphans, a.announcer = peer → ∃ it, it? = some it ∧ it ∈ s.orphans ∧
    it.announcer = peer ∧ byPeerView it ≤ byPeerView a

theorem announcer_le_of_view_le (h : byPeerView a ≤ byPeerView b) : a.announcer ≤ b.announcer :=
  Prod.Lex.monotone_fst _ _ h

theorem Totals.eq_of_byPeerView (h : Totals s) (ha : a ∈ s.orphans) (hb : b ∈ s.orphans)
    (hview : byPeerView a = byPeerView b) : a = b := by
  have hpair := toLex.injective hview
  have hsequence := (Prod.ext_iff.1 (toLex.injective (Prod.ext_iff.1 hpair).2)).2
  exact List.inj_on_of_nodup_map h.sequences ha hb hsequence

theorem atPeer_lowerBound (s : Pool) (peer : NodeId) :
    AtPeer peer s (lowerBound? byPeerView s.orphans (toLex (peer, toLex (false, 0)))) := by
  intro a ha hpeer
  have hfirst : ∀ b : Announcement, b.announcer = peer →
      toLex (peer, toLex (false, 0)) ≤ byPeerView b := by
    intro b hb
    rw [byPeerView, hb, Prod.Lex.toLex_le_toLex]
    refine Or.inr ⟨rfl, ?_⟩
    rw [Prod.Lex.toLex_le_toLex]
    cases b.reconsider with
    | false => exact Or.inr ⟨rfl, Nat.zero_le _⟩
    | true => exact Or.inl Bool.false_lt_true
  cases hit : lowerBound? byPeerView s.orphans (toLex (peer, toLex (false, 0))) with
  | none => exact absurd (hfirst a hpeer) (lowerBound?_eq_none hit a ha).not_ge
  | some it =>
    obtain ⟨hmem, hbound, hmin⟩ := lowerBound?_eq_some hit
    have hle := hmin a ha (hfirst a hpeer)
    refine ⟨it, rfl, hmem, ?_, hle⟩
    have hlow : peer ≤ it.announcer := Prod.Lex.monotone_fst _ _ hbound
    exact (hpeer ▸ announcer_le_of_view_le hle).antisymm hlow

theorem AtPeer.next (h : Totals s) (hat : AtPeer worst s (some it)) (hit : it ∈ s.orphans)
    (hpeer : it.announcer = worst) (hr : Removed s it t) :
    AtPeer worst t (after? byPeerView s.orphans it) := by
  intro a ha hap
  rw [hr.orphans, List.mem_filter, decide_eq_true_eq] at ha
  obtain ⟨ha, hne⟩ := ha
  obtain ⟨it', hit', -, -, hle⟩ := hat a ha hap
  cases hit'
  rcases neighbour byPeerView hit ha hne with ⟨b, -, hab, hbit⟩ | ⟨b, hb, hitb, hba⟩
  · exact absurd (h.eq_of_byPeerView ha hit ((hab.trans hbit).antisymm hle)) hne
  · obtain ⟨hmem, hbne, -⟩ := after?_eq_some hit h.nodup hb
    refine ⟨b, hb, ?_, ?_, hba⟩
    · rw [hr.orphans, List.mem_filter, decide_eq_true_eq]
      exact ⟨hmem, hbne⟩
    · exact (hap ▸ announcer_le_of_view_le hba).antisymm (hpeer ▸ announcer_le_of_view_le hitb)

/-! ## Trimming one peer -/

theorem Exceeds.exists_mem (h : Totals s) (hexceeds : Exceeds maxLat maxMem s p) :
    ∃ a ∈ s.orphans, a.announcer = p := by
  obtain ⟨info, hinfo, -⟩ := hexceeds
  exact h.mem_peerSet_iff.1 (Pool.mem_peerSet.2 ⟨info, hinfo⟩)

section Trim

variable (hallow : Allowed maxLat lim.reservedUsagePerPeer)

include hallow

theorem Totals.worst_exceeds {threshold : FeeFrac} {info : PeerDoSInfo} (h : Totals s)
    (hshare : s.peers * maxLat ≤ lim.maxGlobalLatencyScore) (hsize : 0 < threshold.size)
    (hothers : ∀ p ≠ worst, Exceeds maxLat lim.reservedUsagePerPeer s p → 1 < threshold.ratio)
    (hinfo : s.peerOrphanageInfo.lookup worst = some info)
    (hworse : threshold.NegSizeLt (info.dosScore maxLat lim.reservedUsagePerPeer))
    (hneeds : s.needsTrim lim = true) : Exceeds maxLat lim.reservedUsagePerPeer s worst := by
  obtain ⟨p, hp⟩ := h.exists_exceeds hallow hshare hneeds
  by_cases hpw : p = worst
  · exact hpw ▸ hp
  · have hthreshold := hothers p hpw hp
    rw [FeeFrac.negSizeLt_iff hsize (dosScore_size_pos hallow)] at hworse
    have hle := Prod.Lex.monotone_fst _ _ hworse.le
    refine ⟨info, hinfo, ?_⟩
    rw [ratioLt_one_iff hallow, ← one_lt_dosScore hallow]
    exact hthreshold.trans_le hle

theorem trimPeer_spec {threshold : FeeFrac} (hsize : 0 < threshold.size)
    (erased : List Pool.Erasure) (fuel : ℕ) (it? : Option Announcement) (h : Totals s) (hat : AtPeer worst s it?)
    (hshare : s.peers * maxLat ≤ lim.maxGlobalLatencyScore)
    (hworst : s.needsTrim lim = true → Exceeds maxLat lim.reservedUsagePerPeer s worst)
    (hothers : ∀ p ≠ worst, Exceeds maxLat lim.reservedUsagePerPeer s p → 1 < threshold.ratio)
    (hfuel : s.orphans.length ≤ fuel) :
    ∃ t es, Pool.trimPeer lim maxLat lim.reservedUsagePerPeer worst threshold fuel s it? erased =
        some (t, erased ++ es) ∧ Erases s es t ∧
      (∀ e ∈ es, e.ann.announcer = worst ∧
        Exceeds maxLat lim.reservedUsagePerPeer e.before e.ann.announcer) ∧
      (s.needsTrim lim = true → es ≠ []) := by
  induction fuel generalizing s it? erased with
  | zero =>
    have hdone : ¬s.needsTrim lim = true := by
      intro hneeds
      obtain ⟨a, ha, -⟩ := (hworst hneeds).exists_mem h
      rw [List.eq_nil_of_length_eq_zero (Nat.le_zero.1 hfuel)] at ha
      cases ha
    refine ⟨s, [], ?_, .nil s, by simp, fun hneeds => absurd hneeds hdone⟩
    rw [Pool.trimPeer, if_neg hdone, List.append_nil]
  | succ fuel ih =>
    by_cases hneeds : s.needsTrim lim = true
    swap
    · refine ⟨s, [], ?_, .nil s, by simp, fun hneeds' => absurd hneeds' hneeds⟩
      rw [Pool.trimPeer, if_neg hneeds, List.append_nil]
    have hexceeds := hworst hneeds
    obtain ⟨a, ha, hpeer⟩ := hexceeds.exists_mem h
    obtain ⟨it, rfl, hit, hitw, -⟩ := hat a ha hpeer
    obtain ⟨t, herase, hr⟩ := h.erase hit
    have hone : Erases s [⟨s, it⟩] t := .cons hit herase (.nil t)
    have hscore : ∀ e ∈ [(⟨s, it⟩ : Pool.Erasure)], e.ann.announcer = worst ∧
        Exceeds maxLat lim.reservedUsagePerPeer e.before e.ann.announcer := by
      intro e he
      rw [List.mem_singleton.1 he]
      exact ⟨hitw, hitw.symm ▸ hexceeds⟩
    rw [Pool.trimPeer, if_pos hneeds]
    simp only [Option.bind_eq_bind, Option.bind_some, if_pos hitw, herase]
    cases hinfo : t.peerOrphanageInfo.lookup worst with
    | none => exact ⟨t, [⟨s, it⟩], rfl, hone, hscore, fun _ => List.cons_ne_nil _ _⟩
    | some info =>
      dsimp only
      by_cases hworse : threshold.NegSizeLt (info.dosScore maxLat lim.reservedUsagePerPeer)
      swap
      · rw [if_neg hworse]
        exact ⟨t, [⟨s, it⟩], rfl, hone, hscore, fun _ => List.cons_ne_nil _ _⟩
      rw [if_pos hworse]
      have hshare' := (Nat.mul_le_mul_right maxLat (hr.peers_le h)).trans hshare
      have hothers' : ∀ p ≠ worst, Exceeds maxLat lim.reservedUsagePerPeer t p →
          1 < threshold.ratio := by
        intro p hp ⟨info, hinfo, hlt⟩
        exact hothers p hp ⟨info, hr.lookup_eq h (hitw.symm ▸ hp) ▸ hinfo, hlt⟩
      obtain ⟨u, es, hrun, herases, hes, -⟩ := ih _ (after? byPeerView s.orphans it) hr.totals
        (hat.next h hit hitw hr) hshare'
        (hr.totals.worst_exceeds hallow hshare' hsize hothers' hinfo hworse) hothers'
        (Nat.le_of_succ_le_succ ((hr.length h hit).le.trans hfuel))
      refine ⟨u, ⟨s, it⟩ :: es, by rw [hrun, List.append_assoc, List.singleton_append],
        .cons hit herase herases, ?_, fun _ => List.cons_ne_nil _ _⟩
      exact List.forall_mem_cons.2 ⟨hscore _ List.mem_cons_self, hes⟩

end Trim

/-! ## The heap -/

def heapKey (entry : NodeId × FeeFrac) : (ℚ ×ₗ ℤ) ×ₗ ℤ := toLex (entry.2.rank, entry.1)

theorem heapKey_lt {left right : NodeId × FeeFrac} (hl : 0 < left.2.size) (hr : 0 < right.2.size)
    (h : Pool.compareScore left right = true) : heapKey left < heapKey right := by
  unfold Pool.compareScore at h
  rw [heapKey, heapKey, Prod.Lex.toLex_lt_toLex]
  split at h
  · exact Or.inl ((FeeFrac.negSizeLt_iff hl hr).1 (of_decide_eq_true h))
  · rename_i heq
    rw [not_not] at heq
    exact Or.inr ⟨by rw [heq], of_decide_eq_true h⟩

theorem compareScore_of_ratio {left right : NodeId × FeeFrac} (hl : 0 < left.2.size)
    (hr : 0 < right.2.size) (h : left.2.ratio < right.2.ratio) :
    Pool.compareScore left right = true := by
  have hne : left.2 ≠ right.2 := fun heq => h.ne (by rw [heq])
  rw [Pool.compareScore, if_pos hne, decide_eq_true_eq, FeeFrac.negSizeLt_iff hl hr]
  exact Prod.Lex.toLex_lt_toLex.2 (Or.inl h)

variable {heap : List (NodeId × FeeFrac)}

section
variable (hsizes : ∀ e ∈ heap, 0 < e.2.size)
include hsizes

theorem front?_eq_some {entry : NodeId × FeeFrac} (h : Pool.front? heap = some entry) :
    entry ∈ heap ∧ ∀ e ∈ heap, e.2.ratio ≤ entry.2.ratio := by
  unfold Pool.front? at h
  have hmem := List.mem_of_find?_eq_some h
  have hall := List.find?_some h
  rw [List.all_eq_true] at hall
  refine ⟨hmem, ?_⟩
  intro e he
  by_contra hlt
  rw [not_le] at hlt
  have := hall e he
  rw [compareScore_of_ratio (hsizes entry hmem) (hsizes e he) hlt] at this
  cases this

theorem front?_isSome (hne : heap ≠ []) : ∃ entry, Pool.front? heap = some entry := by
  cases hlast : last? heapKey heap with
  | none => exact absurd (last?_eq_none hlast) hne
  | some worst =>
    obtain ⟨hmem, hmax⟩ := last?_eq_some hlast
    rw [← Option.isSome_iff_exists, Pool.front?, List.find?_isSome]
    refine ⟨worst, hmem, List.all_eq_true.2 ?_⟩
    intro e he
    rw [Bool.not_eq_true', Bool.eq_false_iff]
    intro hlt
    exact (hmax e he).not_gt (heapKey_lt (hsizes worst hmem) (hsizes e he) hlt)

theorem threshold_spec :
    0 < (((Pool.front? heap).map Prod.snd).getD ⟨1, 1⟩).size ∧
      ∀ e ∈ heap, e.2.ratio ≤ (((Pool.front? heap).map Prod.snd).getD ⟨1, 1⟩).ratio := by
  cases hfront : Pool.front? heap with
  | none =>
    have hnil : heap = [] := by
      by_contra hne
      obtain ⟨entry, hentry⟩ := front?_isSome hsizes hne
      rw [hfront] at hentry
      cases hentry
    exact ⟨one_pos, by simp [hnil]⟩
  | some entry =>
    obtain ⟨hmem, hmax⟩ := front?_eq_some hsizes hfront
    exact ⟨hsizes entry hmem, hmax⟩

end

/-- The heap has the scores of its peers, among them all that exceed their share. -/
structure HeapFor (maxLat maxMem : ℕ) (s : Pool) (heap : List (NodeId × FeeFrac)) : Prop where
  nodup : (heap.map Prod.fst).Nodup
  scores : ∀ e ∈ heap, ∃ info, s.peerOrphanageInfo.lookup e.1 = some info ∧
    e.2 = info.dosScore maxLat maxMem
  covers : ∀ p, Exceeds maxLat maxMem s p → ∃ e ∈ heap, e.1 = p

theorem heapFor_dosPeers (s : Pool) : HeapFor maxLat maxMem s (s.dosPeers maxLat maxMem) := by
  refine ⟨?_, ?_, ?_⟩
  · refine List.Nodup.sublist (List.Sublist.map _ List.filter_sublist) ?_
    rw [List.map_map]
    exact s.peerOrphanageInfo.nodupKeys
  · intro e he
    obtain ⟨⟨p, info⟩, hentry, rfl⟩ := List.mem_map.1 (List.mem_filter.1 he).1
    exact ⟨info, Option.mem_def.1 (AList.mem_lookup_iff.2 hentry), by dsimp only⟩
  · intro p ⟨info, hinfo, hlt⟩
    refine ⟨(p, info.dosScore maxLat maxMem), List.mem_filter.2 ⟨?_, by simpa using hlt⟩, rfl⟩
    exact List.mem_map.2 ⟨⟨p, info⟩, AList.mem_lookup_iff.1 (Option.mem_def.2 hinfo), by dsimp only⟩

section Pop

variable {top : NodeId × FeeFrac}

theorem HeapFor.notMem_erase (hh : HeapFor maxLat maxMem s heap) (htop : top ∈ heap) :
    ∀ e ∈ heap.erase top, e.1 ≠ top.1 := by
  have hnodup := ((List.perm_cons_erase htop).map Prod.fst).nodup_iff.1 hh.nodup
  rw [List.map_cons, List.nodup_cons] at hnodup
  intro e he heq
  exact hnodup.1 (heq ▸ List.mem_map_of_mem he)

theorem HeapFor.mem_erase {e : NodeId × FeeFrac} (he : e ∈ heap) (hne : e.1 ≠ top.1) :
    e ∈ heap.erase top :=
  (List.mem_erase_of_ne (fun heq => hne (by rw [heq]))).2 he

theorem HeapFor.pushBack (hh : HeapFor maxLat maxMem s heap) (htop : top ∈ heap) (h : Totals t)
    (hothers : ∀ p ≠ top.1, t.peerOrphanageInfo.lookup p = s.peerOrphanageInfo.lookup p) :
    HeapFor maxLat maxMem t (t.pushBack maxLat maxMem top.1 (heap.erase top)) := by
  have hnot := hh.notMem_erase htop
  have hnodup : ((heap.erase top).map Prod.fst).Nodup :=
    hh.nodup.sublist (List.Sublist.map _ List.erase_sublist)
  have hscores : ∀ e ∈ heap.erase top, ∃ info, t.peerOrphanageInfo.lookup e.1 = some info ∧
      e.2 = info.dosScore maxLat maxMem := by
    intro e he
    rw [hothers e.1 (hnot e he)]
    exact hh.scores e (List.mem_of_mem_erase he)
  have hcovers : ∀ p ≠ top.1, Exceeds maxLat maxMem t p → ∃ e ∈ heap.erase top, e.1 = p := by
    intro p hp ⟨info, hinfo, hlt⟩
    obtain ⟨e, he, rfl⟩ := hh.covers p ⟨info, hothers p hp ▸ hinfo, hlt⟩
    exact ⟨e, HeapFor.mem_erase he hp, rfl⟩
  unfold Pool.pushBack
  cases hinfo : t.peerOrphanageInfo.lookup top.1 with
  | none =>
    refine ⟨hnodup, hscores, ?_⟩
    intro p hp
    refine hcovers p ?_ hp
    rintro rfl
    obtain ⟨info, hinfo', -⟩ := hp
    rw [hinfo] at hinfo'
    cases hinfo'
  | some info =>
    have hcount : info.countAnnouncements > 0 := by
      have hinfo' := h.info top.1
      rw [hinfo, infoOf] at hinfo'
      split at hinfo'
      · cases hinfo'
      · rename_i hne
        rw [Option.some.inj hinfo']
        exact List.length_pos_iff.2 hne
    simp only [if_pos hcount]
    refine ⟨?_, ?_, ?_⟩
    · rw [List.map_append, List.nodup_append]
      refine ⟨hnodup, List.nodup_singleton _, ?_⟩
      intro x hx y hy heq
      obtain ⟨e, he, rfl⟩ := List.mem_map.1 hx
      exact hnot e he (heq.trans (List.mem_singleton.1 hy))
    · intro e he
      rcases List.mem_append.1 he with he | he
      · exact hscores e he
      · rw [List.mem_singleton.1 he]
        exact ⟨info, hinfo, by dsimp only⟩
    · intro p hp
      by_cases hpt : p = top.1
      · exact ⟨_, List.mem_append_right _ (List.mem_singleton_self _), hpt.symm⟩
      · obtain ⟨e, he, hep⟩ := hcovers p hpt hp
        exact ⟨e, List.mem_append_left _ he, hep⟩

end Pop

theorem HeapFor.one_lt {e : NodeId × FeeFrac} (hallow : Allowed maxLat maxMem)
    (hh : HeapFor maxLat maxMem s heap) (he : e ∈ heap) :
    Exceeds maxLat maxMem s e.1 ↔ 1 < e.2.ratio := by
  obtain ⟨info, hinfo, hscore⟩ := hh.scores e he
  rw [Exceeds, hscore, one_lt_dosScore hallow, ← ratioLt_one_iff hallow]
  simp [hinfo]

theorem trimHeap_spec (hallow : Allowed maxLat lim.reservedUsagePerPeer)
    (erased : List Pool.Erasure) (fuel : ℕ) (h : Totals s)
    (hh : HeapFor maxLat lim.reservedUsagePerPeer s heap)
    (hshare : s.peers * maxLat ≤ lim.maxGlobalLatencyScore) (hneeds : s.needsTrim lim = true)
    (hfuel : s.orphans.length < fuel) :
    ∃ t es, Pool.trimHeap lim maxLat lim.reservedUsagePerPeer fuel heap s erased =
        some (t, erased ++ es) ∧ Erases s es t ∧ ¬t.needsTrim lim = true ∧
      ∀ e ∈ es, Exceeds maxLat lim.reservedUsagePerPeer e.before e.ann.announcer := by
  induction fuel generalizing s heap erased with
  | zero => exact absurd hfuel (Nat.not_lt_zero _)
  | succ fuel ih =>
    have hsizes : ∀ e ∈ heap, 0 < e.2.size := by
      intro e he
      obtain ⟨info, -, hscore⟩ := hh.scores e he
      exact hscore ▸ dosScore_size_pos hallow
    -- The front of the heap is the worst peer, and it exceeds its share.
    obtain ⟨p, hp⟩ := h.exists_exceeds hallow hshare hneeds
    obtain ⟨e, he, rfl⟩ := hh.covers p hp
    obtain ⟨worst, hfront⟩ := front?_isSome hsizes (List.ne_nil_of_mem he)
    obtain ⟨hworst, hmax⟩ := front?_eq_some hsizes hfront
    have hone : 1 < worst.2.ratio := ((hh.one_lt hallow he).1 hp).trans_le (hmax e he)
    have hexceeds := (hh.one_lt hallow hworst).2 hone
    obtain ⟨info, hinfo, hscore⟩ := hh.scores worst hworst
    have hratio : FeeFrac.RatioLt ⟨1, 1⟩ worst.2 := by
      rw [hscore] at hone ⊢
      rwa [ratioLt_one_iff hallow, ← one_lt_dosScore hallow]
    obtain ⟨hsize, hthreshold⟩ :=
      threshold_spec (fun e he => hsizes e (List.mem_of_mem_erase (b := worst) he))
    obtain ⟨t, es, hrun, herases, hes, hsome⟩ := trimPeer_spec hallow hsize erased
      s.orphans.length _ h (atPeer_lowerBound s worst.1) hshare (fun _ => hexceeds)
      (by
        intro p hpw hp
        obtain ⟨e, he, rfl⟩ := hh.covers p hp
        exact ((hh.one_lt hallow he).1 hp).trans_le
          (hthreshold e (HeapFor.mem_erase he hpw))) le_rfl
    have ht := herases.totals h
    rw [Pool.trimHeap]
    simp only [Option.bind_eq_bind, hfront, Option.bind_some, if_pos hratio, hinfo, hrun]
    by_cases hneeds' : t.needsTrim lim = true
    · have hlength : t.orphans.length < fuel := by
        have hlen := herases.length h
        have hpos := List.length_pos_iff.2 (hsome hneeds)
        omega
      have hothers : ∀ p ≠ worst.1,
          t.peerOrphanageInfo.lookup p = s.peerOrphanageInfo.lookup p := by
        intro p hp
        exact herases.lookup_eq h (fun e he heq => hp (heq ▸ (hes e he).1))
      obtain ⟨u, more, hrun', hmore, hdone, hmore'⟩ := ih (erased ++ es) ht
        (hh.pushBack hworst ht hothers)
        ((Nat.mul_le_mul_right maxLat (herases.peers_le h)).trans hshare) hneeds' hlength
      refine ⟨u, es ++ more, ?_, herases.append hmore, hdone, ?_⟩
      · rw [if_pos hneeds', hrun', List.append_assoc]
      · intro e he
        rcases List.mem_append.1 he with he | he
        · exact (hes e he).2
        · exact hmore' e he
    · exact ⟨t, es, by rw [if_neg hneeds'], herases, hneeds', fun e he => (hes e he).2⟩

end Tarcoin.Net.Orphanage
