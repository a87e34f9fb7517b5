import Tarcoin.Foundations.FallibleRun
import Tarcoin.Net.OrphanageTrim

/-! Every step keeps the totals, so the limiting from any state ends within the limits. -/
namespace Tarcoin.Net.Orphanage

open FallibleRun OrderedIndex Tarcoin.Util

variable {lim : Limits} {known : Set Tx} {s t : Pool} {p : NodeId}

/-- The states of an orphanage, also those within a call. Transactions come from `known`. -/
inductive Reachable (known : Set Tx) : Pool → Prop
  | empty : Reachable known .empty
  | add {s t : Pool} {tx : Tx} (peer : NodeId) (hs : Reachable known s) (htx : tx ∈ known)
      (hadd : s.emplace tx peer = some t) :
      Reachable known (if !s.haveTx tx.wtxid then t.addUnique tx else t)
  | erase {s t : Pool} {it : Announcement} (hs : Reachable known s) (hit : it ∈ s.orphans)
      (herase : s.erase it = some t) : Reachable known t
  | mark {s : Pool} {it : Announcement} (hs : Reachable known s) (reconsider : Bool) :
      Reachable known (s.mark it reconsider)

namespace Reachable

theorem mem_known (hs : Reachable known s) : ∀ a ∈ s.orphans, a.tx ∈ known := by
  induction hs with
  | empty => simp [Pool.empty]
  | add _ _ htx hadd ih =>
    intro a ha
    rcases (Pool.added hadd).mem ha with ha | rfl
    · exact ih a ha
    · exact htx
  | @erase s t it _ _ herase ih =>
    obtain ⟨info, -, rfl⟩ := Option.map_eq_some_iff.1 herase
    exact fun a ha => ih a (List.mem_filter.1 ha).1
  | @mark s it _ reconsider ih =>
    intro a ha
    obtain ⟨b, hb, rfl⟩ := List.mem_map.1 ha
    split <;> exact ih b hb

theorem totals (hinj : Set.InjOn Tx.wtxid known) (hs : Reachable known s) : Totals s := by
  induction hs with
  | empty => exact ⟨by simp [Pool.empty], by simp [Pool.empty], by simp [Pool.empty],
      by simp [Pool.empty], fun p => rfl, rfl, rfl, rfl⟩
  | add _ hs htx hadd ih =>
    exact ih.added (fun b hb hw => hinj (hs.mem_known b hb) htx hw) hadd
  | erase _ hit herase ih => exact (ih.removed hit herase).totals
  | mark _ reconsider ih => exact ih.marked _ reconsider

end Reachable

theorem maxPeerLatencyScore_mul_le (lim : Limits) (s : Pool) :
    s.peers * s.maxPeerLatencyScore lim ≤ lim.maxGlobalLatencyScore :=
  calc s.peers * s.maxPeerLatencyScore lim
      ≤ max s.peers 1 * s.maxPeerLatencyScore lim := Nat.mul_le_mul_right _ (le_max_left _ _)
    _ ≤ lim.maxGlobalLatencyScore := Nat.mul_div_le _ _

theorem allowed_of_peers_le (hpeers : s.peers ≤ lim.maxGlobalLatencyScore) :
    Allowed (s.maxPeerLatencyScore lim) lim.reservedUsagePerPeer :=
  ⟨Nat.div_pos (max_le hpeers lim.latency_pos) (lt_max_of_lt_right one_pos),
    (Nat.div_le_self _ _).trans_lt lim.latency_lt, lim.usage_pos, lim.usage_lt⟩

theorem limitOrphans_spec (h : Totals s) (hpeers : s.peers ≤ lim.maxGlobalLatencyScore) :
    ∃ t erased, s.limitOrphans lim = some (t, erased) ∧ Erases s erased t ∧
      ¬t.needsTrim lim = true ∧
      ∀ e ∈ erased, Exceeds (s.maxPeerLatencyScore lim) lim.reservedUsagePerPeer e.before
        e.ann.announcer := by
  have hallow := allowed_of_peers_le hpeers
  by_cases hneeds : s.needsTrim lim = true
  · obtain ⟨t, erased, hrun, hspec⟩ := trimHeap_spec hallow [] (s.orphans.length + 1) h
      (heapFor_dosPeers s) (maxPeerLatencyScore_mul_le lim s) hneeds (Nat.lt_succ_self _)
    refine ⟨t, erased, ?_, hspec⟩
    rw [Pool.limitOrphans, if_pos hneeds, if_neg hallow.latency_pos.ne', hrun, List.nil_append]
  · exact ⟨s, [], by rw [Pool.limitOrphans, if_neg hneeds], .nil s, hneeds, by simp⟩

variable {erased : List Pool.Erasure} {maxLat maxMem : ℕ}

/-! ## The calls -/

theorem limitOrphans_erases (h : Totals s) (hrun : s.limitOrphans lim = some (t, erased)) :
    Erases s erased t := by
  by_cases hneeds : s.needsTrim lim = true
  · have hpeers : s.peers ≤ lim.maxGlobalLatencyScore := by
      by_contra hmany
      have hzero : s.maxPeerLatencyScore lim = 0 :=
        Nat.div_eq_of_lt (lt_max_of_lt_left (not_le.1 hmany))
      simp [Pool.limitOrphans, hneeds, hzero] at hrun
    obtain ⟨t', erased', hrun', herases, -⟩ := limitOrphans_spec h hpeers
    cases hrun.symm.trans hrun'
    exact herases
  · rw [Pool.limitOrphans, if_neg hneeds] at hrun
    cases hrun
    exact .nil s

theorem Erases.reachable (he : Erases s erased t) (hs : Reachable known s) : Reachable known t := by
  induction he with
  | nil => exact hs
  | cons hit herase _ ih => exact ih (hs.erase hit herase)

namespace Reachable

section
variable (hinj : Set.InjOn Tx.wtxid known) (hs : Reachable known s)
include hinj hs

theorem limited {α : Type} {f : Pool × List Pool.Erasure → α} {g : α → Pool} {r : α}
    (hf : ∀ q, g (f q) = q.1) (hlimit : (s.limitOrphans lim).map f = some r) :
    Reachable known (g r) := by
  obtain ⟨q, hrun, rfl⟩ := Option.map_eq_some_iff.1 hlimit
  rw [hf]
  exact (limitOrphans_erases (hs.totals hinj) hrun).reachable hs

theorem foldlM_erase {anns : List Announcement} (hanns : ∀ a ∈ anns, a ∈ s.orphans)
    (hnodup : anns.Nodup) (h : anns.foldlM Pool.erase s = some t) : Reachable known t := by
  induction anns generalizing s with
  | nil =>
    cases h
    exact hs
  | cons a rest ih =>
    obtain ⟨s₁, herase, h⟩ := Option.bind_eq_some_iff.1 h
    obtain ⟨ha, hrest⟩ := List.forall_mem_cons.1 hanns
    obtain ⟨hnotMem, hnodup⟩ := List.nodup_cons.1 hnodup
    refine ih (hs.erase ha herase) (fun b hb => ?_) hnodup h
    rw [((hs.totals hinj).removed ha herase).orphans, List.mem_filter, decide_eq_true_eq]
    exact ⟨hrest b hb, fun hba => hnotMem (hba ▸ hb)⟩

theorem foldlM_erase_filter {κ : Type} [LinearOrder κ] {key : Announcement → κ}
    {p : Announcement → Bool} (h : ((view key s.orphans).filter p).foldlM Pool.erase s = some t) :
    Reachable known t := by
  have hnodup : (view key s.orphans).Nodup := view_perm.nodup_iff.2 (hs.totals hinj).nodup
  exact hs.foldlM_erase hinj (fun a ha => mem_view.1 (List.mem_of_mem_filter ha))
    (hnodup.filter p) h

omit hinj in
theorem addChild {draw : Wtxid → ℕ} {wtxid : Wtxid} (h : s.addChild draw wtxid = some t) :
    Reachable known t := by
  simp only [Pool.addChild] at h
  split_ifs at h with hmarked
  · cases h
    exact hs
  · obtain ⟨it, -, h⟩ := Option.bind_eq_some_iff.1 h
    split_ifs at h
    cases h
    exact hs.mark true

/-- What a call leaves is reachable by the steps within it. -/
theorem call {c : Call} (htx : ∀ tx peer, c = .addTx tx peer → tx ∈ known)
    (h : s.call lim c = some t) : Reachable known t := by
  cases c with
  | addTx tx peer =>
    obtain ⟨r, hadd, rfl⟩ := Option.map_eq_some_iff.1 h
    rw [Pool.addTx] at hadd
    by_cases hweight : tx.weight > maxStandardTxWeight
    · rw [if_pos hweight] at hadd
      cases hadd
      exact hs
    · rw [if_neg hweight] at hadd
      cases hemplace : s.emplace tx peer with
      | none =>
        rw [hemplace] at hadd
        cases hadd
        exact hs
      | some u =>
        rw [hemplace] at hadd
        obtain ⟨-, hlimit⟩ := Option.ite_none_right_eq_some.1 hadd
        have hu := hs.add peer (htx tx peer rfl) hemplace
        exact hu.limited (g := Prod.fst) hinj (fun _ => rfl) hlimit
  | addAnnouncer wtxid peer =>
    obtain ⟨r, hadd, rfl⟩ := Option.map_eq_some_iff.1 h
    rw [Pool.addAnnouncer] at hadd
    cases hof : s.announcementsOf wtxid with
    | nil =>
      rw [hof] at hadd
      cases hadd
      exact hs
    | cons it rest =>
      have hit : it ∈ s.orphans :=
        mem_view.1 (List.mem_of_mem_filter (hof ▸ List.mem_cons_self : it ∈ s.announcementsOf wtxid))
      have hhave : s.haveTx it.tx.wtxid = true := List.any_eq_true.2 ⟨it, hit, by simp⟩
      cases hemplace : s.emplace it.tx peer with
      | none =>
        simp only [hof, hemplace] at hadd
        cases hadd
        exact hs
      | some u =>
        simp only [hof, hemplace] at hadd
        obtain ⟨-, hlimit⟩ := Option.ite_none_left_eq_some.1 hadd
        have hu := hs.add peer (hs.mem_known it hit) hemplace
        rw [hhave] at hu
        exact limited (g := Prod.fst) hinj hu (fun _ => rfl) hlimit
  | eraseTx wtxid =>
    obtain ⟨r, herase, rfl⟩ := Option.map_eq_some_iff.1 h
    obtain ⟨u, hu, hlimit⟩ := Option.bind_eq_some_iff.1 herase
    exact (hs.foldlM_erase_filter hinj hu).limited (g := Prod.fst) hinj (fun _ => rfl) hlimit
  | eraseForPeer peer =>
    rw [Pool.call, Pool.eraseForPeer] at h
    split_ifs at h
    · cases h
      exact hs
    · obtain ⟨u, hu, hlimit⟩ := Option.bind_eq_some_iff.1 h
      obtain ⟨-, hlimit⟩ := Option.ite_none_right_eq_some.1 hlimit
      exact (hs.foldlM_erase_filter hinj hu).limited (g := id) hinj (fun _ => rfl) hlimit
  | eraseForBlock inputs =>
    rw [Pool.call, Pool.eraseForBlock] at h
    by_cases hnone : s.orphans = []
    · rw [if_pos hnone] at h
      cases h
      exact hs
    · rw [if_neg hnone] at h
      obtain ⟨u, hu, hlimit⟩ := Option.bind_eq_some_iff.1 h
      obtain ⟨-, hlimit⟩ := Option.ite_none_right_eq_some.1 hlimit
      have hreach := foldlM_invariant (fun _ _ _ _ hs => hs.foldlM_erase_filter hinj) hs hu
      exact limited (g := id) hinj hreach (fun _ => rfl) hlimit
  | addChildrenToWorkSet txid vout draw =>
    refine foldlM_invariant (P := Reachable known) (fun u n u' _ hu hmark => ?_) hs h
    exact foldlM_invariant (fun _ _ _ _ hs => hs.addChild) hu hmark
  | getTxToReconsider peer =>
    cases h
    rw [Pool.getTxToReconsider]
    cases lowerBound? byPeerView s.orphans (toLex (peer, toLex (true, 0))) with
    | none => exact hs
    | some it =>
      by_cases hready : it.announcer = peer ∧ it.reconsider
      · simp only [if_pos hready]
        exact hs.mark false
      · simp only [if_neg hready]
        exact hs

end

/-- Calls from the empty orphanage lead to reachable states, of the transactions they bring. -/
theorem calls {calls : List Call} (hinj : Set.InjOn Tx.wtxid {tx | ∃ peer, .addTx tx peer ∈ calls})
    (h : calls.foldlM (Pool.call lim) .empty = some s) :
    Reachable {tx | ∃ peer, .addTx tx peer ∈ calls} s := by
  refine foldlM_invariant (fun u c u' hc hu => ?_) .empty h
  exact hu.call hinj (fun tx peer hadd => ⟨peer, hadd ▸ hc⟩)

end Reachable

/-! ## Limiting in every state -/

/-- The greater of the fractions of what the peer is allowed, by its announcements. -/
def Pool.dosRatio (s : Pool) (maxLat maxMem : ℕ) (p : NodeId) : ℚ :=
  max (s.latencyFrom p / maxLat) (s.usageFrom p / maxMem)

theorem one_lt_dosRatio_iff (hallow : Allowed maxLat maxMem) (h : Totals s) :
    1 < s.dosRatio maxLat maxMem p ↔ Exceeds maxLat maxMem s p := by
  have hlat : (0 : ℚ) < maxLat := by exact_mod_cast hallow.latency_pos
  have hmem : (0 : ℚ) < maxMem := by exact_mod_cast hallow.memory_pos
  rw [exceeds_iff hallow h, Pool.dosRatio, lt_max_iff, lt_div_iff₀ hlat, lt_div_iff₀ hmem,
    one_mul, one_mul, Nat.cast_lt, Nat.cast_lt]

theorem Erases.before (he : Erases s erased t) (h : Totals s) :
    ∀ e ∈ erased, Totals e.before ∧ e.before.orphans.Sublist s.orphans := by
  induction he with
  | nil => simp
  | cons hit herase _ ih =>
    have hr := h.removed hit herase
    refine List.forall_mem_cons.2 ⟨⟨h, List.Sublist.refl _⟩, ?_⟩
    intro e he
    obtain ⟨htotals, hsub⟩ := ih hr.totals e he
    refine ⟨htotals, hsub.trans ?_⟩
    rw [hr.orphans]
    exact List.filter_sublist

theorem dosRatio_mono (hsub : t.orphans.Sublist s.orphans) :
    t.dosRatio maxLat maxMem p ≤ s.dosRatio maxLat maxMem p := by
  have hsum : ∀ f : Announcement → ℕ, ((t.from p).map f).sum ≤ ((s.from p).map f).sum := by
    intro f
    exact ((hsub.filter _).map f).sum_le_sum (fun _ _ => Nat.zero_le _)
  have hlat : (t.latencyFrom p : ℚ) ≤ s.latencyFrom p := by
    exact_mod_cast hsum Announcement.latencyScore
  have hmem : (t.usageFrom p : ℚ) ≤ s.usageFrom p := by
    exact_mod_cast hsum Announcement.memUsage
  exact max_le_max (div_le_div_of_nonneg_right hlat (Nat.cast_nonneg _))
    (div_le_div_of_nonneg_right hmem (Nat.cast_nonneg _))

/-- In every state with no more peers than the latency limit the limiting ends within both
limits, no assertion fails, and every announcement is taken from a peer that uses more than its
share when it loses it. A peer within its share keeps all its announcements. -/
theorem limitOrphans_run (lim : Limits) (known : Set Tx) (hinj : Set.InjOn Tx.wtxid known)
    (s : Pool) (hs : Reachable known s) (hpeers : s.peers ≤ lim.maxGlobalLatencyScore) :
    ∃ t erased, s.limitOrphans lim = some (t, erased) ∧ Erases s erased t ∧
      t.totalLatencyScore ≤ lim.maxGlobalLatencyScore ∧
      t.totalOrphanUsage ≤ t.maxGlobalUsage lim ∧
      (∀ e ∈ erased, 1 < e.before.dosRatio (s.maxPeerLatencyScore lim) lim.reservedUsagePerPeer
        e.ann.announcer) ∧
      ∀ a ∈ s.orphans, s.dosRatio (s.maxPeerLatencyScore lim) lim.reservedUsagePerPeer
        a.announcer ≤ 1 → a ∈ t.orphans := by
  have h := hs.totals hinj
  have hallow := allowed_of_peers_le hpeers
  obtain ⟨t, erased, hrun, herases, hdone, hscores⟩ := limitOrphans_spec h hpeers
  rw [Pool.needsTrim, decide_eq_true_eq, not_or, not_lt, not_lt] at hdone
  have hover : ∀ e ∈ erased, 1 < e.before.dosRatio (s.maxPeerLatencyScore lim)
      lim.reservedUsagePerPeer e.ann.announcer := by
    intro e he
    exact (one_lt_dosRatio_iff hallow (herases.before h e he).1).2 (hscores e he)
  refine ⟨t, erased, hrun, herases, hdone.1, hdone.2, hover, ?_⟩
  intro a ha hshare
  refine (herases.mem_iff h).2 ⟨ha, ?_⟩
  rintro e he rfl
  exact ((hover e he).trans_le (dosRatio_mono (herases.before h e he).2)).not_ge hshare

/-- A peer announces two transactions and another one, where there is room for two. -/
theorem limitOrphans_run_two_peers :
    let lim : Limits := ⟨2, 1000, by decide, by decide, by decide, by decide⟩
    let known : Set Tx := {⟨1, 400, [(7, 0)]⟩, ⟨2, 400, [(7, 1)]⟩, ⟨3, 400, [(8, 0)]⟩}
    ∃ s, Reachable known s ∧ s.peers = 2 ∧ s.needsTrim lim = true ∧
      ∃ t erased, s.limitOrphans lim = some (t, erased) ∧ Erases s erased t ∧
        t.totalLatencyScore ≤ lim.maxGlobalLatencyScore ∧
        t.totalOrphanUsage ≤ t.maxGlobalUsage lim ∧
        (∀ e ∈ erased, 1 < e.before.dosRatio (s.maxPeerLatencyScore lim) lim.reservedUsagePerPeer
          e.ann.announcer) ∧
        ∀ a ∈ s.orphans, s.dosRatio (s.maxPeerLatencyScore lim) lim.reservedUsagePerPeer
          a.announcer ≤ 1 → a ∈ t.orphans := by
  intro lim known
  have hinj : Set.InjOn Tx.wtxid known := by
    intro a ha b hb hw
    rcases ha with rfl | rfl | rfl <;> rcases hb with rfl | rfl | rfl <;> simp_all
  have h₁ : (⟨1, 400, [(7, 0)]⟩ : Tx) ∈ known := by simp [known]
  have h₂ : (⟨2, 400, [(7, 1)]⟩ : Tx) ∈ known := by simp [known]
  have h₃ : (⟨3, 400, [(8, 0)]⟩ : Tx) ∈ known := by simp [known]
  have hs := ((Reachable.empty.add 5 h₁ rfl).add 5 h₂ rfl).add 6 h₃ rfl
  exact ⟨_, hs, rfl, rfl, limitOrphans_run lim known hinj _ hs (by decide)⟩

end Tarcoin.Net.Orphanage
