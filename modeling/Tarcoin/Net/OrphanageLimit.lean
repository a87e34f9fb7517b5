import Mathlib.Algebra.BigOperators.Group.Finset.Piecewise
import Mathlib.Algebra.Group.Action.Defs
import Tarcoin.Net.OrphanageTotals

/-! While a limit is exceeded some peer uses more than its share, and only such a peer loses
announcements. -/
namespace Tarcoin.Net.Orphanage

open OrderedIndex Tarcoin.Util

variable {lim : Limits} {s t : Pool} {a b it : Announcement} {p : NodeId} {maxLat maxMem : ℕ}

/-! ## Sums over the peers -/

theorem sum_txs_le (f : Tx → ℕ) (l : List Announcement) :
    ∑ tx ∈ (l.map Announcement.tx).toFinset, f tx ≤ (l.map (fun ann => f ann.tx)).sum := by
  induction l with
  | nil => simp
  | cons a l ih =>
    rw [List.map_cons, List.toFinset_cons, List.map_cons]
    by_cases ha : a.tx ∈ (l.map Announcement.tx).toFinset
    · rw [Finset.insert_eq_of_mem ha]
      exact ih.trans (Nat.le_add_left _ _)
    · rw [Finset.sum_insert ha]
      exact Nat.add_le_add_left ih _

def Pool.peerSet (s : Pool) : Finset NodeId := s.peerOrphanageInfo.keys.toFinset

theorem Pool.card_peerSet (s : Pool) : s.peerSet.card = s.peers := by
  rw [Pool.peerSet, List.toFinset_card_of_nodup s.peerOrphanageInfo.keys_nodup, Pool.peers,
    AList.keys, List.keys, List.length_map]

theorem Pool.mem_peerSet : p ∈ s.peerSet ↔ ∃ info, s.peerOrphanageInfo.lookup p = some info := by
  rw [Pool.peerSet, List.mem_toFinset, ← AList.mem_keys, ← AList.lookup_isSome,
    Option.isSome_iff_exists]

theorem Totals.mem_peerSet (h : Totals s) (ha : a ∈ s.orphans) : a.announcer ∈ s.peerSet :=
  Pool.mem_peerSet.2 ⟨_, h.info_eq ha⟩

theorem sum_by_peer (f : Announcement → ℕ) {peers : Finset NodeId} {l : List Announcement}
    (hl : ∀ ann ∈ l, ann.announcer ∈ peers) :
    (l.map f).sum = ∑ p ∈ peers, ((l.filter (fun ann => ann.announcer = p)).map f).sum := by
  induction l with
  | nil => simp
  | cons a l ih =>
    have ha : a.announcer ∈ peers := hl a List.mem_cons_self
    have hsplit : ∀ p, (((a :: l).filter (fun ann => ann.announcer = p)).map f).sum =
        (if a.announcer = p then f a else 0) +
          ((l.filter (fun ann => ann.announcer = p)).map f).sum := by
      intro p
      by_cases hp : a.announcer = p <;> simp [hp]
    rw [List.map_cons, List.sum_cons, ih (fun ann hann => hl ann (List.mem_cons_of_mem a hann)),
      Finset.sum_congr rfl (fun p _ => hsplit p), Finset.sum_add_distrib, Finset.sum_ite_eq,
      if_pos ha]

def Pool.latencyFrom (s : Pool) (p : NodeId) : ℕ :=
  ((s.from p).map Announcement.latencyScore).sum

def Pool.usageFrom (s : Pool) (p : NodeId) : ℕ := ((s.from p).map Announcement.memUsage).sum

theorem Totals.usage_le (h : Totals s) :
    s.totalOrphanUsage ≤ ∑ p ∈ s.peerSet, s.usageFrom p := by
  calc s.totalOrphanUsage = ∑ tx ∈ s.txs, tx.weight := h.usage
    _ ≤ (s.orphans.map Announcement.memUsage).sum := sum_txs_le Tx.weight s.orphans
    _ = ∑ p ∈ s.peerSet, s.usageFrom p := sum_by_peer _ (fun _ hann => h.mem_peerSet hann)

theorem Totals.latency_le (h : Totals s) :
    s.totalLatencyScore ≤ ∑ p ∈ s.peerSet, s.latencyFrom p := by
  have hscores : ∀ l : List Announcement, (l.map Announcement.latencyScore).sum =
      (l.map (fun ann => ann.tx.vin.length / 10)).sum + l.length := by
    intro l
    induction l with
    | nil => rfl
    | cons a l ih =>
      simp only [List.map_cons, List.sum_cons, ih, List.length_cons, Announcement.latencyScore]
      omega
  calc s.totalLatencyScore = ∑ tx ∈ s.txs, tx.vin.length / 10 + s.orphans.length := by
        rw [Pool.totalLatencyScore, h.scores]
    _ ≤ (s.orphans.map (fun ann => ann.tx.vin.length / 10)).sum + s.orphans.length :=
        Nat.add_le_add_right (sum_txs_le (fun tx => tx.vin.length / 10) s.orphans) _
    _ = (s.orphans.map Announcement.latencyScore).sum := (hscores s.orphans).symm
    _ = ∑ p ∈ s.peerSet, s.latencyFrom p := sum_by_peer _ (fun _ hann => h.mem_peerSet hann)

/-! ## Scores -/

def Exceeds (maxLat maxMem : ℕ) (s : Pool) (p : NodeId) : Prop :=
  ∃ info, s.peerOrphanageInfo.lookup p = some info ∧
    FeeFrac.RatioLt ⟨1, 1⟩ (info.dosScore maxLat maxMem)

/-- What a peer is allowed: both bounds are positive signed words. -/
structure Allowed (maxLat maxMem : ℕ) : Prop where
  latency_pos : 0 < maxLat
  latency_lt : maxLat < 2 ^ 31
  memory_pos : 0 < maxMem
  memory_lt : maxMem < 2 ^ 31

section Scores

variable (hallow : Allowed maxLat maxMem) {info : PeerDoSInfo}

include hallow

theorem dosScore_eq : info.dosScore maxLat maxMem =
    if FeeFrac.NegSizeLt ⟨info.totalLatencyScore, maxLat⟩ ⟨info.totalUsage, maxMem⟩ then
      ⟨info.totalUsage, maxMem⟩
    else ⟨info.totalLatencyScore, maxLat⟩ := by
  have hlat := hallow.latency_lt
  have hmem := hallow.memory_lt
  simp only [PeerDoSInfo.dosScore]
  rw [FeeFrac.of_eq (by omega) (by omega), FeeFrac.of_eq (by omega) (by omega)]

theorem dosScore_size_pos : 0 < (info.dosScore maxLat maxMem).size := by
  have hlat : (0 : ℤ) < maxLat := by exact_mod_cast hallow.latency_pos
  have hmem : (0 : ℤ) < maxMem := by exact_mod_cast hallow.memory_pos
  rw [dosScore_eq hallow]
  split
  · exact hmem
  · exact hlat

theorem one_lt_dosScore : 1 < (info.dosScore maxLat maxMem).ratio ↔
    maxLat < info.totalLatencyScore ∨ maxMem < info.totalUsage := by
  have hlat : (0 : ℤ) < maxLat := by exact_mod_cast hallow.latency_pos
  have hmem : (0 : ℤ) < maxMem := by exact_mod_cast hallow.memory_pos
  have hone : ∀ (n m : ℕ), (0 : ℤ) < m → (1 < (FeeFrac.mk n m).ratio ↔ m < n) := by
    intro n m hm
    rw [FeeFrac.one_lt_ratio_iff hm]
    exact Nat.cast_lt
  rw [dosScore_eq hallow, ← hone _ _ hlat, ← hone _ _ hmem]
  split
  · rename_i hlt
    rw [FeeFrac.negSizeLt_iff hlat hmem] at hlt
    have hle := Prod.Lex.monotone_fst _ _ hlt.le
    exact ⟨Or.inr, fun h => h.elim (fun h => h.trans_le hle) id⟩
  · rename_i hge
    rw [FeeFrac.negSizeLt_iff hlat hmem, not_lt] at hge
    have hle := Prod.Lex.monotone_fst _ _ hge
    exact ⟨Or.inl, fun h => h.elim id (fun h => h.trans_le hle)⟩

theorem ratioLt_one_iff : FeeFrac.RatioLt ⟨1, 1⟩ (info.dosScore maxLat maxMem) ↔
    maxLat < info.totalLatencyScore ∨ maxMem < info.totalUsage := by
  rw [FeeFrac.ratioLt_iff one_pos (dosScore_size_pos hallow), ← one_lt_dosScore hallow]
  simp [FeeFrac.ratio]

theorem exceeds_iff (h : Totals s) :
    Exceeds maxLat maxMem s p ↔ maxLat < s.latencyFrom p ∨ maxMem < s.usageFrom p := by
  rw [Exceeds, h.info p, infoOf]
  by_cases hp : s.from p = []
  · simp [hp, Pool.latencyFrom, Pool.usageFrom]
  · simp [hp, ratioLt_one_iff hallow, Pool.latencyFrom, Pool.usageFrom]

end Scores

/-- While a limit is exceeded, so is some peer's share, also with fewer peers than at the start. -/
theorem Totals.exists_exceeds (h : Totals s) (hallow : Allowed maxLat lim.reservedUsagePerPeer)
    (hshare : s.peers * maxLat ≤ lim.maxGlobalLatencyScore) (hneeds : s.needsTrim lim = true) :
    ∃ p, Exceeds maxLat lim.reservedUsagePerPeer s p := by
  by_contra hnone
  push Not at hnone
  have hwithin : ∀ p, s.latencyFrom p ≤ maxLat ∧ s.usageFrom p ≤ lim.reservedUsagePerPeer := by
    intro p
    have hp := hnone p
    rw [exceeds_iff hallow h, not_or, not_lt, not_lt] at hp
    exact hp
  have hlatency : s.totalLatencyScore ≤ lim.maxGlobalLatencyScore :=
    calc s.totalLatencyScore ≤ ∑ p ∈ s.peerSet, s.latencyFrom p := h.latency_le
      _ ≤ s.peerSet.card • maxLat := Finset.sum_le_card_nsmul _ _ _ (fun p _ => (hwithin p).1)
      _ = s.peers * maxLat := by rw [Pool.card_peerSet, smul_eq_mul]
      _ ≤ lim.maxGlobalLatencyScore := hshare
  have husage : s.totalOrphanUsage ≤ s.maxGlobalUsage lim :=
    calc s.totalOrphanUsage ≤ ∑ p ∈ s.peerSet, s.usageFrom p := h.usage_le
      _ ≤ s.peerSet.card • lim.reservedUsagePerPeer :=
          Finset.sum_le_card_nsmul _ _ _ (fun p _ => (hwithin p).2)
      _ = lim.reservedUsagePerPeer * s.peers := by
          rw [Pool.card_peerSet, smul_eq_mul, Nat.mul_comm]
      _ ≤ s.maxGlobalUsage lim := Nat.mul_le_mul_left _ (le_max_left _ _)
  rw [Pool.needsTrim, decide_eq_true_eq] at hneeds
  exact hneeds.elim hlatency.not_gt husage.not_gt

/-! ## Erasing several announcements -/

/-- The orphanage goes from `s` to `t` by these erasures. -/
inductive Erases : Pool → List Pool.Erasure → Pool → Prop
  | nil (s : Pool) : Erases s [] s
  | cons {s t u : Pool} {it : Announcement} {erased : List Pool.Erasure} (hit : it ∈ s.orphans)
      (herase : s.erase it = some t) (hrest : Erases t erased u) : Erases s (⟨s, it⟩ :: erased) u

theorem Totals.removed (h : Totals s) (hit : it ∈ s.orphans) (herase : s.erase it = some t) :
    Removed s it t := by
  obtain ⟨t', ht', hremoved⟩ := h.erase hit
  rw [herase, Option.some.injEq] at ht'
  exact ht' ▸ hremoved

theorem Removed.from_eq (hr : Removed s it t) (hp : p ≠ it.announcer) :
    t.from p = s.from p := by
  rw [Pool.from_filter hr.orphans, List.filter_eq_self]
  intro ann hann
  have hne : ann ≠ it := fun heq => hp (by rw [← heq, (Pool.mem_from.1 hann).2])
  simpa using hne

theorem Removed.lookup_eq (h : Totals s) (hr : Removed s it t) (hp : p ≠ it.announcer) :
    t.peerOrphanageInfo.lookup p = s.peerOrphanageInfo.lookup p := by
  rw [hr.totals.info, h.info, hr.from_eq hp]

theorem Totals.mem_peerSet_iff (h : Totals s) :
    p ∈ s.peerSet ↔ ∃ ann ∈ s.orphans, ann.announcer = p := by
  constructor
  · intro hp
    obtain ⟨info, hinfo⟩ := Pool.mem_peerSet.1 hp
    rw [h.info, infoOf] at hinfo
    split at hinfo
    · cases hinfo
    · rename_i hne
      obtain ⟨ann, hann⟩ := List.exists_mem_of_ne_nil _ hne
      exact ⟨ann, Pool.mem_from.1 hann⟩
  · rintro ⟨ann, hann, rfl⟩
    exact h.mem_peerSet hann

theorem Removed.peers_le (h : Totals s) (hr : Removed s it t) : t.peers ≤ s.peers := by
  rw [← Pool.card_peerSet, ← Pool.card_peerSet]
  refine Finset.card_le_card ?_
  intro p hp
  obtain ⟨ann, hann, hann'⟩ := hr.totals.mem_peerSet_iff.1 hp
  rw [hr.orphans, List.mem_filter] at hann
  exact h.mem_peerSet_iff.2 ⟨ann, hann.1, hann'⟩

theorem Removed.length (h : Totals s) (hit : it ∈ s.orphans) (hr : Removed s it t) :
    t.orphans.length + 1 = s.orphans.length := by
  rw [hr.orphans, (perm_cons_filter_ne h.nodup hit).length_eq, List.length_cons]

namespace Erases

variable {erased : List Pool.Erasure}

section
variable (he : Erases s erased t)
include he

theorem totals (h : Totals s) : Totals t := by
  induction he with
  | nil => exact h
  | cons hit herase _ ih => exact ih (h.removed hit herase).totals

theorem peers_le (h : Totals s) : t.peers ≤ s.peers := by
  induction he with
  | nil => exact le_rfl
  | cons hit herase _ ih =>
    have hr := h.removed hit herase
    exact (ih hr.totals).trans (hr.peers_le h)

theorem length (h : Totals s) : t.orphans.length + erased.length = s.orphans.length := by
  induction he with
  | nil => rfl
  | cons hit herase _ ih =>
    have hr := h.removed hit herase
    have := ih hr.totals
    have := hr.length h hit
    rw [List.length_cons]
    omega

theorem lookup_eq (h : Totals s) (hp : ∀ e ∈ erased, e.ann.announcer ≠ p) :
    t.peerOrphanageInfo.lookup p = s.peerOrphanageInfo.lookup p := by
  induction he with
  | nil => rfl
  | cons hit herase _ ih =>
    have hr := h.removed hit herase
    rw [ih hr.totals (fun e he => hp e (List.mem_cons_of_mem _ he)),
      hr.lookup_eq h (hp _ List.mem_cons_self).symm]

theorem mem_iff (h : Totals s) : a ∈ t.orphans ↔ a ∈ s.orphans ∧ ∀ e ∈ erased, e.ann ≠ a := by
  induction he with
  | nil => simp
  | cons hit herase _ ih =>
    have hr := h.removed hit herase
    rw [ih hr.totals, hr.orphans, List.mem_filter, decide_eq_true_eq, List.forall_mem_cons,
      and_assoc, ne_comm]

theorem append {u : Pool} {more : List Pool.Erasure} (hmore : Erases t more u) :
    Erases s (erased ++ more) u := by
  induction he with
  | nil => exact hmore
  | cons hit herase _ ih => exact .cons hit herase (ih hmore)

end

end Erases

end Tarcoin.Net.Orphanage
