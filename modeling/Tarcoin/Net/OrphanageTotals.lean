import Mathlib.Algebra.Order.BigOperators.Group.Finset
import Tarcoin.Net.Orphanage

/-! The cached totals are those of the announcements, once for each transaction and once for each
peer. -/
namespace Tarcoin.Net.Orphanage

open OrderedIndex Tarcoin.Util

variable {lim : Limits} {s t : Pool} {a b it : Announcement} {p : NodeId}

def Announcement.slot (a : Announcement) : Wtxid × NodeId := (a.tx.wtxid, a.announcer)

def Pool.from (s : Pool) (p : NodeId) : List Announcement :=
  s.orphans.filter (fun a => a.announcer = p)

/-- The statistics of a peer's announcements; a peer without announcements has none. -/
def infoOf (l : List Announcement) : Option PeerDoSInfo :=
  if l = [] then none
  else some ⟨(l.map Announcement.memUsage).sum, l.length, (l.map Announcement.latencyScore).sum⟩

def Pool.txs (s : Pool) : Finset Tx := (s.orphans.map Announcement.tx).toFinset

structure Totals (s : Pool) : Prop where
  slots : (s.orphans.map Announcement.slot).Nodup
  sequences : (s.orphans.map Announcement.entrySequence).Nodup
  below : ∀ a ∈ s.orphans, a.entrySequence < s.currentSequence
  coherent : ∀ a ∈ s.orphans, ∀ b ∈ s.orphans, a.tx.wtxid = b.tx.wtxid → a.tx = b.tx
  info : ∀ p, s.peerOrphanageInfo.lookup p = infoOf (s.from p)
  unique : s.uniqueOrphans = s.txs.card
  usage : s.uniqueOrphanUsage = ∑ tx ∈ s.txs, tx.weight
  scores : s.uniqueRoundedInputScores = ∑ tx ∈ s.txs, tx.vin.length / 10

theorem Pool.mem_from : a ∈ s.from p ↔ a ∈ s.orphans ∧ a.announcer = p := by
  simp [Pool.from]

theorem Pool.mem_txs {tx : Tx} : tx ∈ s.txs ↔ ∃ a ∈ s.orphans, a.tx = tx := by
  simp [Pool.txs]

namespace Totals

variable (h : Totals s)

include h

theorem nodup : s.orphans.Nodup := h.slots.of_map

theorem isUnique_iff (hit : it ∈ s.orphans) :
    s.isUnique it = true ↔ ∀ b ∈ s.orphans, b.tx = it.tx → b = it := by
  have hbetween : ∀ a b c : Announcement, byWtxidView a ≤ byWtxidView b →
      byWtxidView b ≤ byWtxidView c → a.tx.wtxid = c.tx.wtxid → b.tx.wtxid = c.tx.wtxid := by
    intro a b c hab hbc hac
    have hab' : a.tx.wtxid ≤ b.tx.wtxid := Prod.Lex.monotone_fst _ _ hab
    have hbc' : b.tx.wtxid ≤ c.tx.wtxid := Prod.Lex.monotone_fst _ _ hbc
    exact hbc'.antisymm (hac ▸ hab')
  rw [Pool.isUnique, Bool.and_eq_true]
  constructor
  · intro huniq b hb htx
    by_contra hne
    rcases neighbour byWtxidView hit hb hne with ⟨c, hc, hbc, hcit⟩ | ⟨c, hc, hitc, hcb⟩
    · have := hbetween b c it hbc hcit (by rw [htx])
      simp [hc, this] at huniq
    · have := hbetween it c b hitc hcb (by rw [htx])
      simp [hc, this, htx] at huniq
  · intro honly
    constructor
    · cases hnext : after? byWtxidView s.orphans it with
      | none => rfl
      | some next =>
        obtain ⟨hmem, hne, -⟩ := after?_eq_some hit h.nodup hnext
        have : next.tx.wtxid ≠ it.tx.wtxid :=
          fun hw => hne (honly next hmem (h.coherent next hmem it hit hw))
        simpa using this
    · cases hprev : before? byWtxidView s.orphans it with
      | none => rfl
      | some prev =>
        obtain ⟨hmem, hne, -⟩ := before?_eq_some hit hprev
        have : prev.tx.wtxid ≠ it.tx.wtxid :=
          fun hw => hne (honly prev hmem (h.coherent prev hmem it hit hw))
        simpa using this

theorem exists_other (hit : it ∈ s.orphans) (hshared : ¬s.isUnique it = true) :
    ∃ b ∈ s.orphans, b.tx = it.tx ∧ b ≠ it := by
  rw [h.isUnique_iff hit] at hshared
  push Not at hshared
  exact hshared

theorem info_eq (ha : a ∈ s.orphans) : s.peerOrphanageInfo.lookup a.announcer =
    some ⟨((s.from a.announcer).map Announcement.memUsage).sum, (s.from a.announcer).length,
      ((s.from a.announcer).map Announcement.latencyScore).sum⟩ := by
  have hne : s.from a.announcer ≠ [] := List.ne_nil_of_mem (Pool.mem_from.2 ⟨ha, rfl⟩)
  rw [h.info, infoOf, if_neg hne]

end Totals

/-! ## Taking an announcement out -/

theorem perm_cons_filter_ne {l : List Announcement} (hl : l.Nodup) (ha : a ∈ l) :
    l.Perm (a :: l.filter (fun b => b ≠ a)) := by
  have hnotMem : a ∉ l.filter (fun b => b ≠ a) := by simp
  rw [List.perm_ext_iff_of_nodup hl (List.nodup_cons.2 ⟨hnotMem, hl.filter _⟩)]
  intro b
  by_cases hb : b = a
  · simp [hb, ha]
  · simp [hb]

theorem infoOf_of_perm {l l' : List Announcement} (h : l.Perm l') : infoOf l = infoOf l' := by
  unfold infoOf
  simp only [h.length_eq, (h.map Announcement.memUsage).sum_eq,
    (h.map Announcement.latencyScore).sum_eq, ← List.length_eq_zero_iff]

theorem infoOf_cons (l : List Announcement) : ∃ info rest, infoOf (a :: l) = some info ∧
    info.subtract a = some rest ∧ rest.countAnnouncements = l.length ∧
    infoOf l = if rest.countAnnouncements = 0 then none else some rest := by
  let rest : PeerDoSInfo :=
    ⟨(l.map Announcement.memUsage).sum, l.length, (l.map Announcement.latencyScore).sum⟩
  refine ⟨rest.add a, rest, ?_, ?_, rfl, ?_⟩
  · simp [infoOf, rest, PeerDoSInfo.add, Nat.add_comm]
  · simp [rest, PeerDoSInfo.subtract, PeerDoSInfo.add]
  · simp [infoOf, rest]

/-- The orphanage without one of its announcements. -/
structure Removed (s : Pool) (it : Announcement) (t : Pool) : Prop where
  totals : Totals t
  orphans : t.orphans = s.orphans.filter (fun ann => ann ≠ it)

section
variable (h : t.orphans = s.orphans.filter (fun ann => ann ≠ it))
include h

theorem Pool.from_filter : t.from p = (s.from p).filter (fun ann => ann ≠ it) := by
  rw [Pool.from, h, List.filter_comm, Pool.from]

theorem Pool.txs_of_unique (hit : it ∈ s.orphans) (honly : ∀ b ∈ s.orphans, b.tx = it.tx → b = it) :
    it.tx ∉ t.txs ∧ s.txs = insert it.tx t.txs := by
  constructor
  · intro hmem
    obtain ⟨b, hb, htx⟩ := Pool.mem_txs.1 hmem
    rw [h, List.mem_filter] at hb
    exact absurd (honly b hb.1 htx) (by simpa using hb.2)
  · ext tx
    rw [Finset.mem_insert, Pool.mem_txs, Pool.mem_txs]
    constructor
    · intro ⟨b, hb, htx⟩
      by_cases hbit : b = it
      · exact Or.inl (by rw [← htx, hbit])
      · exact Or.inr ⟨b, by simp [h, hb, hbit], htx⟩
    · rintro (rfl | ⟨b, hb, htx⟩)
      · exact ⟨it, hit, rfl⟩
      · exact ⟨b, (List.mem_filter.1 (h ▸ hb)).1, htx⟩

theorem Pool.txs_of_shared (hb : b ∈ s.orphans) (hne : b ≠ it) (htx : b.tx = it.tx) :
    t.txs = s.txs := by
  ext tx
  rw [Pool.mem_txs, Pool.mem_txs]
  constructor
  · intro ⟨c, hc, hctx⟩
    exact ⟨c, (List.mem_filter.1 (h ▸ hc)).1, hctx⟩
  · intro ⟨c, hc, hctx⟩
    by_cases hcit : c = it
    · exact ⟨b, by simp [h, hb, hne], by rw [htx, ← hcit, hctx]⟩
    · exact ⟨c, by simp [h, hc, hcit], hctx⟩

end

theorem Totals.erase (h : Totals s) (hit : it ∈ s.orphans) :
    ∃ t, s.erase it = some t ∧ Removed s it t := by
  have hmine : it ∈ s.from it.announcer := Pool.mem_from.2 ⟨hit, rfl⟩
  have hnodup : (s.from it.announcer).Nodup := h.nodup.filter _
  have hperm := perm_cons_filter_ne hnodup hmine
  obtain ⟨info, rest, hinfo, hrest, hcount, hleft⟩ :=
    infoOf_cons (a := it) ((s.from it.announcer).filter (fun ann => ann ≠ it))
  have hlookup : s.peerOrphanageInfo.lookup it.announcer = some info := by
    rw [h.info, infoOf_of_perm hperm, hinfo]
  refine ⟨s.remove it rest, by rw [Pool.erase, hlookup, Option.bind_some, hrest, Option.map_some],
    ?_, rfl⟩
  set t : Pool := s.remove it rest with ht
  have horphans : t.orphans = s.orphans.filter (fun ann => ann ≠ it) := rfl
  have hsub : ∀ ann ∈ t.orphans, ann ∈ s.orphans := fun ann hann => (List.mem_filter.1 hann).1
  have hinfo' : ∀ p, t.peerOrphanageInfo.lookup p = infoOf (t.from p) := by
    intro p
    rw [Pool.from_filter horphans]
    by_cases hp : p = it.announcer
    · rw [hp, hleft]
      show AList.lookup it.announcer (if _ then _ else _) = _
      split
      · exact AList.lookup_erase _ _
      · exact AList.lookup_insert _
    · have hkept : (s.from p).filter (fun ann => ann ≠ it) = s.from p := by
        rw [List.filter_eq_self]
        intro ann hann
        have hne : ann ≠ it := fun heq => hp (by rw [← heq, (Pool.mem_from.1 hann).2])
        simpa using hne
      rw [hkept, ← h.info]
      show AList.lookup p (if _ then _ else _) = _
      split
      · exact AList.lookup_erase_ne hp
      · exact AList.lookup_insert_ne hp
  have htotals : t.uniqueOrphans = t.txs.card ∧ t.uniqueOrphanUsage = ∑ tx ∈ t.txs, tx.weight ∧
      t.uniqueRoundedInputScores = ∑ tx ∈ t.txs, tx.vin.length / 10 := by
    by_cases hunique : s.isUnique it = true
    · obtain ⟨hnew, htxs⟩ := Pool.txs_of_unique horphans hit ((h.isUnique_iff hit).1 hunique)
      have hone := h.unique
      have husage := h.usage
      have hscores := h.scores
      rw [htxs, Finset.card_insert_of_notMem hnew] at hone
      rw [htxs, Finset.sum_insert hnew] at husage hscores
      have hone' : t.uniqueOrphans = s.uniqueOrphans - 1 := by simp [ht, Pool.remove, hunique]
      have husage' : t.uniqueOrphanUsage = s.uniqueOrphanUsage - it.tx.weight := by
        simp [ht, Pool.remove, hunique, Announcement.memUsage]
      have hscores' : t.uniqueRoundedInputScores =
          s.uniqueRoundedInputScores - it.tx.vin.length / 10 := by
        simp [ht, Pool.remove, hunique, Announcement.latencyScore]
      omega
    · obtain ⟨b, hb, htx, hne⟩ := h.exists_other hit hunique
      rw [Pool.txs_of_shared horphans hb hne htx]
      simp [ht, Pool.remove, hunique, h.unique, h.usage, h.scores]
  exact ⟨h.slots.sublist (List.Sublist.map _ List.filter_sublist),
    h.sequences.sublist (List.Sublist.map _ List.filter_sublist),
    fun ann hann => h.below ann (hsub ann hann),
    fun ann hann other hother => h.coherent ann (hsub ann hann) other (hsub other hother),
    hinfo', htotals.1, htotals.2.1, htotals.2.2⟩

/-! ## A new announcement -/

theorem infoOf_append (l : List Announcement) :
    infoOf (l ++ [a]) = some (((infoOf l).getD ⟨0, 0, 0⟩).add a) := by
  by_cases hl : l = []
  · simp [hl, infoOf, PeerDoSInfo.add]
  · simp [hl, infoOf, PeerDoSInfo.add]

theorem Totals.haveTx_iff {tx : Tx} (hco : ∀ b ∈ s.orphans, b.tx.wtxid = tx.wtxid → b.tx = tx) :
    s.haveTx tx.wtxid = true ↔ tx ∈ s.txs := by
  rw [Pool.haveTx, List.any_eq_true, Pool.mem_txs]
  constructor
  · intro ⟨b, hb, hw⟩
    exact ⟨b, hb, hco b hb (by simpa using hw)⟩
  · intro ⟨b, hb, htx⟩
    exact ⟨b, hb, by simp [htx]⟩

/-- The orphanage with one more announcement, the first of its peer about the transaction. -/
structure Added (s : Pool) (tx : Tx) (peer : NodeId) (u : Pool) : Prop where
  fresh : ∀ b ∈ s.orphans, b.slot ≠ (tx.wtxid, peer)
  orphans : u.orphans = s.orphans ++ [⟨tx, peer, s.currentSequence, false⟩]
  sequence : u.currentSequence = s.currentSequence + 1
  info : u.peerOrphanageInfo = s.peerOrphanageInfo.insert peer
    (((s.peerOrphanageInfo.lookup peer).getD ⟨0, 0, 0⟩).add ⟨tx, peer, s.currentSequence, false⟩)

section
variable {u : Pool} {tx : Tx} {peer : NodeId}

theorem Pool.added (hadd : s.emplace tx peer = some t) :
    Added s tx peer (if !s.haveTx tx.wtxid then t.addUnique tx else t) := by
  unfold Pool.emplace at hadd
  split at hadd
  · cases hadd
  · rename_i hfree
    cases hadd
    refine ⟨?_, by split <;> rfl, by split <;> rfl, by split <;> rfl⟩
    intro b hb hslot
    exact hfree (List.any_eq_true.2 ⟨b, hb, by simpa [Announcement.slot] using hslot⟩)

theorem Added.txs (ha : Added s tx peer u) : u.txs = insert tx s.txs := by
  ext tx'
  simp [Pool.mem_txs, ha.orphans, or_comm, eq_comm]

theorem Added.mem (ha : Added s tx peer u) (hb : b ∈ u.orphans) :
    b ∈ s.orphans ∨ b = ⟨tx, peer, s.currentSequence, false⟩ := by
  simpa [ha.orphans] using hb

theorem Totals.added (h : Totals s)
    (hco : ∀ b ∈ s.orphans, b.tx.wtxid = tx.wtxid → b.tx = tx)
    (hnew : s.emplace tx peer = some t) :
    Totals (if !s.haveTx tx.wtxid then t.addUnique tx else t) := by
  have ha := Pool.added hnew
  have ht : t.uniqueOrphans = s.uniqueOrphans ∧ t.uniqueOrphanUsage = s.uniqueOrphanUsage ∧
      t.uniqueRoundedInputScores = s.uniqueRoundedInputScores := by
    unfold Pool.emplace at hnew
    split at hnew
    · cases hnew
    · simp [← Option.some.inj hnew]
  set u : Pool := if !s.haveTx tx.wtxid then t.addUnique tx else t with hu
  have htotals : u.uniqueOrphans = u.txs.card ∧ u.uniqueOrphanUsage = ∑ tx ∈ u.txs, tx.weight ∧
      u.uniqueRoundedInputScores = ∑ tx ∈ u.txs, tx.vin.length / 10 := by
    rw [ha.txs]
    by_cases hhave : s.haveTx tx.wtxid = true
    · rw [Finset.insert_eq_of_mem ((Totals.haveTx_iff hco).1 hhave), ← h.unique, ← h.usage,
        ← h.scores]
      simp [hu, hhave, ht]
    · have hnotMem : tx ∉ s.txs := fun hmem => hhave ((Totals.haveTx_iff hco).2 hmem)
      rw [Finset.card_insert_of_notMem hnotMem, Finset.sum_insert hnotMem,
        Finset.sum_insert hnotMem, ← h.unique, ← h.usage, ← h.scores]
      simp [hu, hhave, ht, Pool.addUnique, Nat.add_comm]
  have hinfo : ∀ p, u.peerOrphanageInfo.lookup p = infoOf (u.from p) := by
    intro p
    rw [ha.info, Pool.from, ha.orphans]
    by_cases hp : p = peer
    · rw [hp, h.info]
      simp [← infoOf_append, Pool.from]
    · rw [AList.lookup_insert_ne hp, h.info]
      simp [Ne.symm hp, Pool.from]
  refine ⟨?_, ?_, ?_, ?_, hinfo, htotals.1, htotals.2.1, htotals.2.2⟩
  · rw [ha.orphans, List.map_append, List.map_singleton, ← List.concat_eq_append,
      List.nodup_concat]
    refine ⟨?_, h.slots⟩
    intro hmem
    obtain ⟨b, hb, hslot⟩ := List.mem_map.1 hmem
    exact ha.fresh b hb hslot
  · rw [ha.orphans, List.map_append, List.map_singleton, ← List.concat_eq_append,
      List.nodup_concat]
    refine ⟨?_, h.sequences⟩
    intro hmem
    obtain ⟨b, hb, heq⟩ := List.mem_map.1 hmem
    exact (h.below b hb).ne heq
  · intro b hb
    rw [ha.sequence]
    rcases ha.mem hb with hb | rfl
    · exact (h.below b hb).trans (Nat.lt_succ_self _)
    · exact Nat.lt_succ_self _
  · intro b hb c hc hw
    rcases ha.mem hb with hb | rfl <;> rcases ha.mem hc with hc | rfl
    · exact h.coherent b hb c hc hw
    · exact hco b hb hw
    · exact (hco c hc hw.symm).symm
    · rfl

end

/-! ## A changed mark -/

section
variable (it) (reconsider : Bool)

theorem Pool.map_mark {β : Type} {g : Announcement → β}
    (hg : ∀ a, g { a with reconsider := reconsider } = g a) (l : List Announcement) :
    (l.map (fun ann => if ann = it then { ann with reconsider := reconsider } else ann)).map g =
      l.map g := by
  rw [List.map_map]
  refine List.map_congr_left ?_
  intro ann _
  rw [Function.comp_apply]
  split
  · exact hg ann
  · rfl

theorem Pool.txs_mark (s : Pool) : (s.mark it reconsider).txs = s.txs := by
  exact congrArg List.toFinset (Pool.map_mark it reconsider (fun _ => rfl) s.orphans)

theorem Totals.marked (h : Totals s) : Totals (s.mark it reconsider) := by
  have hkept {β : Type} {g : Announcement → β}
      (hg : ∀ a, g { a with reconsider := reconsider } = g a) :
      (s.mark it reconsider).orphans.map g = s.orphans.map g :=
    Pool.map_mark it reconsider hg s.orphans
  have hmem : ∀ {ann}, ann ∈ (s.mark it reconsider).orphans → ∃ b ∈ s.orphans, b.tx = ann.tx ∧
      b.entrySequence = ann.entrySequence := by
    intro ann hann
    have := List.mem_map_of_mem (f := fun a => (a.tx, a.entrySequence)) hann
    rw [hkept (fun _ => rfl), List.mem_map] at this
    simpa using this
  refine ⟨?_, ?_, ?_, ?_, ?_, ?_, ?_, ?_⟩
  · rw [hkept (fun _ => rfl)]
    exact h.slots
  · rw [hkept (fun _ => rfl)]
    exact h.sequences
  · intro ann hann
    obtain ⟨b, hb, -, hseq⟩ := hmem hann
    exact hseq ▸ h.below b hb
  · intro ann hann other hother hw
    obtain ⟨b, hb, htx, -⟩ := hmem hann
    obtain ⟨c, hc, htx', -⟩ := hmem hother
    rw [← htx, ← htx'] at hw ⊢
    exact h.coherent b hb c hc hw
  · intro p
    have hfrom : (s.mark it reconsider).from p = (s.from p).map
        (fun ann => if ann = it then { ann with reconsider := reconsider } else ann) := by
      rw [Pool.from, Pool.mark, List.filter_map]
      congr 1
      refine List.filter_congr ?_
      intro ann _
      by_cases hann : ann = it <;> simp [hann]
    rw [hfrom, infoOf, Pool.map_mark it reconsider (fun _ => rfl),
      Pool.map_mark it reconsider (fun _ => rfl), List.length_map]
    simp only [List.map_eq_nil_iff]
    exact h.info p
  · rw [Pool.txs_mark]
    exact h.unique
  · rw [Pool.txs_mark]
    exact h.usage
  · rw [Pool.txs_mark]
    exact h.scores

end

end Tarcoin.Net.Orphanage
