import Tarcoin.Foundations.PairTopology
import Tarcoin.Policy.Truc

/-! The TRUC checks look at direct relatives, and the pool keeps its topology. -/
namespace Tarcoin
open FiniteReach PairTopology Relation

variable {txid : Transaction → Uint256} {pool : Mempool txid} {tx p c : Transaction}

def Mempool.members (pool : Mempool txid) : Set Transaction := {tx | tx ∈ pool.entries}

/-- Every transaction of version 3 has at most one ancestor and one descendant besides itself in
the pool, and parents and children agree on being of version 3. -/
def TrucConsistent (pool : Mempool txid) : Prop :=
  Paired (Spends txid) Transaction.isTruc pool.members

section Pool

theorem mem_getParents : p ∈ pool.getParents tx ↔ p ∈ pool.entries ∧ Spends txid p tx := by
  simp [Mempool.getParents]

theorem eq_of_getAncestorCount_le (h : pool.getAncestorCount c ≤ 1) (hc : c ∈ pool.entries)
    (hp : p ∈ pool.entries) (hspends : Spends txid p c) : p = c :=
  eq_of_length_reach_le h hc (.single ⟨hspends, hc, hp⟩)

theorem eq_of_getDescendantCount_le (h : pool.getDescendantCount p ≤ 1) (hp : p ∈ pool.entries)
    (hc : c ∈ pool.entries) (hspends : Spends txid p c) : c = p :=
  eq_of_length_reach_le h hp (.single ⟨hspends, hp, hc⟩)

theorem ancestor_of_mem_descendants (h : c ∈ (pool.calculateDescendants p).erase p) :
    Ancestor (Spends txid) pool.members p c ∧ c ≠ p := by
  have hnodup : (pool.calculateDescendants p).Nodup := (pool.nodup.of_map txid).sublist (rounds_sublist _)
  obtain ⟨hne, hmem⟩ := hnodup.mem_erase_iff.mp h
  obtain ⟨-, hpath⟩ := mem_reach_iff.mp hmem
  exact ⟨(reflTransGen_iff_eq_or_transGen.mp hpath).resolve_left hne, hne⟩

theorem members_removeConflicts_subset (pool : Mempool txid) (conflicts : List Uint256) :
    (pool.removeConflicts conflicts).members ⊆ pool.members :=
  fun _ h => List.mem_of_mem_filter h

theorem txid_not_mem_conflicts {conflicts : List Uint256}
    (h : c ∈ (pool.removeConflicts conflicts).members) : txid c ∉ conflicts := by
  obtain ⟨hc, hkept⟩ := List.mem_filter.mp h
  intro hmem
  have hremoved : pool.isRemoved conflicts c = true := by
    refine List.any_eq_true.mpr ⟨c, hc, decide_eq_true ⟨hmem, self_mem_reach hc⟩⟩
  simp [hremoved] at hkept

theorem members_add_subset (pool : Mempool txid) (tx : Transaction) :
    (pool.add tx).members ⊆ insert tx pool.members := by
  intro t ht
  unfold Mempool.add at ht
  split_ifs at ht
  · exact .inr ht
  · exact List.mem_cons.mp ht

theorem members_addAll_subset (pool : Mempool txid) (txs : List Transaction) :
    (pool.addAll txs).members ⊆ pool.members ∪ {t | t ∈ txs} := by
  induction txs generalizing pool with
  | nil => exact fun t ht => .inl ht
  | cons tx txs ih =>
    intro t ht
    obtain ht | ht := ih (pool.add tx) ht
    · obtain rfl | ht := members_add_subset pool tx ht
      · exact .inr (List.mem_cons_self)
      · exact .inl ht
    · exact .inr (List.mem_cons_of_mem tx ht)

end Pool

section Single

/-- What the checks of a transaction alone establish. -/
structure SingleRules (pool : Mempool txid) (tx : Transaction) (parents : List Transaction)
    (conflicts : List Uint256) : Prop where
  agree : ∀ p ∈ parents, (p.isTruc ↔ tx.isTruc)
  length : tx.isTruc → parents.length ≤ 1
  ancestors : tx.isTruc → ∀ p ∈ parents, pool.getAncestorCount p ≤ 1
  descendants : tx.isTruc → ∀ p ∈ parents, pool.getDescendantCount p ≤ 1 ∨
    ∃ child ∈ (pool.calculateDescendants p).erase p, txid child ∈ conflicts

variable {conflicts : List Uint256}

theorem singleTRUCChecks_none {parents : List Transaction} {vsize : ℤ}
    (h : singleTRUCChecks pool tx parents conflicts vsize = none) :
    SingleRules pool tx parents conflicts := by
  unfold singleTRUCChecks at h
  dsimp only at h
  split at h
  · cases h
  rename_i hinherit
  have hagree : ∀ p ∈ parents, (p.isTruc ↔ tx.isTruc) := by
    intro p hp
    have hnone := List.findSome?_eq_none_iff.mp hinherit p hp
    split_ifs at hnone with h₁ h₂
    tauto
  by_cases htruc : tx.isTruc
  · cases parents with
    | nil => exact ⟨hagree, fun _ => Nat.zero_le 1, fun _ => nofun, fun _ => nofun⟩
    | cons parent rest =>
      dsimp only at h
      split_ifs at h with hsize hlen hancestors hchild hdescendants
      obtain rfl : rest = [] := by
        unfold trucAncestorLimit at hlen
        exact List.length_eq_zero_iff.mp (by simpa using hlen)
      refine ⟨hagree, fun _ => Nat.le_refl 1, fun _ p hp => ?_, fun _ p hp => ?_⟩
      · obtain rfl := List.mem_singleton.mp hp
        unfold trucAncestorLimit at hancestors
        omega
      · obtain rfl := List.mem_singleton.mp hp
        rw [not_and_or] at hdescendants
        refine hdescendants.imp (fun hcount => ?_) fun hreplaced => ?_
        · unfold trucDescendantLimit at hcount
          omega
        · simpa using hreplaced
  · exact ⟨hagree, fun h => absurd h htruc, fun h => absurd h htruc, fun h => absurd h htruc⟩

section
variable (hpool : TrucConsistent pool) (h : SingleRules pool tx (pool.getParents tx) conflicts)
  (hnone : ∀ e ∈ pool.entries, ¬ Spends txid tx e)
include hpool h hnone

theorem SingleRules.formsPair (htruc : tx.isTruc)
    (hp : p ∈ (pool.removeConflicts conflicts).members) (hspends : Spends txid p tx) :
    FormsPair (Spends txid) ((pool.removeConflicts conflicts).members ∪ {tx}) p tx := by
  have hkept := members_removeConflicts_subset pool conflicts
  have hparent : p ∈ pool.getParents tx := mem_getParents.mpr ⟨hkept hp, hspends⟩
  refine ⟨?_, ?_, ?_, ?_⟩
  · intro b hb hbp
    obtain hb | rfl := hb
    · exact eq_of_getAncestorCount_le (h.ancestors htruc p hparent) (hkept hp) (hkept hb) hbp
    · exact absurd hbp (hnone p (hkept hp))
  · intro b hb hbtx
    obtain hb | rfl := hb
    · left
      exact eq_of_mem_of_length_le_one (h.length htruc) (mem_getParents.mpr ⟨hkept hb, hbtx⟩) hparent
    · exact .inr rfl
  · intro c hc hpc
    obtain hc | rfl := hc
    · right
      obtain hcount | ⟨child, hchild, hconflict⟩ := h.descendants htruc p hparent
      · exact eq_of_getDescendantCount_le hcount (hkept hp) (hkept hc) hpc
      · -- the one descendant that the parent has is a conflict, and goes
        by_contra hne
        have heq := hpool.descendants p (hkept hp) ((h.agree p hparent).mpr htruc)
          ⟨.single ⟨hpc, hkept hp, hkept hc⟩, hne⟩ (ancestor_of_mem_descendants hchild)
        exact txid_not_mem_conflicts hc (heq ▸ hconflict)
    · exact .inl rfl
  · intro c hc htxc
    obtain hc | rfl := hc
    · exact absurd htxc (hnone c (hkept hc))
    · rfl

theorem trucConsistent_add : TrucConsistent ((pool.removeConflicts conflicts).add tx) := by
  have hkept := members_removeConflicts_subset pool conflicts
  have hunion : Paired (Spends txid) Transaction.isTruc
      ((pool.removeConflicts conflicts).members ∪ {tx}) := by
    apply (hpool.anti hkept).union
    · intro t ht c hc
      obtain rfl := ht
      exact hnone c (hkept hc)
    · intro d hd y hy hyd
      obtain rfl := hd
      obtain hy | rfl := hy
      · exact h.agree y (mem_getParents.mpr ⟨hkept hy, hyd⟩)
      · rfl
    · intro d hd hm y hy hyd hne
      obtain rfl := hd
      exact h.formsPair hpool hnone hm (hy.resolve_right hne) hyd
  apply hunion.anti
  rw [Set.union_singleton]
  exact members_add_subset _ tx

end

end Single

section Package

variable {package : List Transaction}

/-- The direct parents of a transaction among those that stand before it in the package. -/
def inPackageParents (txid : Transaction → Uint256) (package : List Transaction)
    (tx : Transaction) : List Transaction :=
  (package.takeWhile fun t => t ≠ tx).filter fun p => Spends txid p tx

theorem findInPackageParentsFrom_spec (tx : Transaction) (before rest : List Transaction) :
    (findInPackageParentsFrom txid tx before.length rest).length =
        (inPackageParents txid rest tx).length ∧
      ((findInPackageParentsFrom txid tx before.length rest).filterMap fun i =>
        (before ++ rest)[i]?) = inPackageParents txid rest tx := by
  induction rest generalizing before with
  | nil => exact ⟨rfl, rfl⟩
  | cons t rest ih =>
    obtain ⟨hlen, hmap⟩ := ih (before ++ [t])
    simp only [List.length_append, List.length_singleton, List.append_assoc,
      List.singleton_append] at hlen hmap
    unfold inPackageParents at hlen hmap ⊢
    by_cases htx : t = tx
    · simp [findInPackageParentsFrom, htx]
    · by_cases hspends : Spends txid t tx
      · simp [findInPackageParentsFrom, htx, hspends, hlen, hmap]
      · simp [findInPackageParentsFrom, htx, hspends, hlen, hmap]

theorem mem_takeWhile_of_sorted {later : Finset Uint256}
    (hsorted : isTopoSortedFrom txid later package = true) (hnodup : (package.map txid).Nodup)
    (hlater : ∀ t ∈ package, txid t ∈ later) (hc : c ∈ package) (hp : p ∈ package)
    (hspends : Spends txid p c) : p ∈ package.takeWhile fun t => t ≠ c := by
  induction package generalizing later with
  | nil => cases hc
  | cons t rest ih =>
    unfold isTopoSortedFrom at hsorted
    split_ifs at hsorted with hany
    by_cases htc : t = c
    · obtain ⟨input, hinput, hhash⟩ := List.mem_map.mp hspends
      refine absurd (List.any_eq_true.mpr ⟨input, htc ▸ hinput, ?_⟩) hany
      rw [hhash]
      exact decide_eq_true (hlater p hp)
    · rw [List.takeWhile_cons_of_pos (by simpa using htc)]
      rw [List.map_cons, List.nodup_cons] at hnodup
      obtain rfl | hp := List.mem_cons.mp hp
      · exact List.mem_cons_self
      · refine List.mem_cons_of_mem t (ih hsorted hnodup.2 (fun u hu => ?_) ?_ hp)
        · refine Finset.mem_erase.mpr ⟨fun heq => ?_, hlater u (List.mem_cons_of_mem t hu)⟩
          exact hnodup.1 (heq ▸ List.mem_map_of_mem hu)
        · exact (List.mem_cons.mp hc).resolve_left (Ne.symm htc)

section
variable (hsorted : isTopoSortedPackage txid package = true) (hnodup : (package.map txid).Nodup)
  (hc : c ∈ package)
include hsorted hnodup hc

theorem mem_inPackageParents (hp : p ∈ package) (hspends : Spends txid p c) :
    p ∈ inPackageParents txid package c := by
  refine List.mem_filter.mpr ⟨mem_takeWhile_of_sorted hsorted hnodup ?_ hc hp hspends, ?_⟩
  · intro t ht
    exact List.mem_toFinset.mpr (List.mem_map_of_mem ht)
  · exact decide_eq_true hspends

variable {conflicts : List Uint256} {parents inPackage : List Transaction}

theorem mem_parents (hp : p ∈ (pool.removeConflicts conflicts).members ∪ {t | t ∈ package})
    (hspends : Spends txid p c) : p ∈ pool.getParents c ++ inPackageParents txid package c := by
  obtain hp | hp := hp
  · have hkept := members_removeConflicts_subset pool conflicts hp
    exact List.mem_append_left _ (mem_getParents.mpr ⟨hkept, hspends⟩)
  · exact List.mem_append_right _ (mem_inPackageParents hsorted hnodup hc hp hspends)

end

theorem packageRelatives_none {parent t : Transaction}
    (h : packageRelatives tx package txid parent = none) (ht : t ∈ package) (hne : t ≠ tx) :
    ¬ Spends txid parent t ∧ ¬ Spends txid tx t := by
  have hmem : t ∈ package.filter fun u => u ≠ tx := List.mem_filter.mpr ⟨ht, decide_eq_true hne⟩
  have hinputs := List.findSome?_eq_none_iff.mp (List.findSome?_eq_none_iff.mp h t hmem)
  refine ⟨fun hspends => ?_, fun hspends => ?_⟩
  · obtain ⟨input, hinput, hhash⟩ := List.mem_map.mp hspends
    have hnone := hinputs input hinput
    rw [if_pos hhash] at hnone
    cases hnone
  · obtain ⟨input, hinput, hhash⟩ := List.mem_map.mp hspends
    have hnone := hinputs input hinput
    split_ifs at hnone

/-- What the checks of a transaction in its package establish. -/
structure PackageRules (pool : Mempool txid) (tx : Transaction)
    (package parents inPackage : List Transaction) : Prop where
  agree : ∀ p ∈ parents ++ inPackage, (p.isTruc ↔ tx.isTruc)
  length : tx.isTruc → (parents ++ inPackage).length ≤ 1
  ancestors : tx.isTruc → ∀ p ∈ parents, pool.getAncestorCount p ≤ 1
  descendants : tx.isTruc → ∀ p ∈ parents, pool.getDescendantCount p ≤ 1
  relatives : tx.isTruc → ∀ p ∈ parents ++ inPackage, ∀ t ∈ package, t ≠ tx →
    ¬ Spends txid p t ∧ ¬ Spends txid tx t

theorem parentInfo_none (h : parentInfo pool parents inPackage = none) :
    parents ++ inPackage = [] := by
  cases parents with
  | nil => exact List.head?_eq_none_iff.mp (Option.map_eq_none_iff.mp h)
  | cons p rest => cases h

theorem parentInfo_some {info : ParentInfo} (h : parentInfo pool parents inPackage = some info) :
    info.tx ∈ parents ++ inPackage ∧
      (info.tx ∈ parents → info.hasMempoolDescendant = decide (1 < pool.getDescendantCount info.tx)) := by
  cases parents with
  | nil =>
    obtain ⟨p, hp, rfl⟩ := Option.map_eq_some_iff.mp h
    exact ⟨List.mem_of_head? hp, nofun⟩
  | cons p rest =>
    cases h
    exact ⟨List.mem_cons_self, fun _ => rfl⟩

theorem packageTRUCChecks_none {vsize : ℤ}
    (h : packageTRUCChecks pool tx package vsize parents = none) :
    PackageRules pool tx package parents (inPackageParents txid package tx) := by
  obtain ⟨hlen, hmap⟩ := @findInPackageParentsFrom_spec txid tx [] package
  simp only [List.length_nil, List.nil_append] at hlen hmap
  unfold packageTRUCChecks findInPackageParents at h
  dsimp only at h
  rw [hmap] at h
  by_cases htruc : tx.isTruc
  · cases hinfo : parentInfo pool parents (inPackageParents txid package tx) with
    | none =>
      have hnil := parentInfo_none hinfo
      obtain ⟨rfl, hin⟩ := List.append_eq_nil_iff.mp hnil
      refine ⟨?_, fun _ => ?_, fun _ => nofun, fun _ => nofun, fun _ => ?_⟩
      · rw [hnil]
        nofun
      · rw [hnil]
        exact Nat.zero_le 1
      · rw [hnil]
        nofun
    | some info =>
      obtain ⟨hmem, hmempool⟩ := parentInfo_some hinfo
      rw [hinfo] at h
      dsimp only at h
      split_ifs at h with hsize hlimit hfirst hchild hparent hcount
      · exact absurd (Option.or_eq_none_iff.mp h).2 nofun
      have hlength : (parents ++ inPackageParents txid package tx).length ≤ 1 := by
        unfold trucAncestorLimit at hlimit
        rw [List.length_append]
        omega
      -- all the parents there are, are the one that is looked at
      have honly : ∀ p ∈ parents ++ inPackageParents txid package tx, p = info.tx := fun p hp =>
        eq_of_mem_of_length_le_one hlength hp hmem
      refine ⟨fun p hp => ?_, fun _ => hlength, fun _ p hp => ?_, fun _ p hp => ?_,
        fun _ p hp t ht => ?_⟩
      · rw [honly p hp]
        exact iff_of_true hparent htruc
      · have hhead : parents.head? = some p := by
          cases parents with
          | nil => cases hp
          | cons q rest => rw [honly p (List.mem_append_left _ hp), honly q List.mem_cons_self]; rfl
        rw [hhead, Option.any_some, decide_eq_true_eq, trucAncestorLimit] at hfirst
        omega
      · obtain rfl := honly p (List.mem_append_left _ hp)
        rw [hmempool hp, decide_eq_true_eq] at hcount
        omega
      · rw [honly p hp]
        exact packageRelatives_none (Option.or_eq_none_iff.mp h).1 ht
  · rw [if_neg htruc, Option.map_eq_none_iff, List.find?_eq_none] at h
    refine ⟨fun p hp => iff_of_false ?_ htruc, ?_, ?_, ?_, ?_⟩
    · simpa using h p hp
    all_goals exact fun h => absurd h htruc

variable (hsorted : isTopoSortedPackage txid package = true) (hnodup : (package.map txid).Nodup)
  (h : ∀ t ∈ package,
    PackageRules pool t package (pool.getParents t) (inPackageParents txid package t))
  (hnone : ∀ t ∈ package, ∀ e ∈ pool.entries, ¬ Spends txid t e)
include hsorted hnodup h hnone

theorem formsPair_of_packageRules (htx : tx ∈ package)
    (htruc : tx.isTruc) (hp : p ∈ (pool.removeConflicts conflicts).members ∪ {t | t ∈ package})
    (hspends : Spends txid p tx) (hne : p ≠ tx) :
    FormsPair (Spends txid) ((pool.removeConflicts conflicts).members ∪ {t | t ∈ package}) p tx := by
  have hkept := members_removeConflicts_subset pool conflicts
  have hparent {b t : Transaction}
      (hb : b ∈ (pool.removeConflicts conflicts).members ∪ {t | t ∈ package}) (ht : t ∈ package)
      (hbt : Spends txid b t) : b ∈ pool.getParents t ++ inPackageParents txid package t :=
    mem_parents hsorted hnodup ht hb hbt
  have hrelatives := (h tx htx).relatives htruc p (hparent hp htx hspends)
  refine ⟨?_, ?_, ?_, ?_⟩
  · intro b hb hbp
    obtain hp | hp := hp
    · obtain hb | hb := hb
      · exact eq_of_getAncestorCount_le ((h tx htx).ancestors htruc p
          (mem_getParents.mpr ⟨hkept hp, hspends⟩)) (hkept hp) (hkept hb) hbp
      · exact absurd hbp (hnone b hb p (hkept hp))
    · -- a parent in the package with a parent of its own may not have a child there
      have hptruc := ((h tx htx).agree p (hparent (.inr hp) htx hspends)).mpr htruc
      exact absurd hspends ((h p hp).relatives hptruc b (hparent hb hp hbp) tx htx hne.symm).2
  · intro b hb hbtx
    exact .inl (eq_of_mem_of_length_le_one ((h tx htx).length htruc) (hparent hb htx hbtx)
      (hparent hp htx hspends))
  · intro c hc hpc
    obtain hc | hc := hc
    · right
      obtain hp | hp := hp
      · exact eq_of_getDescendantCount_le ((h tx htx).descendants htruc p
          (mem_getParents.mpr ⟨hkept hp, hspends⟩)) (hkept hp) (hkept hc) hpc
      · exact absurd hpc (hnone p hp c (hkept hc))
    · left
      by_contra hctx
      exact (hrelatives c hc hctx).1 hpc
  · intro c hc htxc
    obtain hc | hc := hc
    · exact absurd htxc (hnone tx htx c (hkept hc))
    · by_contra hctx
      exact (hrelatives c hc hctx).2 htxc

theorem trucConsistent_addAll (hpool : TrucConsistent pool) :
    TrucConsistent ((pool.removeConflicts conflicts).addAll package) := by
  have hkept := members_removeConflicts_subset pool conflicts
  have hunion : Paired (Spends txid) Transaction.isTruc
      ((pool.removeConflicts conflicts).members ∪ {t | t ∈ package}) := by
    apply (hpool.anti hkept).union
    · intro t ht c hc
      exact hnone t ht c (hkept hc)
    · intro d hd y hy hyd
      exact (h d hd).agree y (mem_parents hsorted hnodup hd hy hyd)
    · intro d hd hm y hy hyd hne
      exact formsPair_of_packageRules hsorted hnodup h hnone hd hm hy hyd hne
  exact hunion.anti (members_addAll_subset _ package)

end Package

/-- The pool keeps its topology when a transaction enters after its conflicts have been removed,
and when a package enters: what each check looks at is enough. -/
theorem trucTopology_preserved (pool : Mempool txid) (hpool : TrucConsistent pool) :
    (∀ (tx : Transaction) (directConflicts : List Uint256) (vsize : ℤ),
      (∀ e ∈ pool.entries, ¬ Spends txid tx e) →
      singleTRUCChecks pool tx (pool.getParents tx) directConflicts vsize = none →
      TrucConsistent ((pool.removeConflicts directConflicts).add tx)) ∧
    (∀ (package : List Transaction) (conflicts : List Uint256) (vsize : Transaction → ℤ),
      isTopoSortedPackage txid package = true → (package.map txid).Nodup →
      (∀ tx ∈ package, ∀ e ∈ pool.entries, ¬ Spends txid tx e) →
      (∀ tx ∈ package,
        packageTRUCChecks pool tx package (vsize tx) (pool.getParents tx) = none) →
      TrucConsistent ((pool.removeConflicts conflicts).addAll package)) := by
  refine ⟨fun tx conflicts vsize hnone h => ?_, fun package conflicts vsize hsorted hnodup hnone h =>
    ?_⟩
  · exact trucConsistent_add hpool (singleTRUCChecks_none h) hnone
  · exact trucConsistent_addAll hsorted hnodup (fun t ht => packageTRUCChecks_none (h t ht)) hnone
      hpool

section Replacement

def lockTimeId (tx : Transaction) : Uint256 := BitVec.ofNat 256 tx.nLockTime

def trucParent : Transaction := ⟨3, [⟨⟨100, 0⟩, [], 0, []⟩], [⟨5000, []⟩, ⟨5000, []⟩], 1⟩
def trucChild : Transaction := ⟨3, [⟨⟨1, 0⟩, [], 0, []⟩], [⟨4000, []⟩], 2⟩
def trucReplacement : Transaction := ⟨3, [⟨⟨1, 0⟩, [], 0, []⟩], [⟨3000, []⟩], 3⟩

def emptyPool : Mempool lockTimeId := ⟨[], List.nodup_nil⟩

def pairPool : Mempool lockTimeId := (emptyPool.removeConflicts []).addAll [trucParent, trucChild]

theorem trucTopology_preserved_replacement :
    TrucConsistent ((pairPool.removeConflicts (pairPool.directConflicts trucReplacement)).add
      trucReplacement) := by
  have hempty : TrucConsistent emptyPool := ⟨nofun, nofun, nofun⟩
  have hpair : TrucConsistent pairPool :=
    (trucTopology_preserved emptyPool hempty).2 [trucParent, trucChild] [] (fun _ => 500)
      (by decide) (by decide) (by decide) (by decide)
  exact (trucTopology_preserved pairPool hpair).1 trucReplacement _ 500 (by decide) (by decide)

end Replacement

end Tarcoin
