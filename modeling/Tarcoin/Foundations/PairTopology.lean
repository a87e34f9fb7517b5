import Tarcoin.Foundations.FiniteReach

/-! Sets of nodes with a parent relation in which marked nodes are alone or in pairs, extended
node by node on the evidence of direct relatives. -/
namespace PairTopology
open Relation FiniteReach

variable {α : Type*} (parent : α → α → Prop) (marked : α → Prop)

/-- A path of parents and children inside the set. -/
def Ancestor (S : Set α) (a x : α) : Prop := TransGen (Within parent S) a x

structure Paired (S : Set α) : Prop where
  ancestors : ∀ x ∈ S, marked x → {a | Ancestor parent S a x ∧ a ≠ x}.Subsingleton
  descendants : ∀ x ∈ S, marked x → {d | Ancestor parent S x d ∧ d ≠ x}.Subsingleton
  agree : ∀ p ∈ S, ∀ c ∈ S, parent p c → (marked p ↔ marked c)

variable {parent marked} {S T K P : Set α} {a x y d : α}

theorem Ancestor.mono (h : S ⊆ T) (ha : Ancestor parent S a x) : Ancestor parent T a x :=
  TransGen.mono (fun _ _ => Within.mono h) _ _ ha

theorem Paired.anti (hT : Paired parent marked T) (h : S ⊆ T) : Paired parent marked S where
  ancestors x hx hm := (hT.ancestors x (h hx) hm).anti fun _ ha => ⟨ha.1.mono h, ha.2⟩
  descendants x hx hm := (hT.descendants x (h hx) hm).anti fun _ hd => ⟨hd.1.mono h, hd.2⟩
  agree p hp c hc := hT.agree p (h hp) c (h hc)

section
variable (h : Ancestor parent S a x)
include h

theorem Ancestor.of_closed (hclosed : ∀ p ∈ S, ∀ c ∈ K, parent p c → p ∈ K) (hx : x ∈ K) :
    Ancestor parent K a x := by
  induction h with
  | single h => exact .single ⟨h.1, hclosed _ h.2.1 _ hx h.1, hx⟩
  | tail _ h ih =>
    have hb := hclosed _ h.2.1 _ hx h.1
    exact (ih hb).tail ⟨h.1, hb, hx⟩

theorem Ancestor.mem_left : a ∈ S := by
  obtain ⟨b, hab, -⟩ := TransGen.head'_iff.mp h
  exact hab.2.1

theorem Ancestor.mem_right : x ∈ S := by
  obtain ⟨b, -, hbx⟩ := TransGen.tail'_iff.mp h
  exact hbx.2.2

theorem Ancestor.exists_parent_ne (hne : a ≠ x) : ∃ y, Within parent S y x ∧ y ≠ x := by
  induction h using TransGen.head_induction_on with
  | single h => exact ⟨_, h, hne⟩
  | @head b c hbc _ ih =>
    by_cases hc : c = x
    · exact ⟨b, hc ▸ hbc, hne⟩
    · exact ih hc

end

variable (parent) in
/-- A parent and a child that are related to nothing else of the set. -/
structure FormsPair (S : Set α) (y d : α) : Prop where
  root : ∀ b ∈ S, parent b y → b = y
  onlyParent : ∀ b ∈ S, parent b d → b = y ∨ b = d
  onlyChild : ∀ c ∈ S, parent y c → c = d ∨ c = y
  leaf : ∀ c ∈ S, parent d c → c = d

theorem FormsPair.eq_of_ancestor (h : FormsPair parent S y d) (ha : Ancestor parent S a d) :
    a = y ∨ a = d := by
  induction ha using TransGen.head_induction_on with
  | single had => exact h.onlyParent _ had.2.1 had.1
  | head hac _ ih =>
    obtain rfl | rfl := ih
    · exact .inl (h.root _ hac.2.1 hac.1)
    · exact h.onlyParent _ hac.2.1 hac.1

theorem FormsPair.eq_of_descendant (h : FormsPair parent S y d) (ha : Ancestor parent S y x) :
    x = d ∨ x = y := by
  induction ha with
  | single hyx => exact h.onlyChild _ hyx.2.2 hyx.1
  | tail _ hbx ih =>
    obtain rfl | rfl := ih
    · exact .inl (h.leaf _ hbx.2.2 hbx.1)
    · exact h.onlyChild _ hbx.2.2 hbx.1

/-- Added nodes keep marked nodes in pairs, if they are nobody's parents among those that are kept
and each marked one forms a pair with any parent it has. -/
theorem Paired.union (hK : Paired parent marked K) (hclosed : ∀ p ∈ P, ∀ c ∈ K, ¬ parent p c)
    (hagree : ∀ d ∈ P, ∀ y ∈ K ∪ P, parent y d → (marked y ↔ marked d))
    (hpair : ∀ d ∈ P, marked d → ∀ y ∈ K ∪ P, parent y d → y ≠ d →
      FormsPair parent (K ∪ P) y d) :
    Paired parent marked (K ∪ P) := by
  have hkept : ∀ p ∈ K ∪ P, ∀ c ∈ K, parent p c → p ∈ K := by
    intro p hp c hc hpc
    exact hp.resolve_right fun hp => hclosed p hp c hc hpc
  have hagree' : ∀ p ∈ K ∪ P, ∀ c ∈ K ∪ P, parent p c → (marked p ↔ marked c) := by
    intro p hp c hc hpc
    obtain hc | hc := hc
    · exact hK.agree p (hkept p hp c hc hpc) c hc hpc
    · exact hagree c hc p hp hpc
  have hmarked {a x : α} (ha : Ancestor parent (K ∪ P) a x) : marked a ↔ marked x := by
    induction ha with
    | single h => exact hagree' _ h.2.1 _ h.2.2 h.1
    | tail _ h ih => exact ih.trans (hagree' _ h.2.1 _ h.2.2 h.1)
  -- an ancestor of an added node is its parent, and there is no other
  have hadded {a c : α} (ha : Ancestor parent (K ∪ P) a c) (hne : a ≠ c) (hc : c ∈ P)
      (hm : marked c) : FormsPair parent (K ∪ P) a c := by
    obtain ⟨y, hyc, hy⟩ := ha.exists_parent_ne hne
    have hp := hpair c hc hm y hyc.2.1 hyc.1 hy
    rwa [← (hp.eq_of_ancestor ha).resolve_right hne] at hp
  refine ⟨fun x hx hm => ?_, fun x hx hm => ?_, hagree'⟩
  · intro a ha b hb
    obtain hx | hx := hx
    · exact hK.ancestors x hx hm ⟨ha.1.of_closed hkept hx, ha.2⟩ ⟨hb.1.of_closed hkept hx, hb.2⟩
    · have hp := hadded hb.1 hb.2 hx hm
      exact (hp.eq_of_ancestor ha.1).resolve_right ha.2
  · intro d hd e he
    by_cases hdP : d ∈ P
    · have hp := hadded hd.1 hd.2.symm hdP ((hmarked hd.1).mp hm)
      exact ((hp.eq_of_descendant he.1).resolve_right he.2).symm
    · by_cases heP : e ∈ P
      · have hp := hadded he.1 he.2.symm heP ((hmarked he.1).mp hm)
        exact (hp.eq_of_descendant hd.1).resolve_right hd.2
      · have hdK := hd.1.of_closed hkept (hd.1.mem_right.resolve_right hdP)
        have heK := he.1.of_closed hkept (he.1.mem_right.resolve_right heP)
        exact hK.descendants x hdK.mem_left hm ⟨hdK, hd.2⟩ ⟨heK, he.2⟩

end PairTopology
