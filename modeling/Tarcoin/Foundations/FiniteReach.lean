import Mathlib.Tactic

/-! What a relation reaches inside a finite list of nodes, collected in as many rounds as there
are nodes. -/
namespace FiniteReach
open Relation

variable {α : Type*}

def Within (rel : α → α → Prop) (S : Set α) (x y : α) : Prop := rel x y ∧ x ∈ S ∧ y ∈ S

theorem Within.mono {rel : α → α → Prop} {S T : Set α} (h : S ⊆ T) {x y : α}
    (hxy : Within rel S x y) : Within rel T x y :=
  ⟨hxy.1, h hxy.2.1, h hxy.2.2⟩

theorem eq_of_mem_of_length_le_one {xs : List α} {x y : α} (h : xs.length ≤ 1) (hx : x ∈ xs)
    (hy : y ∈ xs) : x = y := by
  obtain ⟨z, rfl⟩ := List.length_eq_one_iff.mp (h.antisymm (List.length_pos_of_mem hx))
  rw [List.mem_singleton.mp hx, List.mem_singleton.mp hy]

variable [DecidableEq α] (rel : α → α → Prop) [DecidableRel rel] (nodes : List α)

/-- One round: the nodes seen and the successors of these. -/
def grow (seen : List α) : List α := nodes.filter fun y => y ∈ seen ∨ ∃ x ∈ seen, rel x y

/-- The node and what it reaches, in the order of the list. -/
def reach (x : α) : List α := (grow rel nodes)^[nodes.length] (nodes.filter fun y => y = x)

section Rounds

variable {rel nodes} {x y : α}

theorem mem_grow {seen : List α} :
    y ∈ grow rel nodes seen ↔ y ∈ nodes ∧ (y ∈ seen ∨ ∃ x ∈ seen, rel x y) := by
  simp [grow]

/-- Lists that only gain members of a list stop changing after as many rounds as it is long. -/
theorem iterate_stable {f : List α → List α} {start : List α}
    (hbound : ∀ n, (f^[n] start).Sublist nodes) (hgrow : ∀ n, (f^[n] start).Sublist (f^[n + 1] start)) :
    f^[nodes.length + 1] start = f^[nodes.length] start := by
  -- a round that changes something makes the list longer
  have hlong (n : ℕ) : f^[n + 1] start = f^[n] start ∨ n ≤ (f^[n] start).length := by
    induction n with
    | zero => exact .inr (Nat.zero_le _)
    | succ n ih =>
      by_cases hsame : f^[n + 1] start = f^[n] start
      · left
        rw [Function.iterate_succ_apply' f (n + 1), hsame, ← Function.iterate_succ_apply' f n, hsame]
      · have hlt : (f^[n] start).length ≠ (f^[n + 1] start).length := fun hlen =>
          hsame ((hgrow n).eq_of_length hlen).symm
        have hle := (hgrow n).length_le
        obtain heq | hn := ih
        · exact absurd heq hsame
        · exact .inr (by omega)
  obtain heq | hn := hlong nodes.length
  · exact heq
  · exact ((hgrow _).eq_of_length_le ((hbound _).length_le.trans hn)).symm

variable (rel nodes x) in
def rounds (n : ℕ) : List α := (grow rel nodes)^[n] (nodes.filter fun y => y = x)

theorem rounds_succ (n : ℕ) : rounds rel nodes x (n + 1) = grow rel nodes (rounds rel nodes x n) :=
  Function.iterate_succ_apply' _ _ _

theorem rounds_eq_filter (n : ℕ) :
    rounds rel nodes x n = nodes.filter fun y => y ∈ rounds rel nodes x n := by
  have hfilter : ∃ p : α → Bool, rounds rel nodes x n = nodes.filter p := by
    cases n with
    | zero => exact ⟨_, rfl⟩
    | succ n => exact ⟨_, rounds_succ n⟩
  obtain ⟨p, hp⟩ := hfilter
  rw [hp]
  apply List.filter_congr
  intro y hy
  simp [hy]

theorem rounds_sublist (n : ℕ) : (rounds rel nodes x n).Sublist nodes := by
  rw [rounds_eq_filter]
  exact List.filter_sublist

theorem rounds_sublist_succ (n : ℕ) :
    (rounds rel nodes x n).Sublist (rounds rel nodes x (n + 1)) := by
  rw [rounds_succ, rounds_eq_filter]
  apply List.monotone_filter_right
  intro y hy
  simp only [decide_eq_true_eq] at hy ⊢
  left
  rwa [← rounds_eq_filter]

theorem mem_rounds {n : ℕ} (h : y ∈ rounds rel nodes x n) :
    y ∈ nodes ∧ ReflTransGen (Within rel {z | z ∈ nodes}) x y := by
  induction n generalizing y with
  | zero =>
    obtain ⟨hy, heq⟩ := List.mem_filter.mp h
    rw [of_decide_eq_true heq]
    exact ⟨of_decide_eq_true heq ▸ hy, .refl⟩
  | succ n ih =>
    rw [rounds_succ, mem_grow] at h
    obtain ⟨hy, hseen | ⟨z, hz, hzy⟩⟩ := h
    · exact ih hseen
    · exact ⟨hy, (ih hz).2.tail ⟨hzy, (ih hz).1, hy⟩⟩

theorem grow_reach : grow rel nodes (reach rel nodes x) = reach rel nodes x :=
  (rounds_succ nodes.length).symm.trans (iterate_stable rounds_sublist rounds_sublist_succ)

theorem self_mem_reach (h : x ∈ nodes) : x ∈ reach rel nodes x := by
  have hsub (n : ℕ) : x ∈ rounds rel nodes x n := by
    induction n with
    | zero => exact List.mem_filter.mpr ⟨h, decide_eq_true rfl⟩
    | succ n ih => exact (rounds_sublist_succ n).subset ih
  exact hsub nodes.length

theorem mem_reach_iff :
    y ∈ reach rel nodes x ↔ x ∈ nodes ∧ ReflTransGen (Within rel {z | z ∈ nodes}) x y := by
  constructor
  · intro h
    obtain ⟨hy, hpath⟩ := mem_rounds h
    refine ⟨?_, hpath⟩
    obtain rfl | ⟨z, hxz, -⟩ := hpath.cases_head
    · exact hy
    · exact hxz.2.1
  · intro ⟨hx, hpath⟩
    induction hpath with
    | refl => exact self_mem_reach hx
    | tail _ hyz ih =>
      rw [← grow_reach, mem_grow]
      exact ⟨hyz.2.2, .inr ⟨_, ih, hyz.1⟩⟩

theorem eq_of_length_reach_le (h : (reach rel nodes x).length ≤ 1) (hx : x ∈ nodes)
    (hy : ReflTransGen (Within rel {z | z ∈ nodes}) x y) : y = x :=
  eq_of_mem_of_length_le_one h (mem_reach_iff.mpr ⟨hx, hy⟩) (self_mem_reach hx)

end Rounds

end FiniteReach
