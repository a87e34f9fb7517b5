import Mathlib.Tactic

/-! A list is reduced level by level: neighbours are joined, and the last value of an odd level is
joined with itself. For a join that is injective on what is joined the root determines a list of a
given length, and of two lists the longer one joins equal neighbours on some level. -/
namespace MerkleTree

variable {α : Type*}

/-- Repeat the last value of a list of odd length. -/
def padOdd (xs : List α) : List α := if xs.length % 2 = 1 then xs ++ xs.getLast?.toList else xs

def joinPairs (join : α → α → α) : List α → List α
  | a :: b :: rest => join a b :: joinPairs join rest
  | _ => []

/-- Reduce while more than one value is left, for at most `fuel` levels. -/
def reduce (join : α → α → α) : ℕ → List α → List α
  | 0, xs => xs
  | fuel + 1, xs => if xs.length ≤ 1 then xs else reduce join fuel (joinPairs join (padOdd xs))

/-- What is left of a level after its first value: the last value is repeated when the whole
level, the first value included, has odd length. -/
def padRest (xs : List α) : List α := if xs.length % 2 = 0 then xs ++ xs.getLast?.toList else xs

/-- The values that a first value is joined with when `xs` come after it. -/
def firstPath (join : α → α → α) : ℕ → List α → List α
  | 0, _ => []
  | fuel + 1, xs =>
    match padRest xs with
    | [] => []
    | sibling :: rest => sibling :: firstPath join fuel (joinPairs join rest)

variable {join : α → α → α}

theorem padOdd_cons (x : α) {xs : List α} (h : xs ≠ []) : padOdd (x :: xs) = x :: padRest xs := by
  obtain ⟨y, ys, rfl⟩ := List.exists_cons_of_ne_nil h
  unfold padOdd padRest
  have hparity : (x :: y :: ys).length % 2 = 1 ↔ (y :: ys).length % 2 = 0 := by
    simp only [List.length_cons]
    omega
  simp only [hparity, List.getLast?_cons_cons]
  split_ifs <;> rfl

theorem length_padRest {xs : List α} (h : xs ≠ []) :
    (padRest xs).length = 2 * (xs.length / 2) + 1 := by
  obtain ⟨last, hlast⟩ := Option.ne_none_iff_exists'.mp (mt List.getLast?_eq_none_iff.mp h)
  unfold padRest
  split_ifs with heven
  · simp only [hlast, List.length_append, Option.toList_some, List.length_singleton]
    omega
  · omega

theorem length_joinPairs (xs : List α) : (joinPairs join xs).length = xs.length / 2 := by
  induction xs using List.twoStepInduction with
  | cons_cons a b rest ih _ =>
    simp only [joinPairs, List.length_cons, ih]
    omega
  | nil => simp [joinPairs]
  | singleton a => simp [joinPairs]

theorem reduce_cons {fuel : ℕ} (x : α) {xs : List α} (hfuel : xs.length ≤ fuel) :
    reduce join fuel (x :: xs) = [(firstPath join fuel xs).foldl join x] := by
  induction fuel generalizing x xs with
  | zero =>
    obtain rfl := List.length_eq_zero_iff.mp (Nat.le_zero.mp hfuel)
    rfl
  | succ fuel ih =>
    rcases eq_or_ne xs [] with rfl | hne
    · rfl
    have hlen := length_padRest hne
    obtain ⟨sibling, rest, hpad⟩ := List.exists_cons_of_length_pos
      (show 0 < (padRest xs).length by omega)
    have hlong : ¬ (x :: xs).length ≤ 1 := by
      have := List.length_pos_of_ne_nil hne
      simp only [List.length_cons]
      omega
    -- The remaining values halve in number, so one unit of fuel pays for the level.
    have hrest : (joinPairs join rest).length ≤ fuel := by
      rw [hpad, List.length_cons] at hlen
      rw [length_joinPairs]
      omega
    rw [reduce, if_neg hlong, padOdd_cons x hne, hpad, joinPairs, ih _ hrest, firstPath, hpad]
    rfl

variable {α : Type*} {join : α → α → α} {xs ys : List α}

def nextLevel (join : α → α → α) (xs : List α) : List α := joinPairs join (padOdd xs)

def level (join : α → α → α) : ℕ → List α → List α
  | 0, xs => xs
  | k + 1, xs => level join k (nextLevel join xs)

def pairsOf : List α → List (α × α)
  | a :: b :: rest => (a, b) :: pairsOf rest
  | _ => []

def equalPair [BEq α] : List α → Bool
  | a :: b :: rest => a == b || equalPair rest
  | _ => false

/-- Whether that happens on one of the first `d` levels. -/
def equalPairWithin [BEq α] (join : α → α → α) : ℕ → List α → Bool
  | 0, _ => false
  | d + 1, xs => equalPair xs || equalPairWithin join d (nextLevel join xs)

def joinedPairs (join : α → α → α) (xs : List α) : Set (α × α) :=
  {p | ∃ k < Nat.clog 2 xs.length, p ∈ pairsOf (padOdd (level join k xs))}

theorem length_padOdd (xs : List α) : (padOdd xs).length = 2 * ((xs.length + 1) / 2) := by
  unfold padOdd
  split_ifs with hodd
  · have hne : xs ≠ [] := by
      intro h
      simp [h] at hodd
    rw [List.getLast?_eq_some_getLast hne, List.length_append, Option.toList_some,
      List.length_singleton]
    omega
  · omega

section Lengths

variable (join)

theorem length_nextLevel (xs : List α) : (nextLevel join xs).length = (xs.length + 1) / 2 := by
  rw [nextLevel, length_joinPairs, length_padOdd, Nat.mul_div_cancel_left _ two_pos]

theorem clog_length_eq_succ (h : 2 ≤ xs.length) :
    Nat.clog 2 xs.length = Nat.clog 2 (nextLevel join xs).length + 1 := by
  rw [length_nextLevel, Nat.clog_of_two_le one_lt_two h]
  rfl

theorem clog_length_eq_zero (h : xs.length ≤ 1) : Nat.clog 2 xs.length = 0 :=
  Nat.clog_of_right_le_one h 2

theorem two_le_of_clog_pos {d : ℕ} (h : Nat.clog 2 xs.length = d + 1) : 2 ≤ xs.length := by
  by_contra hshort
  rw [clog_length_eq_zero (by omega)] at h
  cases h

theorem clog_nextLevel {d : ℕ} (h : Nat.clog 2 xs.length = d + 1) :
    Nat.clog 2 (nextLevel join xs).length = d := by
  rw [clog_length_eq_succ join (two_le_of_clog_pos h)] at h
  exact Nat.succ.inj h

theorem reduce_eq_level {fuel : ℕ} (h : xs.length ≤ fuel) :
    reduce join fuel xs = level join (Nat.clog 2 xs.length) xs := by
  induction fuel generalizing xs with
  | zero => rw [clog_length_eq_zero (by omega)]; rfl
  | succ fuel ih =>
    rw [reduce]
    split_ifs with hshort
    · rw [clog_length_eq_zero hshort]
      rfl
    · have hlen := length_nextLevel join xs
      rw [clog_length_eq_succ join (by omega), level, ← ih (by omega)]
      rfl

theorem level_succ (k : ℕ) (xs : List α) :
    level join (k + 1) xs = nextLevel join (level join k xs) := by
  induction k generalizing xs with
  | zero => rfl
  | succ k ih => rw [level, ih, level]

theorem length_level_clog (hne : xs ≠ []) :
    (level join (Nat.clog 2 xs.length) xs).length = 1 := by
  generalize hd : Nat.clog 2 xs.length = d
  induction d generalizing xs with
  | zero =>
    have hpos := List.length_pos_of_ne_nil hne
    have hle : xs.length ≤ 1 := by
      by_contra hlong
      rw [clog_length_eq_succ join (by omega)] at hd
      cases hd
    rw [level]
    omega
  | succ d ih =>
    refine ih ?_ (clog_nextLevel join hd)
    have hlen := length_nextLevel join xs
    have hlong := two_le_of_clog_pos hd
    intro hnil
    rw [hnil, List.length_nil] at hlen
    omega

end Lengths

section Pairs

theorem joinPairs_eq_map (xs : List α) :
    joinPairs join xs = (pairsOf xs).map fun p => join p.1 p.2 := by
  induction xs using List.twoStepInduction with
  | cons_cons a b rest ih _ => rw [joinPairs, pairsOf, List.map_cons, ih]
  | nil => rfl
  | singleton a => rfl

theorem fst_mem_of_mem_pairsOf {p : α × α} (h : p ∈ pairsOf xs) : p.1 ∈ xs := by
  induction xs using List.twoStepInduction with
  | cons_cons a b rest ih _ =>
    rcases List.mem_cons.mp h with rfl | h
    · exact List.mem_cons_self
    · exact List.mem_cons_of_mem _ (List.mem_cons_of_mem _ (ih h))
  | nil => cases h
  | singleton a => cases h

theorem mem_of_mem_padOdd {a : α} (h : a ∈ padOdd xs) : a ∈ xs := by
  unfold padOdd at h
  split_ifs at h
  · rcases List.mem_append.mp h with h | h
    · exact h
    · exact List.mem_of_getLast? (Option.mem_toList.mp h)
  · exact h

theorem flatMap_pairsOf (h : xs.length % 2 = 0) :
    (pairsOf xs).flatMap (fun p => [p.1, p.2]) = xs := by
  induction xs using List.twoStepInduction with
  | cons_cons a b rest ih _ =>
    have heven : rest.length % 2 = 0 := by
      simp only [List.length_cons] at h
      omega
    rw [pairsOf, List.flatMap_cons, ih heven]
    rfl
  | nil => rfl
  | singleton a => simp at h

theorem map_inj_on {β : Type*} {f : β → α} {S : Set β} (hf : Set.InjOn f S) {as bs : List β}
    (has : ∀ a ∈ as, a ∈ S) (hbs : ∀ b ∈ bs, b ∈ S) (h : as.map f = bs.map f) : as = bs := by
  induction as generalizing bs with
  | nil => exact (List.map_eq_nil_iff.mp h.symm).symm
  | cons a as ih =>
    cases bs with
    | nil => cases h
    | cons b bs =>
      rw [List.forall_mem_cons] at has hbs
      obtain ⟨hhead, htail⟩ := List.cons.inj h
      rw [hf has.1 hbs.1 hhead, ih has.2 hbs.2 htail]

theorem padOdd_cons_cons (a b : α) (rest : List α) :
    padOdd (a :: b :: rest) = a :: b :: padOdd rest := by
  have hparity : (a :: b :: rest).length % 2 = rest.length % 2 := by
    simp only [List.length_cons]
    omega
  unfold padOdd
  rw [hparity]
  cases rest with
  | nil => rfl
  | cons c rest =>
    split_ifs <;> rfl

theorem take_padOdd (xs : List α) : (padOdd xs).take xs.length = xs := by
  unfold padOdd
  split_ifs
  · exact List.take_left
  · exact List.take_length

theorem equalPair_padOdd [BEq α] [ReflBEq α] (h : xs.length % 2 = 1) :
    equalPair (padOdd xs) = true := by
  induction xs using List.twoStepInduction with
  | cons_cons a b rest ih _ =>
    have hodd : rest.length % 2 = 1 := by
      simp only [List.length_cons] at h
      omega
    rw [padOdd_cons_cons, equalPair, ih hodd, Bool.or_true]
  | nil => simp at h
  | singleton a => simp [padOdd, equalPair]

end Pairs

section Nodes

@[simp] theorem nextLevel_cons_cons (a b : α) (rest : List α) :
    nextLevel join (a :: b :: rest) = join a b :: nextLevel join rest := by
  rw [nextLevel, padOdd_cons_cons, joinPairs, nextLevel]

/-- A node joins the two values below it; where there is only one, that one with itself. -/
theorem getElem?_nextLevel (join : α → α → α) (xs : List α) (i : ℕ) :
    (nextLevel join xs)[i]? = xs[2 * i]?.map fun left => join left (xs[2 * i + 1]?.getD left) := by
  induction xs using List.twoStepInduction generalizing i with
  | cons_cons a b rest ih _ =>
    rw [nextLevel_cons_cons]
    cases i with
    | zero => rfl
    | succ i => exact ih i
  | nil => rfl
  | singleton a => cases i <;> rfl

theorem mem_pairsOf_padOdd {i : ℕ} {left : α} (h : xs[2 * i]? = some left) :
    (left, xs[2 * i + 1]?.getD left) ∈ pairsOf (padOdd xs) := by
  induction xs using List.twoStepInduction generalizing i with
  | cons_cons a b rest ih _ =>
    rw [padOdd_cons_cons]
    cases i with
    | zero =>
      cases h
      exact List.mem_cons_self
    | succ i => exact List.mem_cons_of_mem _ (ih h)
  | nil => cases h
  | singleton a =>
    cases i with
    | zero =>
      cases h
      exact List.mem_cons_self
    | succ i => cases h

theorem fst_pairsOf_padOdd_sublist (xs : List α) :
    ((pairsOf (padOdd xs)).map Prod.fst).Sublist xs := by
  induction xs using List.twoStepInduction with
  | cons_cons a b rest ih _ =>
    rw [padOdd_cons_cons, pairsOf]
    exact (ih.cons b).cons_cons a
  | nil => exact List.Sublist.refl _
  | singleton a => exact List.Sublist.refl _

theorem nodup_level {pairs : Set (α × α)} (hinj : Set.InjOn (fun p => join p.1 p.2) pairs)
    (hxs : joinedPairs join xs ⊆ pairs) (hnd : xs.Nodup) {k : ℕ}
    (hk : k ≤ Nat.clog 2 xs.length) : (level join k xs).Nodup := by
  induction k with
  | zero => exact hnd
  | succ k ih =>
    have hpairs : (pairsOf (padOdd (level join k xs))).Nodup :=
      List.Nodup.of_map Prod.fst
        ((ih (Nat.le_of_succ_le hk)).sublist (fst_pairsOf_padOdd_sublist _))
    rw [level_succ, nextLevel, joinPairs_eq_map]
    refine hpairs.map_on ?_
    intro p hp q hq heq
    exact hinj (hxs ⟨k, hk, hp⟩) (hxs ⟨k, hk, hq⟩) heq

end Nodes

section Binding

variable {pairs : Set (α × α)} {leaves : Set α}

/-- No two of the pairs are joined to one value, and none to one of the leaves. -/
structure CollisionFree (join : α → α → α) (pairs : Set (α × α)) (leaves : Set α) : Prop where
  inj : Set.InjOn (fun p => join p.1 p.2) pairs
  leaf : ∀ a ∈ leaves, ∀ p ∈ pairs, a ≠ join p.1 p.2

/-- A value that is a leaf joined `n` times. -/
inductive Depth (join : α → α → α) (pairs : Set (α × α)) (leaves : Set α) : ℕ → α → Prop
  | leaf {a : α} (h : a ∈ leaves) : Depth join pairs leaves 0 a
  | node {n : ℕ} {p : α × α} (h : p ∈ pairs) (left : Depth join pairs leaves n p.1) :
      Depth join pairs leaves (n + 1) (join p.1 p.2)

theorem CollisionFree.depth_unique (hfree : CollisionFree join pairs leaves) {n m : ℕ} {a b : α}
    (ha : Depth join pairs leaves n a) (hb : Depth join pairs leaves m b) (hab : a = b) :
    n = m := by
  induction ha generalizing m b with
  | leaf hleaf =>
    cases hb with
    | leaf => rfl
    | node hp => exact absurd hab (hfree.leaf _ hleaf _ hp)
  | node hp _ ih =>
    cases hb with
    | leaf hleaf => exact absurd hab.symm (hfree.leaf _ hleaf _ hp)
    | node hq left => rw [ih left (congrArg Prod.fst (hfree.inj hp hq hab))]

theorem depth_level {k : ℕ} (hk : k ≤ Nat.clog 2 xs.length) (hpairs : joinedPairs join xs ⊆ pairs)
    (hleaves : ∀ a ∈ xs, a ∈ leaves) :
    ∀ a ∈ level join k xs, Depth join pairs leaves k a := by
  induction k with
  | zero => exact fun a ha => .leaf (hleaves a ha)
  | succ k ih =>
    intro a ha
    rw [level_succ, nextLevel, joinPairs_eq_map] at ha
    obtain ⟨p, hp, rfl⟩ := List.mem_map.mp ha
    exact .node (hpairs ⟨k, hk, hp⟩)
      (ih (Nat.le_of_succ_le hk) p.1 (mem_of_mem_padOdd (fst_mem_of_mem_pairsOf hp)))

theorem padOdd_inj (hinj : Set.InjOn (fun p => join p.1 p.2) pairs)
    (hxs : ∀ p ∈ pairsOf (padOdd xs), p ∈ pairs) (hys : ∀ p ∈ pairsOf (padOdd ys), p ∈ pairs)
    (h : nextLevel join xs = nextLevel join ys) : padOdd xs = padOdd ys := by
  rw [nextLevel, nextLevel, joinPairs_eq_map, joinPairs_eq_map] at h
  have heven (zs : List α) : (padOdd zs).length % 2 = 0 := by
    rw [length_padOdd, Nat.mul_mod_right]
  rw [← flatMap_pairsOf (heven xs), ← flatMap_pairsOf (heven ys), map_inj_on hinj hxs hys h]

/-- Lists that agree after the same number of levels. The step goes up one level: where the next
levels differ in length the equal neighbours are further up, and where they do not, the lists
differ by the padding. -/
theorem level_binding [BEq α] [ReflBEq α]
    (hinj : Set.InjOn (fun p => join p.1 p.2) pairs) {d : ℕ} (hx : Nat.clog 2 xs.length = d)
    (hy : Nat.clog 2 ys.length = d)
    (hxs : ∀ k < d, ∀ p ∈ pairsOf (padOdd (level join k xs)), p ∈ pairs)
    (hys : ∀ k < d, ∀ p ∈ pairsOf (padOdd (level join k ys)), p ∈ pairs)
    (hroot : level join d xs = level join d ys) :
    (xs.length = ys.length → xs = ys) ∧
      (xs.length < ys.length → equalPairWithin join d ys = true) := by
  induction d generalizing xs ys with
  | zero =>
    obtain rfl : xs = ys := hroot
    exact ⟨fun _ => rfl, fun hlt => absurd hlt (lt_irrefl _)⟩
  | succ d ih =>
    obtain ⟨heq, hlonger⟩ := ih (clog_nextLevel join hx) (clog_nextLevel join hy)
      (fun k hk => hxs (k + 1) (Nat.succ_lt_succ hk))
      (fun k hk => hys (k + 1) (Nat.succ_lt_succ hk)) hroot
    have hlx := length_nextLevel join xs
    have hly := length_nextLevel join ys
    have hpad (hnext : (xs.length + 1) / 2 = (ys.length + 1) / 2) : padOdd xs = padOdd ys :=
      padOdd_inj hinj (hxs 0 d.succ_pos) (hys 0 d.succ_pos) (heq (by omega))
    constructor
    · intro hlen
      rw [← take_padOdd xs, ← take_padOdd ys, hpad (by omega), hlen]
    · intro hlt
      rw [equalPairWithin, Bool.or_eq_true]
      by_cases hnext : (xs.length + 1) / 2 = (ys.length + 1) / 2
      · left
        have hys : padOdd ys = ys := by rw [padOdd, if_neg (by omega)]
        rw [← hys, ← hpad hnext]
        exact equalPair_padOdd (by omega)
      · right
        exact hlonger (by omega)

end Binding

end MerkleTree
