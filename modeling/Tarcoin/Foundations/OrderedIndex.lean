import Mathlib.Data.List.Sort

/-! One list of elements seen in the order of several keys: its ends, lower bounds, and
neighbours. -/
namespace OrderedIndex

variable {α κ : Type} [LinearOrder κ] (key : α → κ)

/-- The elements in the order of the key; those with one key keep their order. -/
def view (xs : List α) : List α := xs.insertionSort (fun a b => key a ≤ key b)

def first? (xs : List α) : Option α := (view key xs).head?

def last? (xs : List α) : Option α := (view key xs).getLast?

/-- The first element whose key is at least the bound. -/
def lowerBound? (xs : List α) (bound : κ) : Option α := (view key xs).find? (fun a => bound ≤ key a)

def after? [DecidableEq α] (xs : List α) (a : α) : Option α :=
  ((view key xs).dropWhile (fun b => b ≠ a)).tail.head?

def before? [DecidableEq α] (xs : List α) (a : α) : Option α :=
  ((view key xs).takeWhile (fun b => b ≠ a)).getLast?

variable {key} {xs : List α} {a b c : α}

theorem mem_view : a ∈ view key xs ↔ a ∈ xs := List.mem_insertionSort _

theorem view_perm : (view key xs).Perm xs := List.perm_insertionSort _ xs

variable (key) in
theorem view_pairwise (xs : List α) : (view key xs).Pairwise (fun a b => key a ≤ key b) := by
  exact List.pairwise_insertionSort _ xs

theorem first?_eq_none (h : first? key xs = none) : xs = [] := by
  have hview := List.head?_eq_none_iff.mp h
  exact List.Perm.nil_eq (hview ▸ view_perm) |>.symm

theorem first?_eq_some (h : first? key xs = some a) : a ∈ xs ∧ ∀ b ∈ xs, key a ≤ key b := by
  obtain ⟨rest, hview⟩ := List.head?_eq_some_iff.mp h
  have hsorted := view_pairwise key xs
  rw [hview] at hsorted
  constructor
  · exact mem_view.mp (hview ▸ List.mem_cons_self)
  · intro b hb
    have hb' : b ∈ a :: rest := hview ▸ mem_view.mpr hb
    rcases List.mem_cons.mp hb' with rfl | hb'
    · exact le_rfl
    · exact List.rel_of_pairwise_cons hsorted hb'

theorem last?_eq_none (h : last? key xs = none) : xs = [] := by
  have hview := List.getLast?_eq_none_iff.mp h
  exact List.Perm.nil_eq (hview ▸ view_perm) |>.symm

theorem last?_eq_some (h : last? key xs = some a) : a ∈ xs ∧ ∀ b ∈ xs, key b ≤ key a := by
  obtain ⟨rest, hview⟩ := List.getLast?_eq_some_iff.mp h
  have hsorted := view_pairwise key xs
  rw [hview, List.pairwise_append] at hsorted
  constructor
  · exact mem_view.mp (hview ▸ List.mem_append_right _ List.mem_cons_self)
  · intro b hb
    have hb' : b ∈ rest ++ [a] := hview ▸ mem_view.mpr hb
    rcases List.mem_append.mp hb' with hb' | hb'
    · exact hsorted.2.2 b hb' a List.mem_cons_self
    · rw [List.mem_singleton.mp hb']

theorem lowerBound?_eq_none {bound : κ} (h : lowerBound? key xs bound = none) :
    ∀ b ∈ xs, key b < bound := by
  intro b hb
  have := List.find?_eq_none.mp h b (mem_view.mpr hb)
  simpa using this

theorem lowerBound?_eq_some {bound : κ} (h : lowerBound? key xs bound = some a) :
    a ∈ xs ∧ bound ≤ key a ∧ ∀ b ∈ xs, bound ≤ key b → key a ≤ key b := by
  obtain ⟨hbound, left, right, hview, hleft⟩ := List.find?_eq_some_iff_append.mp h
  have hsorted := view_pairwise key xs
  rw [hview, List.pairwise_append] at hsorted
  refine ⟨mem_view.mp (hview ▸ List.mem_append_right _ List.mem_cons_self), by simpa using hbound, ?_⟩
  intro b hb hge
  have hb' : b ∈ left ++ a :: right := hview ▸ mem_view.mpr hb
  rcases List.mem_append.mp hb' with hb' | hb'
  · have := hleft b hb'
    simp only [Bool.not_eq_eq_eq_not, Bool.not_true, decide_eq_false_iff_not] at this
    exact absurd hge this
  · rcases List.mem_cons.mp hb' with rfl | hb'
    · exact le_rfl
    · exact List.rel_of_pairwise_cons hsorted.2.1 hb'

theorem mem_dropWhile_lt {bound : κ} :
    a ∈ (view key xs).dropWhile (fun b => key b < bound) ↔ a ∈ xs ∧ bound ≤ key a := by
  have hmem : a ∈ xs ↔ a ∈ view key xs := mem_view.symm
  have hsorted := view_pairwise key xs
  rw [hmem]
  generalize view key xs = l at hsorted ⊢
  induction l with
  | nil => simp
  | cons b rest ih =>
    by_cases hb : key b < bound
    · rw [List.dropWhile_cons_of_pos (by simpa using hb), List.mem_cons]
      constructor
      · exact fun h => ⟨.inr ((ih hsorted.tail).mp h).1, ((ih hsorted.tail).mp h).2⟩
      · intro h
        refine (ih hsorted.tail).mpr ⟨h.1.resolve_left ?_, h.2⟩
        rintro rfl
        exact absurd hb (not_lt.mpr h.2)
    · rw [List.dropWhile_cons_of_neg (by simpa using hb)]
      refine ⟨fun h => ⟨h, ?_⟩, fun h => h.1⟩
      rcases List.mem_cons.mp h with rfl | h
      · exact not_lt.mp hb
      · exact (not_lt.mp hb).trans (List.rel_of_pairwise_cons hsorted h)

/-- A walk to the right finds all that it looks for, if nothing else comes in between. -/
theorem takeWhile_eq_filter {l : List α} {p : α → Bool}
    (hsorted : l.Pairwise (fun a b => key a ≤ key b))
    (hp : ∀ a ∈ l, ∀ b ∈ l, key a ≤ key b → p b = true → p a = true) :
    l.takeWhile p = l.filter p := by
  induction l with
  | nil => rfl
  | cons a rest ih =>
    by_cases ha : p a = true
    · rw [List.takeWhile_cons_of_pos ha, List.filter_cons_of_pos ha,
        ih hsorted.tail (fun b hb c hc => hp b (.tail _ hb) c (.tail _ hc))]
    · rw [List.takeWhile_cons_of_neg ha, List.filter_cons_of_neg ha]
      refine (List.filter_eq_nil_iff.mpr (fun b hb hpb => ha ?_)).symm
      exact hp a List.mem_cons_self b (.tail _ hb) (List.rel_of_pairwise_cons hsorted hb) hpb

section Neighbours

variable [DecidableEq α]

variable (key) in
/-- The view around an element: its neighbours are the last before and the first after it. -/
theorem view_split (ha : a ∈ xs) : ∃ left right, view key xs = left ++ a :: right ∧ a ∉ left ∧
    before? key xs a = left.getLast? ∧ after? key xs a = right.head? := by
  have hmem : a ∈ view key xs := mem_view.mpr ha
  obtain ⟨left, right, hview, hleft⟩ := List.eq_append_cons_of_mem hmem
  have hne : ∀ b ∈ left, decide (b ≠ a) = true := by
    intro b hb
    exact decide_eq_true (fun h => hleft (h ▸ hb))
  refine ⟨left, right, hview, hleft, ?_, ?_⟩
  · rw [before?, hview, List.takeWhile_append_of_pos hne]
    simp
  · rw [after?, hview, List.dropWhile_append_of_pos hne]
    simp

theorem before?_eq_some (ha : a ∈ xs) (h : before? key xs a = some b) :
    b ∈ xs ∧ b ≠ a ∧ key b ≤ key a := by
  obtain ⟨left, right, hview, hleft, hbefore, -⟩ := view_split key ha
  have hb : b ∈ left := List.mem_of_getLast? (hbefore ▸ h)
  have hsorted := view_pairwise key xs
  rw [hview, List.pairwise_append] at hsorted
  refine ⟨mem_view.mp (hview ▸ List.mem_append_left _ hb), fun hba => hleft (hba ▸ hb), ?_⟩
  exact hsorted.2.2 b hb a List.mem_cons_self

theorem after?_eq_some (ha : a ∈ xs) (hdistinct : xs.Nodup) (h : after? key xs a = some b) :
    b ∈ xs ∧ b ≠ a ∧ key a ≤ key b := by
  obtain ⟨left, right, hview, -, -, hafter⟩ := view_split key ha
  have hb : b ∈ right := List.mem_of_head? (hafter ▸ h)
  have hsorted := view_pairwise key xs
  have hnodup : (view key xs).Nodup := view_perm.nodup_iff.mpr hdistinct
  rw [hview, List.pairwise_append] at hsorted
  rw [hview, List.nodup_append] at hnodup
  refine ⟨mem_view.mp (hview ▸ List.mem_append_right _ (List.mem_cons_of_mem _ hb)), ?_, ?_⟩
  · exact fun hba => (List.nodup_cons.mp hnodup.2.1).1 (hba ▸ hb)
  · exact List.rel_of_pairwise_cons hsorted.2.1 hb

variable (key) in
theorem neighbour (ha : a ∈ xs) (hc : c ∈ xs) (hne : c ≠ a) :
    (∃ b, before? key xs a = some b ∧ key c ≤ key b ∧ key b ≤ key a) ∨
      ∃ b, after? key xs a = some b ∧ key a ≤ key b ∧ key b ≤ key c := by
  obtain ⟨left, right, hview, -, hbefore, hafter⟩ := view_split key ha
  have hsorted := view_pairwise key xs
  have hc' : c ∈ left ++ a :: right := hview ▸ mem_view.mpr hc
  rw [hview, List.pairwise_append] at hsorted
  obtain ⟨hl, hr, hlr⟩ := hsorted
  rcases List.mem_append.mp hc' with hc' | hc'
  · left
    obtain ⟨init, b, rfl⟩ : ∃ init b, left = init ++ [b] :=
      ⟨_, _, (List.dropLast_append_getLast (List.ne_nil_of_mem hc')).symm⟩
    refine ⟨b, by simp [hbefore], ?_, hlr b (by simp) a List.mem_cons_self⟩
    rcases List.mem_append.mp hc' with hc' | hc'
    · exact (List.pairwise_append.mp hl).2.2 c hc' b List.mem_cons_self
    · rw [List.mem_singleton.mp hc']
  · right
    have hc' : c ∈ right := (List.mem_cons.mp hc').resolve_left hne
    cases right with
    | nil => cases hc'
    | cons b rest =>
      refine ⟨b, by simp [hafter], List.rel_of_pairwise_cons hr List.mem_cons_self, ?_⟩
      rcases List.mem_cons.mp hc' with rfl | hc'
      · exact le_rfl
      · exact List.rel_of_pairwise_cons (List.pairwise_cons.mp hr).2 hc'

end Neighbours

end OrderedIndex
