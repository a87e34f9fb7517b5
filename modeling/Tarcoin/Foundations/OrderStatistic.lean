import Mathlib.Data.List.Sort

/-! The element at a position of a sorted list, by how many elements are at least as great. -/
namespace OrderStatistic

variable {α : Type*} [LinearOrder α] {l : List α} {k : ℕ}

theorem le_getElem_iff (hl : l.Pairwise (· ≤ ·)) (hk : k < l.length) (x : α) :
    x ≤ l[k] ↔ l.length - k ≤ l.countP (x ≤ ·) := by
  have hmono := hl.sortedLE.monotone_get
  constructor
  · intro hx
    have hall : ∀ a ∈ l.drop k, decide (x ≤ a) = true := by
      intro a ha
      obtain ⟨i, hi, rfl⟩ := List.mem_drop_iff_getElem.mp ha
      exact decide_eq_true (hx.trans (hmono (Fin.mk_le_mk.mpr (Nat.le_add_right k i))))
    have hcount := (List.drop_sublist k l).countP_le (p := (x ≤ ·))
    rwa [List.countP_eq_length.mpr hall, List.length_drop] at hcount
  · intro hcount
    by_contra hx
    have hnone : (l.take (k + 1)).countP (x ≤ ·) = 0 := by
      rw [List.countP_eq_zero]
      intro a ha
      obtain ⟨i, hi, rfl⟩ := List.mem_take_iff_getElem.mp ha
      rw [decide_eq_true_eq]
      exact fun hle => hx (hle.trans (hmono (Fin.mk_le_mk.mpr (by omega))))
    have hle := List.countP_le_length (p := (x ≤ ·)) (l := l.drop (k + 1))
    rw [← List.take_append_drop (k + 1) l, List.countP_append] at hcount
    simp only [List.take_append_drop, List.length_drop] at hcount hle
    omega

theorem le_getD_insertionSort_iff (l : List α) (hk : k < l.length) (x d : α) :
    x ≤ (l.insertionSort (· ≤ ·)).getD k d ↔ l.length - k ≤ l.countP (x ≤ ·) := by
  have hlen : (l.insertionSort (· ≤ ·)).length = l.length := List.length_insertionSort _ l
  rw [List.getD_eq_getElem?_getD, List.getElem?_eq_getElem (hlen ▸ hk), Option.getD_some,
    le_getElem_iff (List.pairwise_insertionSort _ l), hlen,
    (List.perm_insertionSort _ l).countP_eq]

end OrderStatistic
