import Mathlib.Tactic

/-! Two's complement addition under a range guard. The exact results make every overflow visible.
-/
namespace GuardedSum

/-- The value a `w`-bit signed register holds after the exact result `x`. -/
def wrap (w : ℕ) (x : ℤ) : ℤ := (x + 2 ^ (w - 1)) % 2 ^ w - 2 ^ (w - 1)

/-- The exact result is representable in `w` signed bits. -/
def Fits (w : ℕ) (x : ℤ) : Prop := -2 ^ (w - 1) ≤ x ∧ x < 2 ^ (w - 1)

instance (w : ℕ) (x : ℤ) : Decidable (Fits w x) := by
  unfold Fits
  infer_instance

variable {w : ℕ}

theorem two_pow_pred (hw : 0 < w) : (2 : ℤ) ^ w = 2 * 2 ^ (w - 1) := by
  obtain ⟨k, rfl⟩ := Nat.exists_eq_succ_of_ne_zero hw.ne'
  rw [Nat.succ_sub_one, pow_succ]
  ring

theorem wrap_of_fits (hw : 0 < w) {x : ℤ} (h : Fits w x) : wrap w x = x := by
  unfold wrap
  have hp := two_pow_pred hw
  rw [Int.emod_eq_of_lt]
  · ring
  · linarith [h.1]
  · linarith [h.2]

theorem wrap_of_overflow (hw : 0 < w) {x : ℤ} (hl : 2 ^ (w - 1) ≤ x) (hu : x < 2 ^ w) :
    wrap w x = x - 2 ^ w := by
  unfold wrap
  have hp := two_pow_pred hw
  have hs : x + 2 ^ (w - 1) = (x - 2 ^ (w - 1)) + 2 ^ w := by linarith
  rw [hs, Int.add_emod_right, Int.emod_eq_of_lt]
  · linarith
  · linarith
  · linarith [pow_pos (show (0 : ℤ) < 2 by norm_num) (w - 1)]

/-- The guard is exact although the addition may have wrapped: the wrapped total
is inside `[0, M]` precisely when the exact total is at most `M`. -/
theorem wrap_in_range_iff (hw : 0 < w) {M a b : ℤ} (hM : M < 2 ^ (w - 1))
    (ha : 0 ≤ a ∧ a ≤ M) (hb : 0 ≤ b ∧ b ≤ M) :
    (0 ≤ wrap w (a + b) ∧ wrap w (a + b) ≤ M) ↔ a + b ≤ M := by
  have hp := two_pow_pred hw
  by_cases hf : a + b < 2 ^ (w - 1)
  · have hfit : Fits w (a + b) := ⟨by linarith [ha.1, hb.1, ha.2], hf⟩
    rw [wrap_of_fits hw hfit]
    constructor
    · exact fun h => h.2
    · intro h
      exact ⟨by linarith [ha.1, hb.1], h⟩
  · have hl : 2 ^ (w - 1) ≤ a + b := not_lt.mp hf
    have hu : a + b < 2 ^ w := by linarith [ha.2, hb.2]
    rw [wrap_of_overflow hw hl hu]
    constructor
    · intro h
      linarith [h.1]
    · intro h
      linarith

theorem wrap_add_of_le (hw : 0 < w) {M a b : ℤ} (hM : M < 2 ^ (w - 1))
    (ha : 0 ≤ a) (hb : 0 ≤ b) (h : a + b ≤ M) : wrap w (a + b) = a + b :=
  wrap_of_fits hw ⟨by linarith [pow_pos (show (0 : ℤ) < 2 by norm_num) (w - 1)], by linarith⟩

section Run

variable {α : Type*} (w) (M : ℤ) (enter keep : α → Bool) (f : α → ℤ)

/-- The exact results of the additions a guarded loop evaluates. An element that is
not entered stops the loop before its addition; one that is not kept, or whose
wrapped total leaves `[0, M]`, stops it right after. -/
def sums : ℤ → List α → List ℤ
  | _, [] => []
  | acc, x :: xs =>
    if enter x then
      if keep x && decide (0 ≤ wrap w (acc + f x) ∧ wrap w (acc + f x) ≤ M) then
        (acc + f x) :: sums (wrap w (acc + f x)) xs
      else [acc + f x]
    else []

/-- A prefix that passes every guard is followed by an entered element whose
addition leaves the signed range. -/
def Overflows (acc : ℤ) (xs : List α) : Prop :=
  ∃ pre x post, xs = pre ++ x :: post ∧ (∀ y ∈ pre, enter y = true ∧ keep y = true) ∧
    enter x = true ∧ acc + (pre.map f).sum ≤ M ∧ 2 ^ (w - 1) ≤ acc + (pre.map f).sum + f x

variable {w M enter keep f}

theorem overflows_cons_iff {acc : ℤ} {x : α} {xs : List α}
    (hf : ∀ y ∈ xs, enter y = true → 0 ≤ f y) (ha : acc ≤ M) :
    Overflows w M enter keep f acc (x :: xs) ↔
      enter x = true ∧ (2 ^ (w - 1) ≤ acc + f x ∨
        (keep x = true ∧ acc + f x ≤ M ∧ Overflows w M enter keep f (acc + f x) xs)) := by
  constructor
  · rintro ⟨pre, y, post, he, hpre, hy, hle, hov⟩
    cases pre with
    | nil =>
      obtain ⟨rfl, -⟩ := List.cons.inj he
      exact ⟨hy, .inl (by simpa using hov)⟩
    | cons p pre =>
      obtain ⟨rfl, rfl⟩ := List.cons.inj he
      have hp := hpre x (by simp)
      have hsum : 0 ≤ (pre.map f).sum := by
        apply List.sum_nonneg
        intro z hz
        obtain ⟨u, hu, rfl⟩ := List.mem_map.mp hz
        exact hf u (by simp [hu]) (hpre u (by simp [hu])).1
      simp only [List.map_cons, List.sum_cons] at hle hov
      refine ⟨hp.1, .inr ⟨hp.2, by linarith, pre, y, post, rfl, ?_, hy, by linarith, by linarith⟩⟩
      exact fun z hz => hpre z (by simp [hz])
  · rintro ⟨hx, hov | ⟨hk, -, pre, y, post, rfl, hpre, hy, hle, hov⟩⟩
    · exact ⟨[], x, xs, rfl, by simp, hx, by simpa using ha, by simpa using hov⟩
    · refine ⟨x :: pre, y, post, rfl, ?_, hy, ?_, ?_⟩
      · simpa using ⟨⟨hx, hk⟩, hpre⟩
      · simp only [List.map_cons, List.sum_cons]
        linarith
      · simp only [List.map_cons, List.sum_cons]
        linarith

/-- Every evaluated addition is representable exactly when no guarded prefix is
followed by an overflowing element. -/
theorem sums_fit_iff (hw : 0 < w) (hM : M < 2 ^ (w - 1)) (xs : List α)
    (hx : ∀ y ∈ xs, enter y = true → 0 ≤ f y ∧ f y ≤ M) (acc : ℤ) (ha : 0 ≤ acc ∧ acc ≤ M) :
    (∀ s ∈ sums w M enter keep f acc xs, Fits w s) ↔ ¬ Overflows w M enter keep f acc xs := by
  induction xs generalizing acc with
  | nil => simp [sums, Overflows]
  | cons x xs ih =>
    rw [overflows_cons_iff (fun y hy h => (hx y (by simp [hy]) h).1) ha.2]
    by_cases hent : enter x = true
    · have hfx := hx x (by simp) hent
      have hr := wrap_in_range_iff hw hM ha hfx
      have hfit : Fits w (acc + f x) ↔ ¬ 2 ^ (w - 1) ≤ acc + f x := by
        unfold Fits
        rw [not_le]
        exact ⟨fun h => h.2, fun h => ⟨by linarith [ha.1, hfx.1], h⟩⟩
      by_cases hc : keep x = true ∧ acc + f x ≤ M
      · have hwrap := wrap_add_of_le hw hM ha.1 hfx.1 hc.2
        have ht := ih (fun y hy => hx y (by simp [hy])) (acc + f x)
          ⟨by linarith [ha.1, hfx.1], hc.2⟩
        simp only [sums, hent, ↓reduceIte, hc.1, Bool.true_and, decide_eq_true (hr.mpr hc.2),
          List.forall_mem_cons, hfit]
        rw [hwrap, ht]
        simp [hc.2]
      · have hstop : (keep x && decide (0 ≤ wrap w (acc + f x) ∧ wrap w (acc + f x) ≤ M)) =
            false := by
          rw [Bool.and_eq_false_iff, decide_eq_false_iff_not, hr]
          rcases not_and_or.mp hc with hk | hle
          · exact .inl (by simpa using hk)
          · exact .inr hle
        simp only [sums, hent, ↓reduceIte, hstop, Bool.false_eq_true, List.forall_mem_singleton, hfit]
        have : ¬ (keep x = true ∧ acc + f x ≤ M ∧ Overflows w M enter keep f (acc + f x) xs) :=
          fun h => hc ⟨h.1, h.2.1⟩
        simp [this]
    · simp [sums, hent]

end Run

end GuardedSum
