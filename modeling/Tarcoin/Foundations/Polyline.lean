import Mathlib.Tactic

/-! Lines through points, from left to right: straight between the points, level after the last.
-/
namespace Polyline

variable {K : Type*} [Field K]

def width (steps : List (K × K)) : K := (steps.map Prod.fst).sum

@[simp] theorem width_cons (d : K × K) (steps : List (K × K)) :
    width (d :: steps) = d.1 + width steps := by simp [width]

variable [LinearOrder K]

/-- The height of the line over `x`, for a start and steps given as widths and heights. -/
def eval : K × K → List (K × K) → K → K
  | p, [], _ => p.2
  | p, d :: steps, x =>
    if x ≤ p.1 + d.1 then p.2 + (x - p.1) * (d.2 / d.1) else eval (p + d) steps x

def LinearOn (f : K → K) (x s : K) : Prop := ∃ m, ∀ y, x ≤ y → y ≤ s → f y = f x + m * (y - x)

variable {p d : K × K} {steps : List (K × K)} {f g : K → K} {x y s : K}

@[simp] theorem eval_nil : eval p [] x = p.2 := rfl

theorem eval_first (h : x ≤ p.1 + d.1) :
    eval p (d :: steps) x = p.2 + (x - p.1) * (d.2 / d.1) := if_pos h

theorem linearOn_nil : LinearOn (eval p []) x s := by
  refine ⟨0, fun y _ _ => ?_⟩
  rw [eval_nil, eval_nil, zero_mul, add_zero]

theorem eval_corner (h : 0 < d.1) : eval p (d :: steps) (p.1 + d.1) = p.2 + d.2 := by
  rw [eval_first le_rfl, add_sub_cancel_left, mul_div_cancel₀ _ h.ne']

variable [IsStrictOrderedRing K]

theorem eval_start (h : ∀ d ∈ steps, 0 < d.1) : eval p steps p.1 = p.2 := by
  cases steps with
  | nil => rfl
  | cons d steps =>
    rw [eval_first (le_add_of_nonneg_right (h d List.mem_cons_self).le), sub_self, zero_mul, add_zero]

theorem eval_tail (h : ∀ e ∈ d :: steps, 0 < e.1) (hx : p.1 + d.1 ≤ x) :
    eval p (d :: steps) x = eval (p + d) steps x := by
  obtain rfl | hlt := hx.eq_or_lt
  · rw [eval_corner (h d List.mem_cons_self)]
    have hstart := eval_start (p := p + d) fun e he => h e (List.mem_cons_of_mem d he)
    exact hstart.symm
  · exact if_neg (not_le.mpr hlt)

theorem linearOn_first (hx : x ≤ s) (hs : s ≤ p.1 + d.1) : LinearOn (eval p (d :: steps)) x s := by
  refine ⟨d.2 / d.1, fun y _ hys => ?_⟩
  rw [eval_first (hys.trans hs), eval_first (hx.trans hs)]
  ring

theorem LinearOn.lt_or_lt (hf : LinearOn f x s) (hg : LinearOn g x s) (hxy : x ≤ y) (hys : y ≤ s)
    (h : g y < f y) : g x < f x ∨ g s < f s := by
  obtain ⟨m, hm⟩ := hf
  obtain ⟨n, hn⟩ := hg
  by_contra hcon
  obtain ⟨hx, hs⟩ := not_or.mp hcon
  rw [hm y hxy hys, hn y hxy hys] at h
  rw [hm s (hxy.trans hys) le_rfl, hn s (hxy.trans hys) le_rfl] at hs
  obtain hle | hlt := le_or_gt m n
  · have hstep := mul_le_mul_of_nonneg_right hle (sub_nonneg.mpr hxy)
    linarith
  · have hstep := mul_le_mul_of_nonneg_left (sub_le_sub_right hys x) (sub_nonneg.mpr hlt.le)
    linarith

/-- To look for a place where one is greater, the two ends and what lies beyond are enough. -/
theorem LinearOn.exists_lt_iff (hf : LinearOn f x s) (hg : LinearOn g x s) (hxs : x ≤ s) :
    (∃ y, x ≤ y ∧ g y < f y) ↔ g x < f x ∨ g s < f s ∨ ∃ y, s ≤ y ∧ g y < f y := by
  constructor
  · intro ⟨y, hxy, hlt⟩
    obtain hys | hsy := le_total y s
    · obtain h | h := hf.lt_or_lt hg hxy hys hlt
      · exact .inl h
      · exact .inr (.inl h)
    · exact .inr (.inr ⟨y, hsy, hlt⟩)
  · intro h
    obtain h | h | ⟨y, hsy, hlt⟩ := h
    · exact ⟨x, le_rfl, h⟩
    · exact ⟨s, hxs, h⟩
    · exact ⟨y, hxs.trans hsy, hlt⟩

section Concave

section
variable (hpos : ∀ d ∈ steps, 0 < d.1)
include hpos

theorem eval_le_line {m : K} (hm : ∀ d ∈ steps, d.2 / d.1 ≤ m) (hx : p.1 ≤ x)
    (hend : x ≤ p.1 + width steps) : eval p steps x ≤ p.2 + m * (x - p.1) := by
  induction steps generalizing p with
  | nil => simp [le_antisymm (by simpa [width] using hend) hx]
  | cons d steps ih =>
    have hd := hm d List.mem_cons_self
    have hwidth := hpos d List.mem_cons_self
    obtain hle | hlt := le_or_gt x (p.1 + d.1)
    · rw [eval_first hle, mul_comm m]
      gcongr
    · have htail := ih (p := p + d) (fun e he => hpos e (List.mem_cons_of_mem d he))
        (fun e he => hm e (List.mem_cons_of_mem d he)) hlt.le (by simpa [add_assoc] using hend)
      rw [div_le_iff₀ hwidth] at hd
      rw [eval_tail hpos hlt.le]
      simp only [Prod.fst_add, Prod.snd_add] at htail
      linarith

/-- Where the slopes do not increase, a line through each point of the line lies above it. -/
theorem exists_support (hslopes : steps.Pairwise fun d e => e.2 / e.1 ≤ d.2 / d.1)
    (hx : x ≤ p.1 + width steps) :
    ∃ m, (∀ e ∈ steps.head?, m ≤ e.2 / e.1) ∧
      ∀ y ≤ p.1 + width steps, eval p steps y ≤ eval p steps x + m * (y - x) := by
  induction steps generalizing p with
  | nil => exact ⟨0, by simp, by simp⟩
  | cons d steps ih =>
    obtain ⟨hfirst, hrest⟩ := List.pairwise_cons.mp hslopes
    have hpos' := fun e he => hpos e (List.mem_cons_of_mem d he)
    have hend : ∀ y, y ≤ p.1 + width (d :: steps) ↔ y ≤ (p + d).1 + width steps := by
      simp [add_assoc]
    obtain hle | hlt := le_or_gt x (p.1 + d.1)
    · refine ⟨d.2 / d.1, by simp, fun y hy => ?_⟩
      rw [eval_first hle]
      obtain hyle | hylt := le_or_gt y (p.1 + d.1)
      · rw [eval_first hyle]
        linarith
      · have hline := eval_le_line hpos' hfirst (show (p + d).1 ≤ y from hylt.le) ((hend y).mp hy)
        rw [eval_tail hpos hylt.le]
        have hd : d.2 = d.2 / d.1 * d.1 := (div_mul_cancel₀ _ (hpos d List.mem_cons_self).ne').symm
        simp only [Prod.fst_add, Prod.snd_add] at hline
        linarith
    · obtain ⟨m, hm, hsupport⟩ := ih hpos' hrest ((hend x).mp hx)
      have hmd : m ≤ d.2 / d.1 := by
        cases steps with
        | nil => exact absurd ((hend x).mp hx) (by simpa [width] using hlt)
        | cons e steps => exact (hm e rfl).trans (hfirst e List.mem_cons_self)
      refine ⟨m, by simpa using hmd, fun y hy => ?_⟩
      rw [eval_tail hpos hlt.le]
      obtain hyle | hylt := le_or_gt y (p.1 + d.1)
      · have hcorner := hsupport (p + d).1 ((show (p + d).1 ≤ x from hlt.le).trans ((hend x).mp hx))
        rw [eval_start hpos'] at hcorner
        have hd : d.2 = d.2 / d.1 * d.1 := (div_mul_cancel₀ _ (hpos d List.mem_cons_self).ne').symm
        have hstep := mul_le_mul_of_nonneg_right hmd (sub_nonneg.mpr hyle)
        rw [eval_first hyle]
        simp only [Prod.fst_add, Prod.snd_add] at hcorner
        linarith
      · rw [eval_tail hpos hylt.le]
        exact hsupport y ((hend y).mp hy)

theorem concaveOn_eval (hslopes : steps.Pairwise fun d e => e.2 / e.1 ≤ d.2 / d.1) :
    ConcaveOn K (Set.Iic (p.1 + width steps)) (eval p steps) := by
  refine ⟨convex_Iic _, fun x hx y hy a b ha hb hab => ?_⟩
  have hmem : a • x + b • y ≤ p.1 + width steps := convex_Iic _ hx hy ha hb hab
  obtain ⟨m, -, hsupport⟩ := exists_support hpos hslopes hmem
  have hx' := mul_le_mul_of_nonneg_left (hsupport x hx) ha
  have hy' := mul_le_mul_of_nonneg_left (hsupport y hy) hb
  obtain rfl : b = 1 - a := by linarith
  simp only [smul_eq_mul] at hx' hy' ⊢
  linarith

/-- A concave function that is not below the corners is not below the line. -/
theorem eval_le_of_concaveOn {e : K} (hf : ConcaveOn K (Set.Icc p.1 e) f)
    (hend : p.1 + width steps ≤ e) (hstart : p.2 ≤ f p.1)
    (hcorners : ∀ first, first <+: steps → (p + first.sum).2 ≤ f (p + first.sum).1) (hx : p.1 ≤ x)
    (hxe : x ≤ p.1 + width steps) : eval p steps x ≤ f x := by
  induction steps generalizing p with
  | nil => simpa [le_antisymm (by simpa [width] using hxe) hx] using hstart
  | cons d steps ih =>
    have hd := hpos d List.mem_cons_self
    have hpos' := fun e he => hpos e (List.mem_cons_of_mem d he)
    have hwidth : 0 ≤ width steps := List.sum_nonneg (by simpa using fun a b h => (hpos' _ h).le)
    have hcorner := hcorners [d] ⟨steps, rfl⟩
    rw [List.sum_singleton] at hcorner
    rw [width_cons, ← add_assoc] at hend hxe
    obtain hle | hlt := le_or_gt x (p.1 + d.1)
    · -- between two corners the line is the chord
      set a := (x - p.1) / d.1 with ha
      have ha0 : 0 ≤ a := div_nonneg (sub_nonneg.mpr hx) hd.le
      have ha1 : a ≤ 1 := (div_le_one hd).mpr (by linarith)
      have hpoint : (1 - a) • p.1 + a • (p + d).1 = x := by
        rw [smul_eq_mul, smul_eq_mul, Prod.fst_add, ha]
        field_simp
        ring
      have hchord := hf.2 (x := p.1) (y := (p + d).1) ⟨le_rfl, by linarith⟩
        ⟨le_add_of_nonneg_right hd.le, by simp only [Prod.fst_add]; linarith⟩
        (sub_nonneg.mpr ha1) ha0 (by ring)
      rw [hpoint, smul_eq_mul, smul_eq_mul] at hchord
      have heval : eval p (d :: steps) x = (1 - a) * p.2 + a * (p + d).2 := by
        rw [eval_first hle, Prod.snd_add]
        ring
      have h₁ := mul_le_mul_of_nonneg_left hstart (sub_nonneg.mpr ha1)
      have h₂ := mul_le_mul_of_nonneg_left hcorner ha0
      linarith
    · rw [eval_tail hpos hlt.le]
      apply ih hpos' (hf.subset (Set.Icc_subset_Icc_left (le_add_of_nonneg_right hd.le))
        (convex_Icc _ _)) hend hcorner _ hlt.le hxe
      intro first hfirst
      have := hcorners (d :: first) (List.cons_prefix_cons.mpr ⟨rfl, hfirst⟩)
      rwa [List.sum_cons, ← add_assoc] at this

end

end Concave

end Polyline
