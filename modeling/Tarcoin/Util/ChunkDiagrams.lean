import Tarcoin.Util.CompareChunks

/-! The sweep of `CompareChunks` looks at the diagrams only at their points; as both are straight
in between, that settles how they compare at every size. -/
namespace Tarcoin.Util
open GuardedSum Polyline

namespace FeeFrac

theorem mulFallback_spec {a b : ℤ} (ha : Fits 64 a) (hb : Fits 32 b) :
    (mulFallback a b).1 * 2 ^ 32 + (mulFallback a b).2 = a * b ∧
      0 ≤ (mulFallback a b).2 ∧ (mulFallback a b).2 < 2 ^ 32 := by
  obtain ⟨ha₁, ha₂⟩ := ha
  have hlow : 0 ≤ a % 2 ^ 32 ∧ a % 2 ^ 32 < 2 ^ 32 := by omega
  have hhigh : |a / 2 ^ 32| ≤ 2 ^ 31 := by
    rw [abs_le]
    omega
  have hb' : |b| ≤ 2 ^ 31 := abs_le.mpr ⟨hb.1, hb.2.le⟩
  have hsplit : a * b = a / 2 ^ 32 * b * 2 ^ 32 + a % 2 ^ 32 * b := by
    nth_rewrite 1 [← Int.ediv_mul_add_emod a (2 ^ 32)]
    ring
  unfold mulFallback
  dsimp only
  generalize a / 2 ^ 32 = high at *
  generalize a % 2 ^ 32 = low at *
  have hlowb : Fits 64 (low * b) := by
    have h₁ := mul_le_mul_of_nonneg_left (abs_le.mp hb').1 hlow.1
    have h₂ := mul_le_mul_of_nonneg_left (abs_le.mp hb').2 hlow.1
    norm_num [Fits]
    omega
  have hhighb : |high * b| ≤ 2 ^ 62 := by
    rw [abs_mul]
    calc |high| * |b| ≤ 2 ^ 31 * 2 ^ 31 := mul_le_mul hhigh hb' (abs_nonneg b) (by norm_num)
      _ = 2 ^ 62 := by norm_num
  rw [abs_le] at hhighb
  have hfits : Fits 64 (high * b) := by
    norm_num [Fits]
    omega
  rw [wrap_of_fits (by norm_num) hlowb, wrap_of_fits (by norm_num) hfits]
  obtain ⟨hl₁, hl₂⟩ := hlowb
  have hsum : Fits 64 (high * b + low * b / 2 ^ 32) := by
    norm_num [Fits]
    omega
  rw [wrap_of_fits (by norm_num) hsum]
  omega

theorem mulFallback_lt_iff {a b c d : ℤ} (ha : Fits 64 a) (hb : Fits 32 b) (hc : Fits 64 c)
    (hd : Fits 32 d) : toLex (mulFallback a b) < toLex (mulFallback c d) ↔ a * b < c * d := by
  obtain ⟨h₁, h₂, h₃⟩ := mulFallback_spec ha hb
  obtain ⟨k₁, k₂, k₃⟩ := mulFallback_spec hc hd
  rw [Prod.Lex.toLex_lt_toLex, ← k₁]
  omega

/-- The fee and the size are words of their widths. -/
structure InRange (a : FeeFrac) : Prop where
  fee : Fits 64 a.fee
  size : Fits 32 a.size

variable {platform : Platform} {a b : FeeFrac}

theorem byRatio_eq_gt_iff (ha : a.InRange) (hb : b.InRange) :
    a.byRatio platform b = .gt ↔ b.fee * a.size < a.fee * b.size := by
  cases platform with
  | int128 => exact compare_gt_iff_gt
  | fallback => exact compare_gt_iff_gt.trans (mulFallback_lt_iff hb.fee ha.size ha.fee hb.size)

theorem byRatio_eq_lt_iff (ha : a.InRange) (hb : b.InRange) :
    a.byRatio platform b = .lt ↔ a.fee * b.size < b.fee * a.size := by
  cases platform with
  | int128 => exact compare_lt_iff_lt
  | fallback => exact compare_lt_iff_lt.trans (mulFallback_lt_iff ha.fee hb.size hb.fee ha.size)

end FeeFrac

section Points

def total (chunks : List FeeFrac) : FeeFrac :=
  ⟨(chunks.map FeeFrac.fee).sum, (chunks.map FeeFrac.size).sum⟩

def IsPoint (chunks₀ chunks₁ : List FeeFrac) (p : FeeFrac) : Prop :=
  ∃ first, (first <+: chunks₀ ∨ first <+: chunks₁) ∧ p = total first

/-- No difference of points overflows, and as the origin is a point, no point does. -/
def NoOverflow (chunks₀ chunks₁ : List FeeFrac) : Prop :=
  ∀ p q, IsPoint chunks₀ chunks₁ p → IsPoint chunks₀ chunks₁ q →
    Fits 64 (p.fee - q.fee) ∧ Fits 32 (p.size - q.size)

variable {chunks₀ chunks₁ : List FeeFrac} {p q : FeeFrac}

theorem IsPoint.symm (h : IsPoint chunks₀ chunks₁ p) : IsPoint chunks₁ chunks₀ p := by
  obtain ⟨first, hfirst, rfl⟩ := h
  exact ⟨first, hfirst.symm, rfl⟩

theorem NoOverflow.symm (h : NoOverflow chunks₀ chunks₁) : NoOverflow chunks₁ chunks₀ :=
  fun p q hp hq => h p q hp.symm hq.symm

theorem NoOverflow.sub_eq (h : NoOverflow chunks₀ chunks₁) (hp : IsPoint chunks₀ chunks₁ p)
    (hq : IsPoint chunks₀ chunks₁ q) :
    p.sub q = ⟨p.fee - q.fee, p.size - q.size⟩ ∧
      FeeFrac.InRange ⟨p.fee - q.fee, p.size - q.size⟩ := by
  obtain ⟨hfee, hsize⟩ := h p q hp hq
  refine ⟨?_, hfee, hsize⟩
  rw [FeeFrac.sub, wrap_of_fits (by norm_num) hfee, wrap_of_fits (by norm_num) hsize]

variable {c : FeeFrac} {s : Side} {rest : List FeeFrac}

theorem NoOverflow.add_eq (h : NoOverflow chunks₀ chunks₁)
    (hp : IsPoint chunks₀ chunks₁ ⟨p.fee + c.fee, p.size + c.size⟩) :
    p.add c = ⟨p.fee + c.fee, p.size + c.size⟩ ∧ c.add p = ⟨p.fee + c.fee, p.size + c.size⟩ := by
  obtain ⟨hfee, hsize⟩ := h _ ⟨0, 0⟩ hp ⟨[], .inl ( List.nil_prefix), rfl⟩
  rw [sub_zero] at hfee hsize
  rw [FeeFrac.add, FeeFrac.add, add_comm c.fee, add_comm c.size, wrap_of_fits (by norm_num) hfee,
    wrap_of_fits (by norm_num) hsize]
  exact ⟨rfl, rfl⟩

/-- A side stands at a point of its diagram, before the chunks it has left. -/
def Tracks (chunks : List FeeFrac) (s : Side) : Prop :=
  ∃ first, first ++ s.rest = chunks ∧ s.accum = total first

theorem Tracks.isPoint (h : Tracks chunks₀ s) : IsPoint chunks₀ chunks₁ s.accum := by
  obtain ⟨first, rfl, haccum⟩ := h
  exact ⟨first, .inl ( List.prefix_append first s.rest), haccum⟩

theorem total_append_singleton (first : List FeeFrac) (c : FeeFrac) :
    total (first ++ [c]) = ⟨(total first).fee + c.fee, (total first).size + c.size⟩ := by
  simp [total]

theorem Tracks.next (h : Tracks chunks₀ s) (hrest : s.rest = c :: rest) :
    Tracks chunks₀ ⟨rest, ⟨s.accum.fee + c.fee, s.accum.size + c.size⟩, s.better⟩ := by
  obtain ⟨first, hchunks, haccum⟩ := h
  refine ⟨first ++ [c], ?_, ?_⟩
  · rw [List.append_assoc, List.singleton_append, ← hrest, hchunks]
  · rw [total_append_singleton, ← haccum]

theorem Tracks.advance_eq (h : Tracks chunks₀ s) (hno : NoOverflow chunks₀ chunks₁)
    (hrest : s.rest = c :: rest) :
    s.advance = ⟨rest, ⟨s.accum.fee + c.fee, s.accum.size + c.size⟩, s.better⟩ := by
  rw [Side.advance, hrest, ← (hno.add_eq (h.next hrest).isPoint).1]

end Points

section Diagrams

noncomputable def FeeFrac.toPoint (a : FeeFrac) : ℝ × ℝ := (a.size, a.fee)

/-- The diagram of the chunks: from the origin through the points they add up to, then level. -/
noncomputable def diagram (chunks : List FeeFrac) : ℝ → ℝ :=
  eval (0, 0) (chunks.map FeeFrac.toPoint)

/-- The part of its diagram that a side has not left behind. -/
noncomputable def Side.line (s : Side) : ℝ → ℝ := eval s.accum.toPoint (s.rest.map FeeFrac.toPoint)

variable {s t : Side} {c d : FeeFrac} {rest : List FeeFrac} {x y : ℝ}

theorem toPoint_add (a c : FeeFrac) :
    (⟨a.fee + c.fee, a.size + c.size⟩ : FeeFrac).toPoint = a.toPoint + c.toPoint := by
  simp [FeeFrac.toPoint]

theorem toPoint_pos {chunks : List FeeFrac} (h : ∀ c ∈ chunks, 0 < c.size) :
    ∀ e ∈ chunks.map FeeFrac.toPoint, 0 < e.1 := by
  intro e he
  obtain ⟨c, hc, rfl⟩ := List.mem_map.mp he
  exact Int.cast_pos.mpr (h c hc)

theorem line_nil (hrest : s.rest = []) : s.line x = s.accum.fee := by
  rw [Side.line, hrest]
  rfl

theorem line_first (hrest : s.rest = c :: rest) (hx : x ≤ s.accum.size + c.size) :
    s.line x = s.accum.fee + (x - s.accum.size) * (c.fee / c.size) := by
  rw [Side.line, hrest]
  exact eval_first hx

theorem line_corner (hrest : s.rest = c :: rest) (hc : 0 < c.size) :
    s.line (s.accum.size + c.size) = s.accum.fee + c.fee := by
  rw [Side.line, hrest]
  exact eval_corner (Int.cast_pos.mpr hc)

theorem line_next (hrest : s.rest = c :: rest) (hpos : ∀ e ∈ s.rest, 0 < e.size) (b : Bool)
    (hx : s.accum.size + c.size ≤ x) :
    (⟨rest, ⟨s.accum.fee + c.fee, s.accum.size + c.size⟩, b⟩ : Side).line x = s.line x := by
  rw [Side.line, Side.line, hrest, toPoint_add]
  rw [hrest] at hpos
  exact (eval_tail (toPoint_pos hpos) hx).symm

theorem linearOn_line (hxy : x ≤ y) (hy : ∀ e ∈ s.rest.head?, y ≤ s.accum.size + e.size) :
    LinearOn s.line x y := by
  unfold Side.line
  cases hrest : s.rest with
  | nil => exact linearOn_nil
  | cons c rest =>
    rw [hrest] at hy
    exact linearOn_first hxy (hy c rfl)

end Diagrams

section Sweep

variable {chunks₀ chunks₁ : List FeeFrac} {s t : Side} {p c : FeeFrac} {rest : List FeeFrac}
  {platform : FeeFrac.Platform}

section Point
variable (hno : NoOverflow chunks₀ chunks₁) (ht : Tracks chunks₁ t) (hpos : ∀ e ∈ t.rest, 0 < e.size)
  (hle : ∀ e ∈ t.rest.head?, p.size ≤ t.accum.size + e.size)
include hno ht hpos hle

theorem comparePoint_spec (hp : IsPoint chunks₀ chunks₁ p) :
    (comparePoint platform p t = .gt ↔ t.line p.size < p.fee) ∧
      (comparePoint platform p t = .lt ↔ p.fee < t.line p.size) := by
  have hta : IsPoint chunks₀ chunks₁ t.accum := ht.isPoint.symm
  obtain ⟨hap, hapr⟩ := hno.sub_eq hp hta
  unfold comparePoint
  cases hrest : t.rest with
  | nil =>
    have hone : FeeFrac.InRange ⟨0, 1⟩ := ⟨by decide, by decide⟩
    rw [hap, FeeFrac.byRatio_eq_gt_iff hapr hone, FeeFrac.byRatio_eq_lt_iff hapr hone,
      line_nil hrest]
    norm_cast
    constructor <;> constructor <;> intro h <;> linarith
  | cons d rest =>
    rw [hrest] at hpos hle
    have hB : IsPoint chunks₀ chunks₁ ⟨t.accum.fee + d.fee, t.accum.size + d.size⟩ :=
      (ht.next hrest).isPoint.symm
    obtain ⟨hab, habr⟩ := hno.sub_eq hB hta
    dsimp only
    rw [(hno.add_eq hB).2, hap, hab, FeeFrac.byRatio_eq_gt_iff hapr habr,
      FeeFrac.byRatio_eq_lt_iff hapr habr]
    have hd : (0 : ℝ) < d.size := Int.cast_pos.mpr (hpos d List.mem_cons_self)
    have hx : (p.size : ℝ) ≤ t.accum.size + d.size := by exact_mod_cast hle d rfl
    rw [add_sub_cancel_left, add_sub_cancel_left, line_first hrest hx, ← mul_div_assoc,
      ← lt_sub_iff_add_lt', div_lt_iff₀ hd, ← sub_lt_iff_lt_add', lt_div_iff₀ hd, mul_comm d.fee]
    norm_cast

theorem catchUp_spec (hlt : t.accum.size ≤ p.size) :
    Tracks chunks₁ (catchUp p t) ∧ (catchUp p t).accum.size ≤ p.size ∧
      (catchUp p t).rest.length ≤ t.rest.length ∧
      (∀ e ∈ (catchUp p t).rest.head?, p.size < (catchUp p t).accum.size + e.size) ∧
      ∀ y : ℝ, p.size ≤ y → (catchUp p t).line y = t.line y := by
  unfold catchUp
  cases hrest : t.rest with
  | nil =>
    exact ⟨ht, hlt, by rw [hrest], by rw [hrest]; nofun, fun _ _ => rfl⟩
  | cons d rest =>
    have hB : IsPoint chunks₀ chunks₁ ⟨t.accum.fee + d.fee, t.accum.size + d.size⟩ :=
      (ht.next hrest).isPoint.symm
    dsimp only
    rw [(hno.add_eq hB).2]
    dsimp only
    split_ifs with heq
    · rw [ht.advance_eq hno.symm hrest]
      refine ⟨ht.next hrest, heq.le, Nat.le_succ _, fun e he => ?_, fun y hy => ?_⟩
      · have he' : e ∈ t.rest := hrest ▸ List.mem_cons_of_mem d (List.mem_of_mem_head? he)
        have hepos := hpos e he'
        dsimp only
        omega
      · exact line_next hrest hpos _ (by rw [← Int.cast_add, heq]; exact hy)
    · refine ⟨ht, hlt, by rw [hrest], fun e he => ?_, fun _ _ => rfl⟩
      rw [hrest] at he hle
      cases he
      exact lt_of_le_of_ne (hle d rfl) (Ne.symm heq)

end Point

/-- The sweep has come to the size `x`. `W` and `V` say where the first and the second diagram are
better: there, if it has been seen, or further on. -/
structure Sweep (chunks₀ chunks₁ : List FeeFrac) (W V : Prop) (s t : Side) (x : ℤ) : Prop where
  tracks₀ : Tracks chunks₀ s
  tracks₁ : Tracks chunks₁ t
  left₀ : s.accum.size ≤ x
  left₁ : t.accum.size ≤ x
  right₀ : ∀ e ∈ s.rest.head?, x < s.accum.size + e.size
  right₁ : ∀ e ∈ t.rest.head?, x < t.accum.size + e.size
  seen₀ : t.line x < s.line x → s.better = true
  seen₁ : s.line x < t.line x → t.better = true
  better₀ : W ↔ s.better = true ∨ ∃ y : ℝ, x ≤ y ∧ t.line y < s.line y
  better₁ : V ↔ t.better = true ∨ ∃ y : ℝ, x ≤ y ∧ s.line y < t.line y

variable {W V : Prop} {x : ℤ}

theorem Sweep.swap (h : Sweep chunks₀ chunks₁ W V s t x) : Sweep chunks₁ chunks₀ V W t s x :=
  ⟨h.tracks₁, h.tracks₀, h.left₁, h.left₀, h.right₁, h.right₀, h.seen₁, h.seen₀, h.better₁,
    h.better₀⟩

theorem Tracks.pos (h : Tracks chunks₀ s) (hpos : ∀ e ∈ chunks₀, 0 < e.size) :
    ∀ e ∈ s.rest, 0 < e.size := by
  obtain ⟨first, rfl, -⟩ := h
  exact fun e he => hpos e (List.mem_append_right first he)

/-- Nothing is missed between one size and the next, where the lines are straight. -/
theorem better_step {f g f' g' : ℝ → ℝ} {x z : ℝ} {b now : Bool} (hf : LinearOn f x z)
    (hg : LinearOn g x z) (hxz : x ≤ z) (hf' : ∀ y, z ≤ y → f' y = f y)
    (hg' : ∀ y, z ≤ y → g' y = g y) (hseen : g x < f x → b = true)
    (hnow : now = true ↔ g z < f z) :
    (b = true ∨ ∃ y, x ≤ y ∧ g y < f y) ↔
      (b || now) = true ∨ ∃ y, z ≤ y ∧ g' y < f' y := by
  have hsame : (∃ y, z ≤ y ∧ g' y < f' y) ↔ ∃ y, z ≤ y ∧ g y < f y := by
    refine exists_congr fun y => and_congr_right fun hy => ?_
    rw [hf' y hy, hg' y hy]
  rw [hf.exists_lt_iff hg hxz, hsame, Bool.or_eq_true]
  tauto

/-- At the end both lines are level, and all has been seen. -/
theorem Sweep.done (h : Sweep chunks₀ chunks₁ W V s t x) (hs : s.rest = []) (ht : t.rest = []) :
    W ↔ s.better = true := by
  refine h.better₀.trans ⟨?_, .inl⟩
  rintro (hw | ⟨y, -, hy⟩)
  · exact hw
  · rw [line_nil hs, line_nil ht] at hy
    apply h.seen₀
    rwa [line_nil hs, line_nil ht]

open Classical in
noncomputable def orderOf (W V : Prop) : PartialOrdering :=
  if W then (if V then .unordered else .greater) else if V then .less else .equivalent

theorem compareBetter_eq (hW : W ↔ s.better = true) (hV : V ↔ t.better = true)
    (hone : (s.better && t.better) = false) : compareBetter s.better t.better = orderOf W V := by
  unfold orderOf
  cases hs : s.better <;> cases ht : t.better <;> simp_all [compareBetter]

theorem compareStep_eq_none (h : compareStep platform s t = none) : s.rest = [] ∧ t.rest = [] := by
  unfold compareStep at h
  split at h
  · rename_i hs ht
    exact ⟨hs, ht⟩
  · cases h
  · cases h
  · split_ifs at h

section
variable (hno : NoOverflow chunks₀ chunks₁) (hpos₀ : ∀ e ∈ chunks₀, 0 < e.size)
  (hpos₁ : ∀ e ∈ chunks₁, 0 < e.size) (h : Sweep chunks₀ chunks₁ W V s t x)
include hno hpos₀ hpos₁ h

variable (platform) in
/-- The next point of the first side, if it does not come after the next of the second. -/
theorem Sweep.processPoint (hrest : s.rest = c :: rest)
    (hle : ∀ e ∈ t.rest.head?, s.accum.size + c.size ≤ t.accum.size + e.size) :
    Sweep chunks₀ chunks₁ W V (processPoint platform s t c).1 (processPoint platform s t c).2
      (s.accum.size + c.size) ∧
    (processPoint platform s t c).1.rest.length + (processPoint platform s t c).2.rest.length <
      s.rest.length + t.rest.length := by
  have hps := h.tracks₀.pos hpos₀
  have hpt := h.tracks₁.pos hpos₁
  have hnext := h.tracks₀.next hrest
  have hP : IsPoint chunks₀ chunks₁ ⟨s.accum.fee + c.fee, s.accum.size + c.size⟩ := hnext.isPoint
  have hx : x < s.accum.size + c.size := h.right₀ c (by rw [hrest]; rfl)
  obtain ⟨hgt, hlt⟩ := @comparePoint_spec _ _ _ _ platform hno h.tracks₁ hpt hle hP
  obtain ⟨htracks, hleft, hlen, hright, hline⟩ := catchUp_spec hno h.tracks₁ hpt
    (p := ⟨s.accum.fee + c.fee, s.accum.size + c.size⟩) hle (h.left₁.trans hx.le)
  unfold Tarcoin.Util.processPoint
  dsimp only
  rw [(hno.add_eq hP).2, h.tracks₀.advance_eq hno hrest]
  generalize comparePoint platform _ t = cmp at *
  generalize catchUp _ t = t' at *
  dsimp only at *
  have hcorner : s.line (s.accum.size + c.size : ℤ) = (s.accum.fee + c.fee : ℤ) := by
    push_cast
    exact line_corner hrest (hps c (hrest ▸ List.mem_cons_self))
  rw [← hcorner] at hgt hlt
  have hnew (b : Bool) {y : ℝ} (hy : (s.accum.size + c.size : ℤ) ≤ y) :
      (⟨rest, ⟨s.accum.fee + c.fee, s.accum.size + c.size⟩, b⟩ : Side).line y = s.line y :=
    line_next hrest hps b (by exact_mod_cast hy)
  have hx' : (x : ℝ) ≤ (s.accum.size + c.size : ℤ) := Int.cast_le.mpr hx.le
  have hlins : LinearOn s.line x (s.accum.size + c.size : ℤ) := by
    refine linearOn_line hx' fun e he => ?_
    rw [hrest] at he
    cases he
    exact_mod_cast le_rfl
  have hlint : LinearOn t.line x (s.accum.size + c.size : ℤ) :=
    linearOn_line hx' fun e he => by exact_mod_cast hle e he
  have hnow₀ : (cmp == .gt) = true ↔ t.line (s.accum.size + c.size : ℤ) <
      s.line (s.accum.size + c.size : ℤ) := by rw [beq_iff_eq, hgt]
  have hnow₁ : (cmp == .lt) = true ↔ s.line (s.accum.size + c.size : ℤ) <
      t.line (s.accum.size + c.size : ℤ) := by rw [beq_iff_eq, hlt]
  refine ⟨⟨hnext, htracks, le_rfl, hleft, fun e he => ?_, hright, fun hbetter => ?_,
    fun hbetter => ?_, ?_, ?_⟩, ?_⟩
  · have hepos := hps e (hrest ▸ List.mem_cons_of_mem c (List.mem_of_mem_head? he))
    dsimp only
    omega
  · rw [hnew _ le_rfl] at hbetter
    rw [Bool.or_eq_true, hnow₀]
    exact .inr ((hline _ le_rfl).symm.trans_lt hbetter)
  · rw [hnew _ le_rfl] at hbetter
    rw [Bool.or_eq_true, hnow₁]
    exact .inr (hbetter.trans_eq (hline _ le_rfl))
  · exact h.better₀.trans (better_step hlins hlint hx' (fun y hy => hnew _ hy) hline h.seen₀ hnow₀)
  · exact h.better₁.trans (better_step hlint hlins hx' hline (fun y hy => hnew _ hy) h.seen₁ hnow₁)
  · rw [hrest, List.length_cons]
    omega

theorem Sweep.compareStep {s' t' : Side} (hstep : compareStep platform s t = some (s', t')) :
    (∃ x', Sweep chunks₀ chunks₁ W V s' t' x') ∧
      s'.rest.length + t'.rest.length < s.rest.length + t.rest.length := by
  unfold Tarcoin.Util.compareStep at hstep
  split at hstep
  · cases hstep
  · rename_i c rest hs ht
    obtain ⟨hsweep, hlen⟩ := h.swap.processPoint platform hno.symm hpos₁ hpos₀ ht
      (by rw [hs]; nofun)
    cases hstep
    exact ⟨⟨_, hsweep.swap⟩, by omega⟩
  · rename_i c rest hs ht
    obtain ⟨hsweep, hlen⟩ := h.processPoint platform hno hpos₀ hpos₁ hs
      (by rw [ht]; nofun)
    cases hstep
    exact ⟨⟨_, hsweep⟩, hlen⟩
  · rename_i c rest d rest' hs ht
    have hP : IsPoint chunks₀ chunks₁ ⟨s.accum.fee + c.fee, s.accum.size + c.size⟩ :=
      (h.tracks₀.next hs).isPoint
    have hQ : IsPoint chunks₀ chunks₁ ⟨t.accum.fee + d.fee, t.accum.size + d.size⟩ :=
      (h.tracks₁.next ht).isPoint.symm
    rw [(hno.add_eq hP).2, (hno.add_eq hQ).2] at hstep
    dsimp only at hstep
    split_ifs at hstep with hlt
    · obtain ⟨hsweep, hlen⟩ := h.swap.processPoint platform hno.symm hpos₁ hpos₀ ht
        (by rw [hs]; intro e he; obtain rfl := Option.some.inj he; exact hlt.le)
      cases hstep
      exact ⟨⟨_, hsweep.swap⟩, by omega⟩
    · obtain ⟨hsweep, hlen⟩ := h.processPoint platform hno hpos₀ hpos₁ hs
        (by rw [ht]; intro e he; obtain rfl := Option.some.inj he; exact not_lt.mp hlt)
      cases hstep
      exact ⟨⟨_, hsweep⟩, hlen⟩

theorem compareLoop_eq {n : ℕ} (hn : s.rest.length + t.rest.length ≤ n)
    (hone : (s.better && t.better) = false) : compareLoop platform n s t = orderOf W V := by
  induction n generalizing s t x with
  | zero =>
    obtain ⟨hs, ht⟩ := Nat.add_eq_zero_iff.mp (Nat.le_zero.mp hn)
    rw [List.length_eq_zero_iff] at hs ht
    exact compareBetter_eq (h.done hs ht) (h.swap.done ht hs) hone
  | succ n ih =>
    unfold compareLoop
    cases hstep : Tarcoin.Util.compareStep platform s t with
    | none =>
      obtain ⟨hs, ht⟩ := compareStep_eq_none hstep
      exact compareBetter_eq (h.done hs ht) (h.swap.done ht hs) hone
    | some r =>
      obtain ⟨⟨x', hsweep⟩, hlen⟩ := h.compareStep hno hpos₀ hpos₁ hstep
      dsimp only
      split_ifs with hboth
      · rw [Bool.and_eq_true] at hboth
        rw [orderOf, if_pos (hsweep.better₀.mpr (.inl hboth.1)),
          if_pos (hsweep.better₁.mpr (.inl hboth.2))]
      · exact ih hsweep (by omega) (Bool.not_eq_true _ ▸ hboth)

end

end Sweep

section Answer

variable {chunks₀ chunks₁ : List FeeFrac}

theorem line_start (chunks : List FeeFrac) :
    (⟨chunks, ⟨0, 0⟩, false⟩ : Side).line = diagram chunks := by
  unfold Side.line diagram FeeFrac.toPoint
  simp

theorem diagram_zero (hpos : ∀ c ∈ chunks₀, 0 < c.size) : diagram chunks₀ 0 = 0 :=
  eval_start (p := (0, 0)) (toPoint_pos hpos)

theorem sweep_start (hpos₀ : ∀ c ∈ chunks₀, 0 < c.size) (hpos₁ : ∀ c ∈ chunks₁, 0 < c.size) :
    Sweep chunks₀ chunks₁ (∃ x : ℝ, 0 ≤ x ∧ diagram chunks₁ x < diagram chunks₀ x)
      (∃ x : ℝ, 0 ≤ x ∧ diagram chunks₀ x < diagram chunks₁ x) ⟨chunks₀, ⟨0, 0⟩, false⟩
      ⟨chunks₁, ⟨0, 0⟩, false⟩ 0 := by
  refine ⟨⟨[], rfl, rfl⟩, ⟨[], rfl, rfl⟩, le_rfl, le_rfl, fun e he => ?_, fun e he => ?_, ?_, ?_, ?_,
    ?_⟩
  · rw [zero_add]
    exact hpos₀ e (List.mem_of_mem_head? he)
  · rw [zero_add]
    exact hpos₁ e (List.mem_of_mem_head? he)
  all_goals simp [line_start, diagram_zero hpos₀, diagram_zero hpos₁]

theorem not_exists_lt_iff {f g : ℝ → ℝ} :
    (¬ ∃ x : ℝ, 0 ≤ x ∧ f x < g x) ↔ ∀ x : ℝ, 0 ≤ x → g x ≤ f x := by
  push Not
  rfl

end Answer

/-- `CompareChunks` is exact. Whatever the order of the chunks, on every platform, its answer is how
the diagrams compare at all sizes. -/
theorem compareChunks_exact (platform : FeeFrac.Platform) (chunks₀ chunks₁ : List FeeFrac)
    (hpos₀ : ∀ c ∈ chunks₀, 0 < c.size) (hpos₁ : ∀ c ∈ chunks₁, 0 < c.size)
    (hno : NoOverflow chunks₀ chunks₁) :
    (compareChunks platform chunks₀ chunks₁ = .equivalent ↔
      ∀ x : ℝ, 0 ≤ x → diagram chunks₀ x = diagram chunks₁ x) ∧
    (compareChunks platform chunks₀ chunks₁ = .less ↔
      (∀ x : ℝ, 0 ≤ x → diagram chunks₀ x ≤ diagram chunks₁ x) ∧
        ∃ x : ℝ, 0 ≤ x ∧ diagram chunks₀ x < diagram chunks₁ x) ∧
    (compareChunks platform chunks₀ chunks₁ = .greater ↔
      (∀ x : ℝ, 0 ≤ x → diagram chunks₁ x ≤ diagram chunks₀ x) ∧
        ∃ x : ℝ, 0 ≤ x ∧ diagram chunks₁ x < diagram chunks₀ x) ∧
    (compareChunks platform chunks₀ chunks₁ = .unordered ↔
      (∃ x : ℝ, 0 ≤ x ∧ diagram chunks₁ x < diagram chunks₀ x) ∧
        ∃ x : ℝ, 0 ≤ x ∧ diagram chunks₀ x < diagram chunks₁ x) := by
  have horder : compareChunks platform chunks₀ chunks₁ = _ :=
    compareLoop_eq hno hpos₀ hpos₁ (sweep_start hpos₀ hpos₁) le_rfl rfl
  rw [horder, ← not_exists_lt_iff, ← not_exists_lt_iff]
  have heq : (∀ x : ℝ, 0 ≤ x → diagram chunks₀ x = diagram chunks₁ x) ↔
      (¬ ∃ x : ℝ, 0 ≤ x ∧ diagram chunks₁ x < diagram chunks₀ x) ∧
        ¬ ∃ x : ℝ, 0 ≤ x ∧ diagram chunks₀ x < diagram chunks₁ x := by
    rw [not_exists_lt_iff, not_exists_lt_iff]
    refine ⟨fun h => ⟨fun x hx => (h x hx).le, fun x hx => (h x hx).ge⟩, fun h x hx => ?_⟩
    exact le_antisymm (h.1 x hx) (h.2 x hx)
  rw [heq]
  generalize (∃ x : ℝ, 0 ≤ x ∧ diagram chunks₁ x < diagram chunks₀ x) = W
  generalize (∃ x : ℝ, 0 ≤ x ∧ diagram chunks₀ x < diagram chunks₁ x) = V
  unfold orderOf
  by_cases hW : W <;> by_cases hV : V <;> simp [hW, hV]

theorem compareChunks_exact_crossing :
    (∃ x : ℝ, 0 ≤ x ∧ diagram [⟨3, 2⟩, ⟨4, 2⟩] x < diagram [⟨5, 1⟩, ⟨1, 3⟩] x) ∧
      ∃ x : ℝ, 0 ≤ x ∧ diagram [⟨5, 1⟩, ⟨1, 3⟩] x < diagram [⟨3, 2⟩, ⟨4, 2⟩] x := by
  have hfits : ∀ a ∈ List.inits [(⟨5, 1⟩ : FeeFrac), ⟨1, 3⟩] ++ List.inits [⟨3, 2⟩, ⟨4, 2⟩],
      ∀ b ∈ List.inits [(⟨5, 1⟩ : FeeFrac), ⟨1, 3⟩] ++ List.inits [⟨3, 2⟩, ⟨4, 2⟩],
      Fits 64 ((total a).fee - (total b).fee) ∧ Fits 32 ((total a).size - (total b).size) := by
    decide
  have hno : NoOverflow [⟨5, 1⟩, ⟨1, 3⟩] [⟨3, 2⟩, ⟨4, 2⟩] := by
    intro p q hp hq
    obtain ⟨a, ha, rfl⟩ := hp
    obtain ⟨b, hb, rfl⟩ := hq
    rw [← List.mem_inits, ← List.mem_inits, ← List.mem_append] at ha hb
    exact hfits a ha b hb
  exact (compareChunks_exact .fallback [⟨5, 1⟩, ⟨1, 3⟩] [⟨3, 2⟩, ⟨4, 2⟩] (by decide) (by decide)
    hno).2.2.2.mp (by decide)

end Tarcoin.Util
