import Tarcoin.Util.ChunkDiagrams

/-! `ChunkLinearizationInfo` and `ChunkLinearization` of `cluster_linearize.h`. -/
namespace Tarcoin.Cluster
open Util Polyline GuardedSum

variable {ι : Type*}

section Loop

variable {C D : Type*}

/-- Absorb the last chunks as long as the new one has a higher feerate; the last one comes
first. -/
def absorb (feerate : C → FeeFrac) (merge : C → C → C) (newChunk : C) : List C → List C
  | [] => [newChunk]
  | back :: ret =>
    if (feerate back).RatioLt (feerate newChunk) then
      absorb feerate merge (merge newChunk back) ret
    else newChunk :: back :: ret

/-- The loop over a linearization, for chunks that start as `single i`. -/
def chunkLoop (feerate : C → FeeFrac) (merge : C → C → C) (single : ι → C)
    (linearization : List ι) : List C :=
  (linearization.foldl (fun ret i => absorb feerate merge (single i) ret) []).reverse

theorem flatten_absorb (feerate : List ι → FeeFrac) (new : List ι) (ret : List (List ι)) :
    (absorb feerate (fun new back => back ++ new) new ret).reverse.flatten =
      ret.reverse.flatten ++ new := by
  induction ret generalizing new with
  | nil => simp [absorb]
  | cons back ret ih =>
    rw [absorb]
    split_ifs
    · simp [ih]
    · simp

section Map
variable {feerate : List ι → FeeFrac} {feerate' : D → FeeFrac} {merge' : D → D → D} {single' : ι → D}
  {P : List ι → Prop} (f : List ι → D) (hfeerate : ∀ c, feerate' (f c) = feerate c)
  (hmerge : ∀ new back, P (back ++ new) → f (back ++ new) = merge' (f new) (f back))
include hfeerate hmerge

theorem map_absorb (ret : List (List ι)) (new : List ι)
    (hP : ∀ seg, seg <:+: ret.reverse.flatten ++ new → P seg) :
    (absorb feerate (fun new back => back ++ new) new ret).map f =
      absorb feerate' merge' (f new) (ret.map f) := by
  induction ret generalizing new with
  | nil => simp [absorb]
  | cons back ret ih =>
    have hflat : (back :: ret).reverse.flatten ++ new = ret.reverse.flatten ++ (back ++ new) := by simp
    rw [hflat] at hP
    simp only [absorb, List.map_cons, hfeerate]
    split_ifs
    · rw [ih (back ++ new) hP, hmerge new back (hP _ (List.suffix_append _ _).isInfix)]
    · rfl

theorem map_chunkLoop (hsingle : ∀ i, f [i] = single' i) {linearization : List ι}
    (hP : ∀ seg, seg <:+: linearization → P seg) :
    (chunkLoop feerate (fun new back => back ++ new) (fun i => [i]) linearization).map f =
      chunkLoop feerate' merge' single' linearization := by
  have hfold : ∀ ret : List (List ι), (∀ seg, seg <:+: ret.reverse.flatten ++ linearization → P seg) →
      (linearization.foldl (fun ret i => absorb feerate (fun new back => back ++ new) [i] ret) ret).map f =
        linearization.foldl (fun ret i => absorb feerate' merge' (single' i) ret) (ret.map f) := by
    clear hP
    induction linearization with
    | nil => exact fun ret _ => rfl
    | cons i linearization ih =>
      intro ret hP
      rw [List.append_cons] at hP
      rw [List.foldl_cons, ih _ (by rwa [flatten_absorb]), List.foldl_cons, ← hsingle,
        map_absorb f hfeerate hmerge ret [i] fun seg h => hP seg (h.trans (List.infix_append' [] _ _))]
  rw [chunkLoop, List.map_reverse, hfold [] (by simpa using hP), chunkLoop, List.map_nil]

end Map

end Loop

/-- A set of transactions and their combined fee and size. -/
structure SetInfo (ι : Type*) where
  transactions : Finset ι
  feerate : FeeFrac

section Chunks

variable [DecidableEq ι] (feeRate : ι → FeeFrac) (linearization : List ι)

def SetInfo.union (a b : SetInfo ι) : SetInfo ι :=
  ⟨a.transactions ∪ b.transactions, a.feerate.add b.feerate⟩

def chunkLinearizationInfo : List (SetInfo ι) :=
  chunkLoop SetInfo.feerate SetInfo.union (fun i => ⟨{i}, feeRate i⟩) linearization

omit [DecidableEq ι] in
def chunkLinearization : List FeeFrac := chunkLoop id FeeFrac.add feeRate linearization

end Chunks

/-! ## Segments -/

section Segments

variable (feeRate : ι → FeeFrac)

def rateOf (seg : List ι) : FeeFrac := total (seg.map feeRate)

/-- The loop on the chunks as parts of the linearization. -/
def segments (linearization : List ι) : List (List ι) :=
  chunkLoop (rateOf feeRate) (fun new back => back ++ new) (fun i => [i]) linearization

/-- No first part of the segment has a higher feerate than the whole. -/
def Under (seg : List ι) : Prop :=
  ∀ first, first <+: seg →
    (rateOf feeRate first).fee * (rateOf feeRate seg).size ≤
      (rateOf feeRate seg).fee * (rateOf feeRate first).size

/-- The segments so far, the last one first. -/
structure Stacked (ret : List (List ι)) : Prop where
  ne_nil : ∀ seg ∈ ret, seg ≠ []
  pos : ∀ seg ∈ ret, ∀ i ∈ seg, 0 < (feeRate i).size
  under : ∀ seg ∈ ret, Under feeRate seg
  sorted : ret.Pairwise fun new back => (rateOf feeRate new).ratio ≤ (rateOf feeRate back).ratio

variable {feeRate} {new back : List ι}

theorem rateOf_append (seg seg' : List ι) : rateOf feeRate (seg ++ seg') =
    ⟨(rateOf feeRate seg).fee + (rateOf feeRate seg').fee,
      (rateOf feeRate seg).size + (rateOf feeRate seg').size⟩ := by
  simp [rateOf, total]

theorem rateOf_size_nonneg {seg : List ι} (hpos : ∀ i ∈ seg, 0 < (feeRate i).size) :
    0 ≤ (rateOf feeRate seg).size := by
  apply List.sum_nonneg
  simpa using fun i hi => (hpos i hi).le

theorem rateOf_size_pos {seg : List ι} (hne : seg ≠ []) (hpos : ∀ i ∈ seg, 0 < (feeRate i).size) :
    0 < (rateOf feeRate seg).size := by
  obtain ⟨i, seg, rfl⟩ := List.exists_cons_of_ne_nil hne
  have hrest := rateOf_size_nonneg fun j hj => hpos j (List.mem_cons_of_mem i hj)
  have happend := congrArg FeeFrac.size (@rateOf_append _ feeRate [i] seg)
  have hi := hpos i List.mem_cons_self
  simp only [rateOf, total, List.map_cons, List.map_nil, List.sum_cons, List.sum_nil] at happend hrest ⊢
  omega

theorem under_singleton (i : ι) : Under feeRate [i] := by
  intro first hfirst
  cases first with
  | nil => simp [rateOf, total]
  | cons j first =>
    obtain ⟨rfl, hnil⟩ := List.cons_prefix_cons.mp hfirst
    rw [List.prefix_nil.mp hnil]

theorem prefix_append_cases {first seg seg' : List ι} (h : first <+: seg ++ seg') :
    first <+: seg ∨ ∃ later, later <+: seg' ∧ first = seg ++ later := by
  obtain ⟨tail, htail⟩ := h
  obtain ⟨mid, rfl, -⟩ | ⟨mid, rfl, rfl⟩ := List.append_eq_append_iff.mp htail
  · exact .inl ⟨mid, rfl⟩
  · exact .inr ⟨mid, ⟨tail, rfl⟩, rfl⟩

section Chords

variable {bf bs nf ns qf qs : ℤ} (hb : 0 < bs) (hn : 0 < ns) (hlt : bf * ns < nf * bs)

include hb hn hlt

/-- A point below the first of two chords that bend upwards is below the chord of both. -/
theorem first_chord_le (hq : 0 ≤ qs) (hle : qf * bs ≤ bf * qs) :
    qf * (bs + ns) ≤ (bf + nf) * qs := by
  nlinarith [mul_le_mul_of_nonneg_right hlt.le hq, mul_le_mul_of_nonneg_right hle hn.le]

theorem second_chord_le (hq : qs ≤ ns) (hle : qf * ns ≤ nf * qs) :
    (bf + qf) * (bs + ns) ≤ (bf + nf) * (bs + qs) := by
  nlinarith [mul_le_mul_of_nonneg_right hlt.le (sub_nonneg.mpr hq),
    mul_le_mul_of_nonneg_right hle hb.le]

end Chords

theorem Under.append (hback : Under feeRate back) (hnew : Under feeRate new) (hbne : back ≠ [])
    (hnne : new ≠ []) (hbpos : ∀ i ∈ back, 0 < (feeRate i).size)
    (hnpos : ∀ i ∈ new, 0 < (feeRate i).size)
    (hlt : (rateOf feeRate back).RatioLt (rateOf feeRate new)) : Under feeRate (back ++ new) := by
  have hb := rateOf_size_pos hbne hbpos
  have hn := rateOf_size_pos hnne hnpos
  intro first hfirst
  rw [rateOf_append]
  obtain hfirst | ⟨later, ⟨tail, rfl⟩, rfl⟩ := prefix_append_cases hfirst
  · apply first_chord_le hb hn hlt _ (hback first hfirst)
    exact rateOf_size_nonneg fun i hi => hbpos i (hfirst.subset hi)
  · have htail := rateOf_size_nonneg fun i hi => hnpos i (List.mem_append_right later hi)
    rw [rateOf_append back later]
    apply second_chord_le hb hn hlt _ (hnew later ⟨tail, rfl⟩)
    rw [rateOf_append later tail]
    exact le_add_of_nonneg_right htail

theorem Stacked.absorb {ret : List (List ι)} (h : Stacked feeRate ret) (new : List ι)
    (hne : new ≠ []) (hpos : ∀ i ∈ new, 0 < (feeRate i).size) (hunder : Under feeRate new) :
    Stacked feeRate (Cluster.absorb (rateOf feeRate) (fun new back => back ++ new) new ret) := by
  induction ret generalizing new with
  | nil =>
    exact ⟨by simpa [Cluster.absorb], by simpa [Cluster.absorb] using hpos,
      by simpa [Cluster.absorb], List.pairwise_singleton _ _⟩
  | cons back ret ih =>
    have hbne := h.ne_nil back List.mem_cons_self
    have hbpos := h.pos back List.mem_cons_self
    have hbunder := h.under back List.mem_cons_self
    obtain ⟨hfirst, hrest⟩ := List.pairwise_cons.mp h.sorted
    rw [Cluster.absorb]
    split_ifs with hlt
    · have htail : Stacked feeRate ret := ⟨fun seg hs => h.ne_nil seg (List.mem_cons_of_mem _ hs),
        fun seg hs => h.pos seg (List.mem_cons_of_mem _ hs),
        fun seg hs => h.under seg (List.mem_cons_of_mem _ hs), hrest⟩
      exact ih htail (back ++ new) (by simp [hbne])
        (by simpa [or_imp, forall_and] using ⟨hbpos, hpos⟩)
        (hbunder.append hunder hbne hne hbpos hpos hlt)
    · have hle : (rateOf feeRate new).ratio ≤ (rateOf feeRate back).ratio := by
        rwa [FeeFrac.ratioLt_iff (rateOf_size_pos hbne hbpos) (rateOf_size_pos hne hpos), not_lt] at hlt
      refine ⟨?_, ?_, ?_, ?_⟩
      · simpa using ⟨hne, hbne, fun seg hs => h.ne_nil seg (List.mem_cons_of_mem _ hs)⟩
      · exact List.forall_mem_cons.mpr ⟨hpos, h.pos⟩
      · exact List.forall_mem_cons.mpr ⟨hunder, h.under⟩
      · refine List.pairwise_cons.mpr ⟨?_, h.sorted⟩
        exact List.forall_mem_cons.mpr ⟨hle, fun seg hs => hle.trans (hfirst seg hs)⟩

theorem segments_spec (linearization : List ι) (hpos : ∀ i ∈ linearization, 0 < (feeRate i).size) :
    Stacked feeRate (segments feeRate linearization).reverse ∧
      (segments feeRate linearization).flatten = linearization := by
  have hloop : ∀ ret, Stacked feeRate ret →
      let ret' := linearization.foldl (fun ret i => absorb (rateOf feeRate)
        (fun new back => back ++ new) [i] ret) ret
      Stacked feeRate ret' ∧ ret'.reverse.flatten = ret.reverse.flatten ++ linearization := by
    induction linearization with
    | nil => exact fun ret h => ⟨h, by simp⟩
    | cons i linearization ih =>
      intro ret h
      obtain ⟨hi, hrest⟩ := List.forall_mem_cons.mp hpos
      obtain ⟨hstack, hall⟩ := ih hrest _
        (h.absorb [i] (by simp) (by simpa using hi) (under_singleton i))
      refine ⟨hstack, ?_⟩
      rw [List.foldl_cons, hall, flatten_absorb]
      simp
  have hall := hloop [] ⟨by simp, by simp, by simp, List.Pairwise.nil⟩
  rw [segments, chunkLoop]
  simpa using hall

end Segments

/-! ## The diagram -/

section Hull

variable {feeRate : ι → FeeFrac} {segs : List (List ι)}

theorem toPoint_sum (first : List FeeFrac) :
    (first.map FeeFrac.toPoint).sum = (total first).toPoint := by
  induction first with
  | nil => simp [total, FeeFrac.toPoint, Prod.ext_iff]
  | cons c first ih => simp [ih, total, FeeFrac.toPoint]

theorem width_toPoint (chunks : List FeeFrac) :
    width (chunks.map FeeFrac.toPoint) = (total chunks).size := by
  induction chunks with
  | nil => simp [width, total]
  | cons c chunks ih => simp [ih, total, FeeFrac.toPoint]

theorem total_rateOf (segs : List (List ι)) :
    total (segs.map (rateOf feeRate)) = rateOf feeRate segs.flatten := by
  induction segs with
  | nil => rfl
  | cons seg segs ih =>
    rw [List.flatten_cons, rateOf_append, ← ih]
    simp [total]

theorem point_le_eval (hne : ∀ seg ∈ segs, seg ≠ [])
    (hpos : ∀ seg ∈ segs, ∀ i ∈ seg, 0 < (feeRate i).size)
    (hunder : ∀ seg ∈ segs, Under feeRate seg) (first : List ι) (hfirst : first <+: segs.flatten)
    (p : ℝ × ℝ) : p.2 + (rateOf feeRate first).fee ≤
      eval p ((segs.map (rateOf feeRate)).map FeeFrac.toPoint)
        (p.1 + (rateOf feeRate first).size) := by
  induction segs generalizing first p with
  | nil =>
    rw [List.prefix_nil.mp hfirst]
    simp [rateOf, total]
  | cons seg segs ih =>
    obtain ⟨hseg, hsegs⟩ := List.forall_mem_cons.mp hpos
    have hsize : (0 : ℝ) < (rateOf feeRate seg).size :=
      Int.cast_pos.mpr (rateOf_size_pos (hne seg List.mem_cons_self) hseg)
    simp only [List.map_cons]
    obtain hin | ⟨later, hlater, rfl⟩ := prefix_append_cases hfirst
    · have hle : ((rateOf feeRate first).fee : ℝ) * (rateOf feeRate seg).size ≤
          (rateOf feeRate seg).fee * (rateOf feeRate first).size := by
        exact_mod_cast hunder seg List.mem_cons_self first hin
      have hshort : ((rateOf feeRate first).size : ℝ) ≤ (rateOf feeRate seg).size := by
        obtain ⟨tail, rfl⟩ := hin
        have htail := rateOf_size_nonneg fun i hi => hseg i (List.mem_append_right first hi)
        rw [rateOf_append]
        exact_mod_cast le_add_of_nonneg_right htail
      rw [eval_first (by simpa [FeeFrac.toPoint] using hshort)]
      simp only [FeeFrac.toPoint, add_sub_cancel_left, add_le_add_iff_left]
      rwa [mul_div_assoc', le_div_iff₀ hsize, mul_comm ((rateOf feeRate first).size : ℝ)]
    · have hpoints : ∀ e ∈ ((seg :: segs).map (rateOf feeRate)).map FeeFrac.toPoint, 0 < e.1 := by
        apply toPoint_pos
        simpa using ⟨rateOf_size_pos (hne seg List.mem_cons_self) hseg, fun seg' hs =>
          rateOf_size_pos (hne seg' (List.mem_cons_of_mem _ hs)) (hsegs seg' hs)⟩
      have hnonneg : 0 ≤ (rateOf feeRate later).size := by
        apply rateOf_size_nonneg
        intro i hi
        obtain ⟨seg', hs, hi'⟩ := List.mem_flatten.mp (hlater.subset hi)
        exact hsegs seg' hs i hi'
      have htail := ih (fun seg' hs => hne seg' (List.mem_cons_of_mem _ hs)) hsegs
        (fun seg' hs => hunder seg' (List.mem_cons_of_mem _ hs)) later hlater
        (p + (rateOf feeRate seg).toPoint)
      rw [eval_tail hpoints]
      · simpa [rateOf_append, FeeFrac.toPoint, add_assoc] using htail
      · simpa [rateOf_append, FeeFrac.toPoint] using hnonneg

/-- The fees and the sizes of consecutive transactions can be added up in their words. -/
def SumsFit (feeRate : ι → FeeFrac) (linearization : List ι) : Prop :=
  ∀ seg, seg <:+: linearization → (rateOf feeRate seg).InRange

theorem rateOf_append_eq_add {new back : List ι} (h : (rateOf feeRate (back ++ new)).InRange) :
    rateOf feeRate (back ++ new) = (rateOf feeRate new).add (rateOf feeRate back) := by
  rw [rateOf_append] at h
  rw [rateOf_append, FeeFrac.add, add_comm (rateOf feeRate new).fee, wrap_of_fits (by norm_num) h.fee,
    add_comm (rateOf feeRate new).size, wrap_of_fits (by norm_num) h.size]

section Fit
variable {linearization : List ι} (hfit : SumsFit feeRate linearization)
include hfit

theorem chunkLinearization_eq_map :
    chunkLinearization feeRate linearization =
      (segments feeRate linearization).map (rateOf feeRate) := by
  refine (map_chunkLoop (rateOf feeRate) (fun _ => rfl) (fun new back h => ?_) (fun i => ?_) hfit).symm
  · exact rateOf_append_eq_add h
  · simp [rateOf, total]

theorem chunkLinearizationInfo_eq_map [DecidableEq ι] :
    chunkLinearizationInfo feeRate linearization =
      (segments feeRate linearization).map fun seg => ⟨seg.toFinset, rateOf feeRate seg⟩ := by
  refine (map_chunkLoop _ (fun _ => rfl) (fun new back h => ?_) (fun i => ?_) hfit).symm
  · simp [rateOf_append_eq_add h, SetInfo.union, Finset.union_comm]
  · simp [rateOf, total]

end Fit

/-- The chunks are consecutive segments of falling feerate, with and without their transactions, and
the diagram is the least concave function that is not below the points of the linearization. -/
structure IsHull [DecidableEq ι] (feeRate : ι → FeeFrac) (linearization : List ι)
    (info : List (SetInfo ι)) (chunks : List FeeFrac) : Prop where
  same : info.map SetInfo.feerate = chunks
  consecutive : ∃ segs : List (List ι), segs.flatten = linearization ∧ (∀ seg ∈ segs, seg ≠ []) ∧
    (linearization.Nodup → segs.Pairwise List.Disjoint) ∧
    info = segs.map fun seg => ⟨seg.toFinset, rateOf feeRate seg⟩
  falling : chunks.Pairwise fun a b => ¬ a.RatioLt b
  concave : ConcaveOn ℝ (Set.Icc 0 ((rateOf feeRate linearization).size : ℝ)) (diagram chunks)
  above : ∀ first, first <+: linearization →
    ((rateOf feeRate first).fee : ℝ) ≤ diagram chunks (rateOf feeRate first).size
  least : ∀ g : ℝ → ℝ, ConcaveOn ℝ (Set.Icc 0 ((rateOf feeRate linearization).size : ℝ)) g →
    (∀ first, first <+: linearization →
      ((rateOf feeRate first).fee : ℝ) ≤ g (rateOf feeRate first).size) →
    ∀ x ∈ Set.Icc 0 ((rateOf feeRate linearization).size : ℝ), diagram chunks x ≤ g x

theorem chunkLinearization_hull [DecidableEq ι] (feeRate : ι → FeeFrac) (linearization : List ι)
    (hpos : ∀ i ∈ linearization, 0 < (feeRate i).size) (hfit : SumsFit feeRate linearization) :
    IsHull feeRate linearization (chunkLinearizationInfo feeRate linearization)
      (chunkLinearization feeRate linearization) := by
  obtain ⟨hstack, hflat⟩ := segments_spec linearization hpos
  have hchunks := chunkLinearization_eq_map hfit
  have hinfo := chunkLinearizationInfo_eq_map hfit
  have hne : ∀ seg ∈ segments feeRate linearization, seg ≠ [] := by simpa using hstack.ne_nil
  have hsegs : ∀ seg ∈ segments feeRate linearization, ∀ i ∈ seg, 0 < (feeRate i).size := by
    simpa using hstack.pos
  have hsize : ∀ c ∈ chunkLinearization feeRate linearization, 0 < c.size := by
    simpa [hchunks] using fun seg hs => rateOf_size_pos (hne seg hs) (hsegs seg hs)
  have hsorted : (chunkLinearization feeRate linearization).Pairwise fun a b => b.ratio ≤ a.ratio := by
    rw [hchunks, List.pairwise_map, ← List.pairwise_reverse]
    exact hstack.sorted
  have hwidth : (0 : ℝ) + width ((chunkLinearization feeRate linearization).map FeeFrac.toPoint) =
      (rateOf feeRate linearization).size := by
    rw [zero_add, width_toPoint, hchunks, total_rateOf, hflat]
  refine ⟨by simp [hinfo, hchunks], ⟨_, hflat, hne, fun hnodup => ?_, hinfo⟩, ?_, ?_, ?_, ?_⟩
  · rw [← hflat] at hnodup
    exact (List.nodup_flatten.mp hnodup).2
  · refine hsorted.imp_of_mem fun ha hb hle => ?_
    rwa [FeeFrac.ratioLt_iff (hsize _ ha) (hsize _ hb), not_lt]
  · have hconcave := concaveOn_eval (p := ((0, 0) : ℝ × ℝ)) (toPoint_pos hsize) ?_
    · rw [hwidth] at hconcave
      exact hconcave.subset Set.Icc_subset_Iic_self (convex_Icc _ _)
    · rw [List.pairwise_map]
      refine hsorted.imp fun hle => ?_
      simpa [FeeFrac.ratio, FeeFrac.toPoint] using (Rat.cast_le (K := ℝ)).mpr hle
  · intro first hfirst
    rw [← hflat] at hfirst
    have hpoint := point_le_eval hne hsegs (by simpa using hstack.under) first hfirst (0, 0)
    rw [← hchunks] at hpoint
    simpa [diagram] using hpoint
  · intro g hg habove x hx
    refine eval_le_of_concaveOn (p := (0, 0)) (toPoint_pos hsize) hg hwidth.le ?_ ?_ hx.1 ?_
    · simpa [rateOf, total] using habove [] ( List.nil_prefix)
    · intro first hfirst
      set n := first.length
      have hcorner := habove ((segments feeRate linearization).take n).flatten
        ⟨((segments feeRate linearization).drop n).flatten, by
          rw [← List.flatten_append, List.take_append_drop, hflat]⟩
      rw [List.prefix_iff_eq_take.mp hfirst, hchunks, ← List.map_take, ← List.map_take, toPoint_sum,
        total_rateOf]
      simpa [FeeFrac.toPoint] using hcorner
    · rw [hwidth]
      exact hx.2

theorem chunkLinearization_hull_two :
    chunkLinearization (fun i : ℤ => ⟨i + 1, 1⟩) [0, 1] = [⟨3, 2⟩] ∧
      IsHull (fun i : ℤ => ⟨i + 1, 1⟩) [0, 1] (chunkLinearizationInfo (fun i => ⟨i + 1, 1⟩) [0, 1])
        (chunkLinearization (fun i => ⟨i + 1, 1⟩) [0, 1]) := by
  have hfit : ∀ seg ∈ ([0, 1] : List ℤ).sublists, let sum := rateOf (fun i => ⟨i + 1, 1⟩) seg
      Fits 64 sum.fee ∧ Fits 32 sum.size := by decide
  refine ⟨by decide, chunkLinearization_hull _ _ (by simp) fun seg hseg => ?_⟩
  obtain ⟨hfee, hsize⟩ := hfit seg (List.mem_sublists.mpr hseg.sublist)
  exact ⟨hfee, hsize⟩

/-- The first transaction is absorbed by the second, and the sum of their sizes wraps. -/
theorem chunkLinearization_not_hull :
    (∀ i ∈ [true, false], 0 < (cond i (FeeFrac.mk 1 2147483647) ⟨1, 1⟩).size) ∧
      chunkLinearization (fun i => cond i ⟨1, 2147483647⟩ ⟨1, 1⟩) [true, false] =
        [⟨2, -2147483648⟩] ∧
      ¬ IsHull (fun i => cond i ⟨1, 2147483647⟩ ⟨1, 1⟩) [true, false]
        (chunkLinearizationInfo (fun i => cond i ⟨1, 2147483647⟩ ⟨1, 1⟩) [true, false])
        (chunkLinearization (fun i => cond i ⟨1, 2147483647⟩ ⟨1, 1⟩) [true, false]) := by
  have hchunks : chunkLinearization (fun i => cond i ⟨1, 2147483647⟩ ⟨1, 1⟩) [true, false] =
      [⟨2, -2147483648⟩] := by decide
  refine ⟨by decide, hchunks, fun h => ?_⟩
  -- The identity is concave and not below the points, but the diagram begins at 2.
  have habove : ∀ first ∈ [true, false].inits, (rateOf (fun i => cond i ⟨1, 2147483647⟩ ⟨1, 1⟩)
      first).fee ≤ (rateOf (fun i => cond i ⟨1, 2147483647⟩ ⟨1, 1⟩) first).size := by decide
  have hleast := h.least id (concaveOn_id (convex_Icc _ _))
    (fun first hfirst => Int.cast_le.mpr (habove first (List.mem_inits _ _ |>.mpr hfirst))) 0
    (by simp [rateOf, total])
  rw [hchunks] at hleast
  simp [diagram, eval, FeeFrac.toPoint] at hleast
  norm_num at hleast

end Hull

end Tarcoin.Cluster
