import Tarcoin.Pow.NextWork

/-! On the main network nothing in `DarkGravityWave` wraps, and the average stays among the
targets it was taken of. -/
namespace Tarcoin

/-- The window holds 24 blocks whose bits all derive a target within the limit. -/
structure ValidWindow (chain : Chain) : Prop where
  height : pastBlocks < chain.length
  derives : ∀ b ∈ chain.window, (deriveTarget b.nBits mainParams.powLimit).isSome

def Chain.windowTargets (chain : Chain) : List ℕ := chain.window.map BlockIndex.target

theorem ValidWindow.target_bounds {chain : Chain} (h : ValidWindow chain) {b : BlockIndex}
    (hb : b ∈ chain.window) : 0 < b.target ∧ b.target ≤ mainParams.powLimit := by
  obtain ⟨t, ht⟩ := Option.isSome_iff_exists.mp (h.derives b hb)
  obtain ⟨rfl, hpos, hle⟩ := deriveTarget_eq_some ht
  exact ⟨hpos, hle⟩

theorem ValidWindow.window_ne {chain : Chain} (h : ValidWindow chain) : chain.window ≠ [] := by
  intro hnil
  have := window_length h.height
  simp [hnil, pastBlocks] at this

/-- The seconds between the newest and the oldest block of the window. -/
def Chain.windowSpan (chain : Chain) (hne : chain.window ≠ []) : ℤ :=
  (chain.window.head hne).blockTime - (chain.window.getLast hne).blockTime

section Bounds

variable {chain : Chain} {lo hi : ℕ}

private theorem clamp_main (actual : ℤ) :
    clampTimespan actual ((pastBlocks * mainParams.nPowTargetSpacing : ℕ) : ℤ) =
      max 4800 (min actual 43200) := by
  rw [clampTimespan_eq (by positivity)]
  rfl

section
variable (h : ValidWindow chain)
include h

theorem foldl_window_bounded (hb : ∀ t ∈ chain.windowTargets, lo ≤ t ∧ t ≤ hi)
    (hhi : hi ≤ mainParams.powLimit) :
    AverageBounded lo hi (chain.window.foldl gravityStep GravityState.start) := by
  have hl : (pastBlocks + 1) * mainParams.powLimit < 2 ^ 256 := by decide
  have hmul := Nat.mul_le_mul_left (pastBlocks + 1) hhi
  apply foldl_averageBounded (by omega) _ _ start_averageBounded
  · rw [window_length h.height]
    exact (Nat.zero_add pastBlocks).le
  · exact fun b hbm => hb _ (List.mem_map_of_mem hbm)

theorem foldl_window_bounded_powLimit :
    AverageBounded 0 mainParams.powLimit (chain.window.foldl gravityStep GravityState.start) := by
  apply foldl_window_bounded h _ le_rfl
  intro t ht
  obtain ⟨b, hbm, rfl⟩ := List.mem_map.mp ht
  exact ⟨Nat.zero_le _, (h.target_bounds hbm).2⟩

theorem window_countBlocks :
    (chain.window.foldl gravityStep GravityState.start).countBlocks = pastBlocks := by
  rw [foldl_countBlocks, window_length h.height]
  exact Nat.zero_add pastBlocks

theorem darkGravityRun_timespan :
    (darkGravityRun mainParams chain).timespan =
      max 4800 (min (chain.window.foldl gravityStep GravityState.start).nActualTimespan 43200) := by
  rw [darkGravityRun_eq h.height]
  simp only [gravityRetarget, window_countBlocks h]
  exact clamp_main _

theorem darkGravityRun_average_le :
    (darkGravityRun mainParams chain).average ≤ mainParams.powLimit := by
  have hb := foldl_window_bounded_powLimit h
  rw [darkGravityRun_eq h.height]
  exact (hb.average (by rw [window_countBlocks h]; decide)).2

end

def GravityRun.scaled (run : GravityRun) : ℕ := run.average * run.timespan.toNat

theorem darkGravityRun_scaled_le (h : ValidWindow chain) :
    (darkGravityRun mainParams chain).scaled ≤ mainParams.powLimit * 43200 := by
  have hts := darkGravityRun_timespan h
  have hspan : (darkGravityRun mainParams chain).timespan.toNat ≤ 43200 := by omega
  exact Nat.mul_le_mul (darkGravityRun_average_le h) hspan

/-- The clamped timespan survives the conversion to `uint32_t`, and the product with the
average stays below `2 ^ 256`. -/
theorem darkGravityRun_retarget (h : ValidWindow chain) :
    (darkGravityRun mainParams chain).exact =
        (chain.window.foldl gravityStep GravityState.start).exact ++
          [(darkGravityRun mainParams chain).scaled] ∧
      (darkGravityRun mainParams chain).target =
        min ((darkGravityRun mainParams chain).scaled / 14400) mainParams.powLimit := by
  have hts := darkGravityRun_timespan h
  have hle := darkGravityRun_scaled_le h
  have hfit : mainParams.powLimit * 43200 < 2 ^ 256 := by decide
  have hfactor : (darkGravityRun mainParams chain).timespan % 2 ^ 32 =
      (darkGravityRun mainParams chain).timespan := Int.emod_eq_of_lt (by omega) (by omega)
  have hden : pastBlocks * mainParams.nPowTargetSpacing = 14400 := rfl
  unfold GravityRun.scaled at hle ⊢
  rw [darkGravityRun_eq h.height] at hle hfactor ⊢
  simp only [gravityRetarget, window_countBlocks h, hden] at hle hfactor ⊢
  rw [hfactor]
  refine ⟨rfl, ?_⟩
  split_ifs <;> omega

theorem darkGravityRun_exact_lt (h : ValidWindow chain) :
    ∀ x ∈ (darkGravityRun mainParams chain).exact, x < 2 ^ 256 := by
  intro x hx
  have hb := foldl_window_bounded_powLimit h
  have hloop : (pastBlocks + 1) * mainParams.powLimit < 2 ^ 256 := by decide
  have hlast : mainParams.powLimit * 43200 < 2 ^ 256 := by decide
  rw [(darkGravityRun_retarget h).1, List.mem_append, List.mem_singleton] at hx
  rcases hx with hx | rfl
  · exact (hb.exact x hx).trans_lt hloop
  · exact (darkGravityRun_scaled_le h).trans_lt hlast

theorem darkGravityRun_target_bounds (h : ValidWindow chain)
    (hlo : lo ≤ (darkGravityRun mainParams chain).average)
    (hhi : (darkGravityRun mainParams chain).average ≤ hi) :
    lo * 4800 / 14400 ≤ (darkGravityRun mainParams chain).target ∧
      (darkGravityRun mainParams chain).target ≤ min (3 * hi) mainParams.powLimit := by
  have hts := darkGravityRun_timespan h
  have havg := darkGravityRun_average_le h
  have hlow : lo * 4800 ≤ (darkGravityRun mainParams chain).scaled :=
    Nat.mul_le_mul hlo (by omega)
  have hhigh : (darkGravityRun mainParams chain).scaled ≤ hi * 43200 :=
    Nat.mul_le_mul hhi (by omega)
  rw [(darkGravityRun_retarget h).2]
  omega

end Bounds

/-- The bounds of a run, from any valid window and any timestamps. The timespan is the
clamped age of the window as long as no newer block carries the time 0, which the loop
takes for not having read a block yet. -/
theorem darkGravityWave_bounds (chain : Chain) (h : ValidWindow chain) (lo hi : ℕ)
    (hlo : chain.windowTargets.min? = some lo) (hhi : chain.windowTargets.max? = some hi) :
    darkGravityWave chain mainParams = (darkGravityRun mainParams chain).nBits ∧
    (∀ x ∈ (darkGravityRun mainParams chain).exact, x ≤ 2 ^ 256 - 1) ∧
    (∀ a ∈ (darkGravityRun mainParams chain).averages, lo ≤ a ∧ a ≤ hi) ∧
    (lo ≤ (darkGravityRun mainParams chain).average ∧
      (darkGravityRun mainParams chain).average ≤ hi) ∧
    ((∀ b ∈ chain.window.dropLast, 0 < b.blockTime) →
      (darkGravityRun mainParams chain).timespan =
        max 4800 (min (chain.windowSpan h.window_ne) 43200)) ∧
    (lo * 4800 / 14400 ≤ (darkGravityRun mainParams chain).target ∧
      (darkGravityRun mainParams chain).target ≤ min (3 * hi) mainParams.powLimit) ∧
    (3 ≤ lo →
      (deriveTarget (darkGravityWave chain mainParams) mainParams.powLimit).isSome) := by
  have hmin := List.min?_eq_some_iff.mp hlo
  have hmax := List.max?_eq_some_iff.mp hhi
  have hhi' : hi ≤ mainParams.powLimit := by
    obtain ⟨b, hb, rfl⟩ := List.mem_map.mp hmax.1
    exact (h.target_bounds hb).2
  have hbounded := foldl_window_bounded h (fun t ht => ⟨hmin.2 t ht, hmax.2 t ht⟩) hhi'
  have hwave : darkGravityWave chain mainParams = (darkGravityRun mainParams chain).nBits := by
    have := h.height
    rw [darkGravityWave, if_neg (by omega)]
  have havg : lo ≤ (darkGravityRun mainParams chain).average ∧
      (darkGravityRun mainParams chain).average ≤ hi := by
    rw [darkGravityRun_eq h.height]
    exact hbounded.average (by rw [window_countBlocks h]; decide)
  have htarget := darkGravityRun_target_bounds h havg.1 havg.2
  refine ⟨hwave, ?_, ?_, havg, ?_, htarget, ?_⟩
  · intro x hx
    have := darkGravityRun_exact_lt h x hx
    omega
  · rw [darkGravityRun_eq h.height]
    exact hbounded.averages
  · intro hpos
    rw [darkGravityRun_timespan h, window_timespan h.height hpos h.window_ne]
    rfl
  · intro h3
    have hpos : 0 < (darkGravityRun mainParams chain).target := by omega
    have hle := htarget.2.trans (min_le_right _ _)
    have hd := deriveTarget_getCompact (show mainParams.powLimit < 2 ^ 256 by decide) hpos hle
    rw [hwave]
    exact Option.isSome_iff_exists.mpr ⟨_, hd⟩

def blockAt (nTime : UInt32) : BlockIndex := ⟨1, 4, nTime, 0x1d00ffff⟩

theorem darkGravityWave_bounds_steady :
    ValidWindow (List.replicate 25 (blockAt 1800000000)) ∧
      Chain.windowTargets (List.replicate 25 (blockAt 1800000000)) =
        List.replicate 24 (0xffff * 2 ^ 208) ∧
      (deriveTarget (darkGravityWave (List.replicate 25 (blockAt 1800000000)) mainParams)
        mainParams.powLimit).isSome := by
  have h : ValidWindow (List.replicate 25 (blockAt 1800000000)) := ⟨by decide, by decide⟩
  obtain ⟨-, -, -, -, -, -, hderives⟩ := darkGravityWave_bounds _ h (0xffff * 2 ^ 208)
    (0xffff * 2 ^ 208) (by decide) (by decide)
  exact ⟨h, by decide, hderives (by decide)⟩

/-- A block with time 0 right below the tip: the next difference is skipped, and the run
counts 20000 seconds for a window of 10000. -/
theorem darkGravityRun_timespan_zero_time :
    ∃ h : ValidWindow (blockAt 20000 :: blockAt 0 :: List.replicate 23 (blockAt 10000)),
      (darkGravityRun mainParams
        (blockAt 20000 :: blockAt 0 :: List.replicate 23 (blockAt 10000))).timespan ≠
      max 4800 (min (Chain.windowSpan
        (blockAt 20000 :: blockAt 0 :: List.replicate 23 (blockAt 10000)) h.window_ne) 43200) :=
  ⟨⟨by decide, by decide⟩, by decide⟩

end Tarcoin
