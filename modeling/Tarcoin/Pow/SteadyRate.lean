import Tarcoin.Pow.GravityBounds

/-! The loop sums 23 intervals and compares them with 24 target spacings, so a chain at the target
rate looks too fast. -/
namespace Tarcoin

/-- Each block follows the next older one at the target spacing. -/
def Spaced (blocks : Chain) : Prop :=
  blocks.IsChain fun newer older : BlockIndex =>
    newer.blockTime = older.blockTime + mainParams.nPowTargetSpacing

/-- The last 24 blocks carry the same valid bits at the target spacing. -/
structure SteadyWindow (chain : Chain) (nBits : UInt32) : Prop where
  height : pastBlocks < chain.length
  derives : (deriveTarget nBits mainParams.powLimit).isSome
  bits : ∀ b ∈ chain.window, b.nBits = nBits
  spaced : Spaced chain.window

theorem Spaced.span {blocks : Chain} (h : Spaced blocks) (hne : blocks ≠ []) :
    (blocks.head hne).blockTime - (blocks.getLast hne).blockTime =
      mainParams.nPowTargetSpacing * (blocks.length - 1 : ℕ) := by
  induction blocks with
  | nil => exact absurd rfl hne
  | cons b blocks ih =>
    rcases blocks with _ | ⟨c, rest⟩
    · simp
    · obtain ⟨hbc, hrest⟩ := List.isChain_cons_cons.mp h
      have := ih hrest (by simp)
      rw [List.getLast_cons_cons]
      simp only [List.head_cons, List.length_cons, Nat.add_sub_cancel] at this ⊢
      push_cast at this ⊢
      linarith

theorem Spaced.pos {blocks : Chain} (h : Spaced blocks) :
    ∀ b ∈ blocks.dropLast, 0 < b.blockTime := by
  induction blocks with
  | nil => simp
  | cons b blocks ih =>
    rcases blocks with _ | ⟨c, rest⟩
    · simp
    · obtain ⟨hbc, hrest⟩ := List.isChain_cons_cons.mp h
      rw [List.dropLast_cons_of_ne_nil (by simp), List.forall_mem_cons]
      refine ⟨?_, ih hrest⟩
      have hc : 0 ≤ c.blockTime := Int.natCast_nonneg _
      have hs : (0 : ℤ) < mainParams.nPowTargetSpacing := by decide
      linarith

section Steady

variable {chain : Chain} {nBits : UInt32}

section
variable (h : SteadyWindow chain nBits)
include h

theorem SteadyWindow.valid : ValidWindow chain :=
  ⟨h.height, fun b hb => h.bits b hb ▸ h.derives⟩

theorem SteadyWindow.average_eq :
    (darkGravityRun mainParams chain).average = (setCompact nBits).value := by
  have htarget : ∀ t ∈ chain.windowTargets,
      (setCompact nBits).value ≤ t ∧ t ≤ (setCompact nBits).value := by
    intro t ht
    obtain ⟨b, hb, rfl⟩ := List.mem_map.mp ht
    rw [BlockIndex.target, h.bits b hb]
    exact ⟨le_rfl, le_rfl⟩
  obtain ⟨t, ht⟩ := Option.isSome_iff_exists.mp h.derives
  obtain ⟨hv, -, hle⟩ := deriveTarget_eq_some ht
  have hb := foldl_window_bounded h.valid htarget (hv ▸ hle)
  rw [darkGravityRun_eq h.height]
  have havg := hb.average (by rw [window_countBlocks h.valid]; decide)
  exact le_antisymm havg.2 havg.1

theorem SteadyWindow.timespan_eq : (darkGravityRun mainParams chain).timespan = 13800 := by
  have hspan := h.spaced.span h.valid.window_ne
  rw [window_length h.height] at hspan
  rw [darkGravityRun_timespan h.valid, window_timespan h.height h.spaced.pos h.valid.window_ne,
    hspan]
  decide

theorem SteadyWindow.target_lt :
    (darkGravityRun mainParams chain).target < (setCompact nBits).value := by
  obtain ⟨t, ht⟩ := Option.isSome_iff_exists.mp h.derives
  obtain ⟨hv, hpos, -⟩ := deriveTarget_eq_some ht
  have hnat : Int.toNat 13800 = 13800 := rfl
  rw [(darkGravityRun_retarget h.valid).2, GravityRun.scaled, h.average_eq, h.timespan_eq, hnat]
  omega

end

end Steady

/-- On a chain at the target rate the required bits are never those of the chain: every
such retarget asks for more work. -/
theorem getNextWorkRequired_steady_ne (tip : BlockIndex) (pprev : Chain) (nBits : UInt32)
    (pblock : BlockHeader) (h : SteadyWindow (tip :: pprev) nBits)
    (htime : pblock.blockTime ≤ tip.blockTime + sixHours) :
    getNextWorkRequired tip pprev pblock mainParams ≠ nBits := by
  have hwave : getNextWorkRequired tip pprev pblock mainParams =
      getCompact (darkGravityRun mainParams (tip :: pprev)).target := by
    have hlen := h.height
    unfold getNextWorkRequired
    rw [if_neg (by decide), if_neg (by linarith), darkGravityWave, if_neg (by omega)]
    rfl
  have hlt := h.target_lt
  have hle : (darkGravityRun mainParams (tip :: pprev)).target ≤ mainParams.powLimit := by
    rw [(darkGravityRun_retarget h.valid).2]
    exact min_le_right _ _
  have hround := compactRound_le (hle.trans_lt (show mainParams.powLimit < 2 ^ 256 by decide))
  intro heq
  rw [compactRound, ← hwave, heq] at hround
  omega

def tenMinuteChain : Chain :=
  (List.range 25).map fun i => blockAt (UInt32.ofNat (1800014400 - 600 * i))

theorem getNextWorkRequired_steady_ten_minutes :
    SteadyWindow (blockAt 1800014400 :: tenMinuteChain.tail) 0x1d00ffff ∧
      getNextWorkRequired (blockAt 1800014400) tenMinuteChain.tail
        ⟨4, 1, 0, 1800015000, 0, 0⟩ mainParams ≠ 0x1d00ffff := by
  have h : SteadyWindow (blockAt 1800014400 :: tenMinuteChain.tail) 0x1d00ffff :=
    ⟨by decide, by decide, by decide, by unfold Spaced; decide⟩
  exact ⟨h, getNextWorkRequired_steady_ne _ _ _ _ h (by decide)⟩

/-- At 0x1d00ffff the chain is asked for 0x1d00f554, a target smaller by a 24th. -/
theorem getNextWorkRequired_ten_minutes :
    SteadyWindow (blockAt 1800014400 :: tenMinuteChain.tail) 0x1d00ffff ∧
      getNextWorkRequired (blockAt 1800014400) tenMinuteChain.tail
        ⟨4, 1, 0, 1800015000, 0, 0⟩ mainParams = 0x1d00f554 :=
  ⟨⟨by decide, by decide, by decide, by unfold Spaced; decide⟩, by decide⟩

end Tarcoin
