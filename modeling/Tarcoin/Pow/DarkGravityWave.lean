import Tarcoin.Pow.Compact

/-! `DarkGravityWave` of `pow.cpp`, with the average after every block and the exact results of
the 256-bit operations. -/
namespace Tarcoin

/-- The target an index entry's bits stand for, whatever the flags of `SetCompact`. -/
def BlockIndex.target (b : BlockIndex) : ℕ := (setCompact b.nBits).value

def pastBlocks : ℕ := 24

/-- The locals of the averaging loop. `PastDifficultyAveragePrev` holds the average of the
turn before, so one field serves both. -/
structure GravityState where
  countBlocks : ℕ
  pastDifficultyAverage : ℕ
  nActualTimespan : ℤ
  lastBlockTime : ℤ
  averages : List ℕ
  exact : List ℕ

def GravityState.start : GravityState := ⟨0, 0, 0, 0, [], []⟩

/-- The average after one more block, and the exact sums it went through. -/
def gravityAverage (prev count target : ℕ) : ℕ × List ℕ :=
  if count = 1 then (target, [])
  else ((prev * count % 2 ^ 256 + target) % 2 ^ 256 / (count + 1),
    [prev * count, prev * count % 2 ^ 256 + target])

def gravityStep (st : GravityState) (blockReading : BlockIndex) : GravityState :=
  let count := st.countBlocks + 1
  let next :=
    if count ≤ pastBlocks then gravityAverage st.pastDifficultyAverage count blockReading.target
    else (st.pastDifficultyAverage, [])
  { countBlocks := count
    pastDifficultyAverage := next.1
    nActualTimespan :=
      if 0 < st.lastBlockTime then
        st.nActualTimespan + (st.lastBlockTime - blockReading.blockTime)
      else st.nActualTimespan
    lastBlockTime := blockReading.blockTime
    averages := st.averages ++ [next.1]
    exact := st.exact ++ next.2 }

/-- The loop from turn `i` on. It stops after `pastBlocks` turns and before the genesis
block, the one entry without a `pprev`. -/
def gravityLoop : ℕ → GravityState → Chain → GravityState
  | _, st, [] => st
  | _, st, [_] => st
  | i, st, blockReading :: pprev :: rest =>
    if pastBlocks < i then st
    else gravityLoop (i + 1) (gravityStep st blockReading) (pprev :: rest)

def clampTimespan (actual target : ℤ) : ℤ :=
  let raised := if actual < target / 3 then target / 3 else actual
  if target * 3 < raised then target * 3 else raised

structure GravityRun where
  averages : List ℕ
  average : ℕ
  timespan : ℤ
  target : ℕ
  nBits : UInt32
  exact : List ℕ

/-- The retargeting that follows the loop; the factor is passed as a `uint32_t`. -/
def gravityRetarget (params : ConsensusParams) (st : GravityState) : GravityRun :=
  let targetTimespan := st.countBlocks * params.nPowTargetSpacing
  let timespan := clampTimespan st.nActualTimespan targetTimespan
  let scaled := st.pastDifficultyAverage * (timespan % 2 ^ 32).toNat
  let bnNew := scaled % 2 ^ 256 / targetTimespan
  let target := if params.powLimit < bnNew then params.powLimit else bnNew
  { averages := st.averages
    average := st.pastDifficultyAverage
    timespan := timespan
    target := target
    nBits := getCompact target
    exact := st.exact ++ [scaled] }

def darkGravityRun (params : ConsensusParams) (pindexLast : Chain) : GravityRun :=
  gravityRetarget params (gravityLoop 1 GravityState.start pindexLast)

/-- `DarkGravityWave`. The height of `pindexLast` is one less than its length, and a null
pointer or the genesis block are below the minimum as well. -/
def darkGravityWave (pindexLast : Chain) (params : ConsensusParams) : UInt32 :=
  if pindexLast.length - 1 < pastBlocks then getCompact params.powLimit
  else (darkGravityRun params pindexLast).nBits

def Chain.window (pindexLast : Chain) : Chain := pindexLast.take pastBlocks

variable {chain : Chain}

theorem gravityLoop_eq_foldl {n i : ℕ} (hi : n + i = pastBlocks + 1) (hlen : n < chain.length)
    (st : GravityState) : gravityLoop i st chain = (chain.take n).foldl gravityStep st := by
  induction n generalizing i chain st with
  | zero =>
    have hstop : pastBlocks < i := by omega
    rcases chain with _ | ⟨b, _ | ⟨p, rest⟩⟩
    · rfl
    · rfl
    · simp [gravityLoop, hstop]
  | succ n ih =>
    have hgo : ¬ pastBlocks < i := by omega
    rcases chain with _ | ⟨b, _ | ⟨p, rest⟩⟩
    · simp at hlen
    · simp at hlen
    · rw [gravityLoop, if_neg hgo, List.take_succ_cons]
      simp only [List.length_cons] at hlen
      exact ih (by omega) (by simp only [List.length_cons]; omega) _

theorem darkGravityRun_eq (hlen : pastBlocks < chain.length) (params : ConsensusParams) :
    darkGravityRun params chain =
      gravityRetarget params (chain.window.foldl gravityStep GravityState.start) := by
  rw [darkGravityRun, gravityLoop_eq_foldl (n := pastBlocks) (by omega) hlen, Chain.window]

theorem window_length (hlen : pastBlocks < chain.length) : chain.window.length = pastBlocks := by
  rw [Chain.window, List.length_take]
  omega

theorem foldl_countBlocks (blocks : Chain) (st : GravityState) :
    (blocks.foldl gravityStep st).countBlocks = st.countBlocks + blocks.length := by
  induction blocks generalizing st with
  | nil => rfl
  | cons b blocks ih =>
    rw [List.foldl_cons, ih, List.length_cons]
    simp only [gravityStep]
    omega

section Average

/-- What the loop keeps about the averages when all targets lie between `lo` and `hi`. -/
structure AverageBounded (lo hi : ℕ) (st : GravityState) : Prop where
  average : 0 < st.countBlocks → lo ≤ st.pastDifficultyAverage ∧ st.pastDifficultyAverage ≤ hi
  averages : ∀ a ∈ st.averages, lo ≤ a ∧ a ≤ hi
  exact : ∀ x ∈ st.exact, x ≤ (pastBlocks + 1) * hi

variable {lo hi : ℕ}

section
variable (hhi : (pastBlocks + 1) * hi < 2 ^ 256)
include hhi

theorem gravityAverage_bounds {prev count target : ℕ} (hc : 0 < count) (hc' : count ≤ pastBlocks)
    (hprev : 1 < count → lo ≤ prev ∧ prev ≤ hi) (ht : lo ≤ target ∧ target ≤ hi) :
    (lo ≤ (gravityAverage prev count target).1 ∧ (gravityAverage prev count target).1 ≤ hi) ∧
      ∀ x ∈ (gravityAverage prev count target).2, x ≤ (pastBlocks + 1) * hi := by
  unfold gravityAverage
  split_ifs with h1
  · exact ⟨ht, by simp⟩
  · obtain ⟨hlo, hle⟩ := hprev (by omega)
    have hsum : prev * count + target ≤ (pastBlocks + 1) * hi := by nlinarith
    have hmod : prev * count % 2 ^ 256 = prev * count := Nat.mod_eq_of_lt (by omega)
    have hmod' : (prev * count + target) % 2 ^ 256 = prev * count + target :=
      Nat.mod_eq_of_lt (by omega)
    simp only [hmod, hmod']
    refine ⟨⟨?_, ?_⟩, ?_⟩
    · rw [Nat.le_div_iff_mul_le (by omega)]
      nlinarith [Nat.mul_le_mul_right count hlo]
    · rw [← Nat.lt_succ_iff, Nat.div_lt_iff_lt_mul (by omega)]
      nlinarith [Nat.mul_le_mul_right count hle]
    · simp only [List.mem_cons, List.not_mem_nil, or_false, forall_eq_or_imp, forall_eq]
      exact ⟨by omega, hsum⟩

variable {st : GravityState}

theorem gravityStep_averageBounded {b : BlockIndex} (hc : st.countBlocks < pastBlocks)
    (hb : lo ≤ b.target ∧ b.target ≤ hi) (hst : AverageBounded lo hi st) :
    AverageBounded lo hi (gravityStep st b) := by
  have hprev : 1 < st.countBlocks + 1 →
      lo ≤ st.pastDifficultyAverage ∧ st.pastDifficultyAverage ≤ hi :=
    fun h => hst.average (by omega)
  have hbounds := gravityAverage_bounds hhi (Nat.succ_pos _) (by omega) hprev hb
  have hcount : st.countBlocks + 1 ≤ pastBlocks := hc
  constructor
  · intro _
    simpa only [gravityStep, if_pos hcount] using hbounds.1
  · intro a ha
    simp only [gravityStep, if_pos hcount, List.mem_append, List.mem_singleton] at ha
    rcases ha with ha | rfl
    · exact hst.averages a ha
    · exact hbounds.1
  · intro x hx
    simp only [gravityStep, if_pos hcount, List.mem_append] at hx
    rcases hx with hx | hx
    · exact hst.exact x hx
    · exact hbounds.2 x hx

theorem foldl_averageBounded {blocks : Chain} (hc : st.countBlocks + blocks.length ≤ pastBlocks)
    (hb : ∀ b ∈ blocks, lo ≤ b.target ∧ b.target ≤ hi) (hst : AverageBounded lo hi st) :
    AverageBounded lo hi (blocks.foldl gravityStep st) := by
  induction blocks generalizing st with
  | nil => exact hst
  | cons b blocks ih =>
    rw [List.forall_mem_cons] at hb
    rw [List.length_cons] at hc
    apply ih _ hb.2 (gravityStep_averageBounded hhi (by omega) hb.1 hst)
    simp only [gravityStep]
    omega

end

theorem start_averageBounded : AverageBounded lo hi GravityState.start :=
  ⟨by simp [GravityState.start], by simp [GravityState.start], by simp [GravityState.start]⟩

end Average

section Timespan

theorem foldl_timespan {blocks : Chain} (hne : blocks ≠ []) {st : GravityState}
    (hlast : 0 < st.lastBlockTime) (hpos : ∀ b ∈ blocks.dropLast, 0 < b.blockTime) :
    (blocks.foldl gravityStep st).nActualTimespan =
      st.nActualTimespan + st.lastBlockTime - (blocks.getLast hne).blockTime := by
  induction blocks generalizing st with
  | nil => exact absurd rfl hne
  | cons b blocks ih =>
    have hstep : (gravityStep st b).nActualTimespan =
        st.nActualTimespan + (st.lastBlockTime - b.blockTime) := by
      simp only [gravityStep, if_pos hlast]
    rcases blocks with _ | ⟨c, rest⟩
    · rw [List.foldl_cons, List.foldl_nil, hstep, List.getLast_singleton]
      ring
    · rw [List.dropLast_cons_of_ne_nil (by simp), List.forall_mem_cons] at hpos
      rw [List.foldl_cons, ih (by simp) hpos.1 hpos.2, hstep, List.getLast_cons_cons]
      simp only [gravityStep]
      ring

theorem window_timespan (hlen : pastBlocks < chain.length)
    (hpos : ∀ b ∈ chain.window.dropLast, 0 < b.blockTime) (hne : chain.window ≠ []) :
    (chain.window.foldl gravityStep GravityState.start).nActualTimespan =
      (chain.window.head hne).blockTime - (chain.window.getLast hne).blockTime := by
  have hwl := window_length hlen
  generalize hw : chain.window = window at *
  rcases window with _ | ⟨b, _ | ⟨c, rest⟩⟩
  · exact absurd rfl hne
  · simp [pastBlocks] at hwl
  · rw [List.dropLast_cons_of_ne_nil (by simp), List.forall_mem_cons] at hpos
    rw [List.foldl_cons, foldl_timespan (by simp) hpos.1 hpos.2, List.getLast_cons_cons]
    simp [gravityStep, GravityState.start]

end Timespan

theorem clampTimespan_eq {actual target : ℤ} (h : 0 ≤ target) :
    clampTimespan actual target = max (target / 3) (min actual (target * 3)) := by
  unfold clampTimespan
  simp only
  split_ifs <;> omega

end Tarcoin
