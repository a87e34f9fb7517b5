import Tarcoin.Pow.DarkGravityWave

/-! `GetNextWorkRequired` of `pow.cpp`: after six hours without a block the target doubles for
every six hours, at most ten times. -/
namespace Tarcoin

/-- The walk back to the last block that is not a special minimum-difficulty block. -/
def lastNonMinimumBits (params : ConsensusParams) : BlockIndex → Chain → UInt32
  | pindex, [] => pindex.nBits
  | pindex, prev :: rest =>
    if Chain.nextHeight (prev :: rest) % params.difficultyAdjustmentInterval ≠ 0 ∧
        pindex.nBits = getCompact params.powLimit then lastNonMinimumBits params prev rest
    else pindex.nBits

def sixHours : ℤ := 6 * 3600

def emergencyTurns (nTimeDiff : ℤ) : ℕ := min (nTimeDiff / sixHours).toNat 10

def doubleTarget : ℕ → ℕ → ℕ
  | 0, bnTarget => bnTarget
  | n + 1, bnTarget => doubleTarget n (bnTarget * 2 % 2 ^ 256)

/-- `GetNextWorkRequired` after `pindexLast`, whose ancestors are `pprev`. -/
def getNextWorkRequired (pindexLast : BlockIndex) (pprev : Chain) (pblock : BlockHeader)
    (params : ConsensusParams) : UInt32 :=
  if params.fPowAllowMinDifficultyBlocks then
    if pindexLast.blockTime + params.nPowTargetSpacing * 2 < pblock.blockTime then
      getCompact params.powLimit
    else lastNonMinimumBits params pindexLast pprev
  else if sixHours < pblock.blockTime - pindexLast.blockTime then
    let bnTarget := doubleTarget (emergencyTurns (pblock.blockTime - pindexLast.blockTime))
      (setCompact (darkGravityWave (pindexLast :: pprev) params)).value
    getCompact (if params.powLimit < bnTarget then params.powLimit else bnTarget)
  else darkGravityWave (pindexLast :: pprev) params

theorem doubleTarget_eq {n t : ℕ} (h : t * 2 ^ n < 2 ^ 256) : doubleTarget n t = t * 2 ^ n := by
  induction n generalizing t with
  | zero => simp [doubleTarget]
  | succ n ih =>
    have hs : t * 2 * 2 ^ n = t * 2 ^ (n + 1) := by ring
    have hle : t * 2 ≤ t * 2 * 2 ^ n := Nat.le_mul_of_pos_right _ (by positivity)
    rw [doubleTarget, Nat.mod_eq_of_lt (by omega), ih (by omega), hs]

theorem exists_darkGravityWave_eq (chain : Chain) (params : ConsensusParams) :
    ∃ x ≤ params.powLimit, darkGravityWave chain params = getCompact x := by
  unfold darkGravityWave
  split_ifs
  · exact ⟨params.powLimit, le_rfl, rfl⟩
  · refine ⟨(darkGravityRun params chain).target, ?_, rfl⟩
    simp only [darkGravityRun, gravityRetarget]
    split_ifs <;> omega

def gravityTarget (chain : Chain) (params : ConsensusParams) : ℕ :=
  (setCompact (darkGravityWave chain params)).value

theorem gravityTarget_le (chain : Chain) (params : ConsensusParams)
    (hl : params.powLimit < 2 ^ 256) : gravityTarget chain params ≤ params.powLimit := by
  obtain ⟨x, hx, he⟩ := exists_darkGravityWave_eq chain params
  rw [gravityTarget, he]
  exact (compactRound_le (hx.trans_lt hl)).trans hx

theorem getCompact_gravityTarget (chain : Chain) (params : ConsensusParams)
    (hl : params.powLimit < 2 ^ 256) :
    getCompact (gravityTarget chain params) = darkGravityWave chain params := by
  obtain ⟨x, hx, he⟩ := exists_darkGravityWave_eq chain params
  rw [gravityTarget, he]
  exact getCompact_compactRound (hx.trans_lt hl)

/-- How often the target is doubled for a block this long after its parent. -/
def emergencyPeriods (nTimeDiff : ℤ) : ℕ := if sixHours < nTimeDiff then emergencyTurns nTimeDiff else 0

theorem getNextWorkRequired_main (pindexLast : BlockIndex) (pprev : Chain) (pblock : BlockHeader) :
    getNextWorkRequired pindexLast pprev pblock mainParams =
      getCompact (min (gravityTarget (pindexLast :: pprev) mainParams *
        2 ^ emergencyPeriods (pblock.blockTime - pindexLast.blockTime)) mainParams.powLimit) := by
  have hl : mainParams.powLimit < 2 ^ 240 := by decide
  have hg := gravityTarget_le (pindexLast :: pprev) mainParams (by omega)
  unfold getNextWorkRequired emergencyPeriods
  rw [if_neg (by decide)]
  split_ifs with hlate
  · have hturns : emergencyTurns (pblock.blockTime - pindexLast.blockTime) ≤ 10 := min_le_right _ _
    have hpow := Nat.pow_le_pow_right (show 0 < 2 by norm_num) hturns
    have hfit := Nat.mul_le_mul hg hpow
    change getCompact (if mainParams.powLimit < doubleTarget _ (gravityTarget _ _) then _ else
      doubleTarget _ (gravityTarget _ _)) = _
    rw [doubleTarget_eq (by omega)]
    congr 1
    split_ifs <;> omega
  · rw [pow_zero, mul_one, min_eq_left hg, getCompact_gravityTarget _ _ (by omega)]

/-- The largest target that compact bits within the main network's limit can name. -/
def easiestTarget : ℕ := 0xffff * 2 ^ 224

theorem compactRound_powLimit : compactRound mainParams.powLimit = easiestTarget := by decide

theorem powLimit_lt : mainParams.powLimit < 2 ^ 256 := by decide

theorem compactRound_eq_easiest_iff {x : ℕ} (hx : x ≤ mainParams.powLimit) :
    compactRound x = easiestTarget ↔ easiestTarget ≤ x := by
  constructor
  · intro h
    rw [← h]
    exact compactRound_le (hx.trans_lt powLimit_lt)
  · intro h
    apply le_antisymm
    · exact compactRound_mono powLimit_lt hx
    · have hm := compactRound_mono (hx.trans_lt powLimit_lt) h
      rwa [← compactRound_powLimit] at hm

theorem compactRound_lt_of_two_mul_le {x y : ℕ} (hpos : 0 < x) (hy : y < 2 ^ 256) (h : 2 * x ≤ y) :
    compactRound x < compactRound y := by
  have hle := compactRound_le (x := x) (by omega)
  have hlt := lt_two_mul_compactRound (x := 2 * x) (by omega) (by omega)
  have hmono := compactRound_mono hy h
  omega

private theorem capped_ne {d p q : ℕ} (hd : 0 < d) (hpq : p < q)
    (hlow : d * 2 ^ p < easiestTarget) :
    compactRound (min (d * 2 ^ p) mainParams.powLimit) ≠
      compactRound (min (d * 2 ^ q) mainParams.powLimit) := by
  have hcap : easiestTarget ≤ mainParams.powLimit := by decide
  have hx : 0 < d * 2 ^ p := by positivity
  rw [min_eq_left (hlow.le.trans hcap)]
  rcases le_total (d * 2 ^ q) mainParams.powLimit with hq | hq
  · have hdouble : 2 * (d * 2 ^ p) ≤ d * 2 ^ q := by
      calc 2 * (d * 2 ^ p) = d * 2 ^ (p + 1) := by ring
        _ ≤ d * 2 ^ q := Nat.mul_le_mul_left d (Nat.pow_le_pow_right (by norm_num) hpq)
    rw [min_eq_left hq]
    exact (compactRound_lt_of_two_mul_le hx (hq.trans_lt powLimit_lt) hdouble).ne
  · rw [min_eq_right hq, compactRound_powLimit]
    have := compactRound_le (x := d * 2 ^ p) (hlow.le.trans hcap |>.trans_lt powLimit_lt)
    omega

/-- Two capped doublings of a target share their bits exactly when they are the same
doubling, or nothing is doubled, or the smaller one already reaches the ceiling. -/
theorem getCompact_capped_eq_iff (d p q : ℕ) :
    getCompact (min (d * 2 ^ p) mainParams.powLimit) =
        getCompact (min (d * 2 ^ q) mainParams.powLimit) ↔
      p = q ∨ d = 0 ∨ easiestTarget ≤ d * 2 ^ min p q := by
  have hcap : easiestTarget ≤ mainParams.powLimit := by decide
  rw [getCompact_eq_iff ((min_le_right _ _).trans_lt powLimit_lt) ((min_le_right _ _).trans_lt powLimit_lt)]
  constructor
  · intro h
    by_contra hcon
    push Not at hcon
    obtain ⟨hpq, hd, hlow⟩ := hcon
    rcases lt_or_gt_of_ne hpq with hlt | hlt
    · rw [min_eq_left hlt.le] at hlow
      exact capped_ne (by omega) hlt hlow h
    · rw [min_eq_right hlt.le] at hlow
      exact capped_ne (by omega) hlt hlow h.symm
  · rintro (rfl | rfl | hhigh)
    · rfl
    · simp
    · have hp := hhigh.trans (Nat.mul_le_mul_left d
        (Nat.pow_le_pow_right (show 0 < 2 by norm_num) (min_le_left p q)))
      have hq := hhigh.trans (Nat.mul_le_mul_left d
        (Nat.pow_le_pow_right (show 0 < 2 by norm_num) (min_le_right p q)))
      rw [(compactRound_eq_easiest_iff (min_le_right _ _)).mpr (le_min hp hcap),
        (compactRound_eq_easiest_iff (min_le_right _ _)).mpr (le_min hq hcap)]

theorem emergencyTurns_mono {d e : ℤ} (h : d ≤ e) : emergencyTurns d ≤ emergencyTurns e := by
  have hdiv : d / sixHours ≤ e / sixHours := Int.ediv_le_ediv (by decide) h
  unfold emergencyTurns
  omega

theorem emergencyPeriods_mono {d e : ℤ} (h : d ≤ e) : emergencyPeriods d ≤ emergencyPeriods e := by
  have hturns := emergencyTurns_mono h
  unfold emergencyPeriods
  split_ifs <;> omega

/-- The target that the required bits stand for on the main network. -/
def requiredTarget (pindexLast : BlockIndex) (pprev : Chain) (pblock : BlockHeader) : ℕ :=
  (setCompact (getNextWorkRequired pindexLast pprev pblock mainParams)).value

section RequiredTarget

variable (pindexLast : BlockIndex) (pprev : Chain) (pblock : BlockHeader)

theorem requiredTarget_eq : requiredTarget pindexLast pprev pblock =
    compactRound (min (gravityTarget (pindexLast :: pprev) mainParams *
      2 ^ emergencyPeriods (pblock.blockTime - pindexLast.blockTime)) mainParams.powLimit) := by
  rw [requiredTarget, getNextWorkRequired_main, compactRound]

theorem requiredTarget_le : requiredTarget pindexLast pprev pblock ≤ mainParams.powLimit := by
  rw [requiredTarget_eq]
  exact (compactRound_le ((min_le_right _ _).trans_lt powLimit_lt)).trans (min_le_right _ _)

theorem gravityTarget_le_requiredTarget :
    gravityTarget (pindexLast :: pprev) mainParams ≤ requiredTarget pindexLast pprev pblock := by
  have hg := gravityTarget_le (pindexLast :: pprev) mainParams powLimit_lt
  -- The wave's own target is one that compact bits can name, so rounding leaves it alone.
  have hround : compactRound (gravityTarget (pindexLast :: pprev) mainParams) =
      gravityTarget (pindexLast :: pprev) mainParams := by
    rw [compactRound, getCompact_gravityTarget _ mainParams powLimit_lt, gravityTarget]
  rw [requiredTarget_eq]
  calc gravityTarget (pindexLast :: pprev) mainParams
      = compactRound (gravityTarget (pindexLast :: pprev) mainParams) := hround.symm
    _ ≤ _ := compactRound_mono ((min_le_right _ _).trans_lt powLimit_lt)
        (le_min (Nat.le_mul_of_pos_right _ (by positivity)) hg)

theorem requiredTarget_mono {early late : BlockHeader} (h : early.blockTime ≤ late.blockTime) :
    requiredTarget pindexLast pprev early ≤ requiredTarget pindexLast pprev late := by
  have hp := emergencyPeriods_mono (sub_le_sub_right h pindexLast.blockTime)
  have hmul := Nat.mul_le_mul_left (gravityTarget (pindexLast :: pprev) mainParams)
    (Nat.pow_le_pow_right (show 0 < 2 by norm_num) hp)
  rw [requiredTarget_eq, requiredTarget_eq]
  exact compactRound_mono ((min_le_right _ _).trans_lt powLimit_lt) (min_le_min_right _ hmul)

end RequiredTarget

theorem doubleTarget_lt (chain : Chain) {i : ℕ} (hi : i < 10) :
    doubleTarget i (gravityTarget chain mainParams) * 2 < 2 ^ 256 := by
  have hl : mainParams.powLimit * 2 ^ 10 < 2 ^ 256 := by decide
  have hg := gravityTarget_le chain mainParams (by decide)
  have hpow : 2 ^ (i + 1) ≤ 2 ^ 10 := Nat.pow_le_pow_right (by norm_num) hi
  have hfit : gravityTarget chain mainParams * 2 ^ (i + 1) < 2 ^ 256 :=
    (Nat.mul_le_mul hg hpow).trans_lt hl
  rw [pow_succ, ← mul_assoc] at hfit
  rw [doubleTarget_eq (by omega)]
  exact hfit

/-- The emergency rule only eases the work: the required target grows with the time of the
block, between the gravity wave's target and the limit, and no doubling on the way wraps. -/
theorem getNextWorkRequired_eases (pindexLast : BlockIndex) (pprev : Chain) :
    (∀ pblock : BlockHeader,
      setCompact (getNextWorkRequired pindexLast pprev pblock mainParams) =
          ⟨requiredTarget pindexLast pprev pblock, false, false⟩ ∧
        gravityTarget (pindexLast :: pprev) mainParams ≤ requiredTarget pindexLast pprev pblock ∧
        requiredTarget pindexLast pprev pblock ≤ mainParams.powLimit ∧
        ∀ i < emergencyTurns (pblock.blockTime - pindexLast.blockTime),
          doubleTarget i (gravityTarget (pindexLast :: pprev) mainParams) * 2 < 2 ^ 256) ∧
      ∀ early late : BlockHeader, early.blockTime ≤ late.blockTime →
        requiredTarget pindexLast pprev early ≤ requiredTarget pindexLast pprev late := by
  refine ⟨fun pblock => ⟨?_, gravityTarget_le_requiredTarget pindexLast pprev pblock,
    requiredTarget_le pindexLast pprev pblock, ?_⟩,
    fun early late h => requiredTarget_mono pindexLast pprev h⟩
  · rw [requiredTarget, getNextWorkRequired_main]
    exact setCompact_getCompact ((min_le_right _ _).trans_lt powLimit_lt)
  · exact fun i hi => doubleTarget_lt _ (hi.trans_le (min_le_right _ _))

/-- A block at difficulty 1 of the parent project, and 24 blocks before it, ten minutes apart. -/
def steadyBlock : BlockIndex := ⟨1, 4, 1800000000, 0x1d00ffff⟩

def steadyChain : Chain :=
  (List.range 24).map fun i => ⟨.ofNat 256 (i + 2), 4, .ofNat (1799999400 - 600 * i), 0x1d00ffff⟩

/-- A header seven hours after the block has an easier target than one an hour after it. -/
theorem getNextWorkRequired_eases_hours :
    requiredTarget steadyBlock steadyChain ⟨4, 1, 0, 1800003600, 0, 0⟩ ≤
        requiredTarget steadyBlock steadyChain ⟨4, 1, 0, 1800025200, 0, 0⟩ ∧
      requiredTarget steadyBlock steadyChain ⟨4, 1, 0, 1800003600, 0, 0⟩ ≠
        requiredTarget steadyBlock steadyChain ⟨4, 1, 0, 1800025200, 0, 0⟩ :=
  ⟨(getNextWorkRequired_eases steadyBlock steadyChain).2 _ _ (by decide), by decide +kernel⟩

/-- Every block but the genesis block has the bits that `GetNextWorkRequired` gives after its parent
for a header with its time. -/
def Chain.WorkRequired (params : ConsensusParams) : Chain → Prop
  | pindex :: pprev :: rest =>
    (∃ pblock : BlockHeader, pblock.nTime = pindex.nTime ∧
      pindex.nBits = getNextWorkRequired pprev rest pblock params) ∧
    Chain.WorkRequired params (pprev :: rest)
  | _ => True

theorem exists_lastNonMinimumBits (params : ConsensusParams) (pindex : BlockIndex) (pprev : Chain) :
    ∃ b ∈ pindex :: pprev, lastNonMinimumBits params pindex pprev = b.nBits := by
  induction pprev generalizing pindex with
  | nil => exact ⟨pindex, List.mem_cons_self, rfl⟩
  | cons prev rest ih =>
    unfold lastNonMinimumBits
    split_ifs
    · obtain ⟨b, hb, heq⟩ := ih prev
      exact ⟨b, List.mem_cons_of_mem pindex hb, heq⟩
    · exact ⟨pindex, List.mem_cons_self, rfl⟩

/-- Where blocks of minimum difficulty are allowed, a chain from a genesis block at the limit stays
there. -/
theorem minDifficulty_nBits (params : ConsensusParams)
    (hmin : params.fPowAllowMinDifficultyBlocks = true) (chain : Chain)
    (hgenesis : ∀ genesis ∈ chain.getLast?, genesis.nBits = getCompact params.powLimit)
    (hwork : chain.WorkRequired params) :
    ∀ pindex ∈ chain, pindex.nBits = getCompact params.powLimit := by
  induction chain with
  | nil => exact nofun
  | cons pindex pprev ih =>
    cases pprev with
    | nil => exact List.forall_mem_singleton.mpr (hgenesis pindex rfl)
    | cons prev rest =>
      obtain ⟨⟨pblock, -, hbits⟩, hwork⟩ := hwork
      have hall := ih hgenesis hwork
      refine List.forall_mem_cons.mpr ⟨?_, hall⟩
      -- Either the block is late, or the walk ends at an earlier block.
      rw [hbits, getNextWorkRequired]
      split_ifs
      · rfl
      · obtain ⟨b, hb, heq⟩ := exists_lastNonMinimumBits params prev rest
        exact heq.trans (hall b hb)

/-- The third block is not late, and the walk goes back over its parent to the genesis block. -/
theorem minDifficulty_nBits_three : (⟨3, 4, 1800000660, 0x1f00ffff⟩ : BlockIndex).nBits =
    getCompact mainParams.powLimit :=
  minDifficulty_nBits { mainParams with fPowAllowMinDifficultyBlocks := true } rfl
    [⟨3, 4, 1800000660, 0x1f00ffff⟩, ⟨2, 4, 1800000060, 0x1f00ffff⟩, ⟨1, 4, 1800000000, 0x1f00ffff⟩]
    (by decide) ⟨⟨⟨4, 2, 0, 1800000660, 0, 0⟩, rfl, by decide⟩,
      ⟨⟨4, 1, 0, 1800000060, 0, 0⟩, rfl, by decide⟩, trivial⟩ _ List.mem_cons_self

end Tarcoin
