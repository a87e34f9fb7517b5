import Tarcoin.Mining.Template
import Tarcoin.Pool.HexText
import Tarcoin.Pool.Refresh

/-! A job carries the bits of the node's template and the time of the pool's own clock, while the
node asks for bits that depend on the time. -/
namespace Tarcoin.Pool

/-- The rules `bad-diffbits` and `time-too-old` for a header on top of a tip of the main network. -/
def PassesTimeAndBits (tip : BlockIndex) (pprev : Chain) (header : BlockHeader) : Prop :=
  header.nBits = getNextWorkRequired tip pprev header mainParams ∧
    Chain.medianTimePast (tip :: pprev) < header.blockTime

instance (tip : BlockIndex) (pprev : Chain) (header : BlockHeader) :
    Decidable (PassesTimeAndBits tip pprev header) := by
  unfold PassesTimeAndBits
  infer_instance

/-- Past block 1, those are the two rules that `ContextualCheckBlockHeader` looks at first. -/
theorem passesTimeAndBits_iff_check {tip : BlockIndex} {pprev : Chain} (header : BlockHeader)
    (h : Chain.nextHeight (tip :: pprev) ≠ 1) (hash : Uint256) (now : ℤ) :
    PassesTimeAndBits tip pprev header ↔
      contextualCheckBlockHeader mainParams true hash header tip pprev now ≠ .error .diffbits ∧
      contextualCheckBlockHeader mainParams true hash header tip pprev now ≠ .error .timeTooOld := by
  have hbits := contextualCheck_diffbits_iff mainParams true hash header tip pprev now h
  rw [ne_eq, hbits, ne_eq, not_not]
  apply and_congr_right
  intro hwork
  unfold contextualCheckBlockHeader
  rw [if_neg (by simp [h]), if_neg (not_not.mpr hwork)]
  constructor
  · intro htime
    rw [if_neg (not_le.mpr htime)]
    split_ifs <;> simp
  · intro hcheck
    by_contra htime
    exact hcheck (if_pos (not_lt.mp htime))

def fieldWord (s : Text) : UInt32 := UInt32.ofNat ((parseInt16 s).getD 0).toNat

theorem fieldWord_padStart (n : ℕ) : fieldWord (padStart 8 (Nat.toDigits 16 n)) = UInt32.ofNat n := by
  rw [fieldWord, parseInt16_padStart, Option.getD_some, Int.toNat_natCast]

theorem fieldWord_hex8 (n : UInt32) : fieldWord (hex8 n).toList = n := by
  rw [hex8, String.toList_ofList]
  change fieldWord (padStart 8 (Nat.toDigits 16 n.toNat)) = n
  rw [fieldWord_padStart, UInt32.ofNat_toNat]

/-- The time that a job announces when the pool's clock shows `now` milliseconds. -/
def jobTime (now : ℕ) : UInt32 := UInt32.ofNat (now / 1000)

theorem job_fields {rt : Runtime} {jobId : Text} {now : ℕ} {template : NodeTemplate}
    {t : BlockTemplate} (h : buildTemplate rt jobId now template = .ok t) :
    fieldWord t.job.nTime = jobTime now ∧ t.job.nBits = template.bits := by
  obtain ⟨coinbase1, coinbase2, branch, -, -, -, rfl⟩ := buildTemplate_eq h
  exact ⟨fieldWord_padStart (now / 1000), rfl⟩

/-- A header with the time and the bits of a job passes both rules, on a tip on which the template
did, exactly if the pool's clock is past the median of the tip and asks for the same bits as the
time of the template: both are in the same six-hour period, or the target cannot be doubled. -/
theorem job_passes_iff (rt : Runtime) (jobId : Text) (now : ℕ) (template : NodeTemplate)
    (t : BlockTemplate) (tip : BlockIndex) (pprev : Chain) (served header : BlockHeader)
    (hserved : PassesTimeAndBits tip pprev served) (hbits : template.bits = (hex8 served.nBits).toList)
    (h : buildTemplate rt jobId now template = .ok t)
    (htime : header.nTime = fieldWord t.job.nTime) (hnBits : header.nBits = fieldWord t.job.nBits) :
    PassesTimeAndBits tip pprev header ↔
      Chain.medianTimePast (tip :: pprev) < (jobTime now).toNat ∧
      (periodsAt tip served.nTime = periodsAt tip (jobTime now) ∨
        gravityTarget (tip :: pprev) mainParams = 0 ∨
        easiestTarget ≤ gravityTarget (tip :: pprev) mainParams *
          2 ^ min (periodsAt tip served.nTime) (periodsAt tip (jobTime now))) := by
  obtain ⟨hjobTime, hjobBits⟩ := job_fields h
  rw [hjobTime] at htime
  rw [hjobBits, hbits, fieldWord_hex8] at hnBits
  have hwork := hserved.1
  rw [getNextWorkRequired_main] at hwork
  rw [PassesTimeAndBits, getNextWorkRequired_main, hnBits, hwork, ← getCompact_capped_eq_iff, and_comm]
  simp only [BlockHeader.blockTime, htime]
  rfl

def servedTemplate (header : BlockHeader) : NodeTemplate :=
  { NodeTemplate.first [] with bits := (hex8 header.nBits).toList }

/-- A template of the first hour after the tip, and a pool whose clock is ten seconds ahead. -/
theorem job_passes_hour : ∃ t,
    buildTemplate .constant [] 1800000610000 (servedTemplate (getBlockTemplate mainParams steadyBlock
      steadyChain none (callAt 1800000600)).2) = .ok t ∧
    PassesTimeAndBits steadyBlock steadyChain
      ⟨4, 1, 0, fieldWord t.job.nTime, fieldWord t.job.nBits, 0⟩ := by
  have hok : (buildTemplate .constant [] 1800000610000 (servedTemplate (getBlockTemplate mainParams
      steadyBlock steadyChain none (callAt 1800000600)).2)).isOk = true := by
    decide
  cases hbuild : buildTemplate .constant [] 1800000610000 (servedTemplate (getBlockTemplate mainParams
      steadyBlock steadyChain none (callAt 1800000600)).2) with
  | error e =>
    rw [hbuild] at hok
    cases hok
  | ok t =>
    have hiff := job_passes_iff .constant [] 1800000610000 _ t steadyBlock steadyChain
      _ ⟨4, 1, 0, fieldWord t.job.nTime, fieldWord t.job.nBits, 0⟩ (by decide +kernel) rfl hbuild rfl rfl
    exact ⟨t, rfl, hiff.mpr ⟨by decide, .inl (by decide)⟩⟩

/-- The clocks of the node and of the pool both show ten seconds before the median of the tip. The
node serves the second after the median, the pool announces its own time. -/
theorem job_time_too_old :
    PassesTimeAndBits steadyBlock steadyChain (getBlockTemplate mainParams
      steadyBlock steadyChain none (callAt 1799996990)).2 ∧
    ((buildTemplate .constant [] 1799996990000 (servedTemplate (getBlockTemplate mainParams steadyBlock
      steadyChain none (callAt 1799996990)).2)).toOption.map fun t =>
        contextualCheckBlockHeader mainParams true 0
          ⟨4, 1, 0, fieldWord t.job.nTime, fieldWord t.job.nBits, 0⟩ steadyBlock
          steadyChain 1799996990) = some (.error .timeTooOld) := by
  decide +kernel

end Tarcoin.Pool
