import Tarcoin.Foundations.OrderStatistic
import Tarcoin.Primitives.Block

/-! Relative lock times of `consensus/tx_verify.cpp`. A failed assertion is `none`. -/
namespace Tarcoin

def locktimeVerifySequence : ℕ := 1 <<< 0
def sequenceLocktimeDisableFlag : ℕ := 1 <<< 31
def sequenceLocktimeTypeFlag : ℕ := 1 <<< 22
def sequenceLocktimeMask : ℕ := 0x0000ffff
def sequenceLocktimeGranularity : ℕ := 9

/-- `GetAncestor`: the entry at a height, with its own ancestors. -/
def Chain.ancestor (pindex : Chain) (height : ℤ) : Option Chain :=
  if height > pindex.length - 1 ∨ height < 0 then none
  else some (pindex.drop (pindex.length - 1 - height.toNat))

def lockSeconds (nSequence : ℕ) : ℕ :=
  (nSequence &&& sequenceLocktimeMask) <<< sequenceLocktimeGranularity

/-- One turn of the loop: the pair `(nMinHeight, nMinTime)` and the entry of `prevHeights`. The
sum of heights is an `int`, which is exact for coins more than 65536 blocks below height `2 ^ 31`. -/
def lockInput (block : Chain) (lock : ℤ × ℤ) (txin : TxIn) (nCoinHeight : ℤ) :
    Option ((ℤ × ℤ) × ℤ) :=
  if txin.nSequence &&& sequenceLocktimeDisableFlag ≠ 0 then some (lock, 0)
  else if txin.nSequence &&& sequenceLocktimeTypeFlag ≠ 0 then do
    let pindex ← block.ancestor (max (nCoinHeight - 1) 0)
    let nCoinTime := pindex.medianTimePast
    some ((lock.1, max lock.2 (nCoinTime + lockSeconds txin.nSequence - 1)), nCoinHeight)
  else some ((max lock.1 (nCoinHeight + (txin.nSequence &&& sequenceLocktimeMask : ℕ) - 1), lock.2),
    nCoinHeight)

def lockInputs (block : Chain) : ℤ × ℤ → List (TxIn × ℤ) → Option ((ℤ × ℤ) × List ℤ)
  | lock, [] => some (lock, [])
  | lock, (txin, nCoinHeight) :: inputs => do
    let (lock, height) ← lockInput block lock txin nCoinHeight
    let (lock, heights) ← lockInputs block lock inputs
    some (lock, height :: heights)

/-- Also returns `prevHeights`, in which the inputs without a lock are set to zero. -/
def calculateSequenceLocks (tx : Transaction) (flags : ℕ) (prevHeights : List ℤ) (block : Chain) :
    Option ((ℤ × ℤ) × List ℤ) :=
  if prevHeights.length ≠ tx.vin.length then none
  else if ¬ (tx.version ≥ 2 ∧ flags &&& locktimeVerifySequence ≠ 0) then
    some ((-1, -1), prevHeights)
  else lockInputs block (-1, -1) (tx.vin.zip prevHeights)

def evaluateSequenceLocks (block : Chain) (lockPair : ℤ × ℤ) : Option Bool :=
  match block with
  | [] => none
  | _ :: pprev =>
    if pprev = [] then none
    else some (¬ (lockPair.1 ≥ Chain.nextHeight pprev ∨
      lockPair.2 ≥ Chain.medianTimePast pprev))

def sequenceLocks (tx : Transaction) (flags : ℕ) (prevHeights : List ℤ) (block : Chain) :
    Option (Bool × List ℤ) := do
  let (lockPair, prevHeights) ← calculateSequenceLocks tx flags prevHeights block
  let satisfied ← evaluateSequenceLocks block lockPair
  some (satisfied, prevHeights)

/-! ## The median of the times -/

/-- Every block but the first is later than the median of the times before it. -/
def Chain.Timely : Chain → Prop
  | [] => True
  | b :: pprev => (pprev ≠ [] → Chain.medianTimePast pprev < b.blockTime) ∧ Chain.Timely pprev

variable {c block : Chain}

theorem le_medianTimePast_iff (hne : c ≠ []) (x : ℤ) :
    x ≤ c.medianTimePast ↔ (c.take 11).length - (c.take 11).length / 2 ≤
      ((c.take 11).map BlockIndex.blockTime).countP (x ≤ ·) := by
  have hpos : 0 < (c.take 11).length := by
    have := List.length_pos_of_ne_nil hne
    simp only [List.length_take]
    omega
  have h := OrderStatistic.le_getD_insertionSort_iff ((c.take 11).map BlockIndex.blockTime)
    (k := (c.take 11).length / 2) (by rw [List.length_map]; omega) x 0
  simpa only [Chain.medianTimePast, List.length_insertionSort, List.length_map] using h

theorem medianTimePast_nonneg (hne : c ≠ []) : 0 ≤ c.medianTimePast := by
  rw [le_medianTimePast_iff hne, List.countP_eq_length.mpr, List.length_map]
  · omega
  · intro t ht
    obtain ⟨b, -, rfl⟩ := List.mem_map.mp ht
    simp [BlockIndex.blockTime]

/-- A block that is later than the median does not lower it: it takes the place of one time at
most. -/
theorem medianTimePast_le_cons {b : BlockIndex} (hne : c ≠ [])
    (h : c.medianTimePast < b.blockTime) :
    c.medianTimePast ≤ Chain.medianTimePast (b :: c) := by
  have hold := (le_medianTimePast_iff hne c.medianTimePast).mp le_rfl
  rw [le_medianTimePast_iff (List.cons_ne_nil b c)]
  simp only [List.take_succ_cons, List.map_cons, List.countP_cons, h.le, decide_true, if_true,
    List.length_cons]
  by_cases hshort : c.length ≤ 10
  · rw [List.take_of_length_le hshort]
    rw [List.take_of_length_le (hshort.trans (by omega))] at hold
    omega
  · have hlast : ((c.take 11).map BlockIndex.blockTime).countP (c.medianTimePast ≤ ·) ≤
        ((c.take 10).map BlockIndex.blockTime).countP (c.medianTimePast ≤ ·) + 1 := by
      rw [List.take_add_one, List.map_append, List.countP_append]
      apply Nat.add_le_add_left
      apply List.countP_le_length.trans
      cases (c : List _)[10]? <;> simp
    simp only [List.length_take] at hold ⊢
    omega

theorem medianTimePast_mono {later c : Chain} (hne : c ≠ []) (h : Chain.Timely (later ++ c)) :
    c.medianTimePast ≤ Chain.medianTimePast (later ++ c) := by
  induction later with
  | nil => exact le_rfl
  | cons b later ih =>
    have hne' : later ++ c ≠ [] := by simp [hne]
    exact (ih h.2).trans (medianTimePast_le_cons hne' (h.1 hne'))

/-! ## Locks -/

/-- The lock of an input that spends a coin of the given height is met at a block with this
height, on top of a block with this median time. -/
def LockMet (block : Chain) (height medianTime : ℤ) (txin : TxIn) (nCoinHeight : ℤ) : Prop :=
  txin.nSequence &&& sequenceLocktimeDisableFlag = 0 →
    if txin.nSequence &&& sequenceLocktimeTypeFlag = 0 then
      height ≥ nCoinHeight + (txin.nSequence &&& sequenceLocktimeMask : ℕ)
    else ∃ pindex, block.ancestor (max (nCoinHeight - 1) 0) = some pindex ∧
      medianTime ≥ pindex.medianTimePast + 512 * (txin.nSequence &&& sequenceLocktimeMask : ℕ)

theorem ancestor_eq_some {block : Chain} {height : ℤ} (hnonneg : 0 ≤ height)
    (hlt : height < block.length) :
    block.ancestor height = some (block.drop (block.length - 1 - height.toNat)) := by
  rw [Chain.ancestor, if_neg]
  omega

theorem ancestor_append (later : Chain) {height : ℤ} (hnonneg : 0 ≤ height)
    (hlt : height < block.length) :
    Chain.ancestor (later ++ block) height = block.ancestor height := by
  have hdrop : (later ++ block).length - 1 - height.toNat =
      later.length + (block.length - 1 - height.toNat) := by
    rw [List.length_append]
    omega
  rw [ancestor_eq_some hnonneg hlt, ancestor_eq_some hnonneg (by rw [List.length_append]; omega),
    hdrop, List.drop_length_add_append]

theorem lockInput_spec {nCoinHeight : ℤ} (hlt : nCoinHeight < block.length) (hne : block ≠ [])
    (lock : ℤ × ℤ) (txin : TxIn) :
    ∃ lock' h, lockInput block lock txin nCoinHeight = some (lock', h) ∧
      ∀ height medianTime : ℤ, lock'.1 < height ∧ lock'.2 < medianTime ↔
        (lock.1 < height ∧ lock.2 < medianTime) ∧
          LockMet block height medianTime txin nCoinHeight := by
  unfold lockInput LockMet
  by_cases hdisable : txin.nSequence &&& sequenceLocktimeDisableFlag = 0
  · by_cases htype : txin.nSequence &&& sequenceLocktimeTypeFlag = 0
    · refine ⟨_, _, by simp [hdisable, htype]; exact ⟨rfl, rfl⟩, fun height medianTime => ?_⟩
      simp only [hdisable, htype, if_true, true_imp_iff, max_lt_iff]
      omega
    · have hpos := List.length_pos_of_ne_nil hne
      have hanc := @ancestor_eq_some block _ (le_max_right (nCoinHeight - 1) 0) (by omega)
      refine ⟨_, _, by simp [hdisable, htype, hanc]; exact ⟨rfl, rfl⟩, fun height medianTime => ?_⟩
      simp only [hdisable, htype, if_false, true_imp_iff, max_lt_iff, hanc, Option.some.injEq,
        exists_eq_left', lockSeconds, Nat.shiftLeft_eq, sequenceLocktimeGranularity]
      omega
  · exact ⟨lock, 0, by simp [hdisable], fun height medianTime => by simp [hdisable]⟩

theorem lockInputs_spec (hne : block ≠ []) (inputs : List (TxIn × ℤ))
    (hlt : ∀ p ∈ inputs, p.2 < block.length) (lock : ℤ × ℤ) :
    ∃ lock' hs, lockInputs block lock inputs = some (lock', hs) ∧
      ∀ height medianTime : ℤ, lock'.1 < height ∧ lock'.2 < medianTime ↔
        (lock.1 < height ∧ lock.2 < medianTime) ∧
          ∀ p ∈ inputs, LockMet block height medianTime p.1 p.2 := by
  induction inputs generalizing lock with
  | nil => exact ⟨lock, [], rfl, by simp⟩
  | cons p inputs ih =>
    obtain ⟨txin, nCoinHeight⟩ := p
    simp only [List.mem_cons, forall_eq_or_imp] at hlt
    obtain ⟨lock₁, h, hrun, hspec⟩ := lockInput_spec hlt.1 hne lock txin
    obtain ⟨lock₂, hs, hruns, hspecs⟩ := ih hlt.2 lock₁
    refine ⟨lock₂, h :: hs, by simp [lockInputs, hrun, hruns], fun height medianTime => ?_⟩
    rw [hspecs, hspec, List.forall_mem_cons, and_assoc]

section Exact

variable {tx : Transaction} {flags : ℕ} {prevHeights : List ℤ} {b : BlockIndex} {pprev : Chain}
  (hversion : 2 ≤ tx.version) (hflag : flags &&& locktimeVerifySequence ≠ 0)
  (hlength : prevHeights.length = tx.vin.length) (hne : pprev ≠ [])
  (hheights : ∀ h ∈ prevHeights, h < pprev.nextHeight)

include hversion hflag hlength hne hheights

theorem sequenceLocks_iff :
    (sequenceLocks tx flags prevHeights (b :: pprev)).map Prod.fst = some true ↔
      ∀ p ∈ tx.vin.zip prevHeights,
        LockMet (b :: pprev) pprev.nextHeight pprev.medianTimePast p.1 p.2 := by
  have hlt : ∀ p ∈ tx.vin.zip prevHeights, p.2 < (b :: pprev).length := by
    intro p hp
    have := hheights p.2 (List.of_mem_zip hp).2
    simp only [Chain.nextHeight] at this
    simp only [List.length_cons]
    omega
  obtain ⟨lock, hs, hrun, hspec⟩ := lockInputs_spec (List.cons_ne_nil b pprev) _ hlt (-1, -1)
  have hstart : (-1 : ℤ) < pprev.nextHeight ∧ (-1 : ℤ) < pprev.medianTimePast :=
    ⟨by omega, by linarith [medianTimePast_nonneg hne]⟩
  have hcalc : calculateSequenceLocks tx flags prevHeights (b :: pprev) = some (lock, hs) := by
    simp [calculateSequenceLocks, hlength, hversion, hflag, hrun]
  have hmet := hspec pprev.nextHeight pprev.medianTimePast
  rw [and_iff_right hstart] at hmet
  rw [← hmet]
  simp [sequenceLocks, hcalc, evaluateSequenceLocks, hne, not_le]

/-- A transaction passes at a block exactly when the lock of each input is met, and once it has
passed it passes at every later block. -/
theorem sequenceLocks_exact_and_stable :
    ((sequenceLocks tx flags prevHeights (b :: pprev)).map Prod.fst = some true ↔
      ∀ p ∈ tx.vin.zip prevHeights,
        LockMet (b :: pprev) pprev.nextHeight pprev.medianTimePast p.1 p.2) ∧
    ∀ later : Chain, Chain.Timely (later ++ b :: pprev) →
      (sequenceLocks tx flags prevHeights (b :: pprev)).map Prod.fst = some true →
        (sequenceLocks tx flags prevHeights (later ++ b :: pprev)).map Prod.fst = some true := by
  have hiff := sequenceLocks_iff (b := b) hversion hflag hlength hne hheights
  refine ⟨hiff, fun later htimely hpass => ?_⟩
  cases later with
  | nil => exact hpass
  | cons d later =>
    have hmono : pprev.medianTimePast ≤ Chain.medianTimePast (later ++ b :: pprev) := by
      have := @medianTimePast_mono (later ++ [b]) pprev hne (by simpa using htimely.2)
      simpa using this
    have hlater : ∀ h ∈ prevHeights, h < Chain.nextHeight (later ++ b :: pprev) := by
      intro h hh
      have := hheights h hh
      simp only [Chain.nextHeight, List.length_append, List.length_cons] at this ⊢
      omega
    apply (sequenceLocks_iff (b := d) hversion hflag hlength (by simp) hlater).mpr
    intro p hp hdisable
    have hmet := hiff.mp hpass p hp hdisable
    have hbound := hheights p.2 (List.of_mem_zip hp).2
    split_ifs at hmet ⊢ with htype
    · simp only [Chain.nextHeight, List.length_append, List.length_cons] at hmet ⊢
      omega
    · obtain ⟨pindex, hanc, htime⟩ := hmet
      refine ⟨pindex, ?_, htime.trans hmono⟩
      rw [← hanc]
      apply ancestor_append (d :: later) (le_max_right _ _)
      simp only [Chain.nextHeight] at hbound
      simp only [List.length_cons]
      omega

end Exact

def timedBlock (time : UInt32) : BlockIndex := ⟨0, 1, time, 0⟩

/-- One input with a lock of 512 seconds, one with a lock of two blocks. -/
def lockedTx : Transaction :=
  ⟨2, [⟨⟨0, 0⟩, [], 1 <<< 22 ||| 1, []⟩, ⟨⟨0, 1⟩, [], 2, []⟩], [], 0⟩

theorem sequenceLocks_lockedTx :
    (sequenceLocks lockedTx 1 [0, 0] [timedBlock 2000, timedBlock 1512, timedBlock 1000]).map Prod.fst =
      some true ∧
    (sequenceLocks lockedTx 1 [0, 0]
      [timedBlock 3000, timedBlock 2000, timedBlock 1512, timedBlock 1000]).map Prod.fst = some true := by
  have hpass : (sequenceLocks lockedTx 1 [0, 0]
      [timedBlock 2000, timedBlock 1512, timedBlock 1000]).map Prod.fst = some true := by decide
  have h := @sequenceLocks_exact_and_stable lockedTx 1 [0, 0] (timedBlock 2000)
    [timedBlock 1512, timedBlock 1000] (by decide) (by decide) (by decide) (by decide) (by decide)
  refine ⟨hpass, h.2 [timedBlock 3000] ⟨fun _ => ?_, fun _ => ?_, fun _ => ?_, fun h => absurd rfl h,
    trivial⟩ hpass⟩ <;>
    decide

end Tarcoin
