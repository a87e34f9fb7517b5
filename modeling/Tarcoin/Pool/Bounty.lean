import Tarcoin.Pool.PayoutRuns
import Tarcoin.Pool.Server

/-! A wallet gets one bonus when each hourly run begins after the one before has ended and
recorded its bonuses: flag and counter are read before a bonus is sent and written after it. -/
namespace Tarcoin.Pool
open Async

/-- No wallet got two bonuses, under one spelling or under two. -/
structure BountyOnce (R : AddressRules) (bonuses : List Text) : Prop where
  distinct : bonuses.Pairwise fun a b => a ≠ b ∧ ¬SameDestination R mainAddressParams a b
  bounded : bonuses.length ≤ 4000

instance (R : AddressRules) (bonuses : List Text) : Decidable (BountyOnce R bonuses) :=
  decidable_of_iff (_ ∧ _) ⟨fun h => ⟨h.1, h.2⟩, fun h => ⟨h.1, h.2⟩⟩

/-- Every bonus that was sent has its flag, and is counted. -/
structure PayoutWorld.Settled (w : PayoutWorld) : Prop where
  flagged : ∀ b ∈ w.bonuses, w.claimed b = true
  counted : w.bonuses.length ≤ w.bountyCount

/-- A run begins when no other one is under way and all bonuses are recorded; a name that another
function resolves is one of the known texts. -/
def SeparateRuns (Known : Text → Prop) (w : PayoutWorld) (_ : List Output) : PayoutInput → Prop
  | .hour => w.running = [] ∧ w.Settled
  | .tick _ => True
  | .resolved _ address => Known address

instance (w : PayoutWorld) : Decidable w.Settled :=
  decidable_of_iff (_ ∧ _) ⟨fun h => ⟨h.1, h.2⟩, fun h => ⟨h.1, h.2⟩⟩

instance (Known : Text → Prop) [DecidablePred Known] (w : PayoutWorld) (l : List Output) :
    ∀ input, Decidable (SeparateRuns Known w l input)
  | .hour => inferInstanceAs (Decidable (_ ∧ _))
  | .tick _ => isTrue trivial
  | .resolved _ address => inferInstanceAs (Decidable (Known address))

structure PayoutWorld.Fresh (Known : Text → Prop) (w : PayoutWorld) : Prop where
  cached : ∀ entry ∈ w.pool.tnsResolutionCache, Known entry.2.1
  inputs : w.inputs = 0
  running : w.running = []
  bonuses : w.bonuses = []

structure Bounty (R : AddressRules) (Known : Text → Prop) (w : PayoutWorld) (_ : List Output) :
    Prop where
  once : BountyOnce R w.bonuses
  known : ∀ b ∈ w.bonuses, Known b
  cached : ∀ entry ∈ w.pool.tnsResolutionCache, Known entry.2.1
  single : ∀ m ∈ w.running, ∀ n ∈ w.running, m = n

/-- What run `n` relies on while it waits. -/
structure Alone (n : ℕ) (w w' : PayoutWorld) : Prop where
  inputs : w.inputs ≤ w'.inputs
  running : n ∈ w.running → n ∈ w'.running
  records : n ∈ w.running → w'.claimed = w.claimed ∧ w'.bountyCount = w.bountyCount ∧
    w'.bonuses = w.bonuses

structure RunTurn (n : ℕ) (w w' : PayoutWorld) : Prop where
  others : ∀ m, m ≠ n → Alone m w w'
  inputs : w'.inputs = max w.inputs (n + 1)

variable {R : AddressRules} {Known : Text → Prop} {n : ℕ} {w w' w'' : PayoutWorld}
variable {l : List Output} {worker : Text}

theorem Alone.refl (n : ℕ) (w : PayoutWorld) : Alone n w w :=
  ⟨le_rfl, fun h => h, fun _ => ⟨rfl, rfl, rfl⟩⟩

theorem Alone.trans (h : Alone n w w') (h' : Alone n w' w'') : Alone n w w'' where
  inputs := h.inputs.trans h'.inputs
  running hn := h'.running (h.running hn)
  records hn := by
    obtain ⟨hclaimed, hcount, hbonuses⟩ := h.records hn
    obtain ⟨hclaimed', hcount', hbonuses'⟩ := h'.records (h.running hn)
    exact ⟨hclaimed'.trans hclaimed, hcount'.trans hcount, hbonuses'.trans hbonuses⟩

theorem RunTurn.trans (h : RunTurn n w w') (h' : RunTurn n w' w'') : RunTurn n w w'' :=
  ⟨fun m hm => (h.others m hm).trans (h'.others m hm), by rw [h'.inputs, h.inputs]; omega⟩

theorem runTurn_fits : FitTogether Alone RunTurn PayoutWorld.inputs where
  refl := Alone.refl
  trans _ _ _ _ h h' := h.trans h'
  grants _ _ _ _ hne h := h.others _ hne.symm
  first n w w' h hw := by rw [h.inputs, hw]; omega
  later n w w' h hw := by rw [h.inputs]; omega

/-- Run `n` is under way. -/
structure Underway (n : ℕ) (w : PayoutWorld) : Prop where
  numbered : n < w.inputs
  running : n ∈ w.running

theorem Underway.stable (hw : Underway n w) (h : Alone n w w') : Underway n w' :=
  ⟨hw.numbered.trans_le h.inputs, h.running hw.running⟩

theorem Underway.refl (hw : Underway n w) : RunTurn n w w :=
  ⟨fun m _ => .refl m w, by have := hw.numbered; omega⟩

theorem Bounty.turn (hI : Bounty R Known w l) (hw : Underway n w) (hinputs : w'.inputs = w.inputs) :
    RunTurn n w w' where
  others m hm :=
    { inputs := hinputs.ge
      running := fun hmem => absurd (hI.single m hmem n hw.running) hm
      records := fun hmem => absurd (hI.single m hmem n hw.running) hm }
  inputs := by
    have := hw.numbered
    omega

/-- Between two wallets, all bonuses are recorded. -/
structure Idling (n : ℕ) (w : PayoutWorld) : Prop extends Underway n w where
  settled : w.Settled

/-- A wallet has no flag, and so many bonuses have been counted. -/
structure Eligible (n : ℕ) (worker : Text) (w : PayoutWorld) : Prop extends Idling n w where
  unclaimed : w.claimed worker = false

/-- The bonus of `worker` was sent, and has no flag yet; `extra` bonuses are not yet counted. -/
structure Unrecorded (n : ℕ) (worker : Text) (extra : ℕ) (w : PayoutWorld) : Prop extends
    Underway n w where
  flagged : ∀ b ∈ w.bonuses, b = worker ∨ w.claimed b = true
  counted : w.bonuses.length ≤ w.bountyCount + extra

theorem PayoutWorld.Settled.stable (hw : w.Settled) (hn : n ∈ w.running) (h : Alone n w w') :
    w'.Settled := by
  obtain ⟨hclaimed, hcount, hbonuses⟩ := h.records hn
  exact ⟨by rw [hbonuses, hclaimed]; exact hw.flagged, by rw [hbonuses, hcount]; exact hw.counted⟩

theorem carried_idling : Carried (Alone n) (RunTurn n) (Idling n) :=
  ⟨fun _ _ h hw => ⟨hw.toUnderway.stable h, hw.settled.stable hw.running h⟩,
    fun _ hw => hw.toUnderway.refl⟩

theorem carried_eligible : Carried (Alone n) (RunTurn n) (Eligible n worker) :=
  ⟨fun w w' h hw => ⟨carried_idling.stable w w' h hw.toIdling, by
    rw [(h.records hw.running).1]
    exact hw.unclaimed⟩, fun _ hw => hw.toUnderway.refl⟩

theorem carried_unrecorded {extra : ℕ} :
    Carried (Alone n) (RunTurn n) (Unrecorded n worker extra) := by
  refine ⟨fun w w' h hw => ?_, fun _ hw => hw.toUnderway.refl⟩
  obtain ⟨hclaimed, hcount, hbonuses⟩ := h.records hw.running
  refine ⟨hw.toUnderway.stable h, ?_, ?_⟩
  · rw [hbonuses, hclaimed]
    exact hw.flagged
  · rw [hbonuses, hcount]
    exact hw.counted

section Steps

/-- A bonus for a wallet without a flag is the first under its spelling, so it is the first to its
destination. -/
theorem Bounty.send (hone : OneSpelling R Known) (hknown : Known worker) (hI : Bounty R Known w l)
    (hw : Eligible n worker w) (hcount : w.bountyCount < 4000) : Bounty R Known (w.send worker) l where
  once := by
    have hnew : ∀ b ∈ w.bonuses, b ≠ worker := by
      rintro b hb rfl
      have := hw.settled.flagged b hb
      rw [hw.unclaimed] at this
      cases this
    constructor
    · apply List.pairwise_append.mpr
      refine ⟨hI.once.distinct, List.pairwise_singleton _ _, fun b hb b' hb' => ?_⟩
      obtain rfl := List.mem_singleton.mp hb'
      exact ⟨hnew b hb, fun hsame => hnew b hb (hone b b' (hI.known b hb) hknown hsame)⟩
    · have := hw.settled.counted
      show (w.bonuses ++ [worker]).length ≤ 4000
      rw [List.length_append, List.length_singleton]
      omega
  known b hb := by
    rcases List.mem_append.mp hb with hb | hb
    · exact hI.known b hb
    · rwa [List.mem_singleton.mp hb]
  cached := hI.cached
  single := hI.single

theorem Eligible.send (hw : Eligible n worker w) : Unrecorded n worker 1 (w.send worker) where
  numbered := hw.numbered
  running := hw.running
  flagged b hb := by
    rcases List.mem_append.mp hb with hb | hb
    · exact .inr (hw.settled.flagged b hb)
    · exact .inl (List.mem_singleton.mp hb)
  counted := by
    have := hw.settled.counted
    show (w.bonuses ++ [worker]).length ≤ w.bountyCount + 1
    rw [List.length_append, List.length_singleton]
    omega

theorem Unrecorded.claim (hw : Unrecorded n worker 0 w) : Idling n (w.claim worker) where
  numbered := hw.numbered
  running := hw.running
  settled :=
    { flagged := fun b hb => by
        show Function.update w.claimed worker true b = true
        by_cases hbw : b = worker
        · rw [hbw, Function.update_self]
        · rw [Function.update_of_ne hbw]
          exact (hw.flagged b hb).resolve_left hbw
      counted := hw.counted }

end Steps

section Tasks
variable {A α : Type} {M : Money A} {rt : Runtime}

/-- A part of run `n`. -/
abbrev Runs (R : AddressRules) (rt : Runtime) (Known : Text → Prop) (n : ℕ) (E : PayoutWorld → Prop)
    (F : PayoutWorld → α → Prop) (t : PayoutM A α) :
    PayoutWorld → PayoutWorld → List Output → Prop :=
  KeepsBy (fun r => r.Brings rt Known) (Bounty R Known) (Alone n) (RunTurn n)
    (Ends (Bounty R Known) (RunTurn n) E F) t

theorem bounty_admits : Admits A rt Known (fun r => r.Brings rt Known) (Bounty R Known) (Alone n)
    (RunTurn n) (Idling n) where
  answers _ h := h
  carried := carried_idling
  known _ _ hI := hI.cached
  cacheName w l domain address expiresAt hI hw haddress := by
    refine ⟨⟨hI.once, hI.known, ?_, hI.single⟩, hI.turn hw.toUnderway rfl, ?_⟩
    · exact List.forall_mem_cons.mpr ⟨haddress, hI.cached⟩
    · exact ⟨⟨hw.numbered, hw.running⟩, hw.settled.flagged, hw.settled.counted⟩

abbrev RunsFrom (R : AddressRules) (rt : Runtime) (Known : Text → Prop) (n : ℕ)
    (P : PayoutWorld → Prop) (F : PayoutWorld → α → Prop) (t : PayoutM A α) : Prop :=
  From (Bounty R Known) (RunTurn n) P (Runs R rt Known n (fun _ => True) F t)

theorem payoutRemote_runs {P : PayoutWorld → Prop} {F : PayoutWorld → α → Prop} {c : PayoutCall A}
    {f : PayoutWorld → PayoutWorld × α} (hP : Carried (Alone n) (RunTurn n) P)
    (hF : ∀ a, Carried (Alone n) (RunTurn n) (F · a))
    (hdone : ∀ w l, Bounty R Known w l → P w →
      Bounty R Known (f w).1 l ∧ RunTurn n w (f w).1 ∧ F (f w).1 (f w).2) :
    RunsFrom R rt Known n P F (payoutRemote c f) :=
  From.remote hP hF (fun _ _ => trivial) (fun _ _ _ => trivial) hdone

theorem getBonus_runs : RunsFrom R rt Known n (Idling n)
    (fun w found => Idling n w ∧ (found = false → Eligible n worker w))
    (payoutRemote (.getBonus worker) fun w => (w, w.claimed worker) : PayoutM A Bool) := by
  apply payoutRemote_runs carried_idling
  · intro found
    exact ⟨fun w w' h hw => ⟨carried_idling.stable w w' h hw.1, fun hf =>
      carried_eligible.stable w w' h (hw.2 hf)⟩, fun _ hw => hw.1.refl⟩
  · intro w l hI hw
    exact ⟨hI, hw.refl, hw, fun hf => ⟨hw, hf⟩⟩

theorem carried_counted {count : ℕ} : Carried (Alone n) (RunTurn n)
    fun w => Eligible n worker w ∧ w.bountyCount = count :=
  ⟨fun w w' h hw => ⟨carried_eligible.stable w w' h hw.1,
    (h.records hw.1.running).2.1.trans hw.2⟩, fun _ hw => hw.1.refl⟩

theorem getBountyCount_runs : RunsFrom R rt Known n (Eligible n worker)
    (fun w count => Eligible n worker w ∧ w.bountyCount = count)
    (payoutRemote .getBountyCount fun w => (w, w.bountyCount) : PayoutM A ℕ) :=
  payoutRemote_runs carried_eligible (fun _ => carried_counted) fun _ _ hI hw =>
    ⟨hI, hw.refl, hw, rfl⟩

theorem countBonus_runs : RunsFrom R rt Known n (Unrecorded n worker 1)
    (fun w _ => Unrecorded n worker 0 w)
    (payoutRemote .incrBountyCount fun w => (w.count, ()) : PayoutM A Unit) := by
  apply payoutRemote_runs carried_unrecorded fun _ => carried_unrecorded
  intro w l hI hw
  exact ⟨⟨hI.once, hI.known, hI.cached, hI.single⟩, hI.turn hw.toUnderway rfl,
    ⟨hw.numbered, hw.running⟩, hw.flagged, hw.counted⟩

theorem claimBonus_runs : RunsFrom R rt Known n (Unrecorded n worker 0) (fun w _ => Idling n w)
    (payoutRemote (.setBonus worker) fun w => (w.claim worker, ()) : PayoutM A Unit) := by
  apply payoutRemote_runs carried_unrecorded fun _ => carried_idling
  intro w l hI hw
  exact ⟨⟨hI.once, hI.known, hI.cached, hI.single⟩, hI.turn hw.toUnderway rfl, hw.claim⟩

/-- A part of run `n` between two wallets. -/
abbrev Idles (R : AddressRules) (rt : Runtime) (Known : Text → Prop) (n : ℕ) (t : PayoutM A α) :
    Prop := RunsFrom R rt Known n (Idling n) (fun w _ => Idling n w) t

theorem idles_pure (a : α) : Idles R rt Known n (.pure a : PayoutM A α) := .pure fun _ hw => hw

theorem idlingCall_runs (c : PayoutCall A) : RunsFrom R rt Known n (Idling n)
    (fun w r => Idling n w ∧ r.Brings rt Known) (payoutCall c) :=
  (payoutCall_ends bounty_admits c).weaken (fun _ _ => trivial) fun _ _ h => h

theorem lifetimeOf_runs (payouts : SlotMap Text A) :
    Idles R rt Known n (lifetimeOf M payouts worker) := by
  unfold lifetimeOf
  split
  · exact .throw fun _ _ => trivial
  · apply From.seq (idlingCall_runs _)
    refine fun r => .given fun _ => ?_
    cases r <;> exact idles_pure _

variable (hone : OneSpelling R Known)
include hone

theorem sendBonus_runs (hknown : Known worker) {count : ℕ} (hcount : count < 4000) :
    RunsFrom R rt Known n (fun w => Eligible n worker w ∧ w.bountyCount = count)
      (fun w _ => Unrecorded n worker 1 w)
      (payoutRemote (.sendToAddress worker) fun w => (w.send worker, ()) : PayoutM A Unit) := by
  apply payoutRemote_runs carried_counted fun _ => carried_unrecorded
  intro w l hI hw
  exact ⟨hI.send hone hknown hw.1 (hw.2 ▸ hcount), hI.turn hw.1.toUnderway rfl, hw.1.send⟩

theorem awardBonus_runs (hknown : Known worker) :
    Idles R rt Known n (awardBonus worker : PayoutM A Unit) := by
  apply From.seq getBonus_runs
  intro found
  cases found with
  | true => exact .pure fun _ hw => hw.1
  | false =>
    refine From.imp (From.seq getBountyCount_runs fun count => ?_) fun _ hw => hw.2 rfl
    split
    · rename_i hcount
      apply From.seq (sendBonus_runs hone hknown hcount)
      intro _
      exact From.seq countBonus_runs fun _ => claimBonus_runs
    · exact .pure fun _ hw => hw.1.toIdling

theorem checkBonus_runs (hknown : Known worker) (payouts : SlotMap Text A)
    (solo : SlotMap Text ℕ) : Idles R rt Known n (checkBonus M payouts solo worker) := by
  apply From.seq (lifetimeOf_runs payouts)
  intro lifetime
  split
  · exact awardBonus_runs hone hknown
  · exact idles_pure _

theorem checkBonuses_runs {feeWallet : Text} (payouts : SlotMap Text A) (solo : SlotMap Text ℕ)
    {workers : List Text} (hworkers : ∀ k ∈ workers, k ≠ feeWallet → Known k) :
    Idles R rt Known n (checkBonuses M feeWallet payouts solo workers) := by
  induction workers with
  | nil => exact idles_pure _
  | cons worker workers ih =>
    obtain ⟨hworker, hworkers⟩ := List.forall_mem_cons.mp hworkers
    unfold checkBonuses
    split
    · exact ih hworkers
    · rename_i hne
      exact From.seq (checkBonus_runs hone (hworker hne) payouts solo) fun _ => ih hworkers

theorem bonusEngine_runs {feeWallet : Text} {payouts : SlotMap Text A}
    (hpayouts : PaysShares M rt Known feeWallet payouts) :
    Idles R rt Known n (bonusEngine M rt feeWallet payouts) := by
  apply From.seq (idlingCall_runs _)
  refine fun r => .given fun _ => ?_
  cases r with
  | balance faucetBalance =>
    dsimp only
    split
    · apply From.seq (idlingCall_runs _)
      refine fun r => .given fun hbrings => ?_
      cases r with
      | soloBlocks blocks =>
        have hempty : ∀ k, (SlotMap.empty : SlotMap Text ℕ).has k = true → Known k := by simp [SlotMap.has]
        have hsolo := soloRewards_ends (bounty_admits (R := R) (n := n)) (A := A) hbrings hempty
        apply From.seq (hsolo.weaken (fun _ _ => trivial) fun _ _ h => h)
        refine fun solo => .given fun hsolo => ?_
        refine checkBonuses_runs hone payouts solo fun k hk hne => ?_
        rcases mem_allRewards.mp hk with hk | hk
        · exact hpayouts.known hk hne
        · exact hsolo k hk
      | _ => exact .throw fun _ _ => trivial
    · exact idles_pure _
  | _ => exact idles_pure _

theorem processPayouts_runs :
    RunsFrom R rt Known n (Idling n) (fun _ _ => True) (processPayouts M rt) := by
  intro w₀ w l hI hG hw
  change Runs R rt Known n _ _ (if !w.pool.redis then _ else _) w₀ w l
  split
  · exact ⟨hI, hG, trivial⟩
  · refine From.catching (E := fun _ => True) ?_ (fun _ => .pure fun _ _ => trivial) hI hG hw
    apply From.seq ((payoutsToSend_ends bounty_admits).weaken (fun _ _ => trivial) fun _ _ h => h)
    refine fun sent => .given fun hsent => ?_
    cases sent with
    | none => exact .pure fun _ _ => trivial
    | some sent =>
      obtain ⟨feeWallet, payouts⟩ := sent
      apply From.seq ((sendPayouts_ends bounty_admits payouts).weaken (fun _ _ => trivial)
        fun _ _ h => h)
      refine fun _ => .given fun _ => ?_
      apply ((bonusEngine_runs hone (hsent _ rfl)).weaken (fun _ h => h)
        fun _ _ _ => trivial).catching
      exact fun _ => .pure fun _ _ => trivial

end Tasks

section Inputs
variable {A : Type} {M : Money A} {rt : Runtime}

theorem Bounty.beginRun (hI : Bounty R Known w l) (hrunning : w.running = []) :
    Bounty R Known w.beginRun l := by
  refine ⟨hI.once, hI.known, hI.cached, ?_⟩
  simp [PayoutWorld.beginRun, hrunning]

theorem runTurn_beginRun : RunTurn w.inputs w w.beginRun where
  others _ _ := ⟨Nat.le_succ _, fun h => List.mem_cons_of_mem _ h, fun _ => ⟨rfl, rfl, rfl⟩⟩
  inputs := by
    show w.inputs + 1 = _
    omega

theorem Bounty.endRun (hI : Bounty R Known w l) (n : ℕ) : Bounty R Known (w.endRun n) l where
  once := hI.once
  known := hI.known
  cached := hI.cached
  single m hm m' hm' := hI.single m (List.mem_of_mem_filter hm) m' (List.mem_of_mem_filter hm')

theorem runTurn_endRun (hn : n < w.inputs) : RunTurn n w (w.endRun n) where
  others m hm := ⟨le_rfl, fun h => List.mem_filter.mpr ⟨h, by simpa using hm⟩,
    fun _ => ⟨rfl, rfl, rfl⟩⟩
  inputs := by
    show w.inputs = _
    omega

theorem servePayouts_keeps (hone : OneSpelling R Known) (input : PayoutInput) (w : PayoutWorld)
    (l : List Output) (hinput : SeparateRuns Known w l input) (hI : Bounty R Known w l) :
    KeepsBy (fun r => r.Brings rt Known) (Bounty R Known) (Alone w.inputs) (RunTurn w.inputs)
      (Restores (Bounty R Known) (RunTurn w.inputs)) (servePayouts M rt input) w w l := by
  have hwaits : ∀ w' : PayoutWorld, w'.inputs = w.inputs + 1 → w'.running = w.running →
      w'.claimed = w.claimed → w'.bountyCount = w.bountyCount → w'.bonuses = w.bonuses →
      RunTurn w.inputs w w' := by
    intro w' hinputs hrunning hclaimed hcount hbonuses
    exact ⟨fun _ _ => ⟨by omega, fun h => by rwa [hrunning], fun _ => ⟨hclaimed, hcount, hbonuses⟩⟩,
      by omega⟩
  cases input with
  | tick elapsed =>
    exact ⟨⟨hI.once, hI.known, hI.cached, hI.single⟩, hwaits _ rfl rfl rfl rfl rfl⟩
  | resolved domain address =>
    exact ⟨⟨hI.once, hI.known, List.forall_mem_cons.mpr ⟨hinput, hI.cached⟩, hI.single⟩,
      hwaits _ rfl rfl rfl rfl rfl⟩
  | hour =>
    have hidling : Idling w.inputs w.beginRun :=
      ⟨⟨Nat.lt_succ_self _, List.mem_cons_self⟩, hinput.2.flagged, hinput.2.counted⟩
    apply KeepsBy.restores (E := fun _ => True) (F := fun _ _ => True)
    refine From.seq (processPayouts_runs hone) (fun _ w₀ w' l hI hG _ => ?_) (hI.beginRun hinput.1)
      runTurn_beginRun hidling
    have hn : w.inputs < w'.inputs := by
      rw [hG.inputs]
      omega
    exact ⟨hI.endRun _, hG.trans (runTurn_endRun hn), trivial⟩

end Inputs

/-- In every sequence of runs, each of which begins when the one before has ended and recorded its
bonuses, no wallet gets two bonuses and at most four thousand are sent. -/
theorem bounty_once (R : AddressRules) (rt : Runtime) {A : Type} (M : Money A) (Known : Text → Prop)
    (hone : OneSpelling R Known) (w : PayoutWorld) (hw : w.Fresh Known)
    (moves : List (Move (PayoutAnswer A) PayoutInput))
    (hmoves : LegalMoves (servePayouts M rt) (SeparateRuns Known) (System.initial w) moves)
    (hanswers : ∀ i r, .resume i r ∈ moves → r.Brings rt Known) :
    BountyOnce R (run (servePayouts M rt) (System.initial w) moves).world.bonuses := by
  have hI : Bounty R Known w [] :=
    { once := by rw [hw.bonuses]; exact ⟨.nil, Nat.zero_le _⟩
      known := by simp [hw.bonuses]
      cached := hw.cached
      single := by simp [hw.running] }
  exact (run_owned (servePayouts_keeps hone) (owned_initial hI hw.inputs) runTurn_fits hmoves
    hanswers).1.once

section Sample

def sampleWallet : Text := "tar1qqqqqqqqqqqqqqqqqqqqqqqqqqqqqqqqqck3y2w".toList

def freshWorld : PayoutWorld := ⟨.initial true (fun _ => []) [], fun _ => false, 0, 0, [], []⟩

/-- The answers that lead a run to the claimed flag of its only miner. -/
def miningAnswers : List (PayoutAnswer ℤ) :=
  [.balance 5000000000000, .shares [minerName "tar1qqqqqqqqqqqqqqqqqqqqqqqqqqqqqqqqqck3y2w.rig1"], .done,
    .validated true] ++ List.replicate 5 .done ++
    [.balance 1000000000000, .soloBlocks [], .lifetime 2000000000000]

abbrev PayoutMove := Move (PayoutAnswer ℤ) PayoutInput

def answered (n : ℕ) (answers : List (PayoutAnswer ℤ)) : List PayoutMove := answers.map (.resume n)

def readRecords (n : ℕ) : List PayoutMove := answered n (miningAnswers ++ List.replicate 4 .done)

/-- Two runs one after the other; the second finds the flag. -/
def hourlyMoves : List PayoutMove :=
  [.fire .hour] ++ readRecords 0 ++ answered 0 (List.replicate 6 .done) ++
    [.fire .hour] ++ answered 1 (miningAnswers ++ List.replicate 2 .done)

theorem mem_of_mem_answered {i n : ℕ} {r : PayoutAnswer ℤ} {answers : List (PayoutAnswer ℤ)}
    (h : .resume i r ∈ answered n answers) : r ∈ answers := by
  obtain ⟨r', hr', heq⟩ := List.mem_map.mp h
  cases heq
  exact hr'

theorem miningAnswers_bring {k : ℕ} {r : PayoutAnswer ℤ}
    (hr : r ∈ miningAnswers ++ List.replicate k .done) : r.Brings .constant (· = sampleWallet) := by
  have hname : (parseMinerWorker .constant
      (minerName "tar1qqqqqqqqqqqqqqqqqqqqqqqqqqqqqqqqqck3y2w.rig1")).wallet = sampleWallet := by
    decide
  have hall : ∀ r ∈ miningAnswers, r.Brings .constant (· = sampleWallet) := by
    simp [miningAnswers, PayoutAnswer.Brings, hname]
  rcases List.mem_append.mp hr with hr | hr
  · exact hall r hr
  · rw [List.eq_of_mem_replicate hr]
    trivial

theorem hourlyMoves_bring (i : ℕ) (r : PayoutAnswer ℤ) (hr : .resume i r ∈ hourlyMoves) :
    r.Brings .constant (· = sampleWallet) := by
  simp only [hourlyMoves, List.mem_append, List.mem_singleton, reduceCtorEq, false_or, or_false] at hr
  rcases hr with (hr | hr) | hr
  · exact miningAnswers_bring (mem_of_mem_answered hr)
  · rw [List.eq_of_mem_replicate (mem_of_mem_answered hr)]
    trivial
  · exact miningAnswers_bring (mem_of_mem_answered hr)

theorem bounty_once_hourly :
    (run (servePayouts exactMoney .constant) (System.initial freshWorld) hourlyMoves).world.bonuses =
      [sampleWallet] ∧
    BountyOnce zeroHashRules
      (run (servePayouts exactMoney .constant) (System.initial freshWorld) hourlyMoves).world.bonuses := by
  refine ⟨by decide +kernel, ?_⟩
  apply bounty_once zeroHashRules .constant exactMoney (· = sampleWallet)
  · intro a b ha hb _
    rw [ha, hb]
  · exact ⟨by simp [freshWorld, World.initial], rfl, rfl, rfl⟩
  · decide +kernel
  · exact hourlyMoves_bring

/-- The bonus is broadcast, but the answer to the call is lost; the next run pays again. -/
def timeoutMoves : List PayoutMove :=
  [.fire .hour] ++ readRecords 0 ++ answered 0 [.done, .rejects] ++
    [.fire .hour] ++ readRecords 1 ++ answered 1 (List.replicate 6 .done)

/-- Both runs read the records before one of them writes them. -/
def overlappingRuns : List PayoutMove :=
  [.fire .hour, .fire .hour] ++ readRecords 0 ++ readRecords 1 ++
    answered 0 (List.replicate 6 .done) ++ answered 1 (List.replicate 6 .done)

theorem bounty_paid_twice :
    ¬BountyOnce zeroHashRules
      (run (servePayouts exactMoney .constant) (System.initial freshWorld) timeoutMoves).world.bonuses ∧
    ¬BountyOnce zeroHashRules
      (run (servePayouts exactMoney .constant) (System.initial freshWorld) overlappingRuns).world.bonuses :=
  ⟨by decide +kernel, by decide +kernel⟩

end Sample

end Tarcoin.Pool
