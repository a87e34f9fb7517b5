import Tarcoin.Foundations.SlotMap
import Tarcoin.Pool.PayoutMap

/-! `processPayouts` on exact decimals. The tenth of a coin that is held back is more than a
million roundings can add. -/
namespace Tarcoin.Pool

/-- `parseFloat(x.toFixed(8))`: of two nearest decimals the one further from zero. -/
def toFixed8 (x : ℚ) : ℚ :=
  if x < 0 then -(round (-x * 10 ^ 8) / 10 ^ 8 : ℚ) else round (x * 10 ^ 8) / 10 ^ 8

def amountToDistribute (fee balance : ℚ) : ℚ := (balance - 1 / 10) * (1 - fee / 100)

/-- The operations of the payout engine on exact decimals, with the fee of the pool in percent. -/
def decimalMoney (fee : ℚ) : Money ℚ where
  tooLow balance := decide (balance < 49000)
  reward balance shareCount totalShares :=
    toFixed8 (amountToDistribute fee balance * (shareCount / totalShares))
  payable workerReward := decide (1 ≤ workerReward)
  zero := 0
  add := (· + ·)
  finalFee balance totalAssigned := toFixed8 (balance - 1 / 10 - totalAssigned)
  positive finalFee := decide (0 < finalFee)
  truthy amount := decide (amount ≠ 0)
  addFixed a b := toFixed8 (a + b)
  funded faucetBalance := decide (1000 ≤ faucetBalance)
  eligible lifetimePool blocks := decide (20000 ≤ lifetimePool + 49500 * blocks)

section Decimals

def EightDecimals (x : ℚ) : Prop := ∃ n : ℤ, x = n / 10 ^ 8

variable {x y : ℚ}

theorem EightDecimals.add (hx : EightDecimals x) (hy : EightDecimals y) : EightDecimals (x + y) := by
  obtain ⟨m, rfl⟩ := hx
  obtain ⟨n, rfl⟩ := hy
  exact ⟨m + n, by push_cast; ring⟩

theorem EightDecimals.sub (hx : EightDecimals x) (hy : EightDecimals y) : EightDecimals (x - y) := by
  obtain ⟨m, rfl⟩ := hx
  obtain ⟨n, rfl⟩ := hy
  exact ⟨m - n, by push_cast; ring⟩

theorem eightDecimals_toFixed8 (x : ℚ) : EightDecimals (toFixed8 x) := by
  unfold toFixed8
  split_ifs
  · exact ⟨-round (-x * 10 ^ 8), by push_cast; ring⟩
  · exact ⟨round (x * 10 ^ 8), rfl⟩

theorem toFixed8_eq_self (h : EightDecimals x) : toFixed8 x = x := by
  obtain ⟨n, rfl⟩ := h
  have hpos : (n / 10 ^ 8 * 10 ^ 8 : ℚ) = n := by ring
  have hneg : (-(n / 10 ^ 8) * 10 ^ 8 : ℚ) = (-n : ℤ) := by push_cast; ring
  unfold toFixed8
  rw [hpos, hneg, round_intCast, round_intCast]
  split_ifs
  · push_cast
    ring
  · rfl

theorem toFixed8_le (hx : 0 ≤ x) : toFixed8 x ≤ x + 1 / (2 * 10 ^ 8) := by
  have hround := (abs_le.mp (abs_sub_round (x * 10 ^ 8))).1
  rw [toFixed8, if_neg (not_lt.mpr hx)]
  linarith

end Decimals

section Rewards

theorem objectEntries_workerShares (wallets : List Text) : objectEntries (workerShares wallets) =
    (objectKeys (workerShares wallets)).map fun k => (k, wallets.count k) := by
  rw [← List.filterMap_eq_map]
  apply List.filterMap_congr
  intro k hk
  have hhas := mem_objectKeys.mp hk
  rw [SlotMap.has, get_workerShares] at hhas
  rw [get_workerShares]
  split_ifs at hhas ⊢
  · rfl
  · cases hhas

theorem objectKeys_workerShares_subset (wallets : List Text) :
    objectKeys (workerShares wallets) ⊆ wallets := by
  intro k hk
  have hhas := mem_objectKeys.mp hk
  rw [SlotMap.has, get_workerShares] at hhas
  split_ifs at hhas with hmem
  · exact hmem.1
  · cases hhas

theorem workerShares_sum_le (wallets : List Text) :
    (objectEntries (workerShares wallets)).length ≤ wallets.length ∧
      ((objectEntries (workerShares wallets)).map Prod.snd).sum ≤ wallets.length := by
  have hsub := objectKeys_workerShares_subset wallets
  rw [objectEntries_workerShares, List.length_map, List.map_map]
  refine ⟨(nodup_objectKeys.subperm hsub).length_le, ?_⟩
  calc ((objectKeys (workerShares wallets)).map fun k => wallets.count k).sum
      = ∑ k ∈ (objectKeys (workerShares wallets)).toFinset, wallets.count k :=
        (List.sum_toFinset _ nodup_objectKeys).symm
    _ ≤ ∑ k ∈ wallets.toFinset, wallets.count k :=
        Finset.sum_le_sum_of_subset fun k hk =>
          List.mem_toFinset.mpr (hsub (List.mem_toFinset.mp hk))
    _ = wallets.length := by convert List.sum_toFinset_count_eq_length wallets

def Sound (payouts : SlotMap Text ℚ) : Prop :=
  ∀ k amount, payouts.get k = some amount → 0 ≤ amount ∧ EightDecimals amount

variable {payouts : SlotMap Text ℚ} {tally : Tally ℚ} {entry : Text × ℕ}

theorem Sound.set (h : Sound payouts) (k : Text) {amount : ℚ} (hpos : 0 ≤ amount)
    (hdec : EightDecimals amount) : Sound (payouts.set k amount) := by
  intro k' amount' hget
  rw [SlotMap.get_set] at hget
  split_ifs at hget
  · cases hget
    exact ⟨hpos, hdec⟩
  · exact h k' amount' hget

theorem Sound.delete (h : Sound payouts) (k : Text) : Sound (payouts.delete k) := by
  intro k' amount' hget
  rw [SlotMap.get_delete] at hget
  split_ifs at hget
  exact h k' amount' hget

/-- What the loop over the workers keeps: the total is what the payouts add up to. -/
structure Tallied (tally : Tally ℚ) : Prop where
  sound : Sound tally.payouts
  sum : tally.payouts.sum = tally.totalAssigned
  decimals : EightDecimals tally.totalAssigned

variable {fee balance : ℚ} {totalShares : ℕ}

variable (totalShares) in
theorem tallied_assignReward (h : Tallied tally) (hnew : tally.payouts.get entry.1 = none)
    (hamount : 0 ≤ amountToDistribute fee balance) :
    Tallied (assignReward (decimalMoney fee) balance totalShares tally entry) ∧
      (assignReward (decimalMoney fee) balance totalShares tally entry).totalAssigned ≤
        tally.totalAssigned + (amountToDistribute fee balance * (entry.2 / totalShares) +
          1 / (2 * 10 ^ 8)) := by
  have hshare : 0 ≤ amountToDistribute fee balance * (entry.2 / totalShares) := by positivity
  unfold assignReward
  dsimp only
  split_ifs with hpay
  · have hone : 1 ≤ (decimalMoney fee).reward balance entry.2 totalShares := of_decide_eq_true hpay
    have hdec : EightDecimals ((decimalMoney fee).reward balance entry.2 totalShares) :=
      eightDecimals_toFixed8 _
    have hle := toFixed8_le hshare
    refine ⟨⟨h.sound.set _ (zero_le_one.trans hone) hdec, ?_, h.decimals.add hdec⟩, ?_⟩
    · rw [SlotMap.sum_set_new hnew, h.sum]
      rfl
    · exact add_le_add_right hle _
  · refine ⟨h, ?_⟩
    linarith

theorem get_assignReward_of_ne {A : Type} {M : Money A} {balance : A} {tally : Tally A} {k : Text}
    (h : k ≠ entry.1) :
    (assignReward M balance totalShares tally entry).payouts.get k = tally.payouts.get k := by
  unfold assignReward
  dsimp only
  split_ifs
  · rw [SlotMap.get_set, if_neg h]
  · rfl

variable (totalShares) in
theorem tallied_assignRewards {entries : List (Text × ℕ)} (h : Tallied tally)
    (hnodup : (entries.map Prod.fst).Nodup)
    (hnew : ∀ k ∈ entries.map Prod.fst, tally.payouts.get k = none)
    (hamount : 0 ≤ amountToDistribute fee balance) :
    Tallied (entries.foldl (assignReward (decimalMoney fee) balance totalShares) tally) ∧
      (entries.foldl (assignReward (decimalMoney fee) balance totalShares) tally).totalAssigned ≤
        tally.totalAssigned +
          (amountToDistribute fee balance * ((entries.map Prod.snd).sum / totalShares) +
            entries.length * (1 / (2 * 10 ^ 8))) := by
  induction entries generalizing tally with
  | nil => exact ⟨h, by simp⟩
  | cons entry entries ih =>
    rw [List.map_cons, List.nodup_cons] at hnodup
    rw [List.map_cons, List.forall_mem_cons] at hnew
    obtain ⟨hstep, hle⟩ := tallied_assignReward totalShares h hnew.1 hamount
    have hnew' : ∀ k ∈ entries.map Prod.fst,
        (assignReward (decimalMoney fee) balance totalShares tally entry).payouts.get k = none := by
      intro k hk
      rw [get_assignReward_of_ne fun heq => hnodup.1 (heq ▸ hk)]
      exact hnew.2 k hk
    obtain ⟨hrest, hrestle⟩ := ih hstep hnodup.2 hnew'
    refine ⟨hrest, hrestle.trans ?_⟩
    rw [List.map_cons, List.sum_cons, List.length_cons]
    push_cast
    rw [add_div, add_mul, one_mul]
    linarith

theorem tallied_minerPayouts (wallets : List Text) (hamount : 0 ≤ amountToDistribute fee balance) :
    Tallied (minerPayouts (decimalMoney fee) balance wallets) ∧
      (minerPayouts (decimalMoney fee) balance wallets).totalAssigned ≤
        amountToDistribute fee balance + wallets.length * (1 / (2 * 10 ^ 8)) := by
  have hstart : Tallied (⟨.empty, (decimalMoney fee).zero⟩ : Tally ℚ) :=
    ⟨nofun, rfl, 0, by simp [decimalMoney]⟩
  have hnodup : ((objectEntries (workerShares wallets)).map Prod.fst).Nodup := by
    rw [map_fst_objectEntries]
    exact nodup_objectKeys
  obtain ⟨hcount, hsum⟩ := workerShares_sum_le wallets
  obtain ⟨htallied, hle⟩ := tallied_assignRewards wallets.length hstart hnodup
    (fun _ _ => SlotMap.get_empty) hamount
  refine ⟨htallied, hle.trans ?_⟩
  have hratio : (((objectEntries (workerShares wallets)).map Prod.snd).sum / wallets.length : ℚ) ≤ 1 :=
    div_le_one_of_le₀ (by exact_mod_cast hsum) (Nat.cast_nonneg _)
  have hshare := mul_le_mul_of_nonneg_left hratio hamount
  have hcount' : ((objectEntries (workerShares wallets)).length : ℚ) ≤ wallets.length := by
    exact_mod_cast hcount
  have hzero : (decimalMoney fee).zero = 0 := rfl
  linarith

end Rewards

section Reassignment

variable {fee balance : ℚ} {feeWallet : Text} {payouts : SlotMap Text ℚ} {invalid : Text → Bool}

/-- The remainder is exact. If there is one and a wallet for it, the payouts make up all that can be
sent. -/
theorem payFee_sum {tally : Tally ℚ} (htally : Tallied tally) (hdec : EightDecimals balance)
    (h : payFee (decimalMoney fee) balance feeWallet tally = .ok payouts) :
    Sound payouts ∧ (payouts.sum = tally.totalAssigned ∨ payouts.sum = balance - 1 / 10) ∧
      (tally.totalAssigned < balance - 1 / 10 → feeWallet ≠ [] →
        payouts.sum = balance - 1 / 10 ∧ feeWallet ∉ inheritedNames) := by
  have htenth : EightDecimals (1 / 10) := ⟨10 ^ 7, by norm_num⟩
  have hleft := (hdec.sub htenth).sub htally.decimals
  have hexact : (decimalMoney fee).finalFee balance tally.totalAssigned =
      balance - 1 / 10 - tally.totalAssigned := toFixed8_eq_self hleft
  unfold payFee at h
  dsimp only at h
  rw [hexact] at h
  split_ifs at h with hfee hinherited
  · have hpos : 0 < balance - 1 / 10 - tally.totalAssigned := of_decide_eq_true hfee.1
    have hdone : Sound payouts ∧ payouts.sum = balance - 1 / 10 := by
      split at h
      · rename_i paid hpaid
        obtain ⟨hpaid₀, hpaid₁⟩ := htally.sound _ _ hpaid
        have hsum : (decimalMoney fee).addFixed paid (balance - 1 / 10 - tally.totalAssigned) =
            paid + (balance - 1 / 10 - tally.totalAssigned) := toFixed8_eq_self (hpaid₁.add hleft)
        have hnew : (if (decimalMoney fee).truthy paid then
            (decimalMoney fee).addFixed paid (balance - 1 / 10 - tally.totalAssigned)
            else balance - 1 / 10 - tally.totalAssigned) =
            paid + (balance - 1 / 10 - tally.totalAssigned) := by
          split_ifs with htruthy
          · exact hsum
          · have hzero : paid = 0 := by simpa [decimalMoney] using htruthy
            rw [hzero, zero_add]
        cases h
        rw [hnew]
        refine ⟨htally.sound.set _ (by linarith) (hpaid₁.add hleft), ?_⟩
        have hset := SlotMap.sum_set_old (v := paid + (balance - 1 / 10 - tally.totalAssigned)) hpaid
        rw [htally.sum] at hset
        linarith
      · rename_i hnone
        cases h
        refine ⟨htally.sound.set _ hpos.le hleft, ?_⟩
        rw [SlotMap.sum_set_new hnone, htally.sum]
        ring
    exact ⟨hdone.1, .inr hdone.2, fun _ _ => ⟨hdone.2, hinherited⟩⟩
  · cases h
    refine ⟨htally.sound, .inl htally.sum, fun hlt hwallet => absurd ⟨?_, hwallet⟩ hfee⟩
    exact decide_eq_true (sub_pos.mpr hlt)

variable (fee feeWallet) in
/-- A reward that is handed on stays in the sum; without a fee wallet it leaves it. -/
theorem reassign_sum (h : Sound payouts) (address : Text) :
    Sound (reassign (decimalMoney fee) feeWallet payouts address) ∧
      (reassign (decimalMoney fee) feeWallet payouts address).sum ≤ payouts.sum ∧
      (feeWallet ≠ [] → feeWallet ∉ inheritedNames →
        (reassign (decimalMoney fee) feeWallet payouts address).sum = payouts.sum) := by
  unfold reassign
  cases hget : payouts.get address with
  | none => exact ⟨h, le_rfl, fun _ _ => rfl⟩
  | some invalidReward =>
    obtain ⟨hpos, hdec⟩ := h _ _ hget
    have hdelete := SlotMap.sum_delete hget
    have hrest := h.delete address
    dsimp only
    split_ifs with hfee
    · refine ⟨hrest, by linarith, fun hne hown => ?_⟩
      exact absurd hfee (not_or.mpr ⟨hne, hown⟩)
    · -- what the fee wallet had is a decimal of eight places too, so nothing is rounded
      have hhad : ∃ had, ((payouts.delete address).get feeWallet).getD (decimalMoney fee).zero = had ∧
          0 ≤ had ∧ EightDecimals had ∧ ∀ v,
            ((payouts.delete address).set feeWallet v).sum + had = (payouts.delete address).sum + v := by
        cases hold : (payouts.delete address).get feeWallet with
        | none =>
          refine ⟨0, rfl, le_rfl, ⟨0, by simp⟩, fun v => ?_⟩
          rw [SlotMap.sum_set_new hold, add_zero]
        | some had =>
          obtain ⟨hhad₀, hhad₁⟩ := hrest _ _ hold
          exact ⟨had, rfl, hhad₀, hhad₁, fun v => SlotMap.sum_set_old hold⟩
      obtain ⟨had, heq, hhad₀, hhad₁, hset⟩ := hhad
      have hexact : (decimalMoney fee).addFixed had invalidReward = had + invalidReward :=
        toFixed8_eq_self (hhad₁.add hdec)
      rw [heq, hexact]
      have hsum := hset (had + invalidReward)
      refine ⟨hrest.set _ (add_nonneg hhad₀ hpos) (hhad₁.add hdec), by linarith, fun _ _ => ?_⟩
      linarith

theorem checkAddresses_sum (keys : List Text) (h : Sound payouts) :
    (keys.foldl (checkAddress (decimalMoney fee) feeWallet invalid) payouts).sum ≤ payouts.sum ∧
      (feeWallet ≠ [] → feeWallet ∉ inheritedNames →
        (keys.foldl (checkAddress (decimalMoney fee) feeWallet invalid) payouts).sum =
          payouts.sum) := by
  induction keys generalizing payouts with
  | nil => exact ⟨le_rfl, fun _ _ => rfl⟩
  | cons address keys ih =>
    rw [List.foldl_cons, checkAddress]
    split_ifs
    · obtain ⟨hsound, hle, heq⟩ := reassign_sum fee feeWallet h address
      obtain ⟨hle', heq'⟩ := ih hsound
      exact ⟨hle'.trans hle, fun hne hown => (heq' hne hown).trans (heq hne hown)⟩
    · exact ih h

end Reassignment

/-- A payout does not exceed the balance. If the rewards leave something of what can be sent and
there is a fee wallet, the payout is all that can be sent, whichever addresses are invalid. -/
theorem payouts_conserved (rt : Runtime) (fee balance : ℚ) (feeWallet : Text) (shares : List Key)
    (outcome : ℕ → Option Text) (invalid : Text → Bool) (payouts : SlotMap Text ℚ)
    (hfee : 0 ≤ fee ∧ fee ≤ 100) (hbalance : 49000 ≤ balance) (hdecimals : EightDecimals balance)
    (hshares : shares.length ≤ 1000000)
    (h : payoutsFor (decimalMoney fee) balance feeWallet (resolvedWallets rt shares outcome)
      invalid = .ok payouts) :
    payouts.sum ≤ balance ∧
      (feeWallet ≠ [] →
        (minerPayouts (decimalMoney fee) balance (resolvedWallets rt shares outcome)).totalAssigned <
          balance - 1 / 10 → payouts.sum = balance - 1 / 10) := by
  have hsendable : 0 ≤ balance - 1 / 10 := by linarith
  have hkept : amountToDistribute fee balance ≤ balance - 1 / 10 :=
    mul_le_of_le_one_right hsendable (by linarith)
  have hamount : 0 ≤ amountToDistribute fee balance := mul_nonneg hsendable (by linarith)
  obtain ⟨htallied, hle⟩ := tallied_minerPayouts (resolvedWallets rt shares outcome) hamount
  have hlength : ((resolvedWallets rt shares outcome).length : ℚ) ≤ 1000000 := by
    rw [resolvedWallets, List.length_mapIdx]
    exact_mod_cast hshares
  obtain ⟨first, hfirst, hlast⟩ := FallibleRun.bind_eq_ok_iff.mp h
  cases hlast
  obtain ⟨hsound, hsum, hall⟩ := payFee_sum htallied hdecimals hfirst
  obtain ⟨hchecked, hsame⟩ := checkAddresses_sum (objectKeys first) hsound
  refine ⟨hchecked.trans ?_, fun hwallet hlt => ?_⟩
  · obtain hsum | hsum := hsum
    · linarith
    · linarith
  · obtain ⟨hfirstSum, hown⟩ := hall hlt hwallet
    rw [hsame hwallet hown, hfirstSum]

def threeShares : List Key := [minerName "alice.rig1", minerName "bob.rig1", minerName "alice.rig2"]

/-- Three shares of two workers, of whom one gave an address that is not valid. -/
theorem payouts_conserved_threeShares :
    ∃ payouts ∈ (payoutsFor (decimalMoney 1) 50000 "fees".toList
      (resolvedWallets .constant threeShares fun _ => none)
      fun address => address = "bob".toList).toOption, payouts.sum = 50000 - 1 / 10 := by
  have hok : (payoutsFor (decimalMoney 1) 50000 "fees".toList
      (resolvedWallets .constant threeShares fun _ => none)
      fun address => address = "bob".toList).toOption.isSome = true := by decide +kernel
  cases h : payoutsFor (decimalMoney 1) 50000 "fees".toList
      (resolvedWallets .constant threeShares fun _ => none)
      fun address => address = "bob".toList with
  | error e =>
    rw [h] at hok
    cases hok
  | ok payouts =>
    exact ⟨payouts, rfl, (payouts_conserved .constant 1 50000 "fees".toList threeShares
      (fun _ => none) (fun address => address = "bob".toList) payouts (by norm_num) (by norm_num)
      ⟨50000 * 10 ^ 8, by norm_num⟩ (by decide) h).2 (by decide) (by decide +kernel)⟩

end Tarcoin.Pool
