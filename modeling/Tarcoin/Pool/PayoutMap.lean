import Tarcoin.KeyIO.AddressRoundTrip
import Tarcoin.Pool.Names
import Tarcoin.Rpc.ParseOutputs

/-! What `processPayouts` makes of the recorded shares before it calls `sendmany`. Nothing here
depends on what the arithmetic of amounts is. -/
namespace Tarcoin.Pool

/-- The operations on amounts. A reward, the remainder and a sum are rounded to eight places. -/
structure Money (A : Type) where
  /-- `balance < 49000`. -/
  tooLow : A → Bool
  /-- The reward of a wallet with so many of all the shares. -/
  reward : A → ℕ → ℕ → A
  /-- `workerReward >= 1`. -/
  payable : A → Bool
  zero : A
  add : A → A → A
  /-- What the balance leaves for the fee wallet after the rewards. -/
  finalFee : A → A → A
  /-- `finalFee > 0`. -/
  positive : A → Bool
  truthy : A → Bool
  addFixed : A → A → A
  /-- `faucetBalance >= 1000`. -/
  funded : A → Bool
  /-- Whether a lifetime total and the reward of so many solo blocks reach 20000. -/
  eligible : A → ℕ → Bool

/-- The names that every object has from its prototype. -/
def inheritedNames : List Text :=
  ["constructor", "hasOwnProperty", "isPrototypeOf", "propertyIsEnumerable", "toLocaleString",
    "toString", "valueOf", "__proto__", "__defineGetter__", "__defineSetter__", "__lookupGetter__",
    "__lookupSetter__"].map String.toList

/-- The value of a name that is an array index, which `Object.keys` puts first. -/
def arrayIndex (s : Text) : Option ℕ :=
  let value := Radix.accumulate 10 0 (s.map fun c => c.toNat - 48)
  if s ≠ [] ∧ s.all Char.isDigit ∧ (s = ['0'] ∨ s.head? ≠ some '0') ∧ value < 2 ^ 32 - 1 then
    some value
  else none

def objectKeys {ν : Type} (m : SlotMap Text ν) : List Text :=
  (m.keys.filter fun k => (arrayIndex k).isSome).mergeSort
      (fun a b => (arrayIndex a).getD 0 ≤ (arrayIndex b).getD 0) ++
    m.keys.filter fun k => (arrayIndex k).isNone

def objectEntries {ν : Type} (m : SlotMap Text ν) : List (Text × ν) :=
  (objectKeys m).filterMap fun k => (m.get k).map (Prod.mk k)

/-- What `resolveTnsToAddress` makes of a text; `outcome` is the address that the cache or the name
service gave, if one did. -/
def resolvedName (rt : Runtime) (raw : Text) (outcome : Option Text) : Text :=
  let domain := trim (rt.toLowerCase raw)
  if raw ≠ [] ∧ endsWith domain ".tar".toList ∧ isTarDomain domain then outcome.getD raw else raw

/-- The wallet of a share after its name was resolved. -/
def walletOf (rt : Runtime) (worker : Key) (outcome : Option Text) : Text :=
  resolvedName rt (parseMinerWorker rt worker).wallet outcome

/-- The wallets of the recorded shares, in their order. -/
def resolvedWallets (rt : Runtime) (shares : List Key) (outcome : ℕ → Option Text) : List Text :=
  shares.mapIdx fun i worker => walletOf rt worker (outcome i)

/-- One more share of a wallet. Adding one to what a name has from the prototype makes a text, and
the proportion of a text is not a number, so that such a name is never paid. -/
def countShare (workerShares : SlotMap Text ℕ) (wallet : Text) : SlotMap Text ℕ :=
  if wallet ∈ inheritedNames then workerShares
  else workerShares.set wallet ((workerShares.get wallet).getD 0 + 1)

def workerShares (wallets : List Text) : SlotMap Text ℕ := wallets.foldl countShare .empty

variable {A : Type} (M : Money A)

structure Tally (A : Type) where
  payouts : SlotMap Text A
  totalAssigned : A

def assignReward (balance : A) (totalShares : ℕ) (tally : Tally A) (entry : Text × ℕ) : Tally A :=
  let workerReward := M.reward balance entry.2 totalShares
  if M.payable workerReward then
    ⟨tally.payouts.set entry.1 workerReward, M.add tally.totalAssigned workerReward⟩
  else tally

def minerPayouts (balance : A) (wallets : List Text) : Tally A :=
  (objectEntries (workerShares wallets)).foldl (assignReward M balance wallets.length)
    ⟨.empty, M.zero⟩

/-- The remainder for the fee wallet. A name from the prototype makes the sum a text, which has no
`toFixed`. -/
def payFee (balance : A) (feeWallet : Text) (tally : Tally A) : Except JsError (SlotMap Text A) :=
  let finalFee := M.finalFee balance tally.totalAssigned
  if M.positive finalFee ∧ feeWallet ≠ [] then
    if feeWallet ∈ inheritedNames then .error .typeError
    else match tally.payouts.get feeWallet with
      | some paid =>
        .ok (tally.payouts.set feeWallet (if M.truthy paid then M.addFixed paid finalFee else finalFee))
      | none => .ok (tally.payouts.set feeWallet finalFee)
  else .ok tally.payouts

/-- The reward of an address that is not valid goes to the fee wallet. -/
def reassign (feeWallet : Text) (payouts : SlotMap Text A) (address : Text) : SlotMap Text A :=
  match payouts.get address with
  | some invalidReward =>
    let rest := payouts.delete address
    if feeWallet = [] ∨ feeWallet ∈ inheritedNames then rest
    else rest.set feeWallet (M.addFixed ((rest.get feeWallet).getD M.zero) invalidReward)
  | none => payouts

/-- What the check of an address does, if `invalid` says what the node answered. -/
def checkAddress (feeWallet : Text) (invalid : Text → Bool) (payouts : SlotMap Text A)
    (address : Text) : SlotMap Text A :=
  if address ≠ feeWallet ∧ invalid address then reassign M feeWallet payouts address else payouts

/-- The object that is passed to `sendmany`. -/
def payoutsFor (balance : A) (feeWallet : Text) (wallets : List Text) (invalid : Text → Bool) :
    Except JsError (SlotMap Text A) := do
  let payouts ← payFee M balance feeWallet (minerPayouts M balance wallets)
  pure ((objectKeys payouts).foldl (checkAddress M feeWallet invalid) payouts)

section Keys
variable {ν : Type} {m : SlotMap Text ν} {k : Text}

theorem objectKeys_perm (m : SlotMap Text ν) : (objectKeys m).Perm m.keys := by
  apply ((List.mergeSort_perm _ _).append_right _).trans
  have hnot : (fun k => !(arrayIndex k).isSome) = fun k => (arrayIndex k).isNone := by
    funext k
    exact Option.not_isSome _
  rw [← hnot]
  exact List.filter_append_perm _ _

theorem mem_objectKeys : k ∈ objectKeys m ↔ m.has k = true :=
  (objectKeys_perm m).mem_iff.trans SlotMap.mem_keys

theorem nodup_objectKeys : (objectKeys m).Nodup := (objectKeys_perm m).nodup_iff.mpr m.nodup

theorem mem_objectEntries {v : ν} : (k, v) ∈ objectEntries m ↔ m.get k = some v := by
  simp only [objectEntries, List.mem_filterMap, mem_objectKeys, Option.map_eq_some_iff,
    Prod.mk.injEq]
  constructor
  · rintro ⟨k', _, v', hget, rfl, rfl⟩
    exact hget
  · intro hget
    exact ⟨k, by rw [SlotMap.has, hget]; rfl, v, hget, rfl, rfl⟩

theorem map_fst_objectEntries (m : SlotMap Text ν) : (objectEntries m).map Prod.fst = objectKeys m := by
  rw [objectEntries, List.map_filterMap]
  have hsome : ∀ k ∈ objectKeys m, ((m.get k).map (Prod.mk k)).map Prod.fst = some k := by
    intro k hk
    obtain ⟨v, hv⟩ := Option.isSome_iff_exists.mp (mem_objectKeys.mp hk)
    rw [hv]
    rfl
  rw [List.filterMap_congr hsome, List.filterMap_some]

end Keys

section Recipients
variable {M} {balance : A} {feeWallet : Text} {wallets : List Text} {invalid : Text → Bool} {k : Text}

theorem get_workerShares (wallets : List Text) (k : Text) : (workerShares wallets).get k =
    if k ∈ wallets ∧ k ∉ inheritedNames then some (wallets.count k) else none := by
  induction wallets using List.reverseRecOn generalizing k with
  | nil => simp [workerShares]
  | append_singleton wallets wallet ih =>
    rw [workerShares, List.foldl_concat, ← workerShares, countShare]
    by_cases hk : k = wallet
    · subst hk
      by_cases hinherited : k ∈ inheritedNames
      · rw [if_pos hinherited, ih, if_neg (by simp [hinherited]), if_neg (by simp [hinherited])]
      · rw [if_neg hinherited, SlotMap.get_set, ih]
        by_cases hmem : k ∈ wallets
        · simp [hmem, hinherited]
        · simp [hmem, hinherited, List.count_eq_zero_of_not_mem hmem]
    · have hsame : (workerShares (wallets)).get k =
          if k ∈ wallets ++ [wallet] ∧ k ∉ inheritedNames then some ((wallets ++ [wallet]).count k)
          else none := by
        rw [ih]
        simp [hk, Ne.symm hk]
      by_cases hinherited : wallet ∈ inheritedNames
      · rw [if_pos hinherited, hsame]
      · rw [if_neg hinherited, SlotMap.get_set, if_neg hk, hsame]

def Rewarded (M : Money A) (balance : A) (wallets : List Text) (k : Text) : Prop :=
  k ∈ wallets ∧ k ∉ inheritedNames ∧ M.payable (M.reward balance (wallets.count k) wallets.length)

theorem has_assignRewards (totalShares : ℕ) (entries : List (Text × ℕ)) (tally : Tally A) :
    (entries.foldl (assignReward M balance totalShares) tally).payouts.has k = true ↔
      tally.payouts.has k = true ∨
        ∃ count, (k, count) ∈ entries ∧ M.payable (M.reward balance count totalShares) := by
  induction entries generalizing tally with
  | nil => simp
  | cons entry entries ih =>
    obtain ⟨wallet, count⟩ := entry
    have hcons : (∃ c, (k, c) ∈ (wallet, count) :: entries ∧
        M.payable (M.reward balance c totalShares)) ↔
          k = wallet ∧ M.payable (M.reward balance count totalShares) ∨
            ∃ c, (k, c) ∈ entries ∧ M.payable (M.reward balance c totalShares) := by
      simp only [List.mem_cons, Prod.mk.injEq, or_and_right, exists_or, and_assoc, exists_and_left,
        exists_eq_left]
    rw [List.foldl_cons, ih, assignReward, hcons]
    by_cases hpay : M.payable (M.reward balance count totalShares)
    · rw [if_pos hpay, SlotMap.has_set, and_iff_left hpay, or_assoc, or_left_comm]
    · have hnone : ¬ (k = wallet ∧ M.payable (M.reward balance count totalShares) = true) :=
        fun h => hpay h.2
      rw [if_neg hpay, or_iff_right hnone]

theorem has_minerPayouts :
    (minerPayouts M balance wallets).payouts.has k = true ↔ Rewarded M balance wallets k := by
  rw [minerPayouts, has_assignRewards]
  simp only [mem_objectEntries, get_workerShares, Rewarded, SlotMap.has, SlotMap.get_empty]
  constructor
  · rintro (h | ⟨count, hcount, hpay⟩)
    · cases h
    · split at hcount
      · rename_i hk
        cases hcount
        exact ⟨hk.1, hk.2, hpay⟩
      · cases hcount
  · rintro ⟨hmem, hown, hpay⟩
    exact .inr ⟨_, if_pos ⟨hmem, hown⟩, hpay⟩

def Remainder (M : Money A) (balance : A) (feeWallet : Text) (wallets : List Text) : Prop :=
  M.positive (M.finalFee balance (minerPayouts M balance wallets).totalAssigned) ∧ feeWallet ≠ []

variable {payouts : SlotMap Text A} {keys : List Text}

theorem has_payFee (h : payFee M balance feeWallet (minerPayouts M balance wallets) = .ok payouts) :
    payouts.has k = true ↔
      Rewarded M balance wallets k ∨ k = feeWallet ∧ Remainder M balance feeWallet wallets := by
  unfold payFee at h
  dsimp only at h
  rw [← has_minerPayouts]
  split at h
  · rename_i hleft
    split at h
    · cases h
    · split at h <;> obtain rfl := Except.ok.inj h <;> rw [SlotMap.has_set, or_comm] <;>
        exact or_congr_right (and_iff_left hleft).symm
  · rename_i hleft
    cases h
    exact (or_iff_left fun hk => hleft hk.2).symm

theorem has_reassign {address : Text} (haddress : payouts.has address = true) :
    (reassign M feeWallet payouts address).has k = true ↔
      k ≠ address ∧ payouts.has k = true ∨
        k = feeWallet ∧ feeWallet ≠ [] ∧ feeWallet ∉ inheritedNames := by
  obtain ⟨reward, hreward⟩ := Option.isSome_iff_exists.mp haddress
  rw [reassign, hreward]
  split_ifs with hfee
  · rw [SlotMap.has_delete]
    refine (or_iff_left fun h => ?_).symm
    exact hfee.elim h.2.1 h.2.2
  · rw [not_or] at hfee
    rw [SlotMap.has_set, SlotMap.has_delete, or_comm]
    exact or_congr_right (and_iff_left hfee).symm

theorem has_checkAddresses (hnodup : keys.Nodup) (hkeys : ∀ a ∈ keys, payouts.has a = true) :
    (keys.foldl (checkAddress M feeWallet invalid) payouts).has k = true ↔
      payouts.has k = true ∧ ¬(k ∈ keys ∧ k ≠ feeWallet ∧ invalid k) ∨
        k = feeWallet ∧ (feeWallet ≠ [] ∧ feeWallet ∉ inheritedNames) ∧
          ∃ a ∈ keys, a ≠ feeWallet ∧ invalid a := by
  induction keys generalizing payouts with
  | nil => simp
  | cons address keys ih =>
    obtain ⟨hnotMem, hnodup⟩ := List.nodup_cons.mp hnodup
    have haddress := hkeys address List.mem_cons_self
    have hrest : ∀ a ∈ keys, payouts.has a = true := fun a ha => hkeys a (List.mem_cons_of_mem _ ha)
    rw [List.foldl_cons, checkAddress]
    by_cases hcheck : address ≠ feeWallet ∧ invalid address = true
    · have hrest' : ∀ a ∈ keys, (reassign M feeWallet payouts address).has a = true := by
        intro a ha
        exact (has_reassign haddress).mpr (.inl ⟨fun h => hnotMem (h ▸ ha), hrest a ha⟩)
      rw [if_pos hcheck, ih hnodup hrest', has_reassign haddress]
      by_cases hk : k = feeWallet
      · subst hk
        tauto
      · by_cases hka : k = address
        · subst hka
          simp [hk, hcheck]
        · simp [hk, hka]
    · have htaken : (k ∈ address :: keys ∧ k ≠ feeWallet ∧ invalid k = true) ↔
          (k ∈ keys ∧ k ≠ feeWallet ∧ invalid k = true) := by
        refine and_congr_left fun hk => List.mem_cons.trans (or_iff_right ?_)
        rintro rfl
        exact hcheck hk
      have hgiven : (∃ a ∈ address :: keys, a ≠ feeWallet ∧ invalid a = true) ↔
          ∃ a ∈ keys, a ≠ feeWallet ∧ invalid a = true := by
        rw [List.exists_mem_cons_iff]
        exact or_iff_right hcheck
      rw [if_neg hcheck, ih hnodup hrest, htaken, hgiven]

/-- The texts that receive a part of the balance: the rewarded wallets that the node did not call
invalid, and the fee wallet if anything goes to it. -/
def Recipient (M : Money A) (balance : A) (feeWallet : Text) (wallets : List Text)
    (invalid : Text → Bool) (k : Text) : Prop :=
  k ≠ feeWallet ∧ Rewarded M balance wallets k ∧ ¬invalid k ∨
    k = feeWallet ∧ (Rewarded M balance wallets k ∨ Remainder M balance feeWallet wallets ∨
      (feeWallet ≠ [] ∧ feeWallet ∉ inheritedNames) ∧
        ∃ a, a ≠ feeWallet ∧ Rewarded M balance wallets a ∧ invalid a)

theorem Recipient.mem_of_noFee (h : Recipient M balance [] wallets invalid k) : k ∈ wallets := by
  rcases h with ⟨-, h, -⟩ | ⟨-, h | h | h⟩
  · exact h.1
  · exact h.1
  · exact absurd rfl h.2
  · exact absurd rfl h.1.1

theorem mem_payoutsFor (h : payoutsFor M balance feeWallet wallets invalid = .ok payouts) :
    k ∈ objectKeys payouts ↔ Recipient M balance feeWallet wallets invalid k := by
  obtain ⟨first, hfirst, hlast⟩ := FallibleRun.bind_eq_ok_iff.mp h
  cases hlast
  rw [mem_objectKeys, has_checkAddresses nodup_objectKeys fun a ha => mem_objectKeys.mp ha]
  simp only [mem_objectKeys, has_payFee hfirst, Recipient]
  by_cases hk : k = feeWallet
  · tauto
  · tauto

def DistinctDestinations (R : AddressRules) (keys : List Text) : Prop :=
  keys.Pairwise fun a b => ¬SameDestination R mainAddressParams a b

instance (R : AddressRules) (keys : List Text) : Decidable (DistinctDestinations R keys) :=
  inferInstanceAs (Decidable (keys.Pairwise _))

/-- Each destination has one spelling among the texts of a kind. -/
def OneSpelling (R : AddressRules) (P : Text → Prop) : Prop :=
  ∀ a b, P a → P b → SameDestination R mainAddressParams a b → a = b

theorem distinctDestinations_iff {R : AddressRules} (hnodup : keys.Nodup) :
    DistinctDestinations R keys ↔ OneSpelling R (· ∈ keys) := by
  constructor
  · intro h a b ha hb hsame
    by_contra hne
    have : Std.Symm fun a b => ¬SameDestination R mainAddressParams a b :=
      ⟨fun _ _ hab hba => hab hba.symm⟩
    exact List.Pairwise.forall h ha hb hne hsame
  · intro h
    exact hnodup.imp_of_mem fun ha hb hne hsame => hne (h _ _ ha hb hsame)

/-- The recipients of a payout have pairwise different destinations exactly when no two of them
spell one destination in different ways; then `sendmany` is not refused for a repeated address. -/
theorem payouts_distinct_iff (R : AddressRules) (rt : Runtime) (M : Money A) (balance : A)
    (feeWallet : Text) (shares : List Key) (outcome : ℕ → Option Text) (invalid : Text → Bool)
    (payouts : SlotMap Text A)
    (h : payoutsFor M balance feeWallet (resolvedWallets rt shares outcome) invalid = .ok payouts) :
    let spelledOnce := OneSpelling R
      (Recipient M balance feeWallet (resolvedWallets rt shares outcome) invalid)
    (DistinctDestinations R (objectKeys payouts) ↔ spelledOnce) ∧
      (spelledOnce → ∀ (json : A → UniValue) (name : Text),
        parseOutputs R mainAddressParams ((objectEntries payouts).map fun p => (p.1, json p.2)) ≠
          .error (.duplicatedAddress name)) := by
  have hiff : DistinctDestinations R (objectKeys payouts) ↔ OneSpelling R
      (Recipient M balance feeWallet (resolvedWallets rt shares outcome) invalid) := by
    rw [distinctDestinations_iff nodup_objectKeys]
    simp only [mem_payoutsFor h]
  refine ⟨hiff, fun hone json name => parseOutputs_ne_duplicated ?_ name⟩
  have hkeys := hiff.mpr hone
  rw [← map_fst_objectEntries, DistinctDestinations, List.pairwise_map] at hkeys
  exact List.pairwise_map.mpr hkeys

end Recipients

section Sample

/-- Amounts counted exactly in the base unit, with a fee of one percent. -/
def exactMoney : Money ℤ where
  tooLow balance := decide (balance < 49000 * 100000000)
  reward balance count total := (balance - 10000000) * 99 * count / (100 * total)
  payable reward := decide (100000000 ≤ reward)
  zero := 0
  add := (· + ·)
  finalFee balance assigned := balance - 10000000 - assigned
  positive fee := decide (0 < fee)
  truthy amount := decide (amount ≠ 0)
  addFixed := (· + ·)
  funded balance := decide (1000 * 100000000 ≤ balance)
  eligible lifetime blocks := decide (20000 * 100000000 ≤ lifetime + 49500 * 100000000 * blocks)

def minerName (s : String) : Key := .str s.toList

def samplePayouts (shares : List Key) : Except JsError (SlotMap Text ℤ) :=
  payoutsFor exactMoney 5000000000000 [] (resolvedWallets .constant shares fun _ => none)
    fun _ => false

def oneWallet : List Key :=
  [minerName "tar1qqqqqqqqqqqqqqqqqqqqqqqqqqqqqqqqqck3y2w.rig1",
    minerName "tar1qqqqqqqqqqqqqqqqqqqqqqqqqqqqqqqqqck3y2w.rig2"]

theorem payouts_distinct_oneWallet : ∃ payouts ∈ (samplePayouts oneWallet).toOption,
    DistinctDestinations zeroHashRules (objectKeys payouts) := by
  have hok : (samplePayouts oneWallet).toOption.isSome = true := by decide +kernel
  cases h : samplePayouts oneWallet with
  | error e =>
    rw [h] at hok
    cases hok
  | ok payouts =>
    refine ⟨payouts, rfl, (payouts_distinct_iff zeroHashRules .constant exactMoney 5000000000000 []
      oneWallet (fun _ => none) (fun _ => false) payouts h).1.mpr fun a b ha hb _ => ?_⟩
    have hwallets : ∀ k ∈ resolvedWallets .constant oneWallet fun _ => none,
        k = "tar1qqqqqqqqqqqqqqqqqqqqqqqqqqqqqqqqqck3y2w".toList := by decide +kernel
    rw [hwallets a ha.mem_of_noFee, hwallets b hb.mem_of_noFee]

def twoSpellings : List Key :=
  [minerName "tar1qqqqqqqqqqqqqqqqqqqqqqqqqqqqqqqqqck3y2w.rig1",
    minerName "TAR1QQQQQQQQQQQQQQQQQQQQQQQQQQQQQQQQQCK3Y2W.rig2"]

theorem payouts_repeat_destination : ∃ payouts ∈ (samplePayouts twoSpellings).toOption,
    ¬DistinctDestinations zeroHashRules (objectKeys payouts) ∧
      parseOutputs zeroHashRules mainAddressParams
          ((objectEntries payouts).map fun p => (p.1, valueFromAmount p.2)) =
        .error (.duplicatedAddress "TAR1QQQQQQQQQQQQQQQQQQQQQQQQQQQQQQQQQCK3Y2W".toList) := by
  decide +kernel

end Sample

end Tarcoin.Pool
