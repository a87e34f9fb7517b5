import Tarcoin.Pool.Payouts

/-! What a run hands to `sendmany` is the payouts object of the shares it read, whatever happens
while it waits. -/
namespace Tarcoin.Pool
open Async

/-- All the wallets that an answer brings are of one kind. -/
def PayoutAnswer.Brings {A : Type} (rt : Runtime) (Known : Text → Prop) : PayoutAnswer A → Prop
  | .shares workers => ∀ worker ∈ workers, Known (parseMinerWorker rt worker).wallet
  | .soloBlocks blocks => ∀ block, some block ∈ blocks → Known (block.rawWallet rt)
  | .pool (.resolved data) => ∀ address, targetAddress data = some address → Known address
  | _ => True

/-- What the engine needs of its surroundings until it calls `sendmany`: `F` is kept, and so is the
invariant when a name is added to the cache. -/
structure Admits (A : Type) (rt : Runtime) (Known : Text → Prop) (ok : PayoutAnswer A → Prop)
    (I : PayoutWorld → List Output → Prop) (rely G : PayoutWorld → PayoutWorld → Prop)
    (F : PayoutWorld → Prop) : Prop where
  answers : ∀ r, ok r → r.Brings rt Known
  carried : Carried rely G F
  known : ∀ w l, I w l → ∀ entry ∈ w.pool.tnsResolutionCache, Known entry.2.1
  cacheName : ∀ w l domain address expiresAt, I w l → F w → Known address →
    I (w.cacheName domain address expiresAt) l ∧ G w (w.cacheName domain address expiresAt) ∧
      F (w.cacheName domain address expiresAt)

section Walk
variable {A : Type} {rt : Runtime} {Known : Text → Prop} {ok : PayoutAnswer A → Prop}
variable {I : PayoutWorld → List Output → Prop} {rely G : PayoutWorld → PayoutWorld → Prop}
variable {F : PayoutWorld → Prop} {w₀ w : PayoutWorld} {l : List Output}

def ResolvesTo (rt : Runtime) (Known : Text → Prop) (raw name : Text) : Prop :=
  ∃ outcome : Option Text, name = resolvedName rt raw outcome ∧ ∀ a, outcome = some a → Known a

theorem ResolvesTo.self (raw : Text) : ResolvesTo rt Known raw raw := by
  refine ⟨none, ?_, fun a ha => by cases ha⟩
  unfold resolvedName
  dsimp only
  split <;> rfl

theorem ResolvesTo.known {raw name : Text} (h : ResolvesTo rt Known raw name) (hraw : Known raw) :
    Known name := by
  obtain ⟨outcome, rfl, houtcome⟩ := h
  unfold resolvedName
  dsimp only
  split
  · cases outcome with
    | none => exact hraw
    | some a => exact houtcome a rfl
  · exact hraw

/-- `F` is kept, and a value has the property `Q`. -/
abbrev Yields {α : Type} (ok : PayoutAnswer A → Prop) (I : PayoutWorld → List Output → Prop)
    (rely G : PayoutWorld → PayoutWorld → Prop) (F : PayoutWorld → Prop) (t : PayoutM A α)
    (Q : α → Prop) : Prop :=
  From I G F (KeepsBy ok I rely G (Ends I G F fun w a => F w ∧ Q a) t)

variable (hA : Admits A rt Known ok I rely G F)
include hA

theorem payoutCall_ends (c : PayoutCall A) :
    Yields ok I rely G F (payoutCall c) (·.Brings rt Known) := by
  apply From.await hA.carried
  intro r hr
  cases r.failed with
  | some e => exact .throw fun _ hF => hF
  | none => exact .pure fun _ hF => ⟨hF, hA.answers r hr⟩

section Names
variable {raw domain : Text} {now : ℕ}

theorem fetch_ends (hdomain : ∀ a, Known a → ResolvesTo rt Known raw a) :
    Yields ok I rely G F ((resolveTnsToAddress.fetch raw domain now).embed (payoutHost A))
      (ResolvesTo rt Known raw) := by
  intro w₀ w l hI hG hF
  refine ⟨⟨hI, hG⟩, fun r w l hr hI hR => ?_⟩
  have hF := hA.carried.stable _ w hR hF
  have hself : Ends I G F (fun w name => F w ∧ ResolvesTo rt Known raw name) w w l
      (.ok raw : Except JsError Text) := ⟨hI, hA.carried.refl w hF, hF, .self raw⟩
  have hbrings := hA.answers r hr
  cases r with
  | pool answer =>
    cases answer with
    | resolved data =>
      simp only [payoutHost, andThen]
      cases haddress : targetAddress data with
      | none => exact hself
      | some address =>
        obtain ⟨hI', hG', hF'⟩ := hA.cacheName w l domain address (now + 300000) hI hF
          (hbrings address haddress)
        exact ⟨hI', hG', hF', hdomain _ (hbrings address haddress)⟩
    | _ => exact hself
  | _ => exact hself

omit hA in
theorem ResolvesTo.found (hne : raw ≠ [])
    (hdomain : ¬(!endsWith (trim (rt.toLowerCase raw)) ".tar".toList ||
      !isTarDomain (trim (rt.toLowerCase raw))) = true) {address : Text} (haddress : Known address) :
    ResolvesTo rt Known raw address := by
  refine ⟨some address, ?_, fun a ha => by cases ha; exact haddress⟩
  simp only [Bool.or_eq_true, Bool.not_eq_true', not_or, Bool.not_eq_false] at hdomain
  exact (if_pos ⟨hne, hdomain⟩).symm

theorem resolveTns_ends :
    Yields ok I rely G F ((resolveTnsToAddress rt raw).embed (payoutHost A))
      (ResolvesTo rt Known raw) := by
  intro w₀ w l hI hG hF
  unfold resolveTnsToAddress
  split
  · rename_i hraw
    exact ⟨hI, hG, hF, hraw ▸ .self _⟩
  · rename_i hne
    dsimp only
    split
    · exact ⟨hI, hG, hF, .self raw⟩
    · rename_i hdomain
      have hget : (payoutHost A).get w = w.pool := rfl
      change KeepsBy _ _ _ _ _ (Async.read _) w₀ w l
      simp only [KeepsBy, andThen, hget]
      have hfound : ∀ a, Known a → ResolvesTo rt Known raw a := fun a ha => .found hne hdomain ha
      cases hcached : w.pool.tnsResolutionCache.lookup (trim (rt.toLowerCase raw)) with
      | none => exact fetch_ends hA hfound hI hG hF
      | some entry =>
        dsimp only
        split
        · refine ⟨hI, hG, hF, hfound _ ?_⟩
          obtain ⟨before, after, hsplit, _⟩ := List.lookup_eq_some_iff.mp hcached
          exact hA.known w l hI _ (hsplit ▸ List.mem_append_right _ List.mem_cons_self)
        · exact fetch_ends hA hfound hI hG hF

theorem resolveName_ends :
    Yields ok I rely G F (resolveName rt raw : PayoutM A Text) (ResolvesTo rt Known raw) := by
  intro w₀ w l hI hG hF
  rw [resolveName, awaited, settle, embed_andThen]
  apply (keepsBy_andThen _ _ _ _ _).mpr
  apply (resolveTns_ends hA hI hG hF).mono
  intro w₀ w l x hx
  cases x with
  | ok name =>
    obtain ⟨hI, hG, hF, hname⟩ := hx
    exact From.await hA.carried (fun _ _ => .pure fun _ hF => ⟨hF, hname⟩) hI hG hF
  | error e =>
    obtain ⟨hI, hG, hF⟩ := hx
    exact From.await hA.carried (fun _ _ => .throw fun _ hF => hF) hI hG hF

end Names

def Collected (rt : Runtime) (Known : Text → Prop) (shares : List Key) (wallets : List Text) : Prop :=
  (∃ outcome, wallets = resolvedWallets rt shares outcome) ∧ ∀ k ∈ wallets, Known k

variable {shares : List Key} {keys : List Text} {payouts : SlotMap Text A} {k : Text}

omit hA in
theorem Collected.cons {worker : Key} {wallet : Text} {wallets : List Text}
    (hwallet : ResolvesTo rt Known (parseMinerWorker rt worker).wallet wallet)
    (hworker : Known (parseMinerWorker rt worker).wallet) (h : Collected rt Known shares wallets) :
    Collected rt Known (worker :: shares) (wallet :: wallets) := by
  have hknown := hwallet.known hworker
  obtain ⟨first, rfl, _⟩ := hwallet
  obtain ⟨⟨outcome, rfl⟩, hall⟩ := h
  refine ⟨⟨fun i => i.casesOn first outcome, ?_⟩, List.forall_mem_cons.mpr ⟨hknown, hall⟩⟩
  rw [resolvedWallets, resolvedWallets, List.mapIdx_cons]
  rfl

theorem collectWallets_ends
    (hshares : ∀ worker ∈ shares, Known (parseMinerWorker rt worker).wallet) :
    Yields ok I rely G F (collectWallets rt shares : PayoutM A (List Text))
      (Collected rt Known shares) := by
  induction shares with
  | nil => exact .pure fun _ hF => ⟨hF, ⟨fun _ => none, rfl⟩, by simp⟩
  | cons worker shares ih =>
    obtain ⟨hworker, hshares⟩ := List.forall_mem_cons.mp hshares
    apply From.seq (resolveName_ends hA)
    refine fun wallet => .given fun hwallet => ?_
    apply From.seq (ih hshares)
    refine fun wallets => .given fun hwallets => ?_
    exact .pure fun _ hF => ⟨hF, hwallets.cons hwallet hworker⟩

theorem await_ends {α : Type} (c : PayoutCall A) {k : PayoutAnswer A → PayoutM A α}
    (hk : ∀ r, ∃ a, k r = .pure a) : Yields ok I rely G F (.await c k) fun _ => True := by
  apply From.await hA.carried
  intro r _
  obtain ⟨a, ha⟩ := hk r
  rw [ha]
  exact .pure fun _ hF => ⟨hF, trivial⟩

variable {M : Money A} {feeWallet : Text}

omit hA in
theorem foldl_checkAddress_update {invalid : Text → Bool} {address : Text} (b : Bool)
    (h : address ∉ keys) (payouts : SlotMap Text A) :
    keys.foldl (checkAddress M feeWallet (Function.update invalid address b)) payouts =
      keys.foldl (checkAddress M feeWallet invalid) payouts := by
  apply List.foldl_ext
  intro payouts' a ha
  have hne : a ≠ address := fun heq => h (heq ▸ ha)
  rw [checkAddress, checkAddress, Function.update_of_ne hne]

theorem validateAddresses_ends (hnodup : keys.Nodup) (payouts : SlotMap Text A) :
    Yields ok I rely G F (validateAddresses M feeWallet keys payouts) fun result =>
      ∃ invalid, result = keys.foldl (checkAddress M feeWallet invalid) payouts := by
  induction keys generalizing payouts with
  | nil => exact .pure fun _ hF => ⟨hF, fun _ => false, rfl⟩
  | cons address keys ih =>
    obtain ⟨hnotMem, hnodup⟩ := List.nodup_cons.mp hnodup
    rw [validateAddresses]
    split
    · rename_i hfee
      apply (ih hnodup payouts).weaken fun _ hF => hF
      rintro w result ⟨hF, invalid, rfl⟩
      refine ⟨hF, invalid, ?_⟩
      rw [List.foldl_cons, checkAddress, if_neg fun h => h.1 hfee]
    · rename_i hfee
      apply From.seq (await_ends hA _ fun r => by cases r <;> exact ⟨_, rfl⟩)
      refine fun isInvalid => .given fun _ => ?_
      apply (ih hnodup _).weaken fun _ hF => hF
      rintro w result ⟨hF, invalid, rfl⟩
      refine ⟨hF, Function.update invalid address isInvalid, ?_⟩
      rw [List.foldl_cons, foldl_checkAddress_update isInvalid hnotMem, checkAddress]
      simp [hfee]

theorem fetchShares_ends :
    Yields ok I rely G F (fetchShares : PayoutM A (List Key)) fun shares =>
      ∀ worker ∈ shares, Known (parseMinerWorker rt worker).wallet := by
  apply From.seq (payoutCall_ends hA _)
  intro r
  cases r with
  | shares workers => exact .pure fun _ h => h
  | _ => exact .throw fun _ h => h.1

def PaysShares (M : Money A) (rt : Runtime) (Known : Text → Prop) (feeWallet : Text)
    (payouts : SlotMap Text A) : Prop :=
  ∃ balance shares outcome invalid,
    payoutsFor M balance feeWallet (resolvedWallets rt shares outcome) invalid = .ok payouts ∧
      ∀ k ∈ resolvedWallets rt shares outcome, Known k

theorem payoutsToSend_ends :
    Yields ok I rely G F (payoutsToSend M rt) fun sent =>
      ∀ p, sent = some p → PaysShares M rt Known p.1 p.2 := by
  have hnone : ∀ w, F w → F w ∧ ∀ p : Text × SlotMap Text A, none = some p →
      PaysShares M rt Known p.1 p.2 := fun w hF => ⟨hF, fun p hp => by cases hp⟩
  apply From.seq (await_ends hA _ fun r => by cases r <;> exact ⟨_, rfl⟩)
  refine fun balance => .given fun _ => ?_
  cases balance with
  | none => exact .pure hnone
  | some balance =>
    dsimp only
    split
    · exact .pure hnone
    · apply From.seq (fetchShares_ends hA)
      refine fun shares => .given fun hshares => ?_
      split
      · exact .pure hnone
      · apply From.seq (collectWallets_ends hA hshares)
        refine fun wallets => .given ?_
        rintro ⟨⟨outcome, rfl⟩, hknown⟩ w₀ w l hI hG hF
        change KeepsBy _ _ _ _ _ (Async.ofExcept (payFee M balance w.pool.feeWallet _) >>= _) w₀ w l
        cases hfee : payFee M balance w.pool.feeWallet
            (minerPayouts M balance (resolvedWallets rt shares outcome)) with
        | error e => exact ⟨hI, hG, hF⟩
        | ok first =>
          change KeepsBy _ _ _ _ _ (if objectKeys first = [] then _ else _) w₀ w l
          split
          · exact ⟨hI, hG, hnone w hF⟩
          · refine From.seq (validateAddresses_ends hA nodup_objectKeys first) ?_ hI hG hF
            refine fun payouts => .given ?_
            rintro ⟨invalid, rfl⟩
            refine .pure fun _ hF => ⟨hF, fun p hp => ?_⟩
            cases hp
            refine ⟨balance, shares, outcome, invalid, ?_, hknown⟩
            rw [payoutsFor, hfee]
            rfl

theorem recoverPayout_ends (sendErr : JsError) :
    Yields ok I rely G F (recoverPayout sendErr : PayoutM A Unit) fun _ => True := by
  have hgiveUp : Yields ok I rely G F
      (payoutCall .delPending >>= fun _ => Async.throw sendErr : PayoutM A Unit) fun _ => True :=
    From.seq (payoutCall_ends hA _) fun _ => .throw fun _ h => h.1
  refine From.catching (E := F) ?_ fun _ => hgiveUp
  apply From.seq (payoutCall_ends hA _)
  refine fun r => .given fun _ => ?_
  split
  · exact .pure fun _ hF => ⟨hF, trivial⟩
  · exact hgiveUp

theorem sendPayouts_ends (payouts : SlotMap Text A) :
    Yields ok I rely G F (sendPayouts payouts) fun _ => True := by
  have hcall : ∀ c {k : PayoutAnswer A → PayoutM A Unit},
      (∀ r, Yields ok I rely G F (k r) fun _ => True) →
        Yields ok I rely G F (payoutCall c >>= k) fun _ => True :=
    fun c _ hk => From.seq (payoutCall_ends hA c) fun r => .given fun _ => hk r
  have hdone : Yields ok I rely G F (Async.pure () : PayoutM A Unit) fun _ => True :=
    .pure fun _ hF => ⟨hF, trivial⟩
  apply hcall
  intro _
  refine From.seq (From.catching (E := F) (hcall _ fun _ => hdone) (recoverPayout_ends hA)) ?_
  refine fun _ => .given fun _ => ?_
  apply hcall
  intro _
  apply hcall
  intro _
  exact hcall _ fun _ => hdone

theorem soloRewards_ends {blocks : List (Option SoloBlock)}
    (hblocks : ∀ block, some block ∈ blocks → Known (block.rawWallet rt)) {rewards : SlotMap Text ℕ}
    (hrewards : ∀ k, rewards.has k = true → Known k) :
    Yields ok I rely G F (soloRewards rt blocks rewards : PayoutM A (SlotMap Text ℕ)) fun solo =>
      ∀ k, solo.has k = true → Known k := by
  induction blocks generalizing rewards with
  | nil => exact .pure fun _ hF => ⟨hF, hrewards⟩
  | cons block blocks ih =>
    have hblocks' : ∀ block, some block ∈ blocks → Known (block.rawWallet rt) :=
      fun block hmem => hblocks block (List.mem_cons_of_mem _ hmem)
    cases block with
    | none => exact ih hblocks' hrewards
    | some block =>
      apply From.seq (resolveName_ends hA)
      refine fun wallet => .given fun hwallet => ?_
      apply ih hblocks'
      intro k hk
      split at hk
      · exact hrewards k hk
      · rcases SlotMap.has_set.mp hk with rfl | hk
        · exact hwallet.known (hblocks block List.mem_cons_self)
        · exact hrewards k hk

omit hA

theorem mem_allRewards {solo : SlotMap Text ℕ} :
    k ∈ allRewards payouts solo ↔ payouts.has k = true ∨ solo.has k = true := by
  have hadd : ∀ (keys : List Text) (m : SlotMap Text Unit),
      (keys.foldl (fun m k => m.set k ()) m).has k = true ↔ m.has k = true ∨ k ∈ keys := by
    intro keys
    induction keys with
    | nil => simp
    | cons key keys ih =>
      intro m
      rw [List.foldl_cons, ih, SlotMap.has_set, List.mem_cons]
      tauto
  rw [allRewards, mem_objectKeys, hadd, List.mem_append, mem_objectKeys, mem_objectKeys]
  exact or_iff_right (by simp [SlotMap.has])

theorem PaysShares.known (h : PaysShares M rt Known feeWallet payouts) (hk : payouts.has k = true)
    (hne : k ≠ feeWallet) : Known k := by
  obtain ⟨balance, shares, outcome, invalid, hpayouts, hknown⟩ := h
  rcases (mem_payoutsFor hpayouts).mp (mem_objectKeys.mpr hk) with ⟨-, hrewarded, -⟩ | ⟨heq, -⟩
  · exact hknown k hrewarded.1
  · exact absurd heq hne

end Walk

end Tarcoin.Pool
