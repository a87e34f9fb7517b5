import Tarcoin.KeyIO.AddressRoundTrip
import Tarcoin.Pool.Faucet

/-! A destination is paid once in the lifetime of its key when its requests do not overlap and
spell it in one way. Each request relies on the others to leave alone its own entry and key. -/
namespace Tarcoin.Pool
open Async

section
variable (R : AddressRules)

/-- Of two payments to one destination the later comes after the key of the earlier expired. -/
def PaidOnce (payments : List Payment) : Prop :=
  payments.Pairwise fun p q => SameDestination R mainAddressParams p.address q.address →
    p.marked + keyLifetime ≤ q.time

instance (payments : List Payment) : Decidable (PaidOnce R payments) :=
  inferInstanceAs (Decidable (payments.Pairwise _))

/-- A request comes in when no other one for its destination is being served, and spells it as the
payments before did. -/
def SeparateClaims (w : FaucetWorld) (_ : List (ℕ × FaucetReply)) : FaucetInput → Prop
  | .post post => ∀ a ∈ post.address?,
    (∀ q ∈ w.requests, ¬SameDestination R mainAddressParams a q.2) ∧
      ∀ p ∈ w.issued, SameDestination R mainAddressParams a p.address → p.address = a
  | .tick _ => True

instance (w : FaucetWorld) (l : List (ℕ × FaucetReply)) :
    ∀ input, Decidable (SeparateClaims R w l input)
  | .post post => inferInstanceAs (Decidable (∀ a ∈ post.address?, _ ∧ _))
  | .tick _ => isTrue trivial

/-- What `start` leaves before the server listens. -/
structure FaucetWorld.Started (w : FaucetWorld) : Prop where
  redis : w.redis = true
  inputs : w.inputs = 0
  requests : w.requests = []
  issued : w.issued = []

structure Guarded (w : FaucetWorld) (_ : List (ℕ × FaucetReply)) : Prop where
  redis : w.redis = true
  numbered : ∀ q ∈ w.requests, q.1 < w.inputs
  apart : ∀ q ∈ w.requests, ∀ q' ∈ w.requests,
    SameDestination R mainAddressParams q.2 q'.2 → q = q'
  spelled : ∀ q ∈ w.requests, ∀ p ∈ w.issued,
    SameDestination R mainAddressParams q.2 p.address → p.address = q.2
  locked : ∀ p ∈ w.issued, (destinationOf R mainAddressParams p.address).isSome →
    p.marked + keyLifetime ≤ w.now ∨ w.expiry (.address p.address) = p.marked + keyLifetime
  once : PaidOnce R w.issued

/-- What request `n` relies on while it waits. -/
structure Unhindered (n : ℕ) (w w' : FaucetWorld) : Prop where
  now : w.now ≤ w'.now
  inputs : w.inputs ≤ w'.inputs
  mine : ∀ a, (n, a) ∈ w.requests → (n, a) ∈ w'.requests
  key : ∀ a, (n, a) ∈ w.requests → (destinationOf R mainAddressParams a).isSome →
    w'.expiry (.address a) = w.expiry (.address a)
  payments : ∀ a, (n, a) ∈ w.requests → ∀ p ∈ w'.issued,
    SameDestination R mainAddressParams a p.address → p ∈ w.issued

/-- What a turn of request `n` does to the others. -/
structure Turn (n : ℕ) (w w' : FaucetWorld) : Prop where
  others : ∀ m, m ≠ n → Unhindered R m w w'
  inputs : w'.inputs = max w.inputs (n + 1)

end

variable {R : AddressRules} {n : ℕ} {a : Text} {w w' w'' : FaucetWorld}
variable {l : List (ℕ × FaucetReply)}

theorem Unhindered.refl (n : ℕ) (w : FaucetWorld) : Unhindered R n w w :=
  ⟨le_rfl, le_rfl, fun _ h => h, fun _ _ _ => rfl, fun _ _ _ hp _ => hp⟩

theorem Unhindered.trans (h : Unhindered R n w w') (h' : Unhindered R n w' w'') :
    Unhindered R n w w'' where
  now := h.now.trans h'.now
  inputs := h.inputs.trans h'.inputs
  mine a ha := h'.mine a (h.mine a ha)
  key a ha hd := (h'.key a (h.mine a ha) hd).trans (h.key a ha hd)
  payments a ha p hp hsame := h.payments a ha p (h'.payments a (h.mine a ha) p hp hsame) hsame

theorem Turn.refl (h : n < w.inputs) : Turn R n w w :=
  ⟨fun m _ => .refl m w, by omega⟩

theorem Turn.numbered (h : Turn R n w w') : n < w'.inputs := by
  rw [h.inputs]
  omega

theorem Turn.trans (h : Turn R n w w') (h' : Turn R n w' w'') : Turn R n w w'' :=
  ⟨fun m hm => (h.others m hm).trans (h'.others m hm), by rw [h'.inputs, h.inputs]; omega⟩

theorem turn_fits : FitTogether (Unhindered R) (Turn R) FaucetWorld.inputs where
  refl := Unhindered.refl
  trans _ _ _ _ h h' := h.trans h'
  grants _ _ _ _ hne h := h.others _ hne.symm
  first n w w' h hw := by rw [h.inputs, hw]; omega
  later n w w' h hw := by rw [h.inputs]; omega

/-- Request `n` for the address `a` is being served. -/
structure Claiming (n : ℕ) (a : Text) (w : FaucetWorld) : Prop where
  numbered : n < w.inputs
  mine : (n, a) ∈ w.requests

/-- The keys of all payments to the destination of `a` have expired. -/
structure Cleared (R : AddressRules) (n : ℕ) (a : Text) (w : FaucetWorld) : Prop extends
    Claiming n a w where
  expired : ∀ p ∈ w.issued, SameDestination R mainAddressParams a p.address →
    p.marked + keyLifetime ≤ w.now

structure Marked (R : AddressRules) (n : ℕ) (a : Text) (w : FaucetWorld) (marked : ℕ) : Prop extends
    Cleared R n a w where
  key : (destinationOf R mainAddressParams a).isSome →
    w.expiry (.address a) = marked + keyLifetime

theorem Claiming.stable (h : Unhindered R n w w') (hw : Claiming n a w) : Claiming n a w' :=
  ⟨hw.numbered.trans_le h.inputs, h.mine a hw.mine⟩

theorem Cleared.stable (h : Unhindered R n w w') (hw : Cleared R n a w) : Cleared R n a w' :=
  ⟨hw.toClaiming.stable h, fun p hp hsame =>
    (hw.expired p (h.payments a hw.mine p hp hsame) hsame).trans h.now⟩

theorem Marked.stable {marked : ℕ} (h : Unhindered R n w w') (hw : Marked R n a w marked) :
    Marked R n a w' marked :=
  ⟨hw.toCleared.stable h, fun hd => (h.key a hw.mine hd).trans (hw.key hd)⟩

theorem Claiming.turn (hw : Claiming n a w) : Turn R n w w := .refl hw.numbered

theorem Guarded.cleared (hI : Guarded R w l) (hw : Claiming n a w)
    (hgone : w.expiry (.address a) ≤ w.now) : Cleared R n a w := by
  refine ⟨hw, fun p hp hsame => ?_⟩
  obtain rfl := hI.spelled _ hw.mine p hp hsame
  rcases hI.locked p hp hsame.1 with hlock | hlock
  · exact hlock
  · exact hlock ▸ hgone

section Steps
variable {key : FaucetKey}

/-- A request sets the key of an address only when it has been looked up. -/
def MaySet (R : AddressRules) (n : ℕ) (key : FaucetKey) (w : FaucetWorld) : Prop :=
  ∀ a, key = .address a → Cleared R n a w

variable (hI : Guarded R w l)
include hI

theorem Guarded.setEx (hkey : MaySet R n key w) : Guarded R (w.setEx key) l where
  redis := hI.redis
  numbered := hI.numbered
  apart := hI.apart
  spelled := hI.spelled
  locked p hp hd := by
    by_cases hpa : key = .address p.address
    · exact .inl ((hkey p.address hpa).expired p hp ⟨hd, rfl⟩)
    · have hother : (w.setEx key).expiry (.address p.address) = w.expiry (.address p.address) :=
        Function.update_of_ne (Ne.symm hpa) _ _
      rw [hother]
      exact hI.locked p hp hd
  once := hI.once

theorem Guarded.turn_setEx (hn : n < w.inputs) (hkey : MaySet R n key w) :
    Turn R n w (w.setEx key) where
  others m hm :=
    { now := le_rfl
      inputs := le_rfl
      mine := fun _ h => h
      key := fun b hb hd => by
        apply Function.update_of_ne
        rintro rfl
        have hsame := hI.apart _ hb _ (hkey b rfl).mine ⟨hd, rfl⟩
        exact hm (congrArg Prod.fst hsame)
      payments := fun _ _ _ hp _ => hp }
  inputs := by
    show w.inputs = _
    omega

theorem Guarded.issue {marked : ℕ} (hw : Marked R n a w marked) :
    Guarded R (w.issue a marked) l where
  redis := hI.redis
  numbered := hI.numbered
  apart := hI.apart
  spelled q hq p hp hsame := by
    rcases List.mem_append.mp hp with hp | hp
    · exact hI.spelled q hq p hp hsame
    · obtain rfl := List.mem_singleton.mp hp
      exact (congrArg Prod.snd (hI.apart q hq _ hw.mine hsame)).symm
  locked p hp hd := by
    rcases List.mem_append.mp hp with hp | hp
    · exact hI.locked p hp hd
    · obtain rfl := List.mem_singleton.mp hp
      exact .inr (hw.key hd)
  once := by
    apply List.pairwise_append.mpr
    refine ⟨hI.once, List.pairwise_singleton _ _, fun p hp q hq hsame => ?_⟩
    obtain rfl := List.mem_singleton.mp hq
    exact hw.expired p hp hsame.symm

theorem Guarded.turn_issue (hw : Claiming n a w) (marked : ℕ) :
    Turn R n w (w.issue a marked) where
  others m hm :=
    { now := le_rfl
      inputs := le_rfl
      mine := fun _ h => h
      key := fun _ _ _ => rfl
      payments := fun b hb p hp hsame => by
        rcases List.mem_append.mp hp with hp | hp
        · exact hp
        · obtain rfl := List.mem_singleton.mp hp
          exact absurd (congrArg Prod.fst (hI.apart _ hb _ hw.mine hsame)) hm }
  inputs := by
    have := hw.numbered
    show w.inputs = _
    omega

end Steps

section Tasks
variable {α : Type}

/-- A part of request `n`, which ends with a fact about its value. -/
abbrev Serves (R : AddressRules) (n : ℕ) (F : FaucetWorld → α → Prop) (t : FaucetM α) :
    FaucetWorld → FaucetWorld → List (ℕ × FaucetReply) → Prop :=
  KeepsBy (fun _ => True) (Guarded R) (Unhindered R n) (Turn R n)
    (Ends (Guarded R) (Turn R n) (fun _ => True) F) t

abbrev ServesFrom (R : AddressRules) (n : ℕ) (P : FaucetWorld → Prop) (F : FaucetWorld → α → Prop)
    (t : FaucetM α) : Prop := From (Guarded R) (Turn R n) P (Serves R n F t)

theorem carried_claiming : Carried (Unhindered R n) (Turn R n) (Claiming n a) :=
  ⟨fun _ _ h hw => hw.stable h, fun _ hw => hw.turn⟩

theorem carried_cleared : Carried (Unhindered R n) (Turn R n) (Cleared R n a) :=
  ⟨fun _ _ h hw => hw.stable h, fun _ hw => hw.turn⟩

variable {F : FaucetWorld → Prop} {post : FaucetPost}

theorem faucetCall_serves (hF : Carried (Unhindered R n) (Turn R n) F) (c : FaucetCall) :
    ServesFrom R n F (fun w _ => F w) (faucetCall c) := by
  apply From.await hF
  intro r _
  cases r.failed with
  | some e => exact .throw fun _ _ => trivial
  | none => exact .pure fun _ hw => hw

theorem asked_serves (hF : Carried (Unhindered R n) (Turn R n) F) (c : FaucetCall)
    {k : FaucetAnswer → FaucetM α} (hk : ∀ r, ∃ a, k r = .pure a) :
    ServesFrom R n F (fun w _ => F w) (faucetCall c >>= k) := by
  apply From.seq (faucetCall_serves hF c)
  intro r
  obtain ⟨a, ha⟩ := hk r
  rw [ha]
  exact .pure fun _ hw => hw

theorem redis_serves {P : FaucetWorld → Prop} {F : FaucetWorld → α → Prop} {c : FaucetCall}
    {f : FaucetWorld → FaucetWorld × α} (hP : Carried (Unhindered R n) (Turn R n) P)
    (hF : ∀ a, Carried (Unhindered R n) (Turn R n) (F · a))
    (hdone : ∀ w l, Guarded R w l → P w →
      Guarded R (f w).1 l ∧ Turn R n w (f w).1 ∧ F (f w).1 (f w).2) :
    ServesFrom R n P F (remote c FaucetAnswer.failed f) :=
  From.remote hP hF (fun _ _ => trivial) (fun _ _ _ => trivial) hdone

theorem redisGet_address_serves :
    ServesFrom R n (Claiming n a) (fun w found => Claiming n a w ∧ (found = false → Cleared R n a w))
      (redisGet (.address a)) := by
  apply redis_serves carried_claiming
  · intro found
    exact ⟨fun w w' h hw => ⟨hw.1.stable h, fun hf => (hw.2 hf).stable h⟩, fun _ hw => hw.1.turn⟩
  · intro w l hI hw
    refine ⟨hI, hw.turn, hw, fun hfound => hI.cleared hw ?_⟩
    exact Nat.le_of_not_lt (of_decide_eq_false hfound)

theorem redisSetEx_ip_serves (ip : Text) :
    ServesFrom R n (Cleared R n a) (fun w _ => Cleared R n a w) (redisSetEx (.ip ip)) := by
  apply redis_serves carried_cleared fun _ => carried_cleared
  intro w l hI hw
  have hmay : MaySet R n (.ip ip) w := fun _ h => by cases h
  exact ⟨hI.setEx hmay, hI.turn_setEx hw.numbered hmay, ⟨hw.numbered, hw.mine⟩, hw.expired⟩

theorem redisSetEx_address_serves :
    ServesFrom R n (Cleared R n a) (Marked R n a) (redisSetEx (.address a)) := by
  apply redis_serves carried_cleared
  · intro marked
    exact ⟨fun _ _ h hw => hw.stable h, fun _ hw => hw.turn⟩
  · intro w l hI hw
    have hmay : MaySet R n (.address a) w := by
      intro b hb
      rwa [← FaucetKey.address.inj hb]
    refine ⟨hI.setEx hmay, hI.turn_setEx hw.numbered hmay, ⟨⟨hw.numbered, hw.mine⟩, hw.expired⟩, ?_⟩
    exact fun _ => Function.update_self _ _ _

theorem checkLimits_serves (ip : Text) :
    ServesFrom R n (Claiming n a)
      (fun w refusal => n < w.inputs ∧ (refusal = none → Cleared R n a w)) (checkLimits ip a) := by
  intro w₀ w l hI
  unfold checkLimits
  show _ → _ → KeepsBy _ _ _ _ _ (if w.redis then _ else _) w₀ w l
  rw [if_pos hI.redis]
  refine From.seq (redis_serves carried_claiming (fun _ => carried_claiming)
    fun _ _ hI hw => ⟨hI, hw.turn, hw⟩) (fun ipCheck => ?_) hI
  cases ipCheck with
  | true => exact .pure fun _ hw => ⟨hw.numbered, fun h => by cases h⟩
  | false =>
    apply From.seq redisGet_address_serves
    intro found
    cases found with
    | true => exact .pure fun _ hw => ⟨hw.1.numbered, fun h => by cases h⟩
    | false => exact .pure fun _ hw => ⟨hw.1.numbered, fun _ => hw.2 rfl⟩

theorem recordLimits_serves (ip : Text) :
    ServesFrom R n (Cleared R n a) (Marked R n a) (recordLimits ip a) := by
  intro w₀ w l hI
  unfold recordLimits
  show _ → _ → KeepsBy _ _ _ _ _ (if w.redis then _ else _) w₀ w l
  rw [if_pos hI.redis]
  exact From.seq (redisSetEx_ip_serves ip) (fun _ => redisSetEx_address_serves) hI

theorem sendTar_serves {marked : ℕ} :
    ServesFrom R n (Marked R n a · marked) (fun w _ => n < w.inputs) (sendTar a marked) := by
  intro w₀ w l hI hG hw
  show KeepsBy _ _ _ _ _ (faucetCall (.sendToAddress a) >>= _) w₀ (w.issue a marked) l
  apply asked_serves ⟨fun _ _ h hw => hw.trans_le h.inputs, fun _ hw => .refl hw⟩
  · intro r
    cases r <;> exact ⟨_, rfl⟩
  · exact hI.issue hw
  · exact hG.trans (hI.turn_issue hw.toClaiming marked)
  · exact hw.numbered

theorem claim_serves (ip : Text) :
    ServesFrom R n (Claiming n a) (fun w _ => n < w.inputs) (claim ip a) := by
  apply From.seq (checkLimits_serves ip)
  intro refusal
  cases refusal with
  | some refusal => exact .pure fun _ hw => hw.1
  | none =>
    refine From.imp (From.seq (asked_serves carried_cleared _ fun r => by cases r <;> exact ⟨_, rfl⟩)
      fun isvalid => ?_) fun _ hw => hw.2 rfl
    cases isvalid with
    | false => exact .pure fun _ hw => hw.numbered
    | true =>
      apply From.seq (asked_serves carried_cleared _ fun r => by cases r <;> exact ⟨_, rfl⟩)
      intro low
      cases low with
      | true => exact .pure fun _ hw => hw.numbered
      | false => exact From.seq (recordLimits_serves ip) fun _ => sendTar_serves

/-- Request `n` is being served, and is entered if it names an address. -/
structure Entered (n : ℕ) (post : FaucetPost) (w : FaucetWorld) : Prop where
  numbered : n < w.inputs
  mine : ∀ a, post.address? = some a → (n, a) ∈ w.requests

theorem carried_entered : Carried (Unhindered R n) (Turn R n) (Entered n post) :=
  ⟨fun _ _ h hw => ⟨hw.numbered.trans_le h.inputs, fun a ha => h.mine a (hw.mine a ha)⟩,
    fun _ hw => .refl hw.numbered⟩

theorem verifyToken_serves (token : JsVal) (ip : Text) :
    ServesFrom R n (Entered n post) (fun w _ => Entered n post w) (verifyToken token ip) := by
  intro w₀ w l hI hG hw
  unfold verifyToken
  show KeepsBy _ _ _ _ _ (if w.turnstileSecret then _ else _) w₀ w l
  split
  · cases toText token with
    | error e => exact ⟨hI, hG, trivial⟩
    | ok response =>
      refine asked_serves carried_entered _ (fun r => ?_) hI hG hw
      cases r <;> exact ⟨_, rfl⟩
  · exact ⟨hI, hG, hw⟩

theorem faucet_serves (post : FaucetPost) :
    ServesFrom R n (Entered n post) (fun w _ => n < w.inputs) (faucet post) := by
  unfold faucet
  dsimp only
  split
  · exact .pure fun _ hw => hw.numbered
  · split
    · exact .pure fun _ hw => hw.numbered
    · apply From.seq (verifyToken_serves _ _)
      intro verified
      cases verified with
      | false => exact .pure fun _ hw => hw.numbered
      | true =>
        rw [if_neg (by simp)]
        split
        · rename_i address haddress
          split
          · exact .pure fun _ hw => hw.numbered
          · refine (claim_serves _).imp fun w hw => ⟨hw.numbered, hw.mine address ?_⟩
            rw [FaucetPost.address?, haddress]
        · exact .throw fun _ _ => trivial

end Tasks

section Inputs
variable {post : FaucetPost}

variable {q : ℕ × Text}

theorem mem_enterRequest : q ∈ (enterRequest post w).requests ↔
    q ∈ w.requests ∨ q.1 = w.inputs ∧ post.address? = some q.2 := by
  obtain ⟨m, b⟩ := q
  cases hb : post.address? with
  | none => simp [enterRequest, hb]
  | some a => simp [enterRequest, hb, eq_comm]

theorem Guarded.enterRequest (hI : Guarded R w l) (hpost : SeparateClaims R w l (.post post)) :
    Guarded R (enterRequest post w) l where
  redis := hI.redis
  numbered q hq := by
    rcases mem_enterRequest.mp hq with hq | ⟨hq, _⟩
    · exact Nat.lt_succ_of_lt (hI.numbered q hq)
    · exact hq ▸ Nat.lt_succ_self _
  apart q hq q' hq' hsame := by
    rcases mem_enterRequest.mp hq with hq | ⟨hq, ha⟩ <;>
      rcases mem_enterRequest.mp hq' with hq' | ⟨hq', ha'⟩
    · exact hI.apart q hq q' hq' hsame
    · exact absurd hsame.symm ((hpost _ ha').1 q hq)
    · exact absurd hsame ((hpost _ ha).1 q' hq')
    · exact Prod.ext (hq.trans hq'.symm) (Option.some.inj (ha.symm.trans ha'))
  spelled q hq p hp hsame := by
    rcases mem_enterRequest.mp hq with hq | ⟨_, ha⟩
    · exact hI.spelled q hq p hp hsame
    · exact (hpost _ ha).2 p hp hsame
  locked := hI.locked
  once := hI.once

theorem turn_enterRequest : Turn R w.inputs w (enterRequest post w) where
  others _ _ :=
    { now := le_rfl
      inputs := Nat.le_succ _
      mine := fun _ h => mem_enterRequest.mpr (.inl h)
      key := fun _ _ _ => rfl
      payments := fun _ _ _ hp _ => hp }
  inputs := by
    show w.inputs + 1 = _
    omega

theorem mem_leaveRequest : q ∈ (leaveRequest n w).requests ↔ q ∈ w.requests ∧ q.1 ≠ n := by
  simp [leaveRequest]

theorem Guarded.leaveRequest (hI : Guarded R w l) (n : ℕ) : Guarded R (leaveRequest n w) l where
  redis := hI.redis
  numbered q hq := hI.numbered q (mem_leaveRequest.mp hq).1
  apart q hq q' hq' := hI.apart q (mem_leaveRequest.mp hq).1 q' (mem_leaveRequest.mp hq').1
  spelled q hq := hI.spelled q (mem_leaveRequest.mp hq).1
  locked := hI.locked
  once := hI.once

theorem turn_leaveRequest (hn : n < w.inputs) : Turn R n w (leaveRequest n w) where
  others m hm :=
    { now := le_rfl
      inputs := le_rfl
      mine := fun _ h => mem_leaveRequest.mpr ⟨h, hm⟩
      key := fun _ _ _ => rfl
      payments := fun _ _ _ hp _ => hp }
  inputs := by
    show w.inputs = _
    omega

theorem Guarded.tick (hI : Guarded R w l) (elapsed : ℕ) :
    Guarded R { w with now := w.now + elapsed, inputs := w.inputs + 1 } l where
  redis := hI.redis
  numbered q hq := Nat.lt_succ_of_lt (hI.numbered q hq)
  apart := hI.apart
  spelled := hI.spelled
  locked p hp hd := (hI.locked p hp hd).imp_left fun h => h.trans (Nat.le_add_right _ _)
  once := hI.once

theorem Guarded.said (hI : Guarded R w l) (l' : List (ℕ × FaucetReply)) : Guarded R w l' :=
  ⟨hI.redis, hI.numbered, hI.apart, hI.spelled, hI.locked, hI.once⟩

theorem serveFaucet_keeps (input : FaucetInput) (w : FaucetWorld) (l : List (ℕ × FaucetReply))
    (hinput : SeparateClaims R w l input) (hI : Guarded R w l) :
    KeepsBy (fun _ => True) (Guarded R) (Unhindered R w.inputs) (Turn R w.inputs)
      (Restores (Guarded R) (Turn R w.inputs)) (serveFaucet input) w w l := by
  cases input with
  | tick elapsed =>
    have hturn : Turn R w.inputs w { w with now := w.now + elapsed, inputs := w.inputs + 1 } :=
      ⟨fun _ _ => ⟨Nat.le_add_right _ _, Nat.le_succ _, fun _ h => h, fun _ _ _ => rfl,
        fun _ _ _ hp _ => hp⟩, by show w.inputs + 1 = _; omega⟩
    exact ⟨hI.tick elapsed, hturn⟩
  | post post =>
    have hentered : Entered w.inputs post (enterRequest post w) :=
      ⟨Nat.lt_succ_self _, fun a ha => mem_enterRequest.mpr (.inr ⟨rfl, ha⟩)⟩
    have hreplied : ServesFrom R w.inputs (Entered w.inputs post) (fun w' _ => w.inputs < w'.inputs)
        ((faucet post).catching fun _ => .pure .serverError) :=
      (faucet_serves post).catching fun _ _ _ _ hI hG _ => ⟨hI, hG, hG.numbered⟩
    apply KeepsBy.restores (E := fun _ => True) (F := fun _ _ => True)
    refine From.seq hreplied (fun reply w₀ w' l hI hG hn => ?_) (hI.enterRequest hinput)
      turn_enterRequest hentered
    exact ⟨(hI.said _).leaveRequest _, hG.trans (turn_leaveRequest hn), trivial⟩

/-- In every run whose requests come apart, each destination is paid once in the lifetime of its
key. -/
theorem faucet_pays_once (R : AddressRules) (w : FaucetWorld) (hw : w.Started)
    (moves : List (Move FaucetAnswer FaucetInput))
    (hmoves : LegalMoves serveFaucet (SeparateClaims R) (System.initial w) moves) :
    PaidOnce R (run serveFaucet (System.initial w) moves).world.issued := by
  have hI : Guarded R w [] :=
    { redis := hw.redis
      numbered := by simp [hw.requests]
      apart := by simp [hw.requests]
      spelled := by simp [hw.requests]
      locked := by simp [hw.issued]
      once := by rw [hw.issued]; exact .nil }
  exact (run_owned serveFaucet_keeps (owned_initial hI hw.inputs) turn_fits hmoves
    fun _ _ _ => trivial).1.once

section Sample

def zeroAddress : Text := "tar1qqqqqqqqqqqqqqqqqqqqqqqqqqqqqqqqqck3y2w".toList

def emptyFaucet : FaucetWorld := ⟨0, true, false, fun _ => 0, 0, [], []⟩

theorem emptyFaucet_started : emptyFaucet.Started := ⟨rfl, rfl, rfl, rfl⟩

def postFor (address : Text) (ip : String) : FaucetInput :=
  .post ⟨some (.obj [("address".toList, .str address), ("token".toList, .str ['t'])]), none,
    some ip.toList⟩

/-- The answers that lead request `n` past both checks. -/
def passChecks (n : ℕ) : List (Move FaucetAnswer FaucetInput) := List.replicate 4 (.resume n .done)

def bePaid (n : ℕ) : List (Move FaucetAnswer FaucetInput) :=
  [.resume n (.validated true), .resume n (.balance 10000000000)] ++
    List.replicate 4 (.resume n .done) ++ [.resume n (.txid [])]

/-- One destination is paid again after ten years. -/
def decadeMoves : List (Move FaucetAnswer FaucetInput) :=
  [.fire (postFor zeroAddress "10.0.0.1")] ++ passChecks 0 ++ bePaid 0 ++
    [.fire (.tick keyLifetime), .fire (postFor zeroAddress "10.0.0.2")] ++ passChecks 2 ++ bePaid 2

theorem faucet_pays_once_decade :
    (run serveFaucet (System.initial emptyFaucet) decadeMoves).world.issued.length = 2 ∧
      PaidOnce zeroHashRules (run serveFaucet (System.initial emptyFaucet) decadeMoves).world.issued :=
  ⟨by rfl, faucet_pays_once zeroHashRules emptyFaucet emptyFaucet_started decadeMoves
    (by decide +kernel)⟩

/-- Both requests look up the key before one of them sets it. -/
def overlappingMoves : List (Move FaucetAnswer FaucetInput) :=
  [.fire (postFor zeroAddress "10.0.0.1"), .fire (postFor zeroAddress "10.0.0.2")] ++
    passChecks 0 ++ passChecks 1 ++ bePaid 0 ++ bePaid 1

/-- The second request spells the address in capitals. -/
def respelledMoves : List (Move FaucetAnswer FaucetInput) :=
  [.fire (postFor zeroAddress "10.0.0.1")] ++ passChecks 0 ++ bePaid 0 ++
    [.fire (postFor (zeroAddress.map Char.toUpper) "10.0.0.2")] ++ passChecks 1 ++ bePaid 1

theorem faucet_pays_twice : emptyFaucet.Started ∧
    ¬PaidOnce zeroHashRules
      (run serveFaucet (System.initial emptyFaucet) overlappingMoves).world.issued ∧
    ¬PaidOnce zeroHashRules
      (run serveFaucet (System.initial emptyFaucet) respelledMoves).world.issued :=
  ⟨emptyFaucet_started, by decide +kernel, by decide +kernel⟩

end Sample

end Inputs

end Tarcoin.Pool
