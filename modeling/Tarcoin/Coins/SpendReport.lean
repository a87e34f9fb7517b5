import Tarcoin.Coins.Refinement

/-! What `SpendCoin` reports, and the assertion of `UpdateCoins` that rests on it. -/
namespace Tarcoin
open FinmapLookup Simulation

def Cache.SpentAt (c : Cache) (o : OutPoint) : Prop :=
  ∃ e, c.cacheCoins.lookup o = some e ∧ e.coin.isSpent = true

namespace CoinsView

/-- The loop of `UpdateCoins` over the inputs, with the coins for the undo data. -/
def spendInputs : CoinsView → List OutPoint → Except Fault (CoinsView × List Coin)
  | v, [] => .ok (v, [])
  | .cached c base, o :: inputs =>
    let r := spendCoin c base o
    if r.1.1 then (spendInputs r.2 inputs).map fun q => (q.1, r.1.2 :: q.2)
    else .error .assertion
  | .backing _, _ :: _ => .error .assertion

variable {c : Cache} {base v : CoinsView} {o o' : OutPoint} {m : UtxoMap} {ms : List UtxoMap}

/-- `FetchCoin` finds an entry without a coin only where the cache has it already. -/
theorem spentAt_iff (base : CoinsView) : c.SpentAt o ↔
    ∃ e, (fetchCoin c base o).1 = some e ∧ e.coin.isSpent = true := by
  unfold Cache.SpentAt fetchCoin fetchWith
  cases c.cacheCoins.lookup o with
  | some e => exact Iff.rfl
  | none =>
    refine ⟨fun ⟨_, he, _⟩ => (nomatch he), fun ⟨e, he, hs⟩ => ?_⟩
    dsimp only at he
    split at he
    · rename_i coin _
      cases he
      exact absurd coin.property (by simp [hs])
    · cases he

theorem spendCoin_state (c : Cache) (base : CoinsView) (o : OutPoint) :
    ∃ c' base', (spendCoin c base o).2 = .cached c' base' ∧
      ∀ o', o' ≠ o → c'.cacheCoins.lookup o' = c.cacheCoins.lookup o' := by
  have hfetch : ∀ o', o' ≠ o →
      (fetchCoin c base o).2.1.cacheCoins.lookup o' = c.cacheCoins.lookup o' := by
    intro o' hne
    unfold fetchCoin fetchWith
    split
    · rfl
    · split
      · exact (lookup_insert_eq ..).trans (if_neg hne)
      · rfl
  unfold spendCoin
  dsimp only
  split
  · exact ⟨_, _, rfl, hfetch⟩
  · refine ⟨_, _, rfl, fun o' hne => Eq.trans ?_ (hfetch o' hne)⟩
    unfold Cache.spendEntry
    split
    · exact (lookup_erase_eq ..).trans (if_neg hne)
    · exact (lookup_insert_eq ..).trans (if_neg hne)

section
variable (h : Represents (.cached c base) (m :: ms))
include h

/-- A spent entry counts as found, so the report is right where there is none. -/
theorem spendCoin_found_iff (o : OutPoint) :
    ((spendCoin c base o).1.1 = true ↔ (m.view o).isSome = true) ↔ ¬ c.SpentAt o := by
  have hanswer := (fetchCoin_fetched h.coherent o).answer
  rw [h.peekCoin] at hanswer
  rw [spentAt_iff base, ← hanswer, spendCoin]
  cases (fetchCoin c base o).1 with
  | none => simp
  | some e =>
    cases hs : e.coin.isSpent with
    | true => simp [Coin.toUnspent_of_spent hs, hs]
    | false => simp [Coin.toUnspent_of_unspent hs, hs]

theorem spendCoin_eq (hspent : ¬ c.SpentAt o) :
    (spendCoin c base o).1 = ((m.view o).isSome, m.accessCoin o) := by
  refine Prod.ext ?_ (h.spendCoin o).1
  exact Bool.eq_iff_iff.mpr ((spendCoin_found_iff h o).mpr hspent)

end

/-- The loop moves out the coins of the view, and fails where one is missing. -/
theorem spendInputs_eq {inputs : List OutPoint} (h : Represents (.cached c base) (m :: ms))
    (hnodup : inputs.Nodup) (hspent : ∀ o ∈ inputs, ¬ c.SpentAt o) :
    (spendInputs (.cached c base) inputs).map Prod.snd =
      if ∀ o ∈ inputs, (m.view o).isSome = true then .ok (inputs.map m.accessCoin)
      else .error .assertion := by
  induction inputs generalizing c base m with
  | nil => rfl
  | cons o inputs ih =>
    obtain ⟨hnew, hnodup⟩ := List.nodup_cons.mp hnodup
    obtain ⟨c', base', hstate, hlookup⟩ := spendCoin_state c base o
    have hne : ∀ o' ∈ inputs, o' ≠ o := fun o' ho' heq => hnew (heq ▸ ho')
    have hview : ∀ o' ∈ inputs, (m.spendCoin o).view o' = m.view o' := by
      intro o' ho'
      rw [UtxoMap.spendCoin, UtxoMap.view_erase, Function.update_of_ne (hne o' ho')]
    have hrest := ih (hstate ▸ (h.spendCoin o).2) hnodup (fun o' ho' => by
      unfold Cache.SpentAt
      rw [hlookup o' (hne o' ho')]
      exact hspent o' (List.mem_cons_of_mem o ho'))
    have hcoins : inputs.map (m.spendCoin o).accessCoin = inputs.map m.accessCoin :=
      List.map_congr_left fun o' ho' => congrArg
        (fun x : Option UnspentCoin => (x.map Subtype.val).getD Coin.empty) (hview o' ho')
    rw [spendInputs, spendCoin_eq h (hspent o List.mem_cons_self), hstate]
    cases hfound : (m.view o).isSome with
    | false => simp [hfound, Except.map]
    | true =>
      have hiff : (∀ o' ∈ o :: inputs, (m.view o').isSome = true) ↔
          ∀ o' ∈ inputs, ((m.spendCoin o).view o').isSome = true := by
        rw [List.forall_mem_cons, hfound]
        exact ⟨fun h o' ho' => hview o' ho' ▸ h.2 o' ho',
          fun h => ⟨rfl, fun o' ho' => hview o' ho' ▸ h o' ho'⟩⟩
      simp only [hiff, if_true, List.map_cons]
      generalize spendInputs (.cached c' base') inputs = r at hrest
      cases r <;> split_ifs at hrest ⊢ <;> simp_all [Except.map]

end CoinsView

open CoinsView

end Tarcoin
