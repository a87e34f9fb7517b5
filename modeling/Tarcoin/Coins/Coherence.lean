import Tarcoin.Coins.Cache

/-! What the flags of the entries say about the view below, and what each operation does to the
view that a cache gives. -/
namespace Tarcoin
open FinmapLookup

variable {c : Coin}

theorem Coin.toUnspent_of_unspent (h : c.isSpent = false) :
    c.toUnspent = some ⟨c, h⟩ := dif_pos h

theorem Coin.toUnspent_of_spent (h : c.isSpent = true) : c.toUnspent = none := by
  rw [Coin.toUnspent, dif_neg (by simp [h])]

@[simp] theorem UnspentCoin.toUnspent (c : UnspentCoin) : c.val.toUnspent = some c :=
  Coin.toUnspent_of_unspent c.property

theorem Coin.isSpent_of_toUnspent_none (h : c.toUnspent = none) : c.isSpent = true := by
  cases hs : c.isSpent with
  | true => rfl
  | false =>
    rw [Coin.toUnspent_of_unspent hs] at h
    cases h

namespace Cache

def view (c : Cache) (below : OutPoint → Option UnspentCoin) (o : OutPoint) :
    Option UnspentCoin :=
  match c.cacheCoins.lookup o with
  | some e => e.coin.toUnspent
  | none => below o

/-- The flags are right about the view below, spent entries are cleared, and exactly the dirty
entries are linked. -/
structure Coherent (c : Cache) (below : OutPoint → Option UnspentCoin) : Prop where
  clean : ∀ {o e}, c.cacheCoins.lookup o = some e → e.dirty = false →
    e.coin.isSpent = false ∧ below o = e.coin.toUnspent
  fresh : ∀ {o e}, c.cacheCoins.lookup o = some e → e.fresh = true →
    e.dirty = true ∧ e.coin.isSpent = false ∧ below o = none
  spent : ∀ {o e}, c.cacheCoins.lookup o = some e → e.coin.isSpent = true → e.coin = Coin.empty
  nodup : c.flagged.Nodup
  linked : ∀ o, o ∈ c.flagged ↔ ∃ e, c.cacheCoins.lookup o = some e ∧ e.dirty = true

variable {c c' : Cache} {below : OutPoint → Option UnspentCoin} {o : OutPoint}

variable {e : CacheEntry}

theorem view_of_lookup (below : OutPoint → Option UnspentCoin)
    (h : c.cacheCoins.lookup o = some e) :
    c.view below o = e.coin.toUnspent := by
  simp only [view, h]

theorem view_of_lookup_none (below : OutPoint → Option UnspentCoin)
    (h : c.cacheCoins.lookup o = none) : c.view below o = below o := by
  simp only [view, h]

/-- What coherence says of one entry. -/
structure Sane (below : OutPoint → Option UnspentCoin) (o : OutPoint) (e : CacheEntry) : Prop where
  clean : e.dirty = false → e.coin.isSpent = false ∧ below o = e.coin.toUnspent
  fresh : e.fresh = true → e.dirty = true ∧ e.coin.isSpent = false ∧ below o = none
  spent : e.coin.isSpent = true → e.coin = Coin.empty

theorem Coherent.sane (h : c.Coherent below) (he : c.cacheCoins.lookup o = some e) :
    Sane below o e :=
  ⟨h.clean he, h.fresh he, h.spent he⟩

theorem Coherent.of_sane (hsane : ∀ o e, c.cacheCoins.lookup o = some e → Sane below o e)
    (hnodup : c.flagged.Nodup)
    (hlinked : ∀ o, o ∈ c.flagged ↔ ∃ e, c.cacheCoins.lookup o = some e ∧ e.dirty = true) :
    c.Coherent below :=
  ⟨fun he => (hsane _ _ he).clean, fun he => (hsane _ _ he).fresh, fun he => (hsane _ _ he).spent,
    hnodup, hlinked⟩

theorem Coherent.congr (h : c.Coherent below) (hcoins : c'.cacheCoins = c.cacheCoins)
    (hflagged : c'.flagged = c.flagged) : c'.Coherent below := by
  apply Coherent.of_sane
  · exact fun o e he => h.sane (hcoins ▸ he)
  · exact hflagged ▸ h.nodup
  · rw [hflagged, hcoins]
    exact h.linked

theorem view_congr (hcoins : c'.cacheCoins = c.cacheCoins) : c'.view below = c.view below := by
  funext o
  simp only [view, hcoins]

theorem coherent_of_empty (hcoins : c.cacheCoins = ∅) (hflagged : c.flagged = []) :
    c.Coherent below := by
  constructor <;> simp [hcoins, hflagged]

theorem view_of_empty (hcoins : c.cacheCoins = ∅) : c.view below = below := by
  funext o
  simp [view, hcoins]

theorem Coherent.of_spent (h : c.Coherent below) (he : c.cacheCoins.lookup o = some e)
    (hs : e.coin.isSpent = true) : e.dirty = true ∧ e.fresh = false := by
  constructor
  · cases hd : e.dirty with
    | true => rfl
    | false =>
      have := (h.clean he hd).1
      rw [hs] at this
      cases this
  · cases hf : e.fresh with
    | false => rfl
    | true =>
      have := (h.fresh he hf).2.1
      rw [hs] at this
      cases this

theorem view_insert (e : CacheEntry) (hcoins : c'.cacheCoins = c.cacheCoins.insert o e) :
    c'.view below = Function.update (c.view below) o e.coin.toUnspent := by
  funext o'
  simp only [view, hcoins, lookup_insert_eq, Function.update_apply]
  split_ifs <;> rfl

theorem view_eraseEntry :
    (c.eraseEntry o).view below = Function.update (c.view below) o (below o) := by
  funext o'
  simp only [view, eraseEntry, lookup_erase_eq, Function.update_apply]
  split_ifs with h
  · rw [h]
  · rfl

theorem Coherent.eraseEntry (h : c.Coherent below) (o : OutPoint) :
    (c.eraseEntry o).Coherent below := by
  refine .of_sane ?_ (h.nodup.erase o) ?_
  · intro o' e he
    rw [Cache.eraseEntry, lookup_erase_eq] at he
    split_ifs at he
    exact h.sane he
  · intro o'
    simp only [Cache.eraseEntry, h.nodup.mem_erase_iff, h.linked, lookup_erase_eq]
    by_cases hne : o' = o <;> simp [hne]

theorem lookup_insert_cases {e' : CacheEntry} {o' : OutPoint}
    (hcoins : c'.cacheCoins = c.cacheCoins.insert o e') (he : c'.cacheCoins.lookup o' = some e) :
    (o' = o ∧ e = e') ∨ c.cacheCoins.lookup o' = some e := by
  rw [hcoins, lookup_insert_eq] at he
  split_ifs at he with ho
  · exact .inl ⟨ho, (Option.some.inj he).symm⟩
  · exact .inr he

section
variable (h : c.Coherent below)
include h

theorem Coherent.fill (hnone : c.cacheCoins.lookup o = none) {coin : UnspentCoin}
    (hbelow : below o = some coin) :
    (c.fill o coin).Coherent below ∧ (c.fill o coin).view below = c.view below := by
  constructor
  · have hnew : Sane below o ⟨coin.val, false, false⟩ :=
      ⟨fun _ => ⟨coin.property, by rw [hbelow, UnspentCoin.toUnspent]⟩, (nomatch ·),
        fun hs => by simp [coin.property] at hs⟩
    refine .of_sane ?_ h.nodup ?_
    · intro o' e he
      rcases lookup_insert_cases rfl he with ⟨rfl, rfl⟩ | hold
      · exact hnew
      · exact h.sane hold
    · intro o'
      simp only [Cache.fill, h.linked, lookup_insert_eq]
      by_cases ho : o' = o
      · subst ho
        simp [hnone]
      · simp [ho]
  · rw [view_insert ⟨coin.val, false, false⟩ rfl, UnspentCoin.toUnspent, ← hbelow,
      ← view_of_lookup_none below hnone, Function.update_eq_self]

section
variable (o : OutPoint) (coin : Coin) (fresh : Bool)

theorem Coherent.flagged_store :
    (o ∈ c.flagged ∧ (c.store o coin fresh).flagged = c.flagged) ∨
      (o ∉ c.flagged ∧ (c.store o coin fresh).flagged = c.flagged ++ [o]) := by
  simp only [h.linked, Cache.store]
  cases he : c.cacheCoins.lookup o with
  | none => simp
  | some e =>
    cases hd : e.dirty with
    | true => simp [hd]
    | false =>
      have hf : e.fresh = false := by
        cases hf : e.fresh with
        | false => rfl
        | true => simpa [hd] using (h.fresh he hf).1
      simp [hd, hf]

theorem Coherent.nodup_store : (c.store o coin fresh).flagged.Nodup := by
  rcases h.flagged_store o coin fresh with ⟨-, heq⟩ | ⟨hnot, heq⟩
  · rw [heq]
    exact h.nodup
  · rw [heq]
    refine List.nodup_append.mpr ⟨h.nodup, List.nodup_singleton o, ?_⟩
    intro a ha b hb hab
    exact hnot (List.mem_singleton.mp hb ▸ hab ▸ ha)

theorem Coherent.mem_flagged_store (o' : OutPoint) :
    o' ∈ (c.store o coin fresh).flagged ↔ o' = o ∨ o' ∈ c.flagged := by
  rcases h.flagged_store o coin fresh with ⟨hin, heq⟩ | ⟨-, heq⟩
  · rw [heq]
    exact ⟨Or.inr, fun hor => hor.elim (fun heq' => heq' ▸ hin) id⟩
  · rw [heq, List.mem_append, List.mem_singleton, or_comm]

theorem Coherent.store (hspent : coin.isSpent = true → coin = Coin.empty)
    (hfresh : fresh = true → coin.isSpent = false ∧ below o = none) :
    (c.store o coin fresh).Coherent below ∧
      (c.store o coin fresh).view below = Function.update (c.view below) o coin.toUnspent := by
  refine ⟨?_, view_insert ⟨coin, true, fresh⟩ rfl⟩
  have hnew : Sane below o ⟨coin, true, fresh⟩ :=
    ⟨(nomatch ·), fun hf => ⟨rfl, hfresh hf⟩, hspent⟩
  refine .of_sane ?_ (h.nodup_store o coin fresh) ?_
  · intro o' e he
    rcases lookup_insert_cases rfl he with ⟨rfl, rfl⟩ | hold
    · exact hnew
    · exact h.sane hold
  · intro o'
    rw [h.mem_flagged_store, h.linked]
    simp only [Cache.store, lookup_insert_eq]
    by_cases ho : o' = o <;> simp [ho]

end

end

/-- `AddCoin` is a write, unless the output is unspendable. Without `possible_overwrite` there
must be no coin. -/
theorem Coherent.addCoin (h : c.Coherent below) {coin : Coin} (hcoin : coin.isSpent = false)
    {possibleOverwrite : Bool} (hnone : possibleOverwrite = false → c.view below o = none) :
    ∃ c', c.addCoin o coin possibleOverwrite = .ok c' ∧ c'.Coherent below ∧
      c'.view below = if isUnspendable coin.out.scriptPubKey then c.view below
        else Function.update (c.view below) o coin.toUnspent := by
  have hspent : coin.isSpent = true → coin = Coin.empty := by simp [hcoin]
  unfold Cache.addCoin
  rw [if_neg (by simp [hcoin])]
  split
  next => exact ⟨c, rfl, h, rfl⟩
  next =>
    cases he : c.cacheCoins.lookup o with
    | none =>
      obtain ⟨hcoh, hview⟩ := h.store o coin (!possibleOverwrite) hspent (by
        intro hf
        rw [← view_of_lookup_none below he]
        exact ⟨hcoin, hnone (by simpa using hf)⟩)
      exact ⟨_, rfl, hcoh.congr rfl rfl, (view_congr rfl).trans hview⟩
    | some e =>
      have hover : possibleOverwrite = false → e.coin.isSpent = true := by
        intro hfalse
        apply Coin.isSpent_of_toUnspent_none
        rw [← view_of_lookup below he]
        exact hnone hfalse
      have hthrow : (!possibleOverwrite && !e.coin.isSpent) = false := by
        cases possibleOverwrite <;> simp [hover]
      have hfresh : (e.fresh || (!possibleOverwrite && !e.dirty)) = true →
          coin.isSpent = false ∧ below o = none := by
        intro hf
        refine ⟨hcoin, ?_⟩
        cases hef : e.fresh with
        | true => exact (h.fresh he hef).2.2
        | false =>
          simp only [hef, Bool.false_or, Bool.and_eq_true, Bool.not_eq_true'] at hf
          rw [(h.of_spent he (hover hf.1)).1] at hf
          cases hf.2
      have hdisc : (c.discount e).Coherent below := h.congr rfl rfl
      obtain ⟨hcoh, hview⟩ := hdisc.store o coin _ hspent hfresh
      simp only [hthrow, Bool.false_eq_true, if_false]
      exact ⟨_, rfl, hcoh.congr rfl rfl, (view_congr rfl).trans hview⟩

theorem Coherent.spendEntry (h : c.Coherent below) (he : c.cacheCoins.lookup o = some e) :
    (c.spendEntry o e).Coherent below ∧
      (c.spendEntry o e).view below = Function.update (c.view below) o none := by
  have hdisc : (c.discount e).Coherent below := h.congr rfl rfl
  unfold Cache.spendEntry
  cases hf : e.fresh with
  | true =>
    rw [if_pos rfl]
    refine ⟨hdisc.eraseEntry o, ?_⟩
    rw [view_eraseEntry, (h.fresh he hf).2.2]
    rfl
  | false =>
    obtain ⟨hcoh, hview⟩ := hdisc.store o Coin.empty false (fun _ => rfl)
      (fun hff => by cases hff)
    exact ⟨hcoh.congr rfl rfl, (view_congr rfl).trans hview⟩

theorem Coherent.uncache (h : c.Coherent below) (o : OutPoint) :
    (c.uncache o).Coherent below ∧ (c.uncache o).view below = c.view below := by
  unfold Cache.uncache
  cases he : c.cacheCoins.lookup o with
  | none => exact ⟨h, rfl⟩
  | some e =>
    cases hd : e.dirty with
    | true =>
      simp only [hd, if_true]
      exact ⟨h, trivial⟩
    | false =>
      simp only [hd, Bool.false_eq_true, if_false]
      refine ⟨(h.eraseEntry o).congr rfl rfl, ?_⟩
      have hsame : below o = c.view below o := by
        rw [view_of_lookup below he, (h.clean he hd).2]
      calc _ = (c.eraseEntry o).view below := view_congr rfl
        _ = c.view below := by rw [view_eraseEntry, hsame, Function.update_eq_self]

end Cache

end Tarcoin
