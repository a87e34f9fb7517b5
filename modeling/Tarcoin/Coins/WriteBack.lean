import Tarcoin.Coins.Coherence
import Tarcoin.Foundations.Simulation

/-! `BatchWrite`, `Flush` and `Sync` move what a cache holds to the view below; reads fill caches.
Neither changes the view that a cache gives. -/
namespace Tarcoin
open FinmapLookup Simulation

def CacheEntry.write (w : OutPoint × CacheEntry) : OutPoint × Option UnspentCoin :=
  (w.1, w.2.coin.toUnspent)

/-- An entry that may be written to a view: dirty, cleared if spent, and fresh only where the
view has no coin. -/
structure Writable (f : OutPoint → Option UnspentCoin) (w : OutPoint × CacheEntry) : Prop where
  dirty : w.2.dirty = true
  fresh : w.2.fresh = true → f w.1 = none
  spent : w.2.coin.isSpent = true → w.2.coin = Coin.empty

namespace Cache
variable {c : Cache} {below : OutPoint → Option UnspentCoin}

variable {w : OutPoint × CacheEntry} {ws : List (OutPoint × CacheEntry)}

section
variable (h : c.Coherent below)
include h

theorem Coherent.batchWriteEntry (hw : Writable (c.view below) w) :
    ∃ c', c.batchWriteEntry w = .ok c' ∧ c'.Coherent below ∧
      c'.view below = Function.update (c.view below) w.1 w.2.coin.toUnspent := by
  unfold Cache.batchWriteEntry
  simp only [hw.dirty, Bool.not_true, Bool.false_eq_true, if_false]
  cases he : c.cacheCoins.lookup w.1 with
  | none =>
    have hbelow := view_of_lookup_none below he
    cases hdrop : w.2.fresh && w.2.coin.isSpent with
    | true =>
      rw [Bool.and_eq_true] at hdrop
      refine ⟨c, rfl, h, ?_⟩
      rw [Coin.toUnspent_of_spent hdrop.2, ← hw.fresh hdrop.1, Function.update_eq_self]
    | false =>
      obtain ⟨hcoh, hview⟩ := h.store w.1 w.2.coin w.2.fresh hw.spent (by
        intro hf
        rw [hf] at hdrop
        exact ⟨hdrop, hbelow ▸ hw.fresh hf⟩)
      exact ⟨_, rfl, hcoh.congr rfl rfl, (view_congr rfl).trans hview⟩
  | some e =>
    have hthrow : (w.2.fresh && !e.coin.isSpent) = false := by
      cases hf : w.2.fresh with
      | false => rfl
      | true =>
        have hnone := hw.fresh hf
        rw [view_of_lookup below he] at hnone
        simp [Coin.isSpent_of_toUnspent_none hnone]
    simp only [hthrow, Bool.false_eq_true, if_false]
    cases herase : e.fresh && w.2.coin.isSpent with
    | true =>
      rw [Bool.and_eq_true] at herase
      have hdisc : (c.discount e).Coherent below := h.congr rfl rfl
      refine ⟨_, rfl, hdisc.eraseEntry w.1, ?_⟩
      rw [view_eraseEntry, (h.fresh he herase.1).2.2, Coin.toUnspent_of_spent herase.2]
      rfl
    | false =>
      obtain ⟨hcoh, hview⟩ := h.store w.1 w.2.coin e.fresh hw.spent (by
        intro hf
        rw [hf] at herase
        exact ⟨herase, (h.fresh he hf).2.2⟩)
      exact ⟨_, rfl, hcoh.congr rfl rfl, (view_congr rfl).trans hview⟩

theorem Coherent.batchWriteEntries (hnodup : (ws.map Prod.fst).Nodup)
    (hws : ∀ w ∈ ws, Writable (c.view below) w) :
    ∃ c', c.batchWriteEntries ws = .ok c' ∧ c'.Coherent below ∧
      c'.view below = writeAll (c.view below) (ws.map CacheEntry.write) := by
  induction ws generalizing c with
  | nil => exact ⟨c, rfl, h, rfl⟩
  | cons w ws ih =>
    rw [List.map_cons, List.nodup_cons] at hnodup
    obtain ⟨c', hstep, hcoh, hview⟩ := h.batchWriteEntry (hws w List.mem_cons_self)
    have hrest : ∀ u ∈ ws, Writable (c'.view below) u := by
      intro u hu
      obtain ⟨hdirty, hfresh, hspent⟩ := hws u (List.mem_cons_of_mem w hu)
      have hne : u.1 ≠ w.1 := fun heq => hnodup.1 (heq ▸ List.mem_map_of_mem hu)
      exact ⟨hdirty, fun hf => by rw [hview, Function.update_of_ne hne, hfresh hf], hspent⟩
    obtain ⟨c'', hrun, hcoh', hview'⟩ := ih hcoh hnodup.2 hrest
    refine ⟨c'', ?_, hcoh', ?_⟩
    · simp [Cache.batchWriteEntries, hstep, Except.bind, hrun]
    · rw [hview', hview]
      rfl

theorem Coherent.mem_cursor :
    w ∈ c.cursor ↔ c.cacheCoins.lookup w.1 = some w.2 ∧ w.2.dirty = true := by
  simp only [cursor, List.mem_filterMap, Option.map_eq_some_iff]
  constructor
  · rintro ⟨o, ho, e, he, rfl⟩
    obtain ⟨e', he', hd⟩ := (h.linked o).mp ho
    rw [he] at he'
    exact ⟨he, Option.some.inj he' ▸ hd⟩
  · rintro ⟨he, hd⟩
    exact ⟨w.1, (h.linked w.1).mpr ⟨w.2, he, hd⟩, w.2, he, rfl⟩

theorem Coherent.cursor_keys : c.cursor.map Prod.fst = c.flagged := by
  have hlist : ∀ l : List OutPoint, (∀ o ∈ l, o ∈ c.flagged) →
      (l.filterMap fun o => (c.cacheCoins.lookup o).map fun e => (o, e)).map Prod.fst = l := by
    intro l hl
    induction l with
    | nil => rfl
    | cons o l ih =>
      obtain ⟨e, he, -⟩ := (h.linked o).mp (hl o List.mem_cons_self)
      simp [he, ih fun o' ho' => hl o' (List.mem_cons_of_mem o ho')]
  exact hlist c.flagged fun _ => id

theorem Coherent.writable_cursor : ∀ w ∈ c.cursor, Writable below w := by
  intro w hw
  obtain ⟨he, hd⟩ := h.mem_cursor.mp hw
  exact ⟨hd, fun hf => (h.fresh he hf).2.2, h.spent he⟩

theorem Coherent.writeAll_cursor :
    writeAll below (c.cursor.map CacheEntry.write) = c.view below := by
  have hkeys : (c.cursor.map CacheEntry.write).map Prod.fst = c.flagged := by
    rw [List.map_map]
    exact h.cursor_keys
  funext o
  cases he : c.cacheCoins.lookup o with
  | none =>
    rw [view_of_lookup_none below he, writeAll_of_notMem]
    rw [hkeys, h.linked]
    simp [he]
  | some e =>
    rw [view_of_lookup below he]
    cases hd : e.dirty with
    | true =>
      apply writeAll_of_mem (by rw [hkeys]; exact h.nodup)
      exact List.mem_map.mpr ⟨(o, e), h.mem_cursor.mpr ⟨he, hd⟩, rfl⟩
    | false =>
      rw [writeAll_of_notMem, (h.clean he hd).2]
      rw [hkeys, h.linked]
      simp [he, hd]

end

theorem passEntry_flagged (w : OutPoint × CacheEntry) :
    (c.passEntry w).flagged = c.flagged.erase w.1 := by
  unfold passEntry
  split_ifs <;> rfl

theorem lookup_passEntry_of_ne {o : OutPoint} (ho : o ≠ w.1) :
    (c.passEntry w).cacheCoins.lookup o = c.cacheCoins.lookup o := by
  unfold passEntry
  split_ifs
  · simp only [eraseEntry, lookup_erase_eq, if_neg ho]
  · simp only [lookup_insert_eq, if_neg ho]

theorem lookup_passEntry_self {e : CacheEntry}
    (he : (c.passEntry w).cacheCoins.lookup w.1 = some e) :
    w.2.coin.isSpent = false ∧ e = ⟨w.2.coin, false, false⟩ := by
  unfold passEntry at he
  split_ifs at he with hs
  · simp only [eraseEntry, lookup_erase_eq, if_true, reduceCtorEq] at he
  · simp only [lookup_insert_eq, if_true, Option.some.injEq] at he
    exact ⟨by simpa using hs, he.symm⟩

theorem view_passEntry (hw : c.cacheCoins.lookup w.1 = some w.2) :
    (c.passEntry w).view (Function.update below w.1 w.2.coin.toUnspent) = c.view below := by
  funext o
  by_cases ho : o = w.1
  · subst ho
    rw [view_of_lookup below hw]
    cases he : (c.passEntry w).cacheCoins.lookup w.1 with
    | none => rw [view_of_lookup_none _ he, Function.update_self]
    | some e =>
      obtain ⟨-, rfl⟩ := lookup_passEntry_self he
      rw [view_of_lookup _ he]
  · simp [view, lookup_passEntry_of_ne ho, Function.update_of_ne ho]

theorem Coherent.passEntry (h : c.Coherent below) (w : OutPoint × CacheEntry) :
    (c.passEntry w).Coherent (Function.update below w.1 w.2.coin.toUnspent) := by
  refine .of_sane ?_ (passEntry_flagged w ▸ h.nodup.erase w.1) ?_
  · intro o e he
    by_cases ho : o = w.1
    · subst ho
      obtain ⟨hs, rfl⟩ := lookup_passEntry_self he
      exact ⟨fun _ => ⟨hs, Function.update_self ..⟩, (nomatch ·),
        fun hs' => by simp [hs] at hs'⟩
    · rw [lookup_passEntry_of_ne ho] at he
      obtain ⟨hclean, hfresh, hspent⟩ := h.sane he
      rw [← Function.update_of_ne ho w.2.coin.toUnspent below] at hclean hfresh
      exact ⟨hclean, hfresh, hspent⟩
  · intro o
    rw [passEntry_flagged, h.nodup.mem_erase_iff, h.linked]
    by_cases ho : o = w.1
    · subst ho
      simp only [ne_eq, not_true, false_and, false_iff, not_exists, not_and]
      intro e he
      obtain ⟨-, rfl⟩ := lookup_passEntry_self he
      exact Bool.false_ne_true
    · simp [ho, lookup_passEntry_of_ne ho]

theorem Coherent.passEntries (h : c.Coherent below) (hflagged : c.flagged = ws.map Prod.fst)
    (hws : ∀ w ∈ ws, c.cacheCoins.lookup w.1 = some w.2) :
    (ws.foldl Cache.passEntry c).Coherent (writeAll below (ws.map CacheEntry.write)) ∧
      (ws.foldl Cache.passEntry c).view (writeAll below (ws.map CacheEntry.write)) =
        c.view below ∧
      (ws.foldl Cache.passEntry c).flagged = [] := by
  induction ws generalizing c below with
  | nil => exact ⟨h, rfl, hflagged⟩
  | cons w ws ih =>
    have hcoh := h.passEntry w
    have hview : (c.passEntry w).view (Function.update below w.1 w.2.coin.toUnspent) =
        c.view below := view_passEntry (hws w List.mem_cons_self)
    have hnodup := h.nodup
    rw [hflagged, List.map_cons, List.nodup_cons] at hnodup
    have hrest : (c.passEntry w).flagged = ws.map Prod.fst := by
      rw [passEntry_flagged, hflagged, List.map_cons, List.erase_cons_head]
    obtain ⟨hcoh', hview', hempty⟩ := ih hcoh hrest (by
      intro u hu
      have hne : u.1 ≠ w.1 := fun heq => hnodup.1 (heq ▸ List.mem_map_of_mem hu)
      rw [lookup_passEntry_of_ne hne]
      exact hws u (List.mem_cons_of_mem w hu))
    exact ⟨hcoh', hview'.trans hview, hempty⟩

end Cache

def UtxoMap.view (m : UtxoMap) (o : OutPoint) : Option UnspentCoin := m.lookup o

theorem UtxoMap.view_insert (m : UtxoMap) (o : OutPoint) (coin : UnspentCoin) :
    UtxoMap.view (m.insert o coin) = Function.update m.view o (some coin) := by
  funext o'
  rw [Function.update_apply, UtxoMap.view, lookup_insert_eq]
  rfl

theorem UtxoMap.view_erase (m : UtxoMap) (o : OutPoint) :
    UtxoMap.view (m.erase o) = Function.update m.view o none := by
  funext o'
  rw [Function.update_apply, UtxoMap.view, lookup_erase_eq]
  rfl

variable {m : UtxoMap}

theorem UtxoMap.view_writeEntry {w : OutPoint × CacheEntry} (hd : w.2.dirty = true) :
    (m.writeEntry w).view = Function.update m.view w.1 w.2.coin.toUnspent := by
  simp only [UtxoMap.writeEntry, hd, if_true]
  cases w.2.coin.toUnspent with
  | none => exact UtxoMap.view_erase m w.1
  | some coin => exact UtxoMap.view_insert m w.1 coin

theorem UtxoMap.view_writeEntries {ws : List (OutPoint × CacheEntry)}
    (hws : ∀ w ∈ ws, w.2.dirty = true) :
    (ws.foldl UtxoMap.writeEntry m).view = writeAll m.view (ws.map CacheEntry.write) := by
  induction ws generalizing m with
  | nil => rfl
  | cons w ws ih =>
    rw [List.foldl_cons, ih fun u hu => hws u (List.mem_cons_of_mem w hu),
      view_writeEntry (hws w List.mem_cons_self)]
    rfl

namespace CoinsView

def views : CoinsView → List (OutPoint → Option UnspentCoin)
  | .backing db => [db.coins.view]
  | .cached c base => c.view base.peekCoin :: base.views

/-- Every cache is coherent with the view below it. -/
def Coherent : CoinsView → Prop
  | .backing _ => True
  | .cached c base => base.Coherent ∧ c.Coherent base.peekCoin

theorem peekCoin_cached (c : Cache) (base : CoinsView) :
    (CoinsView.cached c base).peekCoin = c.view base.peekCoin := by
  rfl

theorem views_eq_cons (v : CoinsView) : v.views = v.peekCoin :: v.views.tail := by
  cases v with
  | backing db => rfl
  | cached c base => rw [views, peekCoin_cached, List.tail_cons]

variable {v base : CoinsView} {c : Cache}

theorem peekCoin_eq_of_views_eq {v' : CoinsView} (h : v'.views = v.views) :
    v'.peekCoin = v.peekCoin := by
  rw [views_eq_cons v, views_eq_cons v'] at h
  exact (List.cons.inj h).1

theorem views_cached_congr {base' : CoinsView} (h : base'.views = base.views) :
    (CoinsView.cached c base').views = (CoinsView.cached c base).views := by
  rw [views, views, peekCoin_eq_of_views_eq h, h]

/-- What `FetchCoin` gives: the entry it answers is in the cache, answers what the view has, and
no view has changed. -/
structure Fetched (c : Cache) (base : CoinsView) (o : OutPoint)
    (r : Option CacheEntry × Cache × CoinsView) : Prop where
  coherent : (CoinsView.cached r.2.1 r.2.2).Coherent
  views : (CoinsView.cached r.2.1 r.2.2).views = (CoinsView.cached c base).views
  entry : r.2.1.cacheCoins.lookup o = r.1
  answer : (r.1.bind fun e => e.coin.toUnspent) = (CoinsView.cached c base).peekCoin o

theorem fetchWith_fetched {o : OutPoint} {missed : Option UnspentCoin × CoinsView}
    (h : (CoinsView.cached c base).Coherent) (hmissed : missed.1 = base.peekCoin o)
    (hcoh : missed.2.Coherent) (hviews : missed.2.views = base.views) :
    Fetched c base o (fetchWith c base missed o) := by
  have hpeek := peekCoin_eq_of_views_eq hviews
  have hc := h.2
  unfold fetchWith
  cases he : c.cacheCoins.lookup o with
  | some e => exact ⟨h, rfl, he, (Cache.view_of_lookup base.peekCoin he).symm⟩
  | none =>
    have hview := Cache.view_of_lookup_none base.peekCoin he
    cases hm : missed.1 with
    | none =>
      rw [hm] at hmissed
      exact ⟨⟨hcoh, hpeek ▸ hc⟩, views_cached_congr hviews, he, (hview.trans hmissed.symm).symm⟩
    | some coin =>
      rw [hm] at hmissed
      obtain ⟨hfill, hsame⟩ := hc.fill he hmissed.symm
      refine ⟨⟨hcoh, hpeek ▸ hfill⟩, ?_, Finmap.lookup_insert _, ?_⟩
      · rw [views_cached_congr hviews, CoinsView.views, CoinsView.views, hsame]
      · exact (UnspentCoin.toUnspent coin).trans (hmissed.trans hview.symm)

theorem Coherent.getCoin (h : v.Coherent) (o : OutPoint) :
    (v.getCoin o).1 = v.peekCoin o ∧ (v.getCoin o).2.Coherent ∧
      (v.getCoin o).2.views = v.views := by
  induction v with
  | backing db => exact ⟨rfl, h, rfl⟩
  | cached c base ih =>
    obtain ⟨hans, hcoh, hviews⟩ := ih h.1
    have hfetch : Fetched c base o
        (fetchWith c base (if c.overlay then (base.peekCoin o, base) else base.getCoin o) o) := by
      split_ifs
      · exact fetchWith_fetched h rfl h.1 rfl
      · exact fetchWith_fetched h hans hcoh hviews
    exact ⟨hfetch.answer, hfetch.coherent, hfetch.views⟩

theorem fetchCoin_fetched (h : (CoinsView.cached c base).Coherent) (o : OutPoint) :
    Fetched c base o (fetchCoin c base o) := by
  unfold fetchCoin
  split_ifs
  · exact fetchWith_fetched h rfl h.1 rfl
  · obtain ⟨hans, hcoh, hviews⟩ := Coherent.getCoin h.1 o
    exact fetchWith_fetched h hans hcoh hviews

theorem Coherent.batchWrite (h : v.Coherent) {ws : List (OutPoint × CacheEntry)}
    (hnodup : (ws.map Prod.fst).Nodup) (hws : ∀ w ∈ ws, Writable v.peekCoin w) (hash : Uint256) :
    ∃ v', v.batchWrite ws hash = .ok v' ∧ v'.Coherent ∧
      v'.views = writeAll v.peekCoin (ws.map CacheEntry.write) :: v.views.tail := by
  cases v with
  | backing db =>
    refine ⟨_, rfl, trivial, ?_⟩
    rw [views, UtxoMap.view_writeEntries fun w hw => (hws w hw).dirty]
    rfl
  | cached c base =>
    rw [peekCoin_cached] at hws ⊢
    obtain ⟨c', hrun, hcoh, hview⟩ := h.2.batchWriteEntries hnodup hws
    refine ⟨.cached { c' with blockHash := hash } base, ?_, ⟨h.1, hcoh.congr rfl rfl⟩, ?_⟩
    · simp only [CoinsView.batchWrite, hrun, Except.map]
    · have hsame : ({ c' with blockHash := hash } : Cache).view base.peekCoin
          = c'.view base.peekCoin := Cache.view_congr rfl
      rw [views, hsame, hview, views, List.tail_cons]

section
variable (h : (CoinsView.cached c base).Coherent)
include h

/-- What `Flush` and `Sync` have in common: the base now shows what the cache shows. -/
theorem Coherent.writeBack :
    ∃ base', base.batchWrite c.cursor c.blockHash = .ok base' ∧ base'.Coherent ∧
      base'.views = c.view base.peekCoin :: base.views.tail ∧
        base'.peekCoin = c.view base.peekCoin := by
  have hnodup : (c.cursor.map Prod.fst).Nodup := by
    rw [h.2.cursor_keys]
    exact h.2.nodup
  obtain ⟨base', hrun, hcoh, hviews⟩ := h.1.batchWrite hnodup h.2.writable_cursor c.blockHash
  rw [h.2.writeAll_cursor] at hviews
  refine ⟨base', hrun, hcoh, hviews, ?_⟩
  rw [views_eq_cons base'] at hviews
  exact (List.cons.inj hviews).1

theorem Coherent.flush :
    ∃ v', flush c base = .ok v' ∧ v'.Coherent ∧
      v'.views = c.view base.peekCoin :: c.view base.peekCoin :: base.views.tail := by
  obtain ⟨base', hrun, hcoh, hviews, hpeek⟩ := h.writeBack
  refine ⟨.cached ⟨c.overlay, ∅, [], c.countDown, 0, c.blockHash⟩ base', ?_,
    ⟨hcoh, Cache.coherent_of_empty rfl rfl⟩, ?_⟩
  · simp only [CoinsView.flush, hrun, Except.map]
  · rw [views, Cache.view_of_empty rfl, hviews, hpeek]

theorem Coherent.sync :
    ∃ v', sync c base = .ok v' ∧ v'.Coherent ∧
      v'.views = c.view base.peekCoin :: c.view base.peekCoin :: base.views.tail := by
  obtain ⟨base', hrun, hcoh, hviews, hpeek⟩ := h.writeBack
  obtain ⟨hpass, hview, hempty⟩ := h.2.passEntries h.2.cursor_keys.symm
    fun w hw => (h.2.mem_cursor.mp hw).1
  rw [h.2.writeAll_cursor, ← hpeek] at hpass hview
  refine ⟨.cached { c.cursor.foldl Cache.passEntry c with dirtyCount := c.countDown } base', ?_,
    ⟨hcoh, hpass.congr rfl rfl⟩, ?_⟩
  · simp only [CoinsView.sync, hrun, Except.bind, hempty, ne_eq, not_true, if_false]
  · have hsame : ({ c.cursor.foldl Cache.passEntry c with dirtyCount := c.countDown } : Cache).view
        base'.peekCoin = (c.cursor.foldl Cache.passEntry c).view base'.peekCoin :=
      Cache.view_congr rfl
    rw [views, hsame, hview, hviews, hpeek]

end

end CoinsView

end Tarcoin
