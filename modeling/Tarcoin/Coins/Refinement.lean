import Tarcoin.Coins.WriteBack

/-! The stacked caches refine one map for every level: `Flush` and `Sync` copy a map to the level
below, `Reset` copies the one below back. -/
namespace Tarcoin
open Simulation

inductive CacheOp
  | addCoin (o : OutPoint) (coin : UnspentCoin) (possibleOverwrite : Bool)
  | spendCoin (o : OutPoint)
  | getCoin (o : OutPoint)
  | haveCoin (o : OutPoint)
  | peekCoin (o : OutPoint)
  | accessCoin (o : OutPoint)
  | uncache (o : OutPoint)
  | sync
  | flush
  | reset

/-- What a call returns. For `SpendCoin` it is the coin that is moved out. -/
inductive CacheReply
  | done
  | found (b : Bool)
  | coin (c : Coin)
  | optional (c : Option Coin)
  deriving DecidableEq, Repr

def CacheOp.changes : CacheOp → Bool
  | .addCoin _ _ _ => true
  | .spendCoin _ => true
  | .reset => true
  | _ => false

/-- Without `possible_overwrite`, `AddCoin` needs an outpoint that has no unspent coin. -/
def CacheOp.Admissible (m : UtxoMap) : CacheOp → Prop
  | .addCoin o _ possibleOverwrite => possibleOverwrite = false → m.haveCoin o = false
  | _ => True

namespace CoinsView

def callTop (c : Cache) (base : CoinsView) : CacheOp → Except Fault (CoinsView × CacheReply)
  | .addCoin o coin possibleOverwrite =>
    (c.addCoin o coin.val possibleOverwrite).map fun c' => (.cached c' base, .done)
  | .spendCoin o => .ok ((spendCoin c base o).2, .coin (spendCoin c base o).1.2)
  | .getCoin o =>
    let r := (CoinsView.cached c base).getCoin o
    .ok (r.2, .optional (r.1.map Subtype.val))
  | .haveCoin o => .ok ((haveCoin c base o).2, .found (haveCoin c base o).1)
  | .peekCoin o =>
    .ok (.cached c base, .optional (((CoinsView.cached c base).peekCoin o).map Subtype.val))
  | .accessCoin o => .ok ((accessCoin c base o).2, .coin (accessCoin c base o).1)
  | .uncache o => .ok (.cached (c.uncache o) base, .done)
  | .sync => (sync c base).map fun v => (v, .done)
  | .flush => (flush c base).map fun v => (v, .done)
  | .reset => .ok (.cached c.reset base, .done)

/-- A call of the cache that has `d` caches above it. -/
def callAt : ℕ → CoinsView → CacheOp → Except Fault (CoinsView × CacheReply)
  | _, .backing db, _ => .ok (.backing db, .done)
  | 0, .cached c base, op => callTop c base op
  | d + 1, .cached c base, op => (callAt d base op).map fun r => (.cached c r.1, r.2)

def call (v : CoinsView) (a : ℕ × CacheOp) : Except Fault (CoinsView × CacheReply) :=
  v.callAt a.1 a.2

/-- New caches over a backing map, the first one on top; `true` makes a `CoinsViewOverlay`. -/
def stack (kinds : List Bool) (db : Backing) : CoinsView :=
  kinds.foldr (fun overlay base => .cached (.new overlay) base) (.backing db)

def backingMap : CoinsView → UtxoMap
  | .backing db => db.coins
  | .cached _ base => base.backingMap

/-- Which calls may be made: the cache exists, the call is admissible there, and where it changes
the cache, the ones above are empty, as `Flush` and `Reset` leave them. -/
def LegalAt : ℕ → CoinsView → List UtxoMap → CacheOp → Prop
  | 0, .cached _ _, m :: _, op => op.Admissible m
  | d + 1, .cached c base, _ :: ms, op =>
    (op.changes = true → c.cacheCoins = ∅) ∧ base.LegalAt d ms op
  | _, _, _, _ => False

def Legal (v : CoinsView) (ms : List UtxoMap) (a : ℕ × CacheOp) : Prop := v.LegalAt a.1 ms a.2

end CoinsView

/-- A call of the top level, whose map is `m`; `below` is the map of the next level. -/
def specTop (m below : UtxoMap) (ms : List UtxoMap) : CacheOp → List UtxoMap × CacheReply
  | .addCoin o coin possibleOverwrite =>
    ((m.addCoin o coin.val possibleOverwrite).toOption.getD m :: below :: ms, .done)
  | .spendCoin o => (m.spendCoin o :: below :: ms, .coin (m.accessCoin o))
  | .getCoin o => (m :: below :: ms, .optional (m.getCoin o))
  | .haveCoin o => (m :: below :: ms, .found (m.haveCoin o))
  | .peekCoin o => (m :: below :: ms, .optional (m.getCoin o))
  | .accessCoin o => (m :: below :: ms, .coin (m.accessCoin o))
  | .uncache _ => (m :: below :: ms, .done)
  | .sync => (m :: m :: ms, .done)
  | .flush => (m :: m :: ms, .done)
  | .reset => (below :: below :: ms, .done)

/-- A call `d` levels down. The levels above follow a change. -/
def specAt : ℕ → List UtxoMap → CacheOp → List UtxoMap × CacheReply
  | 0, m :: below :: ms, op => specTop m below ms op
  | d + 1, m :: ms, op =>
    let r := specAt d ms op
    ((if op.changes then r.1.headD m else m) :: r.1, r.2)
  | _, ms, _ => (ms, .done)

def specCall (ms : List UtxoMap) (a : ℕ × CacheOp) : List UtxoMap × CacheReply :=
  specAt a.1 ms a.2

/-- The stack is coherent and every level shows its map. -/
structure Represents (v : CoinsView) (ms : List UtxoMap) : Prop where
  coherent : v.Coherent
  views : v.views = ms.map UtxoMap.view

theorem UtxoMap.view_addCoin {m : UtxoMap} {o : OutPoint} {coin : UnspentCoin} {ow : Bool}
    (hnone : ow = false → m.haveCoin o = false) :
    UtxoMap.view ((m.addCoin o coin.val ow).toOption.getD m) =
      if isUnspendable coin.val.out.scriptPubKey then m.view
      else Function.update m.view o (some coin) := by
  have hthrow : (!ow && m.haveCoin o) = false := by
    cases ow with
    | true => rfl
    | false => simp [hnone]
  unfold UtxoMap.addCoin
  rw [dif_pos coin.property]
  split
  next => rfl
  next =>
    rw [if_neg (by simp [hthrow])]
    exact UtxoMap.view_insert m o coin

section Top
variable {c : Cache} {base : CoinsView} {m below : UtxoMap} {ms : List UtxoMap} {o : OutPoint}

theorem Represents.cached_iff :
    Represents (.cached c base) (m :: ms) ↔
      Represents base ms ∧ c.Coherent base.peekCoin ∧ c.view base.peekCoin = m.view := by
  constructor
  · intro h
    obtain ⟨hview, hviews⟩ := List.cons.inj h.views
    exact ⟨⟨h.coherent.1, hviews⟩, h.coherent.2, hview⟩
  · rintro ⟨hbase, hcoh, hview⟩
    exact ⟨⟨hbase.coherent, hcoh⟩, congrArg₂ List.cons hview hbase.views⟩

theorem Represents.eq_cons {v : CoinsView} (h : Represents v ms) : ∃ m ms', ms = m :: ms' := by
  have hviews := h.views
  rw [CoinsView.views_eq_cons] at hviews
  cases ms with
  | nil => cases hviews
  | cons m ms => exact ⟨m, ms, rfl⟩

theorem Represents.backing {db : Backing} (h : Represents (.backing db) ms) : ms = [db.coins] := by
  have hviews : [db.coins].map UtxoMap.view = ms.map UtxoMap.view := h.views
  have hinj : Function.Injective UtxoMap.view := fun _ _ h => Finmap.ext_lookup fun o => congrFun h o
  exact (List.map_injective_iff.mpr hinj hviews).symm

theorem Represents.peekCoin {v : CoinsView} (h : Represents v (m :: ms)) :
    v.peekCoin = m.view := by
  have hviews := h.views
  rw [CoinsView.views_eq_cons] at hviews
  exact (List.cons.inj hviews).1

theorem Represents.fetched_coin (h : Represents (.cached c base) (m :: ms)) (o : OutPoint) :
    (match (CoinsView.fetchCoin c base o).1 with
      | some e => e.coin
      | none => Coin.empty) = m.accessCoin o := by
  have hfetch := CoinsView.fetchCoin_fetched h.coherent o
  have hanswer := hfetch.answer
  rw [h.peekCoin] at hanswer
  change _ = ((m.view o).map Subtype.val).getD Coin.empty
  rw [← hanswer]
  cases he : (CoinsView.fetchCoin c base o).1 with
  | none => rfl
  | some e =>
    cases hs : e.coin.isSpent with
    | true =>
      rw [Option.bind_some, Coin.toUnspent_of_spent hs]
      exact hfetch.coherent.2.spent (hfetch.entry.trans he) hs
    | false =>
      rw [Option.bind_some, Coin.toUnspent_of_unspent hs]
      rfl

theorem Represents.haveCoin (h : Represents (.cached c base) (m :: ms)) (o : OutPoint) :
    (CoinsView.haveCoin c base o).1 = m.haveCoin o := by
  have hanswer := (CoinsView.fetchCoin_fetched h.coherent o).answer
  rw [h.peekCoin] at hanswer
  change ((CoinsView.fetchCoin c base o).1.any fun e => !e.coin.isSpent) = (m.view o).isSome
  rw [← hanswer]
  cases (CoinsView.fetchCoin c base o).1 with
  | none => rfl
  | some e =>
    rw [Option.any_some, Option.bind_some]
    cases hs : e.coin.isSpent with
    | true => rw [Coin.toUnspent_of_spent hs]; rfl
    | false => rw [Coin.toUnspent_of_unspent hs]; rfl

theorem Represents.fetched (h : Represents (.cached c base) ms) (o : OutPoint) :
    Represents (.cached (CoinsView.fetchCoin c base o).2.1 (CoinsView.fetchCoin c base o).2.2)
      ms := by
  have hfetch := CoinsView.fetchCoin_fetched h.coherent o
  exact ⟨hfetch.coherent, hfetch.views.trans h.views⟩

theorem Represents.spendCoin (h : Represents (.cached c base) (m :: ms)) (o : OutPoint) :
    (CoinsView.spendCoin c base o).1.2 = m.accessCoin o ∧
      Represents (CoinsView.spendCoin c base o).2 (m.spendCoin o :: ms) := by
  have hfetch := CoinsView.fetchCoin_fetched h.coherent o
  have hkept := h.fetched o
  have hcoin := h.fetched_coin o
  have hanswer := hfetch.answer
  rw [h.peekCoin] at hanswer
  cases he : (CoinsView.fetchCoin c base o).1 with
  | none =>
    rw [he] at hcoin hanswer
    simp only [CoinsView.spendCoin, he]
    refine ⟨hcoin, ?_⟩
    obtain ⟨hbase, hcoh, hview⟩ := Represents.cached_iff.mp hkept
    refine Represents.cached_iff.mpr ⟨hbase, hcoh, hview.trans ?_⟩
    rw [UtxoMap.spendCoin, UtxoMap.view_erase]
    exact (Function.update_eq_self_iff.mpr hanswer).symm
  | some e =>
    rw [he] at hcoin
    simp only [CoinsView.spendCoin, he]
    refine ⟨hcoin, ?_⟩
    obtain ⟨hbase, hcoh, hview⟩ := Represents.cached_iff.mp hkept
    obtain ⟨hcoh', hview'⟩ := hcoh.spendEntry (hfetch.entry.trans he)
    refine Represents.cached_iff.mpr ⟨hbase, hcoh', ?_⟩
    rw [hview', hview, UtxoMap.spendCoin, UtxoMap.view_erase]

theorem Represents.callTop (h : Represents (.cached c base) (m :: below :: ms)) {op : CacheOp}
    (hadm : op.Admissible m) :
    ∃ v', CoinsView.callTop c base op = .ok (v', (specTop m below ms op).2) ∧
      Represents v' (specTop m below ms op).1 := by
  obtain ⟨hbase, hcoh, hview⟩ := Represents.cached_iff.mp h
  have hwritten : c.view base.peekCoin :: c.view base.peekCoin :: base.views.tail
      = (m :: m :: ms).map UtxoMap.view := by
    rw [hview, hbase.views]
    rfl
  cases op with
  | addCoin o coin ow =>
    have hnone : ow = false → c.view base.peekCoin o = none := by
      intro how
      rw [hview]
      exact UtxoMap.haveCoin_eq_false_iff.mp (hadm how)
    obtain ⟨c', hrun, hcoh', hview'⟩ := hcoh.addCoin coin.property hnone
    refine ⟨.cached c' base, ?_, Represents.cached_iff.mpr ⟨hbase, hcoh', ?_⟩⟩
    · simp [CoinsView.callTop, hrun, Except.map, specTop]
    · rw [hview', hview, UtxoMap.view_addCoin hadm, UnspentCoin.toUnspent]
  | spendCoin o =>
    obtain ⟨hcoin, hrep⟩ := h.spendCoin o
    refine ⟨_, ?_, hrep⟩
    rw [CoinsView.callTop, hcoin, specTop]
  | getCoin o =>
    obtain ⟨hanswer, hcoh', hviews⟩ := h.coherent.getCoin o
    rw [h.peekCoin] at hanswer
    refine ⟨_, ?_, hcoh', hviews.trans h.views⟩
    simp only [CoinsView.callTop, hanswer, specTop]
    rfl
  | haveCoin o =>
    refine ⟨_, ?_, h.fetched o⟩
    rw [CoinsView.callTop, h.haveCoin o]
    rfl
  | peekCoin o =>
    refine ⟨_, ?_, h⟩
    rw [CoinsView.callTop, h.peekCoin]
    rfl
  | accessCoin o =>
    refine ⟨_, ?_, h.fetched o⟩
    rw [specTop, ← h.fetched_coin o]
    rfl
  | uncache o =>
    obtain ⟨hcoh', hview'⟩ := hcoh.uncache o
    exact ⟨_, rfl, Represents.cached_iff.mpr ⟨hbase, hcoh', hview'.trans hview⟩⟩
  | sync =>
    obtain ⟨v', hrun, hcoh', hviews⟩ := h.coherent.sync
    refine ⟨v', ?_, hcoh', hviews.trans hwritten⟩
    simp [CoinsView.callTop, hrun, Except.map, specTop]
  | flush =>
    obtain ⟨v', hrun, hcoh', hviews⟩ := h.coherent.flush
    refine ⟨v', ?_, hcoh', hviews.trans hwritten⟩
    simp [CoinsView.callTop, hrun, Except.map, specTop]
  | reset =>
    refine ⟨_, rfl, Represents.cached_iff.mpr ⟨hbase, Cache.coherent_of_empty rfl rfl, ?_⟩⟩
    exact hbase.peekCoin

end Top

section Depth
variable {v : CoinsView} {ms : List UtxoMap} {op : CacheOp} {d : ℕ}

theorem specTop_head {m below : UtxoMap} (hop : op.changes = false) :
    ∃ ms', (specTop m below ms op).1 = m :: ms' := by
  cases op with
  | addCoin | spendCoin | reset => cases hop
  | getCoin | haveCoin | peekCoin | accessCoin | uncache | sync | flush => exact ⟨_, rfl⟩

@[simp] theorem specAt_length : (specAt d ms op).1.length = ms.length := by
  induction d generalizing ms with
  | zero =>
    rcases ms with _ | ⟨m, _ | ⟨below, ms⟩⟩
    · rfl
    · rfl
    · cases op <;> rfl
  | succ d ih =>
    cases ms with
    | nil => rfl
    | cons m ms => rw [specAt, List.length_cons, ih, List.length_cons]

theorem specAt_head {m : UtxoMap} (hop : op.changes = false) :
    ∃ ms', (specAt d (m :: ms) op).1 = m :: ms' := by
  cases d with
  | zero =>
    cases ms with
    | nil => exact ⟨_, rfl⟩
    | cons below ms => exact specTop_head hop
  | succ d =>
    refine ⟨(specAt d ms op).1, ?_⟩
    simp [specAt, hop]

theorem Cache.Coherent.flagged_eq_nil {c : Cache} {below : OutPoint → Option UnspentCoin}
    (h : c.Coherent below) (hempty : c.cacheCoins = ∅) : c.flagged = [] := by
  apply List.eq_nil_iff_forall_not_mem.mpr
  intro o ho
  obtain ⟨e, he, -⟩ := (h.linked o).mp ho
  rw [hempty] at he
  cases he

theorem Represents.callAt (h : Represents v ms) (hlegal : v.LegalAt d ms op) :
    ∃ v', v.callAt d op = .ok (v', (specAt d ms op).2) ∧ Represents v' (specAt d ms op).1 := by
  induction d generalizing v ms with
  | zero =>
    rcases v with db | ⟨c, base⟩
    · cases hlegal
    rcases ms with _ | ⟨m, ms⟩
    · cases hlegal
    obtain ⟨below, ms, rfl⟩ := (Represents.cached_iff.mp h).1.eq_cons
    exact h.callTop hlegal
  | succ d ih =>
    rcases v with db | ⟨c, base⟩
    · cases hlegal
    rcases ms with _ | ⟨m, ms⟩
    · cases hlegal
    obtain ⟨hempty, hbelow⟩ := hlegal
    obtain ⟨hbase, hcoh, hview⟩ := Represents.cached_iff.mp h
    obtain ⟨base', hrun, hrep⟩ := ih hbase hbelow
    refine ⟨.cached c base', ?_, ?_⟩
    · simp [CoinsView.callAt, hrun, Except.map, specAt]
    simp only [specAt]
    -- Below a change the caches are empty; any other call keeps what they stand on.
    cases hop : op.changes with
    | true =>
      have hc := hempty hop
      refine Represents.cached_iff.mpr ⟨hrep,
        Cache.coherent_of_empty hc (hcoh.flagged_eq_nil hc), ?_⟩
      rw [Cache.view_of_empty hc]
      obtain ⟨m', ms', hspec⟩ := hrep.eq_cons
      rw [hspec] at hrep ⊢
      exact hrep.peekCoin
    | false =>
      have hsame : base'.peekCoin = base.peekCoin := by
        obtain ⟨m₁, ms₁, rfl⟩ := hbase.eq_cons
        obtain ⟨ms', hspec⟩ : ∃ ms', (specAt d (m₁ :: ms₁) op).1 = m₁ :: ms' := specAt_head hop
        rw [hspec] at hrep
        rw [hrep.peekCoin, hbase.peekCoin]
      refine Represents.cached_iff.mpr ⟨hrep, ?_, ?_⟩
      · rwa [hsame]
      · rw [hsame, hview, if_neg Bool.false_ne_true]

end Depth

def flushAll (n : ℕ) : List (ℕ × CacheOp) := (List.range n).map fun d => (d, .flush)

section Run
variable {v : CoinsView} {ms : List UtxoMap}

theorem flushAll_succ (n : ℕ) :
    flushAll (n + 1) = (0, .flush) :: (flushAll n).map fun a => (a.1 + 1, a.2) := by
  rw [flushAll, List.range_succ_eq_map, List.map_cons, List.map_map, flushAll, List.map_map]
  rfl

theorem runSpec_below (m : UtxoMap) {calls : List (ℕ × CacheOp)}
    (hcalls : ∀ a ∈ calls, a.2.changes = false) :
    (runSpec specCall (m :: ms) (calls.map fun a => (a.1 + 1, a.2))).1 =
      m :: (runSpec specCall ms calls).1 := by
  induction calls generalizing ms with
  | nil => rfl
  | cons a calls ih =>
    have hkeep : (specCall (m :: ms) (a.1 + 1, a.2)).1 = m :: (specCall ms a).1 := by
      simp [specCall, specAt, hcalls a List.mem_cons_self]
    rw [List.map_cons, runSpec, hkeep]
    exact ih fun b hb => hcalls b (List.mem_cons_of_mem a hb)

theorem runSpec_flushAll (m : UtxoMap) (ms : List UtxoMap) :
    (runSpec specCall (m :: ms) (flushAll ms.length)).1 = List.replicate (ms.length + 1) m := by
  induction ms generalizing m with
  | nil => rfl
  | cons below ms ih =>
    have hflush : (specCall (m :: below :: ms) (0, .flush)).1 = m :: m :: ms := rfl
    rw [List.length_cons, flushAll_succ, runSpec, hflush, runSpec_below m, ih m]
    · rfl
    · intro a ha
      obtain ⟨d, -, rfl⟩ := List.mem_map.mp ha
      rfl

theorem Represents.legalAt_flush {d : ℕ} (h : Represents v ms) (hd : d + 1 < ms.length) :
    v.LegalAt d ms .flush := by
  induction v generalizing d ms with
  | backing db =>
    rw [h.backing, List.length_singleton] at hd
    omega
  | cached c base ih =>
    obtain ⟨m, ms, rfl⟩ := h.eq_cons
    cases d with
    | zero => trivial
    | succ d =>
      refine ⟨fun hchange => Bool.noConfusion hchange, ?_⟩
      exact ih (Represents.cached_iff.mp h).1 (Nat.lt_of_succ_lt_succ hd)

theorem Represents.getLast (h : Represents v ms) : ms.getLast? = some v.backingMap := by
  induction v generalizing ms with
  | backing db =>
    rw [h.backing]
    rfl
  | cached c base ih =>
    obtain ⟨m, ms, rfl⟩ := h.eq_cons
    rw [List.getLast?_cons, ih (Represents.cached_iff.mp h).1]
    rfl

theorem represents_stack (kinds : List Bool) (db : Backing) :
    Represents (.stack kinds db) (List.replicate (kinds.length + 1) db.coins) := by
  induction kinds with
  | nil => exact ⟨trivial, rfl⟩
  | cons kind kinds ih =>
    refine Represents.cached_iff.mpr ⟨ih, Cache.coherent_of_empty rfl rfl, ?_⟩
    exact ih.peekCoin

/-- A stack of `n` caches that stands for these maps. -/
def Stands (n : ℕ) (v : CoinsView) (ms : List UtxoMap) : Prop :=
  Represents v ms ∧ ms.length = n + 1

theorem stands_call (n : ℕ) (v : CoinsView) (ms : List UtxoMap) (a : ℕ × CacheOp)
    (h : Stands n v ms) (hlegal : v.Legal ms a) :
    ∃ v', v.call a = .ok (v', (specCall ms a).2) ∧ Stands n v' (specCall ms a).1 := by
  obtain ⟨v', hrun, hrep⟩ := h.1.callAt hlegal
  exact ⟨v', hrun, hrep, specAt_length.trans h.2⟩

theorem Represents.flushAll {m : UtxoMap} (h : Represents v (m :: ms)) :
    ∃ w replies, runMachine CoinsView.call v (flushAll ms.length) = .ok (w, replies) ∧
      w.backingMap = m := by
  have hstands : Stands ms.length v (m :: ms) := ⟨h, List.length_cons⟩
  have hlegal : LegalRun CoinsView.call specCall CoinsView.Legal v (m :: ms)
      (Tarcoin.flushAll ms.length) := by
    apply legalRun_of_forall (stands_call ms.length) hstands
    intro a ha v' ms' hrel
    obtain ⟨d, hd, rfl⟩ := List.mem_map.mp ha
    apply hrel.1.legalAt_flush
    have hlen := hrel.2
    have := List.mem_range.mp hd
    omega
  obtain ⟨w, hrun, hrep, -⟩ := runMachine_simulates (stands_call ms.length) hstands hlegal
  rw [runSpec_flushAll] at hrep
  have hlast := hrep.getLast
  rw [List.replicate_succ', List.getLast?_concat] at hlast
  exact ⟨w, _, hrun, (Option.some.inj hlast).symm⟩

/-- Any legal calls of the caches of a stack succeed and reply what the maps reply, and when all
levels are flushed, the backing map is the map of the top level. -/
theorem cache_refines_map (kinds : List Bool) (db : Backing) (calls : List (ℕ × CacheOp))
    (hlegal : LegalRun CoinsView.call specCall CoinsView.Legal (.stack kinds db)
      (List.replicate (kinds.length + 1) db.coins) calls) :
    ∃ v w replies,
      runMachine CoinsView.call (.stack kinds db) calls =
        .ok (v, (runSpec specCall (List.replicate (kinds.length + 1) db.coins) calls).2) ∧
      runMachine CoinsView.call v (flushAll kinds.length) = .ok (w, replies) ∧
      (runSpec specCall (List.replicate (kinds.length + 1) db.coins) calls).1.head? =
        some w.backingMap := by
  obtain ⟨v, hrun, hrep, hlen⟩ := runMachine_simulates (stands_call kinds.length)
    ⟨represents_stack kinds db, List.length_replicate⟩ hlegal
  obtain ⟨m, ms, hspec⟩ := hrep.eq_cons
  rw [hspec] at hrep hlen ⊢
  have hn : ms.length = kinds.length := Nat.succ.inj hlen
  obtain ⟨w, replies, hflush, hmap⟩ := hrep.flushAll
  rw [hn] at hflush
  exact ⟨v, w, replies, hrun, hflush, congrArg some hmap.symm⟩

def sampleCoin : UnspentCoin := ⟨⟨⟨1, [0x51]⟩, false, 1⟩, rfl⟩

def sampleOutPoint : OutPoint := ⟨1, 0⟩

/-- The upper cache adds a coin and is flushed; then the lower one, which now has it, spends it. -/
def sampleCalls : List (ℕ × CacheOp) :=
  [(0, .addCoin sampleOutPoint sampleCoin false), (1, .haveCoin sampleOutPoint), (0, .flush),
    (1, .spendCoin sampleOutPoint), (0, .peekCoin sampleOutPoint)]

theorem cache_refines_map_sample :
    ∃ v w replies,
      runMachine CoinsView.call (.stack [true, false] ⟨∅, 0⟩) sampleCalls =
        .ok (v, [.done, .found false, .done, .coin sampleCoin.val, .optional none]) ∧
      runMachine CoinsView.call v (flushAll 2) = .ok (w, replies) ∧
      some (∅ : UtxoMap) = some w.backingMap := by
  refine cache_refines_map [true, false] ⟨∅, 0⟩ sampleCalls ?_
  refine ⟨fun _ => rfl, fun r hr => ?_⟩
  cases hr
  refine ⟨⟨(Bool.noConfusion ·), trivial⟩, fun r hr => ?_⟩
  cases hr
  refine ⟨trivial, fun r hr => ?_⟩
  cases hr
  refine ⟨⟨fun _ => rfl, trivial⟩, fun r hr => ?_⟩
  cases hr
  exact ⟨trivial, fun _ _ => trivial⟩

end Run

end Tarcoin
