import Mathlib.Data.List.NodupEquivFin

/-! Items are matched with keys in order, the first item left with the first key that fits it. No
other assignment in order does better. -/
namespace GreedyMatch

variable {ι κ : Type} (ok : ι → κ → Bool)

/-- Try each key on the first item not matched yet; whether all items find a key. -/
def greedy : List κ → List ι → Bool
  | _, [] => true
  | [], _ :: _ => false
  | k :: keys, a :: items => if ok a k then greedy keys items else greedy keys (a :: items)

theorem greedy_cons_cons (k : κ) (keys : List κ) (a : ι) (items : List ι) :
    greedy ok (k :: keys) (a :: items) =
      if ok a k then greedy ok keys items else greedy ok keys (a :: items) := rfl

/-- The items can be matched, each with a key of its own, in the order of the keys. -/
def Matched (keys : List κ) (items : List ι) : Prop :=
  List.SublistForall₂ (fun a k => ok a k = true) items keys

variable {ok}

variable {keys : List κ} {items : List ι} {a : ι} {k : κ}

theorem Matched.length_le (h : Matched ok keys items) : items.length ≤ keys.length := by
  obtain ⟨chosen, hall, hsub⟩ := List.sublistForall₂_iff.mp h
  rw [hall.length_eq]
  exact hsub.length_le

theorem Matched.tail (h : Matched ok keys (a :: items)) : Matched ok keys items := by
  obtain ⟨chosen, hall, hsub⟩ := List.sublistForall₂_iff.mp h
  cases hall with
  | cons _ hrest => exact List.sublistForall₂_iff.mpr ⟨_, hrest, List.sublist_of_cons_sublist hsub⟩

theorem matched_cons_of_ok (h : ok a k = true) :
    Matched ok (k :: keys) (a :: items) ↔ Matched ok keys items := by
  constructor
  · intro hm
    cases hm with
    | cons _ hrest => exact hrest
    | cons_right hrest => exact Matched.tail hrest
  · exact fun hm => .cons h hm

theorem matched_cons_of_not_ok (h : ok a k = false) :
    Matched ok (k :: keys) (a :: items) ↔ Matched ok keys (a :: items) := by
  constructor
  · intro hm
    cases hm with
    | cons hfirst _ =>
      rw [h] at hfirst
      cases hfirst
    | cons_right hrest => exact hrest
  · exact fun hm => .cons_right hm

theorem greedy_iff (keys : List κ) (items : List ι) :
    greedy ok keys items = true ↔ Matched ok keys items := by
  induction keys generalizing items with
  | nil =>
    cases items with
    | nil => exact ⟨fun _ => .nil, fun _ => rfl⟩
    | cons a items =>
      constructor
      · intro h
        cases h
      · intro hm
        have hlen := hm.length_le
        simp at hlen
  | cons k keys ih =>
    cases items with
    | nil =>
      exact ⟨fun _ => .nil, fun _ => rfl⟩
    | cons a items =>
      rw [greedy_cons_cons]
      cases hok : ok a k with
      | true => rw [if_pos rfl, ih, matched_cons_of_ok hok]
      | false => rw [if_neg Bool.false_ne_true, ih, matched_cons_of_not_ok hok]

/-- With fewer keys than items the walk can be given up. -/
theorem greedy_of_length_lt (h : keys.length < items.length) : greedy ok keys items = false := by
  rw [← Bool.not_eq_true, greedy_iff]
  intro hm
  exact absurd hm.length_le (Nat.not_le.mpr h)

theorem matched_iff_strictMono (keys : List κ) (items : List ι) :
    Matched ok keys items ↔ ∃ f : Fin items.length → Fin keys.length, StrictMono f ∧
      ∀ i, ok (items.get i) (keys.get (f i)) = true := by
  constructor
  · intro hm
    obtain ⟨chosen, hall, hsub⟩ := List.sublistForall₂_iff.mp hm
    obtain ⟨hlen, hok⟩ := List.forall₂_iff_get.mp hall
    obtain ⟨f, hf⟩ := List.sublist_iff_exists_fin_orderEmbedding_get_eq.mp hsub
    refine ⟨fun i => f (Fin.cast hlen i), fun i j hij => f.strictMono hij, fun i => ?_⟩
    rw [← hf]
    exact hok i.1 i.2 (hlen ▸ i.2)
  · intro hm
    obtain ⟨f, hf, hok⟩ := hm
    apply List.sublistForall₂_iff.mpr
    refine ⟨List.ofFn fun i => keys.get (f i), ?_, ?_⟩
    · apply List.forall₂_iff_get.mpr
      refine ⟨List.length_ofFn.symm, fun i hi _ => ?_⟩
      simpa using hok ⟨i, hi⟩
    · apply List.sublist_iff_exists_fin_orderEmbedding_get_eq.mpr
      refine ⟨(Fin.castOrderIso List.length_ofFn).toOrderEmbedding.trans
        (OrderEmbedding.ofStrictMono f hf), fun i => ?_⟩
      rw [List.get_ofFn]
      rfl

end GreedyMatch
