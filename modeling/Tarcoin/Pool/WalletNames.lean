import Mathlib
import Tarcoin.KeyIO.AddressRoundTrip
import Tarcoin.Pool.Names

/-! The letters of an address are also those of a `.tar` name, so an address is taken for such a
name when the rig is called `tar`. -/
namespace Tarcoin.Pool

def trimEnd (s : Text) : Text := (s.reverse.dropWhile isSpace).reverse

/-- The name of a rig that turns the text before it into a `.tar` name: `tar` in any case, alone or
with a further name after a dot. -/
def CompletesTar (worker : Text) : Prop :=
  (worker.take 3).map Char.toLower = "tar".toList ∧
    (worker.drop 3 = [] ∨ ∃ rest, worker.drop 3 = '.' :: rest ∧ rest ≠ [] ∧ rest.any isLineEnd = false)

section Addresses

variable {a w : Text}

theorem isNameChar_of_isLowerOrDigit {c : Char} (h : isLowerOrDigit c = true) :
    isNameChar c = true := by
  unfold isLowerOrDigit at h
  unfold isNameChar Char.isAlphanum Char.isAlpha
  cases hlower : c.isLower <;> simp_all

theorem toNat_of_isLowerOrDigit {c : Char} (h : isLowerOrDigit c = true) :
    48 ≤ c.toNat ∧ c.toNat ≤ 57 ∨ 97 ≤ c.toNat ∧ c.toNat ≤ 122 := by
  have hlower : 'a'.val.toNat = 97 ∧ 'z'.val.toNat = 122 := ⟨rfl, rfl⟩
  have hdigit : '0'.val.toNat = 48 ∧ '9'.val.toNat = 57 := ⟨rfl, rfl⟩
  simp only [isLowerOrDigit, Char.isLower, Char.isDigit, Bool.or_eq_true, Bool.and_eq_true,
    decide_eq_true_eq, UInt32.le_iff_toNat_le, ge_iff_le] at h
  change _ ≤ c.val.toNat ∧ c.val.toNat ≤ _ ∨ _ ≤ c.val.toNat ∧ c.val.toNat ≤ _
  omega

theorem isSpace_of_isLowerOrDigit {c : Char} (h : isLowerOrDigit c = true) : isSpace c = false := by
  have hrange := toNat_of_isLowerOrDigit h
  simp only [isSpace, List.contains_cons, List.contains_nil, Bool.or_eq_false_iff,
    Bool.and_eq_false_iff, decide_eq_false_iff_not, beq_eq_false_iff_ne, and_true]
  omega

theorem ne_dot_of_isLowerOrDigit {c : Char} (h : isLowerOrDigit c = true) : c ≠ '.' := by
  intro hdot
  have hrange := toNat_of_isLowerOrDigit h
  rw [hdot] at hrange
  exact absurd hrange (by decide)

theorem trim_address (hne : a ≠ []) (hchars : ∀ c ∈ a, isLowerOrDigit c = true) :
    trim (a ++ '.' :: w) = a ++ '.' :: trimEnd w := by
  have hstart : (a ++ '.' :: w).dropWhile isSpace = a ++ '.' :: w := by
    obtain ⟨c, rest, rfl⟩ := List.exists_cons_of_ne_nil hne
    simp [isSpace_of_isLowerOrDigit (hchars c List.mem_cons_self)]
  have hdot : ('.' :: a.reverse).dropWhile isSpace = '.' :: a.reverse :=
    List.dropWhile_cons_of_neg (by decide)
  rw [trim, hstart, List.reverse_append, List.reverse_cons, List.append_assoc, List.singleton_append,
    List.dropWhile_append, trimEnd]
  split_ifs with hempty
  · rw [hdot, List.isEmpty_iff.mp hempty]
    simp
  · simp

theorem matchTar_address (hne : a ≠ []) (hchars : ∀ c ∈ a, isLowerOrDigit c = true) :
    matchTar (a ++ '.' :: w) = none ↔ ¬ CompletesTar w := by
  have hlabel : (a ++ '.' :: w).takeWhile isNameChar = a := by
    rw [List.takeWhile_append_of_pos fun c hc => isNameChar_of_isLowerOrDigit (hchars c hc),
      List.takeWhile_cons_of_neg (by decide), List.append_nil]
  unfold matchTar
  dsimp only
  rw [hlabel, List.drop_left, CompletesTar]
  have htake : (('.' :: w).take 4).map Char.toLower = '.' :: (w.take 3).map Char.toLower := rfl
  have hdrop : ('.' :: w).drop 4 = w.drop 3 := rfl
  have htar : ".tar".toList = '.' :: "tar".toList := rfl
  rw [htake, hdrop, htar]
  by_cases hcase : (w.take 3).map Char.toLower = "tar".toList
  · rw [if_neg (not_or.mpr ⟨hne, not_not.mpr (congrArg _ hcase)⟩), and_iff_right hcase]
    generalize w.drop 3 = tail
    cases tail with
    | nil => simp
    | cons c rest =>
      by_cases hc : c = '.'
      · subst hc
        have hrest : (∃ worker, '.' :: rest = '.' :: worker ∧ worker ≠ [] ∧
            worker.any isLineEnd = false) ↔ ¬(rest = [] ∨ rest.any isLineEnd = true) := by
          simp
        rw [hrest]
        change (if rest = [] ∨ rest.any isLineEnd = true then none else some _) = none ↔ _
        split_ifs with hworker
        · exact iff_of_true rfl fun h => h.elim nofun fun h => h hworker
        · exact iff_of_false nofun fun h => h (.inr hworker)
      · split
        · contradiction
        · rename_i heq
          exact absurd (List.cons.inj heq).1 hc
        · simp [hc]
  · rw [if_pos (.inr fun heq => hcase (List.cons.inj heq).2)]
    exact iff_of_true rfl fun h => hcase h.1

end Addresses

/-- A rig keeps its wallet exactly when its name, without white space at the end, does not turn the
address into a `.tar` name. -/
theorem parseMinerWorker_address_iff (rt : Runtime) (a w : Text) (hne : a ≠ [])
    (hchars : ∀ c ∈ a, isLowerOrDigit c = true) :
    ((parseMinerWorker rt (.str (a ++ '.' :: w))).wallet = a ∧
      (parseMinerWorker rt (.str (a ++ '.' :: w))).isTns = false) ↔ ¬ CompletesTar (trimEnd w) := by
  rw [← matchTar_address hne hchars, parseMinerWorker, if_neg (by simp), trim_address hne hchars]
  dsimp only
  cases hmatch : matchTar (a ++ '.' :: trimEnd w) with
  | some found => simp
  | none =>
    have hwallet : (a ++ '.' :: trimEnd w).takeWhile (· ≠ '.') = a := by
      rw [List.takeWhile_append_of_pos fun c hc =>
          decide_eq_true (ne_dot_of_isLowerOrDigit (hchars c hc)),
        List.takeWhile_cons_of_neg (by decide), List.append_nil]
    simp only [hwallet, and_self]

def sampleAddress : Text := "tar1qqqqqqqqqqqqqqqqqqqqqqqqqqqqqqqqqck3y2w".toList

theorem sampleAddress_lower : ∀ c ∈ sampleAddress, isLowerOrDigit c = true := by
  have hall : sampleAddress.all isLowerOrDigit = true := by decide
  exact List.all_eq_true.mp hall

theorem parseMinerWorker_address_rig :
    (parseMinerWorker .constant (.str (sampleAddress ++ '.' :: "rig1".toList))).wallet =
        sampleAddress ∧
      (parseMinerWorker .constant (.str (sampleAddress ++ '.' :: "rig1".toList))).isTns = false := by
  refine (parseMinerWorker_address_iff .constant sampleAddress "rig1".toList (by decide)
    sampleAddress_lower).mpr fun h => ?_
  exact absurd h.1 (by decide)

/-- A valid address whose rig is called `tar` is taken for a name, which another may own. -/
theorem parseMinerWorker_address_tar :
    (destinationOf zeroHashRules mainAddressParams sampleAddress).isSome = true ∧
      (∀ c ∈ sampleAddress, isLowerOrDigit c = true) ∧
      ∀ rt : Runtime, parseMinerWorker rt (.str (sampleAddress ++ '.' :: "tar".toList)) =
        ⟨rt.toLowerCase (sampleAddress ++ ".tar".toList), "default".toList, true⟩ := by
  refine ⟨by decide +kernel, sampleAddress_lower, fun rt => ?_⟩
  have hmatch : matchTar (trim (sampleAddress ++ '.' :: "tar".toList)) =
      some (sampleAddress ++ ".tar".toList, none) := by decide
  rw [parseMinerWorker, if_neg (by simp)]
  simp only [hmatch, Option.getD_none]

end Tarcoin.Pool
