import Tarcoin.Consensus.Merkle
import Tarcoin.Pool.Job

/-! The list with the `null` in front is the tail of the node's list at every level, so the loop
takes out the path of the first leaf. -/
namespace Tarcoin.Pool
open MerkleTree

def getHex (hash : Bytes 32) : Text := Hex.encode hash.val.reverse

section Branch
variable (rt : Runtime)

def levelOf (hashes : List (Bytes 32)) : List (Option (List UInt8)) := hashes.map fun h => some h.val

theorem joinLevel_levelOf {n : ℕ} (hashes : List (Bytes 32)) (h : hashes.length = 2 * n) :
    joinLevel rt (levelOf hashes) = .ok (levelOf (joinPairs (sha256D64 rt.sha256) hashes)) := by
  induction n generalizing hashes with
  | zero =>
    obtain rfl := List.length_eq_zero_iff.mp h
    rfl
  | succ n ih =>
    obtain ⟨a, hashes, rfl⟩ := List.exists_cons_of_length_eq_add_one (show _ = 2 * n + 1 + 1 from h)
    obtain ⟨b, hashes, rfl⟩ := List.exists_cons_of_length_eq_add_one (Nat.succ.inj h)
    have hrest : hashes.length = 2 * n := by
      simp only [List.length_cons] at h
      omega
    simp only [levelOf, List.map_cons, joinLevel, joinPairs] at ih ⊢
    rw [ih hashes hrest]
    rfl

theorem pad_levelOf {hashes : List (Bytes 32)} (hne : hashes ≠ []) :
    (if (none :: levelOf hashes).length % 2 ≠ 0 then
        none :: levelOf hashes ++ (none :: levelOf hashes).getLast?.toList
      else none :: levelOf hashes) = none :: levelOf (padRest hashes) := by
  obtain ⟨h, rest, rfl⟩ := List.exists_cons_of_ne_nil hne
  have hlast : (none :: levelOf (h :: rest)).getLast? =
      (h :: rest).getLast?.map fun h => some h.val := by
    have hmap : (levelOf (h :: rest)).getLast? = (h :: rest).getLast?.map fun h => some h.val :=
      List.getLast?_map
    rw [← hmap]
    exact List.getLast?_cons_cons
  have hodd : (none :: levelOf (h :: rest)).length % 2 ≠ 0 ↔ (h :: rest).length % 2 = 0 := by
    simp only [levelOf, List.length_cons, List.length_map]
    omega
  rw [hlast]
  unfold padRest
  simp only [hodd]
  split_ifs
  · obtain ⟨last, hl⟩ := Option.ne_none_iff_exists'.mp (mt List.getLast?_eq_none_iff.mp hne)
    simp [hl, levelOf]
  · rfl

theorem merkleLevels_levelOf (fuel : ℕ) (hashes : List (Bytes 32)) :
    merkleLevels rt fuel (none :: levelOf hashes) =
      .ok (levelOf (firstPath (sha256D64 rt.sha256) fuel hashes)) := by
  induction fuel generalizing hashes with
  | zero => rfl
  | succ fuel ih =>
    rcases eq_or_ne hashes [] with rfl | hne
    · rfl
    have hlen := length_padRest hne
    obtain ⟨sibling, rest, hpad⟩ := List.exists_cons_of_length_pos
      (show 0 < (padRest hashes).length by omega)
    have heven : rest.length = 2 * (hashes.length / 2) := by
      rw [hpad, List.length_cons] at hlen
      omega
    have hlong : ¬ (none :: levelOf hashes).length ≤ 1 := by
      have := List.length_pos_of_ne_nil hne
      simp only [levelOf, List.length_cons, List.length_map]
      omega
    have hdrop : (none :: levelOf (sibling :: rest)).drop 2 = levelOf rest := rfl
    have hget : (none :: levelOf (sibling :: rest))[1]?.join = some sibling.val := rfl
    rw [merkleLevels, if_neg hlong, pad_levelOf hne]
    simp only [hdrop, hget, joinLevel_levelOf rt rest heven, firstPath, hpad]
    change (do
      let above ← merkleLevels rt fuel (none :: levelOf _)
      Except.ok (some sibling.val :: above)) = _
    rw [ih]
    rfl

theorem mapM_levelOf (hashes : List (Bytes 32)) :
    ((levelOf hashes).mapM fun b => match b with
      | some b => (.ok (Hex.encode b) : Except JsError Text)
      | none => .error .typeError) = .ok (hashes.map fun h => Hex.encode h.val) := by
  induction hashes with
  | nil => rfl
  | cons h hashes ih =>
    simp only [levelOf, List.map_cons, List.mapM_cons] at ih ⊢
    rw [ih]
    rfl

theorem merkleBranch_getHex (txids : List (Bytes 32)) :
    merkleBranch rt (txids.map getHex) =
      .ok ((firstPath (sha256D64 rt.sha256) (txids.length + 1) txids).map fun h =>
        Hex.encode h.val) := by
  rcases eq_or_ne txids [] with rfl | hne
  · rfl
  have hlevel : (txids.map getHex).map (fun h => some (Hex.decode h).reverse) = levelOf txids := by
    simp [levelOf, getHex, Function.comp_def]
  have hcount : (none :: levelOf txids).length = txids.length + 1 := by simp [levelOf]
  rw [merkleBranch, if_neg (by simpa using hne)]
  simp only [hlevel, hcount, merkleLevels_levelOf]
  exact mapM_levelOf _

theorem merkleFold_encode (coinbaseTxid : Bytes 32) (branch : List (Bytes 32)) :
    merkleFold rt coinbaseTxid (branch.map fun h => Hex.encode h.val) =
      branch.foldl (sha256D64 rt.sha256) coinbaseTxid := by
  simp only [merkleFold, List.foldl_map, Hex.decode_encode]
  rfl

/-- Folding the branch over the coinbase id gives the node's merkle root. -/
theorem merkleFold_merkleBranch (coinbaseTxid : Bytes 32) (txids : List (Bytes 32)) :
    (merkleBranch rt (txids.map getHex)).map (merkleFold rt coinbaseTxid) =
      .ok (computeMerkleRoot rt.sha256 (coinbaseTxid :: txids)).1 := by
  rw [merkleBranch_getHex, Except.map, merkleFold_encode, computeMerkleRoot_cons]

end Branch

end Tarcoin.Pool
