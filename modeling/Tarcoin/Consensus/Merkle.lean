import Tarcoin.Foundations.MerkleTree
import Tarcoin.Primitives.Transaction

/-! `ComputeMerkleRoot` of `consensus/merkle.cpp`, over hashes as their 32 bytes. -/
namespace Tarcoin
open MerkleTree

section Root
variable (sha256 : List UInt8 → Bytes 32)

/-- One block of `SHA256D64`: the double digest of two hashes. -/
def sha256D64 (a b : Bytes 32) : Bytes 32 := sha256 (sha256 (a.val ++ b.val)).val

def hasEqualPair : List (Bytes 32) → Bool
  | a :: b :: rest => a == b || hasEqualPair rest
  | _ => false

/-- The loop over the levels, for at most `fuel` of them, with its `mutation` flag. -/
def merkleLoop : ℕ → List (Bytes 32) → Bool → List (Bytes 32) × Bool
  | 0, hashes, mutation => (hashes, mutation)
  | fuel + 1, hashes, mutation =>
    if hashes.length ≤ 1 then (hashes, mutation)
    else merkleLoop fuel (joinPairs (sha256D64 sha256) (padOdd hashes))
      (mutation || hasEqualPair hashes)

def nullHash : Bytes 32 := ⟨List.replicate 32 0, List.length_replicate⟩

/-- `ComputeMerkleRoot` with what it leaves in `mutated`. There are never more levels than
hashes. -/
def computeMerkleRoot (hashes : List (Bytes 32)) : Bytes 32 × Bool :=
  let result := merkleLoop sha256 hashes.length hashes false
  (result.1.head?.getD nullHash, result.2)

theorem merkleLoop_fst (fuel : ℕ) (hashes : List (Bytes 32)) (mutation : Bool) :
    (merkleLoop sha256 fuel hashes mutation).1 = reduce (sha256D64 sha256) fuel hashes := by
  induction fuel generalizing hashes mutation with
  | zero => rfl
  | succ fuel ih =>
    rw [merkleLoop, reduce]
    split_ifs
    · rfl
    · exact ih _ _

theorem computeMerkleRoot_cons (hash : Bytes 32) (hashes : List (Bytes 32)) :
    (computeMerkleRoot sha256 (hash :: hashes)).1 =
      (firstPath (sha256D64 sha256) (hashes.length + 1) hashes).foldl (sha256D64 sha256) hash := by
  simp only [computeMerkleRoot, merkleLoop_fst, List.length_cons]
  rw [reduce_cons hash (Nat.le_succ hashes.length)]
  rfl

section Binding

variable {sha256 : List UInt8 → Bytes 32}

theorem hasEqualPair_eq (hashes : List (Bytes 32)) : hasEqualPair hashes = equalPair hashes := by
  induction hashes using List.twoStepInduction with
  | cons_cons a b rest ih _ => rw [hasEqualPair, equalPair, ih]
  | nil => rfl
  | singleton a => rfl

theorem merkleLoop_snd {fuel : ℕ} {hashes : List (Bytes 32)} (h : hashes.length ≤ fuel)
    (mutation : Bool) : (merkleLoop sha256 fuel hashes mutation).2 =
      (mutation || equalPairWithin (sha256D64 sha256) (Nat.clog 2 hashes.length) hashes) := by
  induction fuel generalizing hashes mutation with
  | zero =>
    rw [clog_length_eq_zero (by omega), equalPairWithin, Bool.or_false]
    rfl
  | succ fuel ih =>
    rw [merkleLoop]
    split_ifs with hshort
    · rw [clog_length_eq_zero hshort, equalPairWithin, Bool.or_false]
    · have hlen := length_nextLevel (sha256D64 sha256) hashes
      rw [clog_length_eq_succ (sha256D64 sha256) (by omega), equalPairWithin, ← Bool.or_assoc,
        ← hasEqualPair_eq]
      exact ih (by rw [← nextLevel]; omega) _

theorem level_eq_root (sha256 : List UInt8 → Bytes 32) {hashes : List (Bytes 32)} (hne : hashes ≠ []) :
    level (sha256D64 sha256) (Nat.clog 2 hashes.length) hashes =
      [(computeMerkleRoot sha256 hashes).1] := by
  obtain ⟨root, hroot⟩ := List.length_eq_one_iff.mp (length_level_clog (sha256D64 sha256) hne)
  simp only [computeMerkleRoot, merkleLoop_fst, reduce_eq_level (sha256D64 sha256) le_rfl, hroot]
  rfl

/-- The flag of the longer one of two lists with one root, and that lists of one length are
equal. -/
theorem eq_or_mutated {xs ys : List (Bytes 32)} (hx : xs ≠ []) (hy : ys ≠ [])
    (hfree : CollisionFree (sha256D64 sha256)
      (joinedPairs (sha256D64 sha256) xs ∪ joinedPairs (sha256D64 sha256) ys)
      ({a | a ∈ xs} ∪ {a | a ∈ ys}))
    (hroot : (computeMerkleRoot sha256 xs).1 = (computeMerkleRoot sha256 ys).1) :
    (xs.length = ys.length → xs = ys) ∧
      (xs.length < ys.length → (computeMerkleRoot sha256 ys).2 = true) := by
  have hxroot := level_eq_root sha256 hx
  have hyroot := level_eq_root sha256 hy
  have hdepth : Nat.clog 2 xs.length = Nat.clog 2 ys.length := by
    refine hfree.depth_unique (depth_level le_rfl Set.subset_union_left ?_ _ ?_)
      (depth_level le_rfl Set.subset_union_right ?_ _ ?_) hroot
    · exact fun a ha => .inl ha
    · rw [hxroot]
      exact List.mem_singleton_self _
    · exact fun a ha => .inr ha
    · rw [hyroot]
      exact List.mem_singleton_self _
  obtain ⟨heq, hlonger⟩ := level_binding hfree.inj hdepth rfl
    (fun k hk p hp => .inl ⟨k, hdepth ▸ hk, hp⟩) (fun k hk p hp => .inr ⟨k, hk, hp⟩)
    (by rw [← hdepth, hxroot, hdepth, hyroot, hroot])
  refine ⟨heq, fun hlt => ?_⟩
  rw [computeMerkleRoot, merkleLoop_snd le_rfl, Bool.false_or]
  exact hlonger hlt

/-- A root binds the list it was computed from, as far as no two of the pairs that were hashed and
no leaf collide. Two lists with one root and without the flag are equal; of two different lists
with one root one is longer, and that one has the flag. -/
theorem computeMerkleRoot_binds (sha256 : List UInt8 → Bytes 32) (xs ys : List (Bytes 32))
    (hx : xs ≠ []) (hy : ys ≠ [])
    (hfree : CollisionFree (sha256D64 sha256)
      (joinedPairs (sha256D64 sha256) xs ∪ joinedPairs (sha256D64 sha256) ys)
      ({a | a ∈ xs} ∪ {a | a ∈ ys}))
    (hroot : (computeMerkleRoot sha256 xs).1 = (computeMerkleRoot sha256 ys).1) :
    ((computeMerkleRoot sha256 xs).2 = false → (computeMerkleRoot sha256 ys).2 = false →
      xs = ys) ∧
    (xs ≠ ys → (xs.length < ys.length ∧ (computeMerkleRoot sha256 ys).2 = true) ∨
      (ys.length < xs.length ∧ (computeMerkleRoot sha256 xs).2 = true)) := by
  obtain ⟨heq, hlong⟩ := eq_or_mutated hx hy hfree hroot
  have hswap := hfree
  rw [Set.union_comm, Set.union_comm {a | a ∈ xs}] at hswap
  obtain ⟨-, hlong'⟩ := eq_or_mutated hy hx hswap hroot.symm
  have hdiff (hne : xs ≠ ys) : (xs.length < ys.length ∧ (computeMerkleRoot sha256 ys).2 = true) ∨
      (ys.length < xs.length ∧ (computeMerkleRoot sha256 xs).2 = true) := by
    rcases lt_trichotomy xs.length ys.length with hlt | hsame | hlt
    · exact .inl ⟨hlt, hlong hlt⟩
    · exact absurd (heq hsame) hne
    · exact .inr ⟨hlt, hlong' hlt⟩
  refine ⟨?_, hdiff⟩
  intro hmx hmy
  by_contra hne
  rcases hdiff hne with ⟨-, hm⟩ | ⟨-, hm⟩
  · rw [hmy] at hm
    cases hm
  · rw [hmx] at hm
    cases hm

/-- A digest that tells few inputs apart, and the hashes of 32 equal bytes. -/
def sampleDigest (bytes : List UInt8) : Bytes 32 :=
  ⟨List.replicate 32 (3 * bytes.getD 0 0 + 5 * bytes.getD 32 0 + 1), List.length_replicate⟩

def sampleHash (b : UInt8) : Bytes 32 := ⟨List.replicate 32 b, List.length_replicate⟩

def sampleLeaves : List (Bytes 32) := [sampleHash 1, sampleHash 2, sampleHash 4]

def samplePairs : List (Bytes 32 × Bytes 32) :=
  [(sampleHash 1, sampleHash 2), (sampleHash 4, sampleHash 4), (sampleHash 43, sampleHash 100)]

theorem samplePairs_inj : ∀ p ∈ samplePairs, ∀ q ∈ samplePairs,
    sha256D64 sampleDigest p.1 p.2 = sha256D64 sampleDigest q.1 q.2 → p = q := by decide

theorem joinedPairs_sampleLeaves :
    ∀ p ∈ joinedPairs (sha256D64 sampleDigest) sampleLeaves, p ∈ samplePairs := by
  have hclog : Nat.clog 2 sampleLeaves.length = 2 := by decide
  rintro p ⟨k, hk, hp⟩
  rw [hclog] at hk
  revert p
  interval_cases k <;> decide

theorem computeMerkleRoot_binds_repeated :
    (computeMerkleRoot sampleDigest sampleLeaves).1 =
      (computeMerkleRoot sampleDigest (sampleLeaves ++ [sampleHash 4])).1 ∧
    (computeMerkleRoot sampleDigest (sampleLeaves ++ [sampleHash 4])).2 = true := by
  have hroot : (computeMerkleRoot sampleDigest sampleLeaves).1 =
      (computeMerkleRoot sampleDigest (sampleLeaves ++ [sampleHash 4])).1 := by decide
  have hclog : Nat.clog 2 (sampleLeaves ++ [sampleHash 4]).length = 2 := by decide
  have hpairs : ∀ p ∈ joinedPairs (sha256D64 sampleDigest) sampleLeaves ∪
      joinedPairs (sha256D64 sampleDigest) (sampleLeaves ++ [sampleHash 4]), p ∈ samplePairs := by
    rintro p (hp | ⟨k, hk, hp⟩)
    · exact joinedPairs_sampleLeaves p hp
    · rw [hclog] at hk
      revert p
      interval_cases k <;> decide
  have hleaf : ∀ a ∈ sampleLeaves, ∀ p ∈ samplePairs, a ≠ sha256D64 sampleDigest p.1 p.2 := by
    decide
  have hfree : CollisionFree (sha256D64 sampleDigest)
      (joinedPairs (sha256D64 sampleDigest) sampleLeaves ∪
        joinedPairs (sha256D64 sampleDigest) (sampleLeaves ++ [sampleHash 4]))
      ({a | a ∈ sampleLeaves} ∪ {a | a ∈ sampleLeaves ++ [sampleHash 4]}) := by
    refine ⟨fun p hp q hq => samplePairs_inj p (hpairs p hp) q (hpairs q hq), fun a ha p hp => ?_⟩
    exact hleaf a (by simpa [sampleLeaves] using ha) p (hpairs p hp)
  refine ⟨hroot, ?_⟩
  rcases (computeMerkleRoot_binds sampleDigest _ _ (by simp [sampleLeaves]) (by simp) hfree
    hroot).2 (by simp) with ⟨-, hm⟩ | ⟨hlt, -⟩
  · exact hm
  · simp at hlt

end Binding

end Root

end Tarcoin
