import Tarcoin.Consensus.Merkle

/-! Partial merkle trees of `merkleblock.cpp`: building one from a mask, extracting the marked ids
again, and the bytes of the flag bits. The nodes visited are those of the levels of
`ComputeMerkleRoot`. -/
namespace Tarcoin
open MerkleTree

def minTransactionWeight : ℕ := witnessScaleFactor * 60

structure PartialMerkleTree where
  nTransactions : ℕ
  vBits : List Bool
  vHash : List (Bytes 32)
  fBad : Bool

/-- The nodes at a height of the tree over `nTransactions` leaves. -/
def calcTreeWidth (nTransactions height : ℕ) : ℕ := (nTransactions + 2 ^ height - 1) / 2 ^ height

/-- The loop for the height of the tree, for at most `fuel` turns. -/
def heightLoop (nTransactions : ℕ) : ℕ → ℕ → ℕ
  | 0, nHeight => nHeight
  | fuel + 1, nHeight =>
    if 1 < calcTreeWidth nTransactions nHeight then heightLoop nTransactions fuel (nHeight + 1)
    else nHeight

def treeHeight (nTransactions : ℕ) : ℕ := heightLoop nTransactions nTransactions 0

section Build

variable (sha256 : List UInt8 → Bytes 32) (vTxid : List (Bytes 32)) (vMatch : List Bool)

/-- `CalcHash`; there is no value where it would read past the ids. -/
def calcHash : ℕ → ℕ → Option (Bytes 32)
  | 0, pos => vTxid[pos]?
  | height + 1, pos =>
    (calcHash height (pos * 2)).bind fun left =>
      (if pos * 2 + 1 < calcTreeWidth vTxid.length height then calcHash height (pos * 2 + 1)
        else some left).map fun right => sha256D64 sha256 left right

/-- The positions under a node, in the order of the loop. -/
def positionsUnder (nTransactions height pos : ℕ) : List ℕ :=
  (List.range' (pos * 2 ^ height) (2 ^ height)).filter fun p => decide (p < nTransactions)

def parentOfMatch (height pos : ℕ) : Bool :=
  (positionsUnder vTxid.length height pos).any fun p => vMatch.getD p false

/-- The bits and hashes that `TraverseAndBuild` appends. -/
def traverseAndBuild : ℕ → ℕ → Option (List Bool × List (Bytes 32))
  | 0, pos => (calcHash sha256 vTxid 0 pos).map fun hash =>
    ([parentOfMatch vTxid vMatch 0 pos], [hash])
  | height + 1, pos =>
    if parentOfMatch vTxid vMatch (height + 1) pos then
      (traverseAndBuild height (pos * 2)).bind fun left =>
        (if pos * 2 + 1 < calcTreeWidth vTxid.length height then traverseAndBuild height (pos * 2 + 1)
          else some ([], [])).map fun right => (true :: (left.1 ++ right.1), left.2 ++ right.2)
    else (calcHash sha256 vTxid (height + 1) pos).map fun hash => ([false], [hash])

def PartialMerkleTree.ofMatches : Option PartialMerkleTree :=
  (traverseAndBuild sha256 vTxid vMatch (treeHeight vTxid.length) 0).map fun r =>
    ⟨vTxid.length, r.1, r.2, false⟩

end Build

section Extract

variable (sha256 : List UInt8 → Bytes 32) (tree : PartialMerkleTree)

/-- What `TraverseAndExtract` works on. The pairs it has hashed are kept for the record. -/
structure ExtractState where
  nBitsUsed : ℕ
  nHashUsed : ℕ
  fBad : Bool
  vMatch : List (Bytes 32)
  vnIndex : List ℕ
  hashed : List (Bytes 32 × Bytes 32)

/-- Use a stored hash. At height zero under a set bit it is a marked id. -/
def useStoredHash (matched : Bool) (pos : ℕ) (s : ExtractState) : Bytes 32 × ExtractState :=
  match tree.vHash[s.nHashUsed]? with
  | none => (nullHash, { s with fBad := true })
  | some hash =>
    (hash, if matched then
      { s with nHashUsed := s.nHashUsed + 1
               vMatch := s.vMatch ++ [hash]
               vnIndex := s.vnIndex ++ [pos] }
      else { s with nHashUsed := s.nHashUsed + 1 })

def traverseAndExtract : ℕ → ℕ → ExtractState → Bytes 32 × ExtractState
  | 0, pos, s =>
    match tree.vBits[s.nBitsUsed]? with
    | none => (nullHash, { s with fBad := true })
    | some fParentOfMatch =>
      useStoredHash tree fParentOfMatch pos { s with nBitsUsed := s.nBitsUsed + 1 }
  | height + 1, pos, s =>
    match tree.vBits[s.nBitsUsed]? with
    | none => (nullHash, { s with fBad := true })
    | some false => useStoredHash tree false pos { s with nBitsUsed := s.nBitsUsed + 1 }
    | some true =>
      let left := traverseAndExtract height (pos * 2) { s with nBitsUsed := s.nBitsUsed + 1 }
      if pos * 2 + 1 < calcTreeWidth tree.nTransactions height then
        let right := traverseAndExtract height (pos * 2 + 1) left.2
        (sha256D64 sha256 left.1 right.1,
          { right.2 with fBad := right.2.fBad || right.1 == left.1
                         hashed := right.2.hashed ++ [(left.1, right.1)] })
      else
        (sha256D64 sha256 left.1 left.1,
          { left.2 with hashed := left.2.hashed ++ [(left.1, left.1)] })

def extractAll : Bytes 32 × ExtractState :=
  traverseAndExtract sha256 tree (treeHeight tree.nTransactions) 0 ⟨0, 0, tree.fBad, [], [], []⟩

/-- What `ExtractMatches` returns, with what it leaves in vectors that were empty. -/
structure Extracted where
  root : Bytes 32
  vMatch : List (Bytes 32)
  vnIndex : List ℕ
  deriving DecidableEq

/-- `ExtractMatches`; the null hash stands for failure. -/
def extractMatches : Extracted :=
  if tree.nTransactions = 0 then ⟨nullHash, [], []⟩
  else if maxBlockWeight / minTransactionWeight < tree.nTransactions then ⟨nullHash, [], []⟩
  else if tree.nTransactions < tree.vHash.length then ⟨nullHash, [], []⟩
  else if tree.vBits.length < tree.vHash.length then ⟨nullHash, [], []⟩
  else
    let result := extractAll sha256 tree
    if result.2.fBad then ⟨nullHash, result.2.vMatch, result.2.vnIndex⟩
    else if (result.2.nBitsUsed + 7) / 8 ≠ (tree.vBits.length + 7) / 8 then
      ⟨nullHash, result.2.vMatch, result.2.vnIndex⟩
    else if result.2.nHashUsed ≠ tree.vHash.length then
      ⟨nullHash, result.2.vMatch, result.2.vnIndex⟩
    else ⟨result.1, result.2.vMatch, result.2.vnIndex⟩

end Extract

section Wire

/-- The byte of eight flag bits, least significant first. -/
def byteOfBits (bits : List Bool) (p : ℕ) : UInt8 :=
  (List.range 8).foldl (fun byte i => byte ||| ((bits.getD (p * 8 + i) false).toUInt8 <<< i.toUInt8)) 0

def bitsToBytes (bits : List Bool) : List UInt8 :=
  (List.range ((bits.length + 7) / 8)).map (byteOfBits bits)

def bytesToBits (bytes : List UInt8) : List Bool :=
  (List.range (bytes.length * 8)).map fun p =>
    bytes.getD (p / 8) 0 &&& (1 <<< (p % 8).toUInt8) != 0

def PartialMerkleTree.received (tree : PartialMerkleTree) : PartialMerkleTree :=
  { tree with vBits := bytesToBits (bitsToBytes tree.vBits), fBad := false }

end Wire

section Widths

variable (n : ℕ)

theorem calcTreeWidth_zero : calcTreeWidth n 0 = n := by
  simp [calcTreeWidth]

theorem calcTreeWidth_succ (height : ℕ) :
    calcTreeWidth n (height + 1) = (calcTreeWidth n height + 1) / 2 := by
  have hpos : 0 < 2 ^ height := Nat.two_pow_pos height
  have hsum : n + 2 ^ height - 1 + 2 ^ height = n + 2 ^ height * 2 - 1 := by omega
  unfold calcTreeWidth
  rw [← Nat.add_div_right _ hpos, hsum, Nat.div_div_eq_div_mul, pow_succ]

theorem lt_calcTreeWidth_iff (height pos : ℕ) :
    pos < calcTreeWidth n height ↔ pos * 2 ^ height < n := by
  have hpos : 0 < 2 ^ height := Nat.two_pow_pos height
  unfold calcTreeWidth
  rw [Nat.lt_iff_add_one_le, Nat.le_div_iff_mul_le hpos, Nat.add_mul]
  omega

theorem heightLoop_eq {fuel height : ℕ} (hle : height ≤ Nat.clog 2 n)
    (hfuel : Nat.clog 2 n ≤ height + fuel) : heightLoop n fuel height = Nat.clog 2 n := by
  induction fuel generalizing height with
  | zero =>
    rw [heightLoop]
    omega
  | succ fuel ih =>
    have hwidth : 1 < calcTreeWidth n height ↔ height < Nat.clog 2 n := by
      rw [lt_calcTreeWidth_iff, Nat.one_mul, Nat.lt_clog_iff_pow_lt one_lt_two]
    rw [heightLoop]
    split_ifs with hlt
    · exact ih (hwidth.mp hlt) (by omega)
    · omega

theorem treeHeight_eq : treeHeight n = Nat.clog 2 n := by
  refine heightLoop_eq n (Nat.zero_le _) ?_
  rw [Nat.zero_add]
  exact Nat.clog_le_of_le_pow Nat.lt_two_pow_self.le

end Widths

section Nodes

variable (sha256 : List UInt8 → Bytes 32) (vTxid : List (Bytes 32))

theorem length_level (height : ℕ) :
    (level (sha256D64 sha256) height vTxid).length = calcTreeWidth vTxid.length height := by
  induction height with
  | zero => rw [calcTreeWidth_zero, level]
  | succ height ih => rw [level_succ, length_nextLevel, ih, calcTreeWidth_succ]

theorem calcHash_eq (height pos : ℕ) :
    calcHash sha256 vTxid height pos = (level (sha256D64 sha256) height vTxid)[pos]? := by
  induction height generalizing pos with
  | zero => rfl
  | succ height ih =>
    rw [calcHash, ih, ih, level_succ, getElem?_nextLevel, ← length_level sha256, Nat.mul_comm pos 2]
    cases (level (sha256D64 sha256) height vTxid)[2 * pos]? with
    | none => rfl
    | some left =>
      split_ifs with hlt
      · rw [List.getElem?_eq_getElem hlt]
        rfl
      · rw [List.getElem?_eq_none (not_lt.mp hlt)]
        rfl

theorem level_succ_eq_some {height pos : ℕ} {node : Bytes 32}
    (h : (level (sha256D64 sha256) (height + 1) vTxid)[pos]? = some node) :
    ∃ left right, (level (sha256D64 sha256) height vTxid)[pos * 2]? = some left ∧
      (level (sha256D64 sha256) height vTxid)[pos * 2 + 1]?.getD left = right ∧
      (left, right) ∈ pairsOf (padOdd (level (sha256D64 sha256) height vTxid)) ∧
      sha256D64 sha256 left right = node := by
  rw [level_succ, getElem?_nextLevel] at h
  obtain ⟨left, hleft, hjoin⟩ := Option.map_eq_some_iff.mp h
  have hpair := mem_pairsOf_padOdd hleft
  rw [Nat.mul_comm 2 pos] at hleft hjoin hpair
  exact ⟨left, _, hleft, rfl, hpair, hjoin⟩

theorem level_treeHeight {vTxid : List (Bytes 32)} (hne : vTxid ≠ []) :
    level (sha256D64 sha256) (treeHeight vTxid.length) vTxid =
      [(computeMerkleRoot sha256 vTxid).1] := by
  rw [treeHeight_eq]
  exact level_eq_root sha256 hne

end Nodes

section Positions

variable (n : ℕ)

theorem positionsUnder_succ (height pos : ℕ) :
    positionsUnder n (height + 1) pos =
      positionsUnder n height (pos * 2) ++ positionsUnder n height (pos * 2 + 1) := by
  have hsplit : List.range' (pos * 2 ^ (height + 1)) (2 ^ (height + 1)) =
      List.range' (pos * 2 * 2 ^ height) (2 ^ height) ++
        List.range' ((pos * 2 + 1) * 2 ^ height) (2 ^ height) := by
    have hstart : (pos * 2 + 1) * 2 ^ height = pos * 2 * 2 ^ height + 2 ^ height := by ring
    rw [hstart, List.range'_append_1]
    congr 1 <;> ring
  rw [positionsUnder, hsplit, List.filter_append]
  rfl

theorem positionsUnder_eq_nil {height pos : ℕ} (h : ¬ pos < calcTreeWidth n height) :
    positionsUnder n height pos = [] := by
  rw [lt_calcTreeWidth_iff] at h
  rw [positionsUnder, List.filter_eq_nil_iff]
  intro p hp
  have hle := (List.mem_range'_1.mp hp).1
  simp only [decide_eq_true_eq]
  omega

theorem positionsUnder_root : positionsUnder n (treeHeight n) 0 = List.range n := by
  have hle : n ≤ 2 ^ treeHeight n := by
    rw [treeHeight_eq]
    exact Nat.le_pow_clog one_lt_two n
  obtain ⟨extra, hextra⟩ := Nat.exists_eq_add_of_le hle
  rw [positionsUnder, Nat.zero_mul, hextra, ← List.range'_append_1, List.filter_append,
    ← List.range_eq_range']
  have hall : (List.range n).filter (fun p => decide (p < n)) = List.range n := by
    rw [List.filter_eq_self]
    intro p hp
    simpa using hp
  have hnone : (List.range' (0 + n) extra).filter (fun p => decide (p < n)) = [] := by
    rw [List.filter_eq_nil_iff]
    intro p hp
    have hge := (List.mem_range'_1.mp hp).1
    simp only [decide_eq_true_eq]
    omega
  rw [hall, hnone, List.append_nil]

theorem positionsUnder_zero {pos : ℕ} (h : pos < n) : positionsUnder n 0 pos = [pos] := by
  simp [positionsUnder, h]

end Positions

end Tarcoin
