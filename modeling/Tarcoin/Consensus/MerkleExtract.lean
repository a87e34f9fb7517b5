import Tarcoin.Consensus.MerkleBlock

/-! What is extracted from a partial merkle tree: the marked ids of a block it was built for, and
only ids of a block whose root it leads to. -/
namespace Tarcoin
open MerkleTree

section Complete

variable {sha256 : List UInt8 → Bytes 32} {vTxid : List (Bytes 32)} {vMatch : List Bool}

def markedUnder (vTxid : List (Bytes 32)) (vMatch : List Bool) (height pos : ℕ) : List ℕ :=
  (positionsUnder vTxid.length height pos).filter fun p => vMatch.getD p false

variable {height pos n k : ℕ} {α : Type*} {xs rest : List α}

theorem markedUnder_eq_nil (h : parentOfMatch vTxid vMatch height pos = false) :
    markedUnder vTxid vMatch height pos = [] := by
  rw [markedUnder, List.filter_eq_nil_iff]
  exact List.any_eq_false.mp h

theorem markedUnder_succ (height pos : ℕ) :
    markedUnder vTxid vMatch (height + 1) pos =
      markedUnder vTxid vMatch height (pos * 2) ++ markedUnder vTxid vMatch height (pos * 2 + 1) := by
  rw [markedUnder, positionsUnder_succ, List.filter_append]
  rfl

theorem markedUnder_of_width (h : ¬ pos < calcTreeWidth vTxid.length height) :
    markedUnder vTxid vMatch height pos = [] := by
  rw [markedUnder, positionsUnder_eq_nil _ h, List.filter_nil]

theorem left_lt_width (h : pos < calcTreeWidth n (height + 1)) :
    pos * 2 < calcTreeWidth n height := by
  rw [calcTreeWidth_succ] at h
  omega

theorem positionsUnder_length_pos (h : pos < calcTreeWidth n height) :
    0 < (positionsUnder n height pos).length := by
  rw [lt_calcTreeWidth_iff] at h
  refine List.length_pos_of_mem (List.mem_filter.mpr ⟨?_, decide_eq_true h⟩)
  exact List.mem_range'_1.mpr ⟨le_rfl, Nat.lt_add_of_pos_right (Nat.two_pow_pos height)⟩

theorem calcHash_of_lt (sha256 : List UInt8 → Bytes 32)
    (h : pos < calcTreeWidth vTxid.length height) :
    ∃ node, calcHash sha256 vTxid height pos = some node := by
  rw [← length_level sha256] at h
  exact ⟨_, by rw [calcHash_eq, List.getElem?_eq_getElem h]⟩

/-- The builder reads no id past the end, and stores no more hashes than bits and than there are
leaves. -/
theorem traverseAndBuild_ok {height pos : ℕ} (h : pos < calcTreeWidth vTxid.length height) :
    ∃ bits hashes, traverseAndBuild sha256 vTxid vMatch height pos = some (bits, hashes) ∧
      hashes.length ≤ bits.length ∧
      hashes.length ≤ (positionsUnder vTxid.length height pos).length := by
  induction height generalizing pos with
  | zero =>
    obtain ⟨node, hnode⟩ := calcHash_of_lt sha256 h
    exact ⟨[_], [node], by rw [traverseAndBuild, hnode, Option.map_some], le_rfl,
      positionsUnder_length_pos h⟩
  | succ height ih =>
    rw [traverseAndBuild]
    split
    · obtain ⟨lb, lh, hl, hlen, hpos⟩ := ih (left_lt_width h)
      rw [hl, positionsUnder_succ]
      split
      · rename_i hright
        obtain ⟨rb, rh, hr, hlen', hpos'⟩ := ih hright
        refine ⟨_, _, by rw [hr]; rfl, ?_, ?_⟩
        · simp only [List.length_append, List.length_cons]
          omega
        · simp only [List.length_append]
          omega
      · refine ⟨_, _, rfl, ?_, ?_⟩
        · simp only [List.length_append, List.length_cons, List.length_nil]
          omega
        · simp only [List.length_append, List.length_nil]
          omega
    · obtain ⟨node, hnode⟩ := calcHash_of_lt sha256 h
      exact ⟨[false], [node], by rw [hnode, Option.map_some], le_rfl,
        positionsUnder_length_pos h⟩

theorem drop_cons_iff {x : α} :
    xs.drop k = x :: rest ↔ xs[k]? = some x ∧ xs.drop (k + 1) = rest := by
  rw [← List.head?_drop, ← List.tail_drop]
  cases xs.drop k with
  | nil => simp
  | cons y ys => simp

theorem drop_append_left {as : List α} (h : xs.drop k = as ++ rest) :
    xs.drop (k + as.length) = rest := by
  rw [← List.drop_drop, h, List.drop_left]

theorem traverseAndBuild_parent {bits : List Bool} {hashes : List (Bytes 32)}
    (hparent : parentOfMatch vTxid vMatch (height + 1) pos = true)
    (h : traverseAndBuild sha256 vTxid vMatch (height + 1) pos = some (bits, hashes)) :
    ∃ lb lh rb rh, traverseAndBuild sha256 vTxid vMatch height (pos * 2) = some (lb, lh) ∧
      (if pos * 2 + 1 < calcTreeWidth vTxid.length height then
        traverseAndBuild sha256 vTxid vMatch height (pos * 2 + 1) else some ([], [])) =
          some (rb, rh) ∧
      bits = true :: (lb ++ rb) ∧ hashes = lh ++ rh := by
  rw [traverseAndBuild, if_pos hparent] at h
  obtain ⟨⟨lb, lh⟩, hl, h⟩ := Option.bind_eq_some_iff.mp h
  obtain ⟨⟨rb, rh⟩, hr, heq⟩ := Option.map_eq_some_iff.mp h
  cases heq
  exact ⟨lb, lh, rb, rh, hl, hr, rfl, rfl⟩

variable {tree : PartialMerkleTree}

theorem extract_of_build (hnd : ∀ k ≤ treeHeight vTxid.length,
      (level (sha256D64 sha256) k vTxid).Nodup)
    (hn : tree.nTransactions = vTxid.length) {height pos : ℕ}
    (hheight : height ≤ treeHeight vTxid.length) (hpos : pos < calcTreeWidth vTxid.length height)
    {bits restBits : List Bool} {hashes restHash : List (Bytes 32)}
    (hbuild : traverseAndBuild sha256 vTxid vMatch height pos = some (bits, hashes))
    {s : ExtractState} (hbits : tree.vBits.drop s.nBitsUsed = bits ++ restBits)
    (hhash : tree.vHash.drop s.nHashUsed = hashes ++ restHash) :
    ∃ node ids hashed, (level (sha256D64 sha256) height vTxid)[pos]? = some node ∧
      ids.map some = (markedUnder vTxid vMatch height pos).map (fun p => vTxid[p]?) ∧
      traverseAndExtract sha256 tree height pos s =
        (node, ⟨s.nBitsUsed + bits.length, s.nHashUsed + hashes.length, s.fBad, s.vMatch ++ ids,
          s.vnIndex ++ markedUnder vTxid vMatch height pos, hashed⟩) := by
  induction height generalizing pos bits restBits hashes restHash s with
  | zero =>
    obtain ⟨node, hnode⟩ := calcHash_of_lt sha256 hpos
    rw [traverseAndBuild, hnode] at hbuild
    cases hbuild
    obtain ⟨hbit, -⟩ := drop_cons_iff.mp hbits
    obtain ⟨hstored, -⟩ := drop_cons_iff.mp hhash
    rw [calcTreeWidth_zero] at hpos
    rw [calcHash_eq] at hnode
    have hmarked : markedUnder vTxid vMatch 0 pos =
        if parentOfMatch vTxid vMatch 0 pos then [pos] else [] := by
      rw [markedUnder, parentOfMatch, positionsUnder_zero _ hpos, List.filter_cons, List.filter_nil,
        List.any_cons, List.any_nil, Bool.or_false]
    simp only [traverseAndExtract, hbit, useStoredHash, hstored, hmarked]
    cases parentOfMatch vTxid vMatch 0 pos with
    | false => exact ⟨node, [], s.hashed, hnode, rfl, by simp⟩
    | true =>
      rw [level] at hnode
      exact ⟨node, [node], s.hashed, hnode, by simp [hnode], by simp⟩
  | succ height ih =>
    cases hparent : parentOfMatch vTxid vMatch (height + 1) pos with
    | false =>
      obtain ⟨node, hnode⟩ := calcHash_of_lt sha256 hpos
      rw [traverseAndBuild, hparent, hnode, Option.map_some] at hbuild
      cases hbuild
      obtain ⟨hbit, -⟩ := drop_cons_iff.mp hbits
      obtain ⟨hstored, -⟩ := drop_cons_iff.mp hhash
      rw [calcHash_eq] at hnode
      rw [markedUnder_eq_nil hparent]
      refine ⟨node, [], s.hashed, hnode, rfl, ?_⟩
      simp [traverseAndExtract, hbit, useStoredHash, hstored]
    | true =>
      obtain ⟨lb, lh, rb, rh, hl, hr, rfl, rfl⟩ := traverseAndBuild_parent hparent hbuild
      have hbelow := Nat.le_of_succ_le hheight
      obtain ⟨hbit, hbits⟩ := drop_cons_iff.mp hbits
      have hlbits : tree.vBits.drop (s.nBitsUsed + 1) = lb ++ (rb ++ restBits) :=
        hbits.trans (List.append_assoc _ _ _)
      rw [List.append_assoc] at hhash
      let s₁ : ExtractState := { s with nBitsUsed := s.nBitsUsed + 1 }
      obtain ⟨left, lids, lhashed, hleft, hlids, hel⟩ :=
        @ih (pos * 2) hbelow (left_lt_width hpos) lb _ lh _ hl s₁ hlbits hhash
      by_cases hright : pos * 2 + 1 < calcTreeWidth vTxid.length height
      · rw [if_pos hright] at hr
        let s₂ : ExtractState := ⟨s.nBitsUsed + 1 + lb.length, s.nHashUsed + lh.length, s.fBad,
          s.vMatch ++ lids, s.vnIndex ++ markedUnder vTxid vMatch height (pos * 2), lhashed⟩
        obtain ⟨right, rids, rhashed, hnright, hrids, her⟩ :=
          @ih (pos * 2 + 1) hbelow hright rb _ rh _ hr s₂ (drop_append_left hlbits)
            (drop_append_left hhash)
        have hne : right ≠ left := by
          intro heq
          rw [heq, ← hleft] at hnright
          have hlt : pos * 2 + 1 < (level (sha256D64 sha256) height vTxid).length := by
            rwa [length_level]
          have hindex := (List.getElem?_inj hlt (hnd height hbelow)).mp hnright
          omega
        refine ⟨sha256D64 sha256 left right, lids ++ rids, rhashed ++ [(left, right)], ?_, ?_, ?_⟩
        · rw [level_succ, getElem?_nextLevel, Nat.mul_comm 2 pos, hleft, hnright]
          rfl
        · rw [List.map_append, hlids, hrids, markedUnder_succ, List.map_append]
        · simp only [traverseAndExtract, hbit, hn, if_pos hright, hel, her, markedUnder_succ, s₁, s₂,
            beq_eq_false_iff_ne.mpr hne, Bool.or_false, List.length_cons, List.length_append,
            List.append_assoc]
          congr 2 <;> omega
      · rw [if_neg hright] at hr
        cases hr
        refine ⟨sha256D64 sha256 left left, lids, lhashed ++ [(left, left)], ?_, ?_, ?_⟩
        · rw [level_succ, getElem?_nextLevel, Nat.mul_comm 2 pos, hleft,
            List.getElem?_eq_none (by rw [length_level]; exact not_lt.mp hright)]
          rfl
        · rw [hlids, markedUnder_succ, markedUnder_of_width hright, List.append_nil]
        · simp only [traverseAndExtract, hbit, hn, if_neg hright, hel, markedUnder_succ, s₁,
            markedUnder_of_width hright, List.append_nil, List.length_cons]
          congr 2
          omega

def markedPositions (vMatch : List Bool) (n : ℕ) : List ℕ :=
  (List.range n).filter fun p => vMatch.getD p false

/-- Extraction from a tree with the bits and hashes of the builder, and padding within the last
byte of the bits. -/
theorem extractMatches_of_build (hne : vTxid ≠ []) (hnd : ∀ k ≤ treeHeight vTxid.length,
      (level (sha256D64 sha256) k vTxid).Nodup)
    (hsize : vTxid.length ≤ maxBlockWeight / minTransactionWeight)
    {bits pad : List Bool} {hashes : List (Bytes 32)}
    (hbuild : traverseAndBuild sha256 vTxid vMatch (treeHeight vTxid.length) 0 =
      some (bits, hashes))
    (hpad : (bits.length + 7) / 8 = ((bits ++ pad).length + 7) / 8) :
    ∃ ids, ids.map some = (markedPositions vMatch vTxid.length).map (fun p => vTxid[p]?) ∧
      extractMatches sha256 ⟨vTxid.length, bits ++ pad, hashes, false⟩ =
        ⟨(computeMerkleRoot sha256 vTxid).1, ids, markedPositions vMatch vTxid.length⟩ := by
  have hroot := level_treeHeight sha256 hne
  have hwidth : 0 < calcTreeWidth vTxid.length (treeHeight vTxid.length) := by
    rw [← length_level sha256, hroot]
    exact Nat.one_pos
  obtain ⟨bits', hashes', hbuild', hbitsLen, hleaves⟩ := traverseAndBuild_ok hwidth
  rw [hbuild] at hbuild'
  cases hbuild'
  rw [positionsUnder_root, List.length_range] at hleaves
  obtain ⟨node, ids, hashed, hnode, hids, hextract⟩ :=
    @extract_of_build _ _ _ ⟨vTxid.length, bits ++ pad, hashes, false⟩ hnd rfl _ _ le_rfl hwidth
      _ pad _ [] hbuild ⟨0, 0, false, [], [], []⟩ rfl (List.append_nil _).symm
  have hmarked : markedUnder vTxid vMatch (treeHeight vTxid.length) 0 =
      markedPositions vMatch vTxid.length := by
    rw [markedUnder, positionsUnder_root, markedPositions]
  rw [hmarked] at hids hextract
  rw [hroot] at hnode
  obtain rfl : (computeMerkleRoot sha256 vTxid).1 = node := Option.some.inj hnode
  refine ⟨ids, hids, ?_⟩
  have hlong : ¬ (bits ++ pad).length < hashes.length := by
    rw [List.length_append]
    omega
  rw [extractMatches, if_neg (by simpa using hne), if_neg (not_lt.mpr hsize),
    if_neg (not_lt.mpr hleaves), if_neg hlong]
  simp [extractAll, hextract, hpad]

end Complete

section Wire

theorem testBit_byteOfBits (bits : List Bool) (p : ℕ) {i : ℕ} (hi : i < 8) :
    (byteOfBits bits p &&& (1 <<< i.toUInt8) != 0) = bits.getD (p * 8 + i) false := by
  have hbyte : ∀ b₀ b₁ b₂ b₃ b₄ b₅ b₆ b₇ : Bool, ∀ i < 8,
      (((0 : UInt8) ||| (b₀.toUInt8 <<< (0 : ℕ).toUInt8) ||| (b₁.toUInt8 <<< (1 : ℕ).toUInt8) |||
          (b₂.toUInt8 <<< (2 : ℕ).toUInt8) ||| (b₃.toUInt8 <<< (3 : ℕ).toUInt8) |||
          (b₄.toUInt8 <<< (4 : ℕ).toUInt8) ||| (b₅.toUInt8 <<< (5 : ℕ).toUInt8) |||
          (b₆.toUInt8 <<< (6 : ℕ).toUInt8) ||| (b₇.toUInt8 <<< (7 : ℕ).toUInt8)) &&&
        ((1 : UInt8) <<< i.toUInt8) != 0) = [b₀, b₁, b₂, b₃, b₄, b₅, b₆, b₇].getD i false := by
    decide
  have hrange : List.range 8 = [0, 1, 2, 3, 4, 5, 6, 7] := rfl
  rw [byteOfBits, hrange]
  simp only [List.foldl_cons, List.foldl_nil]
  rw [hbyte _ _ _ _ _ _ _ _ i hi]
  interval_cases i <;> rfl

theorem bytesToBits_bitsToBytes (bits : List Bool) :
    bytesToBits (bitsToBytes bits) =
      bits ++ List.replicate ((bits.length + 7) / 8 * 8 - bits.length) false := by
  have hlen : (bitsToBytes bits).length = (bits.length + 7) / 8 := by
    rw [bitsToBytes, List.length_map, List.length_range]
  apply List.ext_getElem
  · rw [bytesToBits, List.length_map, List.length_range, List.length_append,
      List.length_replicate]
    omega
  · intro p hp hp'
    rw [bytesToBits, List.length_map, List.length_range] at hp
    have hbyte : p / 8 < (bits.length + 7) / 8 := by omega
    have hget : (bitsToBytes bits).getD (p / 8) 0 = byteOfBits bits (p / 8) := by
      simp [bitsToBytes, hbyte]
    have hpos : p / 8 * 8 + p % 8 = p := by omega
    simp only [bytesToBits, List.getElem_map, List.getElem_range]
    rw [hget, testBit_byteOfBits bits _ (Nat.mod_lt p (by norm_num)), hpos, List.getElem_append]
    split_ifs with hlt
    · simp [hlt]
    · simp [not_lt.mp hlt]

end Wire

section Sound

variable {sha256 : List UInt8 → Bytes 32} {tree : PartialMerkleTree} {vTxid : List (Bytes 32)}
  {s : ExtractState} {height pos : ℕ}

/-- The later state has seen what the earlier one has. -/
structure ExtractState.Extends (s t : ExtractState) : Prop where
  bad : t.fBad = false → s.fBad = false
  hashed : ∀ p ∈ s.hashed, p ∈ t.hashed

theorem ExtractState.Extends.trans {s t u : ExtractState} (h : s.Extends t) (h' : t.Extends u) :
    s.Extends u :=
  ⟨fun hu => h.bad (h'.bad hu), fun p hp => h'.hashed p (h.hashed p hp)⟩

theorem useStoredHash_extends (matched : Bool) (pos : ℕ) (s : ExtractState) :
    s.Extends (useStoredHash tree matched pos s).2 := by
  unfold useStoredHash
  split
  · exact ⟨nofun, fun _ hp => hp⟩
  · cases matched <;> exact ⟨fun h => h, fun _ hp => hp⟩

theorem traverseAndExtract_extends (height pos : ℕ) (s : ExtractState) :
    s.Extends (traverseAndExtract sha256 tree height pos s).2 := by
  have hstart (t : ExtractState) (h : ExtractState.Extends { s with nBitsUsed := s.nBitsUsed + 1 } t) :
      s.Extends t := ⟨h.bad, h.hashed⟩
  induction height generalizing pos s with
  | zero =>
    rw [traverseAndExtract]
    split
    · exact ⟨nofun, fun _ hp => hp⟩
    · exact hstart _ (useStoredHash_extends _ _ _)
  | succ height ih =>
    have hchild (pos : ℕ) (s : ExtractState) := ih pos s fun t h => ⟨h.bad, h.hashed⟩
    rw [traverseAndExtract]
    split
    · exact ⟨nofun, fun _ hp => hp⟩
    · exact hstart _ (useStoredHash_extends _ _ _)
    · refine hstart _ ((hchild (pos * 2) _).trans ?_)
      split
      · refine (hchild (pos * 2 + 1) _).trans ⟨?_, fun p hp => List.mem_append_left _ hp⟩
        intro h
        exact (Bool.or_eq_false_iff.mp h).1
      · exact ⟨fun h => h, fun p hp => List.mem_append_left _ hp⟩

/-- The ids found so far stand in the block at the positions found with them. -/
def ExtractState.Located (vTxid : List (Bytes 32)) (s : ExtractState) : Prop :=
  s.vMatch.map some = s.vnIndex.map fun p => vTxid[p]?

theorem useStoredHash_located {matched : Bool} (hs : s.Located vTxid)
    (hbad : (useStoredHash tree matched pos s).2.fBad = false)
    (hnode : matched = true → vTxid[pos]? = some (useStoredHash tree matched pos s).1) :
    (useStoredHash tree matched pos s).2.Located vTxid := by
  unfold useStoredHash at hbad hnode ⊢
  split at hbad
  · cases hbad
  · rename_i hash hstored
    rw [hstored] at hnode
    cases matched with
    | false => exact hs
    | true =>
      have hid := hnode rfl
      simp only [ExtractState.Located, if_true, List.map_append, List.map_cons, List.map_nil] at hs ⊢
      rw [hs, hid]

/-- The traversal of a part of the tree that ends in a node of the block. The values it joins on
the way are then nodes of the block too. -/
theorem extract_located {pairs : Set (Bytes 32 × Bytes 32)}
    (hinj : Set.InjOn (fun p => sha256D64 sha256 p.1 p.2) pairs)
    (hblock : joinedPairs (sha256D64 sha256) vTxid ⊆ pairs)
    (hn : tree.nTransactions = vTxid.length) (hheight : height ≤ treeHeight vTxid.length)
    (hs : s.Located vTxid) (hbad : (traverseAndExtract sha256 tree height pos s).2.fBad = false)
    (hhashed : ∀ p ∈ (traverseAndExtract sha256 tree height pos s).2.hashed, p ∈ pairs)
    (hnode : (level (sha256D64 sha256) height vTxid)[pos]? =
      some (traverseAndExtract sha256 tree height pos s).1) :
    (traverseAndExtract sha256 tree height pos s).2.Located vTxid := by
  induction height generalizing pos s with
  | zero =>
    rw [traverseAndExtract] at hbad hnode ⊢
    split at hbad
    · cases hbad
    · rename_i bit hbit
      rw [hbit] at hnode
      exact useStoredHash_located hs hbad fun _ => hnode
  | succ height ih =>
    have hbelow := Nat.le_of_succ_le hheight
    rw [traverseAndExtract] at hbad hhashed hnode ⊢
    split at hbad
    · cases hbad
    · exact useStoredHash_located hs hbad Bool.noConfusion
    · rename_i hbit
      rw [hbit] at hhashed hnode
      simp only at hbad hhashed hnode ⊢
      -- the two values below the node in the block
      obtain ⟨left, right, hleft, hright, hpair, hjoin⟩ := level_succ_eq_some sha256 vTxid hnode
      have hmem := hblock ⟨height, by rw [← treeHeight_eq]; exact hheight, hpair⟩
      generalize hl : traverseAndExtract sha256 tree height (pos * 2)
        { s with nBitsUsed := s.nBitsUsed + 1 } = l at hbad hhashed hjoin ⊢
      split at hbad
      · rename_i hwidth
        rw [if_pos hwidth] at hhashed hjoin ⊢
        generalize hr : traverseAndExtract sha256 tree height (pos * 2 + 1) l.2 = r
          at hbad hhashed hjoin ⊢
        have hrbad : r.2.fBad = false := (Bool.or_eq_false_iff.mp hbad).1
        have hext : l.2.Extends r.2 := hr ▸ traverseAndExtract_extends _ _ _
        obtain ⟨rfl, rfl⟩ := Prod.mk.inj (hinj hmem (hhashed (l.1, r.1) (by simp)) hjoin)
        rw [hn, ← length_level sha256] at hwidth
        rw [List.getElem?_eq_getElem hwidth, Option.getD_some] at hright
        have hlocated : l.2.Located vTxid := by
          subst hl
          refine ih hbelow hs (hext.bad hrbad) (fun p hp => ?_) hleft
          exact hhashed p (List.mem_append_left _ (hext.hashed p hp))
        have hdone : r.2.Located vTxid := by
          subst hr
          refine ih hbelow hlocated hrbad (fun p hp => hhashed p (List.mem_append_left _ hp)) ?_
          rw [List.getElem?_eq_getElem hwidth, hright]
        exact hdone
      · rename_i hwidth
        rw [if_neg hwidth] at hhashed hjoin ⊢
        obtain ⟨rfl, -⟩ := Prod.mk.inj (hinj hmem (hhashed (l.1, l.1) (by simp)) hjoin)
        have hdone : l.2.Located vTxid := by
          subst hl
          exact ih hbelow hs hbad (fun p hp => hhashed p (List.mem_append_left _ hp)) hleft
        exact hdone

/-- A returned root that is not the null hash is the one of a traversal without a fault. -/
theorem extractMatches_root_ne (h : (extractMatches sha256 tree).root ≠ nullHash) :
    (extractAll sha256 tree).2.fBad = false ∧
      extractMatches sha256 tree = ⟨(extractAll sha256 tree).1, (extractAll sha256 tree).2.vMatch,
        (extractAll sha256 tree).2.vnIndex⟩ := by
  unfold extractMatches at h ⊢
  split_ifs at h ⊢ with h₀ h₁ h₂ h₃
  · exact absurd rfl h
  · exact absurd rfl h
  · exact absurd rfl h
  · exact absurd rfl h
  · simp only at h ⊢
    split_ifs at h ⊢ with hbad hbits hhash
    · exact absurd rfl h
    · exact absurd rfl h
    · exact absurd rfl h
    · exact ⟨by simpa using hbad, rfl⟩

end Sound

/-- Partial merkle trees, as far as no two of the pairs that are hashed collide. One built from
distinct ids is extracted with the root of the block and exactly the marked ids, each with its
position and in order, from the tree itself and from the one read back from the wire. Whatever
tree is accepted with the root of a block of as many transactions, the ids and positions that are
returned are those of transactions of the block. -/
theorem partialMerkleTree_complete_and_sound (sha256 : List UInt8 → Bytes 32)
    (vTxid : List (Bytes 32)) (hne : vTxid ≠ []) :
    (∀ vMatch : List Bool, vMatch.length = vTxid.length → vTxid.Nodup →
      vTxid.length ≤ maxBlockWeight / minTransactionWeight →
      Set.InjOn (fun p => sha256D64 sha256 p.1 p.2) (joinedPairs (sha256D64 sha256) vTxid) →
      ∃ tree ids, PartialMerkleTree.ofMatches sha256 vTxid vMatch = some tree ∧
        ids.map some = (markedPositions vMatch vTxid.length).map (fun p => vTxid[p]?) ∧
        extractMatches sha256 tree =
          ⟨(computeMerkleRoot sha256 vTxid).1, ids, markedPositions vMatch vTxid.length⟩ ∧
        extractMatches sha256 tree.received = extractMatches sha256 tree) ∧
    (∀ tree : PartialMerkleTree, tree.nTransactions = vTxid.length →
      Set.InjOn (fun p => sha256D64 sha256 p.1 p.2)
        (joinedPairs (sha256D64 sha256) vTxid ∪ {p | p ∈ (extractAll sha256 tree).2.hashed}) →
      (extractMatches sha256 tree).root = (computeMerkleRoot sha256 vTxid).1 →
      (extractMatches sha256 tree).root ≠ nullHash →
      (extractMatches sha256 tree).vMatch.map some =
        (extractMatches sha256 tree).vnIndex.map fun p => vTxid[p]?) := by
  constructor
  · intro vMatch _ hnodup hsize hinj
    have hnd : ∀ k ≤ treeHeight vTxid.length, (level (sha256D64 sha256) k vTxid).Nodup := by
      intro k hk
      rw [treeHeight_eq] at hk
      exact nodup_level hinj subset_rfl hnodup hk
    have hwidth : 0 < calcTreeWidth vTxid.length (treeHeight vTxid.length) := by
      rw [← length_level sha256, level_treeHeight sha256 hne]
      exact Nat.one_pos
    obtain ⟨bits, hashes, hbuild, -, -⟩ := @traverseAndBuild_ok sha256 vTxid vMatch _ _ hwidth
    obtain ⟨ids, hids, hextract⟩ := @extractMatches_of_build _ _ _ hne hnd hsize bits [] hashes hbuild
      (by rw [List.append_nil])
    rw [List.append_nil] at hextract
    refine ⟨⟨vTxid.length, bits, hashes, false⟩, ids, ?_, hids, hextract, ?_⟩
    · rw [PartialMerkleTree.ofMatches, hbuild, Option.map_some]
    · obtain ⟨ids', hids', hreceived⟩ := @extractMatches_of_build _ _ _ hne hnd hsize bits
        (List.replicate ((bits.length + 7) / 8 * 8 - bits.length) false) hashes hbuild (by
          rw [List.length_append, List.length_replicate]
          omega)
      have hsame : ids' = ids :=
        List.map_injective_iff.mpr (Option.some_injective _) (hids'.trans hids.symm)
      rw [PartialMerkleTree.received, bytesToBits_bitsToBytes, hreceived, hextract, hsame]
  · intro tree hn hinj hroot hnull
    obtain ⟨hbad, hextract⟩ := extractMatches_root_ne hnull
    rw [hextract] at hroot ⊢
    have hheight : treeHeight tree.nTransactions = treeHeight vTxid.length := by rw [hn]
    have hnode : (level (sha256D64 sha256) (treeHeight tree.nTransactions) vTxid)[0]? =
        some (extractAll sha256 tree).1 := by
      rw [hheight, level_treeHeight sha256 hne, ← hroot]
      rfl
    exact extract_located hinj Set.subset_union_left hn hheight.le rfl hbad (fun p hp => .inr hp)
      hnode

/-- The tree over three ids of which the second and third are marked. -/
def sampleTree : PartialMerkleTree :=
  ⟨3, [true, true, false, true, true, true], sampleLeaves, false⟩

theorem partialMerkleTree_complete_and_sound_three :
    (∃ tree ids, PartialMerkleTree.ofMatches sampleDigest sampleLeaves [false, true, true] =
        some tree ∧
      ids.map some = (markedPositions [false, true, true] 3).map (fun p => sampleLeaves[p]?) ∧
      extractMatches sampleDigest tree = ⟨(computeMerkleRoot sampleDigest sampleLeaves).1, ids,
        markedPositions [false, true, true] 3⟩ ∧
      extractMatches sampleDigest tree.received = extractMatches sampleDigest tree) ∧
    (extractMatches sampleDigest sampleTree).vMatch.map some =
      (extractMatches sampleDigest sampleTree).vnIndex.map fun p => sampleLeaves[p]? := by
  have hinj : Set.InjOn (fun p => sha256D64 sampleDigest p.1 p.2)
      (joinedPairs (sha256D64 sampleDigest) sampleLeaves) := fun p hp q hq =>
    samplePairs_inj p (joinedPairs_sampleLeaves p hp) q (joinedPairs_sampleLeaves q hq)
  have hhashed : ∀ p ∈ (extractAll sampleDigest sampleTree).2.hashed, p ∈ samplePairs := by
    decide
  obtain ⟨hcomplete, hsound⟩ := partialMerkleTree_complete_and_sound sampleDigest sampleLeaves
    (by simp [sampleLeaves])
  refine ⟨hcomplete [false, true, true] rfl (by decide) (by decide) hinj,
    hsound sampleTree rfl ?_ (by decide) (by decide)⟩
  rintro p hp q hq
  refine samplePairs_inj p ?_ q ?_
  · exact hp.elim (joinedPairs_sampleLeaves p) (hhashed p)
  · exact hq.elim (joinedPairs_sampleLeaves q) (hhashed q)

end Tarcoin
