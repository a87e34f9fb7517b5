import Tarcoin.Pool.MerkleBranch
import Tarcoin.Pool.Frames

/-! The text of a found block determines its transactions, and the root in its header is theirs.
-/
namespace Tarcoin.Pool

def varIntBytes (n : ℕ) : List UInt8 :=
  if n < 0xfd then [UInt8.ofNat n] else 0xfd :: littleEndian 2 n

variable {n : ℕ} {xs ys txData : List Text} {header : List UInt8} {coinbaseHex hex : Text}

theorem encodeVarInt_eq {text : Text} (h : encodeVarInt n = .ok text) :
    n < 2 ^ 16 ∧ text = Hex.encode (varIntBytes n) := by
  have hsmall : ∀ n < 0xfd, padStart 2 (Nat.toDigits 16 n) = Hex.encode [UInt8.ofNat n] := by
    decide +kernel
  simp only [encodeVarInt] at h
  split_ifs at h with hlt hlt'
  · cases h
    exact ⟨by omega, by rw [varIntBytes, if_pos hlt, hsmall n hlt]⟩
  · cases h
    exact ⟨hlt', by rw [varIntBytes, if_neg hlt]⟩

theorem varIntBytes_append_inj {m : ℕ} (hm : m < 2 ^ 16) (hn : n < 2 ^ 16) {xs ys : Text}
    (h : Hex.encode (varIntBytes m) ++ xs = Hex.encode (varIntBytes n) ++ ys) :
    m = n ∧ xs = ys := by
  have hbyte : ∀ a < 256, ∀ b < 256, UInt8.ofNat a = UInt8.ofNat b → a = b := by
    intro a ha b hb hab
    have := congrArg UInt8.toNat hab
    simpa [Nat.mod_eq_of_lt ha, Nat.mod_eq_of_lt hb] using this
  -- The first byte tells the two forms apart.
  have hhead := congrArg (fun text => (Hex.decode text).head?) h
  simp only [Hex.decode_encode_append] at hhead
  unfold varIntBytes at h hhead
  split_ifs at h hhead with hm' hn' hn'
  · obtain ⟨hcode, hrest⟩ := List.append_inj h (by simp only [Hex.length_encode, List.length_singleton])
    have := Hex.encode_injective hcode
    exact ⟨hbyte m (by omega) n (by omega) (List.cons.inj this).1, hrest⟩
  · have := hbyte m (by omega) 0xfd (by omega) (by simpa using hhead)
    omega
  · have := hbyte 0xfd (by omega) n (by omega) (by simpa using hhead)
    omega
  · obtain ⟨hcode, hrest⟩ := List.append_inj h (by simp)
    have hbytes := (List.cons.inj (Hex.encode_injective hcode)).2
    simp only [littleEndian, List.cons.injEq, and_true] at hbytes
    have hlow := hbyte _ (Nat.mod_lt _ (by omega)) _ (Nat.mod_lt _ (by omega)) hbytes.1
    have hhigh := hbyte _ (Nat.mod_lt _ (by omega)) _ (Nat.mod_lt _ (by omega)) hbytes.2
    exact ⟨by omega, hrest⟩

def SameBody (xs ys : List Text) : Prop := xs.length = ys.length ∧ xs.flatten = ys.flatten

theorem blockText_congr (h : SameBody xs ys) (header : List UInt8) (coinbaseHex : Text) :
    blockText header coinbaseHex xs = blockText header coinbaseHex ys := by
  simp only [blockText, h.1, h.2]

theorem blockText_eq (h : blockText header coinbaseHex txData = .ok hex) :
    1 + txData.length < 2 ^ 16 ∧ hex = Hex.encode header ++
      (Hex.encode (varIntBytes (1 + txData.length)) ++ (coinbaseHex ++ txData.flatten)) := by
  simp only [blockText, bind, Except.bind] at h
  cases hcount : encodeVarInt (1 + txData.length) with
  | error e =>
    rw [hcount] at h
    cases h
  | ok count =>
    rw [hcount] at h
    obtain ⟨hlt, rfl⟩ := encodeVarInt_eq hcount
    cases h
    exact ⟨hlt, by simp only [List.append_assoc]⟩

theorem sameBody_of_blockText (hx : blockText header coinbaseHex xs = .ok hex)
    (hy : blockText header coinbaseHex ys = .ok hex) : SameBody xs ys := by
  obtain ⟨hxlt, hxeq⟩ := blockText_eq hx
  obtain ⟨hylt, hyeq⟩ := blockText_eq hy
  have htail := List.append_cancel_left (hxeq.symm.trans hyeq)
  obtain ⟨hlen, hrest⟩ := varIntBytes_append_inj hxlt hylt htail
  exact ⟨by omega, List.append_cancel_left hrest⟩

theorem blockText_ok (h : 1 + txData.length < 2 ^ 16) (header : List UInt8) (coinbaseHex : Text) :
    ∃ hex, blockText header coinbaseHex txData = .ok hex := by
  simp only [blockText, encodeVarInt]
  split_ifs
  · exact ⟨_, rfl⟩
  · exact ⟨_, rfl⟩

section Root
variable (rt : Runtime)

variable {version prevHash nTime nBits nonce : Text} {work : Work} {t : BlockTemplate}

theorem buildBlockHeader_parts {merkleRoot : Text}
    (h : buildBlockHeader version prevHash merkleRoot nTime nBits nonce = .ok header) :
    ∃ versionBuf nTimeBuf nBitsBuf nonceBuf, versionBuf.length = 4 ∧ nBitsBuf.length = 4 ∧
      writeUInt32LE (parseInt16 nTime) = .ok nTimeBuf ∧
      writeUInt32LE (parseInt16 nonce) = .ok nonceBuf ∧
      header = versionBuf ++ (fit 32 (Hex.decode prevHash).reverse ++
        (fit 32 (Hex.decode merkleRoot) ++ (nTimeBuf ++ (nBitsBuf ++ nonceBuf)))) := by
  simp only [buildBlockHeader, bind, Except.bind] at h
  cases hversion : writeUInt32LE (parseInt16 version) with
  | error e => simp [hversion] at h
  | ok versionBuf =>
    cases hnTime : writeUInt32LE (parseInt16 nTime) with
    | error e => simp [hversion, hnTime] at h
    | ok nTimeBuf =>
      cases hnBits : writeUInt32LE (parseInt16 nBits) with
      | error e => simp [hversion, hnTime, hnBits] at h
      | ok nBitsBuf =>
        cases hnonce : writeUInt32LE (parseInt16 nonce) with
        | error e => simp [hversion, hnTime, hnBits, hnonce] at h
        | ok nonceBuf =>
          simp only [hversion, hnTime, hnBits, hnonce] at h
          refine ⟨versionBuf, nTimeBuf, nBitsBuf, nonceBuf, length_writeUInt32LE hversion,
            length_writeUInt32LE hnBits, rfl, rfl, ?_⟩
          rw [← Except.ok.inj h]
          simp only [List.append_assoc]

theorem buildBlockHeader_root {root : Bytes 32}
    (h : buildBlockHeader version prevHash (Hex.encode root.val) nTime nBits nonce = .ok header) :
    (header.drop 36).take 32 = root.val := by
  obtain ⟨versionBuf, nTimeBuf, nBitsBuf, nonceBuf, hlen, -, -, -, rfl⟩ := buildBlockHeader_parts h
  have h36 : (versionBuf ++ fit 32 (Hex.decode prevHash).reverse).length = 36 := by simp [hlen]
  rw [fit_decode_encode, ← List.append_assoc versionBuf, ← h36, List.drop_left]
  exact List.take_left' root.property

theorem rebuildHeader_root {extraNonce1 : Text} {fields : ShareFields}
    (h : rebuildHeader rt work extraNonce1 fields = .ok header) :
    (header.drop 36).take 32 = (merkleRootOf rt work (coinbaseText work extraNonce1 fields)).val := by
  simp only [rebuildHeader, bind, Except.bind] at h
  split at h
  · cases h
  · exact buildBlockHeader_root h

def NodeTemplate.ids (template : NodeTemplate) : List Text :=
  template.transactions.map fun t => orDefault [] t.hash t.txid

theorem Built.merkleBranch (h : Built rt t) :
    merkleBranch rt t.rawTemplate.ids = .ok t.merkleBranch := by
  obtain ⟨now, h⟩ := h
  obtain ⟨coinbase1, coinbase2, branch, -, -, hbranch, ht⟩ := buildTemplate_eq h
  have hfield : t.merkleBranch = branch := congrArg BlockTemplate.merkleBranch ht
  rw [hfield]
  exact hbranch

theorem merkleRootOf_built (h : Built rt t) {txids : List (Bytes 32)}
    (hids : t.rawTemplate.ids = txids.map getHex) (hwork : work.merkleBranch = t.merkleBranch)
    (coinbaseHex : Text) :
    merkleRootOf rt work coinbaseHex =
      (computeMerkleRoot rt.sha256 (rt.sha256d (Hex.decode coinbaseHex) :: txids)).1 := by
  have hbranch := h.merkleBranch
  rw [hids, merkleBranch_getHex] at hbranch
  rw [merkleRootOf, hwork, ← Except.ok.inj hbranch, merkleFold_encode, computeMerkleRoot_cons]

end Root

end Tarcoin.Pool
