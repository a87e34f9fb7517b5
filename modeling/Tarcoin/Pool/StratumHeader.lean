import Tarcoin.Pool.BlockText
import Tarcoin.Pool.HexText

/-! `stratumHeader` is what a miner hashes from the fields of a `mining.notify` and its own
nonces; the pool rebuilds the same. -/
namespace Tarcoin.Pool

section Miner
variable (rt : Runtime)

/-- The Merkle root that a miner computes: the coinbase around the extra nonces, folded over the
announced branch. -/
def stratumRoot (job : Job) (extraNonce1 extraNonce2 : Text) : Bytes 32 :=
  job.merkleBranch.foldl (fun root branch => rt.sha256d (root.val ++ Hex.decode branch))
    (rt.sha256d (Hex.decode (job.coinbase1.getD []) ++ Hex.decode extraNonce1 ++
      Hex.decode extraNonce2 ++ Hex.decode (job.coinbase2.getD [])))

/-- A miner reverses the four bytes of each of the eight words of the announced previous hash. -/
def reverseWords (bytes : List UInt8) : List UInt8 :=
  (List.range 8).flatMap fun i => ((bytes.drop (4 * i)).take 4).reverse

/-- The header that a Stratum miner hashes, with all numbers little-endian. -/
def stratumHeader (job : Job) (extraNonce1 extraNonce2 nTime nonce : Text) : List UInt8 :=
  (Hex.decode job.version).reverse ++ reverseWords (Hex.decode job.stratumPrevHash) ++
    (stratumRoot rt job extraNonce1 extraNonce2).val ++ (Hex.decode nTime).reverse ++
    (Hex.decode job.nBits).reverse ++ (Hex.decode nonce).reverse

end Miner

theorem flatMap_swapWords (n : ℕ) {bytes : List UInt8} (h : bytes.length = 4 * n) :
    ((List.range n).flatMap fun i => (((swapWords bytes).drop (4 * i)).take 4).reverse) = bytes := by
  induction n generalizing bytes with
  | zero => rw [List.length_eq_zero_iff.mp h, List.range_zero, List.flatMap_nil]
  | succ n ih =>
    obtain _ | ⟨a, _ | ⟨b, _ | ⟨c, _ | ⟨d, rest⟩⟩⟩⟩ := bytes <;>
      simp only [List.length_nil, List.length_cons] at h <;> try omega
    rw [List.range_succ_eq_map, List.flatMap_cons, List.flatMap_map, swapWords]
    simp only [Nat.mul_succ]
    exact congrArg ([a, b, c, d] ++ ·) (ih (by omega))

theorem reverseWords_formatPrevHash (hex : Text) :
    reverseWords (Hex.decode (formatPrevHashForStratum hex)) = fit 32 (Hex.decode hex).reverse := by
  rw [formatPrevHashForStratum, Hex.decode_encode, reverseWords, flatMap_swapWords 8 (length_fit _ _)]

section Agreement
variable {rt : Runtime} {jobId : Text} {now : ℕ} {template : NodeTemplate} {t : BlockTemplate}

section
variable (h : buildTemplate rt jobId now template = .ok t)
include h

theorem stratumRoot_eq (extraNonce1 : List UInt8) {fields : ShareFields}
    (hextra : Hex8 fields.extraNonce2) :
    merkleRootOf rt (t.work t.coinbase1 t.coinbase2)
      (coinbaseText (t.work t.coinbase1 t.coinbase2) (Hex.encode extraNonce1) fields) =
      stratumRoot rt t.job (Hex.encode extraNonce1) fields.extraNonce2 := by
  obtain ⟨coinbase1, coinbase2, branch, hfront, -, -, rfl⟩ := buildTemplate_eq h
  obtain ⟨script, -, rfl⟩ := buildCoinbase1_eq hfront
  have hdecode := (Hex.decode_append hextra.2 (by rw [hextra.1]) coinbase2).1
  simp [merkleRootOf, merkleFold, coinbaseText, stratumRoot, BlockTemplate.work, BlockTemplate.job,
    Hex.decode_encode_append, Hex.decode_encode, hdecode]

theorem hex8_version (hpos : 0 ≤ template.version) (hlt : template.version < 2 ^ 32) :
    Hex8 t.version := by
  obtain ⟨coinbase1, coinbase2, branch, -, -, -, rfl⟩ := buildTemplate_eq h
  obtain ⟨n, hn⟩ := Int.eq_ofNat_of_zero_le hpos
  rw [hn] at hlt
  rw [hn, toString16, if_neg (by omega)]
  exact hex8_padStart (by exact_mod_cast hlt)

theorem rebuildHeader_eq (hpos : 0 ≤ template.version) (hlt : template.version < 2 ^ 32)
    (hbits : Hex8 template.bits) {extraNonce1 : List UInt8} {fields : ShareFields}
    (hplain : fields.versionBits = none) (hextra : Hex8 fields.extraNonce2)
    (htime : Hex8 fields.nTime) (hnonce : Hex8 fields.nonce) :
    rebuildHeader rt (t.work t.coinbase1 t.coinbase2) (Hex.encode extraNonce1) fields =
      .ok (stratumHeader rt t.job (Hex.encode extraNonce1) fields.extraNonce2 fields.nTime
        fields.nonce) := by
  have hversion := hex8_version h hpos hlt
  have hroot := stratumRoot_eq h extraNonce1 hextra
  obtain ⟨coinbase1, coinbase2, branch, -, -, -, ht⟩ := buildTemplate_eq h
  have hnBits : t.nBits = template.bits := congrArg BlockTemplate.nBits ht
  have hprev : t.stratumPrevHash = formatPrevHashForStratum t.prevHashBE := by rw [ht]
  rw [rebuildHeader, hplain, rollVersion, hroot]
  simp only [bind, Except.bind, buildBlockHeader, BlockTemplate.work, writeUInt32LE_decode hversion,
    writeUInt32LE_decode htime, hnBits, writeUInt32LE_decode hbits, writeUInt32LE_decode hnonce,
    fit_decode_encode]
  simp [stratumHeader, BlockTemplate.job, hprev, reverseWords_formatPrevHash, hnBits]

end

theorem length_decode_of_hex8 {s : Text} (hs : Hex8 s) : (Hex.decode s).length = 4 := by
  have hlen := (Hex.decode_append hs.2 (by rw [hs.1]) []).2
  rw [hs.1] at hlen
  omega

section
variable (h : buildTemplate rt jobId now template = .ok t) (hpos : 0 ≤ template.version)
  (hlt : template.version < 2 ^ 32)
include h hpos hlt

theorem length_stratumHeader (hbits : Hex8 template.bits)
    {extraNonce1 extraNonce2 nTime nonce : Text} (htime : Hex8 nTime) (hnonce : Hex8 nonce) :
    (stratumHeader rt t.job extraNonce1 extraNonce2 nTime nonce).length = 80 := by
  have hversion := hex8_version h hpos hlt
  have hroot : ∀ job, (stratumRoot rt job extraNonce1 extraNonce2).val.length = 32 :=
    fun job => (stratumRoot rt job extraNonce1 extraNonce2).property
  obtain ⟨coinbase1, coinbase2, branch, -, -, -, rfl⟩ := buildTemplate_eq h
  simp [stratumHeader, BlockTemplate.job, reverseWords_formatPrevHash, length_fit, hroot,
    length_decode_of_hex8 hversion, length_decode_of_hex8 hbits, length_decode_of_hex8 htime,
    length_decode_of_hex8 hnonce]

theorem prevHash_stratumHeader (extraNonce1 extraNonce2 nTime nonce : Text) {hash : Bytes 32}
    (hprev : template.previousblockhash = some (getHex hash)) :
    ((stratumHeader rt t.job extraNonce1 extraNonce2 nTime nonce).drop 4).take 32 = hash.val := by
  have hversion : (Hex.decode t.job.version).reverse.length = 4 := by
    rw [List.length_reverse]
    exact length_decode_of_hex8 (hex8_version h hpos hlt)
  have hfield : reverseWords (Hex.decode t.job.stratumPrevHash) = hash.val := by
    obtain ⟨coinbase1, coinbase2, branch, -, -, -, rfl⟩ := buildTemplate_eq h
    have hne : getHex hash ≠ [] := by
      intro hnil
      have hlen := congrArg List.length hnil
      simp [getHex, hash.property] at hlen
    simp only [BlockTemplate.job, reverseWords_formatPrevHash, hprev, orDefault, if_neg hne]
    rw [getHex, Hex.decode_encode, List.reverse_reverse]
    exact fit_eq_self hash.property
  simp only [stratumHeader, hfield, List.append_assoc]
  rw [← hversion, List.drop_left]
  exact List.take_left' hash.property

end

end Agreement

/-- The header that a submit to the shared pool is checked with, when the message has no version
bits and its nonces and time are eight digits, is the one that a miner builds from the job in place
and the extra nonce of its connection; its previous hash is the node's, in the order of the
header. -/
theorem header_agrees (rt : Runtime) (socket : ℕ) (s : Socket) (request : Request) (w : World)
    (a : Attempt) (extraNonce1 : Bytes 4) (ha : (screened rt socket s request w).2 = .attempt a)
    (hserver : s.server = .pool) (hextra1 : s.extraNonce1 = Hex.encode extraNonce1.val)
    (hbuilt : Built rt a.template) (hpos : 0 ≤ a.template.rawTemplate.version)
    (hlt : a.template.rawTemplate.version < 2 ^ 32) (hbits : Hex8 a.template.rawTemplate.bits)
    (hplain : a.fields.versionBits = none) (hextra2 : Hex8 a.fields.extraNonce2)
    (htime : Hex8 a.fields.nTime) (hnonce : Hex8 a.fields.nonce) :
    ∃ header, a.header rt = .ok header ∧ header.length = 80 ∧
      header = stratumHeader rt a.template.job s.extraNonce1 a.fields.extraNonce2 a.fields.nTime
        a.fields.nonce ∧
      ∀ hash : Bytes 32, a.template.rawTemplate.previousblockhash = some (getHex hash) →
        (header.drop 4).take 32 = hash.val := by
  obtain ⟨miner, r, fields, t, -, -, -, -, -, rfl⟩ := (screened_pool_attempt_iff rt hserver).mp ha
  obtain ⟨now, hbuild⟩ := hbuilt
  refine ⟨_, ?_, length_stratumHeader hbuild hpos hlt hbits htime hnonce, rfl, ?_⟩
  · rw [hextra1]
    exact rebuildHeader_eq hbuild hpos hlt hbits hplain hextra2 htime hnonce
  · exact fun hash hprev => prevHash_stratumHeader hbuild hpos hlt _ _ _ _ hprev

/-- A template on the block whose hash is the bytes from 0 to 31. -/
def NodeTemplate.onCounting : NodeTemplate :=
  { NodeTemplate.first [] with
    previousblockhash := some (getHex ⟨(List.range 32).map UInt8.ofNat, rfl⟩) }

theorem header_agrees_counting : ∃ a header,
    (screened .constant 0 ⟨.pool, false, .str [], [], "00000000".toList, startDiff, false, [], none, []⟩
      ⟨none, some (.arr [.str [], .str "00000000".toList, .str "00000000".toList,
        .str "5f5e1000".toList, .str "0000beef".toList])⟩
      (runPool .constant (.fresh true)
        [.fire (.refresh 0), .resume 0 (.template (some .onCounting))]).world).2 = .attempt a ∧
    a.header .constant = .ok header ∧ header = stratumHeader .constant a.template.job
      "00000000".toList "00000000".toList "5f5e1000".toList "0000beef".toList ∧
    (header.drop 4).take 32 = (List.range 32).map UInt8.ofNat := by
  obtain ⟨header, hheader, -, hminer, hprev⟩ := header_agrees .constant 0
    ⟨.pool, false, .str [], [], "00000000".toList, startDiff, false, [], none, []⟩
    ⟨none, some (.arr [.str [], .str "00000000".toList, .str "00000000".toList,
      .str "5f5e1000".toList, .str "0000beef".toList])⟩
    (runPool .constant (.fresh true)
      [.fire (.refresh 0), .resume 0 (.template (some .onCounting))]).world
    _ ⟨[0, 0, 0, 0], rfl⟩ rfl rfl (by decide) ⟨0, rfl⟩ (by decide) (by decide) (by decide) rfl
    (by decide) (by decide) (by decide)
  exact ⟨_, header, rfl, hheader, hminer, hprev ⟨_, rfl⟩ rfl⟩

end Tarcoin.Pool
