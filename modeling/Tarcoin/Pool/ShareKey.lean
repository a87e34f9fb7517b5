import Tarcoin.Pool.BlockText
import Tarcoin.Pool.HexText

/-! A share is remembered by the text of its fields, its header is made of numbers. For fields of
eight digits a header determines the key, if the Merkle root determines the extra nonces. -/
namespace Tarcoin.Pool

section Key
variable {rt : Runtime}

variable {header : List UInt8} {fields : ShareFields}

theorem buildBlockHeader_words {version prevHash merkleRoot nTime nBits nonce : Text}
    (h : buildBlockHeader version prevHash merkleRoot nTime nBits nonce = .ok header) :
    writeUInt32LE (parseInt16 nTime) = .ok ((header.drop 68).take 4) ∧
      writeUInt32LE (parseInt16 nonce) = .ok (header.drop 76) := by
  obtain ⟨versionBuf, nTimeBuf, nBitsBuf, nonceBuf, hversion, hnBits, htime, hnonce, rfl⟩ :=
    buildBlockHeader_parts h
  have h4 := length_writeUInt32LE htime
  have h68 : (versionBuf ++ (fit 32 (Hex.decode prevHash).reverse ++
      fit 32 (Hex.decode merkleRoot))).length = 68 := by
    simp [hversion]
  have h76 : (versionBuf ++ (fit 32 (Hex.decode prevHash).reverse ++
      fit 32 (Hex.decode merkleRoot)) ++ (nTimeBuf ++ nBitsBuf)).length = 76 := by
    rw [List.length_append, h68, List.length_append, h4, hnBits]
  rw [htime, hnonce]
  constructor
  · rw [← List.append_assoc (fit 32 _), ← List.append_assoc versionBuf, List.drop_left' h68,
      List.take_left' h4]
  · rw [← List.append_assoc (fit 32 _), ← List.append_assoc versionBuf, ← List.append_assoc nTimeBuf,
      ← List.append_assoc _ (nTimeBuf ++ nBitsBuf), List.drop_left' h76]

theorem rebuildHeader_words {work : Work} {extraNonce1 : Text}
    (h : rebuildHeader rt work extraNonce1 fields = .ok header) :
    writeUInt32LE (parseInt16 fields.nTime) = .ok ((header.drop 68).take 4) ∧
      writeUInt32LE (parseInt16 fields.nonce) = .ok (header.drop 76) := by
  simp only [rebuildHeader, bind, Except.bind] at h
  split at h
  · cases h
  · exact buildBlockHeader_words h

/-- The Merkle root of a job determines the bytes of sixteen digits of extra nonces. -/
def Distinguishes (rt : Runtime) (t : BlockTemplate) : Prop :=
  ∀ e e' : Text, e.length = 16 → e'.length = 16 → Hex.IsHex e → Hex.IsHex e' →
    merkleRootOf rt (t.work t.coinbase1 t.coinbase2) (t.coinbase1 ++ e ++ t.coinbase2) =
      merkleRootOf rt (t.work t.coinbase1 t.coinbase2) (t.coinbase1 ++ e' ++ t.coinbase2) →
    Hex.decode e = Hex.decode e'

/-- The fields of a share under the name of a job, eight digits each. -/
structure WellFormed (rt : Runtime) (t : BlockTemplate) (fields : ShareFields) : Prop where
  extraNonce2 : Hex8 fields.extraNonce2
  nTime : Hex8 fields.nTime
  nonce : Hex8 fields.nonce
  shareKey : fields.shareKey = rt.toLowerCase t.jobId ++ ':' :: rt.toLowerCase fields.extraNonce2 ++
    ':' :: rt.toLowerCase fields.nTime ++ ':' :: rt.toLowerCase fields.nonce

theorem toLowerCase_of_hex8 {s : Text} (hs : Hex8 s) : rt.toLowerCase s = s.map Char.toLower :=
  rt.toLowerCase_ascii s hs.2.ascii

theorem shareKey_of_shareFields {request : Request} {serial : ℕ} {jobId : Text}
    (h : request.shareFields rt serial = .ok fields) (hjob : fields.jobId = .str jobId) :
    fields.shareKey = rt.toLowerCase jobId ++ ':' :: rt.toLowerCase fields.extraNonce2 ++
      ':' :: rt.toLowerCase fields.nTime ++ ':' :: rt.toLowerCase fields.nonce := by
  simp only [Request.shareFields, bind, Except.bind] at h
  split at h
  · cases h
  rename_i items hitems
  split at h
  · cases h
  rename_i text htext
  repeat' split at h
  all_goals cases h
  have hname : text = jobId := by
    cases hitem : items[1]? with
    | none =>
      rw [hitem] at hjob
      cases hjob
    | some v =>
      rw [hitem] at hjob htext
      cases v <;> cases hjob
      exact (Except.ok.inj htext).symm
  rw [hname]

theorem shareKey_of_header {t : BlockTemplate} (ht : Distinguishes rt t) {fields' : ShareFields}
    (hf : WellFormed rt t fields) (hf' : WellFormed rt t fields') {x x' : List UInt8}
    (hx : x.length = 4) (hx' : x'.length = 4)
    (h : rebuildHeader rt (t.work t.coinbase1 t.coinbase2) (Hex.encode x) fields = .ok header)
    (h' : rebuildHeader rt (t.work t.coinbase1 t.coinbase2) (Hex.encode x') fields' = .ok header) :
    x = x' ∧ fields.shareKey = fields'.shareKey := by
  obtain ⟨htime, hnonce⟩ := rebuildHeader_words h
  obtain ⟨htime', hnonce'⟩ := rebuildHeader_words h'
  have hroot := Subtype.ext ((rebuildHeader_root rt h).symm.trans (rebuildHeader_root rt h'))
  have hnonces : ∀ {y : List UInt8} {f : ShareFields}, y.length = 4 → WellFormed rt t f →
      (Hex.encode y ++ f.extraNonce2).length = 16 ∧ Hex.IsHex (Hex.encode y ++ f.extraNonce2) := by
    intro y f hy hf
    rw [List.length_append, Hex.length_encode, hy, hf.extraNonce2.1]
    exact ⟨rfl, fun c hc => (List.mem_append.mp hc).elim (Hex.isHex_encode y c) (hf.extraNonce2.2 c)⟩
  have hbytes := ht (Hex.encode x ++ fields.extraNonce2) (Hex.encode x' ++ fields'.extraNonce2)
    (hnonces hx hf).1 (hnonces hx' hf').1 (hnonces hx hf).2 (hnonces hx' hf').2 (by
      rw [← List.append_assoc, ← List.append_assoc]
      exact hroot)
  rw [Hex.decode_encode_append, Hex.decode_encode_append] at hbytes
  obtain ⟨hfirst, hsecond⟩ := List.append_inj hbytes (hx.trans hx'.symm)
  have hlower : fields.extraNonce2.map Char.toLower = fields'.extraNonce2.map Char.toLower := by
    apply Hex.map_toLower_of_value hf.extraNonce2.2
    apply Hex.map_value_of_decode hf.extraNonce2.2 hf'.extraNonce2.2 _ _ hsecond
    · rw [hf.extraNonce2.1, hf'.extraNonce2.1]
    · rw [hf.extraNonce2.1]
  refine ⟨hfirst, ?_⟩
  rw [hf.shareKey, hf'.shareKey, toLowerCase_of_hex8 hf.extraNonce2, toLowerCase_of_hex8 hf.nTime,
    toLowerCase_of_hex8 hf.nonce, toLowerCase_of_hex8 hf'.extraNonce2, toLowerCase_of_hex8 hf'.nTime,
    toLowerCase_of_hex8 hf'.nonce, hlower, toLower_of_written hf.nTime hf'.nTime htime htime',
    toLower_of_written hf.nonce hf'.nonce hnonce hnonce']

end Key

section Revealing

/-- A runtime whose digest keeps the bytes from the 45th on, where the extra nonces of a coinbase
for a small height stand. -/
def Runtime.revealing : Runtime :=
  { Runtime.constant with
    sha256 := fun bytes =>
      if h : bytes.length = 32 then ⟨bytes, h⟩ else ⟨fit 32 (bytes.drop 44), length_fit 32 _⟩ }

theorem sha256d_revealing {front bytes : List UInt8} (hfront : front.length = 44) :
    (Runtime.revealing.sha256d (front ++ bytes)).val = fit 32 bytes := by
  have hlen : (front ++ bytes).length ≠ 32 := by
    rw [List.length_append]
    omega
  have hsha : Runtime.revealing.sha256 (front ++ bytes) = ⟨fit 32 bytes, length_fit 32 bytes⟩ := by
    simp only [Runtime.revealing, dif_neg hlen, List.drop_left' hfront]
  rw [Runtime.sha256d, hsha]
  simp only [Runtime.revealing, length_fit, dif_pos]

theorem distinguishes_revealing {t : BlockTemplate} (hbranch : t.merkleBranch = [])
    (front : List UInt8) (hfront : front.length = 44) (hcoinbase : t.coinbase1 = Hex.encode front) :
    Distinguishes .revealing t := by
  have hroot : ∀ e : Text, e.length = 16 → Hex.IsHex e →
      (merkleRootOf .revealing (t.work t.coinbase1 t.coinbase2)
        (t.coinbase1 ++ e ++ t.coinbase2)).val.take 8 = Hex.decode e := by
    intro e hlen hhex
    obtain ⟨hdecode, hbytes⟩ := Hex.decode_append hhex (by rw [hlen]) t.coinbase2
    simp only [merkleRootOf, BlockTemplate.work, hbranch, merkleFold, List.foldl_nil]
    rw [hcoinbase, List.append_assoc, Hex.decode_encode_append, hdecode, sha256d_revealing hfront, fit,
      List.take_take, List.append_assoc, List.take_left' (by omega)]
  intro e e' hlen hlen' hhex hhex' h
  rw [← hroot e hlen hhex, ← hroot e' hlen' hhex', h]

end Revealing

end Tarcoin.Pool
