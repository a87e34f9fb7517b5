import Tarcoin.Coins.Utxo
import Tarcoin.Serialize.ScriptCodec

/-! `Coin::Serialize`, undo data of `undo.h`, and the record that `WriteBlockUndo` appends to the undo
file. -/
namespace Tarcoin
open StreamCodec GuardedSum

abbrev TxUndo := List Coin

abbrev BlockUndo := List TxUndo

/-- What the undo file depends on besides its format: the keys of the script codec, and the
hash over the bytes that a `HashWriter` was given. -/
structure UndoRules where
  keys : PubKeyRules
  hash : List UInt8 → Uint256

section Coin

variable (K : PubKeyRules)

/-- `Coin::Serialize`, with its assertion; the code is a `uint32_t`. -/
def writeCoin (c : Coin) : Except Fault (List UInt8) :=
  if c.isSpent then .error .assertion
  else .ok (writeVarInt 32 ((c.nHeight <<< 1 ||| c.fCoinBase.toNat) % 2 ^ 32) ++ writeTxOut K c.out)

def readCoin : ByteReader Coin :=
  (readVarInt 32).bind fun code =>
    (readTxOut K).map fun out => ⟨out, code &&& 1 != 0, code >>> 1⟩

end Coin

section Format

variable (D : UndoRules)

/-- `TxInUndoFormatter::Ser`; the code is a `uint32_t`. -/
def writeTxInUndo (txout : Coin) : List UInt8 :=
  writeVarInt 32 ((txout.nHeight <<< 1 ||| txout.fCoinBase.toNat) % 2 ^ 32) ++
    ((if 0 < txout.nHeight then [0] else []) ++ writeTxOut D.keys txout.out)

/-- `TxInUndoFormatter::Unser`, which skips the version that old files have. -/
def readTxInUndo : ByteReader Coin :=
  (readVarInt 32).bind fun nCode =>
    (if 0 < nCode >>> 1 then (readVarInt 32).map fun _ => () else .pure ()).bind fun _ =>
      (readTxOut D.keys).map fun out => ⟨out, nCode &&& 1 != 0, nCode >>> 1⟩

def writeBlockUndoData (undo : BlockUndo) : List UInt8 :=
  writeVector (writeVector (writeTxInUndo D)) undo

def readBlockUndoData : ByteReader BlockUndo := readVector (readVector (readTxInUndo D))

/-- The undo data and the checksum that `WriteBlockUndo` appends. -/
def writeBlockUndo (hashPrev : Uint256) (undo : BlockUndo) : List UInt8 :=
  let data := writeBlockUndoData D undo
  data ++ leBytes 32 (D.hash (leBytes 32 hashPrev.toNat ++ data)).toNat

/-- `ReadBlockUndo`, from the position of the record on. The checksum is taken over the bytes
that were read. -/
def readBlockUndo (hashPrev : Uint256) (file : List UInt8) : Option BlockUndo :=
  match readBlockUndoData D file with
  | .error _ => none
  | .ok (undo, rest) =>
    match readData 32 rest with
    | .error _ => none
    | .ok (hashChecksum, _) =>
      let data := file.take (file.length - rest.length)
      if hashChecksum ≠ (D.hash (leBytes 32 hashPrev.toNat ++ data)).toNat then none
      else some undo

end Format

/-- A coin as `AddCoin` can have stored it: with a script that may be spendable, made by a block
after the genesis block, and with a height of 31 bits. -/
structure Storable (c : Coin) : Prop where
  spendable : isUnspendable c.out.scriptPubKey = false
  height_pos : 0 < c.nHeight
  height_lt : c.nHeight < 2 ^ 31

theorem Storable.script_le {c : Coin} (h : Storable c) :
    c.out.scriptPubKey.length ≤ maxScriptSize := by
  have hs := h.spendable
  simp only [isUnspendable, Bool.or_eq_false_iff, decide_eq_false_iff_not, not_lt] at hs
  exact hs.2

def coinAfterRead (c : Coin) : Coin :=
  ⟨⟨wrap 64 (decompressAmount (compressAmount (c.out.nValue % 2 ^ 64).toNat)), c.out.scriptPubKey⟩,
    c.fCoinBase, c.nHeight⟩

variable {D : UndoRules}

variable {K : PubKeyRules} {c : Coin}

theorem reads_coinCode (h : c.nHeight < 2 ^ 31) :
    ∃ code, Reads (readVarInt 32)
        (writeVarInt 32 ((c.nHeight <<< 1 ||| c.fCoinBase.toNat) % 2 ^ 32)) code ∧
      code >>> 1 = c.nHeight ∧ (code &&& 1 != 0) = c.fCoinBase := by
  have hbit : c.fCoinBase.toNat < 2 ^ 1 := by cases c.fCoinBase <;> decide
  have hcode : (c.nHeight <<< 1 ||| c.fCoinBase.toNat) = 2 * c.nHeight + c.fCoinBase.toNat := by
    rw [← Nat.shiftLeft_add_eq_or_of_lt hbit]
    omega
  have hlt : 2 * c.nHeight + c.fCoinBase.toNat < 2 ^ 32 := by omega
  refine ⟨2 * c.nHeight + c.fCoinBase.toNat, ?_, ?_, ?_⟩
  · rw [hcode, Nat.mod_eq_of_lt hlt]
    exact reads_varInt (by norm_num) hlt
  · omega
  · rw [Nat.and_one_is_mod, Nat.mul_add_mod]
    cases c.fCoinBase <;> rfl

theorem length_lt_of_le {script : Script} (h : script.length ≤ maxScriptSize) :
    script.length + nSpecialScripts < 2 ^ 32 := by
  simp only [maxScriptSize, nSpecialScripts] at h ⊢
  omega

theorem reads_txInUndo (hheight : c.nHeight < 2 ^ 31)
    (hscript : c.out.scriptPubKey.length ≤ maxScriptSize) :
    Reads (readTxInUndo D) (writeTxInUndo D c) (coinAfterRead c) := by
  obtain ⟨code, hcode, hshift, hlow⟩ := reads_coinCode hheight
  apply hcode.bind
  rw [hshift, hlow]
  have hout := (@reads_txOut D.keys c.out (length_lt_of_le hscript)).map
    fun out => (⟨out, c.fCoinBase, c.nHeight⟩ : Coin)
  rw [scriptAfterRead, if_pos hscript] at hout
  split_ifs
  · have hzero : Reads (readVarInt 32) [0] 0 := @reads_varInt 32 0 (by norm_num) (by norm_num)
    exact (hzero.map fun _ => ()).bind hout
  · exact (reads_pure ()).bind hout

theorem readBlockUndo_writeBlockUndo (hashPrev : Uint256) {undo : BlockUndo}
    (hlen : undo.length ≤ maxSize) (hlens : ∀ txundo ∈ undo, txundo.length ≤ maxSize)
    (hcoins : ∀ txundo ∈ undo, ∀ c ∈ txundo, Storable c) (rest : List UInt8) :
    readBlockUndo D hashPrev (writeBlockUndo D hashPrev undo ++ rest) =
      some (undo.map (List.map coinAfterRead)) := by
  have hdata : Reads (readBlockUndoData D) (writeBlockUndoData D undo)
      (undo.map (List.map coinAfterRead)) :=
    reads_vector hlen fun txundo htx =>
      reads_vector (hlens txundo htx) fun c hc =>
        reads_txInUndo (hcoins txundo htx c hc).height_lt (hcoins txundo htx c hc).script_le
  have hsum : Reads (readData 32)
      (leBytes 32 (D.hash (leBytes 32 hashPrev.toNat ++ writeBlockUndoData D undo)).toNat)
      (D.hash (leBytes 32 hashPrev.toNat ++ writeBlockUndoData D undo)).toNat :=
    reads_data (lt_of_lt_of_eq (BitVec.isLt _) (by norm_num))
  simp only [writeBlockUndo, List.append_assoc, readBlockUndo]
  rw [hdata]
  simp [hsum rest]

theorem eq_toNat_of_wrap_eq {d : ℕ} {n : ℤ} (hd : d < 2 ^ 64) (hn : 0 ≤ n)
    (h : wrap 64 d = n) : d = n.toNat := by
  unfold wrap at h
  omega

theorem coinAfterRead_eq_iff {c : Coin} (hc : MoneyRange c.out.nValue) :
    coinAfterRead c = c ↔ AmountFits c.out.nValue.toNat := by
  constructor
  · intro h
    have hvalue : wrap 64 (decompressAmount (compressAmount (c.out.nValue % 2 ^ 64).toNat))
        = c.out.nValue := congrArg (fun c => c.out.nValue) h
    obtain ⟨hmod, hle, -⟩ := toNat_emod_of_moneyRange hc
    rw [hmod] at hvalue
    apply (decompressAmount_compressAmount_iff hle).mp
    exact eq_toNat_of_wrap_eq (decompressAmount_lt (compressAmount_lt _)) hc.1 hvalue
  · intro hfit
    rw [coinAfterRead, wrap_decompress_compress hc hfit]

def AmountSurvives (n : Amount) : Prop :=
  wrap 64 (decompressAmount (compressAmount (n % 2 ^ 64).toNat)) = n

instance : DecidablePred AmountSurvives := fun _ => inferInstanceAs (Decidable (_ = _))

theorem AmountSurvives.not_spent (h : AmountSurvives c.out.nValue) : c.isSpent = false := by
  by_contra hspent
  have hnull : c.out.nValue = -1 := by simpa [Coin.isSpent, TxOut.isNull] using hspent
  rw [hnull] at h
  exact absurd h (by decide)

theorem reads_coin (hheight : c.nHeight < 2 ^ 31)
    (hlen : c.out.scriptPubKey.length + nSpecialScripts < 2 ^ 32)
    (hamount : AmountSurvives c.out.nValue) :
    ∃ bytes, writeCoin K c = .ok bytes ∧ Reads (readCoin K) bytes
      ⟨⟨c.out.nValue, scriptAfterRead c.out.scriptPubKey⟩, c.fCoinBase, c.nHeight⟩ := by
  obtain ⟨code, hcode, hshift, hlow⟩ := reads_coinCode hheight
  refine ⟨_, if_neg (by simp [hamount.not_spent]), hcode.bind ?_⟩
  have hout := @reads_txOut K c.out hlen
  rw [hamount] at hout
  rw [hshift, hlow]
  exact hout.map _

/-- Scripts within the size limit, coins with such scripts and amounts that survive, and the undo
data of such coins come back as they were written. -/
theorem coin_roundTrip (D : UndoRules) :
    (∀ script : Script, script.length ≤ maxScriptSize →
      Reads (readScript D.keys) (writeScript D.keys script) script) ∧
    (∀ c : Coin, AmountSurvives c.out.nValue → c.out.scriptPubKey.length ≤ maxScriptSize →
      c.nHeight < 2 ^ 31 →
      ∃ bytes, writeCoin D.keys c = .ok bytes ∧ Reads (readCoin D.keys) bytes c) ∧
    ∀ undo : TxUndo, undo.length ≤ maxSize → (∀ c ∈ undo, AmountSurvives c.out.nValue ∧
      c.out.scriptPubKey.length ≤ maxScriptSize ∧ c.nHeight < 2 ^ 31) →
      Reads (readVector (readTxInUndo D)) (writeVector (writeTxInUndo D) undo) undo := by
  refine ⟨fun script hscript => ?_, fun c hamount hscript hheight => ?_, fun undo hlen hall => ?_⟩
  · have hread := @reads_script D.keys script (length_lt_of_le hscript)
    rwa [scriptAfterRead, if_pos hscript] at hread
  · have hread := @reads_coin D.keys c hheight (length_lt_of_le hscript) hamount
    rwa [scriptAfterRead, if_pos hscript] at hread
  · have hsame : undo.map coinAfterRead = undo :=
      (List.map_congr_left fun c hc => by rw [coinAfterRead, (hall c hc).1]).trans (List.map_id' undo)
    have hread := reads_vector hlen fun c hc => reads_txInUndo (D := D) (hall c hc).2.2 (hall c hc).2.1
    rwa [hsame] at hread

/-- A coin with a script of no special form and one that pays to a key hash. -/
def twoCoins : TxUndo := [⟨⟨10000, [opDup]⟩, true, 7⟩,
  ⟨⟨5000000000, [0x76, 0xa9, 20] ++ List.replicate 20 1 ++ [0x88, 0xac]⟩, false, 300000⟩]

theorem coin_roundTrip_two : Reads (readVector (readTxInUndo ⟨noUncompressedKeys, fun _ => 0⟩))
    (writeVector (writeTxInUndo ⟨noUncompressedKeys, fun _ => 0⟩) twoCoins) twoCoins :=
  (coin_roundTrip ⟨noUncompressedKeys, fun _ => 0⟩).2.2 _ (by decide) (by decide)

/-- A coin with a script over the size limit comes back with another script, and undo data with too
many coins does not come back. -/
theorem coin_not_roundTrip : (AmountSurvives 0 ∧ ∃ bytes,
    writeCoin noUncompressedKeys ⟨⟨0, List.replicate 10001 opDup⟩, false, 0⟩ = .ok bytes ∧
    Reads (readCoin noUncompressedKeys) bytes ⟨⟨0, [opReturn]⟩, false, 0⟩ ∧
    List.replicate 10001 opDup ≠ [opReturn]) ∧
    readVector (readTxInUndo ⟨noUncompressedKeys, fun _ => 0⟩)
      (writeVector (writeTxInUndo ⟨noUncompressedKeys, fun _ => 0⟩)
        (List.replicate (maxSize + 1) ⟨⟨0, [opDup]⟩, false, 0⟩)) = .error .compactSizeTooLarge := by
  have hmany : (List.replicate (maxSize + 1) (⟨⟨0, [opDup]⟩, false, 0⟩ : Coin)).length = maxSize + 1 :=
    List.length_replicate
  refine ⟨?_, readVector_too_large _ _ (by rw [hmany]; exact Nat.lt_succ_self _)
    (by rw [hmany]; decide)⟩
  have hamount : AmountSurvives 0 := by decide
  have hlength : (List.replicate 10001 opDup).length = 10001 := List.length_replicate
  obtain ⟨bytes, hwrite, hread⟩ := @reads_coin noUncompressedKeys
    ⟨⟨0, List.replicate 10001 opDup⟩, false, 0⟩ (by norm_num) (by rw [hlength]; decide) hamount
  rw [scriptAfterRead, if_neg (by rw [hlength]; decide)] at hread
  refine ⟨hamount, bytes, hwrite, hread, fun h => ?_⟩
  have hlen := congrArg List.length h
  rw [hlength] at hlen
  cases hlen

end Tarcoin
