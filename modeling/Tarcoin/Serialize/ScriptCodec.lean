import Tarcoin.Serialize.AmountCodec
import Tarcoin.Serialize.VarInt

/-! `ScriptCompression` and `TxOutCompression` of `compressor.h`, with curve arithmetic as
`PubKeyRules`. -/
namespace Tarcoin
open StreamCodec GuardedSum

/-- The two `CPubKey` operations, and that expanding the compressed form of a valid
uncompressed key gives that key back. -/
structure PubKeyRules where
  isFullyValid : List UInt8 → Bool
  decompress : List UInt8 → Option (List UInt8)
  decompress_of_valid : ∀ key, key.length = 65 → key.take 1 = [4] → isFullyValid key = true →
    decompress ((2 ||| (key.getD 64 0 &&& 1)) :: (key.drop 1).take 32) = some key

def isToKeyID (script : Script) : Option (List UInt8) :=
  if script.length = 25 ∧ script.take 3 = [opDup, opHash160, 20] ∧
      script.drop 23 = [opEqualVerify, opCheckSig] then some ((script.drop 3).take 20)
  else none

def isToScriptID (script : Script) : Option (List UInt8) :=
  if script.length = 23 ∧ script.take 2 = [opHash160, 20] ∧ script.drop 22 = [opEqual] then
    some ((script.drop 2).take 20)
  else none

section Keys

variable (K : PubKeyRules)

/-- `IsToPubKey`; an uncompressed key must be valid. -/
def isToPubKey (script : Script) : Option (List UInt8) :=
  if script.length = 35 ∧ script.take 1 = [33] ∧ script.drop 34 = [opCheckSig] ∧
      ((script.drop 1).take 1 = [2] ∨ (script.drop 1).take 1 = [3]) then
    some ((script.drop 1).take 33)
  else if script.length = 67 ∧ script.take 1 = [65] ∧ script.drop 66 = [opCheckSig] ∧
      (script.drop 1).take 1 = [4] then
    if K.isFullyValid ((script.drop 1).take 65) then some ((script.drop 1).take 65) else none
  else none

def compressPubKey (pubkey : List UInt8) : Option (List UInt8) :=
  if pubkey.take 1 = [2] ∨ pubkey.take 1 = [3] then
    some (pubkey.take 1 ++ (pubkey.drop 1).take 32)
  else if pubkey.take 1 = [4] then
    some ((4 ||| (pubkey.getD 64 0 &&& 1)) :: (pubkey.drop 1).take 32)
  else none

def compressScript (script : Script) : Option (List UInt8) :=
  match isToKeyID script with
  | some keyID => some (0 :: keyID)
  | none =>
    match isToScriptID script with
    | some scriptID => some (1 :: scriptID)
    | none => (isToPubKey K script).bind compressPubKey

def getSpecialScriptSize (nSize : ℕ) : ℕ :=
  if nSize = 0 ∨ nSize = 1 then 20
  else if nSize = 2 ∨ nSize = 3 ∨ nSize = 4 ∨ nSize = 5 then 32
  else 0

def decompressScript (nSize : ℕ) (data : List UInt8) : Option Script :=
  match nSize with
  | 0 => some ([opDup, opHash160, 20] ++ data.take 20 ++ [opEqualVerify, opCheckSig])
  | 1 => some ([opHash160, 20] ++ data.take 20 ++ [opEqual])
  | 2 => some ([33, 2] ++ data.take 32 ++ [opCheckSig])
  | 3 => some ([33, 3] ++ data.take 32 ++ [opCheckSig])
  | 4 => (K.decompress (2 :: data.take 32)).map fun pubkey => [65] ++ pubkey ++ [opCheckSig]
  | 5 => (K.decompress (3 :: data.take 32)).map fun pubkey => [65] ++ pubkey ++ [opCheckSig]
  | _ => none

def nSpecialScripts : ℕ := 6

/-- `ScriptCompression::Ser`; the size is an `unsigned int`. -/
def writeScript (script : Script) : List UInt8 :=
  match compressScript K script with
  | some compr => compr
  | none => writeVarInt 32 ((script.length + nSpecialScripts) % 2 ^ 32) ++ script

/-- `ScriptCompression::Unser` into an empty script. -/
def readScript : ByteReader Script :=
  (readVarInt 32).bind fun nSize =>
    if nSize < nSpecialScripts then
      (Reader.take .endOfData (getSpecialScriptSize nSize)).map fun vch =>
        (decompressScript K nSize vch).getD []
    else if maxScriptSize < nSize - nSpecialScripts then
      (Reader.take .endOfData (nSize - nSpecialScripts)).map fun _ => [opReturn]
    else Reader.take .endOfData (nSize - nSpecialScripts)

/-- `TxOutCompression`: the amount through `AmountCompression`, then the script. -/
def writeTxOut (out : TxOut) : List UInt8 :=
  writeVarInt 64 (compressAmount (out.nValue % 2 ^ 64).toNat) ++ writeScript K out.scriptPubKey

def readTxOut : ByteReader TxOut :=
  (readVarInt 64).bind fun v => (readScript K).map fun script =>
    ⟨wrap 64 (decompressAmount v), script⟩

end Keys

theorem take_middle_drop {α : Type*} (l : List α) (a b : ℕ) :
    l.take a ++ ((l.drop a).take b ++ l.drop (a + b)) = l := by
  rw [← List.drop_drop, List.take_append_drop, List.take_append_drop]

section RoundTrip

variable {K : PubKeyRules}

/-- A special form: a tag below six, the right number of bytes, and the script back. -/
def SpecialForm (K : PubKeyRules) (script : Script) (compr : List UInt8) : Prop :=
  ∃ tag data, compr = UInt8.ofNat tag :: data ∧ tag < nSpecialScripts ∧
    data.length = getSpecialScriptSize tag ∧ decompressScript K tag data = some script

variable {script : Script} {compr : List UInt8}

theorem hash_special {tag k : ℕ} {front back : Script} (htag : tag < 2) (hlen : k + 20 ≤ script.length)
    (hfront : script.take k = front) (hback : script.drop (k + 20) = back)
    (hread : ∀ data, decompressScript K tag data = some (front ++ (data.take 20 ++ back))) :
    SpecialForm K script (UInt8.ofNat tag :: (script.drop k).take 20) := by
  have hsize : ((script.drop k).take 20).length = 20 := by
    rw [List.length_take, List.length_drop]
    omega
  refine ⟨tag, _, rfl, htag.trans (by decide), hsize.trans (by interval_cases tag <;> rfl), ?_⟩
  rw [hread, List.take_of_length_le hsize.le, ← hfront, ← hback, take_middle_drop]

theorem isToKeyID_special {keyID : List UInt8} (h : isToKeyID script = some keyID) :
    SpecialForm K script (0 :: keyID) := by
  unfold isToKeyID at h
  split_ifs at h with hc
  obtain ⟨hlen, hhead, htail⟩ := hc
  cases h
  exact hash_special (by decide) (by omega) hhead htail fun _ => rfl

theorem isToScriptID_special {scriptID : List UInt8} (h : isToScriptID script = some scriptID) :
    SpecialForm K script (1 :: scriptID) := by
  unfold isToScriptID at h
  split_ifs at h with hc
  obtain ⟨hlen, hhead, htail⟩ := hc
  cases h
  exact hash_special (by decide) (by omega) hhead htail fun _ => rfl

theorem and_one_eq (x : UInt8) : x &&& 1 = 0 ∨ x &&& 1 = 1 := by
  have h : (x &&& 1).toNat = x.toNat % 2 := by
    exact Nat.and_one_is_mod _
  rcases Nat.mod_two_eq_zero_or_one x.toNat with hx | hx
  · exact .inl (UInt8.toNat_inj.mp (h.trans hx))
  · exact .inr (UInt8.toNat_inj.mp (h.trans hx))

theorem compressedKey_special (tag : ℕ) (ht : tag = 2 ∨ tag = 3) (hlen : script.length = 35)
    (hhead : script.take 1 = [33]) (htail : script.drop 34 = [opCheckSig])
    (hkey : (script.drop 1).take 1 = [UInt8.ofNat tag]) :
    SpecialForm K script (UInt8.ofNat tag :: (script.drop 2).take 32) := by
  have hk : ((script.drop 2).take 32).length = 32 := by simp [hlen]
  have hparts : [33] ++ ([UInt8.ofNat tag] ++ ((script.drop 2).take 32 ++ [opCheckSig])) = script := by
    have houter := take_middle_drop script 1 1
    rw [hhead, hkey] at houter
    have hdrop : script.drop 2 = (script.drop 2).take 32 ++ [opCheckSig] := by
      have := List.take_append_drop 32 (script.drop 2)
      rw [List.drop_drop, htail] at this
      exact this.symm
    rw [← hdrop]
    exact houter
  rcases ht with rfl | rfl
  · refine ⟨2, _, rfl, by decide, hk, ?_⟩
    simp only [decompressScript, List.take_of_length_le hk.le]
    exact congrArg some hparts
  · refine ⟨3, _, rfl, by decide, hk, ?_⟩
    simp only [decompressScript, List.take_of_length_le hk.le]
    exact congrArg some hparts

theorem uncompressedKey_special {script key : List UInt8} (hklen : key.length = 65)
    (hkey : key.take 1 = [4]) (hvalid : K.isFullyValid key = true)
    (hparts : [65] ++ (key ++ [opCheckSig]) = script) :
    SpecialForm K script ((4 ||| (key.getD 64 0 &&& 1)) :: (key.drop 1).take 32) := by
  have hdata : ((key.drop 1).take 32).length = 32 := by simp [hklen]
  have hexpand := K.decompress_of_valid key hklen hkey hvalid
  rcases and_one_eq (key.getD 64 0) with hp | hp
  · rw [hp] at hexpand ⊢
    refine ⟨4, _, rfl, by decide, hdata, ?_⟩
    simp only [decompressScript, List.take_of_length_le hdata.le]
    rw [show (2 : UInt8) = 2 ||| 0 from rfl, hexpand]
    exact congrArg some hparts
  · rw [hp] at hexpand ⊢
    refine ⟨5, _, rfl, by decide, hdata, ?_⟩
    simp only [decompressScript, List.take_of_length_le hdata.le]
    rw [show (3 : UInt8) = 2 ||| 1 from rfl, hexpand]
    exact congrArg some hparts

theorem isToPubKey_special {script pubkey : List UInt8} (h : isToPubKey K script = some pubkey)
    (hc : compressPubKey pubkey = some compr) : SpecialForm K script compr := by
  unfold isToPubKey at h
  split_ifs at h with h35 h67 hvalid
  · obtain ⟨hlen, hhead, htail, hkey⟩ := h35
    cases h
    have hfirst : ((script.drop 1).take 33).take 1 = (script.drop 1).take 1 := by
      rw [List.take_take]
      norm_num
    have hbody : (((script.drop 1).take 33).drop 1).take 32 = (script.drop 2).take 32 := by
      rw [List.drop_take, List.take_take]
      norm_num
    simp only [compressPubKey, hfirst, hbody, if_pos hkey] at hc
    cases hc
    rcases hkey with hkey | hkey
    · rw [hkey]
      exact compressedKey_special 2 (.inl rfl) hlen hhead htail hkey
    · rw [hkey]
      exact compressedKey_special 3 (.inr rfl) hlen hhead htail hkey
  · obtain ⟨hlen, hhead, htail, hkey⟩ := h67
    cases h
    have hklen : ((script.drop 1).take 65).length = 65 := by simp [hlen]
    have hfirst : ((script.drop 1).take 65).take 1 = [4] := by
      rw [List.take_take]
      exact hkey
    have hparts := take_middle_drop script 1 65
    rw [hhead, htail] at hparts
    rw [compressPubKey, hfirst, if_pos rfl] at hc
    cases hc
    exact uncompressedKey_special hklen hfirst hvalid hparts

theorem compressScript_special (h : compressScript K script = some compr) :
    SpecialForm K script compr := by
  unfold compressScript at h
  split at h
  · rename_i keyID hid
    cases h
    exact isToKeyID_special hid
  · split at h
    · rename_i scriptID hid
      cases h
      exact isToScriptID_special hid
    · obtain ⟨pubkey, hkey, hc⟩ := Option.bind_eq_some_iff.mp h
      exact isToPubKey_special hkey hc

theorem compressScript_length_le (h : compressScript K script = some compr) :
    script.length ≤ maxScriptSize := by
  unfold compressScript isToKeyID isToScriptID isToPubKey at h
  unfold maxScriptSize
  split_ifs at h <;> first | omega | simp at h

theorem reads_tag : ∀ tag < nSpecialScripts, Reads (readVarInt 32) [UInt8.ofNat tag] tag := by
  intro tag ht
  have hbyte : writeVarInt 32 tag = [UInt8.ofNat tag] := by
    have : ∀ tag < nSpecialScripts, writeVarInt 32 tag = [UInt8.ofNat tag] := by decide
    exact this tag ht
  have hlt : tag < 2 ^ 32 := ht.trans (by decide)
  exact hbyte ▸ reads_varInt (by norm_num) hlt

/-- What a script is read back as: scripts beyond the size limit are replaced. -/
def scriptAfterRead (script : Script) : Script :=
  if script.length ≤ maxScriptSize then script else [opReturn]

theorem reads_script (hlen : script.length + nSpecialScripts < 2 ^ 32) :
    Reads (readScript K) (writeScript K script) (scriptAfterRead script) := by
  unfold writeScript
  split
  · rename_i compr hc
    obtain ⟨tag, data, rfl, ht, hdata, hback⟩ := compressScript_special hc
    have hsize : script.length ≤ maxScriptSize := compressScript_length_le hc
    apply (reads_tag tag ht).bind
    rw [if_pos ht, scriptAfterRead, if_pos hsize]
    have hread := (reads_take ReadError.endOfData hdata).map
      fun vch => (decompressScript K tag vch).getD []
    simpa only [hback, Option.getD_some] using hread
  · rw [Nat.mod_eq_of_lt hlen]
    apply (reads_varInt (by norm_num) hlen).bind
    rw [if_neg (by omega)]
    unfold scriptAfterRead
    split_ifs with hlong hshort hshort
    · omega
    · exact (reads_take _ rfl).map _
    · exact reads_take _ rfl
    · omega

theorem reads_txOut {out : TxOut} (hlen : out.scriptPubKey.length + nSpecialScripts < 2 ^ 32) :
    Reads (readTxOut K) (writeTxOut K out)
      ⟨wrap 64 (decompressAmount (compressAmount (out.nValue % 2 ^ 64).toNat)),
        scriptAfterRead out.scriptPubKey⟩ :=
  (reads_varInt (by norm_num) (compressAmount_lt _)).bind ((reads_script hlen).map _)

end RoundTrip

/-- The amount survives the codec, and so does the value of every output that carries it
through `TxOutCompression`. -/
def AmountPreserved (K : PubKeyRules) (n : Amount) : Prop :=
  decompressAmount (compressAmount n.toNat) = n.toNat ∧
    ∀ script : Script, script.length + nSpecialScripts < 2 ^ 32 →
      ∃ script', Reads (readTxOut K) (writeTxOut K ⟨n, script⟩) ⟨n, script'⟩

theorem toNat_emod_of_moneyRange {n : ℤ} (hn : MoneyRange n) :
    (n % 2 ^ 64).toNat = n.toNat ∧ n.toNat ≤ 5000000000000000000 ∧ (n.toNat : ℤ) = n := by
  have h0 : 0 ≤ n := hn.1
  have h1 : n ≤ 5000000000000000000 := hn.2
  omega

theorem wrap_decompress_compress {n : Amount} (hn : MoneyRange n) (hfit : AmountFits n.toNat) :
    wrap 64 (decompressAmount (compressAmount (n % 2 ^ 64).toNat)) = n := by
  obtain ⟨hmod, hle, hcast⟩ := toNat_emod_of_moneyRange hn
  rw [hmod, (decompressAmount_compressAmount_iff hle).mpr hfit, hcast]
  have hmax := maxMoney_lt_int64
  exact wrap_of_fits (by norm_num)
    ⟨by linarith [hn.1, pow_pos (show (0 : ℤ) < 2 by norm_num) (64 - 1)], by linarith [hn.2]⟩

/-- Exactly the amounts that fit are preserved, and on them `CompressAmount` is
injective. -/
theorem amountPreserved_iff (K : PubKeyRules) (n : Amount) (hn : MoneyRange n) :
    (AmountPreserved K n ↔ AmountFits n.toNat) ∧
      (AmountFits n.toNat → ∀ m, MoneyRange m → AmountFits m.toNat →
        compressAmount n.toNat = compressAmount m.toNat → n = m) := by
  obtain ⟨-, hle, hcast⟩ := toNat_emod_of_moneyRange hn
  refine ⟨⟨?_, ?_⟩, ?_⟩
  · intro h
    exact (decompressAmount_compressAmount_iff hle).mp h.1
  · intro hfit
    refine ⟨(decompressAmount_compressAmount_iff hle).mpr hfit, ?_⟩
    intro script hlen
    refine ⟨scriptAfterRead script, ?_⟩
    have hread := @reads_txOut K ⟨n, script⟩ hlen
    simp only [wrap_decompress_compress hn hfit] at hread
    exact hread
  · intro hfit m hm hfit' heq
    obtain ⟨-, hle', hcast'⟩ := toNat_emod_of_moneyRange hm
    rw [← hcast, compressAmount_injOn hle hle' hfit hfit' heq, hcast']

/-- No uncompressed key is valid, so that only the other forms are compressed. -/
def noUncompressedKeys : PubKeyRules := ⟨fun _ => false, fun _ => none, by simp⟩

theorem amountPreserved_premine :
    MoneyRange 1000000000000000000 ∧ AmountPreserved noUncompressedKeys 1000000000000000000 := by
  have hn : MoneyRange 1000000000000000000 := by decide
  exact ⟨hn, (amountPreserved_iff noUncompressedKeys _ hn).1.mpr (by decide)⟩

/-- 20496382304.12172403 coins and 0.0001 coins share the code 5, so the larger amount is
read back as the smaller one. -/
theorem amountCodec_collision :
    MoneyRange 2049638230412172403 ∧ MoneyRange 10000 ∧
      compressAmount 2049638230412172403 = compressAmount 10000 ∧
      decompressAmount (compressAmount 2049638230412172403) = 10000 ∧
      Reads (readTxOut noUncompressedKeys)
        (writeTxOut noUncompressedKeys ⟨2049638230412172403, [opDup]⟩) ⟨10000, [opDup]⟩ := by
  have hback : decompressAmount (compressAmount 2049638230412172403) = 10000 := by decide
  refine ⟨by decide, by decide, by decide, hback, ?_⟩
  have hmod : ((2049638230412172403 : ℤ) % 2 ^ 64).toNat = 2049638230412172403 := by decide
  have hwrap : wrap 64 ((10000 : ℕ) : ℤ) = 10000 := by decide
  have hread := @reads_txOut noUncompressedKeys ⟨2049638230412172403, [opDup]⟩ (by decide)
  simp only [hmod, hback, hwrap] at hread
  exact hread

end Tarcoin
