import Tarcoin.Pool.BlockText
import Tarcoin.Pool.HexText
import Tarcoin.Serialize.TxCodec

/-! The two halves of a coinbase around the extra nonces are put together from text; the node
reads them as the transaction that `SerializeTransaction` writes in that way. -/
namespace Tarcoin.Pool
open Hex (Spells)

theorem littleEndian_eq_leBytes (width n : ℕ) : littleEndian width n = leBytes width n := by
  induction width generalizing n with
  | zero => rfl
  | succ width ih => rw [littleEndian, leBytes, ih]

theorem varIntBytes_eq {n : ℕ} (h : n < 2 ^ 16) : varIntBytes n = writeCompactSize n := by
  rw [varIntBytes, writeCompactSize]
  split_ifs with hsmall hword hlong
  · rw [leBytes, leBytes, Nat.mod_eq_of_lt (by omega)]
  · rfl
  · omega
  · omega

theorem encodeVarInt_spec (n : ℕ) : encodeVarInt n =
    if n < 2 ^ 16 then .ok (Hex.encode (writeCompactSize n)) else .error .rangeError := by
  cases h : encodeVarInt n with
  | ok text =>
    obtain ⟨hlt, rfl⟩ := encodeVarInt_eq h
    rw [if_pos hlt, varIntBytes_eq hlt]
  | error e =>
    rw [encodeVarInt] at h
    split_ifs at h with hsmall hword
    rw [if_neg hword, ← Except.error.inj h]

section Outputs
variable {text : Text} {script : List UInt8}

theorem outputText_spec {value : ℕ} (hvalue : value < 2 ^ 63) (hscript : Spells text script) :
    if script.length < 2 ^ 16 then
      ∃ out, outputText value text = .ok out ∧ Spells out (TxOut.serialize ⟨value, script⟩)
    else ∃ e, outputText value text = .error e := by
  have hvalueBuf : writeBigUInt64LE value = .ok (leBytes 8 ((value : ℤ) % 2 ^ 64).toNat) := by
    rw [writeBigUInt64LE, if_pos (by omega), littleEndian_eq_leBytes]
    congr 2
    omega
  have hcount : encodeHalfVarInt text.length = encodeVarInt script.length := by
    rw [encodeHalfVarInt, hscript.length, if_pos (by omega), Nat.mul_div_cancel_left _ (by decide)]
  simp only [outputText, hvalueBuf, hcount, encodeVarInt_spec, bind, Except.bind]
  split_ifs with hlt
  · refine ⟨_, rfl, ?_⟩
    exact ((Hex.spells_encode _).append (Hex.spells_encode _)).append hscript
  · exact ⟨_, rfl⟩

/-- The script of the commitment; an empty text is no commitment. -/
def NodeTemplate.commitment (template : NodeTemplate) : Option Script :=
  (template.defaultWitnessCommitment.filter fun text => decide (text ≠ [])).map Hex.decode

def NodeTemplate.CommitsHex (template : NodeTemplate) : Prop :=
  ∀ text, template.defaultWitnessCommitment = some text → Hex.IsHex text ∧ text.length % 2 = 0

/-- The commitment has a script that the pool can count. -/
def NodeTemplate.CommitsShort (template : NodeTemplate) : Prop :=
  ∀ script, template.commitment = some script → script.length < 2 ^ 16

def commitmentOutputs (template : NodeTemplate) : List TxOut :=
  template.commitment.toList.map fun script => ⟨0, script⟩

theorem witnessOutput_spec {template : NodeTemplate} (hhex : template.CommitsHex) :
    (template.CommitsShort → ∃ out, witnessOutput template = .ok out ∧
      List.Forall₂ Spells out.toList ((commitmentOutputs template).map TxOut.serialize)) ∧
    (¬template.CommitsShort → ∃ e, witnessOutput template = .error e) := by
  unfold NodeTemplate.CommitsShort commitmentOutputs NodeTemplate.commitment witnessOutput
  cases htext : template.defaultWitnessCommitment with
  | none => exact ⟨fun _ => ⟨none, rfl, .nil⟩, fun hlong => (hlong (by simp)).elim⟩
  | some text =>
    by_cases hempty : text = []
    · subst hempty
      exact ⟨fun _ => ⟨none, rfl, .nil⟩, fun hlong => (hlong (by simp)).elim⟩
    · have hspells := Hex.spells_decode (hhex text htext).1 (hhex text htext).2
      have hout := outputText_spec (show 0 < 2 ^ 63 by norm_num) hspells
      simp only [Option.filter_some, hempty, not_false_eq_true, ne_eq, decide_true, if_true,
        Option.map_some, Option.some.injEq, forall_eq', if_false, Option.toList_some, List.map_cons,
        List.map_nil]
      constructor
      · intro hshort
        rw [if_pos hshort] at hout
        obtain ⟨out, hok, hspell⟩ := hout
        exact ⟨some out, by rw [hok]; rfl, .cons hspell .nil⟩
      · intro hlong
        rw [if_neg hlong] at hout
        obtain ⟨e, he⟩ := hout
        exact ⟨e, by rw [he]; rfl⟩

/-- The bytes of a coinbase behind the script of its input. -/
def coinbaseBack (vout : List TxOut) : List UInt8 :=
  leBytes 4 0xffffffff ++ (writeVector TxOut.serialize vout ++ leBytes 4 0)

theorem spells_of_eq {bytes : List UInt8} (h : text = Hex.encode bytes) : Spells text bytes :=
  h ▸ Hex.spells_encode bytes

theorem coinbase2Text_spec {paid : List Text} {witness : Option Text} {outs commits : List TxOut}
    (hpaid : List.Forall₂ Spells paid (outs.map TxOut.serialize))
    (hwitness : List.Forall₂ Spells witness.toList (commits.map TxOut.serialize))
    (hfew : (outs ++ commits).length < 0xfd) :
    Spells (coinbase2Text paid witness) (coinbaseBack (outs ++ commits)) := by
  have hlen : paid.length + witness.toList.length = (outs ++ commits).length := by
    rw [hpaid.length_eq, hwitness.length_eq, List.length_map, List.length_map, List.length_append]
  have hcount : padStart 2 (Nat.toDigits 16 (outs ++ commits).length) =
      Hex.encode (writeCompactSize (outs ++ commits).length) := by
    have hspec := encodeVarInt_spec (outs ++ commits).length
    rw [encodeVarInt, if_pos hfew, if_pos (by omega)] at hspec
    exact Except.ok.inj hspec
  have hwitnessText : witness.getD [] = witness.toList.flatten := by
    cases witness with
    | none => rfl
    | some text => simp
  have hsequence : Spells "ffffffff".toList (leBytes 4 0xffffffff) := spells_of_eq (by decide)
  have hlockTime : Spells "00000000".toList (leBytes 4 0) := spells_of_eq (by decide)
  have hall := hsequence.append (((Hex.spells_encode (writeCompactSize
    (outs ++ commits).length)).append ((Hex.spells_flatten hpaid).append
      (Hex.spells_flatten hwitness))).append hlockTime)
  have htext : coinbase2Text paid witness = "ffffffff".toList ++ ((Hex.encode (writeCompactSize
      (outs ++ commits).length) ++ (paid.flatten ++ witness.toList.flatten)) ++ "00000000".toList) := by
    rw [← hcount, ← hlen, ← hwitnessText]
    unfold coinbase2Text
    -- As literals the two texts would be evaluated.
    simp only [List.append_assoc]
  have hbytes : coinbaseBack (outs ++ commits) = leBytes 4 0xffffffff ++ ((writeCompactSize
      (outs ++ commits).length ++ ((outs.map TxOut.serialize).flatten ++
        (commits.map TxOut.serialize).flatten)) ++ leBytes 4 0) := by
    rw [← List.flatMap_def, ← List.flatMap_def, ← List.flatMap_append]
    rfl
  rw [htext, hbytes]
  exact hall

end Outputs

def coinbaseTx (script : Script) (vout : List TxOut) : Transaction :=
  ⟨1, [⟨⟨0, OutPoint.nullIndex⟩, script, 0xffffffff, []⟩], vout, 0⟩

section Transaction
variable {template : NodeTemplate}

variable {script : List UInt8} {vout : List TxOut}

theorem serialize_coinbaseTx {extraNonces : List UInt8} (hlen : extraNonces.length = 8)
    (hshort : script.length ≤ 5) (vout : List TxOut) :
    (coinbaseTx (script ++ extraNonces) vout).serialize false =
      coinbaseFront script ++ (extraNonces ++ coinbaseBack vout) := by
  have hversion : leBytes 4 1 ++ writeCompactSize 1 = [1, 0, 0, 0, 1] := by decide
  have houtpoint : OutPoint.serialize ⟨0, OutPoint.nullIndex⟩ =
      List.replicate 32 0 ++ [0xff, 0xff, 0xff, 0xff] := by decide
  have hsize : writeCompactSize (script ++ extraNonces).length =
      [UInt8.ofNat (script.length + 8)] := by
    rw [List.length_append, hlen, writeCompactSize, if_pos (by omega), leBytes, leBytes,
      Nat.mod_eq_of_lt (by omega)]
  have hinput : (coinbaseTx (script ++ extraNonces) vout).serialize false =
      leBytes 4 1 ++ ([] ++ ((writeCompactSize 1 ++ ((OutPoint.serialize ⟨0, OutPoint.nullIndex⟩ ++
        ((writeCompactSize (script ++ extraNonces).length ++ (script ++ extraNonces)) ++
          leBytes 4 0xffffffff)) ++ [])) ++ (writeVector TxOut.serialize vout ++ ([] ++ leBytes 4 0)))) :=
    rfl
  rw [hinput, houtpoint, hsize, coinbaseFront, coinbaseBack, ← hversion]
  simp

theorem trimHeight_le (stop : ℕ) (heightBuf : List UInt8) : trimHeight stop heightBuf ≤ stop := by
  fun_induction trimHeight stop heightBuf <;> omega

theorem heightScript_short {h : ℕ} (hlt : h < 2 ^ 32) :
    ∃ script, heightScript h = .ok script ∧ script.length ≤ 5 := by
  have hwrite : writeUInt32LE (some (h : ℤ)) = .ok (littleEndian 4 h) := by
    rw [writeUInt32LE, if_neg (by omega), Int.toNat_natCast]
  have hstop := trimHeight_le 4 (littleEndian 4 h)
  simp only [heightScript, hwrite, bind, Except.bind]
  refine ⟨_, rfl, ?_⟩
  rw [List.length_cons, List.length_take]
  omega

theorem buildCoinbase1_spec (hheight : ∀ h, template.height = some h → h < 2 ^ 31) :
    ∃ script, buildCoinbase1 template = .ok (Hex.encode (coinbaseFront script)) ∧ script.length ≤ 5 := by
  have hlt : orDefault 0 0 template.height < 2 ^ 32 := by
    cases hh : template.height with
    | none => exact Nat.two_pow_pos 32
    | some h =>
      have := hheight h hh
      rw [orDefault]
      split_ifs <;> omega
  obtain ⟨script, hscript, hlen⟩ := heightScript_short hlt
  cases hbuild : buildCoinbase1 template with
  | error e => simp [buildCoinbase1, hscript, bind, Except.bind] at hbuild
  | ok coinbase1 =>
    obtain ⟨script', hscript', rfl⟩ := buildCoinbase1_eq hbuild
    obtain rfl : script = script' := Except.ok.inj (hscript.symm.trans hscript')
    exact ⟨script, rfl, hlen⟩

def wholeCoinbase (coinbase1 coinbase2 : Except JsError Text) (extraNonce1 extraNonce2 : Text) :
    Except JsError Text := do
  .ok ((← coinbase1) ++ extraNonce1 ++ extraNonce2 ++ (← coinbase2))

/-- The node reads a transaction from the text, to its last byte: one input without a previous
output, whose script ends with the extra nonces, and outputs to the scripts whose values add up to
the reward, the commitment last and without a value. -/
def PaysReward (text : Except JsError Text) (extraNonces : List UInt8) (scripts : List Script)
    (commitment : Option Script) (value : ℕ) : Prop :=
  ∃ hex tx, text = .ok hex ∧ Transaction.unserialize false (Hex.decode hex) = .ok (tx, []) ∧
    (∃ i opening, tx.vin = [i] ∧ i.prevout.isNull = true ∧ i.scriptSig = opening ++ extraNonces) ∧
    tx.vout.map TxOut.scriptPubKey = scripts ++ commitment.toList ∧
    (tx.vout.map TxOut.nValue).sum = value ∧
    (commitment.isSome → tx.vout.getLast?.map TxOut.nValue = some 0)

/-- What the second half of a coinbase with these outputs has to be. -/
def Assembles (template : NodeTemplate) (coinbase2 : Except JsError Text) (outs : List TxOut) : Prop :=
  (template.CommitsShort → ∃ text, coinbase2 = .ok text ∧
    Spells text (coinbaseBack (outs ++ commitmentOutputs template))) ∧
  (¬template.CommitsShort → ∃ e, coinbase2 = .error e)

variable {coinbase2 : Except JsError Text} {outs : List TxOut} {extraNonce1 extraNonce2 : Text}

theorem sized_coinbaseTx {script : Script} (hscript : script.length ≤ 13) (hfew : vout.length ≤ 3)
    (hout : ∀ o ∈ vout, o.Sized) : (coinbaseTx script vout).Sized where
  version := show 1 < 2 ^ 32 by decide
  inputs := show 1 ≤ maxSize by decide
  input := by
    intro i hi
    obtain rfl := List.mem_singleton.mp hi
    exact ⟨show OutPoint.nullIndex < 2 ^ 32 by decide, hscript.trans (by decide),
      show 0xffffffff < 2 ^ 32 by decide⟩
  outputs := hfew.trans (by decide)
  output := hout
  lockTime := show 0 < 2 ^ 32 by decide

theorem sized_commitment (hshort : template.CommitsShort) :
    (commitmentOutputs template).length ≤ 1 ∧ ∀ o ∈ commitmentOutputs template, o.Sized := by
  unfold commitmentOutputs
  cases hc : template.commitment with
  | none => exact ⟨Nat.zero_le 1, nofun⟩
  | some script =>
    refine ⟨le_refl 1, ?_⟩
    intro o ho
    obtain rfl := List.mem_singleton.mp ho
    exact ⟨show GuardedSum.Fits 64 0 by decide, (hshort script hc).le.trans (by decide)⟩

theorem unserialize_wholeCoinbase (hlen : script.length ≤ 5) (hextra1 : Hex8 extraNonce1)
    (hextra2 : Hex8 extraNonce2) {text : Text} (htext : Spells text (coinbaseBack vout))
    (hfew : vout.length ≤ 3) (hsized : ∀ o ∈ vout, o.Sized) :
    Transaction.unserialize false
        (Hex.decode (Hex.encode (coinbaseFront script) ++ extraNonce1 ++ extraNonce2 ++ text)) =
      .ok (coinbaseTx (script ++ (Hex.decode extraNonce1 ++ Hex.decode extraNonce2)) vout, []) := by
  have hspells1 := Hex.spells_decode hextra1.2 (by rw [hextra1.1])
  have hspells2 := Hex.spells_decode hextra2.2 (by rw [hextra2.1])
  have hnonces : (Hex.decode extraNonce1 ++ Hex.decode extraNonce2).length = 8 := by
    have h1 := hspells1.length
    have h2 := hspells2.length
    rw [hextra1.1] at h1
    rw [hextra2.1] at h2
    rw [List.length_append]
    omega
  have hwhole := ((((Hex.spells_encode (coinbaseFront script)).append hspells1).append hspells2).append
    htext).decode
  have hscript : (script ++ (Hex.decode extraNonce1 ++ Hex.decode extraNonce2)).length ≤ 13 := by
    rw [List.length_append]
    omega
  have hread := reads_transaction (sized_coinbaseTx hscript hfew hsized) []
  rw [List.append_nil, serialize_coinbaseTx hnonces hlen] at hread
  rw [hwhole, List.append_assoc, List.append_assoc, ← List.append_assoc (Hex.decode extraNonce1)]
  exact hread

theorem sum_commitment (template : NodeTemplate) :
    ((commitmentOutputs template).map TxOut.nValue).sum = 0 := by
  unfold commitmentOutputs
  cases template.commitment <;> rfl

theorem paysReward_iff (hheight : ∀ h, template.height = some h → h < 2 ^ 31)
    (hextra1 : Hex8 extraNonce1) (hextra2 : Hex8 extraNonce2)
    (hassembles : Assembles template coinbase2 outs) (hfew : outs.length ≤ 2)
    (hsized : ∀ o ∈ outs, o.Sized) (value : ℕ) :
    PaysReward (wholeCoinbase (buildCoinbase1 template) coinbase2 extraNonce1 extraNonce2)
        (Hex.decode extraNonce1 ++ Hex.decode extraNonce2) (outs.map TxOut.scriptPubKey)
        template.commitment value ↔
      (outs.map TxOut.nValue).sum = value ∧ template.CommitsShort := by
  obtain ⟨script, hbuild, hlen⟩ := buildCoinbase1_spec hheight
  by_cases hshort : template.CommitsShort
  · obtain ⟨text, rfl, htext⟩ := hassembles.1 hshort
    obtain ⟨hcfew, hcsized⟩ := sized_commitment hshort
    have hread := unserialize_wholeCoinbase hlen hextra1 hextra2 htext
      (by rw [List.length_append]; omega)
      (fun o ho => (List.mem_append.mp ho).elim (hsized o) (hcsized o))
    have hwhole : wholeCoinbase (buildCoinbase1 template) (.ok text) extraNonce1 extraNonce2 =
        .ok (Hex.encode (coinbaseFront script) ++ extraNonce1 ++ extraNonce2 ++ text) := by
      rw [hbuild]
      rfl
    have hsum : ((outs ++ commitmentOutputs template).map TxOut.nValue).sum =
        (outs.map TxOut.nValue).sum := by
      rw [List.map_append, List.sum_append, sum_commitment, add_zero]
    rw [PaysReward, hwhole]
    constructor
    · rintro ⟨hex, tx, hhex, htx, -, -, hvalue, -⟩
      rw [← Except.ok.inj hhex, hread] at htx
      obtain ⟨rfl, -⟩ := Prod.mk.inj (Except.ok.inj htx)
      exact ⟨hsum.symm.trans hvalue, hshort⟩
    · rintro ⟨hvalue, -⟩
      refine ⟨_, _, rfl, hread, ⟨_, script, rfl, rfl, rfl⟩, ?_, hsum.trans hvalue, ?_⟩
      · simp [coinbaseTx, commitmentOutputs, Function.comp_def]
      · intro hsome
        obtain ⟨c, hc⟩ := Option.isSome_iff_exists.mp hsome
        simp [coinbaseTx, commitmentOutputs, hc]
  · obtain ⟨e, rfl⟩ := hassembles.2 hshort
    have hwhole : wholeCoinbase (buildCoinbase1 template) (.error e) extraNonce1 extraNonce2 =
        .error e := by
      rw [hbuild]
      rfl
    constructor
    · rintro ⟨hex, tx, hhex, -⟩
      rw [hwhole] at hhex
      cases hhex
    · exact fun h => absurd h.2 hshort

end Transaction

section Builders
variable {rt : Runtime} {template : NodeTemplate}

def poolScript : Script := Hex.decode poolScriptPubKey

theorem spells_poolScript : Spells poolScriptPubKey poolScript := by
  apply Hex.spells_decode
  · decide
  · decide

variable {value : ℕ} {script : Script}

theorem sized_paid (hvalue : value < 2 ^ 63) (hscript : script.length ≤ 40) :
    TxOut.Sized ⟨value, script⟩ where
  value := by
    constructor
    · exact (show (-2 ^ (64 - 1) : ℤ) ≤ 0 by norm_num).trans (Int.natCast_nonneg value)
    · show (value : ℤ) < 2 ^ (64 - 1)
      exact_mod_cast hvalue
  script := hscript.trans (by decide)

theorem outputText_short (hvalue : value < 2 ^ 63) {text : Text} (hscript : Spells text script)
    (hshort : script.length ≤ 40) :
    ∃ out, outputText value text = .ok out ∧ Spells out (TxOut.serialize ⟨value, script⟩) := by
  have hout := outputText_spec hvalue hscript
  rwa [if_pos (by omega)] at hout

theorem assembles_of_paid (hhex : template.CommitsHex) {coinbase2 : Except JsError Text}
    {paid : List Text} {outs : List TxOut}
    (hpaid : List.Forall₂ Spells paid (outs.map TxOut.serialize)) (hfew : outs.length ≤ 2)
    (hbuild : coinbase2 = (witnessOutput template).bind fun witness =>
      .ok (coinbase2Text paid witness)) : Assembles template coinbase2 outs := by
  obtain ⟨hshort, hlong⟩ := witnessOutput_spec hhex
  constructor
  · intro h
    obtain ⟨witness, hwitness, hcommits⟩ := hshort h
    have hcfew := (sized_commitment h).1
    rw [hbuild, hwitness]
    exact ⟨_, rfl, coinbase2Text_spec hpaid hcommits (by rw [List.length_append]; omega)⟩
  · intro h
    obtain ⟨e, he⟩ := hlong h
    rw [hbuild, he]
    exact ⟨e, rfl⟩

theorem assembles_pool (hhex : template.CommitsHex) (hreward : blockReward template < 2 ^ 63) :
    Assembles template (buildCoinbase2 template) [⟨blockReward template, poolScript⟩] := by
  obtain ⟨out, hout, hspells⟩ := outputText_short hreward spells_poolScript (by decide)
  apply assembles_of_paid hhex (.cons hspells .nil) one_le_two
  rw [buildCoinbase2, hout]
  rfl

theorem assembles_solo (hhex : template.CommitsHex) (hreward : blockReward template < 2 ^ 63)
    (hfee : rt.soloFee (blockReward template) ≤ blockReward template) {minerText feeText : Text}
    {minerScript feeScript : Script} (hminer : Spells minerText minerScript)
    (hminer40 : minerScript.length ≤ 40) (hpool : Spells feeText feeScript)
    (hpool40 : feeScript.length ≤ 40) :
    Assembles template (buildSoloCoinbase2 rt template minerText feeText)
      [⟨(blockReward template - rt.soloFee (blockReward template) : ℕ), minerScript⟩,
        ⟨rt.soloFee (blockReward template), feeScript⟩] := by
  have hminerAmount : blockReward template - rt.soloFee (blockReward template) < 2 ^ 63 := by omega
  have hfeeAmount : rt.soloFee (blockReward template) < 2 ^ 63 := by omega
  obtain ⟨minerOut, hminerOut, hminerSpells⟩ := outputText_short hminerAmount hminer hminer40
  obtain ⟨feeOut, hfeeOut, hfeeSpells⟩ := outputText_short hfeeAmount hpool hpool40
  apply assembles_of_paid hhex (.cons hminerSpells (.cons hfeeSpells .nil)) le_rfl
  simp only [buildSoloCoinbase2, if_neg (not_lt.mpr hfee), hminerOut, hfeeOut]
  rfl

theorem blockReward_eq_iff (hvalue : template.coinbasevalue = some value) :
    blockReward template = value ↔ value ≠ 0 := by
  rw [blockReward, hvalue, orDefault]
  split_ifs with hzero <;> simp [hzero]

theorem blockReward_lt (hvalue : template.coinbasevalue = some value) (hlt : value < 2 ^ 53) :
    blockReward template < 2 ^ 63 := by
  rw [blockReward, hvalue, orDefault]
  split_ifs <;> omega

end Builders

/-- The coinbases of the shared pool and of a solo miner are well formed and pay the reward of the
template exactly if that is not zero and the commitment is short enough for its count. -/
theorem coinbase_paysReward_iff (rt : Runtime) (template : NodeTemplate) (value : ℕ)
    (minerText feeText extraNonce1 extraNonce2 : Text) (minerScript feeScript : Script)
    (hheight : ∀ h, template.height = some h → h < 2 ^ 31)
    (hvalue : template.coinbasevalue = some value) (hlt : value < 2 ^ 53)
    (hhex : template.CommitsHex) (hminer : Hex.Spells minerText minerScript)
    (hminer40 : minerScript.length ≤ 40) (hpool : Hex.Spells feeText feeScript)
    (hpool40 : feeScript.length ≤ 40)
    (hfee : rt.soloFee (blockReward template) ≤ blockReward template)
    (hextra1 : Hex8 extraNonce1) (hextra2 : Hex8 extraNonce2) :
    (PaysReward (wholeCoinbase (buildCoinbase1 template) (buildCoinbase2 template) extraNonce1 extraNonce2)
        (Hex.decode extraNonce1 ++ Hex.decode extraNonce2) [poolScript] template.commitment value ↔
      value ≠ 0 ∧ template.CommitsShort) ∧
    (PaysReward (wholeCoinbase (buildCoinbase1 template)
          (buildSoloCoinbase2 rt template minerText feeText) extraNonce1 extraNonce2)
        (Hex.decode extraNonce1 ++ Hex.decode extraNonce2) [minerScript, feeScript]
        template.commitment value ↔
      value ≠ 0 ∧ template.CommitsShort) := by
  have hreward := blockReward_lt hvalue hlt
  constructor
  · have hiff := paysReward_iff hheight hextra1 hextra2 (assembles_pool hhex hreward) (by simp)
      (fun o ho => by
        obtain rfl := List.mem_singleton.mp ho
        exact sized_paid hreward (by decide)) value
    rw [← blockReward_eq_iff hvalue]
    simpa using hiff
  · have hiff := paysReward_iff hheight hextra1 hextra2
      (assembles_solo hhex hreward hfee hminer hminer40 hpool hpool40) (by simp)
      (fun o ho => by
        rcases List.mem_cons.mp ho with rfl | ho
        · exact sized_paid (by omega) hminer40
        · obtain rfl := List.mem_singleton.mp ho
          exact sized_paid (by omega) hpool40) value
    have hsum : ((blockReward template - rt.soloFee (blockReward template) : ℕ) : ℤ) +
        (rt.soloFee (blockReward template) : ℤ) = (blockReward template : ℤ) := by omega
    rw [← blockReward_eq_iff hvalue]
    simpa [hsum] using hiff

def rewardTemplate (value : ℕ) : NodeTemplate :=
  { NodeTemplate.first [] with coinbasevalue := some value }

def committedTemplate : NodeTemplate :=
  { rewardTemplate 100000000 with
    defaultWitnessCommitment := some (Hex.encode (0x6a :: 0x24 :: List.replicate 36 1)) }

theorem coinbase_paysReward_solo :
    PaysReward (wholeCoinbase (buildCoinbase1 committedTemplate) (buildSoloCoinbase2 .constant
        committedTemplate (Hex.encode (0 :: 20 :: List.replicate 20 2))
        (Hex.encode (0 :: 20 :: List.replicate 20 3))) "00000001".toList "DEADbeef".toList)
      [0, 0, 0, 1, 0xde, 0xad, 0xbe, 0xef]
      [0 :: 20 :: List.replicate 20 2, 0 :: 20 :: List.replicate 20 3]
      (some (0x6a :: 0x24 :: List.replicate 36 1)) 100000000 := by
  have hcommitment : committedTemplate.commitment = some (0x6a :: 0x24 :: List.replicate 36 1) := rfl
  have hiff := coinbase_paysReward_iff .constant committedTemplate 100000000 _ _
    "00000001".toList "DEADbeef".toList (0 :: 20 :: List.replicate 20 2)
    (0 :: 20 :: List.replicate 20 3) (by rintro h ⟨⟩; decide) rfl (by norm_num)
    (by rintro text ⟨⟩; exact ⟨Hex.isHex_encode _, by decide⟩) (Hex.spells_encode _) (by decide)
    (Hex.spells_encode _) (by decide) (by decide) (by decide) (by decide)
  rw [hcommitment] at hiff
  refine hiff.2.mpr ⟨by norm_num, fun script hscript => ?_⟩
  obtain rfl := Option.some.inj (hcommitment.symm.trans hscript)
  decide

theorem coinbase_pays_default :
    ((wholeCoinbase (buildCoinbase1 (rewardTemplate 0)) (buildCoinbase2 (rewardTemplate 0))
      "00000001".toList "00000002".toList).toOption.bind fun hex =>
        (Transaction.unserialize false (Hex.decode hex)).toOption).map
      (fun read => read.1.vout.map TxOut.nValue) = some [5000000000000] := by
  decide +kernel

end Tarcoin.Pool
