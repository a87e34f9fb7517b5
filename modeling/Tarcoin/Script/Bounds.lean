import Tarcoin.Script.MachineSpec

/-! No opcode of `EvalScript` leaves the stack, lets a number overflow or makes an element too
long. -/
namespace Tarcoin.Script
open Ruled

variable (env : Setting) {p : Script} {c k : ℕ} {P : Machine → Prop}

/-! ### Signatures -/

theorem meets_checkSignatureEncoding (vchSig : List UInt8) :
    Meets Stop.Allowed P (checkSignatureEncoding env vchSig) fun _ => P := by
  apply meets_inCase
  intro _
  apply (keeps_demand_ensure .derSig _).next
  apply (keeps_demand_ensure .lowS _).next
  apply (keeps_demand_ensure .strictEnc _).next
  apply (keeps_demand_ensure .lowS _).next
  exact keeps_demand_ensure .strictEnc _

theorem meets_checkPubKeyEncoding (vchPubKey : List UInt8) :
    Meets Stop.Allowed P (checkPubKeyEncoding env vchPubKey) fun _ => P := by
  apply (keeps_demand_ensure .strictEnc _).next
  apply meets_inCase
  intro _
  exact keeps_demand_ensure .witnessPubKeyType _

theorem meets_dropSignature (vchSig : List UInt8) (scriptCode : Script) :
    Meets Stop.Allowed P (dropSignature env vchSig scriptCode) fun _ => P := by
  unfold dropSignature
  split
  · apply (keeps_demand_ensure .constScriptCode _).next
    exact meets_pure fun _ hs => hs
  · exact meets_pure fun _ hs => hs

theorem meets_evalChecksigPreTapscript (vchSig vchPubKey : List UInt8) :
    Meets Stop.Allowed P (evalChecksigPreTapscript env vchSig vchPubKey) fun _ => P := by
  apply meets_look_bind
  intro s hs
  apply (meets_dropSignature env _ _).bind
  intro scriptCode
  apply (meets_checkSignatureEncoding env _).next
  apply (meets_checkPubKeyEncoding env _).next
  apply (keeps_demand_ensure .nullFail _).next
  apply meets_pure
  intro t ht
  rwa [ht]

theorem held_chargeSigop : Meets Stop.Allowed (Held p c k) chargeSigop fun _ => Held p c k := by
  apply meets_look_bind
  intro s hs
  split
  · exact meets_fail allowed_assertion
  · apply Meets.bind (Q := fun _ => Held p c k)
    · apply meets_change
      intro t ht
      rw [ht]
      exact { hs with }
    · intro _
      exact keeps_ensure _

theorem held_checkSchnorr (sig pubkey : List UInt8) :
    Meets Stop.Allowed (Held p c k) (checkSchnorr env sig pubkey) fun _ => Held p c k := by
  apply meets_lift
  intro s hs
  split
  · exact { hs with }
  · exact allowed_error _

theorem held_checkTapscriptKey (sig pubkey : List UInt8) :
    Meets Stop.Allowed (Held p c k) (checkTapscriptKey env sig pubkey) fun _ => Held p c k := by
  unfold checkTapscriptKey
  split
  · exact meets_setError _
  · split
    · apply meets_inCase
      intro _
      exact held_checkSchnorr env sig pubkey
    · exact meets_demand (R := fun _ => Held p c k) (meets_setError _)

theorem held_evalChecksig (sig pubkey : List UInt8) :
    Meets Stop.Allowed (Held p c k) (evalChecksig env sig pubkey) fun _ => Held p c k := by
  unfold evalChecksig
  split
  · exact meets_evalChecksigPreTapscript env sig pubkey
  · exact meets_evalChecksigPreTapscript env sig pubkey
  · apply (meets_inCase fun _ => held_chargeSigop).next
    apply (held_checkTapscriptKey env sig pubkey).next
    exact meets_pure fun _ hs => hs
  · exact meets_fail allowed_assertion

/-! ### The opcodes -/

namespace Exec

variable {n : ℤ} {nSigsCount isig : ℕ} {scriptCode : Script}

theorem keeps_smallInt (hn : n.natAbs ≤ 16) : Keeps (smallInt n) := by
  intro p c
  apply (meets_number (by omega)).bindFact
  intro bn _
  exact Held.settle (held_push (getvch_length bn))

theorem keeps_checkLockTimeVerify : Keeps (checkLockTimeVerify env) := by
  intro p c
  apply meets_demand (R := fun _ => Held p c 1)
  apply (held_need 1).next
  apply (held_numAt 4 (by norm_num) (by decide)).bindFact
  intro bn _
  apply (keeps_ensure _).next
  exact keeps_ensure _

theorem keeps_checkSequenceVerify : Keeps (checkSequenceVerify env) := by
  intro p c
  apply meets_demand (R := fun _ => Held p c 1)
  apply (held_need 1).next
  apply (held_numAt 4 (by norm_num) (by decide)).bindFact
  intro bn _
  apply (keeps_ensure _).next
  exact meets_inCase fun _ => keeps_ensure _

theorem keeps_upgradableNop : Keeps upgradableNop :=
  fun p c => meets_demand (R := fun _ => Held p c 0) (meets_setError _)

theorem held_branchValue (notIf : Bool) :
    Meets Stop.Allowed (Held p c 0) (branchValue env notIf) fun _ => Held p c 0 := by
  apply (held_need 1).next
  apply (held_top (by decide)).bindFact
  intro vch _
  apply (meets_inCase fun _ => keeps_ensure _).next
  apply (meets_inCase fun _ => keeps_demand_ensure .minimalIf _).next
  apply held_pop.next
  exact meets_pure fun _ hs => hs

theorem keeps_branch (fExec notIf : Bool) : Keeps (branch env fExec notIf) := by
  intro p c
  apply Meets.bind (Q := fun _ => Held p c 0)
  · unfold branchCondition
    split
    · exact held_branchValue env notIf
    · exact meets_pure fun _ hs => hs
  · intro fValue
    apply meets_change
    intro s hs
    exact { hs with }

theorem keeps_onConditions {f : ConditionStack → Option ConditionStack}
    (hf : ∀ d : ConditionStack, d.empty = false → ∃ e, f d = some e) :
    Keeps (onConditions f) := by
  intro p c
  apply meets_look_bind
  intro s hs
  apply (meets_ensure _).bindFact
  intro _ hne
  apply meets_lift
  intro t ht
  rw [ht]
  obtain ⟨e, he⟩ := hf s.vfExec hne
  rw [he]
  exact { hs with }

theorem keeps_otherwise : Keeps otherwise :=
  keeps_onConditions fun _ hne => ⟨_, if_neg (of_decide_eq_false hne)⟩

theorem keeps_endIf : Keeps endIf :=
  keeps_onConditions fun _ hne => ⟨_, if_neg (of_decide_eq_false hne)⟩

theorem keeps_verify : Keeps verify := by
  apply keeps_need 1
  intro p c
  apply (held_top (by decide)).bindFact
  intro vch _
  apply (keeps_ensure _).next
  exact held_pop

theorem keeps_toAltStack : Keeps toAltStack := by
  apply keeps_need 1
  intro p c
  apply (held_top (by decide)).bindFact
  intro vch hvch
  apply (held_pushAlt hvch).next
  exact held_pop

theorem keeps_fromAltStack : Keeps fromAltStack := by
  intro p c
  apply meets_look_bind
  intro s hs
  apply (meets_ensure _).bindFact
  intro _ halt
  apply Meets.bindFact (R := Held p c 0)
  · apply held_popAlt.weaken (fun t ht => _) fun _ _ ht => ht
    intro t ht
    rw [ht]
    exact ⟨hs, halt⟩
  · intro vch hvch
    exact Held.settle (held_push hvch)

theorem keeps_twoDrop : Keeps twoDrop := by
  apply keeps_need 2
  intro p c
  apply held_pop.next
  exact Held.settle held_pop

theorem keeps_twoDup : Keeps twoDup := by
  apply keeps_need 2
  intro p c
  apply (held_top (by decide)).bindFact
  intro vch1 h1
  apply (held_top (by decide)).bindFact
  intro vch2 h2
  apply (held_push h1).next
  exact Held.settle (held_push h2)

theorem keeps_threeDup : Keeps threeDup := by
  apply keeps_need 3
  intro p c
  apply (held_top (by decide)).bindFact
  intro vch1 h1
  apply (held_top (by decide)).bindFact
  intro vch2 h2
  apply (held_top (by decide)).bindFact
  intro vch3 h3
  apply (held_push h1).next
  apply (held_push h2).next
  exact Held.settle (held_push h3)

theorem keeps_twoOver : Keeps twoOver := by
  apply keeps_need 4
  intro p c
  apply (held_top (by decide)).bindFact
  intro vch1 h1
  apply (held_top (by decide)).bindFact
  intro vch2 h2
  apply (held_push h1).next
  exact Held.settle (held_push h2)

theorem keeps_twoRot : Keeps twoRot := by
  apply keeps_need 6
  intro p c
  apply (held_top (by decide)).bindFact
  intro vch1 h1
  apply (held_top (by decide)).bindFact
  intro vch2 h2
  apply (held_eraseAt (by decide)).next
  apply (held_eraseAt (by decide)).next
  apply (held_push h1).next
  exact Held.settle (held_push h2)

theorem keeps_twoSwap : Keeps twoSwap := by
  apply keeps_need 4
  intro p c
  apply (held_swapTops (by decide) (by decide)).next
  exact Held.settle (held_swapTops (by decide) (by decide))

theorem keeps_ifDup : Keeps ifDup := by
  apply keeps_need 1
  intro p c
  apply (held_top (by decide)).bindFact
  intro vch hvch
  apply Held.settle (k := 1)
  apply meets_inCase
  intro _
  exact (held_push hvch).weaken (fun _ hs => hs) fun _ _ hs => hs.shallow (by decide)

theorem meets_depth :
    Meets Stop.Allowed (fun s => Held p c 0 s ∧ s.Bounded) depth
      fun _ => Held p c 0 := by
  apply meets_look_bind
  intro s hs
  have hlen : s.stack.length + s.altstack.length ≤ 1000 := hs.2
  apply (meets_number (by omega)).bindFact
  intro bn _
  apply Held.settle (k := 1)
  apply (held_push (getvch_length bn)).weaken _ fun _ _ ht => ht
  intro t ht
  rw [ht]
  exact hs.1

theorem keeps_drop : Keeps drop := by
  apply keeps_need 1
  intro p c
  exact held_pop

theorem keeps_dup : Keeps dup := by
  apply keeps_need 1
  intro p c
  apply (held_top (by decide)).bindFact
  intro vch hvch
  exact Held.settle (held_push hvch)

theorem keeps_nip : Keeps nip := by
  apply keeps_need 2
  intro p c
  exact Held.settle (held_eraseAt (k := 1) (by decide))

theorem keeps_overTop : Keeps overTop := by
  apply keeps_need 2
  intro p c
  apply (held_top (by decide)).bindFact
  intro vch hvch
  exact Held.settle (held_push hvch)

theorem keeps_pick (roll : Bool) : Keeps (pick roll) := by
  apply keeps_need 2
  intro p c
  apply (held_operand (by decide)).bindFact
  intro bn _
  apply held_pop.next
  apply meets_look_bind
  intro s hs
  apply (meets_ensure _).bindFact
  intro _ hn
  generalize hi : bn.getint.toNat = n
  have hdeep : Held p c (n + 1) s := { hs with deep := by omega }
  apply Meets.bindFact (R := Held p c (n + 1))
  · apply (held_top (by omega)).weaken _ fun _ _ ht => ht
    intro t ht
    rwa [ht]
  · intro vch hvch
    apply Meets.bind (Q := fun _ => Held p c n)
    · cases roll with
      | false => exact meets_pure fun _ ht => ht.shallow (Nat.le_succ n)
      | true => exact held_eraseAt (i := n + 1) ⟨Nat.le_add_left 1 n, le_rfl⟩
    · intro _
      exact Held.settle (held_push hvch)

theorem keeps_rot : Keeps rot := by
  apply keeps_need 3
  intro p c
  apply (held_swapTops (by decide) (by decide)).next
  exact Held.settle (held_swapTops (by decide) (by decide))

theorem keeps_swap : Keeps swap := by
  apply keeps_need 2
  intro p c
  exact Held.settle (held_swapTops (by decide) (by decide))

theorem keeps_tuck : Keeps tuck := by
  apply keeps_need 2
  intro p c
  apply (held_top (by decide)).bindFact
  intro vch hvch
  exact Held.settle (held_insertAt (by decide) hvch)

theorem keeps_size : Keeps size := by
  apply keeps_need 1
  intro p c
  apply (held_top (by decide)).bindFact
  intro vch hvch
  have hlen : vch.length ≤ 520 := hvch
  apply (meets_number (by omega)).bindFact
  intro bn _
  exact Held.settle (held_push (getvch_length bn))

theorem held_outcome (isVerify fSuccess : Bool) (e : ScriptError) :
    Meets Stop.Allowed (Held p c k) (outcome isVerify fSuccess e) fun _ => Held p c 0 := by
  apply (held_push (boolean_length fSuccess)).next
  cases isVerify with
  | false => exact meets_pure fun _ hs => hs.shallow (Nat.zero_le _)
  | true =>
    apply (keeps_ensure _).next
    exact Held.settle held_pop

theorem keeps_equal (isVerify : Bool) : Keeps (equal isVerify) := by
  apply keeps_need 2
  intro p c
  apply (held_top (by decide)).bindFact
  intro vch1 _
  apply (held_top (by decide)).bindFact
  intro vch2 _
  apply held_pop.next
  apply held_pop.next
  exact held_outcome isVerify _ _

theorem natAbs_toInt_lt (b : Bool) : b.toInt.natAbs < 2 ^ 63 := by
  cases b <;> decide

theorem meets_anyNumber (h : n.natAbs < 2 ^ 63) : Meets Stop.Allowed P (number n) fun _ => P :=
  (meets_number h).weaken (fun _ hs => hs) fun _ _ hs => hs.2

theorem meets_unary (op : UnaryOp) {bn : ScriptNum} (h : bn.value.natAbs < 2 ^ 31) :
    Meets Stop.Allowed P (op.apply bn) fun _ => P := by
  cases op with
  | oneAdd => exact meets_anyNumber (by omega)
  | oneSub => exact meets_anyNumber (by omega)
  | negate => exact meets_anyNumber (by omega)
  | abs =>
    rw [UnaryOp.apply]
    split
    · exact meets_anyNumber (by omega)
    · exact meets_pure fun _ hs => hs
  | not => exact meets_anyNumber (natAbs_toInt_lt _)
  | zeroNotEqual => exact meets_anyNumber (natAbs_toInt_lt _)

theorem keeps_unary (op : UnaryOp) : Keeps (unary op) := by
  apply keeps_need 1
  intro p c
  apply (held_operand (by decide)).bindFact
  intro bn hbn
  apply (meets_unary op hbn).bind
  intro result
  apply held_pop.next
  exact Held.settle (held_push (getvch_length result))

theorem meets_binary (op : BinaryOp) {bn1 bn2 : ScriptNum} (h1 : bn1.value.natAbs < 2 ^ 31)
    (h2 : bn2.value.natAbs < 2 ^ 31) : Meets Stop.Allowed P (op.apply bn1 bn2) fun _ => P := by
  cases op with
  | add => exact meets_anyNumber (by omega)
  | sub => exact meets_anyNumber (by omega)
  | min => exact meets_pure fun _ hs => hs
  | max => exact meets_pure fun _ hs => hs
  | _ => exact meets_anyNumber (natAbs_toInt_lt _)

theorem keeps_binary (op : BinaryOp) : Keeps (binary op) := by
  apply keeps_need 2
  intro p c
  apply (held_operand (by decide)).bindFact
  intro bn1 h1
  apply (held_operand (by decide)).bindFact
  intro bn2 h2
  apply (meets_binary op h1 h2).bind
  intro bn
  apply held_pop.next
  apply held_pop.next
  apply (held_push (getvch_length bn)).next
  unfold inCase
  split
  · apply (held_top (by decide)).bindFact
    intro vch _
    apply (keeps_ensure _).next
    exact held_pop
  · exact meets_pure fun _ hs => hs.shallow (Nat.zero_le _)

theorem keeps_within : Keeps within := by
  apply keeps_need 3
  intro p c
  apply (held_operand (by decide)).bindFact
  intro bn1 _
  apply (held_operand (by decide)).bindFact
  intro bn2 _
  apply (held_operand (by decide)).bindFact
  intro bn3 _
  apply held_pop.next
  apply held_pop.next
  apply held_pop.next
  exact Held.settle (held_push (boolean_length _))

theorem hash_length (op : HashOp) (vch : List UInt8) :
    (op.apply env.crypto vch).length ≤ maxScriptElementSize := by
  have h20 : ∀ bytes : Bytes 20, bytes.1.length ≤ maxScriptElementSize := fun bytes => by
    rw [bytes.2]
    decide
  have h32 : ∀ bytes : Bytes 32, bytes.1.length ≤ maxScriptElementSize := fun bytes => by
    rw [bytes.2]
    decide
  cases op with
  | ripemd160 => exact h20 _
  | sha1 => exact h20 _
  | sha256 => exact h32 _
  | hash160 => exact h20 _
  | hash256 => exact h32 _

theorem keeps_hash (op : HashOp) : Keeps (hash env op) := by
  apply keeps_need 1
  intro p c
  apply (held_top (by decide)).bindFact
  intro vch _
  apply held_pop.next
  exact Held.settle (held_push (hash_length env op vch))

theorem keeps_codeSeparator : Keeps codeSeparator := by
  intro p c
  apply meets_change
  intro s hs
  exact { hs with }

theorem keeps_checkSig (isVerify : Bool) : Keeps (checkSig env isVerify) := by
  apply keeps_need 2
  intro p c
  apply (held_top (by decide)).bindFact
  intro vchSig _
  apply (held_top (by decide)).bindFact
  intro vchPubKey _
  apply (held_evalChecksig env vchSig vchPubKey).bind
  intro fSuccess
  apply held_pop.next
  apply held_pop.next
  exact held_outcome isVerify fSuccess _

theorem keeps_checkSigAdd : Keeps (checkSigAdd env) := by
  intro p c
  apply (keeps_ensure _).next
  apply (held_need 3).next
  apply (held_top (by decide)).bindFact
  intro sig _
  apply (held_operand (by decide)).bindFact
  intro num hnum
  apply (held_top (by decide)).bindFact
  intro pubkey _
  apply (held_evalChecksig env sig pubkey).bind
  intro success
  apply held_pop.next
  apply held_pop.next
  apply held_pop.next
  have hone : success.toInt.natAbs ≤ 1 := by
    cases success <;> decide
  apply (meets_number (by omega)).bindFact
  intro sum _
  exact Held.settle (held_push (getvch_length sum))

/-! ### `OP_CHECKMULTISIG` -/

theorem held_dropSignatures (hpos : 1 ≤ isig) (hi : isig + nSigsCount ≤ k + 1) :
    Meets Stop.Allowed (Held p c k) (dropSignatures env nSigsCount isig scriptCode)
      fun _ => Held p c k := by
  induction nSigsCount generalizing isig scriptCode with
  | zero => exact meets_pure fun _ hs => hs
  | succ n ih =>
    apply (held_top ⟨hpos, by omega⟩).bindFact
    intro vchSig _
    apply (meets_dropSignature env vchSig scriptCode).bind
    intro rest
    exact ih (Nat.le_succ_of_le hpos) (by omega)

/-- Keys and signatures that are still to be looked at lie within the stack. -/
theorem held_checkKeys {nKeysCount ikey : ℕ} (hkey : 1 ≤ ikey ∧ ikey + nKeysCount ≤ k + 1)
    (hsig : 1 ≤ isig ∧ isig + nSigsCount ≤ k + 1) :
    Meets Stop.Allowed (Held p c k) (checkKeys env scriptCode nKeysCount ikey nSigsCount isig)
      fun _ => Held p c k := by
  induction nKeysCount generalizing ikey nSigsCount isig with
  | zero => exact meets_pure fun _ hs => hs
  | succ n ih =>
    rw [checkKeys]
    split
    · exact meets_pure fun _ hs => hs
    · apply (held_top ⟨hsig.1, by omega⟩).bindFact
      intro vchSig _
      apply (held_top ⟨hkey.1, by omega⟩).bindFact
      intro vchPubKey _
      apply (meets_checkSignatureEncoding env vchSig).next
      apply (meets_checkPubKeyEncoding env vchPubKey).next
      generalize env.checker.checkECDSASignature vchSig vchPubKey scriptCode env.sigversion = fOk
      have hnext : 1 ≤ (if fOk then isig + 1 else isig) ∧
          (if fOk then isig + 1 else isig) + (if fOk then nSigsCount - 1 else nSigsCount) ≤
            k + 1 := by
        split <;> omega
      dsimp only
      generalize (if fOk then nSigsCount - 1 else nSigsCount) = left at hnext ⊢
      split
      · exact meets_pure fun _ hs => hs
      · exact ih ⟨by omega, by omega⟩ hnext

theorem held_cleanUp (fSuccess : Bool) (n ikey2 : ℕ) :
    Meets Stop.Allowed (Held p c (k + n)) (cleanUp fSuccess n ikey2) fun _ => Held p c k := by
  induction n generalizing ikey2 with
  | zero => exact meets_pure fun _ hs => hs
  | succ n ih =>
    apply Meets.bind (Q := fun _ => Held p c (k + (n + 1)))
    · apply meets_inCase
      intro _
      apply meets_demand (R := fun _ => Held p c (k + (n + 1)))
      apply (held_top (by omega)).bindFact
      intro vch _
      exact keeps_ensure _
    · intro _
      apply held_pop.next
      exact ih (ikey2 - 1)

theorem held_checkSignatures (isVerify : Bool) (nKeysCount nSigsCount : ℕ) :
    Meets Stop.Allowed (Held p c k) (checkSignatures env isVerify nKeysCount nSigsCount)
      fun _ => Held p c 0 := by
  apply (held_need _).next
  apply meets_look_bind
  intro s hs
  have harguments : 3 + nKeysCount + nSigsCount = 1 + (2 + nKeysCount + nSigsCount) := by omega
  apply Meets.bind (Q := fun _ => Held p c (3 + nKeysCount + nSigsCount))
  · apply (held_dropSignatures env (by omega) (by omega)).weaken _ fun _ _ ht => ht
    intro t ht
    rwa [ht]
  · intro scriptCode
    apply (held_checkKeys env ⟨by omega, by omega⟩ ⟨by omega, by omega⟩).bind
    intro fSuccess
    rw [harguments]
    apply (held_cleanUp fSuccess _ _).next
    apply (held_need 1).next
    apply Meets.bind (Q := fun _ => Held p c 1)
    · apply meets_demand (R := fun _ => Held p c 1)
      apply (held_top (by decide)).bindFact
      intro vch _
      exact keeps_ensure _
    · intro _
      apply held_pop.next
      exact held_outcome isVerify fSuccess _

end Exec

end Tarcoin.Script
