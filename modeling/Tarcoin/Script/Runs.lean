import Tarcoin.Script.Bounds

/-! Runs of `EvalScript`, opcode by opcode, and the bounds they keep. -/
namespace Tarcoin.Script
open Ruled

variable (env : Setting) {p : Script} {c n : ℕ}

/-! ### The operations that count -/

def keysAtTop (s : Machine) : ℕ := (setVch (s.stack.headD [])).toNat

def Instr.isMultiSig : Instr → Bool
  | .checkMultiSig _ => true
  | _ => false

/-- The keys that count when `opcode` is executed, if it is. -/
def multiSigKeys (opcode : UInt8) (s : Machine) : ℕ :=
  if s.vfExec.allTrue ∧ (instruction opcode).isMultiSig then keysAtTop s else 0

/-- The operations counted at the next opcode: the opcode itself above `OP_16`, and the keys of an
executed `OP_CHECKMULTISIG`. -/
def operationsAt (s : Machine) : ℕ :=
  match getScriptOp s.pc with
  | none => 0
  | some (opcode, _, _) => (if op16 < opcode then 1 else 0) + multiSigKeys opcode s

/-- Small numbers only are pushed by opcodes of their own. -/
def Instr.Small : Instr → Prop
  | .smallInt n => n.natAbs ≤ 16
  | _ => True

instance : DecidablePred Instr.Small := fun i => by
  cases i <;> unfold Instr.Small <;> infer_instance

variable {opcode : UInt8} {s : Machine} {stack : Stack}

/-- The pushes, the small numbers and the conditionals come before `OP_CHECKMULTISIG`. -/
theorem not_isMultiSig (h : opcode ≤ opEndIf) : (instruction opcode).isMultiSig = false :=
  forall_byte (q := fun b => b ≤ opEndIf → (instruction b).isMultiSig = false)
    (by decide +kernel) opcode h

theorem multiSigKeys_eq_zero
    (h : s.vfExec.allTrue = false ∨ (instruction opcode).isMultiSig = false) :
    multiSigKeys opcode s = 0 := by
  unfold multiSigKeys
  rcases h with h | h <;> simp [h]

theorem getint_eq {bn : ScriptNum} (h : bn.value.natAbs < 2 ^ 31) : bn.getint = bn.value := by
  unfold ScriptNum.getint
  omega

theorem meets_countOps (n : ℕ) :
    Meets Stop.Allowed (fun t => t = s) (countOps n) fun _ t =>
      s.nOpCount + n ≤ maxOpsPerScript ∧ t = { s with nOpCount := s.nOpCount + n } := by
  apply Meets.bind (Q := fun _ t => t = { s with nOpCount := s.nOpCount + n })
  · apply meets_change
    intro t ht
    rw [ht]
  · intro _
    apply meets_look_bind
    intro t ht
    rw [ht]
    exact meets_ensure _

theorem meets_keysAtTop :
    Meets Stop.Allowed (fun t => 1 ≤ t.stack.length ∧ t = s) (numAt 1 nDefaultMaxNumSize)
      fun bn t => (bn.value.toNat = keysAtTop s ∧ bn.value.natAbs < 2 ^ 31) ∧ t = s := by
  apply Meets.bindFact (A := fun vch => vch = s.stack.headD []) (R := fun t => t = s)
  · apply meets_lift
    intro t ht
    obtain ⟨hlen, rfl⟩ := ht
    cases hstack : t.stack with
    | nil =>
      rw [hstack, List.length_nil] at hlen
      omega
    | cons vch rest => exact ⟨rfl, rfl⟩
  · intro vch hvch
    apply (meets_scriptNum_value (n := 3) (by norm_num)).weaken fun _ ht => ht
    intro bn t hbn
    rw [keysAtTop, ← hvch, ← hbn.1.1]
    exact ⟨⟨rfl, hbn.1.2⟩, hbn.2⟩

theorem meets_checkMultiSig (isVerify : Bool) (hs : Held p c 0 s) :
    Meets Stop.Allowed (fun t => t = s) (Exec.checkMultiSig env isVerify) fun _ t =>
      c + keysAtTop s ≤ maxOpsPerScript ∧ Held p (c + keysAtTop s) 0 t := by
  apply (keeps_ensure _).next
  apply (meets_need 1).next
  apply meets_keysAtTop.bindFact
  intro keys hkeys
  rw [← hkeys.1, ← getint_eq hkeys.2]
  generalize keys.getint.toNat = nKeysCount
  apply (keeps_ensure _).next
  apply Meets.bindFact (A := fun _ => c + nKeysCount ≤ maxOpsPerScript)
    (R := Held p (c + nKeysCount) 0)
  · apply (meets_countOps nKeysCount).weaken fun _ ht => ht
    intro _ t ht
    rw [ht.2, ← hs.counted]
    exact ⟨ht.1, { hs with counted := rfl }⟩
  · intro _ hlimit
    apply (held_need _).next
    apply (held_operand ⟨by omega, le_rfl⟩).bindFact
    intro sigs _
    apply (keeps_ensure _).next
    apply (Exec.held_checkSignatures env isVerify nKeysCount _).weaken fun _ ht => ht
    intro _ t ht
    exact ⟨hlimit, ht⟩

def Instr.keys (i : Instr) (s : Machine) : ℕ := if i.isMultiSig then keysAtTop s else 0

theorem meets_of_keeps {m : Op Unit} (h : Keeps m) (hs : Held p c 0 s) :
    Meets Stop.Allowed (fun t => t = s) m fun _ t =>
      (c ≤ maxOpsPerScript → c + 0 ≤ maxOpsPerScript) ∧ Held p (c + 0) 0 t := by
  apply (h p c).weaken
  · intro t ht
    rwa [ht]
  · intro _ t ht
    exact ⟨fun hc => hc, ht⟩

open Exec in
theorem keeps_execute (fExec : Bool) (i : Instr) (hi : i.Small) (hdepth : i ≠ .depth)
    (hmulti : i.isMultiSig = false) : Keeps (execute env fExec i) := by
  cases i with
  | smallInt n => exact keeps_smallInt hi
  | nop => exact fun _ _ => meets_pure fun _ ht => ht
  | checkLockTimeVerify => exact keeps_checkLockTimeVerify env
  | checkSequenceVerify => exact keeps_checkSequenceVerify env
  | upgradableNop => exact keeps_upgradableNop
  | branch notIf => exact keeps_branch env fExec notIf
  | otherwise => exact keeps_otherwise
  | endIf => exact keeps_endIf
  | verify => exact keeps_verify
  | returns => exact fun _ _ => meets_setError _
  | toAltStack => exact keeps_toAltStack
  | fromAltStack => exact keeps_fromAltStack
  | twoDrop => exact keeps_twoDrop
  | twoDup => exact keeps_twoDup
  | threeDup => exact keeps_threeDup
  | twoOver => exact keeps_twoOver
  | twoRot => exact keeps_twoRot
  | twoSwap => exact keeps_twoSwap
  | ifDup => exact keeps_ifDup
  | depth => exact absurd rfl hdepth
  | drop => exact keeps_drop
  | dup => exact keeps_dup
  | nip => exact keeps_nip
  | overTop => exact keeps_overTop
  | pick roll => exact keeps_pick roll
  | rot => exact keeps_rot
  | swap => exact keeps_swap
  | tuck => exact keeps_tuck
  | size => exact keeps_size
  | equal isVerify => exact keeps_equal isVerify
  | unary op => exact keeps_unary op
  | binary op => exact keeps_binary op
  | within => exact keeps_within
  | hash op => exact keeps_hash env op
  | codeSeparator => exact keeps_codeSeparator
  | checkSig isVerify => exact keeps_checkSig env isVerify
  | checkSigAdd => exact keeps_checkSigAdd env
  | checkMultiSig => cases hmulti
  | unknown => exact fun _ _ => meets_setError _

theorem meets_execute (fExec : Bool) (i : Instr) (hi : i.Small) (hs : Held p c 0 s)
    (hb : s.Bounded) :
    Meets Stop.Allowed (fun t => t = s) (execute env fExec i) fun _ t =>
      (c ≤ maxOpsPerScript → c + i.keys s ≤ maxOpsPerScript) ∧ Held p (c + i.keys s) 0 t := by
  cases i with
  | depth =>
    apply Exec.meets_depth.weaken
    · intro t ht
      rw [ht]
      exact ⟨hs, hb⟩
    · intro _ t ht
      exact ⟨fun hc => hc, ht⟩
  | checkMultiSig isVerify =>
    apply (meets_checkMultiSig env isVerify hs).weaken fun _ ht => ht
    intro _ t ht
    exact ⟨fun _ => ht.1, ht.2⟩
  | _ => exact meets_of_keeps (keeps_execute env fExec _ hi (by simp) rfl) hs

/-! ### One turn of the loop -/

/-- What holds of the machine whenever an opcode is about to be read. -/
structure Machine.Sound (s : Machine) : Prop where
  held : Held s.pc s.nOpCount 0 s
  bounded : s.Bounded

theorem meets_dispatch (op : UInt8 × List UInt8) (hvalue : op.2.length ≤ maxScriptElementSize)
    (hs : Held p c 0 s) (hb : s.Bounded) :
    Meets Stop.Allowed (fun t => t = s) (dispatch env op.1 op.2) fun _ t =>
      (c ≤ maxOpsPerScript → c + multiSigKeys op.1 s ≤ maxOpsPerScript) ∧
        Held p (c + multiSigKeys op.1 s) 0 t := by
  apply meets_look_bind
  intro t ht
  obtain rfl := ht
  dsimp only
  split
  · rename_i hpush
    have hmulti := not_isMultiSig (UInt8.le_trans hpush.2 (by decide))
    rw [multiSigKeys_eq_zero (Or.inr hmulti)]
    apply meets_of_keeps _ hs
    intro p c
    apply (keeps_demand_ensure .minimalData _).next
    exact Held.settle (held_push hvalue)
  · unfold inCase
    split
    · rename_i hexec
      have hkeys : multiSigKeys op.1 t = (instruction op.1).keys t := by
        cases htrue : t.vfExec.allTrue with
        | true => simp [multiSigKeys, Instr.keys, htrue]
        | false =>
          have hconditional : opIf ≤ op.1 ∧ op.1 ≤ opEndIf := by simpa [htrue] using hexec
          rw [multiSigKeys_eq_zero (Or.inl htrue), Instr.keys, not_isMultiSig hconditional.2]
          rfl
      rw [hkeys]
      have hsmall := forall_byte (q := fun b => (instruction b).Small) (by decide +kernel) op.1
      exact meets_execute env _ _ hsmall hs hb
    · rename_i hskip
      have hfalse : t.vfExec.allTrue = false := by
        rw [not_or] at hskip
        simpa using hskip.1
      rw [multiSigKeys_eq_zero (Or.inl hfalse)]
      exact meets_of_keeps (fun _ _ => meets_pure fun _ ht => ht) hs

theorem meets_fetch :
    Meets Stop.Allowed (fun t => t = s) fetch fun op t =>
      ∃ rest, getScriptOp s.pc = some (op.1, op.2, rest) ∧ t = { s with pc := rest } := by
  apply meets_lift
  intro t ht
  rw [ht]
  cases hop : getScriptOp s.pc with
  | none => exact allowed_error _
  | some op => exact ⟨op.2.2, rfl, rfl⟩

theorem meets_countOpcode (opcode : UInt8) :
    Meets Stop.Allowed (fun t => t = s)
      (inCase (env.sigversion.limited ∧ op16 < opcode) (countOps 1)) fun _ t =>
        ∃ counted, (env.sigversion.limited → counted = (if op16 < opcode then 1 else 0) ∧
            (s.nOpCount ≤ maxOpsPerScript → s.nOpCount + counted ≤ maxOpsPerScript)) ∧
          t = { s with nOpCount := s.nOpCount + counted } := by
  unfold inCase
  split
  · rename_i hcount
    apply (meets_countOps 1).weaken fun _ ht => ht
    intro _ t ht
    refine ⟨1, fun _ => ⟨?_, fun _ => ht.1⟩, ht.2⟩
    rw [if_pos hcount.2]
  · rename_i hfree
    apply meets_pure
    intro t ht
    refine ⟨0, fun hlimited => ⟨?_, fun hc => hc⟩, ht⟩
    rw [if_neg fun hop => hfree ⟨hlimited, hop⟩]

/-- One turn keeps the machine sound, takes at least a byte of the script and counts what it
executes. -/
theorem meets_step (hs : s.Sound) :
    Meets Stop.Allowed (fun t => t = s) (step env) fun _ t =>
      t.Sound ∧ t.pc.length < s.pc.length ∧
        (env.sigversion.limited → t.nOpCount = s.nOpCount + operationsAt s ∧
          (s.nOpCount ≤ maxOpsPerScript → t.nOpCount ≤ maxOpsPerScript)) := by
  apply meets_fetch.bind
  intro op
  apply meets_of_exists
  intro rest
  apply meets_of_fact
  intro hop
  apply (meets_ensure _).bindFact
  intro _ hvalue
  apply (meets_countOpcode env op.1).next
  apply meets_of_exists
  intro counted
  apply meets_of_fact
  intro hcounted
  apply (keeps_ensure _).next
  apply Meets.bind
  · apply meets_inCase
    intro _
    exact meets_demand (R := fun _ _ => True) (meets_setError _)
  intro _
  have hheld : Held rest (s.nOpCount + counted) 0
      { s with pc := rest, nOpCount := s.nOpCount + counted } :=
    { hs.held with pc := rfl, counted := rfl }
  have hkeys : operationsAt s = (if op16 < op.1 then 1 else 0) + multiSigKeys op.1 s := by
    rw [operationsAt, hop]
  apply (meets_dispatch env op hvalue hheld hs.bounded).next
  apply meets_look_bind
  intro t ht
  apply (meets_ensure _).bindFact
  intro _ hbounded
  apply meets_change
  intro u hu
  obtain rfl := hu
  have hpc : u.pc.length < s.pc.length := by
    rw [ht.2.pc]
    exact (getScriptOp_eq_some hop).1
  refine ⟨⟨{ ht.2 with pc := rfl, counted := rfl }, hbounded⟩, hpc, fun hlimited => ?_⟩
  obtain ⟨hone, hlimit⟩ := hcounted hlimited
  have hcount : u.nOpCount = s.nOpCount + counted + multiSigKeys op.1 s := ht.2.counted
  refine ⟨?_, fun hc => ?_⟩
  · rw [hcount, hkeys, hone, Nat.add_assoc]
  · rw [hcount]
    exact ht.1 (hlimit hc)

/-! ### Runs -/

/-- A run of the loop from `start` on, one opcode after the other: the machines before each turn
that was made, and the machine after the last of them. -/
inductive Run (F : Finset ScriptFlag) (start : Machine) : List Machine → Machine → Prop
  | nil : Run F start [] start
  | turn {past : List Machine} {s t : Machine} (run : Run F start past s) (more : s.pc ≠ [])
      (next : (step env).run F s = .ok ((), t)) : Run F start (past ++ [s]) t

section

variable {env} {F : Finset ScriptFlag} {start s t : Machine} {past : List Machine}

section
variable (h : Run env F start past s) (hstart : start.Sound)
include h hstart

theorem Run.sound : s.Sound := by
  induction h with
  | nil => exact hstart
  | turn _ _ next ih => exact ((meets_step env ih).of_ok rfl next).1

theorem Run.length : past.length + s.pc.length ≤ start.pc.length := by
  induction h with
  | nil => simp
  | turn run _ next ih =>
    have hstep := ((meets_step env (run.sound hstart)).of_ok rfl next).2.1
    rw [List.length_append, List.length_singleton]
    omega

theorem Run.counted (hlimited : env.sigversion.limited)
    (hcount : start.nOpCount ≤ maxOpsPerScript) :
    s.nOpCount = start.nOpCount + (past.map operationsAt).sum ∧ s.nOpCount ≤ maxOpsPerScript := by
  induction h with
  | nil => simpa using hcount
  | turn run _ next ih =>
    have hstep := ((meets_step env (run.sound hstart)).of_ok rfl next).2.2 hlimited
    rw [List.map_append, List.sum_append, List.map_singleton, List.sum_singleton]
    exact ⟨by omega, hstep.2 ih.2⟩

end

/-- With the limit used up, an opcode that counts is refused and not executed. -/
theorem step_opCount (hlimited : env.sigversion.limited) (hcount : s.nOpCount = maxOpsPerScript)
    (hnext : 0 < operationsAt s) : (step env).run F s = .error (.error .opCount) := by
  unfold operationsAt at hnext
  cases hop : getScriptOp s.pc with
  | none =>
    rw [hop] at hnext
    exact absurd hnext (lt_irrefl 0)
  | some op =>
    rw [hop] at hnext
    have habove : op16 < op.1 := by
      by_contra hlow
      have hmulti := not_isMultiSig (UInt8.le_trans (UInt8.not_lt.mp hlow) (by decide))
      dsimp only at hnext
      rw [multiSigKeys_eq_zero (Or.inr hmulti), if_neg hlow] at hnext
      exact absurd hnext (lt_irrefl 0)
    have hvalue : op.2.1 = [] := by
      obtain hpush | hvalue := (getScriptOp_eq_some hop).2
      · exact absurd (UInt8.lt_of_lt_of_le habove hpush) (by decide)
      · exact hvalue
    simp [step, fetch, hop, hvalue, habove, hlimited, hcount, ensure, require, inCase, countOps, lift,
      look, change, fail, Except.bind]

theorem evalLoop_of_end (n : ℕ) (hpc : s.pc = []) : (evalLoop env n).run F s = .ok ((), s) := by
  cases n with
  | zero =>
    change Ruled.run (require (s.pc = []) Stop.unfinished) F s = _
    rw [require, if_pos hpc]
    rfl
  | succ n =>
    change Ruled.run (if s.pc = [] then pure () else step env >>= fun _ => evalLoop env n) F s = _
    rw [if_pos hpc]
    rfl

theorem evalLoop_of_more (n : ℕ) (hpc : s.pc ≠ []) :
    (evalLoop env (n + 1)).run F s =
      ((step env).run F s).bind fun r => (evalLoop env n).run F r.2 := by
  change Ruled.run (if s.pc = [] then pure () else step env >>= fun _ => evalLoop env n) F s = _
  rw [if_neg hpc]
  rfl

/-- Once the script is read the loop is over, and it has been read after as many turns as it has
bytes. -/
theorem Run.loop {n : ℕ} (h : Run env F start past s) (hstart : start.Sound)
    (hn : s.pc.length ≤ n) :
    Outcome Stop.Allowed (fun _ t => t.pc = [] ∧ ∃ past, Run env F start past t)
      ((evalLoop env n).run F s) := by
  induction n generalizing past s with
  | zero =>
    have hpc : s.pc = [] := List.eq_nil_of_length_eq_zero (Nat.le_zero.mp hn)
    rw [evalLoop_of_end 0 hpc]
    exact ⟨hpc, past, h⟩
  | succ n ih =>
    by_cases hpc : s.pc = []
    · rw [evalLoop_of_end _ hpc]
      exact ⟨hpc, past, h⟩
    · have hstep := meets_step env (h.sound hstart)
      rw [evalLoop_of_more n hpc]
      cases hrun : (step env).run F s with
      | error e => exact hstep.of_error rfl hrun
      | ok r =>
        have hless := (hstep.of_ok rfl hrun).2.1
        exact ih (h.turn hpc hrun) (by omega)

end

theorem sound_start (script : Script) (execdata : ScriptExecutionData)
    (hlen : stack.length ≤ maxStackSize) (hsmall : ∀ v ∈ stack, v.length ≤ maxScriptElementSize) :
    (start stack script execdata).Sound where
  held :=
    { pc := rfl
      counted := rfl
      deep := Nat.zero_le _
      small := hsmall
      smallAlt := nofun }
  bounded := hlen

theorem meets_evalBody {script : Script} {execdata : ScriptExecutionData}
    (hstart : (start stack script execdata).Sound) :
    Meets Stop.Allowed (fun s => s = start stack script execdata) (evalBody env script)
      fun _ _ => True := by
  apply (meets_require fun _ => allowed_assertion).bindFact
  intro _ _
  apply (keeps_ensure _).next
  apply Meets.bind (Q := fun _ _ => True)
  · constructor
    intro F s hs
    rw [hs]
    have hstarted : Run env F (start stack script execdata) [] (start stack script execdata) := .nil
    have hloop := hstarted.loop (n := script.length) hstart le_rfl
    cases hrun : (evalLoop env script.length).run F (start stack script execdata) with
    | ok r => trivial
    | error e =>
      rw [hrun] at hloop
      exact hloop
  · intro _
    apply meets_look_bind
    intro s _
    exact (keeps_ensure _).weaken (fun _ hs => hs) fun _ _ _ => trivial

/-- The bounds of the interpreter. On a stack within the limits, at every opcode that a run of
`EvalScript` comes to, no more turns have been made than the script has bytes, all elements are
within 520 bytes and the stacks within 1000 elements, and at most 201 operations have been
counted where they are; an opcode that would be one too many is refused. No turn, nor the
whole of `EvalScript`, leaves a stack, lets a number overflow or is cut short. -/
theorem evalScript_bounded (F : Finset ScriptFlag) (stack : Stack) (script : Script)
    (execdata : ScriptExecutionData) (hlen : stack.length ≤ maxStackSize)
    (hsmall : ∀ v ∈ stack, v.length ≤ maxScriptElementSize) :
    (∀ past s, Run env F (start stack script execdata) past s →
      past.length ≤ script.length ∧
      (∀ v ∈ s.stack, v.length ≤ maxScriptElementSize) ∧
      (∀ v ∈ s.altstack, v.length ≤ maxScriptElementSize) ∧
      s.stack.length + s.altstack.length ≤ maxStackSize ∧
      (env.sigversion.limited → (past.map operationsAt).sum ≤ maxOpsPerScript ∧
        ((past.map operationsAt).sum = maxOpsPerScript → 0 < operationsAt s →
          (step env).run F s = .error (.error .opCount))) ∧
      ∀ e, (step env).run F s = .error e → e.isFault = false) ∧
    ∀ e, (evalBody env script).run F (start stack script execdata) = .error e →
      e.isFault = false := by
  have hstart := sound_start script execdata hlen hsmall
  constructor
  · intro past s run
    have hsound := run.sound hstart
    have hread := run.length hstart
    refine ⟨by simp only [start] at hread; omega, hsound.held.small, hsound.held.smallAlt,
      hsound.bounded, fun hlimited => ?_, fun e he => (meets_step env hsound).of_error rfl he⟩
    obtain ⟨hcount, hle⟩ := run.counted hstart hlimited (Nat.zero_le _)
    have hsum : s.nOpCount = (past.map operationsAt).sum := by
      rw [hcount]
      exact Nat.zero_add _
    rw [← hsum]
    exact ⟨hle, fun hfull => step_opCount hlimited hfull⟩
  · have hbody := meets_evalBody env hstart
    exact fun e he => hbody.of_error rfl he

/-- Hashes that ignore their input, and a curve on which everything holds. -/
def blankCrypto : Crypto where
  ripemd160 _ := ⟨List.replicate 20 1, rfl⟩
  sha1 _ := ⟨List.replicate 20 0, rfl⟩
  sha256 _ := ⟨List.replicate 32 0, rfl⟩
  checkLowS _ := true
  checkTapTweak _ _ _ _ := true

def mirrorChecker : SignatureChecker where
  checkECDSASignature vchSig vchPubKey _ _ := vchSig = vchPubKey
  checkSchnorrSignature sig pubkey _ d := if sig = pubkey then .ok d else .error .schnorrSig
  checkLockTime _ := true
  checkSequence _ := true

theorem evalScript_bounded_sum :
    (∀ past s, Run ⟨blankCrypto, mirrorChecker, .base⟩ {.minimalData}
        (start [[2], [3]] [0x93, 0x55, 0x87] .initial) past s →
      past.length ≤ 3 ∧ s.stack.length + s.altstack.length ≤ 1000) ∧
    ((evalBody ⟨blankCrypto, mirrorChecker, .base⟩ [0x93, 0x55, 0x87]).run {.minimalData}
      (start [[2], [3]] [0x93, 0x55, 0x87] .initial)).map (fun r => r.2.stack) = .ok [[1]] := by
  have h := evalScript_bounded ⟨blankCrypto, mirrorChecker, .base⟩ {.minimalData} [[2], [3]]
    [0x93, 0x55, 0x87] .initial (by decide) (by decide)
  refine ⟨fun past s run => ?_, by decide⟩
  obtain ⟨hlen, -, -, hsize, -⟩ := h.1 past s run
  exact ⟨hlen, hsize⟩

end Tarcoin.Script
