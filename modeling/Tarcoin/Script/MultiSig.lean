import Tarcoin.Foundations.GreedyMatch
import Tarcoin.Script.Runs

/-! `OP_CHECKMULTISIG` decides whether the signatures can be matched, in their order, with keys in
the same order. -/
namespace Tarcoin.Script
open Ruled GreedyMatch

variable (env : Setting) {F : Finset ScriptFlag} {s : Machine}

/-! ### Accesses within the stack -/

variable {i n : ℕ} {v vch : List UInt8} {rest keys sigs : Stack}

theorem run_top (h : s.stack[i]? = some v) : (top (i + 1)).run F s = .ok (v, s) := by
  simp [top, lift, h]

theorem run_pop (h : s.stack = v :: rest) : pop.run F s = .ok ((), { s with stack := rest }) := by
  simp [pop, lift, h]

theorem run_need (h : n ≤ s.stack.length) : (need n).run F s = .ok ((), s) :=
  run_require _ F s h

theorem run_ensure {q : Prop} [Decidable q] (e : ScriptError) (s : Machine) (h : q) :
    (ensure q e).run F s = .ok ((), s) :=
  run_require _ F s h

/-- The element `vch` is read as the number `n`. -/
structure CountIs (F : Finset ScriptFlag) (vch : List UInt8) (n : ℕ) : Prop where
  short : vch.length ≤ nDefaultMaxNumSize
  value : setVch vch = n
  minimal : .minimalData ∈ F → isMinimalNum vch

theorem CountIs.run_scriptNum (h : CountIs F vch n) (hn : n ≤ 20) :
    ∃ bn : ScriptNum, bn.getint = n ∧ (scriptNum vch nDefaultMaxNumSize).run F s = .ok (bn, s) := by
  have hval := h.value
  refine ⟨_, ?_, scriptNum_run h.short h.minimal (by omega)⟩
  simp only [ScriptNum.getint, hval]
  omega

theorem CountIs.run_numAt (h : CountIs F vch n) (hn : n ≤ 20) (hi : s.stack[i]? = some vch) :
    ∃ bn : ScriptNum, bn.getint = n ∧ (numAt (i + 1) nDefaultMaxNumSize).run F s = .ok (bn, s) := by
  obtain ⟨bn, hbn, hrun⟩ := h.run_scriptNum (s := s) hn
  exact ⟨bn, hbn, (run_bind_of_ok (run_top hi)).trans hrun⟩

/-- The elements `l` are on the stack from number `i` on, counted from zero. -/
def LiesAt (s : Machine) (i : ℕ) (l : Stack) : Prop := l <+: s.stack.drop i

theorem LiesAt.cons {l : Stack} (h : LiesAt s i (v :: l)) :
    s.stack[i]? = some v ∧ LiesAt s (i + 1) l := by
  obtain ⟨tail, htail⟩ := h
  have hhead := congrArg List.head? htail
  have hrest := congrArg List.tail htail
  rw [List.head?_drop] at hhead
  rw [List.tail_drop] at hrest
  exact ⟨hhead.symm, tail, hrest⟩

/-! ### The three loops -/

/-- Before witnesses, the script that is signed is the one without the signatures. -/
def signedScript (sigs : Stack) (scriptCode : Script) : Script :=
  if env.sigversion = .base then
    sigs.foldl (fun code sig => (findAndDelete code (pushBytes sig)).1) scriptCode
  else scriptCode

theorem run_dropSignature (h : .constScriptCode ∉ F) (sig : List UInt8) (scriptCode : Script) :
    (dropSignature env sig scriptCode).run F s = .ok (signedScript env [sig] scriptCode, s) := by
  unfold dropSignature signedScript
  split
  · rw [run_bind_of_ok (run_demand_of_notMem _ s h)]
    rfl
  · rfl

theorem signedScript_cons (sig : List UInt8) (sigs : Stack) (scriptCode : Script) :
    signedScript env (sig :: sigs) scriptCode =
      signedScript env sigs (signedScript env [sig] scriptCode) := by
  unfold signedScript
  split <;> rfl

theorem run_dropSignatures (h : .constScriptCode ∉ F) (sigs : Stack) (i : ℕ) (scriptCode : Script)
    (hi : LiesAt s i sigs) :
    (Exec.dropSignatures env sigs.length (i + 1) scriptCode).run F s =
      .ok (signedScript env sigs scriptCode, s) := by
  induction sigs generalizing i scriptCode with
  | nil =>
    unfold signedScript
    split <;> rfl
  | cons sig sigs ih =>
    obtain ⟨htop, hrest⟩ := hi.cons
    rw [List.length_cons, Exec.dropSignatures, run_bind_of_ok (run_top htop),
      run_bind_of_ok (run_dropSignature env h sig scriptCode), ih (i + 1) _ hrest,
      ← signedScript_cons]

/-- Keys and signatures that pass the checks of their encoding, under the flags `F`. -/
structure Encoded (F : Finset ScriptFlag) (keys sigs : Stack) : Prop where
  sigs : ∀ sig ∈ sigs, ∀ s, (checkSignatureEncoding env sig).run F s = .ok ((), s)
  keys : ∀ key ∈ keys, ∀ s, (checkPubKeyEncoding env key).run F s = .ok ((), s)

def accepts (scriptCode : Script) (sig key : List UInt8) : Bool :=
  env.checker.checkECDSASignature sig key scriptCode env.sigversion

theorem run_checkKeys (scriptCode : Script) {j : ℕ} (henc : Encoded env F keys sigs)
    (hkeys : LiesAt s i keys) (hsigs : LiesAt s j sigs) (hle : sigs.length ≤ keys.length) :
    (Exec.checkKeys env scriptCode keys.length (i + 1) sigs.length (j + 1)).run F s =
      .ok (greedy (accepts env scriptCode) keys sigs, s) := by
  induction keys generalizing sigs i j with
  | nil =>
    obtain rfl : sigs = [] := List.eq_nil_of_length_eq_zero (Nat.le_zero.mp hle)
    rfl
  | cons key keys ih =>
    cases sigs with
    | nil => rfl
    | cons sig sigs =>
      obtain ⟨hkey, hkeys⟩ := hkeys.cons
      have hsig := hsigs.cons
      have hkeyEnc := henc.keys key List.mem_cons_self s
      have hsigEnc := henc.sigs sig List.mem_cons_self s
      rw [List.length_cons, List.length_cons, Exec.checkKeys, if_neg (Nat.succ_ne_zero _),
        run_bind_of_ok (run_top hsig.1), run_bind_of_ok (run_top hkey), run_bind_of_ok hsigEnc,
        run_bind_of_ok hkeyEnc, greedy_cons_cons]
      have hrest : ∀ {sigs'}, (∀ v ∈ sigs', v ∈ sig :: sigs) → Encoded env F keys sigs' :=
        fun hsub => ⟨fun v hv => henc.sigs v (hsub v hv),
          fun v hv => henc.keys v (List.mem_cons_of_mem key hv)⟩
      rw [List.length_cons, List.length_cons] at hle
      cases hok : accepts env scriptCode sig key with
      | true =>
        rw [accepts] at hok
        simp only [hok, if_true, Nat.add_sub_cancel]
        rw [if_neg (by omega)]
        exact ih (hrest fun v hv => List.mem_cons_of_mem sig hv) hkeys hsig.2 (by omega)
      | false =>
        rw [accepts] at hok
        simp only [hok, Bool.false_eq_true, if_false]
        split
        · rw [greedy_of_length_lt (by rwa [List.length_cons])]
          rfl
        · exact ih (hrest fun v hv => hv) hkeys hsigs (by rw [List.length_cons]; omega)

theorem run_cleanUp (h : .nullFail ∉ F) (fSuccess : Bool) (ikey2 : ℕ) (hn : n ≤ s.stack.length) :
    (Exec.cleanUp fSuccess n ikey2).run F s = .ok ((), { s with stack := s.stack.drop n }) := by
  induction n generalizing s ikey2 with
  | zero => rfl
  | succ n ih =>
    have hcheck : ∀ (p : Prop) [Decidable p] (check : Op Unit),
        (inCase p (demand .nullFail check)).run F s = .ok ((), s) := by
      intro p _ check
      unfold inCase
      split
      · exact run_demand_of_notMem _ s h
      · rfl
    obtain ⟨v, rest, hstack⟩ := List.exists_cons_of_length_pos (Nat.zero_lt_of_lt hn)
    rw [hstack] at hn
    rw [Exec.cleanUp, run_bind_of_ok (hcheck _ _), run_bind_of_ok (run_pop hstack),
      ih _ (Nat.le_of_succ_le_succ hn), hstack]
    rfl

/-! ### The opcode -/

/-- The arguments of `OP_CHECKMULTISIG` on the stack, with the keys and the signatures from the
top down, and what is below them. -/
def multiSigStack (keysCount : List UInt8) (keys : Stack) (sigsCount : List UInt8) (sigs : Stack)
    (dummy : List UInt8) (rest : Stack) : Stack :=
  keysCount :: (keys ++ sigsCount :: (sigs ++ dummy :: rest))

section Layout

variable (keysCount sigsCount dummy : List UInt8) (keys sigs rest : Stack)

theorem multiSigStack_sigsCount :
    (multiSigStack keysCount keys sigsCount sigs dummy rest).drop (1 + keys.length) =
      sigsCount :: (sigs ++ dummy :: rest) := by
  rw [← List.drop_drop]
  exact List.drop_left

theorem multiSigStack_sigs :
    (multiSigStack keysCount keys sigsCount sigs dummy rest).drop (2 + keys.length) =
      sigs ++ dummy :: rest := by
  have hsplit : 2 + keys.length = 1 + keys.length + 1 := by omega
  rw [hsplit, ← List.drop_drop, multiSigStack_sigsCount]
  rfl

theorem multiSigStack_length :
    (multiSigStack keysCount keys sigsCount sigs dummy rest).length =
      3 + keys.length + sigs.length + rest.length := by
  simp only [multiSigStack, List.length_cons, List.length_append]
  omega

end Layout

theorem run_checkSignatures {keysCount sigsCount dummy : List UInt8} (hfail : .nullFail ∉ F)
    (hdummy : .nullDummy ∉ F) (hconst : .constScriptCode ∉ F)
    (hstack : s.stack = multiSigStack keysCount keys sigsCount sigs dummy rest)
    (henc : Encoded env F keys sigs) (hle : sigs.length ≤ keys.length) :
    (Exec.checkSignatures env false keys.length sigs.length).run F s =
      .ok ((), { s with
        stack := boolean (greedy (accepts env (signedScript env sigs s.pbegincodehash)) keys sigs) ::
          rest }) := by
  have hlen : s.stack.length = 3 + keys.length + sigs.length + rest.length := by
    rw [hstack, multiSigStack_length]
  have hkeys : LiesAt s 1 keys := by
    rw [LiesAt, hstack]
    exact List.prefix_append _ _
  have hsigs : LiesAt s (2 + keys.length) sigs := by
    rw [LiesAt, hstack, multiSigStack_sigs]
    exact List.prefix_append _ _
  have hisig : 3 + keys.length = 2 + keys.length + 1 := by omega
  have hleft : s.stack.drop (2 + keys.length + sigs.length) = dummy :: rest := by
    rw [hstack, ← List.drop_drop, multiSigStack_sigs, List.drop_left]
  have hone : 1 ≤ (s.stack.drop (2 + keys.length + sigs.length)).length := by
    rw [hleft, List.length_cons]
    omega
  have hdrop := run_dropSignatures env hconst sigs (2 + keys.length) s.pbegincodehash hsigs
  have hwalk := run_checkKeys env (signedScript env sigs s.pbegincodehash) henc hkeys hsigs hle
  simp only [Exec.checkSignatures]
  rw [run_bind_of_ok (run_need (by omega)), run_bind_of_ok (a := s) (t := s) rfl, hisig,
    run_bind_of_ok hdrop, run_bind_of_ok hwalk, run_bind_of_ok (run_cleanUp hfail _ _ (by omega)),
    run_bind_of_ok (run_need hone), run_bind_of_ok (run_demand_of_notMem _ _ hdummy),
    run_bind_of_ok (run_pop hleft)]
  rfl

theorem run_countOps (n : ℕ) (F : Finset ScriptFlag) (s : Machine) :
    (countOps n).run F s =
      if s.nOpCount + n ≤ maxOpsPerScript then .ok ((), { s with nOpCount := s.nOpCount + n })
      else .error (.error .opCount) := by
  have hchange : (change fun s : Machine => { s with nOpCount := s.nOpCount + n } : Op Unit).run F s =
      .ok ((), { s with nOpCount := s.nOpCount + n }) := rfl
  split
  · exact run_require _ F _ ‹_›
  · exact run_require_of_not _ F _ ‹_›

/-- `OP_CHECKMULTISIG` decides ordered matching. Where the flags for the failed signatures, the
unused argument and the deletion of signatures are off, and `n` keys and `m ≤ n` signatures of
proper encoding are on the stack with their counts and an unused argument, the opcode takes
exactly these off and pushes whether some increasing assignment of keys to the signatures is
accepted by the checker. Only a script without such an opcode, or one that has used up its
operations, is refused. -/
theorem checkMultiSig_iff {keysCount sigsCount dummy : List UInt8} {keys sigs rest : Stack}
    (hfail : .nullFail ∉ F) (hdummy : .nullDummy ∉ F) (hconst : .constScriptCode ∉ F)
    (hstack : s.stack = multiSigStack keysCount keys sigsCount sigs dummy rest)
    (hkeys : CountIs F keysCount keys.length) (hsigs : CountIs F sigsCount sigs.length)
    (hmax : keys.length ≤ maxPubkeysPerMultisig) (hle : sigs.length ≤ keys.length)
    (henc : Encoded env F keys sigs) :
    ∃ fSuccess : Bool,
      (fSuccess = true ↔ ∃ assigned : Fin sigs.length → Fin keys.length, StrictMono assigned ∧
        ∀ i, env.checker.checkECDSASignature (sigs.get i) (keys.get (assigned i))
          (signedScript env sigs s.pbegincodehash) env.sigversion = true) ∧
      (Exec.checkMultiSig env false).run F s =
        if env.sigversion = .tapscript then .error (.error .tapscriptCheckMultiSig)
        else if s.nOpCount + keys.length ≤ maxOpsPerScript then
          .ok ((), { s with
            nOpCount := s.nOpCount + keys.length
            stack := boolean fSuccess :: rest })
        else .error (.error .opCount) := by
  refine ⟨greedy (accepts env (signedScript env sigs s.pbegincodehash)) keys sigs, ?_, ?_⟩
  · rw [greedy_iff, matched_iff_strictMono]
    rfl
  by_cases htap : env.sigversion = .tapscript
  · rw [if_pos htap]
    exact run_bind_of_error (run_require_of_not _ F s fun hne => hne htap)
  · rw [if_neg htap]
    have htop : s.stack[0]? = some keysCount := by rw [hstack]; rfl
    have hbelow : s.stack[1 + keys.length]? = some sigsCount := by
      rw [← List.head?_drop, hstack, multiSigStack_sigsCount]
      rfl
    have hlen : s.stack.length = 3 + keys.length + sigs.length + rest.length := by
      rw [hstack, multiSigStack_length]
    have hmany : keys.length ≤ 20 := hmax
    obtain ⟨n, hn, hreadKeys⟩ := hkeys.run_numAt hmany htop
    have hcount : (0 : ℤ) ≤ keys.length ∧ (keys.length : ℤ) ≤ maxPubkeysPerMultisig := by omega
    simp only [Exec.checkMultiSig]
    rw [run_bind_of_ok (run_ensure _ s htap), run_bind_of_ok (run_need (by omega)),
      run_bind_of_ok hreadKeys, hn, run_bind_of_ok (run_ensure _ s hcount), Int.toNat_natCast]
    by_cases hops : s.nOpCount + keys.length ≤ maxOpsPerScript
    · have hcounted := (run_countOps keys.length F s).trans (if_pos hops)
      obtain ⟨m, hm, hreadSigs⟩ := hsigs.run_numAt
        (s := { s with nOpCount := s.nOpCount + keys.length }) (hle.trans hmany) hbelow
      have hsigCount : (0 : ℤ) ≤ sigs.length ∧ (sigs.length : ℤ) ≤ keys.length := by omega
      have hsecond : 2 + keys.length = 1 + keys.length + 1 := by omega
      have hneed : 1 + keys.length + 1 ≤ s.stack.length := by omega
      have hdeep : (need (1 + keys.length + 1)).run F
          { s with nOpCount := s.nOpCount + keys.length } = .ok ((), _) := run_need hneed
      rw [if_pos hops, run_bind_of_ok hcounted, hsecond, run_bind_of_ok hdeep,
        run_bind_of_ok hreadSigs, hm, run_bind_of_ok (run_ensure _ _ hsigCount)]
      exact run_checkSignatures env hfail hdummy hconst hstack henc hle
    · rw [if_neg hops]
      exact run_bind_of_error ((run_countOps keys.length F s).trans (if_neg hops))

theorem encoded_of_notMem (hder : .derSig ∉ F) (hlow : .lowS ∉ F) (hstrict : .strictEnc ∉ F)
    (htype : .witnessPubKeyType ∉ F) (keys sigs : Stack) : Encoded env F keys sigs where
  sigs sig _ s := by
    unfold checkSignatureEncoding inCase
    split
    · rw [run_bind_of_ok (run_demand_of_notMem _ s hder),
        run_bind_of_ok (run_demand_of_notMem _ s hlow),
        run_bind_of_ok (run_demand_of_notMem _ s hstrict),
        run_bind_of_ok (run_demand_of_notMem _ s hlow)]
      exact run_demand_of_notMem _ s hstrict
    · rfl
  keys key _ s := by
    rw [checkPubKeyEncoding, run_bind_of_ok (run_demand_of_notMem _ s hstrict)]
    unfold inCase
    split
    · exact run_demand_of_notMem _ s htype
    · rfl

theorem checkMultiSig_iff_two_of_three :
    (Exec.checkMultiSig ⟨blankCrypto, mirrorChecker, .base⟩ false).run {.minimalData}
        (start (multiSigStack [3] [[3], [2], [1]] [2] [[3], [1]] [] [[7]]) [] .initial) =
      .ok ((), { start [[1], [7]] [] .initial with nOpCount := 3 }) := by
  have henc : Encoded ⟨blankCrypto, mirrorChecker, .base⟩ {.minimalData} [[3], [2], [1]] [[3], [1]] :=
    encoded_of_notMem _ (by decide) (by decide) (by decide) (by decide) _ _
  obtain ⟨fSuccess, hiff, hrun⟩ := checkMultiSig_iff ⟨blankCrypto, mirrorChecker, .base⟩
    (s := start (multiSigStack [3] [[3], [2], [1]] [2] [[3], [1]] [] [[7]]) [] .initial)
    (by decide) (by decide) (by decide) rfl (by constructor <;> decide) (by constructor <;> decide)
    (by decide) (by decide) henc
  have hmatch : fSuccess = true := hiff.mpr ⟨![0, 2], by decide, by decide⟩
  rw [hmatch] at hrun
  exact hrun

end Tarcoin.Script
