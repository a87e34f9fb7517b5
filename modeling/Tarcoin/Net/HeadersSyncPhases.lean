import Tarcoin.Foundations.FallibleRun
import Tarcoin.Net.HeadersSync

/-! The two phases of a headers sync, header by header and message by message. -/
namespace Tarcoin.HeadersSync
open FallibleRun GuardedSum

section Loops

variable {step : State → BlockHeader → Option State} {I : ℕ → State → Prop}

variable {s s' : State} {headers : List BlockHeader}

section
variable (hstep : ∀ n s header s', I (n + 1) s → step s header = some s' → I n s')
  (hs : I headers.length s)
include hstep hs

/-- What a loop preserves while the number of headers that are left goes down. -/
theorem visits_invariant :
    ∀ visit ∈ visits step s headers, ∃ n < headers.length, I (n + 1) visit.1 := by
  induction headers generalizing s with
  | nil => simp [visits]
  | cons header rest ih =>
    rw [visits, List.forall_mem_cons]
    refine ⟨⟨rest.length, Nat.lt_succ_self _, hs⟩, ?_⟩
    cases hstep' : step s header with
    | none => simp
    | some s' =>
      intro visit hv
      obtain ⟨n, hn, hI⟩ := ih (hstep _ _ _ _ hs hstep') visit hv
      exact ⟨n, Nat.lt_succ_of_lt hn, hI⟩

end

end Loops

section Presync

variable {C : Setup} {s s' : State} {header : BlockHeader} {headers : List BlockHeader}

theorem validateAndProcessSingleHeader_some
    (h : validateAndProcessSingleHeader C s header = some s') :
    C.permittedDifficultyTransition (presyncHeight s) s.lastHeaderReceived.nBits header.nBits =
        true ∧
      (commitsAt C (presyncHeight s) = true →
        (storeCommitment C s header).headerCommitments.length ≤ C.maxCommitments) ∧
      s' = { storeCommitment C s header with
        currentChainWork := addWork (storeCommitment C s header).currentChainWork
          (C.blockProof header)
        lastHeaderReceived := header
        currentHeight := presyncHeight s } := by
  unfold validateAndProcessSingleHeader at h
  simp only at h
  split_ifs at h with hperm hmax
  refine ⟨hperm, ?_, (Option.some.inj h).symm⟩
  intro hcommit
  simpa [hcommit] using hmax

/-- What every state of the first phase satisfies. -/
structure Presyncing (C : Setup) (s : State) : Prop where
  state : s.downloadState = .presync
  buffer : s.redownloadedHeaders = []
  commitments : s.headerCommitments.length ≤ C.maxCommitments
  reached : s.processAllRemainingHeaders = false

theorem storeCommitment_fields (C : Setup) (s : State) (header : BlockHeader) :
    (storeCommitment C s header).downloadState = s.downloadState ∧
      (storeCommitment C s header).redownloadedHeaders = s.redownloadedHeaders ∧
      (storeCommitment C s header).processAllRemainingHeaders = s.processAllRemainingHeaders ∧
      (storeCommitment C s header).headerCommitments.length ≤ s.headerCommitments.length + 1 := by
  unfold storeCommitment
  split_ifs <;> simp

theorem Presyncing.step (hs : Presyncing C s)
    (h : validateAndProcessSingleHeader C s header = some s') : Presyncing C s' := by
  obtain ⟨-, hmax, rfl⟩ := validateAndProcessSingleHeader_some h
  obtain ⟨hstate, hbuffer, hall, -⟩ := storeCommitment_fields C s header
  refine ⟨hstate.trans hs.state, hbuffer.trans hs.buffer, ?_, hall.trans hs.reached⟩
  by_cases hcommit : commitsAt C (presyncHeight s) = true
  · exact hmax hcommit
  · rw [storeCommitment, if_neg hcommit]
    exact hs.commitments

/-- The heights and commitments of the first phase, as long as the heights fit. -/
theorem presync_commitments {height : ℤ} (hheight : s.currentHeight = height) (hpos : 0 ≤ height)
    (hfits : height + headers.length < 2 ^ 31)
    (h : headers.foldlM (validateAndProcessSingleHeader C) s = some s') :
    s'.currentHeight = height + headers.length ∧
      (visits (validateAndProcessSingleHeader C) s headers).filterMap (storedAt C) =
        commitmentsFrom C height headers ∧
      s'.headerCommitments =
        s.headerCommitments ++ (commitmentsFrom C height headers).map Prod.snd := by
  induction headers generalizing s height with
  | nil =>
    cases h
    simpa [visits, commitmentsFrom] using hheight
  | cons header rest ih =>
    obtain ⟨s₁, hs₁, h⟩ := Option.bind_eq_some_iff.mp h
    obtain ⟨hperm, -, heq⟩ := validateAndProcessSingleHeader_some hs₁
    rw [List.length_cons] at hfits
    have hnext : presyncHeight s = height + 1 := by
      rw [presyncHeight, hheight]
      refine wrap_of_fits (by norm_num) ⟨?_, ?_⟩
      · omega
      · omega
    have hheight₁ : s₁.currentHeight = height + 1 := by rw [heq, hnext]
    obtain ⟨hend, hstored, hcommitments⟩ := ih hheight₁ (by omega) (by omega) h
    rw [visits, hs₁, List.filterMap_cons, commitmentsFrom, hstored, hcommitments]
    refine ⟨by rw [hend, List.length_cons, Nat.cast_succ]; omega, ?_, ?_⟩
    · rw [storedAt]
      simp only [hnext] at hperm ⊢
      rw [hperm, Bool.true_and]
      split_ifs <;> rfl
    · rw [heq, storeCommitment, hnext]
      split_ifs <;> simp

end Presync

section Redownload

variable {C : Setup} {s s' : State} {header : BlockHeader} {headers R Q : List BlockHeader}

theorem validateAndStoreRedownloadedHeader_some
    (h : validateAndStoreRedownloadedHeader C s header = some s') :
    header.hashPrevBlock = s.redownloadBufferLastHash ∧
      C.permittedDifficultyTransition (s.redownloadBufferLastHeight + 1) (previousBits C s)
        header.nBits = true ∧
      s' = { s with
        redownloadChainWork := addWork s.redownloadChainWork (C.blockProof header)
        processAllRemainingHeaders := s.processAllRemainingHeaders ||
          decide (C.minimumRequiredWork ≤ addWork s.redownloadChainWork (C.blockProof header))
        redownloadedHeaders := s.redownloadedHeaders ++ [compress header]
        redownloadBufferLastHeight := s.redownloadBufferLastHeight + 1
        redownloadBufferLastHash := C.blockHash header
        headerCommitments := if (dueCommitment C s header).isSome then s.headerCommitments.tail
          else s.headerCommitments } ∧
      ∀ due, dueCommitment C s header = some due →
        due = some (C.commitmentBit (C.blockHash header)) := by
  unfold validateAndStoreRedownloadedHeader at h
  simp only at h
  split at h
  · cases h
  rename_i hprev
  split at h
  · rename_i hperm
    refine ⟨not_not.mp hprev, hperm, ?_⟩
    split at h
    · rename_i hdue
      rw [hdue]
      exact ⟨(Option.some.inj h).symm, by simp⟩
    · cases h
    · rename_i expected hdue
      split at h
      · cases h
      rename_i hbit
      rw [hdue]
      refine ⟨(Option.some.inj h).symm, ?_⟩
      intro due hd
      rw [← Option.some.inj hd, not_not.mp hbit]
  · cases h

/-- What is known of the second phase once the headers `R` have been accepted and of them the
headers `Q` released. -/
structure Buffered (C : Setup) (R Q : List BlockHeader) (s : State) : Prop where
  state : s.downloadState = .redownload
  linked : Linked C (C.blockHash C.chainStart) R
  buffer : ∃ B, R = Q ++ B ∧ s.redownloadedHeaders = B.map compress
  firstPrev : s.redownloadBufferFirstPrevHash = endHash C (C.blockHash C.chainStart) Q
  lastHash : s.redownloadBufferLastHash = endHash C (C.blockHash C.chainStart) R
  height : s.redownloadBufferLastHeight = C.chainStartHeight + R.length
  work : s.redownloadChainWork = workAfter C C.chainStartWork R
  reached : s.processAllRemainingHeaders = reachesWork C C.chainStartWork R
  commitments : s.headerCommitments.length ≤ C.maxCommitments

theorem Buffered.length_eq (hs : Buffered C R Q s) :
    R.length = Q.length + s.redownloadedHeaders.length := by
  obtain ⟨B, rfl, hB⟩ := hs.buffer
  rw [hB, List.length_append, List.length_map]

theorem Buffered.step (hs : Buffered C R Q s)
    (h : validateAndStoreRedownloadedHeader C s header = some s') :
    Buffered C (R ++ [header]) Q s' := by
  obtain ⟨hprev, -, rfl, -⟩ := validateAndStoreRedownloadedHeader_some h
  obtain ⟨B, hR, hB⟩ := hs.buffer
  refine ⟨hs.state, ?_, ⟨B ++ [header], ?_, ?_⟩, hs.firstPrev, ?_, ?_, ?_, ?_, ?_⟩
  · rw [linked_append]
    exact ⟨hs.linked, hprev.trans hs.lastHash, trivial⟩
  · rw [hR, List.append_assoc]
  · rw [hB, List.map_append]
    rfl
  · rw [endHash, List.foldl_append]
    rfl
  · rw [hs.height, List.length_append, List.length_singleton, Nat.cast_succ, add_assoc]
  · rw [workAfter_append, ← hs.work]
  · rw [reachesWork_append, ← hs.reached, ← hs.work]
  · split_ifs
    · rw [List.length_tail]
      exact (Nat.sub_le _ _).trans hs.commitments
    · exact hs.commitments

theorem Buffered.loop (hs : Buffered C R Q s)
    (h : headers.foldlM (validateAndStoreRedownloadedHeader C) s = some s') :
    Buffered C (R ++ headers) Q s' := by
  induction headers generalizing s R with
  | nil =>
    cases h
    rwa [List.append_nil]
  | cons header rest ih =>
    obtain ⟨s₁, hs₁, h⟩ := Option.bind_eq_some_iff.mp h
    have hrest := ih (hs.step hs₁) h
    rwa [List.append_assoc] at hrest

/-- The number of headers that the loop of `PopHeadersReadyForAcceptance` takes from a buffer. -/
def popCount (C : Setup) (processAll : Bool) (n : ℕ) : ℕ :=
  if processAll then n else n - C.redownloadBufferSize

theorem popHeaders_eq (processAll : Bool) {prev : Uint256} {B : List BlockHeader}
    (hB : Linked C prev B) :
    popHeaders C processAll prev (B.map compress) =
      (B.take (popCount C processAll B.length),
        endHash C prev (B.take (popCount C processAll B.length)),
        (B.drop (popCount C processAll B.length)).map compress) := by
  induction B generalizing prev with
  | nil => simp [popHeaders, popCount, endHash]
  | cons b B ih =>
    obtain ⟨rfl, hrest⟩ := hB
    rw [List.map_cons, popHeaders, getFullHeader_compress]
    split_ifs with hpop
    · have hcount : popCount C processAll (b :: B).length =
          popCount C processAll B.length + 1 := by
        simp only [popCount, List.length_cons, List.length_map, Bool.or_eq_true,
          decide_eq_true_eq] at hpop ⊢
        split_ifs with hall
        · rfl
        · have hlt := hpop.resolve_right hall
          omega
      simp only
      rw [ih hrest, hcount]
      rfl
    · have hcount : popCount C processAll (b :: B).length = 0 := by
        simp only [popCount, List.length_cons, List.length_map, Bool.or_eq_true,
          decide_eq_true_eq, not_or] at hpop ⊢
        rw [if_neg hpop.2]
        omega
      rw [hcount]
      rfl

theorem Buffered.pop (hs : Buffered C R Q s) :
    Buffered C R (Q ++ (popHeadersReadyForAcceptance C s).1) (popHeadersReadyForAcceptance C s).2 ∧
      (popHeadersReadyForAcceptance C s).1.length =
        popCount C s.processAllRemainingHeaders s.redownloadedHeaders.length := by
  obtain ⟨B, rfl, hB⟩ := hs.buffer
  have hlinked := (linked_append.mp hs.linked).2
  have hpop := popHeaders_eq s.processAllRemainingHeaders hlinked
  rw [popHeadersReadyForAcceptance, hB, hs.firstPrev, hpop]
  refine ⟨⟨hs.state, hs.linked, ⟨B.drop _, ?_, rfl⟩, ?_, hs.lastHash, hs.height, hs.work, hs.reached,
    hs.commitments⟩, ?_⟩
  · rw [List.append_assoc, List.take_append_drop]
  · rw [endHash, endHash, endHash, List.foldl_append]
  · rw [List.length_map, List.length_take, popCount]
    split_ifs <;> omega

theorem reached_of_step (h : validateAndStoreRedownloadedHeader C s header = some s')
    (hs : s.processAllRemainingHeaders = true) : s'.processAllRemainingHeaders = true := by
  obtain ⟨-, -, rfl, -⟩ := validateAndStoreRedownloadedHeader_some h
  simp [hs]

theorem checks_of_reached (hs : s.processAllRemainingHeaders = true) :
    (visits (validateAndStoreRedownloadedHeader C) s headers).filterMap (checkedAt C) = [] := by
  induction headers generalizing s with
  | nil => rfl
  | cons header rest ih =>
    have hnone : checkedAt C (s, header) = none := by
      simp [checkedAt, dueCommitment, hs]
    rw [visits, List.filterMap_cons_none hnone]
    cases hstep : validateAndStoreRedownloadedHeader C s header with
    | none => rfl
    | some s₁ => exact ih (reached_of_step hstep hs)

theorem reached_of_loop (h : headers.foldlM (validateAndStoreRedownloadedHeader C) s = some s')
    (hs : s.processAllRemainingHeaders = true) : s'.processAllRemainingHeaders = true :=
  foldlM_invariant (P := fun s => s.processAllRemainingHeaders = true)
    (fun _ _ _ _ hs hstep => reached_of_step hstep hs) hs h

/-- The commitments that are left are those to the headers `ps` of the first phase, which come
after the last header of the second. -/
def Tracks (C : Setup) (ps : List BlockHeader) (s : State) : Prop :=
  s.headerCommitments = (commitmentsFrom C s.redownloadBufferLastHeight ps).map Prod.snd

variable {ps : List BlockHeader}

theorem commitmentsFrom_tail {height : ℤ} :
    commitmentsFrom C height ps =
      (if commitsAt C (height + 1) then
        ps.head?.toList.map fun p => (height + 1, C.commitmentBit (C.blockHash p)) else []) ++
      commitmentsFrom C (height + 1) ps.tail := by
  cases ps with
  | nil => simp [commitmentsFrom]
  | cons p ps => rfl

theorem Tracks.due (ht : Tracks C ps s) {expected : Bool}
    (hdue : dueCommitment C s header = some (some expected)) :
    commitmentsFrom C s.redownloadBufferLastHeight ps =
      (s.redownloadBufferLastHeight + 1, expected) ::
        commitmentsFrom C (s.redownloadBufferLastHeight + 1) ps.tail := by
  unfold dueCommitment at hdue
  simp only at hdue
  split_ifs at hdue with hcond
  have hcommit := (Bool.and_eq_true_iff.mp hcond).2
  have hhead := Option.some.inj hdue
  rw [ht, commitmentsFrom_tail, if_pos hcommit] at hhead
  rw [commitmentsFrom_tail, if_pos hcommit]
  cases ps with
  | nil => simp [commitmentsFrom] at hhead
  | cons p ps =>
    simp only [List.head?_cons, Option.toList_some, List.map_cons, List.map_nil,
      List.singleton_append, Option.some.injEq] at hhead
    rw [← hhead]
    rfl

/-- A header that is accepted before there is enough work uses up the commitment to its height, if
there is one, and is checked against it. -/
theorem Tracks.step (ht : Tracks C ps s)
    (h : validateAndStoreRedownloadedHeader C s header = some s')
    (hreach : s'.processAllRemainingHeaders = false) :
    s'.redownloadBufferLastHeight = s.redownloadBufferLastHeight + 1 ∧ Tracks C ps.tail s' ∧
      commitmentsFrom C s.redownloadBufferLastHeight ps =
        (checkedAt C (s, header)).toList ++
          commitmentsFrom C s'.redownloadBufferLastHeight ps.tail := by
  obtain ⟨hprev, hperm, rfl, hbit⟩ := validateAndStoreRedownloadedHeader_some h
  have hchecked : checkedAt C (s, header) = (dueCommitment C s header).join.map
      fun expected => (s.redownloadBufferLastHeight + 1, expected) := by
    simp [checkedAt, hprev, hperm]
  refine ⟨rfl, ?_⟩
  rw [hchecked]
  cases hdue : dueCommitment C s header with
  | none =>
    have hskip : commitsAt C (s.redownloadBufferLastHeight + 1) = false := by
      have hreach' := Bool.or_eq_false_iff.mp hreach
      simp only [dueCommitment, hreach'.1, hreach'.2] at hdue
      simpa using hdue
    have htail : commitmentsFrom C s.redownloadBufferLastHeight ps =
        commitmentsFrom C (s.redownloadBufferLastHeight + 1) ps.tail := by
      rw [commitmentsFrom_tail, hskip]
      rfl
    refine ⟨?_, htail⟩
    rw [Tracks, ← htail]
    exact ht
  | some due =>
    obtain rfl := hbit due hdue
    have htail := ht.due hdue
    refine ⟨?_, htail⟩
    rw [Tracks, htail] at ht
    rw [Tracks]
    simp [ht]

theorem Tracks.loop {ps : List BlockHeader} (ht : Tracks C ps s)
    (hreach : s.processAllRemainingHeaders = false) :
    (visits (validateAndStoreRedownloadedHeader C) s headers).filterMap (checkedAt C) <+:
        commitmentsFrom C s.redownloadBufferLastHeight ps ∧
      ∀ s', headers.foldlM (validateAndStoreRedownloadedHeader C) s = some s' →
        s'.processAllRemainingHeaders = false → Tracks C (ps.drop headers.length) s' ∧
        commitmentsFrom C s.redownloadBufferLastHeight ps =
          (visits (validateAndStoreRedownloadedHeader C) s headers).filterMap (checkedAt C) ++
            commitmentsFrom C s'.redownloadBufferLastHeight (ps.drop headers.length) := by
  induction headers generalizing s ps with
  | nil =>
    refine ⟨ List.nil_prefix, ?_⟩
    intro s' h _
    cases h
    exact ⟨ht, rfl⟩
  | cons header rest ih =>
    have hfirst : (checkedAt C (s, header)).toList <+:
        commitmentsFrom C s.redownloadBufferLastHeight ps := by
      cases hc : checkedAt C (s, header) with
      | none => exact List.nil_prefix
      | some c =>
        simp only [checkedAt] at hc
        split_ifs at hc
        obtain ⟨expected, hdue, rfl⟩ := Option.map_eq_some_iff.mp hc
        rw [ht.due (Option.join_eq_some_iff.mp hdue)]
        exact ⟨_, rfl⟩
    have hcons (vs : List (State × BlockHeader)) : ((s, header) :: vs).filterMap (checkedAt C) =
        (checkedAt C (s, header)).toList ++ vs.filterMap (checkedAt C) := by
      rw [List.filterMap_cons]
      cases checkedAt C (s, header) <;> rfl
    rw [visits, hcons]
    cases hstep : validateAndStoreRedownloadedHeader C s header with
    | none =>
      simp only [List.filterMap_nil, List.append_nil]
      refine ⟨hfirst, ?_⟩
      intro s' h
      rw [List.foldlM_cons, hstep] at h
      cases h
    | some s₁ =>
      cases hreach₁ : s₁.processAllRemainingHeaders with
      | true =>
        rw [checks_of_reached hreach₁, List.append_nil]
        refine ⟨hfirst, ?_⟩
        intro s' h hs'
        rw [List.foldlM_cons, hstep] at h
        rw [reached_of_loop h hreach₁] at hs'
        cases hs'
      | false =>
        obtain ⟨-, ht₁, hsplit⟩ := ht.step hstep hreach₁
        obtain ⟨hrest, hend⟩ := ih ht₁ hreach₁
        rw [hsplit]
        refine ⟨( List.prefix_append_right_inj _).mpr hrest, ?_⟩
        intro s' h hs'
        rw [List.foldlM_cons, hstep] at h
        obtain ⟨ht', heq⟩ := hend s' h hs'
        rw [List.drop_tail] at ht' heq
        refine ⟨ht', ?_⟩
        rw [heq, List.append_assoc]
        rfl

end Redownload

end Tarcoin.HeadersSync
