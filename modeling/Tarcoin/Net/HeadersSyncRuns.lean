import Tarcoin.Net.HeadersSyncPhases

/-! Whole runs of a headers sync, over any sequence of messages. -/
namespace Tarcoin.HeadersSync
open GuardedSum

section Messages

variable {C : Setup} {s s' : State} {msg : HeadersMessage}

/-- What a message does: the headers that it has released, and the state after it. -/
inductive Handled (C : Setup) (s : State) (msg : HeadersMessage) : List BlockHeader → State → Prop
  | idle (h : msg.headers = [] ∨ s.downloadState = .final) : Handled C s msg [] s
  | failed : Handled C s msg [] (finalize s)
  | presync (s₁ s' : State) (hs : s.downloadState = .presync)
      (hfirst : msg.headers.head?.map BlockHeader.hashPrevBlock =
        some (C.blockHash s.lastHeaderReceived))
      (hloop : msg.headers.foldlM (validateAndProcessSingleHeader C) s = some s₁)
      (hend : s' = switchToRedownload C s₁ ∨ s' = finalize (switchToRedownload C s₁)) :
      Handled C s msg [] s'
  | redownload (s₁ s' : State) (hs : s.downloadState = .redownload)
      (hloop : msg.headers.foldlM (validateAndStoreRedownloadedHeader C) s = some s₁)
      (hend : s' = finalize (popHeadersReadyForAcceptance C s₁).2 ∨
        s' = (popHeadersReadyForAcceptance C s₁).2 ∧
          ((popHeadersReadyForAcceptance C s₁).2.redownloadedHeaders = [] →
            s₁.processAllRemainingHeaders = false)) :
      Handled C s msg (popHeadersReadyForAcceptance C s₁).1 s'

theorem validateAndStoreHeadersCommitments_some (hne : msg.headers ≠ [])
    (h : validateAndStoreHeadersCommitments C s msg.headers = some s') :
    msg.headers.head?.map BlockHeader.hashPrevBlock = some (C.blockHash s.lastHeaderReceived) ∧
      ∃ s₁, msg.headers.foldlM (validateAndProcessSingleHeader C) s = some s₁ ∧
        s' = switchToRedownload C s₁ := by
  obtain ⟨first, rest, heq⟩ := List.exists_cons_of_ne_nil hne
  rw [heq] at h ⊢
  rw [validateAndStoreHeadersCommitments] at h
  split_ifs at h with hprev
  obtain ⟨s₁, hs₁, rfl⟩ := Option.map_eq_some_iff.mp h
  exact ⟨by rw [List.head?_cons, Option.map_some, not_not.mp hprev], s₁, hs₁, rfl⟩

theorem handled (C : Setup) (s : State) (msg : HeadersMessage) :
    Handled C s msg (processNextHeaders C s msg).1.powValidatedHeaders
      (processNextHeaders C s msg).2 := by
  unfold processNextHeaders
  split_ifs with hne
  · exact .idle (.inl hne)
  cases hs : s.downloadState with
  | final => exact .idle (.inr hs)
  | presync =>
    cases hloop : validateAndStoreHeadersCommitments C s msg.headers with
    | none => exact .failed
    | some s' =>
      obtain ⟨hfirst, s₁, hs₁, rfl⟩ := validateAndStoreHeadersCommitments_some hne hloop
      refine .presync s₁ _ hs hfirst hs₁ ?_
      dsimp only [conclude]
      split_ifs
      · exact .inl rfl
      · exact .inr rfl
  | redownload =>
    cases hloop : msg.headers.foldlM (validateAndStoreRedownloadedHeader C) s with
    | none => exact .failed
    | some s₁ =>
      refine .redownload s₁ _ hs hloop ?_
      dsimp only [conclude]
      split_ifs with hmore
      · refine .inr ⟨rfl, fun hempty => ?_⟩
        simp only [Bool.true_and, Bool.and_eq_true, Bool.not_eq_true'] at hmore
        have hdone : (popHeadersReadyForAcceptance C s₁).2.processAllRemainingHeaders = false := by
          simpa [hempty] using hmore.1
        exact hdone
      · exact .inl rfl

end Messages

section Invariant

variable {C : Setup} {s s₁ : State} {msg : HeadersMessage} {P R Q : List BlockHeader}
  {stored checked : List (ℤ × Bool)}

/-- The heights of the headers of the first phase fit into an `int`. -/
def HeightsFit (C : Setup) (P : List BlockHeader) : Prop := C.chainStartHeight + P.length < 2 ^ 31

/-- What holds once the headers `P` came in the first phase and `R` in the second, of which `Q` were
released, with the commitments that were stored and checked. -/
structure SyncInv (C : Setup) (P R Q : List BlockHeader) (stored checked : List (ℤ × Bool))
    (s : State) : Prop where
  checks : HeightsFit C P → checked <+: stored
  linked : Linked C (C.blockHash C.chainStart) Q
  received : Q <+: R
  presync : s.downloadState = .presync → Presyncing C s ∧ R = [] ∧ Q = [] ∧ checked = [] ∧
    (HeightsFit C P → s.currentHeight = C.chainStartHeight + P.length ∧
      stored = commitmentsFrom C C.chainStartHeight P ∧ s.headerCommitments = stored.map Prod.snd)
  redownload : s.downloadState = .redownload →
    Buffered C R Q s ∧ s.processAllRemainingHeaders = false ∧
    s.redownloadedHeaders.length ≤ C.redownloadBufferSize ∧
    (HeightsFit C P → Tracks C (P.drop R.length) s ∧
      stored = checked ++ commitmentsFrom C s.redownloadBufferLastHeight (P.drop R.length))
  final : s.downloadState = .final → s.headerCommitments = [] ∧ s.redownloadedHeaders = []

theorem syncInv_initial (C : Setup) : SyncInv C [] [] [] [] [] (initial C) where
  checks _ := List.nil_prefix
  linked := trivial
  received := List.nil_prefix
  presync _ := ⟨⟨rfl, rfl, Nat.zero_le _, rfl⟩, rfl, rfl, rfl, fun _ => ⟨(add_zero _).symm, rfl, rfl⟩⟩
  redownload h := by cases h
  final h := by cases h

theorem heightsFit_of_append {headers : List BlockHeader} (h : HeightsFit C (P ++ headers)) :
    HeightsFit C P := by
  unfold HeightsFit at h ⊢
  rw [List.length_append] at h
  omega

theorem commitmentsFrom_append (height : ℤ) (as bs : List BlockHeader) :
    commitmentsFrom C height (as ++ bs) =
      commitmentsFrom C height as ++ commitmentsFrom C (height + as.length) bs := by
  induction as generalizing height with
  | nil => simp [commitmentsFrom]
  | cons a as ih =>
    have hlen : height + 1 + (as.length : ℤ) = height + ((a :: as).length : ℤ) := by
      rw [List.length_cons, Nat.cast_succ]
      ring
    rw [List.cons_append, commitmentsFrom, ih, commitmentsFrom, List.append_assoc, hlen]

theorem syncInv_finalize (u : State) (hchecks : HeightsFit C P → checked <+: stored)
    (hlinked : Linked C (C.blockHash C.chainStart) Q) (hreceived : Q <+: R) :
    SyncInv C P R Q stored checked (finalize u) where
  checks := hchecks
  linked := hlinked
  received := hreceived
  presync h := by cases h
  redownload h := by cases h
  final _ := ⟨rfl, rfl⟩

/-- There is room for `n` more headers of a message of length `total`. -/
def RoomFor (C : Setup) (total n : ℕ) (s : State) : Prop :=
  s.headerCommitments.length ≤ C.maxCommitments ∧
    s.redownloadedHeaders.length + n ≤ C.redownloadBufferSize + total

theorem RoomFor.step {total n : ℕ} {header : BlockHeader} {s s' : State}
    (hs : RoomFor C total (n + 1) s)
    (h : validateAndStoreRedownloadedHeader C s header = some s') : RoomFor C total n s' := by
  obtain ⟨-, -, rfl, -⟩ := validateAndStoreRedownloadedHeader_some h
  obtain ⟨hcommitments, hbuffer⟩ := hs
  simp only [RoomFor, List.length_append, List.length_singleton]
  refine ⟨?_, by omega⟩
  split_ifs
  · rw [List.length_tail]
    omega
  · exact hcommitments

section
variable (hinv : SyncInv C P R Q stored checked s)
include hinv

theorem SyncInv.presyncLoop (hs : s.downloadState = .presync)
    (hfirst : msg.headers.head?.map BlockHeader.hashPrevBlock =
      some (C.blockHash s.lastHeaderReceived))
    (hloop : msg.headers.foldlM (validateAndProcessSingleHeader C) s = some s₁) :
    Presyncing C s₁ ∧ (HeightsFit C (P ++ msg.headers) →
      s₁.currentHeight = C.chainStartHeight + (P ++ msg.headers).length ∧
      stored ++ (presyncVisits C (s, msg)).filterMap (storedAt C) =
        commitmentsFrom C C.chainStartHeight (P ++ msg.headers) ∧
      s₁.headerCommitments =
        (stored ++ (presyncVisits C (s, msg)).filterMap (storedAt C)).map Prod.snd) := by
  obtain ⟨hsync, -, -, -, hcommits⟩ := hinv.presync hs
  constructor
  · exact FallibleRun.foldlM_invariant (fun _ _ _ _ hs hstep => hs.step hstep) hsync hloop
  · intro hfit
    obtain ⟨hheight, hstored, hbits⟩ := hcommits (heightsFit_of_append hfit)
    rw [HeightsFit, List.length_append] at hfit
    obtain ⟨hend, hvisits, hcommitments⟩ :=
      presync_commitments hheight (by omega) (by omega) hloop
    rw [presyncVisits, if_pos ⟨hs, hfirst⟩, hvisits, commitmentsFrom_append, ← hstored]
    refine ⟨?_, rfl, ?_⟩
    · rw [hend, List.length_append, Nat.cast_add]
      ring
    · rw [hcommitments, hbits, List.map_append]

theorem SyncInv.redownloadChecks (hs : s.downloadState = .redownload) (hfit : HeightsFit C P) :
    checked ++ (redownloadVisits C (s, msg)).filterMap (checkedAt C) <+: stored ∧
      ∀ s₁, msg.headers.foldlM (validateAndStoreRedownloadedHeader C) s = some s₁ →
        s₁.processAllRemainingHeaders = false →
        Tracks C (P.drop (R ++ msg.headers).length) s₁ ∧
        stored = (checked ++ (redownloadVisits C (s, msg)).filterMap (checkedAt C)) ++
          commitmentsFrom C s₁.redownloadBufferLastHeight
            (P.drop (R ++ msg.headers).length) := by
  obtain ⟨-, hreach, -, hcommits⟩ := hinv.redownload hs
  obtain ⟨htracks, hstored⟩ := hcommits hfit
  obtain ⟨hchecks, hend⟩ := @Tracks.loop C s msg.headers _ htracks hreach
  rw [redownloadVisits, if_pos hs, List.length_append, ← List.drop_drop, hstored]
  refine ⟨( List.prefix_append_right_inj _).mpr hchecks, ?_⟩
  intro s₁ hloop hreach₁
  obtain ⟨ht, heq⟩ := hend s₁ hloop hreach₁
  exact ⟨ht, by rw [List.append_assoc, heq]⟩

theorem SyncInv.messageChecks (msg : HeadersMessage)
    (hfit : HeightsFit C (P ++ if s.downloadState = .presync then msg.headers else [])) :
    checked ++ (redownloadVisits C (s, msg)).filterMap (checkedAt C) <+:
      stored ++ (presyncVisits C (s, msg)).filterMap (storedAt C) := by
  have hfit' := heightsFit_of_append hfit
  by_cases hs : s.downloadState = .redownload
  · exact (hinv.redownloadChecks hs hfit').1.trans ( List.prefix_append _ _)
  · rw [redownloadVisits, if_neg hs, List.filterMap_nil, List.append_nil]
    exact (hinv.checks hfit').trans ( List.prefix_append _ _)

theorem SyncInv.redownloadMessage (hs : s.downloadState = .redownload)
    (hloop : msg.headers.foldlM (validateAndStoreRedownloadedHeader C) s = some s₁)
    (hempty : (popHeadersReadyForAcceptance C s₁).2.redownloadedHeaders = [] →
      s₁.processAllRemainingHeaders = false) :
    SyncInv C P (R ++ msg.headers) (Q ++ (popHeadersReadyForAcceptance C s₁).1) stored
      (checked ++ (redownloadVisits C (s, msg)).filterMap (checkedAt C))
      (popHeadersReadyForAcceptance C s₁).2 := by
  have hbuffered := (hinv.redownload hs).1.loop hloop
  obtain ⟨hpopped, hcount⟩ := hbuffered.pop
  obtain ⟨B, hB, -⟩ := hpopped.buffer
  refine ⟨fun hfit => (hinv.redownloadChecks hs hfit).1,
    (linked_append.mp (hB ▸ hpopped.linked)).1, ⟨B, hB.symm⟩, ?_, fun _ => ?_, ?_⟩
  · rw [hpopped.state]
    exact fun h => absurd h (by decide)
  · have hlen := hpopped.length_eq
    have hlen₁ := hbuffered.length_eq
    rw [hlen, List.length_append, hcount] at hlen₁
    -- with enough work the buffer would have been emptied, and the sync ended
    have hreach : s₁.processAllRemainingHeaders = false := by
      by_contra hall
      rw [Bool.not_eq_false] at hall
      rw [popCount, if_pos hall] at hlen₁
      have hzero : (popHeadersReadyForAcceptance C s₁).2.redownloadedHeaders.length = 0 := by omega
      exact absurd (hempty (List.length_eq_zero_iff.mp hzero)) (by simp [hall])
    rw [popCount, hreach, if_neg Bool.false_ne_true] at hlen₁
    exact ⟨hpopped, hreach, by omega,
      fun hfit => (hinv.redownloadChecks hs hfit).2 s₁ hloop hreach⟩
  · rw [hpopped.state]
    exact fun h => absurd h (by decide)

theorem SyncInv.message (msg : HeadersMessage) :
    SyncInv C (P ++ if s.downloadState = .presync then msg.headers else [])
      (R ++ if s.downloadState = .redownload then msg.headers else [])
      (Q ++ (processNextHeaders C s msg).1.powValidatedHeaders)
      (stored ++ (presyncVisits C (s, msg)).filterMap (storedAt C))
      (checked ++ (redownloadVisits C (s, msg)).filterMap (checkedAt C))
      (processNextHeaders C s msg).2 := by
  have hchecks := hinv.messageChecks msg
  have hhandled := handled C s msg
  generalize (processNextHeaders C s msg).1.powValidatedHeaders = pow at hhandled ⊢
  generalize (processNextHeaders C s msg).2 = s' at hhandled ⊢
  cases hhandled with
  | idle h =>
    have hvisits : presyncVisits C (s, msg) = [] ∧ redownloadVisits C (s, msg) = [] := by
      rcases h with h | h <;> simp [presyncVisits, redownloadVisits, h, visits]
    have hnone (phase : DownloadState) (hphase : phase ≠ .final) :
        (if s.downloadState = phase then msg.headers else []) = [] := by
      split_ifs with hs
      · exact h.resolve_right (fun hf => hphase (hs.symm.trans hf))
      · rfl
    rw [hvisits.1, hvisits.2, hnone .presync (by decide), hnone .redownload (by decide)]
    simpa only [List.filterMap_nil, List.append_nil] using hinv
  | failed =>
    refine syncInv_finalize s hchecks ?_ ?_
    · rw [List.append_nil]
      exact hinv.linked
    · rw [List.append_nil]
      exact hinv.received.trans ( List.prefix_append _ _)
  | presync s₁ s' hs hfirst hloop hend =>
    obtain ⟨-, rfl, rfl, rfl, -⟩ := hinv.presync hs
    obtain ⟨hsync, hcommits⟩ := hinv.presyncLoop hs hfirst hloop
    have hnone : (redownloadVisits C (s, msg)).filterMap (checkedAt C) = [] := by
      simp [redownloadVisits, hs]
    rw [hnone, if_pos hs] at hchecks ⊢
    rw [if_neg (by rw [hs]; decide)]
    rcases hend with rfl | rfl
    · refine ⟨hchecks, trivial, List.nil_prefix, ?_, ?_, ?_⟩
      all_goals
        unfold switchToRedownload
        split_ifs with hwork
      · exact fun h => absurd h (by decide)
      · exact fun _ => ⟨hsync, rfl, rfl, rfl, hcommits⟩
      · intro _
        refine ⟨⟨rfl, trivial, ⟨[], rfl, rfl⟩, rfl, rfl, (add_zero _).symm, rfl, hsync.reached,
          hsync.commitments⟩, hsync.reached, Nat.zero_le _, fun hfit => ?_⟩
        obtain ⟨-, hstored, hbits⟩ := hcommits hfit
        exact ⟨by rw [Tracks, hbits, hstored]; rfl, hstored⟩
      · rw [hsync.state]
        exact fun h => absurd h (by decide)
      · exact fun h => absurd h (by decide)
      · rw [hsync.state]
        exact fun h => absurd h (by decide)
    · exact syncInv_finalize _ hchecks trivial List.nil_prefix
  | redownload s₁ s' hs hloop hend =>
    have hnone : (presyncVisits C (s, msg)).filterMap (storedAt C) = [] := by
      simp [presyncVisits, hs]
    rw [hnone, if_neg (by rw [hs]; decide), List.append_nil, List.append_nil] at hchecks ⊢
    rw [if_pos hs]
    rcases hend with rfl | ⟨rfl, hempty⟩
    · obtain ⟨hpopped, -⟩ := ((hinv.redownload hs).1.loop hloop).pop
      obtain ⟨B, hB, -⟩ := hpopped.buffer
      exact syncInv_finalize _ hchecks (linked_append.mp (hB ▸ hpopped.linked)).1 ⟨B, hB.symm⟩
    · exact hinv.redownloadMessage hs hloop hempty

theorem SyncInv.bounded :
    s.headerCommitments.length ≤ C.maxCommitments ∧
      s.redownloadedHeaders.length ≤ C.redownloadBufferSize := by
  cases hs : s.downloadState with
  | presync =>
    obtain ⟨hsync, -⟩ := hinv.presync hs
    rw [hsync.buffer]
    exact ⟨hsync.commitments, Nat.zero_le _⟩
  | redownload =>
    obtain ⟨hbuffered, -, hbuffer, -⟩ := hinv.redownload hs
    exact ⟨hbuffered.commitments, hbuffer⟩
  | final =>
    obtain ⟨hcommitments, hbuffer⟩ := hinv.final hs
    rw [hcommitments, hbuffer]
    exact ⟨Nat.zero_le _, Nat.zero_le _⟩

theorem SyncInv.visits_presyncing : ∀ visit ∈ presyncVisits C (s, msg), Presyncing C visit.1 := by
  intro visit hv
  unfold presyncVisits at hv
  split_ifs at hv with hcond
  · obtain ⟨-, -, hvisit⟩ := visits_invariant (I := fun _ s => Presyncing C s)
      (fun _ _ _ _ hs hstep => hs.step hstep) (hinv.presync hcond.1).1 visit hv
    exact hvisit
  · cases hv

theorem SyncInv.visits_roomFor : ∀ visit ∈ redownloadVisits C (s, msg),
    ∃ n, RoomFor C msg.headers.length (n + 1) visit.1 := by
  intro visit hv
  unfold redownloadVisits at hv
  split_ifs at hv
  · obtain ⟨n, -, hroom⟩ := visits_invariant (I := RoomFor C msg.headers.length)
      (fun _ _ _ _ hs hstep => hs.step hstep)
      ⟨hinv.bounded.1, Nat.add_le_add_right hinv.bounded.2 _⟩ visit hv
    exact ⟨n, hroom⟩
  · cases hv

theorem SyncInv.moments_bounded : ∀ x ∈ moments C (s, msg),
    x.headerCommitments.length ≤ C.maxCommitments + 1 ∧
      x.redownloadedHeaders.length ≤ C.redownloadBufferSize + msg.headers.length := by
  intro x hx
  simp only [moments, List.mem_cons, List.mem_append, List.mem_flatMap, List.not_mem_nil,
    or_false] at hx
  rcases hx with rfl | rfl | ⟨visit, hv, hx⟩ | ⟨visit, hv, hx⟩
  · have := hinv.bounded
    omega
  · have := (hinv.message msg).bounded
    omega
  · have hsync := hinv.visits_presyncing visit hv
    have hcommitments := hsync.commitments
    rcases hx with rfl | rfl
    · rw [hsync.buffer]
      exact ⟨by omega, Nat.zero_le _⟩
    · obtain ⟨-, hbuffer, -, hlen⟩ := storeCommitment_fields C visit.1 visit.2
      rw [hbuffer, hsync.buffer]
      exact ⟨by omega, Nat.zero_le _⟩
  · obtain ⟨n, hroom⟩ := hinv.visits_roomFor visit hv
    rcases hx with rfl | hx
    · obtain ⟨hcommitments, hbuffer⟩ := hroom
      omega
    · obtain ⟨hcommitments, hbuffer⟩ := hroom.step (Option.mem_toList.mp hx)
      omega

/-- Headers are released before there is enough work only from a buffer that stays full. -/
theorem SyncInv.releasedEarly (hrel : (processNextHeaders C s msg).1.powValidatedHeaders ≠ [])
    (hreach : reachesWork C C.chainStartWork
      (R ++ if s.downloadState = .redownload then msg.headers else []) = false) :
    (Q ++ (processNextHeaders C s msg).1.powValidatedHeaders).length + C.redownloadBufferSize ≤
      (R ++ if s.downloadState = .redownload then msg.headers else []).length := by
  have hhandled := handled C s msg
  generalize (processNextHeaders C s msg).1.powValidatedHeaders = pow at hhandled hrel ⊢
  generalize (processNextHeaders C s msg).2 = s' at hhandled
  cases hhandled with
  | idle | failed | presync => exact absurd rfl hrel
  | redownload s₁ s' hs hloop hend =>
    have hbuffered := (hinv.redownload hs).1.loop hloop
    obtain ⟨-, hcount⟩ := hbuffered.pop
    have hlen := hbuffered.length_eq
    rw [if_pos hs] at hreach ⊢
    rw [hbuffered.reached, hreach, popCount, if_neg Bool.false_ne_true] at hcount
    have hpos := List.length_pos_of_ne_nil hrel
    rw [List.length_append]
    omega

end

end Invariant

section Runs

variable {C : Setup}

def SyncInvAt (C : Setup) (t : List (State × HeadersMessage)) (s : State) : Prop :=
  SyncInv C (receivedIn .presync t) (receivedIn .redownload t) (released C t)
    (storedCommitments C t) (checkedCommitments C t) s

theorem SyncInvAt.run {t : List (State × HeadersMessage)} {s : State} (hinv : SyncInvAt C t s)
    (msgs : List HeadersMessage) :
    (∃ s', SyncInvAt C (t ++ trace C s msgs) s') ∧ ∀ before turn after,
      trace C s msgs = before ++ turn :: after → SyncInvAt C (t ++ before) turn.1 := by
  induction msgs generalizing t s with
  | nil => exact ⟨⟨s, by simpa [trace] using hinv⟩, by simp [trace]⟩
  | cons msg msgs ih =>
    have hnext : SyncInvAt C (t ++ [(s, msg)]) (processNextHeaders C s msg).2 := by
      rw [SyncInvAt, receivedIn_snoc, receivedIn_snoc, released_snoc, storedCommitments_snoc,
        checkedCommitments_snoc]
      exact SyncInv.message hinv msg
    obtain ⟨hend, hmid⟩ := ih hnext
    rw [List.append_assoc] at hend
    refine ⟨hend, ?_⟩
    intro before turn after heq
    cases before with
    | nil =>
      obtain ⟨rfl, -⟩ := List.cons.inj heq
      rwa [List.append_nil]
    | cons first before =>
      obtain ⟨rfl, hrest⟩ := List.cons.inj heq
      have hturn := hmid before turn after hrest
      rwa [List.append_assoc] at hturn

end Runs

/-- Whatever a peer sends: what is released is linked to the start of the chain and the first part
of what came in the second phase; before the work was reached it was released with a full buffer
of headers after it; the commitments that were checked are the first ones that were stored, height
by height, as long as the heights fit into an `int`; and neither the commitments nor the headers
that are stored exceed their bounds, but by one commitment and by one message. -/
theorem headersSync_run (C : Setup) (msgs : List HeadersMessage) :
    (Linked C (C.blockHash C.chainStart) (released C (trace C (initial C) msgs)) ∧
      released C (trace C (initial C) msgs) <+:
        receivedIn .redownload (trace C (initial C) msgs)) ∧
    (∀ before s msg after, trace C (initial C) msgs = before ++ (s, msg) :: after →
      (processNextHeaders C s msg).1.powValidatedHeaders ≠ [] →
      reachesWork C C.chainStartWork (receivedIn .redownload (before ++ [(s, msg)])) = false →
      (released C (before ++ [(s, msg)])).length + C.redownloadBufferSize ≤
        (receivedIn .redownload (before ++ [(s, msg)])).length) ∧
    (C.chainStartHeight + (receivedIn .presync (trace C (initial C) msgs)).length < 2 ^ 31 →
      checkedCommitments C (trace C (initial C) msgs) <+:
        storedCommitments C (trace C (initial C) msgs)) ∧
    ∀ turn ∈ trace C (initial C) msgs, ∀ x ∈ moments C turn,
      x.headerCommitments.length ≤ C.maxCommitments + 1 ∧
      x.redownloadedHeaders.length ≤ C.redownloadBufferSize + turn.2.headers.length := by
  obtain ⟨⟨s', hend⟩, hmid⟩ := SyncInvAt.run (t := []) (syncInv_initial C) msgs
  refine ⟨⟨hend.linked, hend.received⟩, ?_, hend.checks, ?_⟩
  · intro before s msg after heq hrel hreach
    have hinv := hmid before (s, msg) after heq
    rw [receivedIn_snoc] at hreach ⊢
    rw [released_snoc]
    exact SyncInv.releasedEarly hinv hrel hreach
  · intro turn hturn
    obtain ⟨before, after, heq⟩ := List.append_of_mem hturn
    exact SyncInv.moments_bounded (hmid before turn after heq)

/-- Headers numbered by their nonce, each linked to the one before. -/
def sampleHeader (n : ℕ) : BlockHeader := ⟨1, BitVec.ofNat 256 (n - 1), 0, 0, 0, n.toUInt32⟩

/-- A sync with the main network's period and buffer, from a block at the largest height but one.
Every header has work one and hashes to its nonce. -/
def sampleSetup : Setup where
  blockHash header := BitVec.ofNat 256 header.nNonce.toNat
  permittedDifficultyTransition _ _ _ := true
  blockProof _ := 1
  commitmentBit hash := decide (4 ≤ hash.toNat)
  commitmentPeriod := 641
  redownloadBufferSize := 15218
  commitOffset := 322
  offset_lt := by decide
  chainStart := sampleHeader 0
  chainStartHeight := 2 ^ 31 - 2
  chainStartWork := 0
  minimumRequiredWork := 5
  maxCommitments := 10

def sampleMessage : HeadersMessage := ⟨[1, 2, 3, 4, 5].map sampleHeader, true⟩

/-- The same five headers, sent twice. In the first phase the `int` height of the second one has
wrapped around, and it is committed to; in the second phase it is the fourth one that is checked,
against that commitment, and the sync is given up. -/
theorem checkedCommitments_overflow :
    storedCommitments sampleSetup
        (trace sampleSetup (initial sampleSetup) [sampleMessage, sampleMessage]) =
      [(-2 ^ 31, false)] ∧
    checkedCommitments sampleSetup
        (trace sampleSetup (initial sampleSetup) [sampleMessage, sampleMessage]) =
      [(2 ^ 31 + 2, false)] ∧
    (processNextHeaders sampleSetup
      (processNextHeaders sampleSetup (initial sampleSetup) sampleMessage).2 sampleMessage).1.success =
      false := by
  decide

end Tarcoin.HeadersSync
