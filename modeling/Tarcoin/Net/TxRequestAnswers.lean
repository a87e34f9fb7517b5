import Tarcoin.Net.TxRequestRuns

/-! The tracker names the requests that the ledger allows: those of the candidates that come first
for a hash that is free. -/
namespace Tarcoin.Net.TxRequest

open OrderedIndex

variable {computer : PriorityComputer} {s : Tracker} {a b c it : Announcement} {peer : NodeId}
  {now : ℤ}

/-! ## The best candidates of a peer -/

theorem mem_walk : a ∈ ((view byPeerView s.index).dropWhile
      (fun ann => byPeerView ann < toLex (peer, toLex (true, 0)))).takeWhile
        (fun ann => ann.peer = peer ∧ ann.state = .candidateBest) ↔
    a ∈ s.index ∧ a.peer = peer ∧ a.state = .candidateBest := by
  have hsorted : ((view byPeerView s.index).dropWhile
      (fun ann => byPeerView ann < toLex (peer, toLex (true, 0)))).Pairwise
        (fun a b => byPeerView a ≤ byPeerView b) :=
    (view_pairwise byPeerView s.index).sublist (List.dropWhile_sublist _)
  have hbound : ∀ a : Announcement, toLex (peer, toLex (true, 0)) ≤ byPeerView a ↔
      peer < a.peer ∨ peer = a.peer ∧ a.state = .candidateBest := by
    intro a
    simp only [byPeerView, Prod.Lex.toLex_le_toLex]
    by_cases h : a.state = .candidateBest <;> simp [h]
  rw [takeWhile_eq_filter hsorted, List.mem_filter, mem_dropWhile_lt, hbound]
  · simp only [decide_eq_true_iff]
    constructor
    · exact fun h => ⟨h.1.1, h.2⟩
    · exact fun h => ⟨⟨h.1, .inr ⟨h.2.1.symm, h.2.2⟩⟩, h.2⟩
  · intro a ha b hb hle hpb
    have hpb := of_decide_eq_true hpb
    rcases (hbound a).mp (mem_dropWhile_lt.mp ha).2 with h | h
    · exact absurd (peer_le_of_view_le hle) (not_le.mpr (hpb.1.symm ▸ h))
    · exact decide_eq_true ⟨h.1.symm, h.2⟩

theorem selected_eq (hI : Consistent computer s.index)
    (horder : (s.index.map Announcement.sequence).Pairwise (· < ·)) :
    s.selected peer = s.index.filter (fun a => a.peer = peer ∧ a.state = .candidateBest) := by
  have hsorted : (s.selected peer).Pairwise (fun a b => a.sequence ≤ b.sequence) :=
    List.pairwise_insertionSort _ _
  have hfilter : (s.index.filter (fun a => a.peer = peer ∧ a.state = .candidateBest)).Pairwise
      (fun a b => a.sequence ≤ b.sequence) :=
    (List.pairwise_map.mp (horder.imp (fun h => h.le))).sublist List.filter_sublist
  have hperm : (s.selected peer).Perm
      (s.index.filter (fun a => a.peer = peer ∧ a.state = .candidateBest)) := by
    refine (List.perm_insertionSort _ _).trans ((List.perm_ext_iff_of_nodup ?_ ?_).mpr (fun a => ?_))
    · have hview : (view byPeerView s.index).Nodup := view_perm.nodup_iff.mpr hI.nodup
      exact hview.sublist ((List.takeWhile_sublist _).trans (List.dropWhile_sublist _))
    · exact hI.nodup.filter _
    · rw [mem_walk, List.mem_filter, decide_eq_true_iff]
  refine List.Perm.eq_of_pairwise (fun a b ha hb hab hba => ?_) hsorted hfilter hperm
  exact List.inj_on_of_nodup_map (horder.imp (fun h => h.ne))
    (List.mem_of_mem_filter (hperm.subset ha)) (List.mem_of_mem_filter hb) (le_antisymm hab hba)

/-! ## The answer at a point in time -/

variable {notes : List Note} {n : Note} {r : Tracker × List (NodeId × GenTxid)} {l : Ledger}

theorem mem_expire (hopen : n.phase ≠ .completed) :
    n ∈ expire now notes ↔ n ∈ notes ∧ ¬ n.Expired now := by
  rw [expire, mem_purge]
  constructor
  · intro h
    obtain ⟨m, hm, hmn⟩ := List.mem_map.mp h.1
    by_cases hexp : m.Expired now
    · rw [if_pos hexp] at hmn
      exact absurd (hmn ▸ rfl) hopen
    · rw [if_neg hexp] at hmn
      exact hmn ▸ ⟨hm, hexp⟩
  · intro h
    have hmem : n ∈ notes.map (fun n => if n.Expired now then n.complete else n) :=
      List.mem_map.mpr ⟨n, h.1, if_neg h.2⟩
    exact ⟨hmem, n, hmem, rfl, hopen⟩

theorem filter_expire {p : Note → Bool} (hp : ∀ n, p n = true → n.phase = .candidate) :
    (expire now notes).filter p = notes.filter p := by
  have hpurge : ∀ l : List Note, (purge l).filter p = l.filter p := by
    intro l
    rw [purge, List.filter_filter]
    refine List.filter_congr (fun n hn => ?_)
    by_cases hpn : p n = true
    · have hopen : n.phase ≠ .completed := by simp [hp n hpn]
      simp only [hpn, Bool.true_and, decide_eq_true_iff]
      exact ⟨n, hn, rfl, hopen⟩
    · simp [hpn]
  have hsame : ∀ n : Note, (p ∘ fun n => if n.Expired now then n.complete else n) n = p n := by
    intro n
    rw [Function.comp_apply]
    by_cases hexp : n.Expired now
    · rw [if_pos hexp]
      have hleft : p n.complete = false := Bool.eq_false_iff.mpr (fun h => by cases hp _ h)
      have hright : p n = false :=
        Bool.eq_false_iff.mpr (fun h => by simpa [hexp.1] using hp n h)
      rw [hleft, hright]
    · rw [if_neg hexp]
  rw [expire, hpurge, List.filter_map]
  rw [List.filter_congr (fun n _ => hsame n)]
  refine (List.map_congr_left (fun n hn => ?_)).trans (List.map_id _)
  refine if_neg (fun hexp => ?_)
  simpa [hexp.1] using hp n (List.mem_filter.mp hn).2

theorem AtTime.selectable_iff (h : AtTime computer now s r) (ha : a ∈ r.1.index) :
    a.isSelectable = true ↔ a.note.Due now := by
  constructor
  · intro hsel
    refine ⟨?_, h.past a ha hsel⟩
    rcases (Announcement.isSelectable_iff a).mp hsel with hs | hs <;>
      simp [Announcement.note, hs, State.phase]
  · intro hdue
    have hphase : a.state.phase = .candidate := hdue.1
    cases hstate : a.state with
    | candidateDelayed =>
      exact absurd hdue.2 (not_le.mpr (h.future a ha (by simp [hstate])))
    | candidateReady => simp [hstate]
    | candidateBest => simp [hstate]
    | requested => simp [hstate, State.phase] at hphase
    | completed => simp [hstate, State.phase] at hphase

theorem AtTime.best_iff (h : AtTime computer now s r) (hl : s.notes = l.notes)
    (ha : a ∈ r.1.index) :
    a.state = .candidateBest ↔
      a.note.Due now ∧ l.Foremost computer now a.note ∧ l.Free now a.note.hash := by
  have hmem : ∀ n : Note, n.phase ≠ .completed →
      ((∃ b ∈ r.1.index, b.note = n) ↔ n ∈ l.notes ∧ ¬ n.Expired now) := by
    intro n hn
    rw [← mem_notes, h.notes, hl, mem_expire hn]
  constructor
  · intro hbest
    have hfore := h.consistent.foremost_of_best ha hbest
    refine ⟨(h.selectable_iff ha).mp (by simp [hbest]), fun m hm hhash hdue => ?_, fun m hm hhash hreq => ?_⟩
    · obtain ⟨b, hb, rfl⟩ := (hmem m (by simp [hdue.1])).mpr
        ⟨hm, fun hexp => by simpa [hdue.1] using hexp.1⟩
      exact hfore.2 b hb hhash ((h.selectable_iff hb).mpr hdue)
    · by_contra htime
      obtain ⟨b, hb, rfl⟩ := (hmem m (by simp [hreq])).mpr ⟨hm, fun hexp => htime hexp.2⟩
      exact hfore.1 b hb hhash (State.phase_eq_requested.mp hreq)
  · intro ⟨hdue, hfore, hfree⟩
    have hsel := (h.selectable_iff ha).mpr hdue
    refine (h.consistent.best_iff ha ((Announcement.isSelectable_iff a).mp hsel)).mpr ⟨?_, ?_⟩
    · intro b hb hhash hreq
      have hphase : b.note.phase = .requested := State.phase_eq_requested.mpr hreq
      obtain ⟨hn, -⟩ := (hmem b.note (by simp [hphase])).mp ⟨b, hb, rfl⟩
      exact absurd (hfree b.note hn hhash hphase) (not_le.mpr (h.future b hb (by simp [hreq])))
    · intro b hb hhash hbs
      have hbdue := (h.selectable_iff hb).mp hbs
      obtain ⟨hn, -⟩ := (hmem b.note (by simp [hbdue.1])).mp ⟨b, hb, rfl⟩
      exact hfore b.note hn hhash hbdue

theorem Follows.getRequestable (h : Follows computer s l) (peer : NodeId) (now : ℤ) :
    (s.getRequestable computer peer now).2.1 = l.requestable computer peer now ∧
      (s.getRequestable computer peer now).2.2.Perm (l.expired now) := by
  have hr := atTime_setTimePoint h.consistent now
  constructor
  · have hbest : ∀ a ∈ (s.setTimePoint computer now).1.index,
        decide (a.peer = peer ∧ a.state = .candidateBest) =
          decide (a.note.peer = peer ∧ a.note.Due now ∧ l.Foremost computer now a.note ∧
            l.Free now a.note.hash) := by
      intro a ha
      rw [decide_eq_decide, hr.best_iff h.notes ha]
      exact Iff.rfl
    have hcand : ∀ n : Note, decide (n.peer = peer ∧ n.Due now ∧ l.Foremost computer now n ∧
        l.Free now n.hash) = true → n.phase = .candidate :=
      fun n hn => (of_decide_eq_true hn).2.1.1
    show ((s.setTimePoint computer now).1.selected peer).map Announcement.gtxid = _
    rw [selected_eq hr.consistent (h.kept hr.toKept).order, List.filter_congr hbest,
      Ledger.requestable, ← filter_expire hcand, ← h.notes, ← hr.notes, Tracker.notes,
      List.filter_map, List.map_map]
    rfl
  · rw [Ledger.expired, ← h.notes]
    exact hr.expired

/-! ## Every run -/

def Call.Announces (peer : NodeId) (gtxid : GenTxid) (preferred : Bool) (c : Call) : Prop :=
  ∃ reqtime, c = .receivedInv peer gtxid preferred reqtime

/-- Different peers that announce a hash have different priorities for it. -/
def DistinctPriorities (computer : PriorityComputer) (calls : List Call) : Prop :=
  ∀ p g b, (∃ c ∈ calls, c.Announces p g b) → ∀ p' g' b', (∃ c ∈ calls, c.Announces p' g' b') →
    g.toUint256 = g'.toUint256 → computer g.toUint256 p b = computer g'.toUint256 p' b' → p = p'

def Note.source (n : Note) : NodeId × GenTxid × Bool := (n.peer, n.gtxid, n.preferred)

theorem source_map {f : Note → Note} (hf : ∀ n, (f n).source = n.source) (hn : n ∈ notes.map f) :
    ∃ m ∈ notes, m.source = n.source := by
  obtain ⟨m, hm, rfl⟩ := List.mem_map.mp hn
  exact ⟨m, hm, (hf m).symm⟩

theorem source_call {c : Call} (hn : n ∈ (l.call c).notes) :
    (∃ m ∈ l.notes, m.source = n.source) ∨ c.Announces n.peer n.gtxid n.preferred := by
  cases c with
  | receivedInv peer gtxid preferred reqtime =>
    rw [Ledger.call, Ledger.announce] at hn
    split at hn
    · exact .inl ⟨n, hn, rfl⟩
    · rcases List.mem_append.mp hn with hn | hn
      · exact .inl ⟨n, hn, rfl⟩
      · rw [List.mem_singleton.mp hn]
        exact .inr ⟨reqtime, rfl⟩
  | requestedTx peer txhash expiry =>
    rw [Ledger.call, request] at hn
    split at hn
    · refine .inl (source_map (fun n => ?_) hn)
      split
      · rfl
      · split <;> rfl
    · exact .inl ⟨n, hn, rfl⟩
  | receivedResponse peer txhash =>
    refine .inl (source_map (fun n => ?_) (mem_purge.mp hn).1)
    split <;> rfl
  | forgetTxHash txhash => exact .inl ⟨n, List.mem_of_mem_filter hn, rfl⟩
  | disconnectedPeer peer => exact .inl ⟨n, List.mem_of_mem_filter (mem_purge.mp hn).1, rfl⟩
  | getRequestable peer now =>
    refine .inl (source_map (fun n => ?_) (mem_purge.mp hn).1)
    split <;> rfl

theorem Ledger.run_concat (calls : List Call) (c : Call) :
    Ledger.run (calls ++ [c]) = (Ledger.run calls).call c := by
  simp [Ledger.run]

theorem Tracker.run_concat (calls : List Call) (c : Call) :
    Tracker.run computer (calls ++ [c]) = (Tracker.run computer calls).call computer c := by
  simp [Tracker.run]

theorem announced_of_mem_run (calls : List Call) : ∀ n ∈ (Ledger.run calls).notes,
    ∃ c ∈ calls, c.Announces n.peer n.gtxid n.preferred := by
  induction calls using List.reverseRecOn with
  | nil => exact nofun
  | append_singleton calls c ih =>
    intro n hn
    rw [Ledger.run_concat] at hn
    rcases source_call hn with ⟨m, hm, hsource⟩ | hnew
    · obtain ⟨c', hc', hann⟩ := ih m hm
      simp only [Note.source, Prod.mk.injEq] at hsource
      rw [hsource.1, hsource.2.1, hsource.2.2] at hann
      exact ⟨c', List.mem_append_left _ hc', hann⟩
    · exact ⟨c, List.mem_append_right _ List.mem_cons_self, hnew⟩

theorem announced_le_call (l : Ledger) (c : Call) : l.announced ≤ (l.call c).announced := by
  cases c with
  | receivedInv peer gtxid preferred reqtime =>
    rw [Ledger.call, Ledger.announce]
    split
    · exact le_rfl
    · exact Nat.le_succ _
  | requestedTx | receivedResponse | forgetTxHash | disconnectedPeer | getRequestable => exact le_rfl

theorem follows_call {c : Call} (h : Follows computer s l)
    (hapart : ∀ p g b, c.Announces p g b → ∀ a ∈ s.index, a.hash = g.toUint256 →
      computer.of a = computer g.toUint256 p b → a.peer = p) (hfew : (l.call c).announced ≤ 2 ^ 59) :
    Follows computer (s.call computer c) (l.call c) := by
  have hI := h.consistent
  cases c with
  | receivedInv peer gtxid preferred reqtime =>
    exact h.receivedInv (hapart peer gtxid preferred ⟨reqtime, rfl⟩) hfew
  | requestedTx peer txhash expiry => exact h.kept (h.notes ▸ kept_requestedTx hI)
  | receivedResponse peer txhash => exact h.kept (h.notes ▸ kept_receivedResponse hI)
  | forgetTxHash txhash => exact h.kept (h.notes ▸ kept_forgetTxHash hI)
  | disconnectedPeer peer => exact h.kept (h.notes ▸ kept_disconnectedPeer hI)
  | getRequestable peer now => exact h.kept (h.notes ▸ (atTime_setTimePoint hI now).toKept)

theorem follows_run (calls : List Call) (hdistinct : DistinctPriorities computer calls)
    (hfew : (Ledger.run calls).announced ≤ 2 ^ 59) :
    Follows computer (Tracker.run computer calls) (Ledger.run calls) := by
  induction calls using List.reverseRecOn with
  | nil =>
    refine ⟨⟨List.nodup_nil, ?_, fun _ => ⟨?_, ?_, ?_⟩⟩, rfl, List.Pairwise.nil, ?_, rfl⟩ <;>
      exact nofun
  | append_singleton calls c ih =>
    rw [Ledger.run_concat] at hfew
    have hweak : ∀ p g b, (∃ c ∈ calls, c.Announces p g b) → ∃ c' ∈ calls ++ [c], c'.Announces p g b := by
      rintro p g b ⟨c', hc', hann⟩
      exact ⟨c', List.mem_append_left _ hc', hann⟩
    have hprev := ih (fun p g b h p' g' b' h' => hdistinct p g b (hweak p g b h) p' g' b'
      (hweak p' g' b' h')) ((announced_le_call _ c).trans hfew)
    rw [Tracker.run_concat, Ledger.run_concat]
    refine follows_call hprev (fun p g b hann a ha hhash hprio => ?_) hfew
    have hnote : a.note ∈ (Ledger.run calls).notes := hprev.notes ▸ mem_notes.mpr ⟨a, ha, rfl⟩
    have hold := hweak _ _ _ (announced_of_mem_run calls a.note hnote)
    refine hdistinct _ _ _ hold p g b ⟨c, List.mem_append_right _ List.mem_cons_self, hann⟩ hhash ?_
    rw [← hprio]
    rfl

/-- After every sequence of calls the tracker answers as the ledger does, as long as the sequence
numbers of its announcements do not wrap. -/
theorem getRequestable_run (computer : PriorityComputer) (calls : List Call)
    (hdistinct : DistinctPriorities computer calls) (hfew : (Ledger.run calls).announced ≤ 2 ^ 59)
    (peer : NodeId) (now : ℤ) :
    ((Tracker.run computer calls).getRequestable computer peer now).2.1 =
        (Ledger.run calls).requestable computer peer now ∧
      ((Tracker.run computer calls).getRequestable computer peer now).2.2.Perm
        ((Ledger.run calls).expired now) :=
  (follows_run calls hdistinct hfew).getRequestable peer now

/-- The higher number has the higher priority, a preferred peer before all others. -/
def numberPriority : PriorityComputer :=
  fun _ peer preferred => peer.toNat + if preferred then 100 else 0

/-- Two peers announce a transaction; the second is asked, and does not answer in time. -/
def unansweredCalls : List Call :=
  [.receivedInv 1 (.txid 7) false 5, .receivedInv 2 (.wtxid 7) false 9,
    .receivedInv 1 (.txid 8) false 3, .getRequestable 2 10, .requestedTx 2 7 20,
    .getRequestable 1 15]

theorem unansweredCalls_distinct : DistinctPriorities numberPriority unansweredCalls := by
  have hpeer : ∀ p g b, (∃ c ∈ unansweredCalls, c.Announces p g b) → (p = 1 ∨ p = 2) ∧ b = false := by
    rintro p g b ⟨c, hc, reqtime, rfl⟩
    simp only [unansweredCalls, List.mem_cons, Call.receivedInv.injEq, reduceCtorEq,
      List.not_mem_nil, or_false] at hc
    tauto
  intro p g b h p' g' b' h' hhash hprio
  obtain ⟨hp, rfl⟩ := hpeer p g b h
  obtain ⟨hp', rfl⟩ := hpeer p' g' b' h'
  rcases hp with rfl | rfl <;> rcases hp' with rfl | rfl <;> simp_all [numberPriority]

theorem getRequestable_run_unanswered :
    ((Tracker.run numberPriority unansweredCalls).getRequestable numberPriority 1 30).2.1 =
        [.txid 7, .txid 8] ∧
      ((Tracker.run numberPriority unansweredCalls).getRequestable numberPriority 1 30).2.2.Perm
        [(2, .wtxid 7)] :=
  getRequestable_run numberPriority unansweredCalls unansweredCalls_distinct (by decide) 1 30

/-! ## Sequence numbers that wrap

A sequence number has 59 bits, so the announcement number `2 ^ 59` (from 0) sorts before those
that it follows. -/

def evenPriority : PriorityComputer := fun _ _ _ => 0

def idle : List Call := [.receivedInv 0 (.txid 0) false 0, .forgetTxHash 0]

/-- Sequence numbers are used up, then two transactions are announced. -/
def wrapCalls (used : ℕ) : List Call :=
  ((List.replicate used idle).flatten ++ [.receivedInv 0 (.txid 1) false 0]) ++
    [.receivedInv 0 (.txid 2) false 0]

theorem idle_run (n : ℕ) (hn : n < 2 ^ 64) :
    (Tracker.run evenPriority (List.replicate n idle).flatten).index = [] ∧
      (Tracker.run evenPriority (List.replicate n idle).flatten).currentSequence = n ∧
      (Ledger.run (List.replicate n idle).flatten).notes = [] := by
  induction n with
  | zero => exact ⟨rfl, rfl, rfl⟩
  | succ n ih =>
    obtain ⟨hindex, hseq, hnotes⟩ := ih (by omega)
    have hcalls : (List.replicate (n + 1) idle).flatten = ((List.replicate n idle).flatten ++
        [.receivedInv 0 (.txid 0) false 0]) ++ [.forgetTxHash 0] := by
      rw [List.replicate_succ', List.flatten_append, List.append_assoc]
      rfl
    rw [hcalls, Tracker.run_concat, Tracker.run_concat, Ledger.run_concat, Ledger.run_concat]
    obtain ⟨hone, hnext⟩ := receivedInv_new
      (Tracker.run evenPriority (List.replicate n idle).flatten) 0 (.txid 0) false 0 (by simp [hindex])
    refine ⟨?_, ?_, ?_⟩
    · exact forgetTxHash_index.trans (by rw [Tracker.call, hone, hindex]; rfl)
    · refine (move_eraseWhile _ : Move evenPriority 0 _ _).sequence.trans ?_
      rw [Tracker.call, hnext, hseq]
      exact Nat.mod_eq_of_lt hn
    · simp [Ledger.call, Ledger.announce, hnotes, Note.hash, GenTxid.toUint256]

theorem wrapped_answer (hindex : s.index = []) (hseq : s.currentSequence = 2 ^ 59 - 1) :
    (((s.receivedInv 0 (.txid 1) false 0).receivedInv 0 (.txid 2) false 0).getRequestable
      evenPriority 0 0).2.1 = [.txid 2, .txid 1] := by
  obtain ⟨hone, hnext⟩ := receivedInv_new s 0 (.txid 1) false 0 (by simp [hindex])
  obtain ⟨htwo, -⟩ := receivedInv_new (s.receivedInv 0 (.txid 1) false 0) 0 (.txid 2) false 0
    (by simp [hone, hindex, Announcement.hash, GenTxid.toUint256])
  rw [hone, hindex, hnext, hseq] at htwo
  generalize (s.receivedInv 0 (.txid 1) false 0).receivedInv 0 (.txid 2) false 0 = t at htwo
  obtain ⟨sequence, index, info⟩ := t
  subst htwo
  rfl

theorem wrapCalls_distinct (used : ℕ) : DistinctPriorities evenPriority (wrapCalls used) := by
  have hpeer : ∀ p g b, (∃ c ∈ wrapCalls used, c.Announces p g b) → p = 0 := by
    rintro p g b ⟨c, hc, reqtime, rfl⟩
    rw [wrapCalls, List.append_assoc] at hc
    rcases List.mem_append.mp hc with hc | hc
    · obtain ⟨l, hl, hc⟩ := List.mem_flatten.mp hc
      rw [List.eq_of_mem_replicate hl] at hc
      simp only [idle, List.mem_cons, Call.receivedInv.injEq, reduceCtorEq, List.not_mem_nil,
        or_false] at hc
      exact hc.1
    · simp only [List.cons_append, List.nil_append, List.mem_cons, Call.receivedInv.injEq,
        List.not_mem_nil, or_false] at hc
      tauto
  exact fun p g b h p' g' b' h' _ _ => (hpeer p g b h).trans (hpeer p' g' b' h').symm

theorem wrapCalls_answers (used : ℕ) (hused : used = 2 ^ 59 - 1) :
    ((Tracker.run evenPriority (wrapCalls used)).getRequestable evenPriority 0 0).2.1 =
        [.txid 2, .txid 1] ∧
      (Ledger.run (wrapCalls used)).requestable evenPriority 0 0 = [.txid 1, .txid 2] := by
  obtain ⟨hindex, hseq, hnotes⟩ := idle_run used (by omega)
  rw [wrapCalls, Tracker.run_concat, Tracker.run_concat, Ledger.run_concat, Ledger.run_concat]
  constructor
  · exact wrapped_answer hindex (hseq.trans hused)
  · generalize Ledger.run (List.replicate used idle).flatten = l at hnotes
    obtain ⟨announced, notes⟩ := l
    subst hnotes
    rfl

/-- The two come in the wrong order once all but one of the sequence numbers are used up. -/
theorem getRequestable_wraps :
    DistinctPriorities evenPriority (wrapCalls (2 ^ 59 - 1)) ∧
      ((Tracker.run evenPriority (wrapCalls (2 ^ 59 - 1))).getRequestable evenPriority 0 0).2.1 =
        [.txid 2, .txid 1] ∧
      (Ledger.run (wrapCalls (2 ^ 59 - 1))).requestable evenPriority 0 0 = [.txid 1, .txid 2] :=
  ⟨wrapCalls_distinct (2 ^ 59 - 1), wrapCalls_answers (2 ^ 59 - 1) rfl⟩

/-! ## What holds after every run -/

/-- What `SanityCheck` asserts of the announcements of a hash. -/
structure SanityCheck (computer : PriorityComputer) (anns : List Announcement) : Prop where
  peers : (anns.map Announcement.peer).Nodup
  not_only_completed : anns ≠ [] → ∃ a ∈ anns, a.state ≠ .completed
  one_selected : ∀ a ∈ anns, ∀ b ∈ anns, a.isSelected → b.isSelected → a = b
  ready : ∀ a ∈ anns, a.state = .candidateReady → ∃ b ∈ anns, b.isSelected
  best : ∀ a ∈ anns, ∀ b ∈ anns, a.state = .candidateReady → b.state = .candidateBest →
    computer.of a ≤ computer.of b

def Tracker.of (s : Tracker) (txhash : TxHash) : List Announcement :=
  s.index.filter (fun a => a.hash = txhash)

theorem Tracker.mem_of : a ∈ s.of txhash ↔ a ∈ s.index ∧ a.hash = txhash := by
  simp [Tracker.of]

theorem Consistent.sanityCheck (hI : Consistent computer s.index) (txhash : TxHash) :
    SanityCheck computer (s.of txhash) := by
  constructor
  · have hnodup : (s.of txhash).Nodup := hI.nodup.filter _
    refine hnodup.map_on (fun a ha b hb hpeer => ?_)
    rw [Tracker.mem_of] at ha hb
    exact hI.eq_of_slot ha.1 hb.1 hpeer (ha.2.trans hb.2.symm)
  all_goals simp only [Tracker.mem_of, and_imp]
  · intro hne
    obtain ⟨a, ha⟩ := List.exists_mem_of_ne_nil _ hne
    rw [Tracker.mem_of] at ha
    simpa only [and_assoc] using (hI.block txhash).alive a ha.1 ha.2
  · intro a ha hah b hb hbh hsa hsb
    exact hI.eq_of_selected ha hb (hah.trans hbh.symm) (by simpa using hsa) (by simpa using hsb)
  · rintro a ha rfl hready
    obtain ⟨b, hb, hbh, hbs⟩ := hI.exists_selected ha hready
    exact ⟨b, ⟨hb, hbh⟩, by rcases hbs with hbs | ⟨hbs, -⟩ <;> simp [hbs]⟩
  · intro a ha hah b hb hbh hready hbest
    exact (hI.lt_of_best hb hbest ha (hah.trans hbh.symm) hready).le

section
variable (computer : PriorityComputer) (calls : List Call)
  (hdistinct : DistinctPriorities computer calls) (hfew : (Ledger.run calls).announced ≤ 2 ^ 59)
include hdistinct hfew

/-- No assertion of `SanityCheck` about a hash fails after any calls, and none of
`PostGetRequestableSanityCheck` after a further `GetRequestable`. -/
theorem sanityCheck_run :
    (∀ txhash, SanityCheck computer ((Tracker.run computer calls).of txhash)) ∧
      ∀ peer now, ∀ a ∈ ((Tracker.run computer calls).getRequestable computer peer now).1.index,
        (a.isWaiting → now < a.time) ∧ (a.isSelectable → a.time ≤ now) := by
  have hI := (follows_run calls hdistinct hfew).consistent
  refine ⟨hI.sanityCheck, fun peer now a ha => ?_⟩
  have hr := atTime_setTimePoint hI now
  exact ⟨hr.future a ha, hr.past a ha⟩

/-- At any time a transaction is to be requested from one peer at most, and from one exactly when
no request is outstanding and the time of some announcement has come. -/
theorem requestable_from_one_peer (now : ℤ) (txhash : TxHash) :
    (∀ p q, ∀ g ∈ ((Tracker.run computer calls).getRequestable computer p now).2.1,
      ∀ k ∈ ((Tracker.run computer calls).getRequestable computer q now).2.1,
        g.toUint256 = k.toUint256 → p = q) ∧
    ((∃ p, ∃ g ∈ ((Tracker.run computer calls).getRequestable computer p now).2.1,
        g.toUint256 = txhash) ↔
      (Ledger.run calls).Free now txhash ∧
        ∃ n ∈ (Ledger.run calls).notes, n.hash = txhash ∧ n.Due now) := by
  have hanswer p := ((follows_run calls hdistinct hfew).getRequestable p now).1
  simp only [hanswer, Ledger.requestable, List.mem_map, List.mem_filter, decide_eq_true_eq]
  refine ⟨?_, ?_, ?_⟩
  · rintro p q _ ⟨m, ⟨hm, rfl, hdue, hfore, -⟩, rfl⟩ _ ⟨k, ⟨hk, rfl, hdue', hfore', -⟩, rfl⟩ hhash
    exact hdistinct _ _ _ (announced_of_mem_run calls m hm) _ _ _ (announced_of_mem_run calls k hk)
      hhash (le_antisymm (hfore' m hm hhash hdue) (hfore k hk hhash.symm hdue'))
  · rintro ⟨_, _, ⟨m, ⟨hm, -, hdue, -, hfree⟩, rfl⟩, rfl⟩
    exact ⟨hfree, m, hm, rfl, hdue⟩
  · rintro ⟨hfree, n, hn, hnh, hdue⟩
    -- Of those that are due, the one of the highest priority is asked for.
    obtain ⟨m, hm, hmax⟩ := Finset.exists_max_image
      ((Ledger.run calls).notes.toFinset.filter (fun m => m.hash = txhash ∧ m.Due now))
      (Note.priority computer) ⟨n, by simp [hn, hnh, hdue]⟩
    simp only [Finset.mem_filter, List.mem_toFinset, and_imp] at hm hmax
    obtain ⟨hm, rfl, hmdue⟩ := hm
    exact ⟨m.peer, m.gtxid, ⟨m, ⟨hm, rfl, hmdue, hmax, hfree⟩, rfl⟩, rfl⟩

end

theorem sanityCheck_run_unanswered :
    SanityCheck numberPriority ((Tracker.run numberPriority unansweredCalls).of 7) ∧
      ∀ a ∈ ((Tracker.run numberPriority unansweredCalls).getRequestable numberPriority 1 30).1.index,
        (a.isWaiting → 30 < a.time) ∧ (a.isSelectable → a.time ≤ 30) :=
  (sanityCheck_run numberPriority unansweredCalls unansweredCalls_distinct (by decide)).imp
    (· 7) (· 1 30)

/-- While the second peer's answer is awaited neither is asked for transaction 7; afterwards the
first is. -/
theorem requestable_from_first :
    (¬ ∃ p, ∃ g ∈ ((Tracker.run numberPriority unansweredCalls).getRequestable numberPriority p 15).2.1,
        g.toUint256 = 7) ∧
      ∃ p, ∃ g ∈ ((Tracker.run numberPriority unansweredCalls).getRequestable numberPriority p 30).2.1,
        g.toUint256 = 7 := by
  have hone now := (requestable_from_one_peer numberPriority unansweredCalls
    unansweredCalls_distinct (by decide) now 7).2
  exact ⟨fun h => absurd ((hone 15).1 h).1 (by decide), (hone 30).2 (by decide)⟩

end Tarcoin.Net.TxRequest
