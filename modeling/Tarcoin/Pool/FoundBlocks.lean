import Tarcoin.Pool.BlockText
import Tarcoin.Pool.Replies
import Tarcoin.Pool.Turns

/-! A share that meets the network target is submitted as a block after the waits of the
bookkeeping, with the transactions of whatever template is in place by then. -/
namespace Tarcoin.Pool
open Async (Grows own)

section Runs
variable (rt : Runtime)

theorem keeps_supplied (input : Input) (w : World) (l : List Output) :
    Async.Keeps (fun _ _ => True) (Supplied rt) (Async.Restores (fun _ _ => True) (Supplied rt))
      (start rt input) w w l := by
  have hkeeps : ∀ {os t w'}, Async.Leads (start rt input) w os t w' →
      Async.Only (Supplied rt) (fun _ => True) t w' → Supplied rt w w' → Async.Keeps (fun _ _ => True)
      (Supplied rt) (Async.Restores (fun _ _ => True) (Supplied rt)) (start rt input) w w l :=
    fun hleads honly hG => hleads.keeps honly (fun _ _ _ _ h => ⟨trivial, h⟩) (fun _ _ _ _ _ => trivial)
      trivial hG
  by_cases hrefresh : ∃ rounds, input = .refresh rounds
  · obtain ⟨rounds, rfl⟩ := hrefresh
    apply hkeeps (.refl _ _) _ (refl_of (Supplied rt) w)
    apply only_refreshBlockTemplate rt w fun _ _ => trivial
    exact fun _ t ht => .inr ⟨t, ht, rfl⟩
  · push Not at hrefresh
    obtain ⟨os, t, w', hleads, hturn⟩ := start_turn rt w hrefresh
    exact hkeeps hleads (hturn.rest fun _ _ => trivial) (.inl hturn.blockTemplate)

theorem run_supplied (w : World) (moves : List PoolMove) :
    Supplied rt w (runPool rt w moves).world := by
  have hlegal : Async.LegalMoves (start rt) (fun _ _ _ => True) (.initial w) moves :=
    Async.legalMoves_of_mem (fun _ _ _ _ => trivial) _
  exact Async.run_rel (fun e w l _ _ => keeps_supplied rt e w l) (Async.kept_initial trivial) hlegal

theorem run_built {redis : Bool} {entropy : ℕ → List UInt8} {feeWallet : Text}
    {moves : List PoolMove} {t : BlockTemplate}
    (h : (runPool rt (.initial redis entropy feeWallet) moves).world.blockTemplate = some t) :
    Built rt t := by
  rcases run_supplied rt (.initial redis entropy feeWallet) moves with hsame | ⟨t', ht', hnew⟩
  · rw [hsame] at h
    cases h
  · rw [hnew] at h
    exact Option.some.inj h ▸ ht'

end Runs

variable {a : Attempt} {header : List UInt8} {l : List Observed} {share : Share} {rt : Runtime}
  {w : World}

theorem credited_iff_of_quiet (h : Grows Quiet (opening a header) l) :
    .emitted (.credited share) ∈ l ↔ share = a.share header := by
  obtain ⟨added, rfl, hadded⟩ := h
  constructor
  · intro hshare
    rcases List.mem_append.mp hshare with hmem | hmem
    · simpa [opening] using hmem
    · exact (hadded _ hmem).elim
  · rintro rfl
    exact List.mem_append_left _ List.mem_cons_self

theorem credited_iff_of_verify {redis : Bool} {x : Except JsError Unit}
    (h : VerifyEnd rt a redis w l x) :
    .emitted (.credited share) ∈ l ↔
      ∃ header, a.header rt = .ok header ∧ share = a.share header := by
  obtain ⟨-, h⟩ := h
  cases hheader : a.header rt with
  | error e =>
    simp only [hheader] at h
    simp [h]
  | ok header =>
    simp only [hheader] at h
    simp only [Except.ok.injEq, exists_eq_left']
    rcases h.1 with hgrow | ⟨l₁, e, rfl, hgrow, he⟩
    · exact credited_iff_of_quiet hgrow
    · rw [← credited_iff_of_quiet (hgrow.mono fun _ => Server.Early.quiet)]
      have hne : .emitted (.credited share) ≠ e := by
        rintro rfl
        exact he
      simp [hne]

def Share.coinbaseHex (share : Share) : Text :=
  share.work.coinbase1 ++ share.extraNonce1 ++ share.extraNonce2 ++ share.work.coinbase2

/-- The block is that of the template its header was built on: the transactions after the coinbase
are the template's, and the root in the header is the root of the coinbase and of them. -/
def Atomic (rt : Runtime) (share : Share) (hex : Text) : Prop :=
  blockText share.header share.coinbaseHex share.template.txData = .ok hex ∧
    ∀ txids : List (Bytes 32), share.template.rawTemplate.ids = txids.map getHex →
      (share.header.drop 36).take 32 = (computeMerkleRoot rt.sha256
        (rt.sha256d (Hex.decode share.coinbaseHex) :: txids)).1.val

/-- The last move of a run made thread `j` call `c`. -/
def JustCalled (rt : Runtime) (w : World) (moves : List PoolMove) (m : PoolMove) (j : ℕ)
    (t : PoolThread) (c : Call) : Prop :=
  m.thread (runPool rt w moves) = j ∧ (runPool rt w (moves ++ [m])).threads[j]? = some t ∧
    ∃ k, t.rest = .waiting c k

section Atomicity
variable {rt : Runtime} {w : World} {moves : List PoolMove} {m : PoolMove} {j : ℕ} {t : PoolThread}

theorem runPool_concat (rt : Runtime) (w : World) (moves : List PoolMove) (m : PoolMove) :
    runPool rt w (moves ++ [m]) = Async.step (start rt) (runPool rt w moves) m :=
  Async.run_concat _ _ _

theorem runPool_numbered (rt : Runtime) (w : World) (moves : List PoolMove) :
    Async.Numbered (runPool rt w moves) := Async.run_numbered w moves

theorem pause_of_justCalled {c : Call} (h : JustCalled rt w moves m j t c) :
    SubmitPause rt t.input t.origin (runPool rt w (moves ++ [m])).world
      (own j (runPool rt w (moves ++ [m])).log) c := by
  obtain ⟨rfl, ht, k, hk⟩ := h
  rw [runPool_concat] at ht ⊢
  exact Async.called_now (start_spec rt) w moves m ht hk

variable {socket : ℕ} {s : Socket} {request : Request}

theorem credited_iff_attempt (ht : (runPool rt w moves).threads[j]? = some t)
    (hinput : t.input = .message socket .submit request)
    (hsocket : t.origin.sockets[socket]? = some s) :
    .emitted (.credited share) ∈ own j (runPool rt w moves).log ↔
      ∃ a header, (screened rt socket s request t.origin).2 = .attempt a ∧
        a.header rt = .ok header ∧ share = a.share header := by
  obtain ⟨w', ⟨c, k, -, hpause⟩ | ⟨x, -, hend⟩⟩ := run_observed ht
  · obtain ⟨a, ha, header, hheader, hgrow, -⟩ := hpause socket request s hinput hsocket
    rw [credited_iff_of_quiet hgrow, ha]
    constructor
    · exact fun hshare => ⟨a, header, rfl, hheader, hshare⟩
    · rintro ⟨_, header', ⟨⟩, hheader', hshare⟩
      obtain rfl : header = header' := Except.ok.inj (hheader.symm.trans hheader')
      exact hshare
  · have hend := hend socket request s hinput hsocket
    cases hv : (screened rt socket s request t.origin).2 with
    | unreadable =>
      rw [hv] at hend
      simp [hend]
    | refused body =>
      rw [hv] at hend
      simp [hend]
    | attempt a =>
      rw [hv] at hend
      rw [credited_iff_of_verify hend]
      simp

theorem template_of_origin (ha : (screened rt socket s request t.origin).2 = .attempt a) :
    t.origin.blockTemplate = some a.template := by
  obtain ⟨-, -, -, htemplate, -⟩ := screened_attempt ha
  rwa [(screened_kept rt socket s request t.origin).1] at htemplate

theorem root_of_share {redis : Bool} {entropy : ℕ → List UInt8} {feeWallet : Text}
    (ht : (runPool rt (.initial redis entropy feeWallet) moves).threads[j]? = some t)
    (ha : (screened rt socket s request t.origin).2 = .attempt a)
    (hheader : a.header rt = .ok header) {txids : List (Bytes 32)}
    (hids : a.template.rawTemplate.ids = txids.map getHex) :
    (header.drop 36).take 32 = (computeMerkleRoot rt.sha256
      (rt.sha256d (Hex.decode a.coinbaseHex) :: txids)).1.val := by
  obtain ⟨earlier, -, horigin⟩ := Async.exists_origin _ _ (List.mem_of_getElem? ht)
  have htemplate := template_of_origin ha
  rw [← horigin] at htemplate
  have hbuilt := run_built rt htemplate
  obtain ⟨-, -, -, -, c1, c2, hwork⟩ := screened_attempt ha
  rw [rebuildHeader_root rt hheader, merkleRootOf_built rt hbuilt hids (by rw [hwork]; rfl)]
  rfl

end Atomicity

/-- At the moment a submit calls `submitblock`, the block is that of the share's own template if
and only if the template in place has the same transactions. -/
theorem submitBlock_atomic_iff (rt : Runtime) (redis : Bool) (entropy : ℕ → List UInt8)
    (feeWallet : Text) (moves : List PoolMove) (m : PoolMove) (j : ℕ)
    (t : PoolThread) (socket : ℕ) (request : Request) (s : Socket) (hex : Text) (share : Share)
    (hcall : JustCalled rt (.initial redis entropy feeWallet) moves m j t (.submitBlock hex))
    (hinput : t.input = .message socket .submit request)
    (hsocket : t.origin.sockets[socket]? = some s)
    (hshare : .emitted (.credited share) ∈
      own j (runPool rt (.initial redis entropy feeWallet) (moves ++ [m])).log) :
    Atomic rt share hex ↔ ∃ current,
      (runPool rt (.initial redis entropy feeWallet) (moves ++ [m])).world.blockTemplate =
        some current ∧ SameBody current.txData share.template.txData := by
  obtain ⟨a, ha, header, hheader, hgrow, hassembled⟩ :=
    pause_of_justCalled hcall socket request s hinput hsocket
  obtain ⟨-, ⟨current, hcurrent, hhex⟩, -⟩ := hassembled.1 hex rfl
  obtain rfl := (credited_iff_of_quiet hgrow).mp hshare
  constructor
  · rintro ⟨hown, -⟩
    exact ⟨current, hcurrent, sameBody_of_blockText hhex hown⟩
  · rintro ⟨current', hcurrent', hsame⟩
    obtain rfl : current = current' := Option.some.inj (hcurrent.symm.trans hcurrent')
    constructor
    · exact (blockText_congr hsame header a.coinbaseHex).symm.trans hhex
    · intro txids hids
      exact root_of_share hcall.2.1 ha hheader hids

def credits (l : List Observed) : List Share :=
  l.filterMap fun e => match e with
    | .emitted (.credited share) => some share
    | _ => none

def submissions (l : List Observed) : List Text :=
  l.filterMap fun e => match e with
    | .called (.submitBlock hex) => some hex
    | _ => none

/-- A connection and a template with the given transactions. -/
def templateMoves (transactions : List TemplateTx) : List PoolMove :=
  [.fire (.connect .pool), .fire (.refresh 0), .resume 1 (.template (some (.first transactions)))]

def foundMoves (transactions : List TemplateTx) : List PoolMove :=
  templateMoves transactions ++ [.fire (.message 0 .submit firstSubmit)]

def oneTx : TemplateTx := ⟨none, zeroHash, "00".toList⟩

/-- Without Redis the block is submitted in the first turn of the submit. -/
theorem submitBlock_atomic_alone : ∃ share hex,
    credits (own 2 (runPool .constant (.fresh false) (foundMoves [oneTx])).log) = [share] ∧
    submissions (own 2 (runPool .constant (.fresh false) (foundMoves [oneTx])).log) = [hex] ∧
    share.template.txData.length = 1 ∧ Atomic .constant share hex := by
  refine ⟨_, _, rfl, rfl, rfl, ?_⟩
  apply (submitBlock_atomic_iff .constant false (fun _ => []) [] (templateMoves [oneTx])
    (.fire (.message 0 .submit firstSubmit)) 2 _ 0 firstSubmit _ _ _ ⟨rfl, rfl, _, rfl⟩ rfl rfl
    (List.Mem.head _)).mpr
  exact ⟨_, rfl, rfl, rfl⟩

def swapped : List Observed :=
  own 2 (runPool .constant (.fresh true)
    (foundMoves [oneTx] ++ [.fire (.refresh 0),
      .resume 3 (.template (some (.first [])))] ++ List.replicate 8 (.resume 2 .done))).log

/-- One share is counted and one block is submitted, and it is not the block of the share. -/
theorem submitBlock_not_atomic :
    (credits swapped).length = 1 ∧ (submissions swapped).length = 1 ∧
      (credits swapped).map (fun share =>
        (blockText share.header share.coinbaseHex share.template.txData).toOption) ≠
        (submissions swapped).map some := by
  decide +kernel

/-- The share is counted and its books are kept: Redis, if there is one, has answered every command
and rejected none. -/
def BooksKept (redis : Bool) (share : Share) (l : List Observed) : Prop :=
  .emitted (.credited share) ∈ l ∧
    (redis = true → ∃ wallet, Obeyed (bookCommands share.worker wallet) l)

section Kept
variable {redis : Bool} {l' : List Observed}

theorem BooksKept.mono (h : BooksKept redis share l) (hpre : l <+: l') : BooksKept redis share l' := by
  refine ⟨hpre.subset h.1, fun hredis => ?_⟩
  obtain ⟨wallet, hobeyed⟩ := h.2 hredis
  exact ⟨wallet, hobeyed.mono hpre⟩

theorem BooksKept.closes (h : BooksKept true share l) : ∃ e ∈ l, Closes e := by
  obtain ⟨wallet, hobeyed⟩ := h.2 rfl
  obtain ⟨r, hr, hmem⟩ := hobeyed (.expire (.uptime wallet)) (by simp [bookCommands, walletCommands])
  exact ⟨_, hmem, hr⟩

theorem Kept.books (h : Kept a redis header l) : BooksKept redis (a.share header) l := by
  refine ⟨h.quiet.isPrefix.subset List.mem_cons_self, fun hredis => ?_⟩
  rcases h with ⟨hoff, -⟩ | ⟨-, -, -, -, -, -, hobeyed⟩
  · rw [hoff] at hredis
    cases hredis
  · exact hobeyed

/-- The books were not kept before the answer that the block part follows. -/
theorem Kept.not_before (h : Kept a redis header l) {c : Call} {r : Answer}
    (hpre : l' ++ [.answered c r] <+: l) : ¬ BooksKept redis (a.share header) l' := by
  intro hkept
  rcases h with ⟨-, rfl⟩ | ⟨rfl, l₁, e, rfl, hgrow, -⟩
  · have := hpre.subset (List.mem_append_right l' (List.mem_singleton_self _))
    simp [opening] at this
  · have hlen := hpre.length_le
    simp only [List.length_append, List.length_singleton] at hlen
    have hbefore : l' <+: l₁ := List.prefix_of_prefix_length_le
      ((List.prefix_append _ _).trans hpre) (List.prefix_append _ _) (by omega)
    obtain ⟨e, he, hcloses⟩ := hkept.closes
    exact grows_not_closes hgrow e (hbefore.subset he) hcloses

end Kept

section Moment
variable {moves : List PoolMove} {m : PoolMove} {i : ℕ}
  {t : PoolThread} {socket : ℕ} {request : Request} {s : Socket}

/-- The turn that ends with the call of a block part is the one in which the books came to be
kept. -/
theorem Kept.not_before_call {redis : Bool} {c : Call} (h : Kept a redis header l)
    (hcall : JustCalled rt w moves m i t c)
    (hown : own i (runPool rt w (moves ++ [m])).log = l ++ [.called c]) :
    ¬ BooksKept redis (a.share header) (own i (runPool rt w moves).log) := by
  obtain ⟨rfl, ht, k, hk⟩ := hcall
  rw [runPool_concat] at ht hown
  obtain ⟨seen, u, hbegun, hrest⟩ := Async.begun_of_turn ht (.inr ⟨c, k, hk⟩)
  obtain ⟨os, hos⟩ := Async.advance_events u (runPool rt w moves).world
  rw [hbegun.turned.own_self, hos, ← hrest, hk, Async.Rest.calls, ← List.append_assoc] at hown
  have hl := (List.append_inj' hown rfl).1
  obtain ⟨e, s₀, rest⟩ := t
  cases hbegun with
  | fire e =>
    rw [Async.Move.thread, runPool_numbered rt w moves _ le_rfl]
    exact fun hkept => absurd hkept.1 List.not_mem_nil
  | resume hi r =>
    apply h.not_before
    rw [← hl]
    exact List.prefix_append _ _

variable (ht : (runPool rt w (moves ++ [m])).threads[i]? = some t)
  (hinput : t.input = .message socket .submit request)
  (hsocket : t.origin.sockets[socket]? = some s)
  (ha : (screened rt socket s request t.origin).2 = .attempt a) (hheader : a.header rt = .ok header)
include hinput hsocket ha hheader

omit hsocket in
theorem course_of_meets {rest : Async.Rest World Call Answer Output JsError Unit}
    (hsocket : t.origin.sockets[socket]? = some s)
    (h : rest.Meets (SubmitPause rt t.input t.origin) (SubmitEnd rt t.input t.origin) w l)
    (hserver : a.server = .pool) (hmeets : meetsNetwork rt a header = true) :
    Course a t.origin.redis header w l := by
  cases rest with
  | done x =>
    have hend := h socket request s hinput hsocket
    rw [ha] at hend
    have hend := hend.2
    simp only [hheader] at hend
    exact hend.2 hserver hmeets
  | waiting c k =>
    obtain ⟨a', ha', header', hheader', -, -, hcourse⟩ := h.1 socket request s hinput hsocket
    obtain rfl := Verdict.attempt.inj (ha.symm.trans ha')
    obtain rfl := Except.ok.inj (hheader.symm.trans hheader')
    exact hcourse hserver hmeets

include ht

/-- In the turn in which the books come to be kept, what can be assembled is submitted. -/
theorem submitted_of_kept (hserver : a.server = .pool) (hmeets : meetsNetwork rt a header = true)
    (hnot : ¬ BooksKept t.origin.redis (a.share header) (own i (runPool rt w moves).log))
    (hkept : BooksKept t.origin.redis (a.share header) (own i (runPool rt w (moves ++ [m])).log))
    {hex : Text} (hhex : Assembled header a.coinbaseHex (runPool rt w (moves ++ [m])).world hex) :
    .called (.submitBlock hex) ∈ own i (runPool rt w (moves ++ [m])).log := by
  rw [runPool_concat] at ht hkept hhex ⊢
  rcases ne_or_eq i (m.thread (runPool rt w moves)) with hother | rfl
  · rw [Async.own_step_of_ne hother] at hkept
    exact absurd hkept hnot
  obtain ⟨seen, u, hbegun, hrest⟩ := Async.begun_of_turn ht <| .inl fun hstay => by
    rw [hstay] at hkept
    exact hnot hkept
  have hmet := (Async.run_sound (start_spec rt) w moves).meets (start_spec rt)
    (Async.run_numbered w moves) hbegun
  rcases course_of_meets hinput ha hheader hsocket hmet hserver hmeets with
    ⟨hredis, hopen⟩ | ⟨l₀, hkept₀, added, hadded, -, hcalled⟩
  · rw [hredis] at hkept
    obtain ⟨e, he, hcloses⟩ := hkept.closes
    exact absurd hcloses (hopen e he)
  · have hsuffix := hbegun.suffix hadded fun hle => hnot (hkept₀.books.mono hle)
    have hmem := hcalled (fun c r hmem =>
      Async.answered_notMem_advance u _ c r (hsuffix.subset hmem)) hex hhex
    exact hadded ▸ List.mem_append_right l₀ hmem

end Moment

theorem thread_at_end {earlier moves : List PoolMove} {i : ℕ}
    {t u : PoolThread} (hpre : earlier <+: moves)
    (ht : (runPool rt w moves).threads[i]? = some t)
    (hu : (runPool rt w earlier).threads[i]? = some u) :
    u.input = t.input ∧ u.origin = t.origin ∧
      own i (runPool rt w earlier).log <+: own i (runPool rt w moves).log := by
  obtain ⟨later, rfl⟩ := hpre
  have hrun : runPool rt w (earlier ++ later) = Async.run (start rt) (runPool rt w earlier) later :=
    List.foldl_append
  obtain ⟨⟨rest, hrest⟩, hown⟩ := Async.run_thread hu later
  rw [hrun] at ht ⊢
  obtain rfl := Option.some.inj (hrest.symm.trans ht)
  exact ⟨rfl, rfl, hown⟩

/-- A block is submitted for a share of the shared pool that meets the network target if and only if
its books come to be kept, and the template in place at that moment has fewer than 65535
transactions. -/
theorem found_submitted_iff (rt : Runtime) (w : World) (moves : List PoolMove)
    (i : ℕ) (t : PoolThread) (socket : ℕ) (request : Request) (s : Socket) (share : Share)
    (ht : (runPool rt w moves).threads[i]? = some t)
    (hinput : t.input = .message socket .submit request)
    (hsocket : t.origin.sockets[socket]? = some s)
    (hshare : .emitted (.credited share) ∈ own i (runPool rt w moves).log)
    (hserver : share.server = .pool)
    (hmeets : hashMeetsTarget (rt.sha256d share.header) (nBitsToTarget share.template.nBits) = true) :
    (∃ hex, .called (.submitBlock hex) ∈ own i (runPool rt w moves).log ∧
      Hex.encode share.header <+: hex) ↔
      ∃ earlier m current, earlier ++ [m] <+: moves ∧
        ¬ BooksKept t.origin.redis share (own i (runPool rt w earlier).log) ∧
        BooksKept t.origin.redis share (own i (runPool rt w (earlier ++ [m])).log) ∧
        (runPool rt w (earlier ++ [m])).world.blockTemplate = some current ∧
        1 + current.txData.length < 2 ^ 16 := by
  obtain ⟨a, header, ha, hheader, rfl⟩ := (credited_iff_attempt ht hinput hsocket).mp hshare
  constructor
  · rintro ⟨hex, hcalled, -⟩
    obtain ⟨earlier, m, hpre, hthread, u, k, hu, hk⟩ := Async.exists_called w moves hcalled
    have hcall : JustCalled rt w earlier m i u (.submitBlock hex) := ⟨hthread, hu, k, hk⟩
    obtain ⟨huinput, huorigin, -⟩ := thread_at_end hpre ht hu
    have hpause := pause_of_justCalled hcall
    rw [huinput, huorigin] at hpause
    obtain ⟨a', ha', header', hheader', -, hblock, -⟩ := hpause socket request s hinput hsocket
    obtain rfl := Verdict.attempt.inj (ha.symm.trans ha')
    obtain rfl := Except.ok.inj (hheader.symm.trans hheader')
    obtain ⟨-, ⟨current, hcurrent, hhex⟩, hkept⟩ := hblock hex rfl
    obtain ⟨l₀, hkept, hown⟩ := hkept hserver
    refine ⟨earlier, m, current, hpre, hkept.not_before_call hcall hown, ?_, hcurrent,
      (blockText_eq hhex).1⟩
    rw [hown]
    exact hkept.books.mono (List.prefix_append _ _)
  · rintro ⟨earlier, m, current, hpre, hnot, hkept, hcurrent, hlt⟩
    have hi : i < (runPool rt w (earlier ++ [m])).threads.length := by
      by_contra hge
      rw [runPool_numbered rt w _ i (not_lt.mp hge)] at hkept
      exact List.not_mem_nil hkept.1
    have hu := List.getElem?_eq_getElem hi
    obtain ⟨huinput, huorigin, hown⟩ := thread_at_end hpre ht hu
    obtain ⟨hex, hhex⟩ := blockText_ok hlt header a.coinbaseHex
    refine ⟨hex, hown.subset ?_, ?_⟩
    · rw [← huorigin] at hsocket ha hnot hkept
      rw [← huinput] at hinput
      exact submitted_of_kept hu hinput hsocket ha hheader hserver hmeets hnot hkept
        ⟨current, hcurrent, hhex⟩
    · rw [(blockText_eq hhex).2]
      exact List.prefix_append _ _

/-- A share on a template with one transaction, and Redis answers `k` times. -/
def keptMoves (k : ℕ) : List PoolMove :=
  foundMoves [oneTx] ++ List.replicate k (.resume 2 .done)

theorem found_submitted_kept : ∃ share hex,
    credits (own 2 (runPool .constant (.fresh true) (keptMoves 8)).log) = [share] ∧
    .called (.submitBlock hex) ∈
      own 2 (runPool .constant (.fresh true) (keptMoves 8)).log ∧
    Hex.encode share.header <+: hex := by
  have hopen : (own 2 (runPool .constant (.fresh true) (keptMoves 7)).log).Forall (¬ Closes ·) :=
    ⟨id, id, id, id, id, id, id, id, id, id, id, id, id, id, id, id, id⟩
  have hnot : ∀ share, ¬ BooksKept true share
      (own 2 (runPool .constant (.fresh true) (keptMoves 7)).log) := by
    intro share hkept
    obtain ⟨e, he, hcloses⟩ := hkept.closes
    exact List.forall_iff_forall_mem.mp hopen e he hcloses
  have hobeyed : Obeyed (bookCommands (.str "w".toList) "w".toList)
      (own 2 (runPool .constant (.fresh true) (keptMoves 8)).log) := by
    simp only [bookCommands, walletCommands, Obeyed, List.cons_append, List.nil_append,
      List.forall_mem_cons]
    exact ⟨⟨.done, Answer.noConfusion, List.mem_of_getElem? (i := 3) rfl⟩,
      ⟨.done, Answer.noConfusion, List.mem_of_getElem? (i := 5) rfl⟩,
      ⟨.done, Answer.noConfusion, List.mem_of_getElem? (i := 9) rfl⟩,
      ⟨.done, Answer.noConfusion, List.mem_of_getElem? (i := 11) rfl⟩,
      ⟨.done, Answer.noConfusion, List.mem_of_getElem? (i := 13) rfl⟩,
      ⟨.done, Answer.noConfusion, List.mem_of_getElem? (i := 15) rfl⟩,
      ⟨.done, Answer.noConfusion, List.mem_of_getElem? (i := 17) rfl⟩, by simp⟩
  have hiff := found_submitted_iff .constant (.fresh true) (keptMoves 8) 2 _ 0 firstSubmit _ _ rfl rfl rfl
    (List.Mem.head _) rfl rfl
  obtain ⟨hex, hcalled, hhex⟩ := hiff.mpr ⟨keptMoves 7, .resume 2 .done, _, List.prefix_rfl, hnot _,
    ⟨List.Mem.head _, fun _ => ⟨_, hobeyed⟩⟩, rfl, by decide⟩
  exact ⟨_, hex, rfl, hcalled, hhex⟩

/-- The first command of the bookkeeping is rejected, and a share that meets the network target is
not submitted. -/
theorem found_not_submitted :
    ((credits (own 2 (runPool .constant (.fresh true)
      (foundMoves [] ++ [.resume 2 .rejects])).log)).map fun share =>
        hashMeetsTarget (Runtime.constant.sha256d share.header)
          (nBitsToTarget share.template.nBits)) = [true] ∧
    (submissions (own 2 (runPool .constant (.fresh true)
      (foundMoves [] ++ [.resume 2 .rejects])).log)).length = 0 := by
  decide +kernel

end Tarcoin.Pool
