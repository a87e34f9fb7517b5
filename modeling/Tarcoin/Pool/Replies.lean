import Tarcoin.Pool.SubmitTrace

/-! How many responses a `mining.submit` is given, over all parameters, states and failures. -/
namespace Tarcoin.Pool
open Async (Grows own)

def responses (l : List Observed) : List (ℕ × JsVal × Reply) :=
  l.filterMap fun e => match e with
    | .emitted (.reply socket id body) => some (socket, id, body)
    | _ => none

@[simp] theorem responses_append (l l' : List Observed) :
    responses (l ++ l') = responses l ++ responses l' := List.filterMap_append

variable {l : List Observed} {request : Request} {rt : Runtime} {w : World} {a : Attempt}

theorem responses_quiet {l' : List Observed} (h : Grows Quiet l l') :
    responses l' = responses l := by
  obtain ⟨added, rfl, hadded⟩ := h
  have hnone : responses added = [] := by
    apply List.filterMap_eq_nil_iff.mpr
    intro e he
    have hquiet := hadded e he
    cases e with
    | emitted o => exact hquiet.elim
    | called c => rfl
    | answered c r => rfl
  rw [responses_append, hnone, List.append_nil]

/-- The parameters are iterable, and the four that make up the share key can be converted to
text. -/
def Request.Readable (request : Request) : Prop :=
  ∃ items, request.items = .ok items ∧ ∀ i ∈ [1, 2, 3, 4], ∃ text, toText items[i]? = .ok text

theorem shareFields_ok_iff (rt : Runtime) (serial : ℕ) (request : Request) :
    (∃ fields, request.shareFields rt serial = .ok fields) ↔ request.Readable := by
  unfold Request.shareFields Request.Readable
  cases hitems : request.items with
  | error e => simp [bind, Except.bind]
  | ok items =>
    simp only [bind, Except.bind, Except.ok.injEq, exists_eq_left', List.forall_mem_cons,
      List.not_mem_nil, IsEmpty.forall_iff, implies_true, and_true]
    cases toText items[1]? with
    | error e => simp
    | ok jobId =>
      cases toText items[2]? with
      | error e => simp
      | ok extraNonce2 =>
        cases toText items[3]? with
        | error e => simp
        | ok nTime =>
          cases toText items[4]? with
          | error e => simp
          | ok nonce => simp

theorem not_readable_of_locate {r : Registry} {server : Server} {serial : ℕ} {workerName : Key}
    (h : r.locate server serial request workerName = none) : ¬ request.Readable := by
  rintro ⟨items, hitems, -⟩
  unfold Registry.locate at h
  split at h
  · cases h
  · split at h
    · rename_i e he
      unfold Request.param at he
      unfold Request.items at hitems
      split at he <;> simp_all
    · split at h <;> cases h

theorem admission_unreadable_iff (rt : Runtime) (server : Server) (serial : ℕ) (request : Request)
    (workerName : Key) (w : World) :
    (admission rt server serial request workerName w).2 = .unreadable ↔ ¬ request.Readable := by
  unfold admission
  split
  · rename_i h
    exact iff_of_true rfl (not_readable_of_locate h)
  · cases hfields : request.shareFields rt serial with
    | error e =>
      simp only [true_iff]
      rw [← shareFields_ok_iff rt serial, hfields]
      rintro ⟨_, h⟩
      cases h
    | ok fields =>
      have hreadable := (shareFields_ok_iff rt serial request).mp ⟨fields, hfields⟩
      apply iff_of_false _ (not_not_intro hreadable)
      simp only
      split_ifs <;> simp

theorem screened_unreadable_iff (rt : Runtime) (socket : ℕ) (s : Socket) (request : Request)
    (w : World) : (screened rt socket s request w).2 = .unreadable ↔ ¬ request.Readable := by
  have hadm := admission_unreadable_iff rt s.server w.serial request s.workerName
    (({ w with serial := w.serial + 1 } : World).stamp socket)
  simp only [screened, screen]
  rw [← hadm]
  cases (admission rt s.server w.serial request s.workerName
    (({ w with serial := w.serial + 1 } : World).stamp socket)).2 with
  | unreadable => exact iff_of_true rfl rfl
  | duplicate => exact iff_of_false Verdict.noConfusion Admission.noConfusion
  | admitted miner fields =>
    exact iff_of_false judge_ne_unreadable Admission.noConfusion

theorem readable_of_screened {socket : ℕ} {s : Socket} {v : Verdict}
    (hv : (screened rt socket s request w).2 = v) (hne : v ≠ .unreadable) : request.Readable := by
  by_contra hnot
  exact hne (hv.symm.trans ((screened_unreadable_iff rt socket s request w).mpr hnot))

theorem responses_opening (a : Attempt) (header : List UInt8) :
    responses (opening a header) = [(a.socket, a.id, .accepted)] := rfl

theorem not_booksReject_of_quiet {header : List UInt8} (h : Grows Quiet (opening a header) l) :
    ∀ e ∈ l, ¬ BooksReject e := by
  obtain ⟨added, rfl, hadded⟩ := h
  intro e he
  rcases List.mem_append.mp he with he | he
  · simp only [opening, List.mem_cons, List.not_mem_nil, or_false] at he
    rcases he with rfl | rfl <;> exact id
  · exact (hadded e he).not_booksReject

/-- A counted share is answered twice exactly if its books failed. -/
theorem one_response_of_verify {redis : Bool} {x : Except JsError Unit}
    (h : VerifyEnd rt a redis w l x) :
    (∃ body, responses l = [(a.socket, a.id, body)]) ↔ ∀ e ∈ l, ¬ BooksReject e := by
  obtain ⟨-, h⟩ := h
  split at h
  · subst h
    refine iff_of_true ⟨_, rfl⟩ fun e he => ?_
    obtain rfl := List.mem_singleton.mp he
    exact id
  · rcases h.1 with h | ⟨l₁, e, rfl, hgrow, he⟩
    · refine iff_of_true ⟨.accepted, ?_⟩ (not_booksReject_of_quiet h)
      rw [responses_quiet h, responses_opening]
    · refine iff_of_false ?_ fun hall => hall e (by simp) he
      rintro ⟨body, hbody⟩
      have hlen := congrArg List.length hbody
      rw [responses_append, responses_quiet (hgrow.mono fun _ => Server.Early.quiet),
        responses_opening] at hlen
      cases e with
      | emitted o => exact he
      | called c => exact he
      | answered c r => exact absurd hlen (by simp [responses])

/-- A submit to either server is answered exactly once if and only if its parameters can be read
and Redis rejects none of the commands that keep its books. -/
theorem one_reply_iff (rt : Runtime) (w : World) (moves : List PoolMove) (i : ℕ)
    (t : PoolThread) (socket : ℕ) (request : Request)
    (s : Socket) (ht : (runPool rt w moves).threads[i]? = some t)
    (hinput : t.input = .message socket .submit request)
    (hsocket : t.origin.sockets[socket]? = some s) :
    (∃ body, responses (own i (runPool rt w moves).log) = [(socket, request.id, body)]) ↔
      request.Readable ∧ ∀ e ∈ own i (runPool rt w moves).log, ¬ BooksReject e := by
  generalize hl : own i (runPool rt w moves).log = l
  obtain ⟨w', ⟨c, k, -, hpause⟩ | ⟨x, -, hend⟩⟩ := run_observed ht
  · obtain ⟨a, ha, header, -, hgrow, -⟩ := hpause socket request s hinput hsocket
    obtain ⟨-, rfl, hid, -⟩ := screened_attempt ha
    rw [hl] at hgrow
    refine iff_of_true ⟨.accepted, ?_⟩
      ⟨readable_of_screened ha Verdict.noConfusion, not_booksReject_of_quiet hgrow⟩
    rw [responses_quiet hgrow, responses_opening, hid]
  · have hend := hend socket request s hinput hsocket
    rw [hl] at hend
    cases hv : (screened rt socket s request t.origin).2 with
    | unreadable =>
      rw [hv] at hend
      subst hend
      have hnot := (screened_unreadable_iff rt socket s request t.origin).mp hv
      exact iff_of_false (by simp [responses]) fun h => hnot h.1
    | refused body =>
      rw [hv] at hend
      subst hend
      refine iff_of_true ⟨body, rfl⟩ ⟨readable_of_screened hv Verdict.noConfusion, fun e he => ?_⟩
      obtain rfl := List.mem_singleton.mp he
      exact id
    | attempt a =>
      rw [hv] at hend
      obtain ⟨-, rfl, hid, -⟩ := screened_attempt hv
      rw [← hid, one_response_of_verify hend]
      exact (and_iff_right (readable_of_screened hv Verdict.noConfusion)).symm

def submitRequest (worker jobId extraNonce2 nTime nonce : String) : Request :=
  ⟨some (.num "1".toList), some (.arr [.str worker.toList, .str jobId.toList,
    .str extraNonce2.toList, .str nTime.toList, .str nonce.toList])⟩

def firstSubmit : Request := submitRequest "w" "00000000" "00000000" "00000000" "00000000"

theorem one_reply_refused : ∃ body, responses (own 1 (runPool .constant (.fresh true)
    [.fire (.connect .pool), .fire (.message 0 .submit firstSubmit)]).log) =
    [(0, some (.num "1".toList), body)] := by
  apply (one_reply_iff .constant _ _ 1 _ 0 firstSubmit _ rfl rfl rfl).mpr
  constructor
  · exact ⟨_, rfl, by simp [toText, Json.toText]⟩
  · intro e he
    obtain rfl := List.mem_singleton.mp he
    exact id

/-- A submit without parameters is not answered, and one whose first command is rejected by Redis
is answered twice. -/
theorem one_reply_fails :
    (responses (own 1 (runPool .constant (.fresh true) [.fire (.connect .pool),
      .fire (.message 0 .submit ⟨some (.num "1".toList), none⟩)]).log)).length = 0 ∧
    (responses (own 2 (runPool .constant (.fresh true) [.fire (.connect .pool),
      .fire (.refresh 0), .resume 1 (.template (some (.first []))), .fire (.message 0 .submit
        firstSubmit),
      .resume 2 .rejects]).log)).length = 2 := by
  decide

end Tarcoin.Pool
