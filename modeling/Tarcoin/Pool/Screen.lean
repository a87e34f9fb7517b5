import Tarcoin.Foundations.AsyncRules
import Tarcoin.Pool.Server

/-! Up to the rebuilding of the header a submit does not wait, so its outcome is a function of the
message and of the state it arrives in. -/
namespace Tarcoin.Pool
open Async (Leads)

section
variable (w : World) (server : Server)
include w server

@[simp] theorem World.registry_updateRegistry (f : Registry → Registry) :
    (w.updateRegistry server f).registry server = f (w.registry server) := by
  cases server <;> rfl

@[simp] theorem World.updateRegistry_self :
    (w.updateRegistry server fun _ => w.registry server) = w := by
  cases server <;> rfl

theorem World.updateRegistry_eq (f : Registry → Registry) :
    w.updateRegistry server f = w.updateRegistry server fun _ => f (w.registry server) := by
  cases server <;> rfl

@[simp] theorem World.blockTemplate_updateRegistry (f : Registry → Registry) :
    (w.updateRegistry server f).blockTemplate = w.blockTemplate := by
  cases server <;> rfl

@[simp] theorem World.redis_updateRegistry (f : Registry → Registry) :
    (w.updateRegistry server f).redis = w.redis := by
  cases server <;> rfl

end

/-- The entry a submit counts for, and the registry after a missing one was added; nothing if
there are no parameters to name it. -/
def Registry.locate (r : Registry) (server : Server) (serial : ℕ) (request : Request)
    (workerName : Key) : Option (ℕ × Registry) :=
  match r.miners.get workerName with
  | some miner => some (miner, r)
  | none =>
    match request.param 0 with
    | .error _ => none
    | .ok name =>
      match r.miners.get (keyOf serial 0 name) with
      | some miner => some (miner, r)
      | none => some (r.entries.length, r.add (keyOf serial 0 name) (recreatedMiner server))

variable {server : Server} {serial miner : ℕ} {request : Request} {workerName : Key} {w : World}
  {r : Registry}

theorem findWorker_leads
    (h : (w.registry server).locate server serial request workerName = some (miner, r)) :
    Leads (findWorker server serial request workerName) w [] (.pure miner)
      (w.updateRegistry server fun _ => r) := by
  unfold Registry.locate at h
  split at h
  next hget =>
    cases h
    apply Leads.get
    simp only [hget, World.updateRegistry_self]
    exact .refl _ _
  next hget =>
    split at h
    next => cases h
    next hname =>
      split at h
      next hget' =>
        cases h
        apply Leads.get
        simp only [hget]
        apply Leads.ofExcept hname
        simp only [hget', World.updateRegistry_self]
        exact .refl _ _
      next hget' =>
        cases h
        apply Leads.get
        simp only [hget]
        apply Leads.ofExcept hname
        simp only [hget']
        apply Leads.modify
        rw [World.updateRegistry_eq]
        exact .refl _ _

theorem findWorker_leads_throw
    (h : (w.registry server).locate server serial request workerName = none) :
    ∃ e, Leads (findWorker server serial request workerName) w [] (.throw e) w := by
  unfold Registry.locate at h
  split at h
  next => cases h
  next hget =>
    split at h
    next e hname =>
      use e
      apply Leads.get
      simp only [hget]
      exact Leads.ofExcept_error hname
    next => split at h <;> cases h

theorem Registry.locate_own (h : r.miners.get workerName = some miner) (server : Server)
    (serial : ℕ) (request : Request) :
    r.locate server serial request workerName = some (miner, r) := by
  simp only [Registry.locate, h]

theorem Registry.locate_cases {r' : Registry}
    (h : r.locate server serial request workerName = some (miner, r')) :
    (r' = r ∧ (r.miners.get workerName = some miner ∨
      ∃ v, request.param 0 = .ok v ∧ r.miners.get (keyOf serial 0 v) = some miner)) ∨
    ∃ v, request.param 0 = .ok v ∧ r.miners.get workerName = none ∧
      r.miners.get (keyOf serial 0 v) = none ∧ miner = r.entries.length ∧
      r' = r.add (keyOf serial 0 v) (recreatedMiner server) := by
  unfold Registry.locate at h
  split at h
  next hown =>
    cases h
    exact .inl ⟨rfl, .inl hown⟩
  next hown =>
    split at h
    next => cases h
    next v hname =>
      split at h
      next hnamed =>
        cases h
        exact .inl ⟨rfl, .inr ⟨v, hname, hnamed⟩⟩
      next hnamed =>
        cases h
        exact .inr ⟨v, hname, hown, hnamed, rfl, rfl⟩

/-- What becomes of a submit before its job is looked at. -/
inductive Admission
  | unreadable
  | duplicate
  | admitted (miner : ℕ) (fields : ShareFields)

section Screen
variable (rt : Runtime)

def admission (server : Server) (serial : ℕ) (request : Request) (workerName : Key) (w : World) :
    World × Admission :=
  match (w.registry server).locate server serial request workerName with
  | none => (w, .unreadable)
  | some (miner, r) =>
    match request.shareFields rt serial with
    | .error _ => (w.updateRegistry server fun _ => r, .unreadable)
    | .ok fields =>
      ((w.updateRegistry server fun _ => r).updateMiner server miner
          (Miner.remember fields.jobId fields.shareKey),
        if r.entries[miner]?.any fun m => fields.shareKey ∈ m.seen fields.jobId then .duplicate
        else .admitted miner fields)

variable {fields : ShareFields} {socket : ℕ} {id : JsVal} {extraNonce1 : Text} {a : Attempt}
  {s : Socket}

theorem admission_admitted_iff :
    (admission rt server serial request workerName w).2 = .admitted miner fields ↔
      ∃ r, (w.registry server).locate server serial request workerName = some (miner, r) ∧
        request.shareFields rt serial = .ok fields ∧
        (r.entries[miner]?.any fun m => fields.shareKey ∈ m.seen fields.jobId) = false := by
  unfold admission
  cases hloc : (w.registry server).locate server serial request workerName with
  | none => simp
  | some found =>
    obtain ⟨miner', r⟩ := found
    cases hfields : request.shareFields rt serial with
    | error e => simp
    | ok fields' =>
      simp only [Option.some.injEq, Prod.mk.injEq, Except.ok.injEq]
      split_ifs with hdup
      · simp only [false_iff]
        rintro ⟨r', ⟨rfl, rfl⟩, rfl, hnot⟩
        rw [hdup] at hnot
        cases hnot
      · simp only [Admission.admitted.injEq]
        constructor
        · rintro ⟨rfl, rfl⟩
          exact ⟨r, ⟨rfl, rfl⟩, rfl, by simpa using hdup⟩
        · rintro ⟨r', ⟨rfl, rfl⟩, rfl, -⟩
          exact ⟨rfl, rfl⟩

/-- What becomes of a submit before its header is rebuilt. -/
inductive Verdict
  | unreadable
  | refused (body : Reply)
  | attempt (a : Attempt)

/-- Look for the job of a share that is not a duplicate. -/
def judge (server : Server) (socket : ℕ) (id : JsVal) (extraNonce1 : Text) (miner : ℕ)
    (fields : ShareFields) (w : World) : Verdict :=
  match server with
  | .pool =>
    match w.blockTemplate with
    | none => .refused .jobNotFound
    | some t =>
      if .str t.jobId ≠ fields.jobId then .refused .jobNotFound
      else .attempt ⟨.pool, socket, id, miner, fields, t, t.work t.coinbase1 t.coinbase2, extraNonce1⟩
  | .solo =>
    match w.blockTemplate, w.soloMiners.entries[miner]? with
    | some t, some m =>
      if m.jobId ≠ fields.jobId then .refused .jobNotFound
      else
        match m.coinbase with
        | none => .refused .coinbaseNotReady
        | some (coinbase1, coinbase2) =>
          .attempt ⟨.solo, socket, id, miner, fields, t, t.work coinbase1 coinbase2, extraNonce1⟩
    | _, _ => .refused .jobNotFound

theorem judge_ne_unreadable :
    judge server socket id extraNonce1 miner fields w ≠ .unreadable := by
  unfold judge
  repeat' split
  all_goals exact Verdict.noConfusion

theorem judge_attempt (h : judge server socket id extraNonce1 miner fields w = .attempt a) :
    a.server = server ∧ a.socket = socket ∧ a.id = id ∧ a.miner = miner ∧ a.fields = fields ∧
      a.extraNonce1 = extraNonce1 ∧ w.blockTemplate = some a.template ∧
      ∃ coinbase1 coinbase2, a.work = a.template.work coinbase1 coinbase2 := by
  unfold judge at h
  repeat' split at h
  all_goals cases h
  all_goals exact ⟨rfl, rfl, rfl, rfl, rfl, rfl, ‹_›, _, _, rfl⟩

def Admission.verdict (server : Server) (socket : ℕ) (id : JsVal) (extraNonce1 : Text) (w : World) :
    Admission → Verdict
  | .unreadable => .unreadable
  | .duplicate => .refused .duplicateShare
  | .admitted miner fields => judge server socket id extraNonce1 miner fields w

theorem judge_pool_iff :
    judge .pool socket id extraNonce1 miner fields w = .attempt a ↔
      ∃ t, w.blockTemplate = some t ∧ .str t.jobId = fields.jobId ∧
        a = ⟨.pool, socket, id, miner, fields, t, t.work t.coinbase1 t.coinbase2, extraNonce1⟩ := by
  unfold judge
  cases w.blockTemplate with
  | none => simp
  | some t =>
    by_cases hjob : Key.str t.jobId = fields.jobId
    · simp [hjob, eq_comm]
    · simp [hjob]

theorem judge_solo_iff :
    judge .solo socket id extraNonce1 miner fields w = .attempt a ↔
      ∃ t m coinbase1 coinbase2, w.blockTemplate = some t ∧
        w.soloMiners.entries[miner]? = some m ∧ m.jobId = fields.jobId ∧
        m.coinbase = some (coinbase1, coinbase2) ∧
        a = ⟨.solo, socket, id, miner, fields, t, t.work coinbase1 coinbase2, extraNonce1⟩ := by
  unfold judge
  cases w.blockTemplate with
  | none => simp
  | some t =>
    cases w.soloMiners.entries[miner]? with
    | none => simp
    | some m =>
      by_cases hjob : m.jobId = fields.jobId
      · cases hc : m.coinbase with
        | none => simp [hjob, hc]
        | some c =>
          obtain ⟨coinbase1, coinbase2⟩ := c
          simp only [hjob, hc, ne_eq, not_true_eq_false, if_false, Verdict.attempt.injEq,
            Option.some.injEq]
          constructor
          · rintro rfl
            exact ⟨t, m, coinbase1, coinbase2, rfl, rfl, hjob, hc, rfl⟩
          · rintro ⟨_, _, c1, c2, rfl, rfl, -, hc', rfl⟩
            obtain ⟨rfl, rfl⟩ := Prod.mk.inj (Option.some.inj (hc.symm.trans hc'))
            rfl
      · simp [hjob]

theorem Admission.verdict_attempt_iff {admitted : Admission} :
    admitted.verdict server socket id extraNonce1 w = .attempt a ↔
      ∃ miner fields, admitted = .admitted miner fields ∧
        judge server socket id extraNonce1 miner fields w = .attempt a := by
  cases admitted with
  | unreadable => simp [Admission.verdict]
  | duplicate => simp [Admission.verdict]
  | admitted miner fields => simp [Admission.verdict]

/-- The state a submit leaves before its header is rebuilt, and what it has come to. -/
def screen (serial socket : ℕ) (s : Socket) (request : Request) (w : World) : World × Verdict :=
  let admitted := admission rt s.server serial request s.workerName (w.stamp socket)
  (admitted.1, admitted.2.verdict s.server socket request.id s.extraNonce1 admitted.1)

def verify (a : Attempt) : PoolM Unit :=
  match a.server with
  | .pool => verifyShare rt a
  | .solo => verifySoloShare rt a

def Verdict.replies (socket : ℕ) (id : JsVal) : Verdict → List Output
  | .refused body => [.reply socket id body]
  | _ => []

/-- What is left of a submit, with the `try` of the message loop. -/
def Verdict.rest : Verdict → PoolM Unit
  | .attempt a => (verify rt a).catching fun _ => pure ()
  | _ => .pure ()

/-- How the search for the worker and the check for duplicates end. -/
def Admission.Ends (socket : ℕ) (id : JsVal) (t : PoolM (Option (ℕ × ShareFields))) (w w' : World) :
    Admission → Prop
  | .unreadable => ∃ e, Leads t w [] (.throw e) w'
  | .duplicate => Leads t w [.reply socket id .duplicateShare] (.pure none) w'
  | .admitted miner fields => Leads t w [] (.pure (some (miner, fields))) w'

theorem admitShare_ends (server : Server) (serial socket : ℕ) (request : Request)
    (workerName : Key) (w : World) :
    (admission rt server serial request workerName w).2.Ends socket request.id
      (admitShare rt server serial socket request workerName) w
      (admission rt server serial request workerName w).1 := by
  unfold admission
  split
  · rename_i hnone
    obtain ⟨e, he⟩ := findWorker_leads_throw hnone
    exact ⟨e, he.bind_throw _⟩
  · rename_i miner r hloc
    have hfind := findWorker_leads hloc
    split
    · rename_i e he
      exact ⟨e, (hfind.bind _).trans (Leads.ofExcept_error he)⟩
    · rename_i fields hfields
      have hentries : ((w.updateRegistry server fun _ => r).registry server).entries = r.entries := by
        rw [World.registry_updateRegistry]
      split_ifs with hdup
      · apply (hfind.bind _).trans
        apply Leads.ofExcept hfields
        apply Leads.get
        apply Leads.modify
        rw [hentries, if_pos hdup]
        exact .emit (.refl _ _)
      · apply (hfind.bind _).trans
        apply Leads.ofExcept hfields
        apply Leads.get
        apply Leads.modify
        rw [hentries, if_neg hdup]
        exact .refl _ _

def Verdict.Ends (socket : ℕ) (id : JsVal) (t : PoolM Unit) (w w' : World) : Verdict → Prop
  | .unreadable => ∃ e, Leads t w [] (.throw e) w'
  | .refused body => Leads t w [.reply socket id body] (.pure ()) w'
  | .attempt a => Leads t w [] (verify rt a) w'

theorem checkJob_ends :
    (judge .pool socket id extraNonce1 miner fields w).Ends rt socket id
      (checkJob rt socket id extraNonce1 miner fields) w w := by
  unfold judge checkJob
  cases ht : w.blockTemplate with
  | none =>
    apply Leads.get
    rw [ht]
    exact .emit (.refl _ _)
  | some t =>
    by_cases hjob : Key.str t.jobId ≠ fields.jobId
    · simp only [if_pos hjob]
      apply Leads.get
      simp only [ht, if_pos hjob]
      exact .emit (.refl _ _)
    · simp only [if_neg hjob]
      apply Leads.get
      simp only [ht, if_neg hjob]
      exact .refl _ _

theorem checkSoloJob_ends :
    (judge .solo socket id extraNonce1 miner fields w).Ends rt socket id
      (checkSoloJob rt socket id extraNonce1 miner fields) w w := by
  unfold judge checkSoloJob
  cases ht : w.blockTemplate with
  | none =>
    apply Leads.get
    rw [ht]
    exact .emit (.refl _ _)
  | some t =>
    cases hm : w.soloMiners.entries[miner]? with
    | none =>
      apply Leads.get
      simp only [ht, hm]
      exact .emit (.refl _ _)
    | some m =>
      by_cases hjob : m.jobId ≠ fields.jobId
      · simp only [if_pos hjob]
        apply Leads.get
        simp only [ht, hm, if_pos hjob]
        exact .emit (.refl _ _)
      · simp only [if_neg hjob]
        cases hc : m.coinbase with
        | none =>
          apply Leads.get
          simp only [ht, hm, if_neg hjob, hc]
          exact .emit (.refl _ _)
        | some c =>
          apply Leads.get
          simp only [ht, hm, if_neg hjob, hc]
          exact .refl _ _

theorem Verdict.Ends.after {t t' : PoolM Unit} {w₁ w' : World} (h : Leads t w [] t' w₁)
    {v : Verdict} (hv : v.Ends rt socket id t' w₁ w') : v.Ends rt socket id t w w' := by
  cases v with
  | unreadable =>
    obtain ⟨e, he⟩ := hv
    exact ⟨e, h.trans he⟩
  | refused body => exact h.trans hv
  | attempt a => exact h.trans hv

theorem submit_ends (serial socket : ℕ) (s : Socket) (request : Request) (w : World) :
    (screen rt serial socket s request w).2.Ends rt socket request.id
      (submit rt serial socket s request) w (screen rt serial socket s request w).1 := by
  have hends := admitShare_ends rt s.server serial socket request s.workerName (w.stamp socket)
  refine Verdict.Ends.after rt (Leads.modify (.refl _ _)) ?_
  unfold screen
  cases hadm : (admission rt s.server serial request s.workerName (w.stamp socket)).2 with
  | unreadable =>
    rw [hadm] at hends
    obtain ⟨e, he⟩ := hends
    simp only [hadm]
    use e
    cases hserver : s.server <;> rw [hserver] at he <;> exact he.bind_throw _
  | duplicate =>
    rw [hadm] at hends
    simp only [hadm]
    cases hserver : s.server <;> rw [hserver] at hends <;> exact hends.bind _
  | admitted miner fields =>
    rw [hadm] at hends
    simp only [hadm]
    cases hserver : s.server with
    | pool =>
      rw [hserver] at hends
      exact (checkJob_ends rt).after rt (hends.bind _)
    | solo =>
      rw [hserver] at hends
      exact (checkSoloJob_ends rt).after rt (hends.bind _)

theorem receive_submit_leads (hs : w.sockets[socket]? = some s) (request : Request) :
    Leads (receive rt socket .submit request) w
      ((screen rt w.serial socket s request { w with serial := w.serial + 1 }).2.replies socket
        request.id)
      ((screen rt w.serial socket s request { w with serial := w.serial + 1 }).2.rest rt)
      (screen rt w.serial socket s request { w with serial := w.serial + 1 }).1 := by
  unfold receive
  apply Leads.get
  apply Leads.modify
  simp only [hs]
  have hends := submit_ends rt w.serial socket s request { w with serial := w.serial + 1 }
  cases hv : (screen rt w.serial socket s request { w with serial := w.serial + 1 }).2 with
  | unreadable =>
    rw [hv] at hends
    obtain ⟨e, he⟩ := hends
    exact he.andThen _
  | refused body =>
    rw [hv] at hends
    exact hends.andThen _
  | attempt a =>
    rw [hv] at hends
    exact hends.andThen _

/-- The state and the verdict that the first turn of a submit leads to. -/
def screened (socket : ℕ) (s : Socket) (request : Request) (w : World) : World × Verdict :=
  screen rt w.serial socket s request { w with serial := w.serial + 1 }

variable {rt} in
theorem screened_attempt (h : (screened rt socket s request w).2 = .attempt a) :
    a.server = s.server ∧ a.socket = socket ∧ a.id = request.id ∧
      (screened rt socket s request w).1.blockTemplate = some a.template ∧
      ∃ coinbase1 coinbase2, a.work = a.template.work coinbase1 coinbase2 := by
  obtain ⟨miner, fields, -, hjudge⟩ := Admission.verdict_attempt_iff.mp h
  obtain ⟨hserver, hsocket, hid, -, -, -, htemplate, hwork⟩ := judge_attempt hjudge
  exact ⟨hserver, hsocket, hid, htemplate, hwork⟩

theorem screened_kept (socket : ℕ) (s : Socket) (request : Request) (w : World) :
    (screened rt socket s request w).1.blockTemplate = w.blockTemplate ∧
      (screened rt socket s request w).1.redis = w.redis := by
  simp only [screened, screen, admission]
  split
  · exact ⟨rfl, rfl⟩
  · split
    · rw [World.blockTemplate_updateRegistry, World.redis_updateRegistry]
      exact ⟨rfl, rfl⟩
    · simp only [World.updateMiner, World.blockTemplate_updateRegistry, World.redis_updateRegistry]
      exact ⟨rfl, rfl⟩

theorem screened_pool_attempt_iff (hserver : s.server = .pool) :
    (screened rt socket s request w).2 = .attempt a ↔
      ∃ miner r fields t, w.poolMiners.locate .pool w.serial request s.workerName = some (miner, r) ∧
        request.shareFields rt w.serial = .ok fields ∧
        (r.entries[miner]?.any fun m => fields.shareKey ∈ m.seen fields.jobId) = false ∧
        w.blockTemplate = some t ∧ .str t.jobId = fields.jobId ∧
        a = ⟨.pool, socket, request.id, miner, fields, t, t.work t.coinbase1 t.coinbase2,
          s.extraNonce1⟩ := by
  have htemplate := (screened_kept rt socket s request w).1
  simp only [screened, screen, hserver] at htemplate ⊢
  simp only [Admission.verdict_attempt_iff, admission_admitted_iff, judge_pool_iff, htemplate]
  constructor
  · rintro ⟨miner, fields, ⟨r, hlocate, hfields, hnew⟩, t, ht, hjob, rfl⟩
    exact ⟨miner, r, fields, t, hlocate, hfields, hnew, ht, hjob, rfl⟩
  · rintro ⟨miner, r, fields, t, hlocate, hfields, hnew, ht, hjob, rfl⟩
    exact ⟨miner, fields, ⟨r, hlocate, hfields, hnew⟩, t, ht, hjob, rfl⟩

end Screen

end Tarcoin.Pool
