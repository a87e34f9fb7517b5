import Tarcoin.Pool.Frames

/-! What a connection, an authorization, a submit and a close do before they first wait, as
functions on the state. -/
namespace Tarcoin.Pool
open Async (Only Leads Keeps Holding)

theorem randomHex_leads (n : ℕ) (w : World) :
    Leads (randomHex n) w [] (.pure (Hex.encode (fit n (w.entropy w.drawn))))
      { w with drawn := w.drawn + 1 } :=
  .read (.read (.write (.refl _ _)))

def World.connected (w : World) (server : Server) : World :=
  { w with
    drawn := w.drawn + 2
    sockets := w.sockets ++ [⟨server, false, .str [], Hex.encode (fit 8 (w.entropy w.drawn)),
      Hex.encode (fit 4 (w.entropy (w.drawn + 1))), startDiff, false, [], none, []⟩] }

theorem connect_leads (server : Server) (w : World) :
    Leads (connect server) w [] (.pure ()) (w.connected server) := by
  apply ((randomHex_leads 8 w).bind _).trans
  apply ((randomHex_leads 4 _).bind _).trans
  exact .read (.write (.refl _ _))

def World.closed (w : World) (socket : ℕ) (s : Socket) : World :=
  let w := w.updateSocket socket fun s =>
    { s with destroyed := true, timers := s.timers.filter fun t => some t ≠ s.vardiffTimer }
  if s.workerName.truthy then
    let w := w.updateRegistry s.server fun r => { r with miners := r.miners.delete s.workerName }
    match s.server with
    | .pool => { w with activeWorkers := w.poolMiners.miners.size }
    | .solo => w
  else w

theorem sockets_closed (w : World) (socket : ℕ) (s : Socket) :
    (w.closed socket s).sockets = w.sockets.modify socket fun s =>
      { s with destroyed := true, timers := s.timers.filter fun t => some t ≠ s.vardiffTimer } := by
  unfold World.closed
  cases s.server <;> split_ifs <;> rfl

theorem blockTemplate_closed (w : World) (socket : ℕ) (s : Socket) :
    (w.closed socket s).blockTemplate = w.blockTemplate := by
  unfold World.closed
  cases s.server <;> split_ifs <;> rfl

theorem entries_closed (w : World) (socket : ℕ) (s : Socket) (server : Server) :
    ((w.closed socket s).registry server).entries = (w.registry server).entries := by
  unfold World.closed
  cases s.server <;> cases server <;> split_ifs <;> rfl

variable {w : World} {socket : ℕ}

theorem close_leads {s : Socket} (hs : w.sockets[socket]? = some s) :
    Leads (close socket) w [] (.pure ()) (w.closed socket s) := by
  apply Leads.get
  simp only [hs]
  apply Leads.modify
  unfold World.closed
  split_ifs with htruthy
  · exact .read (.write (.refl _ _))
  · exact .refl _ _

theorem close_leads_none (hs : w.sockets[socket]? = none) :
    Leads (close socket) w [] (.pure ()) w := by
  apply Leads.get
  simp only [hs]
  exact .refl _ _

def World.enroll (w : World) (server : Server) (name : Key) (m : Miner) : World :=
  let w := w.updateRegistry server fun r => r.add name m
  match server with
  | .pool => { w with activeWorkers := w.poolMiners.miners.size }
  | .solo => w

theorem sockets_enroll (w : World) (server : Server) (name : Key) (m : Miner) :
    (w.enroll server name m).sockets = w.sockets := by
  cases server <;> rfl

def World.rename (w : World) (socket : ℕ) (name : Key) : World :=
  w.updateSocket socket fun s => { s with workerName := name }

def World.clocks (w : World) : List Clockwork := w.sockets.map Socket.clockwork

namespace Clockwork

/-- A password asks for a difficulty of its own, or does not. -/
def override (asked : Bool) (c : Clockwork) : Clockwork :=
  { c with diffOverridden := asked || c.diffOverridden }

def start (timer : ℕ) (c : Clockwork) : Clockwork :=
  if c.diffOverridden then c
  else { c with vardiffTimer := some timer, timers := timer :: c.timers }

/-- An authorization: the override first, then the interval. -/
def authorize (asked : Bool) (timer : ℕ) (c : Clockwork) : Clockwork := (c.override asked).start timer

end Clockwork

theorem clocks_updateSocket (w : World) (socket : ℕ) {f : Socket → Socket}
    {g : Clockwork → Clockwork} (h : ∀ s, (f s).clockwork = g s.clockwork) :
    (w.updateSocket socket f).clocks = w.clocks.modify socket g := by
  have hmap (l : List Socket) (i : ℕ) :
      (l.modify i f).map Socket.clockwork = (l.map Socket.clockwork).modify i g := by
    induction l generalizing i with
    | nil => simp
    | cons s l ih => cases i <;> simp [h, ih]
  exact hmap w.sockets socket

def asksDiff (password : JsVal) : Bool := (parseDiffOverride (password.filter Json.truthy)).isSome

section Turns
variable (rt : Runtime)

theorem overrideDifficulty_leads (socket : ℕ) (password : JsVal) (w : World) :
    ∃ os w', (∀ o ∈ os, o.plain) ∧ Idle w w' ∧
      w'.clocks = w.clocks.modify socket (Clockwork.override (asksDiff password)) ∧
      Leads (overrideDifficulty socket password) w os (.pure ()) w' := by
  unfold overrideDifficulty asksDiff
  cases parseDiffOverride (password.filter Json.truthy) with
  | none =>
    have hsame : Clockwork.override false = id := rfl
    exact ⟨[], w, by simp, Idle.refl w, by simp [hsame], .refl _ _⟩
  | some diff =>
    have hleads : ∃ w', Leads (sendDifficulty socket diff) (w.updateSocket socket fun s =>
        { s with diffOverridden := true }) [.setDifficulty socket diff] (.pure ()) w' :=
      ⟨_, .read (.write (.emit (.read (.write (.refl _ _)))))⟩
    obtain ⟨w', hw'⟩ := hleads
    obtain ⟨hcalm, hplain, -⟩ := hw'.only (S := Calm) (only_sendDifficulty _ (fun _ => id) socket diff)
    have hidle : Idle w (w.updateSocket socket fun s => { s with diffOverridden := true }) :=
      idle_updateSocket w socket fun _ => rfl
    exact ⟨_, w', hplain, hidle.trans hcalm.1,
      hcalm.2.trans (clocks_updateSocket w socket fun _ => rfl), Leads.modify hw'⟩

theorem calm_serial (w : World) : Calm w { w with serial := w.serial + 1 } :=
  .of_same rfl rfl rfl rfl rfl

theorem receive_leads_none (hs : w.sockets[socket]? = none) (method : Method) (request : Request) :
    Leads (receive rt socket method request) w [] (.pure ()) { w with serial := w.serial + 1 } := by
  apply Leads.get
  apply Leads.modify
  simp only [hs]
  exact .refl _ _

variable {s : Socket} {request : Request} {e : JsError} {a : Attempt}

theorem startTimer_idle (socket : ℕ) (w : World) :
    Idle w { w.updateSocket socket (Socket.startVardiff w.nextTimer) with
      nextTimer := w.nextTimer + 1 } := by
  have hcore : ∀ s : Socket, (s.startVardiff w.nextTimer).core = s.core := by
    intro s
    unfold Socket.startVardiff
    split_ifs <;> rfl
  exact (idle_updateSocket w socket hcore).trans (.of_same rfl rfl rfl rfl rfl)

theorem startTimer_clocks (socket : ℕ) (w : World) :
    (w.updateSocket socket (Socket.startVardiff w.nextTimer)).clocks =
      w.clocks.modify socket (Clockwork.start w.nextTimer) := by
  apply clocks_updateSocket
  intro s
  by_cases h : s.diffOverridden = true <;>
    simp [Socket.startVardiff, Clockwork.start, Socket.clockwork, h]

theorem enter_leads (server : Server) (socket : ℕ) (name : Key) (id : JsVal) (w : World) :
    ∃ os w' diff jobId timer, (∀ o ∈ os, o.plain) ∧
      Idle (w.enroll server name (authorizedMiner server socket diff jobId)) w' ∧
      w'.clocks = w.clocks.modify socket (Clockwork.start timer) ∧
      Leads (enter rt server socket name id) w os
        (followUp rt server socket (w.registry server).entries.length name) w' := by
  have hplain : ∀ o ∈ [Output.reply socket id .accepted], o.plain := by
    simp [Output.plain]
  cases server with
  | pool =>
    exact ⟨_, _, (w.sockets[socket]?.map Socket.socketDiff).getD startDiff, .undefined, _, hplain,
      startTimer_idle socket _, startTimer_clocks socket _, .read (.read (.write (.emit (.read (.write
        (.read (.write (.refl _ _))))))))⟩
  | solo =>
    have hdrawn : Idle (w.enroll .solo name (authorizedMiner .solo socket
        ((w.sockets[socket]?.map Socket.socketDiff).getD startDiff)
        (.str (Hex.encode (fit 4 (w.entropy w.drawn))))))
        (({ w with drawn := w.drawn + 1 } : World).enroll .solo name (authorizedMiner .solo socket
          ((w.sockets[socket]?.map Socket.socketDiff).getD startDiff)
          (.str (Hex.encode (fit 4 (w.entropy w.drawn)))))) := .of_same rfl rfl rfl rfl rfl
    exact ⟨_, _, _, _, _, hplain, hdrawn.trans (startTimer_idle socket _), startTimer_clocks socket _,
      ((randomHex_leads 4 w).bind _).trans (.read (.read (.write (.emit (.read (.write (.refl _ _)))))))⟩

theorem Request.readable {v : JsVal} {i : ℕ} (h : request.param i = .ok v) (j : ℕ) :
    ∃ v', request.param j = .ok v' := by
  unfold Request.param at h ⊢
  split at h
  · cases h
  · cases h
  all_goals exact ⟨_, rfl⟩

/-- What a submit makes of the entries of its server. -/
def Registry.afterSubmit (r : Registry) (server : Server) (serial : ℕ) (request : Request)
    (workerName : Key) : Registry :=
  match r.locate server serial request workerName with
  | none => r
  | some (miner, r) =>
    match request.shareFields rt serial with
    | .error _ => r
    | .ok fields =>
      { r with entries := r.entries.modify miner (Miner.remember fields.jobId fields.shareKey) }

theorem screened_solo_attempt (hserver : s.server = .solo)
    (h : (screened rt socket s request w).2 = .attempt a) :
    ∃ miner r fields t m coinbase1 coinbase2,
      w.soloMiners.locate .solo w.serial request s.workerName = some (miner, r) ∧
      request.shareFields rt w.serial = .ok fields ∧ w.blockTemplate = some t ∧
      r.entries[miner]? = some m ∧ m.jobId = fields.jobId ∧
      m.coinbase = some (coinbase1, coinbase2) ∧
      a = ⟨.solo, socket, request.id, miner, fields, t, t.work coinbase1 coinbase2, s.extraNonce1⟩ := by
  have htemplate := (screened_kept rt socket s request w).1
  simp only [screened, screen, hserver] at h htemplate
  rw [Admission.verdict_attempt_iff] at h
  obtain ⟨miner, fields, hadm, hjudge⟩ := h
  obtain ⟨r, hlocate, hfields, -⟩ := (admission_admitted_iff rt).mp hadm
  obtain ⟨t, m', coinbase1, coinbase2, ht, hm', hjob, hcoinbase, rfl⟩ := judge_solo_iff.mp hjudge
  have hentries : (admission rt .solo w.serial request s.workerName
      (({ w with serial := w.serial + 1 } : World).stamp socket)).1.soloMiners.entries =
      r.entries.modify miner (Miner.remember fields.jobId fields.shareKey) := by
    unfold admission
    simp only [hlocate, hfields]
    rfl
  rw [hentries, List.getElem?_modify_eq] at hm'
  obtain ⟨m, hm, rfl⟩ := Option.map_eq_some_iff.mp hm'
  exact ⟨miner, r, fields, t, m, coinbase1, coinbase2, hlocate, hfields, htemplate ▸ ht, hm, hjob,
    hcoinbase, rfl⟩

theorem screened_fst (socket : ℕ) (s : Socket) (request : Request) (w : World) :
    Calm (w.updateRegistry s.server fun r => r.afterSubmit rt s.server w.serial request s.workerName)
      (screened rt socket s request w).1 := by
  have hstamp : ∀ f : Registry → Registry, Calm (w.updateRegistry s.server f)
      ((({ w with serial := w.serial + 1 } : World).stamp socket).updateRegistry s.server f) := by
    intro f
    obtain ⟨hidle, hclocks⟩ : Calm w (w.stamp socket) :=
      calm_updateSocket w socket (fun _ => rfl) fun _ => rfl
    cases s.server <;> exact ⟨.of_same rfl hidle.sockets rfl rfl rfl, hclocks⟩
  have hregistry : (({ w with serial := w.serial + 1 } : World).stamp socket).registry s.server =
      w.registry s.server := by
    cases s.server <;> rfl
  unfold screened screen admission
  rw [hregistry, World.updateRegistry_eq]
  unfold Registry.afterSubmit
  cases hlocate : (w.registry s.server).locate s.server w.serial request s.workerName with
  | none =>
    have hsame := hstamp fun _ => w.registry s.server
    rw [← hregistry, World.updateRegistry_self] at hsame
    exact hsame
  | some found =>
    obtain ⟨miner, r⟩ := found
    cases hfields : request.shareFields rt w.serial with
    | error e => exact hstamp fun _ => r
    | ok fields =>
      have hmodify := hstamp fun _ =>
        { r with entries := r.entries.modify miner (Miner.remember fields.jobId fields.shareKey) }
      revert hmodify
      cases s.server <;> exact id

/-- A share whose header is rebuilt is counted at once; only bookkeeping follows. -/
theorem verify_leads {header : List UInt8} (hheader : a.header rt = .ok header) (w : World) :
    ∃ t, Leads (verify rt a) w [.credited (a.share header), .reply a.socket a.id .accepted] t
        (w.updateMiner a.server a.miner Miner.credit) ∧ ∀ w', Only Calm Output.plain t w' := by
  have hreply : ∀ (e : JsError) w', Only Calm Output.plain (reply a.socket a.id .verificationError) w' :=
    fun _ w' => only_reply w' (fun _ => id) _ _ _
  unfold verify
  cases hserver : a.server with
  | pool =>
    refine ⟨((poolBooks rt a) >>= fun _ => poolBlock rt a header).catching fun _ =>
      reply a.socket a.id .verificationError, ?_, fun w' => ?_⟩
    · apply Leads.andThen
      apply Leads.ofExcept hheader
      simp only [← hserver]
      exact .read (.write (.emit (.emit (.refl _ _))))
    · exact ((only_poolBooks rt w' a).bind fun _ w'' => only_poolBlock rt w'' a header).catching hreply
  | solo =>
    refine ⟨((soloBlock rt a header) >>= fun _ => soloBooks rt a).catching fun _ =>
      reply a.socket a.id .verificationError, ?_, fun w' => ?_⟩
    · apply Leads.andThen
      apply Leads.ofExcept hheader
      simp only [← hserver]
      exact .read (.write (.emit (.emit (.refl _ _))))
    · exact ((only_soloBlock rt w' a header).bind fun _ w'' => only_soloBooks rt w'' a).catching hreply

theorem verify_leads_error (hheader : a.header rt = .error e) (w : World) :
    Leads (verify rt a) w [.reply a.socket a.id .verificationError] (.pure ()) w := by
  unfold verify
  cases a.server with
  | pool =>
    apply ((Leads.ofExcept_error hheader).andThen _).trans
    exact .emit (.refl _ _)
  | solo =>
    apply ((Leads.ofExcept_error hheader).andThen _).trans
    exact .emit (.refl _ _)

/-- A refresh keeps what idle writes and plain outputs keep, if the new template and the jobs of the
solo miners do. -/
theorem refreshBlockTemplate_keeps {I : World → List Output → Prop} {G : World → World → Prop}
    {F : World → Prop} [Std.Refl G] [IsTrans World G]
    (hidle : ∀ w w' l, I w l → Idle w w' → I w' l ∧ G w w')
    (hplain : ∀ w l (o : Output), I w l → o.plain → I w (l ++ [o]))
    (hstable : ∀ w w', G w w' → F w → F w')
    (hnew : ∀ w l t, Built rt t → I w l → I { w with blockTemplate := some t } (l ++ [.refreshed t]) ∧
      G w { w with blockTemplate := some t } ∧ F { w with blockTemplate := some t })
    (hsolo : ∀ template rounds w₀ w l, I w l → G w₀ w → F w →
      Keeps I G (Holding I G F) (refreshSolo rt template rounds 0) w₀ w l) (rounds : ℕ) {w₀ : World}
    {l : List Output} (hI : I w l) (hG : G w₀ w) :
    Keeps I G (Holding I G fun _ => True) (refreshBlockTemplate rt rounds) w₀ w l := by
  have htrue : ∀ w w' : World, G w w' → True → True := fun _ _ _ => id
  apply Keeps.catching
  · apply Keeps.seq
    · exact (only_call w .getBlockTemplate).keeps hidle hplain htrue hI hG trivial
    intro answer w₁ w₂ l₁ hI hG _
    split
    · apply Keeps.seq
      · exact (only_randomHex w₂ 4).keeps hidle hplain htrue hI hG trivial
      intro jobId w₃ w₄ l₂ hI hG _
      change Keeps _ _ _ (Async.ofExcept _ >>= _) w₃ w₄ l₂
      cases ht : buildTemplate rt jobId w₄.now _ with
      | error e => exact ⟨hI, hG, trivial⟩
      | ok t =>
        obtain ⟨hI', hG', hF⟩ := hnew w₄ l₂ t (built_of_buildTemplate ht) hI
        change Keeps _ _ _ (sendWorks _ >>= _) w₃ { w₄ with blockTemplate := some t }
          (l₂ ++ [.refreshed t])
        apply Keeps.weaken (F := F) _ fun _ _ => trivial
        apply Keeps.seq
        · exact (only_sendWorks _ (fun _ => id) _).keeps hidle hplain hstable hI' (trans_of G hG hG') hF
        · exact fun _ _ _ _ hI hG hF => hsolo _ rounds _ _ _ hI hG hF
    · exact ⟨hI, hG, trivial⟩
  · exact fun _ _ _ _ hI hG _ => ⟨hI, hG, trivial⟩

/-- What an input other than a refresh does before it first waits, and what is left of it. An
authorization that can be read gives the connection a name, may announce a difficulty, enters a
worker and starts an interval. A submit may count a share and changes the entries of its server as
`Registry.afterSubmit` says. -/
inductive FirstTurn (w : World) : Input → List Output → PoolM Unit → World → Prop
  | idle {input : Input} {t : PoolM Unit} {w' : World} :
    (∀ socket request v, input = .message socket .authorize request →
      w.sockets[socket]?.isSome → request.param 0 ≠ .ok v) → Calm w w' →
    Only Calm Output.plain t w' → FirstTurn w input [] t w'
  | connected (server : Server) : FirstTurn w (.connect server) [] (.pure ()) (w.connected server)
  | closed {socket : ℕ} {s : Socket} : w.sockets[socket]? = some s →
    FirstTurn w (.close socket) [] (.pure ()) (w.closed socket s)
  | authorized {socket diff timer : ℕ} {s : Socket} {request : Request} {v password : JsVal}
    {os : List Output} {jobId : Key} {w₁ w₂ : World} :
    w.sockets[socket]? = some s → request.param 0 = .ok v → request.param 1 = .ok password →
    (∀ o ∈ os, o.plain) → Idle (w.rename socket (keyOf w.serial 0 v)) w₁ →
    Idle (w₁.enroll s.server (keyOf w.serial 0 v) (authorizedMiner s.server socket diff jobId)) w₂ →
    w₂.clocks = w.clocks.modify socket (Clockwork.authorize (asksDiff password) timer) →
    FirstTurn w (.message socket .authorize request) os
      ((followUp rt s.server socket (w₁.registry s.server).entries.length
        (keyOf w.serial 0 v)).catching fun _ => pure ()) w₂
  | submitted {socket : ℕ} {s : Socket} {request : Request} {os : List Output} {t : PoolM Unit}
    {w' : World} : w.sockets[socket]? = some s → Only Calm Output.plain t w' →
    Calm (w.updateRegistry s.server fun r => r.afterSubmit rt s.server w.serial request s.workerName) w' →
    ((∀ o ∈ os, o.plain) ∨ ∃ a header, (screened rt socket s request w).2 = .attempt a ∧
      a.header rt = .ok header ∧
      os = [.credited (a.share header), .reply a.socket a.id .accepted]) →
    FirstTurn w (.message socket .submit request) os t w'

theorem authorize_turn (hs : w.sockets[socket]? = some s) (request : Request) :
    ∃ os t w', Leads (receive rt socket .authorize request) w os t w' ∧
      FirstTurn rt w (.message socket .authorize request) os t w' := by
  cases hname : request.param 0 with
  | error e =>
    have herror : Leads (authorize rt w.serial socket s request) { w with serial := w.serial + 1 } []
        (.throw e) { w with serial := w.serial + 1 } := Leads.ofExcept_error hname
    refine ⟨[], .pure (), _, ?_, .idle ?_ (calm_serial w) trivial⟩
    · apply Leads.get
      apply Leads.modify
      simp only [hs]
      exact herror.andThen _
    · rintro _ _ v ⟨⟩ - hv
      rw [hname] at hv
      cases hv
  | ok v =>
    obtain ⟨password, hpassword⟩ := Request.readable hname 1
    obtain ⟨os, w₁, hplain, hidle, hclocks, hoverride⟩ := overrideDifficulty_leads socket password
      (({ w with serial := w.serial + 1 } : World).rename socket (keyOf w.serial 0 v))
    have hserial : Idle (w.rename socket (keyOf w.serial 0 v))
        (({ w with serial := w.serial + 1 } : World).rename socket (keyOf w.serial 0 v)) :=
      .of_same rfl rfl rfl rfl rfl
    have hrename : (({ w with serial := w.serial + 1 } : World).rename socket
        (keyOf w.serial 0 v)).clocks = w.clocks := by
      apply map_modify_eq
      exact fun _ => rfl
    obtain ⟨os', w₂, diff, jobId, timer, hplain', hidle', hclocks', hleads⟩ :=
      enter_leads rt s.server socket (keyOf w.serial 0 v) request.id w₁
    have hturned : w₂.clocks =
        w.clocks.modify socket (Clockwork.authorize (asksDiff password) timer) := by
      rw [hclocks', hclocks, hrename, List.modify_modify_eq]
      rfl
    refine ⟨os ++ os', _, w₂, ?_, .authorized hs hname hpassword ?_
      (hserial.trans hidle) hidle' hturned⟩
    · apply Leads.get
      apply Leads.modify
      simp only [hs]
      apply Leads.andThen
      apply Leads.ofExcept hname
      apply Leads.modify
      apply Leads.ofExcept hpassword
      exact (hoverride.bind _).trans hleads
    · intro o ho
      exact (List.mem_append.mp ho).elim (hplain o) (hplain' o)

theorem submit_turn (hs : w.sockets[socket]? = some s) (request : Request) :
    ∃ os t w', Leads (receive rt socket .submit request) w os t w' ∧
      FirstTurn rt w (.message socket .submit request) os t w' := by
  have hstate := screened_fst rt socket s request w
  have hleads := receive_submit_leads rt hs request
  change Leads _ w ((screened rt socket s request w).2.replies socket request.id)
    ((screened rt socket s request w).2.rest rt) (screened rt socket s request w).1 at hleads
  cases hv : (screened rt socket s request w).2 with
  | unreadable =>
    rw [hv] at hleads
    exact ⟨_, _, _, hleads, .submitted hs trivial hstate (.inl (by simp [Verdict.replies]))⟩
  | refused body =>
    rw [hv] at hleads
    exact ⟨_, _, _, hleads,
      .submitted hs trivial hstate (.inl (by simp [Verdict.replies, Output.plain]))⟩
  | attempt a =>
    rw [hv] at hleads
    cases hheader : a.header rt with
    | error e =>
      have herror := (verify_leads_error rt hheader (screened rt socket s request w).1).catching
        fun _ => pure ()
      refine ⟨_, _, _, hleads.trans herror, .submitted hs trivial hstate (.inl ?_)⟩
      simp [Verdict.replies, Output.plain]
    | ok header =>
      obtain ⟨t, hverify, honly⟩ := verify_leads rt hheader (screened rt socket s request w).1
      have hcount := hverify.catching fun _ => pure ()
      exact ⟨_, _, _, hleads.trans hcount, .submitted hs ((honly _).catching fun _ _ => trivial)
        (hstate.trans (calm_updateMiner _ _ _ fun _ => rfl)) (.inr ⟨a, header, hv, hheader, rfl⟩)⟩

theorem start_turn (w : World) {input : Input} (h : ∀ rounds, input ≠ .refresh rounds) :
    ∃ os t w', Leads (start rt input) w os t w' ∧ FirstTurn rt w input os t w' := by
  cases input with
  | connect server => exact ⟨_, _, _, connect_leads server w, .connected server⟩
  | close socket =>
    cases hs : w.sockets[socket]? with
    | none => exact ⟨_, _, _, close_leads_none hs, .idle (by simp) (Calm.refl w) trivial⟩
    | some s => exact ⟨_, _, _, close_leads hs, .closed hs⟩
  | refresh rounds => exact absurd rfl (h rounds)
  | vardiff socket timer =>
    exact ⟨_, _, _, .refl _ _,
      .idle (by simp) (Calm.refl w) (only_vardiff rt w (fun _ => id) socket timer)⟩
  | clock now =>
    exact ⟨_, _, _, .refl _ _,
      .idle (by simp) (Calm.refl w) (Async.only_modify (.of_same rfl rfl rfl rfl rfl))⟩
  | message socket method request =>
    cases hs : w.sockets[socket]? with
    | none =>
      refine ⟨_, _, _, receive_leads_none rt hs method request, .idle ?_ (calm_serial w) trivial⟩
      rintro _ _ v ⟨⟩ hsome
      simp [hs] at hsome
    | some s =>
      have hreceive : Leads (receive rt socket method request) w [] _ { w with serial := w.serial + 1 } :=
        Leads.get (Leads.modify (.refl _ _))
      simp only [hs] at hreceive
      cases method with
      | configure =>
        exact ⟨_, _, _, hreceive, .idle (by simp) (calm_serial w)
          ((only_reply _ (fun _ => id) _ _ _).catching fun _ _ => trivial)⟩
      | subscribe =>
        exact ⟨_, _, _, hreceive, .idle (by simp) (calm_serial w)
          ((only_subscribe _ (fun _ => id) _ _ _).catching fun _ _ => trivial)⟩
      | authorize => exact authorize_turn rt hs request
      | submit => exact submit_turn rt hs request

section FirstTurn
variable {rt} {input : Input} {os : List Output} {t : PoolM Unit} {w' : World}

theorem FirstTurn.rest {S : World → World → Prop} [Permits Still S] {U : Output → Prop}
    (h : FirstTurn rt w input os t w') (hU : ∀ o : Output, o.uncredited → U o) : Only S U t w' := by
  have hcalm : ∀ {t : PoolM Unit}, Only Calm Output.plain t w' → Only S U t w' :=
    fun honly => honly.mono (fun _ _ => Calm.permitted) fun o ho => hU o ho.uncredited
  cases h with
  | idle _ _ honly => exact hcalm honly
  | connected server => exact trivial
  | closed _ => exact trivial
  | authorized => exact (only_followUp rt w' hU _ _ _ _).catching fun _ _ => trivial
  | submitted _ honly => exact hcalm honly

theorem FirstTurn.blockTemplate (h : FirstTurn rt w input os t w') : w'.blockTemplate = w.blockTemplate := by
  cases h with
  | idle _ hcalm => exact hcalm.1.blockTemplate
  | connected server => rfl
  | closed => exact blockTemplate_closed _ _ _
  | @authorized _ _ _ s _ _ _ _ _ w₁ _ _ _ _ _ hidle hidle' =>
    have henroll : ∀ name m, (w₁.enroll s.server name m).blockTemplate = w₁.blockTemplate := by
      cases s.server <;> exact fun _ _ => rfl
    exact hidle'.blockTemplate.trans ((henroll _ _).trans hidle.blockTemplate)
  | submitted _ _ hcalm => exact hcalm.1.blockTemplate.trans (w.blockTemplate_updateRegistry _ _)

end FirstTurn

end Turns

end Tarcoin.Pool
