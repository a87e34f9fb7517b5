import Tarcoin.Pool.Turns

/-! An authorization starts an interval unless the difficulty is overridden, and keeps its handle
in place of the last one; closing the connection clears the interval whose handle is kept. -/
namespace Tarcoin.Pool
open Async (Only Leads)

namespace Clockwork

def close (c : Clockwork) : Clockwork :=
  { c with destroyed := true, timers := c.timers.filter fun t => some t ≠ c.vardiffTimer }

/-- At most one interval is running, the one whose handle is kept, and none if the connection is
closed or its difficulty overridden. -/
structure Disciplined (c : Clockwork) : Prop where
  length_le : c.timers.length ≤ 1
  kept : ∀ t ∈ c.timers, c.vardiffTimer = some t
  closed : c.destroyed = true → c.timers = []
  overridden : c.diffOverridden = true → c.timers = []

variable {c : Clockwork}

theorem Disciplined.close (h : c.Disciplined) : c.close.Disciplined := by
  have hnone : c.close.timers = [] := by
    apply List.filter_eq_nil_iff.mpr
    intro t ht
    simp [h.kept t ht]
  refine ⟨?_, ?_, fun _ => hnone, fun _ => hnone⟩
  · rw [hnone]
    exact Nat.zero_le 1
  · intro t ht
    rw [hnone] at ht
    nomatch ht

theorem Disciplined.authorize (h : c.Disciplined) {asked : Bool} {timer : ℕ} (hnone : c.timers = [])
    (hopen : c.destroyed = true → c.diffOverridden = true ∨ asked = true) :
    (c.authorize asked timer).Disciplined := by
  unfold Clockwork.authorize Clockwork.start
  split_ifs with hoverridden
  · refine ⟨?_, ?_, fun _ => hnone, fun _ => hnone⟩
    · exact h.length_le
    · exact h.kept
  · have hfalse : asked = false ∧ c.diffOverridden = false := by
      simpa [override] using hoverridden
    refine ⟨?_, ?_, ?_, fun h => absurd h hoverridden⟩
    · simp [override, hnone]
    · intro t ht
      obtain rfl : t = timer := by simpa [override, hnone] using ht
      rfl
    · intro hdestroyed
      obtain h' | h' := hopen hdestroyed
      · rw [hfalse.2] at h'
        nomatch h'
      · rw [hfalse.1] at h'
        nomatch h'

theorem diffOverridden_authorize (asked : Bool) (timer : ℕ) :
    (c.authorize asked timer).diffOverridden = (asked || c.diffOverridden) := by
  unfold Clockwork.authorize Clockwork.start
  split_ifs <;> rfl

end Clockwork

/-- An authorization comes on a connection that has no interval, and on one that is closed it starts
none. -/
def Punctual (w : World) (_ : List Output) : Input → Prop
  | .message socket .authorize request => ∀ c password, w.clocks[socket]? = some c →
      request.param 1 = .ok password → c.timers = [] ∧
        (c.destroyed = true → c.diffOverridden = true ∨ asksDiff password = true)
  | _ => True

section Run
variable (rt : Runtime) (w₀ : World)

/-- An authorization of the connection has asked for a difficulty. -/
def Overrode (socket : ℕ) (moves : List PoolMove) : Prop :=
  ∃ before request after password,
    moves = before ++ .fire (.message socket .authorize request) :: after ∧
    (runPool rt w₀ before).world.sockets[socket]?.isSome ∧ request.param 1 = .ok password ∧
    asksDiff password = true

def Timed (moves : List PoolMove) (w : World) (_ : List Output) : Prop :=
  (∀ c ∈ w.clocks, c.Disciplined) ∧
    ∀ socket, Overrode rt w₀ socket moves → ∃ c, w.clocks[socket]? = some c ∧ c.diffOverridden = true

variable {rt w₀} {moves : List PoolMove} {socket : ℕ} {w w' : World} {l l' : List Output}

theorem Timed.of_clocks (h : Timed rt w₀ moves w l) (hclocks : w'.clocks = w.clocks) :
    Timed rt w₀ moves w' l' := by
  simpa only [Timed, hclocks] using h

theorem overrode_concat {m : PoolMove} :
    Overrode rt w₀ socket (moves ++ [m]) ↔ Overrode rt w₀ socket moves ∨
      ∃ request password, m = .fire (.message socket .authorize request) ∧
        (runPool rt w₀ moves).world.sockets[socket]?.isSome ∧ request.param 1 = .ok password ∧
        asksDiff password = true := by
  constructor
  · intro ⟨before, request, after, password, heq, hrest⟩
    obtain ⟨rfl, rfl⟩ | ⟨after, rfl⟩ := Async.concat_eq_split heq
    · exact .inr ⟨request, password, rfl, hrest⟩
    · exact .inl ⟨before, request, after, password, rfl, hrest⟩
  · intro h
    obtain ⟨before, request, after, password, rfl, hrest⟩ | ⟨request, password, rfl, hrest⟩ := h
    · exact ⟨before, request, after ++ [m], password, by simp, hrest⟩
    · exact ⟨moves, request, [], password, rfl, hrest⟩

theorem Timed.extend (h : Timed rt w₀ moves w l) {m : PoolMove}
    (hm : ∀ socket request password, m = .fire (.message socket .authorize request) →
      (runPool rt w₀ moves).world.sockets[socket]?.isSome → request.param 1 ≠ .ok password) :
    Timed rt w₀ (moves ++ [m]) w l := by
  refine ⟨h.1, fun socket hoverrode => ?_⟩
  obtain hpast | ⟨request, password, hnew, hsome, hpassword, -⟩ := overrode_concat.mp hoverrode
  · exact h.2 socket hpast
  · exact absurd hpassword (hm socket request password hnew hsome)

theorem forall_mem_modify {α : Type} {P : α → Prop} {l : List α} {i : ℕ} {f : α → α}
    (h : ∀ a ∈ l, P a) (hi : ∀ a, l[i]? = some a → P (f a)) : ∀ a ∈ l.modify i f, P a := by
  intro a ha
  obtain ⟨j, hj⟩ := List.mem_iff_getElem?.mp ha
  rw [List.getElem?_modify] at hj
  obtain ⟨b, hb, rfl⟩ := Option.map_eq_some_iff.mp hj
  split_ifs with hij
  · exact hi b (hij ▸ hb)
  · exact h b (List.mem_of_getElem? hb)

theorem overridden_modify {clocks : List Clockwork} {f : Clockwork → Clockwork} (i : ℕ)
    (hf : ∀ c, c.diffOverridden = true → (f c).diffOverridden = true)
    (h : ∃ c, clocks[socket]? = some c ∧ c.diffOverridden = true) :
    ∃ c, (clocks.modify i f)[socket]? = some c ∧ c.diffOverridden = true := by
  obtain ⟨c, hc, hoverridden⟩ := h
  by_cases hi : i = socket
  · exact ⟨f c, by simp [hi, hc], hf c hoverridden⟩
  · exact ⟨c, by simp [hi, hc], hoverridden⟩

theorem timed_connect (h : Timed rt w₀ moves w l) (server : Server) :
    Timed rt w₀ moves (w.connected server) l' := by
  have hclocks : (w.connected server).clocks = w.clocks ++ [⟨false, false, none, []⟩] :=
    List.map_append
  simp only [Timed, hclocks]
  constructor
  · intro c hc
    rcases List.mem_append.mp hc with hc | hc
    · exact h.1 c hc
    · obtain rfl := List.mem_singleton.mp hc
      exact ⟨Nat.zero_le 1, nofun, fun _ => rfl, fun _ => rfl⟩
  · intro socket hoverrode
    obtain ⟨c, hc, hoverridden⟩ := h.2 socket hoverrode
    have hlt := (List.getElem?_eq_some_iff.mp hc).1
    exact ⟨c, by rw [List.getElem?_append_left hlt, hc], hoverridden⟩

theorem timed_close (h : Timed rt w₀ moves w l) (socket : ℕ) (s : Socket) :
    Timed rt w₀ moves (w.closed socket s) l' := by
  have hclocks : (w.closed socket s).clocks = w.clocks.modify socket Clockwork.close := by
    rw [World.clocks, sockets_closed]
    exact clocks_updateSocket w socket fun _ => rfl
  simp only [Timed, hclocks]
  constructor
  · exact forall_mem_modify h.1 fun c hc => (h.1 c (List.mem_of_getElem? hc)).close
  · exact fun _ hoverrode => overridden_modify socket (fun _ => id) (h.2 _ hoverrode)

theorem timed_authorize (h : Timed rt w₀ moves w l) {request : Request} {password : JsVal}
    {timer : ℕ} (hsocket : socket < w.clocks.length) (hpassword : request.param 1 = .ok password)
    (hpunctual : Punctual w l (.message socket .authorize request))
    (hclocks : w'.clocks = w.clocks.modify socket (Clockwork.authorize (asksDiff password) timer)) :
    Timed rt w₀ (moves ++ [.fire (.message socket .authorize request)]) w' l' := by
  simp only [Timed, hclocks]
  constructor
  · apply forall_mem_modify h.1
    intro c hc
    obtain ⟨hnone, hopen⟩ := hpunctual c password hc hpassword
    exact (h.1 c (List.mem_of_getElem? hc)).authorize hnone hopen
  · intro i hoverrode
    obtain hpast | ⟨_, password', hm, -, hpassword', hasks⟩ := overrode_concat.mp hoverrode
    · apply overridden_modify socket _ (h.2 i hpast)
      intro c hc
      simp [Clockwork.diffOverridden_authorize, hc]
    · cases hm
      rw [hpassword] at hpassword'
      cases hpassword'
      refine ⟨(w.clocks[socket]).authorize (asksDiff password) timer, ?_, ?_⟩
      · rw [List.getElem?_modify_eq, List.getElem?_eq_getElem hsocket]
        rfl
      · simp [Clockwork.diffOverridden_authorize, hasks]

theorem FirstTurn.timed {input : Input} {os : List Output} {t : PoolM Unit}
    (hturn : FirstTurn rt w input os t w') (hw : (runPool rt w₀ moves).world = w)
    (h : Timed rt w₀ moves w l) (hpunctual : Punctual w l input) :
    Timed rt w₀ (moves ++ [.fire input]) w' l' := by
  have hpast : (∀ socket request v, input = .message socket .authorize request →
      w.sockets[socket]?.isSome → request.param 0 ≠ .ok v) → Timed rt w₀ (moves ++ [.fire input]) w l := by
    refine fun hunread => h.extend ?_
    rintro socket request password ⟨⟩ hsome hpassword
    obtain ⟨v, hv⟩ := Request.readable hpassword 0
    exact hunread socket request v rfl (hw ▸ hsome) hv
  cases hturn with
  | idle hunread hcalm => exact (hpast hunread).of_clocks hcalm.2
  | connected server => exact timed_connect (hpast (by simp)) server
  | @closed socket s _ => exact timed_close (hpast (by simp)) socket s
  | authorized hs _ hpassword _ _ _ hclocks =>
    have hsocket := (List.getElem?_eq_some_iff.mp hs).1
    exact timed_authorize h (by rwa [World.clocks, List.length_map]) hpassword hpunctual hclocks
  | @submitted _ s _ _ _ _ _ _ hcalm =>
    exact (hpast (by simp)).of_clocks (hcalm.2.trans (sameClocks_updateRegistry w s.server _))

theorem timed_fire (h : Timed rt w₀ moves (runPool rt w₀ moves).world l) {input : Input}
    (hpunctual : Punctual (runPool rt w₀ moves).world l input) :
    ∃ os t w', Leads (start rt input) (runPool rt w₀ moves).world os t w' ∧
      Only SameClocks (fun _ => True) t w' ∧ Timed rt w₀ (moves ++ [.fire input]) w' (l ++ os) := by
  by_cases hrefresh : ∃ rounds, input = .refresh rounds
  · obtain ⟨rounds, rfl⟩ := hrefresh
    refine ⟨[], _, _, .refl _ _, ?_, (h.extend (by simp)).of_clocks rfl⟩
    apply only_refreshBlockTemplate rt _ fun _ _ => trivial
    exact fun _ _ _ => rfl
  · push Not at hrefresh
    obtain ⟨os, t, w', hleads, hturn⟩ := start_turn rt (runPool rt w₀ moves).world hrefresh
    exact ⟨os, t, w', hleads, hturn.rest fun _ _ => trivial, hturn.timed rfl h hpunctual⟩

theorem timed_run {redis : Bool} {entropy : ℕ → List UInt8} {feeWallet : Text}
    (hpunctual : Async.LegalMoves (start rt) Punctual (.initial (.initial redis entropy feeWallet)) moves) :
    Timed rt (.initial redis entropy feeWallet) moves
      (runPool rt (.initial redis entropy feeWallet) moves).world
      (Async.outputs (runPool rt (.initial redis entropy feeWallet) moves).log) := by
  refine Async.run_history (S := SameClocks) (U := fun _ => True) ?_ ?_ ?_ ?_ ?_ hpunctual
  · exact fun _ _ _ _ h hsame => h.of_clocks hsame
  · exact fun _ _ _ _ h _ => h.of_clocks rfl
  · exact fun _ _ _ _ _ h => h.extend fun _ _ _ heq => nomatch heq
  · exact fun _ _ h hlegal => timed_fire h hlegal
  · refine ⟨nofun, fun socket hoverrode => ?_⟩
    obtain ⟨before, request, after, password, hnil, -⟩ := hoverrode
    simp at hnil

theorem vardiff_idle {sys : Process} {timer : ℕ} (hidle : ∀ s, sys.world.sockets[socket]? = some s →
    s.timers = []) : (Async.step (start rt) sys (.fire (.vardiff socket timer))).world = sys.world := by
  have hpure : Leads (start rt (.vardiff socket timer)) sys.world [] (.pure ()) sys.world := by
    apply Leads.get
    cases hs : sys.world.sockets[socket]? with
    | none => exact .refl _ _
    | some s =>
      simp only [hidle s hs, List.not_mem_nil, not_false_eq_true, true_or, if_true]
      exact .refl _ _
  rw [Async.step, Async.fireStep, hpure.advance]
  rfl

end Run

/-- In every run in which authorizations are punctual: at most one interval of a connection is
running, none after it was closed, and once a password has overridden the difficulty no tick changes
it. -/
theorem vardiff_disciplined (rt : Runtime) (redis : Bool) (entropy : ℕ → List UInt8) (feeWallet : Text)
    (moves : List PoolMove)
    (hpunctual : Async.LegalMoves (start rt) Punctual (.initial (.initial redis entropy feeWallet)) moves) :
    let sys := runPool rt (.initial redis entropy feeWallet) moves
    (∀ s ∈ sys.world.sockets, s.timers.length ≤ 1 ∧ (s.destroyed = true → s.timers = [])) ∧
      ∀ socket, Overrode rt (.initial redis entropy feeWallet) socket moves → ∀ timer,
        (Async.step (start rt) sys (.fire (.vardiff socket timer))).world.sockets[socket]?.map
            Socket.socketDiff =
          sys.world.sockets[socket]?.map Socket.socketDiff := by
  obtain ⟨hdisciplined, hoverridden⟩ := timed_run hpunctual
  refine ⟨fun s hs => ?_, fun socket hoverrode timer => ?_⟩
  · have h := hdisciplined _ (List.mem_map_of_mem hs)
    exact ⟨h.length_le, h.closed⟩
  · obtain ⟨c, hc, hflag⟩ := hoverridden socket hoverrode
    rw [vardiff_idle]
    intro s hs
    have hsocket : s.clockwork = c := by simpa [World.clocks, hs] using hc
    have h := hdisciplined c (List.mem_of_getElem? hc)
    rw [← hsocket] at h hflag
    exact h.overridden hflag

/-- The rule of the interval in exact arithmetic, rounded. -/
def Runtime.scaling : Runtime :=
  { Runtime.constant with
    scaleDiff := fun diff recent => if recent = 0 then (diff + 1) / 2 else (diff * recent + 3) / 6 }

def timedMoves (inputs : List Input) : List PoolMove :=
  .fire (.connect .pool) :: inputs.map .fire

def timed (inputs : List Input) : Process :=
  runPool .scaling (.fresh false) (timedMoves inputs)

def authorizeWith (password : String) : Input :=
  .message 0 .authorize ⟨none, some (.arr [.str "w".toList, .str password.toList])⟩

def anyShare : Input := .message 0 .submit ⟨none, some (.arr [.str "w".toList])⟩

theorem vardiff_disciplined_override :
    (Async.step (start .scaling) (timed [authorizeWith "d=1000000", anyShare, anyShare])
      (.fire (.vardiff 0 0))).world.sockets[0]?.map Socket.socketDiff = some 1000000 := by
  have hpunctual : Async.LegalMoves (start .scaling) Punctual (.initial (.fresh false))
      (timedMoves [authorizeWith "d=1000000", anyShare, anyShare]) := by
    refine ⟨?_, ?_, ?_, ?_, trivial⟩
    · intro e he
      cases he
      trivial
    · intro e he
      cases he
      intro c password hc _
      obtain rfl : (⟨false, false, none, []⟩ : Clockwork) = c := Option.some.inj hc
      exact ⟨rfl, fun h => nomatch h⟩
    · intro e he
      cases he
      trivial
    · intro e he
      cases he
      trivial
  refine ((vardiff_disciplined .scaling false (fun _ => []) [] _ hpunctual).2 0 ?_ 0).trans ?_
  · exact ⟨[.fire (.connect .pool)], _, _, _, rfl, rfl, rfl, by decide⟩
  · decide

/-- Two authorizations start two intervals, and closing the connection clears one of them; and an
interval that was started before the override goes on changing the difficulty. -/
theorem vardiff_undisciplined :
    (timed [authorizeWith "", authorizeWith ""]).world.clocks = [⟨false, false, some 1, [1, 0]⟩] ∧
    (timed [authorizeWith "", authorizeWith "", .close 0]).world.clocks =
      [⟨true, false, some 1, [0]⟩] ∧
    Overrode .scaling (.fresh false) 0
      (timedMoves [authorizeWith "", authorizeWith "d=1000000", anyShare, anyShare]) ∧
    (timed [authorizeWith "", authorizeWith "d=1000000", anyShare, anyShare]).world.sockets[0]?.map
      Socket.socketDiff = some 1000000 ∧
    (Async.step (start .scaling) (timed [authorizeWith "", authorizeWith "d=1000000", anyShare, anyShare])
      (.fire (.vardiff 0 0))).world.sockets[0]?.map Socket.socketDiff = some 333333 := by
  refine ⟨by decide, by decide, ?_, by decide, by decide⟩
  exact ⟨[.fire (.connect .pool), .fire (authorizeWith "")], _, _, _, rfl, by decide, rfl,
    by decide⟩

end Tarcoin.Pool
