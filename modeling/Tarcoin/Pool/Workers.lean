import Tarcoin.Pool.Turns

/-! A worker is entered by an authorization and deleted, by its name, when a connection with that
name is closed. In orderly runs the names in the maps are those of the open connections. -/
namespace Tarcoin.Pool
open Async (Only Leads)

variable {w w' : World} {i : ℕ} {server : Server} {name : Key}

/-- Connection `i` is open on a server and has a name. -/
def World.Serves (w : World) (i : ℕ) (server : Server) (name : Key) : Prop :=
  ∃ s, w.sockets[i]? = some s ∧ s.destroyed = false ∧ s.server = server ∧ s.workerName = name

theorem serves_of_core (h : w'.sockets.map Socket.core = w.sockets.map Socket.core)
    (hserves : w.Serves i server name) : w'.Serves i server name := by
  obtain ⟨s, hs, hopen, hserver, hname⟩ := hserves
  obtain ⟨s', hs', hcore⟩ := socket_of_core h hs
  exact ⟨s', hs', (congrArg Socket.destroyed hcore).trans hopen,
    (congrArg Socket.server hcore).trans hserver, (congrArg Socket.workerName hcore).trans hname⟩

structure Registered (w : World) : Prop where
  entered : ∀ i server name, w.Serves i server name → name.truthy = true →
    (w.registry server).miners.has name = true
  owned : ∀ server name, (w.registry server).miners.has name = true →
    name.truthy = true ∧ ∃ i, w.Serves i server name
  active : w.activeWorkers = w.poolMiners.miners.size
  unique : ∀ i j server name, w.Serves i server name → w.Serves j server name →
    name.truthy = true → i = j

theorem Registered.congr (hr : Registered w) (hserves : ∀ {i server name}, name.truthy = true →
      (w'.Serves i server name ↔ w.Serves i server name))
    (hminers : ∀ server, (w'.registry server).miners = (w.registry server).miners)
    (hactive : w'.activeWorkers = w.activeWorkers) : Registered w' where
  entered := fun i server name hi htruthy => by
    rw [hminers]
    exact hr.entered i server name ((hserves htruthy).mp hi) htruthy
  owned := fun server name hhas => by
    rw [hminers] at hhas
    obtain ⟨htruthy, i, hi⟩ := hr.owned server name hhas
    exact ⟨htruthy, i, (hserves htruthy).mpr hi⟩
  active := by
    rw [hactive, hr.active]
    exact congrArg SlotMap.size (hminers .pool).symm
  unique := fun i j server name hi hj htruthy =>
    hr.unique i j server name ((hserves htruthy).mp hi) ((hserves htruthy).mp hj) htruthy

theorem Registered.of_unmoved (hr : Registered w) (h : Unmoved w w') : Registered w' :=
  hr.congr (fun _ => ⟨serves_of_core h.sockets.symm, serves_of_core h.sockets⟩) h.miners
    h.activeWorkers

theorem serves_connected_iff {server' : Server} (htruthy : name.truthy = true) :
    (w.connected server).Serves i server' name ↔ w.Serves i server' name := by
  have hget : (w.connected server).sockets[i]? = if i < w.sockets.length then w.sockets[i]? else
      [(⟨server, false, .str [], Hex.encode (fit 8 (w.entropy w.drawn)),
        Hex.encode (fit 4 (w.entropy (w.drawn + 1))), startDiff, false, [], none, []⟩ : Socket)][
          i - w.sockets.length]? := List.getElem?_append
  unfold World.Serves
  rw [hget]
  split_ifs with hlt
  · rfl
  · have hnone : w.sockets[i]? = none := List.getElem?_eq_none (by omega)
    rw [hnone]
    constructor
    · rintro ⟨s, hs, -, -, rfl⟩
      obtain rfl := List.mem_singleton.mp (List.mem_of_getElem? hs)
      cases htruthy
    · rintro ⟨s, hs, -⟩
      cases hs

section Closed
variable {w : World} {socket : ℕ} {s : Socket}

theorem has_closed (server : Server) (name : Key) :
    ((w.closed socket s).registry server).miners.has name = true ↔
      ¬ (server = s.server ∧ s.workerName.truthy = true ∧ name = s.workerName) ∧
        (w.registry server).miners.has name = true := by
  unfold World.closed
  cases hserver : s.server <;> cases server <;> split_ifs with htruthy <;>
    simp [World.registry, World.updateRegistry, World.updateSocket, SlotMap.has_delete, htruthy]

theorem serves_closed_iff :
    (w.closed socket s).Serves i server name ↔ i ≠ socket ∧ w.Serves i server name := by
  unfold World.Serves
  rw [sockets_closed]
  rcases eq_or_ne socket i with rfl | hne
  · cases w.sockets[socket]? <;> simp
  · rw [List.getElem?_modify_ne _ _ hne]
    simp [hne.symm]

theorem Registered.closed (hr : Registered w) (hs : w.sockets[socket]? = some s)
    (hopen : s.destroyed = false) : Registered (w.closed socket s) where
  entered := fun i server name hserves htruthy => by
    obtain ⟨hne, hserves⟩ := serves_closed_iff.mp hserves
    rw [has_closed]
    constructor
    · rintro ⟨rfl, -, rfl⟩
      exact hne (hr.unique i socket _ _ hserves ⟨s, hs, hopen, rfl, rfl⟩ htruthy)
    · exact hr.entered i server name hserves htruthy
  owned := fun server name hhas => by
    rw [has_closed] at hhas
    obtain ⟨htruthy, i, hserves⟩ := hr.owned server name hhas.2
    refine ⟨htruthy, i, serves_closed_iff.mpr ⟨?_, hserves⟩⟩
    rintro rfl
    obtain ⟨s', hs', -, hserver, hname⟩ := hserves
    obtain rfl := Option.some.inj (hs.symm.trans hs')
    exact hhas.1 ⟨hserver.symm, by rwa [hname], hname.symm⟩
  active := by
    have hactive := hr.active
    unfold World.closed
    cases s.server <;> split_ifs
    · rfl
    · exact hactive
    · exact hactive
    · exact hactive
  unique := fun i j server name hi hj =>
    hr.unique i j server name (serves_closed_iff.mp hi).2 (serves_closed_iff.mp hj).2

end Closed

section Enrolled
variable {w w₁ : World} {socket : ℕ} {s : Socket} {name : Key}

theorem serves_rename_iff (hs : w.sockets[socket]? = some s) {name' : Key} :
    (w.rename socket name).Serves i server name' ↔
      if i = socket then s.destroyed = false ∧ s.server = server ∧ name = name'
      else w.Serves i server name' := by
  unfold World.Serves World.rename World.updateSocket
  split_ifs with hi
  · subst hi
    simp [hs]
  · rw [List.getElem?_modify_ne _ _ (Ne.symm hi)]

theorem has_enroll (server server' : Server) (name name' : Key) (m : Miner) :
    ((w.enroll server name m).registry server').miners.has name' = true ↔
      (server' = server ∧ name' = name) ∨ (w.registry server').miners.has name' = true := by
  cases server <;> cases server' <;>
    simp [World.enroll, World.registry, World.updateRegistry, Registry.add, SlotMap.has_set]

theorem Registered.enrolled (hr : Registered w) (hs : w.sockets[socket]? = some s)
    (hopen : s.destroyed = false) (htruthy : name.truthy = true)
    (hsame : s.workerName.truthy = true → s.workerName = name)
    (halone : ∀ i, w.Serves i s.server name → i = socket)
    (hidle : Idle (w.rename socket name) w₁) (m : Miner) : Registered (w₁.enroll s.server name m) := by
  have hserves : ∀ i server name', (w₁.enroll s.server name m).Serves i server name' ↔
      if i = socket then s.destroyed = false ∧ s.server = server ∧ name = name'
      else w.Serves i server name' := by
    intro i server name'
    rw [← serves_rename_iff hs]
    constructor
    · rintro ⟨s', hs', hrest⟩
      rw [sockets_enroll] at hs'
      exact serves_of_core hidle.sockets.symm ⟨s', hs', hrest⟩
    · intro h
      obtain ⟨s', hs', hrest⟩ := serves_of_core hidle.sockets h
      exact ⟨s', by rwa [sockets_enroll], hrest⟩
  have hminers : ∀ server, (w₁.registry server).miners = (w.registry server).miners := by
    intro server
    rw [hidle.miners]
    cases server <;> rfl
  constructor
  · intro i server name' hi htruthy'
    rw [has_enroll, hminers]
    rw [hserves] at hi
    split_ifs at hi with heq
    · exact .inl ⟨hi.2.1.symm, hi.2.2.symm⟩
    · exact .inr (hr.entered i server name' hi htruthy')
  · intro server name' hhas
    rw [has_enroll, hminers] at hhas
    rcases hhas with ⟨rfl, rfl⟩ | hhas
    · exact ⟨htruthy, socket, (hserves _ _ _).mpr (by simp [hopen])⟩
    · obtain ⟨htruthy', i, hi⟩ := hr.owned server name' hhas
      refine ⟨htruthy', i, (hserves _ _ _).mpr ?_⟩
      split_ifs with heq
      · obtain ⟨s', hs', hopen', hserver, rfl⟩ := hi
        obtain rfl := Option.some.inj (hs.symm.trans (heq ▸ hs'))
        exact ⟨hopen', hserver, (hsame htruthy').symm⟩
      · exact hi
  · have hactive : w₁.activeWorkers = w.activeWorkers := hidle.activeWorkers
    have hpool := hminers .pool
    cases s.server with
    | pool => rfl
    | solo =>
      change w₁.activeWorkers = w₁.poolMiners.miners.size
      rw [hactive, hr.active]
      exact congrArg SlotMap.size hpool.symm
  · intro i j server name' hi hj htruthy'
    rw [hserves] at hi hj
    split_ifs at hi hj with hi' hj' hj'
    · rw [hi', hj']
    · obtain ⟨-, rfl, rfl⟩ := hi
      exact absurd (halone j hj) hj'
    · obtain ⟨-, rfl, rfl⟩ := hj
      exact absurd (halone i hi) hi'
    · exact hr.unique i j server name' hi hj htruthy'

end Enrolled

def Authorized (rt : Runtime) (w : World) (moves : List PoolMove) (socket : ℕ)
    (name : Key) : Prop :=
  ∃ earlier later request s v, moves = earlier ++ .fire (.message socket .authorize request) :: later ∧
    (runPool rt w earlier).world.sockets[socket]? = some s ∧ request.param 0 = .ok v ∧
    name = keyOf (runPool rt w earlier).world.serial 0 v

section History
variable {rt : Runtime} {w : World} {moves : List PoolMove}

variable {socket : ℕ}

theorem authorized_concat {m : PoolMove} :
    Authorized rt w (moves ++ [m]) socket name ↔ Authorized rt w moves socket name ∨
      ∃ request s v, m = .fire (.message socket .authorize request) ∧
        (runPool rt w moves).world.sockets[socket]? = some s ∧ request.param 0 = .ok v ∧
        name = keyOf (runPool rt w moves).world.serial 0 v := by
  constructor
  · rintro ⟨earlier, later, request, s, v, hmoves, hrest⟩
    obtain ⟨rfl, rfl⟩ | ⟨later', rfl⟩ := Async.concat_eq_split hmoves
    · exact .inr ⟨request, s, v, rfl, hrest⟩
    · exact .inl ⟨earlier, later', request, s, v, rfl, hrest⟩
  · rintro (⟨earlier, later, request, s, v, rfl, hrest⟩ | ⟨request, s, v, rfl, hrest⟩)
    · exact ⟨earlier, later ++ [m], request, s, v, by simp, hrest⟩
    · exact ⟨moves, [], request, s, v, rfl, hrest⟩

def World.names (w : World) : List Key := w.sockets.map Socket.workerName

/-- The names of the connections are those they authorized under. -/
structure Known (authorized : ℕ → Key → Prop) (names : List Key) : Prop where
  sound : ∀ i name, names[i]? = some name → name.truthy = true → authorized i name
  complete : ∀ i name, authorized i name → name.truthy = true ∧ names[i]? = some name

theorem names_of_core (h : w'.sockets.map Socket.core = w.sockets.map Socket.core) :
    w'.names = w.names := by
  have hnames := congrArg (List.map Socket.workerName) h
  rw [List.map_map, List.map_map] at hnames
  exact hnames

theorem names_closed (socket : ℕ) (s : Socket) : (w.closed socket s).names = w.names := by
  rw [World.names, sockets_closed]
  apply map_modify_eq
  exact fun _ => rfl

theorem names_connected (server : Server) : (w.connected server).names = w.names ++ [.str []] :=
  List.map_append

theorem names_rename (socket : ℕ) (name : Key) :
    (w.rename socket name).names = w.names.set socket name := by
  apply List.ext_getElem?
  intro i
  simp only [World.names, World.rename, World.updateSocket, List.getElem?_map, List.getElem?_set,
    List.length_map]
  rcases eq_or_ne socket i with rfl | hne
  · rw [List.getElem?_modify_eq, if_pos rfl]
    cases hs : w.sockets[socket]? with
    | none => rw [if_neg (by simpa using hs)]; rfl
    | some s => rw [if_pos (List.getElem?_eq_some_iff.mp hs).1]; rfl
  · rw [List.getElem?_modify_ne _ _ hne, if_neg hne]

variable {authorized authorized' : ℕ → Key → Prop} {names : List Key}

theorem Known.congr (h : Known authorized names)
    (hiff : ∀ i name, authorized' i name ↔ authorized i name) : Known authorized' names where
  sound := fun i name hname htruthy => (hiff _ _).mpr (h.sound i name hname htruthy)
  complete := fun i name hauth => h.complete i name ((hiff _ _).mp hauth)

theorem Known.concat (h : Known authorized names) : Known authorized (names ++ [.str []]) where
  sound := fun i name hname htruthy => by
    rw [List.getElem?_append] at hname
    split_ifs at hname with hlt
    · exact h.sound i name hname htruthy
    · obtain rfl := List.mem_singleton.mp (List.mem_of_getElem? hname)
      cases htruthy
  complete := fun i name hauth => by
    obtain ⟨htruthy, hname⟩ := h.complete i name hauth
    exact ⟨htruthy, by rwa [List.getElem?_append_left (List.getElem?_eq_some_iff.mp hname).1]⟩

theorem Known.set (h : Known authorized names) {old : Key} (hold : names[socket]? = some old)
    (htruthy : name.truthy = true) (hsame : old.truthy = true → old = name)
    (hiff : ∀ i name', authorized' i name' ↔ authorized i name' ∨ i = socket ∧ name' = name) :
    Known authorized' (names.set socket name) := by
  have hlt := (List.getElem?_eq_some_iff.mp hold).1
  constructor
  · intro i name' hname' htruthy'
    rw [hiff]
    rcases eq_or_ne socket i with rfl | hne
    · rw [List.getElem?_set_self hlt] at hname'
      exact .inr ⟨rfl, (Option.some.inj hname').symm⟩
    · rw [List.getElem?_set_ne hne] at hname'
      exact .inl (h.sound i name' hname' htruthy')
  · intro i name' hauth
    rcases (hiff i name').mp hauth with hauth | ⟨rfl, rfl⟩
    · obtain ⟨htruthy', hname'⟩ := h.complete i name' hauth
      refine ⟨htruthy', ?_⟩
      rcases eq_or_ne socket i with rfl | hne
      · obtain rfl := Option.some.inj (hold.symm.trans hname')
        rw [List.getElem?_set_self hlt, hsame htruthy']
      · rwa [List.getElem?_set_ne hne]
    · exact ⟨htruthy, List.getElem?_set_self hlt⟩

end History

/-- The inputs that keep the registries in order. An authorization that can be read comes on an
open connection, under a name that is not empty, that the connection did not change and that no
other open connection has; a submit is counted for a worker that is registered; a connection is
closed once. -/
def Orderly (w : World) (_ : List Output) : Input → Prop
  | .message socket .authorize request => ∀ s v, w.sockets[socket]? = some s →
      request.param 0 = .ok v → s.destroyed = false ∧ (keyOf w.serial 0 v).truthy = true ∧
        (s.workerName.truthy = true → s.workerName = keyOf w.serial 0 v) ∧
        ∀ i, w.Serves i s.server (keyOf w.serial 0 v) → i = socket
  | .message socket .submit request => ∀ s v, w.sockets[socket]? = some s →
      request.param 0 = .ok v → (w.registry s.server).miners.has s.workerName = true ∨
        (w.registry s.server).miners.has (keyOf w.serial 0 v) = true
  | .close socket => ∀ s, w.sockets[socket]? = some s → s.destroyed = false
  | _ => True

theorem miners_afterSubmit {rt : Runtime} {r : Registry} {serial : ℕ} {request : Request}
    {workerName : Key} (h : ∀ v, request.param 0 = .ok v →
      r.miners.has workerName = true ∨ r.miners.has (keyOf serial 0 v) = true) :
    (r.afterSubmit rt server serial request workerName).miners = r.miners := by
  unfold Registry.afterSubmit
  split
  · rfl
  · rename_i miner r' hloc
    rcases Registry.locate_cases hloc with ⟨rfl, -⟩ | ⟨v, hname, hown, hnamed, -⟩
    · split <;> rfl
    · have hno := h v hname
      simp [SlotMap.has, hown, hnamed] at hno

section Run
variable {rt : Runtime} {w₀ : World} {moves : List PoolMove}

/-- What holds after a run: the registries are in order, and the names of the connections are
those of their authorizations. -/
def InOrder (rt : Runtime) (w₀ : World) (moves : List PoolMove) (w : World) : Prop :=
  Registered w ∧ Known (Authorized rt w₀ moves) w.names

theorem InOrder.of_unmoved (h : InOrder rt w₀ moves w) (hw : Unmoved w w') :
    InOrder rt w₀ moves w' := by
  refine ⟨h.1.of_unmoved hw, ?_⟩
  rw [names_of_core hw.sockets]
  exact h.2

theorem authorized_concat_of_unread {m : PoolMove}
    (hm : ∀ socket request s v, m = .fire (.message socket .authorize request) →
      (runPool rt w₀ moves).world.sockets[socket]? = some s → request.param 0 ≠ .ok v)
    (i : ℕ) (name : Key) :
    Authorized rt w₀ (moves ++ [m]) i name ↔ Authorized rt w₀ moves i name := by
  rw [authorized_concat]
  constructor
  · rintro (hauth | ⟨request, s, v, hfire, hs, hv, -⟩)
    · exact hauth
    · exact absurd hv (hm i request s v hfire hs)
  · exact .inl

variable {socket : ℕ} {s : Socket} {request : Request} {l : List Output}

theorem InOrder.authorized {v : JsVal} {w₁ : World} (h : InOrder rt w₀ moves w)
    (hw : (runPool rt w₀ moves).world = w) (hs : w.sockets[socket]? = some s)
    (hname : request.param 0 = .ok v) (hlegal : Orderly w l (.message socket .authorize request))
    (hidle : Idle (w.rename socket (keyOf w.serial 0 v)) w₁) (m : Miner) :
    InOrder rt w₀ (moves ++ [.fire (.message socket .authorize request)])
      (w₁.enroll s.server (keyOf w.serial 0 v) m) := by
  obtain ⟨hopen, htruthy, hsame, halone⟩ := hlegal s v hs hname
  refine ⟨h.1.enrolled hs hopen htruthy hsame halone hidle m, ?_⟩
  have hnames : (w₁.enroll s.server (keyOf w.serial 0 v) m).names =
      w.names.set socket (keyOf w.serial 0 v) := by
    rw [← names_rename, ← names_of_core hidle.sockets, World.names, sockets_enroll]
    rfl
  rw [hnames]
  apply h.2.set (by rw [World.names, List.getElem?_map, hs]; rfl) htruthy hsame
  intro i name
  rw [authorized_concat]
  apply or_congr_right
  constructor
  · rintro ⟨_, s', v', hm, -, hv', hname'⟩
    cases hm
    rw [hname] at hv'
    cases hv'
    exact ⟨rfl, by rw [hname', hw]⟩
  · rintro ⟨rfl, rfl⟩
    exact ⟨request, s, v, rfl, by rw [hw, hs], hname, by rw [hw]⟩

variable (rt) in
theorem unmoved_afterSubmit (hs : w.sockets[socket]? = some s)
    (hlegal : Orderly w l (.message socket .submit request)) :
    Unmoved w (w.updateRegistry s.server fun r =>
      r.afterSubmit rt s.server w.serial request s.workerName) := by
  have hsubmit : ((w.registry s.server).afterSubmit rt s.server w.serial request s.workerName).miners =
      (w.registry s.server).miners := miners_afterSubmit fun v => hlegal s v hs
  refine ⟨?_, ?_, fun server => ?_⟩
  · cases s.server <;> rfl
  · cases s.server <;> rfl
  · revert hsubmit
    cases s.server <;> cases server
    · exact id
    · exact fun _ => rfl
    · exact fun _ => rfl
    · exact id

theorem FirstTurn.inOrder {e : Input} {os : List Output} {t : PoolM Unit} (hturn : FirstTurn rt w e os t w')
    (hw : (runPool rt w₀ moves).world = w) (h : InOrder rt w₀ moves w) (hlegal : Orderly w l e) :
    InOrder rt w₀ (moves ++ [.fire e]) w' := by
  have hpast : (∀ socket request v, e = .message socket .authorize request →
      w.sockets[socket]?.isSome → request.param 0 ≠ .ok v) → InOrder rt w₀ (moves ++ [.fire e]) w := by
    refine fun he => ⟨h.1, h.2.congr (authorized_concat_of_unread ?_)⟩
    rintro socket request s v ⟨⟩ hs
    exact he socket request v rfl (by rw [← hw, hs]; rfl)
  cases hturn with
  | idle hunread hcalm => exact (hpast hunread).of_unmoved hcalm.1.toUnmoved
  | connected server =>
    obtain ⟨-, hknown⟩ := hpast (by simp)
    refine ⟨?_, names_connected (w := w) server ▸ hknown.concat⟩
    exact h.1.congr serves_connected_iff (fun server => by cases server <;> rfl) rfl
  | @closed socket s hs =>
    obtain ⟨-, hknown⟩ := hpast (by simp)
    exact ⟨h.1.closed hs (hlegal s hs), (names_closed (w := w) socket s).symm ▸ hknown⟩
  | authorized hs hname _ _ hidle hidle' =>
    exact (h.authorized hw hs hname hlegal hidle _).of_unmoved hidle'.toUnmoved
  | submitted hs _ hcalm =>
    exact ((hpast (by simp)).of_unmoved (unmoved_afterSubmit rt hs hlegal)).of_unmoved
      hcalm.1.toUnmoved

theorem inOrder_turn {e : Input} (h : InOrder rt w₀ moves (runPool rt w₀ moves).world)
    (hlegal : Orderly (runPool rt w₀ moves).world l e) :
    ∃ os t w, Leads (start rt e) (runPool rt w₀ moves).world os t w ∧
      Only Unmoved (fun _ => True) t w ∧ InOrder rt w₀ (moves ++ [.fire e]) w := by
  by_cases hrefresh : ∃ rounds, e = .refresh rounds
  · obtain ⟨rounds, rfl⟩ := hrefresh
    refine ⟨[], _, _, .refl _ _, ?_, h.1, h.2.congr (authorized_concat_of_unread (by simp))⟩
    apply only_refreshBlockTemplate rt _ fun _ _ => trivial
    exact fun w t _ => ⟨rfl, rfl, fun server => by cases server <;> rfl⟩
  · push Not at hrefresh
    obtain ⟨os, t, w', hleads, hturn⟩ := start_turn rt (runPool rt w₀ moves).world hrefresh
    exact ⟨os, t, w', hleads, hturn.rest fun _ _ => trivial, hturn.inOrder rfl h hlegal⟩

end Run

/-- In every run whose inputs are orderly: a connection that is open and has authorized under a
name is registered under it, every name that is registered belongs to an open connection that has
authorized under it, and the number of active workers is that of the names. -/
theorem registry_in_order (rt : Runtime) (redis : Bool) (entropy : ℕ → List UInt8) (feeWallet : Text)
    (moves : List PoolMove)
    (hlegal : Async.LegalMoves (start rt) Orderly (.initial (.initial redis entropy feeWallet)) moves) :
    (∀ i s name, (runPool rt (.initial redis entropy feeWallet) moves).world.sockets[i]? = some s →
      s.destroyed = false → Authorized rt (.initial redis entropy feeWallet) moves i name →
      ((runPool rt (.initial redis entropy feeWallet) moves).world.registry s.server).miners.has
        name = true) ∧
    (∀ server name, ((runPool rt (.initial redis entropy feeWallet) moves).world.registry
        server).miners.has name = true →
      ∃ i s, (runPool rt (.initial redis entropy feeWallet) moves).world.sockets[i]? = some s ∧
        s.destroyed = false ∧ s.server = server ∧
        Authorized rt (.initial redis entropy feeWallet) moves i name) ∧
    (runPool rt (.initial redis entropy feeWallet) moves).world.activeWorkers =
      (runPool rt (.initial redis entropy feeWallet) moves).world.poolMiners.miners.size := by
  have hinitial : InOrder rt (.initial redis entropy feeWallet) [] (.initial redis entropy feeWallet) := by
    refine ⟨⟨?_, ?_, rfl, ?_⟩, ?_, ?_⟩
    · rintro i server name ⟨s, hs, -⟩
      cases hs
    · intro server name hhas
      cases server <;> cases hhas
    · rintro i j server name ⟨s, hs, -⟩
      cases hs
    · intro i name hname
      cases hname
    · rintro i name ⟨earlier, later, request, s, v, hmoves, -⟩
      cases earlier <;> cases hmoves
  obtain ⟨hr, hk⟩ : InOrder rt (.initial redis entropy feeWallet) moves
      (runPool rt (.initial redis entropy feeWallet) moves).world := by
    apply Async.run_history (P := fun moves w _ => InOrder rt (.initial redis entropy feeWallet) moves w)
      (S := Unmoved) (U := fun _ => True) _ _ _ _ hinitial hlegal
    · exact fun _ _ _ _ h hw => h.of_unmoved hw
    · exact fun _ _ _ _ h _ => h
    · exact fun moves w _ i r h => ⟨h.1, h.2.congr (authorized_concat_of_unread (by simp))⟩
    · exact fun moves e h hlegal => inOrder_turn h hlegal
  refine ⟨?_, ?_, hr.active⟩
  · intro i s name hs hopen hauth
    obtain ⟨htruthy, hname⟩ := hk.complete i name hauth
    rw [World.names, List.getElem?_map, hs] at hname
    exact hr.entered i s.server name ⟨s, hs, hopen, rfl, Option.some.inj hname⟩ htruthy
  · intro server name hhas
    obtain ⟨htruthy, i, s, hs, hopen, hserver, hname⟩ := hr.owned server name hhas
    refine ⟨i, s, hs, hopen, hserver, hk.sound i name ?_ htruthy⟩
    rw [World.names, List.getElem?_map, hs, ← hname]
    rfl

def authorizeMoves : List PoolMove :=
  [.fire (.connect .pool), .fire (.message 0 .authorize ⟨none, some (.arr [.str "w".toList])⟩)]

theorem registry_in_order_alone :
    ((runPool .constant (.fresh false) authorizeMoves).world.registry
      .pool).miners.has (.str "w".toList) = true := by
  apply (registry_in_order .constant false (fun _ => []) [] authorizeMoves ?_).1 0 _ _ rfl rfl
  · exact ⟨[.fire (.connect .pool)], [], _, _, _, rfl, rfl, rfl, rfl⟩
  · refine ⟨fun e he => ?_, fun e he => ?_, trivial⟩
    · cases he
      trivial
    · cases he
      intro s v hs hv
      cases hs
      cases hv
      refine ⟨rfl, rfl, by simp [Key.truthy], ?_⟩
      rintro (_ | i) ⟨s, hs, -⟩
      · rfl
      · cases hs

def sharedNameMoves : List PoolMove :=
  authorizeMoves ++ [.fire (.connect .pool),
    .fire (.message 1 .authorize ⟨none, some (.arr [.str "w".toList])⟩), .fire (.close 0)]

/-- The second connection is open and has authorized, but it is not registered any more. -/
theorem registry_not_in_order :
    Authorized .constant (.fresh false) sharedNameMoves 1 (.str "w".toList) ∧
    (runPool .constant (.fresh false) sharedNameMoves).world.sockets.map
      Socket.destroyed = [true, false] ∧
    (runPool .constant (.fresh false) sharedNameMoves).world.poolMiners.miners.has
      (.str "w".toList) = false := by
  refine ⟨⟨authorizeMoves ++ [.fire (.connect .pool)], [.fire (.close 0)], _, _, _, rfl, rfl, rfl,
    rfl⟩, ?_⟩
  decide

end Tarcoin.Pool
