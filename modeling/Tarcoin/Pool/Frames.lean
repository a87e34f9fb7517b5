import Tarcoin.Pool.Screen

/-! `Idle` writes change only counts, difficulties, timers and displayed addresses; the
preparation of solo jobs is `Steady`. The template is written by a refresh alone (`Supplied`). -/
namespace Tarcoin.Pool
open Async (Only Leads)

def Miner.core (m : Miner) : Miner :=
  { m with shares := 0, validShares := 0, difficulty := none, resolvedAddress := none }

def Miner.duty (m : Miner) : Option ℕ × Key × List Text := (m.socket, m.lastJobId, m.submittedShares)

def Socket.core (s : Socket) : Socket :=
  { s with socketDiff := 0, diffOverridden := false, shareTimestamps := [], vardiffTimer := none,
           timers := [] }

/-- The intervals of a connection and what decides over them. -/
structure Clockwork where
  destroyed : Bool
  diffOverridden : Bool
  vardiffTimer : Option ℕ
  timers : List ℕ
  deriving DecidableEq, Repr

def Socket.clockwork (s : Socket) : Clockwork :=
  ⟨s.destroyed, s.diffOverridden, s.vardiffTimer, s.timers⟩

def SameClocks (w w' : World) : Prop :=
  w'.sockets.map Socket.clockwork = w.sockets.map Socket.clockwork

def Built (rt : Runtime) (t : BlockTemplate) : Prop :=
  ∃ now, buildTemplate rt t.jobId now t.rawTemplate = .ok t

variable {rt : Runtime} {w w' w'' : World} {S : World → World → Prop} {f : Miner → Miner}

theorem built_of_buildTemplate {jobId : Text} {now : ℕ} {template : NodeTemplate}
    {t : BlockTemplate} (h : buildTemplate rt jobId now template = .ok t) : Built rt t := by
  obtain ⟨coinbase1, coinbase2, branch, -, -, -, rfl⟩ := buildTemplate_eq h
  exact ⟨now, h⟩

/-- The template stays, or one that was built from a template of the node takes its place. -/
def Supplied (rt : Runtime) (w w' : World) : Prop :=
  w'.blockTemplate = w.blockTemplate ∨ ∃ t, Built rt t ∧ w'.blockTemplate = some t

structure Unmoved (w w' : World) : Prop where
  sockets : w'.sockets.map Socket.core = w.sockets.map Socket.core
  activeWorkers : w'.activeWorkers = w.activeWorkers
  miners : ∀ server, (w'.registry server).miners = (w.registry server).miners

structure Idle (w w' : World) : Prop extends Unmoved w w' where
  blockTemplate : w'.blockTemplate = w.blockTemplate
  entries : ∀ server,
    (w'.registry server).entries.map Miner.core = (w.registry server).entries.map Miner.core

structure Steady (w w' : World) : Prop extends Unmoved w w' where
  blockTemplate : w'.blockTemplate = w.blockTemplate
  duties : ∀ server,
    (w'.registry server).entries.map Miner.duty = (w.registry server).entries.map Miner.duty

theorem Idle.of_same (htemplate : w'.blockTemplate = w.blockTemplate)
    (hsockets : w'.sockets.map Socket.core = w.sockets.map Socket.core)
    (hactive : w'.activeWorkers = w.activeWorkers) (hpool : w'.poolMiners = w.poolMiners)
    (hsolo : w'.soloMiners = w.soloMiners) : Idle w w' := by
  have hregistry : ∀ server, w'.registry server = w.registry server := by
    intro server
    cases server
    · exact hpool
    · exact hsolo
  exact ⟨⟨hsockets, hactive, fun server => by rw [hregistry]⟩, htemplate,
    fun server => by rw [hregistry]⟩

theorem socket_of_core {sockets sockets' : List Socket}
    (h : sockets'.map Socket.core = sockets.map Socket.core) {i : ℕ} {s : Socket}
    (hs : sockets[i]? = some s) : ∃ s', sockets'[i]? = some s' ∧ s'.core = s.core := by
  have hget := congrArg (fun l : List Socket => l[i]?) h
  simp only [List.getElem?_map, hs, Option.map_some] at hget
  exact Option.map_eq_some_iff.mp hget

theorem Idle.refl (w : World) : Idle w w := .of_same rfl rfl rfl rfl rfl

theorem Idle.trans (h : Idle w w') (h' : Idle w' w'') : Idle w w'' where
  blockTemplate := h'.blockTemplate.trans h.blockTemplate
  sockets := h'.sockets.trans h.sockets
  activeWorkers := h'.activeWorkers.trans h.activeWorkers
  miners := fun server => (h'.miners server).trans (h.miners server)
  entries := fun server => (h'.entries server).trans (h.entries server)

theorem Idle.steady (h : Idle w w') : Steady w w' where
  toUnmoved := h.toUnmoved
  blockTemplate := h.blockTemplate
  duties := fun server => by
    have hmap := congrArg (List.map Miner.duty) (h.entries server)
    rw [List.map_map, List.map_map] at hmap
    exact hmap

def Calm (w w' : World) : Prop := Idle w w' ∧ SameClocks w w'

def Still (w w' : World) : Prop := Steady w w' ∧ SameClocks w w'

/-- Writes of one kind are among those of another. -/
class Permits (T S : World → World → Prop) : Prop where
  permits : ∀ w w', T w w' → S w w'

instance : Permits Calm Idle := ⟨fun _ _ => And.left⟩

instance : Permits Still Steady := ⟨fun _ _ => And.left⟩

instance : Permits Still Unmoved := ⟨fun _ _ h => h.1.toUnmoved⟩

instance : Permits Still SameClocks := ⟨fun _ _ => And.right⟩

instance {rt : Runtime} : Permits Still (Supplied rt) := ⟨fun _ _ h => .inl h.1.blockTemplate⟩

instance : Permits Calm Calm := ⟨fun _ _ => id⟩

instance {S : World → World → Prop} [Permits Still S] : Permits Calm S :=
  ⟨fun _ _ h => Permits.permits (T := Still) _ _ ⟨h.1.steady, h.2⟩⟩

theorem Calm.permitted [Permits Calm S] (h : Calm w w') :
    S w w' := Permits.permits _ _ h

theorem Still.permitted [Permits Still S] (h : Still w w') : S w w' := Permits.permits _ _ h

theorem Calm.of_same (htemplate : w'.blockTemplate = w.blockTemplate)
    (hsockets : w'.sockets = w.sockets) (hactive : w'.activeWorkers = w.activeWorkers)
    (hpool : w'.poolMiners = w.poolMiners) (hsolo : w'.soloMiners = w.soloMiners) : Calm w w' :=
  ⟨.of_same htemplate (by rw [hsockets]) hactive hpool hsolo, congrArg (List.map _) hsockets⟩

theorem Calm.refl (w : World) : Calm w w := .of_same rfl rfl rfl rfl rfl

theorem Calm.trans (h : Calm w w') (h' : Calm w' w'') : Calm w w'' :=
  ⟨h.1.trans h'.1, h'.2.trans h.2⟩

instance : Std.Refl Calm := ⟨Calm.refl⟩

instance : IsTrans World Calm := ⟨fun _ _ _ => Calm.trans⟩

theorem Supplied.trans (h : Supplied rt w w') (h' : Supplied rt w' w'') : Supplied rt w w'' := by
  rcases h' with h' | h'
  · rcases h with h | ⟨t, ht, h⟩
    · exact .inl (h'.trans h)
    · exact .inr ⟨t, ht, h'.trans h⟩
  · exact .inr h'

theorem map_modify_eq {α β : Type} {f : α → α} {g : α → β} (h : ∀ a, g (f a) = g a) (i : ℕ)
    (l : List α) : (l.modify i f).map g = l.map g := by
  induction l generalizing i with
  | nil => simp
  | cons a l ih =>
    cases i with
    | zero => simp [h]
    | succ i => simp [ih]

section
variable (w : World)

section
variable (server : Server)

theorem unmoved_updateMiner (miner : ℕ) : Unmoved w (w.updateMiner server miner f) := by
  constructor
  case miners => cases server <;> intro server' <;> cases server' <;> rfl
  all_goals cases server <;> rfl

theorem map_updateMiner {β : Type} {g : Miner → β} (miner : ℕ) (hf : ∀ m, g (f m) = g m)
    (server' : Server) : ((w.updateMiner server miner f).registry server').entries.map g =
      (w.registry server').entries.map g := by
  cases server <;> cases server' <;>
    simp [World.updateMiner, World.updateRegistry, World.registry, map_modify_eq hf]

theorem blockTemplate_updateMiner (miner : ℕ) :
    (w.updateMiner server miner f).blockTemplate = w.blockTemplate := by
  cases server <;> rfl

theorem sameClocks_updateRegistry (f : Registry → Registry) :
    SameClocks w (w.updateRegistry server f) := by
  cases server <;> rfl

theorem calm_updateMiner (miner : ℕ) (hf : ∀ m, (f m).core = m.core) :
    Calm w (w.updateMiner server miner f) :=
  ⟨⟨unmoved_updateMiner w server miner, blockTemplate_updateMiner w server miner,
    map_updateMiner w server miner hf⟩, sameClocks_updateRegistry w server _⟩

theorem still_updateMiner (miner : ℕ) (hf : ∀ m, (f m).duty = m.duty) :
    Still w (w.updateMiner server miner f) :=
  ⟨⟨unmoved_updateMiner w server miner, blockTemplate_updateMiner w server miner,
    map_updateMiner w server miner hf⟩, sameClocks_updateRegistry w server _⟩

end

theorem idle_updateSocket (socket : ℕ) {f : Socket → Socket} (hf : ∀ s, (f s).core = s.core) :
    Idle w (w.updateSocket socket f) :=
  .of_same rfl (map_modify_eq hf socket w.sockets) rfl rfl rfl

theorem calm_updateSocket (socket : ℕ) {f : Socket → Socket} (hf : ∀ s, (f s).core = s.core)
    (hclock : ∀ s, (f s).clockwork = s.clockwork) : Calm w (w.updateSocket socket f) :=
  ⟨idle_updateSocket w socket hf, map_modify_eq hclock socket w.sockets⟩

end

/-- Replies, difficulties and the jobs of the shared pool. -/
def Output.plain : Output → Prop
  | .reply _ _ _ => True
  | .setDifficulty _ _ => True
  | .notify _ none _ => True
  | _ => False

def Output.uncredited : Output → Prop
  | .credited _ => False
  | _ => True

theorem Output.plain.uncredited {o : Output} (h : o.plain) : o.uncredited := by
  cases o with
  | credited share => exact h
  | _ => trivial

section Tasks
variable {S : World → World → Prop} {U : Output → Prop} (rt : Runtime) (w : World)

theorem only_call (c : Call) : Only S U (call c) w := by
  intro r w'
  cases r <;> exact trivial

theorem only_runRedis (commands : List RedisCommand) : Only S U (runRedis commands) w := by
  induction commands generalizing w with
  | nil => exact trivial
  | cons command commands ih => exact (only_call w _).bind fun _ w' => ih w'

theorem only_submitFound (accepted rejected : ℕ → List RedisCommand) (header : List UInt8)
    (coinbaseHex : Text) : Only S U (submitFound accepted rejected header coinbaseHex) w := by
  apply Only.get
  split
  · exact trivial
  · apply (Async.only_ofExcept _ w).bind
    intro blockHex w'
    apply (only_call w' _).bind
    intro r w''
    split
    · apply Only.get
      split_ifs
      · exact only_runRedis w'' _
      · exact trivial
    · apply Only.get
      split_ifs
      · exact only_runRedis w'' _
      · exact trivial
    · exact trivial

section Calm
variable [Permits Calm S]

theorem only_randomHex (n : ℕ) : Only S U (randomHex n) w :=
  ⟨Calm.permitted (.of_same rfl rfl rfl rfl rfl), trivial⟩

theorem only_resolve (walletOrDomain : Text) :
    Only S U (resolveTnsToAddress rt walletOrDomain) w := by
  have hfetch : ∀ domain now,
      Only S U (resolveTnsToAddress.fetch walletOrDomain domain now) w := by
    intro domain now
    refine Only.catching ((only_call w _).bind ?_) fun _ _ => ?_
    · intro r w'
      split
      · split
        · exact ⟨Calm.permitted (.of_same rfl rfl rfl rfl rfl), trivial⟩
        · exact trivial
      · exact trivial
    · exact trivial
  simp only [resolveTnsToAddress]
  split_ifs
  · exact trivial
  · exact trivial
  · apply Only.get
    split
    · split_ifs
      · exact trivial
      · exact hfetch _ _
    · exact hfetch _ _

theorem only_trackWallet (server : Server) (miner : ℕ) (worker : Key) :
    Only S U (trackWallet rt server miner worker) w := by
  refine Only.bind (Only.settle (only_resolve rt w _)) ?_
  intro wallet w'
  refine Only.bind (Async.only_modify ?_) fun _ w'' => only_runRedis w'' _
  split_ifs
  · exact Calm.permitted (.refl w')
  · exact Calm.permitted (calm_updateMiner w' server miner fun _ => rfl)

theorem only_poolBooks (a : Attempt) : Only S U (poolBooks rt a) w := by
  apply Only.get
  split_ifs
  · exact (only_runRedis w _).bind fun _ w' => only_trackWallet rt w' _ _ _
  · exact trivial

theorem only_soloBooks (a : Attempt) : Only S U (soloBooks rt a) w := by
  apply Only.get
  split_ifs
  · exact only_trackWallet rt w _ _ _
  · exact trivial

theorem only_counted {count : World → World} (hcount : Calm w (count w))
    (accepted rejected : ℕ → List RedisCommand) (header : List UInt8) (coinbaseHex : Text) :
    Only S U (awaited do
      Async.modify count
      (submitFound accepted rejected header coinbaseHex).catching fun _ => pure ()) w :=
  Only.settle <| Only.bind (Async.only_modify hcount.permitted) fun _ w' =>
    (only_submitFound w' _ _ _ _).catching fun _ _ => trivial

theorem only_poolBlock (a : Attempt) (header : List UInt8) :
    Only S U (poolBlock rt a header) w := by
  unfold poolBlock
  split_ifs
  · exact only_counted w (.of_same rfl rfl rfl rfl rfl) _ _ _ _
  · exact trivial

theorem only_soloBlock (a : Attempt) (header : List UInt8) :
    Only S U (soloBlock rt a header) w := by
  unfold soloBlock
  split_ifs
  · exact only_counted w (.of_same rfl rfl rfl rfl rfl) _ _ _ _
  · exact trivial

end Calm

theorem only_buildSoloCoinbase (minerAddress : Text) (template : NodeTemplate) :
    Only S U (buildSoloCoinbase rt minerAddress template) w := by
  apply (only_call w _).bind
  intro r w'
  split
  · split_ifs
    · exact trivial
    · apply Only.get
      apply (only_call w' _).bind
      intro r' w''
      split
      · apply (Async.only_ofExcept _ w'').bind
        intro coinbase1 w₃
        exact (Async.only_ofExcept _ w₃).bind fun _ _ => trivial
      · exact trivial
  · exact trivial

theorem only_resolveMiner [Permits Calm S] (miner : ℕ) (name : Key) :
    Only S U (resolveMiner rt miner name) w := by
  refine Only.catching ?_ fun _ _ => trivial
  dsimp only
  split_ifs
  · refine Only.bind (Only.settle (only_resolve rt w _)) ?_
    intro address w'
    apply Async.only_modify
    split_ifs
    · exact Calm.permitted (.refl w')
    · exact Calm.permitted (calm_updateMiner w' .pool miner fun _ => rfl)
  · exact trivial

section Plain
variable (hU : ∀ o : Output, o.plain → U o)
include hU

theorem only_reply (socket : ℕ) (id : JsVal) (body : Reply) : Only S U (reply socket id body) w :=
  ⟨hU _ trivial, trivial⟩

theorem only_sendWork (socket : ℕ) : Only S U (sendWork socket) w := by
  apply Only.get
  split
  · exact trivial
  · exact ⟨hU _ trivial, trivial⟩

theorem only_sendWorks (sockets : List ℕ) : Only S U (sendWorks sockets) w := by
  induction sockets generalizing w with
  | nil => exact trivial
  | cons socket sockets ih => exact (only_sendWork w hU socket).bind fun _ w' => ih w'

theorem only_sendDifficulty [Permits Calm S] (socket diff : ℕ) :
    Only S U (sendDifficulty socket diff) w := by
  apply Only.modify
  · exact Calm.permitted (calm_updateSocket w socket (fun _ => rfl) fun _ => rfl)
  apply Only.output (hU (.setDifficulty socket diff) trivial)
  apply Async.only_modify
  split
  · split
    · split_ifs
      · exact Calm.permitted (calm_updateMiner _ _ _ fun _ => rfl)
      · exact Calm.permitted (.refl _)
    · exact Calm.permitted (.refl _)
  · exact Calm.permitted (.refl _)

theorem only_subscribe [Permits Calm S] (socket : ℕ) (s : Socket) (request : Request) :
    Only S U (subscribe socket s request) w := by
  apply (only_reply w hU _ _ _).bind
  intro _ w'
  refine Only.bind (only_sendDifficulty w' hU _ _) ?_
  intro _ w''
  split
  · exact only_sendWork w'' hU _
  · exact trivial

theorem only_vardiff [Permits Calm S] (socket timer : ℕ) :
    Only S U (vardiff rt socket timer) w := by
  apply Only.get
  split
  · exact trivial
  · split_ifs
    · exact trivial
    · refine Only.bind ?_ fun _ w' =>
        Async.only_modify (Calm.permitted (calm_updateSocket w' socket (fun _ => rfl) fun _ => rfl))
      unfold announceRetarget
      split
      · exact only_sendDifficulty w hU _ _
      · exact trivial

end Plain

section Uncredited
variable (hU : ∀ o : Output, o.uncredited → U o)
include hU

theorem only_sendSoloWork (socket miner : ℕ) : Only S U (sendSoloWork socket miner) w := by
  apply Only.get
  split
  · exact ⟨hU _ trivial, trivial⟩
  · exact trivial

section Still
variable [Permits Still S]

theorem only_refreshMiner (template : NodeTemplate) (name : Key) (miner : ℕ) :
    Only S U (refreshMiner rt template name miner) w := by
  apply Only.get
  split
  · exact trivial
  · refine Only.catching ?_ fun _ _ => trivial
    refine Only.bind (Only.settle (only_resolve rt w _)) ?_
    intro minerAddress w'
    apply (only_buildSoloCoinbase rt w' _ _).settle.bind
    intro coinbases w''
    refine Only.bind (only_randomHex w'' 4) ?_
    intro jobId w₃
    apply Only.modify
    · exact Still.permitted (still_updateMiner w₃ .solo miner fun _ => rfl)
    · exact only_sendSoloWork _ hU _ _

theorem only_refreshSolo (template : NodeTemplate) (rounds position : ℕ) :
    Only S U (refreshSolo rt template rounds position) w := by
  induction rounds generalizing position w with
  | zero => exact trivial
  | succ rounds ih =>
    apply Only.get
    split
    · exact trivial
    · exact Only.bind (only_refreshMiner rt w hU template _ _) fun _ w' => ih w' _

theorem only_prepareMiner (socket miner : ℕ) (name : Key) :
    Only S U (prepareMiner rt socket miner name) w := by
  refine Only.catching ?_ fun _ _ => trivial
  apply Only.get
  split
  · exact trivial
  · refine Only.bind (Only.settle (only_resolve rt w _)) ?_
    intro minerAddress w'
    apply Only.modify
    · split_ifs
      · exact Calm.permitted (.refl w')
      · exact Still.permitted (still_updateMiner w' .solo miner fun _ => rfl)
    · apply Only.get
      split
      · exact trivial
      · apply (only_buildSoloCoinbase rt _ _ _).settle.bind
        intro coinbases w''
        apply Only.modify
        · exact Still.permitted (still_updateMiner w'' .solo miner fun _ => rfl)
        · apply Only.get
          split_ifs
          · exact only_sendSoloWork _ hU _ _
          · exact trivial

theorem only_followUp (server : Server) (socket miner : ℕ) (name : Key) :
    Only S U (followUp rt server socket miner name) w := by
  cases server with
  | pool => exact only_resolveMiner rt w miner name
  | solo => exact only_prepareMiner rt w hU socket miner name

end Still

theorem only_refreshBlockTemplate [Permits Still S]
    (hnew : ∀ w t, Built rt t → S w { w with blockTemplate := some t }) (rounds : ℕ) :
    Only S U (refreshBlockTemplate rt rounds) w := by
  refine Only.catching ?_ fun _ _ => trivial
  apply (only_call w _).bind
  intro r w'
  split
  · refine Only.bind (only_randomHex w' 4) ?_
    intro jobId w''
    apply Only.ofExcept
    intro t ht
    apply Only.modify (hnew w'' t (built_of_buildTemplate ht))
    apply Only.output (hU (.refreshed t) trivial)
    apply (only_sendWorks _ (fun o ho => hU o ho.uncredited) _).bind
    intro _ w₃
    exact only_refreshSolo rt w₃ hU _ _ _
  · exact trivial

end Uncredited

end Tasks

instance (rt : Runtime) : Std.Refl (Supplied rt) := ⟨fun _ => .inl rfl⟩

instance (rt : Runtime) : IsTrans World (Supplied rt) := ⟨fun _ _ _ => Supplied.trans⟩

end Tarcoin.Pool
