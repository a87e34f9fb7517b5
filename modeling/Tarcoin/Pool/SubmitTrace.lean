import Tarcoin.Pool.Screen

/-! What can be observed of a submit after its share is counted, whatever the services answer and
other tasks do. -/
namespace Tarcoin.Pool
open Async (Leads Spec Grows)

abbrev Observed := Async.Event Call Answer Output

def RedisCommand.key : RedisCommand → RedisKey
  | .lPush key _ => key
  | .lTrim key => key
  | .sAdd key => key
  | .expire key => key

/-- The lists of found blocks; all other keys are books of shares and wallets. -/
def RedisKey.ofBlocks : RedisKey → Bool
  | .blocks => true
  | .rejectedBlocks => true
  | .soloBlocks => true
  | .soloRejectedBlocks => true
  | _ => false

/-- Redis rejected a command that keeps the books. -/
def BooksReject : Observed → Prop
  | .answered (.redis command) .rejects => command.key.ofBlocks = false
  | _ => False

/-- Nothing is written to a connection, and the books are in order. -/
def Quiet : Observed → Prop
  | .emitted _ => False
  | .called _ => True
  | .answered (.redis command) .rejects => command.key.ofBlocks = true
  | .answered _ _ => True

/-- The last command of the books has been answered, and not with a rejection. -/
def Closes : Observed → Prop
  | .answered (.redis (.expire (.uptime _))) r => r ≠ .rejects
  | _ => False

/-- What may be observed while the books are kept. -/
def Bookish (e : Observed) : Prop := Quiet e ∧ (∀ hex, e ≠ .called (.submitBlock hex)) ∧ ¬ Closes e

variable {e : Observed}

theorem Bookish.quiet (h : Bookish e) : Quiet e := h.1

theorem Quiet.not_booksReject (h : Quiet e) : ¬ BooksReject e := by
  unfold Quiet at h
  unfold BooksReject
  split at h <;> simp_all

theorem BooksReject.not_closes (h : BooksReject e) : ¬ Closes e := by
  unfold BooksReject at h
  split at h
  · unfold Closes
    split <;> simp_all
  · exact h.elim

theorem call_spec {pause : World → List Observed → Call → Prop}
    {post : World → List Observed → Except JsError Answer → Prop} {c : Call} {w : World}
    {l : List Observed} (hpause : pause w (l ++ [.called c]) c)
    (hok : ∀ r w', r ≠ .rejects → post w' (l ++ [.called c, .answered c r]) (.ok r))
    (herr : ∀ w', post w' (l ++ [.called c, .answered c .rejects]) (.error .rejected)) :
    Spec pause post (call c) w l := by
  refine ⟨hpause, fun r w' => ?_⟩
  by_cases hr : r = .rejects
  · subst hr
    exact herr w'
  · have hspec := hok r w' hr
    cases r <;> first | exact absurd rfl hr | exact hspec

/-- Redis has answered these commands, and rejected none of them. -/
def Obeyed (commands : List RedisCommand) (l : List Observed) : Prop :=
  ∀ command ∈ commands, ∃ r, r ≠ .rejects ∧ .answered (.redis command) r ∈ l

/-- The commands that the shared pool keeps its books with. -/
def bookCommands (worker : Key) (wallet : Text) : List RedisCommand :=
  [.lPush .shares (.share worker), .lTrim .shares] ++ walletCommands wallet

theorem obeyed_append {xs ys : List RedisCommand} {l : List Observed} :
    Obeyed (xs ++ ys) l ↔ Obeyed xs l ∧ Obeyed ys l := List.forall_mem_append

theorem Obeyed.mono {commands : List RedisCommand} {l l' : List Observed}
    (h : Obeyed commands l) (hpre : l <+: l') : Obeyed commands l' := by
  intro command hcommand
  obtain ⟨r, hr, hmem⟩ := h command hcommand
  exact ⟨r, hr, hpre.subset hmem⟩

section Books
variable (l₀ : List Observed)

def BooksPause (_ : World) (l : List Observed) (c : Call) : Prop :=
  Grows Bookish l₀ l ∧ ∀ hex, c ≠ .submitBlock hex

/-- The rejection of a command ends the books. -/
def Failed (l : List Observed) : Prop :=
  ∃ l₁ e, l = l₁ ++ [e] ∧ Grows Bookish l₀ l₁ ∧ BooksReject e

/-- The end of the books of a wallet: the last event is the answer to the last command. -/
def Tracked (l : List Observed) : Prop :=
  ∃ l₁ e, l = l₁ ++ [e] ∧ Grows Bookish l₀ l₁ ∧ Quiet e ∧
    ∃ wallet, Obeyed (walletCommands wallet) l

def BooksEnd (kept : List Observed → Prop) (_ : World) (l : List Observed)
    (x : Except JsError Unit) : Prop :=
  match x with
  | .ok _ => kept l
  | .error _ => Failed l₀ l

variable {l₀} {l : List Observed} {c : Call} {w : World}

theorem Tracked.quiet (h : Tracked l₀ l) : Grows Quiet l₀ l := by
  obtain ⟨l₁, e, rfl, hgrow, he, -⟩ := h
  exact (hgrow.mono fun _ => Bookish.quiet).add (by simpa)

variable (h : Grows Bookish l₀ l)
include h

theorem grows_call (hc : ∀ hex, c ≠ .submitBlock hex) : Grows Bookish l₀ (l ++ [.called c]) :=
  h.add (by simpa [Bookish, Quiet, Closes] using hc)

theorem grows_answer (hc : ∀ hex, c ≠ .submitBlock hex) {r : Answer}
    (hr : Bookish (.answered c r)) : Grows Bookish l₀ (l ++ [.called c, .answered c r]) := by
  rw [List.append_cons]
  exact (grows_call h hc).add (by simpa)

omit h in
/-- The end of one command that was sent after `l`. -/
def Replied (l₀ l : List Observed) (command : RedisCommand) (_ : World) (l' : List Observed)
    (x : Except JsError Answer) : Prop :=
  match x with
  | .ok r => r ≠ .rejects ∧ l' = l ++ [.called (.redis command), .answered (.redis command) r]
  | .error _ => Failed l₀ l'

theorem redis_spec {command : RedisCommand} (hkey : command.key.ofBlocks = false) :
    Spec (BooksPause l₀) (Replied l₀ l command) (call (.redis command)) w l := by
  have hc : ∀ hex, Call.redis command ≠ .submitBlock hex := fun _ => Call.noConfusion
  apply call_spec ⟨grows_call h hc, hc⟩
  · exact fun r w' hr => ⟨hr, rfl⟩
  · refine fun w' => ⟨l ++ [.called (.redis command)], .answered (.redis command) .rejects, ?_,
      grows_call h hc, hkey⟩
    rw [List.append_assoc, List.singleton_append]

/-- Commands that keep the books, but not the last one, and what is sent after them. -/
theorem runRedis_spec {commands rest : List RedisCommand}
    (hcommands : ∀ command ∈ commands, command.key.ofBlocks = false ∧
      ∀ wallet, command ≠ .expire (.uptime wallet))
    {kept : List Observed → Prop}
    (hrest : ∀ w' l', Grows Bookish l l' → Obeyed commands l' →
      Spec (BooksPause l₀) (BooksEnd l₀ kept) (runRedis rest) w' l') :
    Spec (BooksPause l₀) (BooksEnd l₀ kept) (runRedis (commands ++ rest)) w l := by
  induction commands generalizing w l with
  | nil => exact hrest w l (Grows.refl l) (by simp [Obeyed])
  | cons command commands ih =>
    obtain ⟨hkey, hlast⟩ := hcommands command List.mem_cons_self
    apply Spec.bind (Replied l₀ l command) (redis_spec h hkey)
    · rintro w' l' r ⟨hr, rfl⟩
      have hbookish : Bookish (.answered (.redis command) r) := by
        refine ⟨?_, by simp, ?_⟩
        · cases r <;> first | exact absurd rfl hr | exact trivial
        · unfold Closes
          split <;> simp_all
      have hgrow := grows_answer (Grows.refl l) (fun _ => Call.noConfusion) hbookish
      apply ih (h.trans hgrow) fun c hc => hcommands c (List.mem_cons_of_mem _ hc)
      intro w'' l'' hgrow' hobeyed
      apply hrest w'' l'' (hgrow.trans hgrow')
      intro c hc
      rcases List.mem_cons.mp hc with rfl | hc
      · exact ⟨r, hr, hgrow'.isPrefix.mem (by simp)⟩
      · exact hobeyed c hc
    · exact fun w' l' e h' => h'

omit h in
/-- Name resolution ends with a name, whatever the service does. -/
def Resolved (l₀ : List Observed) (_ : World) (l : List Observed) (x : Except JsError Text) : Prop :=
  Grows Bookish l₀ l ∧ ∃ address, x = .ok address

theorem fetch_spec (walletOrDomain domain : Text) (now : ℕ) :
    Spec (BooksPause l₀) (Resolved l₀) (resolveTnsToAddress.fetch walletOrDomain domain now) w l := by
  have hc : ∀ hex, Call.tns domain ≠ .submitBlock hex := fun _ => Call.noConfusion
  have hanswer (r : Answer) : Bookish (.answered (.tns domain) r) := by simp [Bookish, Quiet, Closes]
  apply Spec.catching fun _ l _ => Grows Bookish l₀ l
  · apply Spec.bind fun _ l _ => Grows Bookish l₀ l
    · apply call_spec
      · exact ⟨grows_call h hc, hc⟩
      · exact fun r w' _ => grows_answer h hc (hanswer r)
      · exact fun w' => grows_answer h hc (hanswer .rejects)
    · intro w' l' r h'
      split
      · split
        · exact h'
        · exact h'
      · exact h'
    · exact fun w' l' e h' => h'
  · intro w' l' a h'
    exact ⟨h', a, rfl⟩
  · intro w' l' e h'
    exact ⟨h', _, rfl⟩

variable (rt : Runtime)

theorem resolve_spec (walletOrDomain : Text) :
    Spec (BooksPause l₀) (Resolved l₀) (resolveTnsToAddress rt walletOrDomain) w l := by
  simp only [resolveTnsToAddress]
  split_ifs
  · exact ⟨h, _, rfl⟩
  · exact ⟨h, _, rfl⟩
  · apply Spec.get
    split
    · split_ifs
      · exact ⟨h, _, rfl⟩
      · exact fetch_spec h _ _ _
    · exact fetch_spec h _ _ _

theorem awaited_resolve_spec (walletOrDomain : Text) :
    Spec (BooksPause l₀) (Resolved l₀) (awaited (resolveTnsToAddress rt walletOrDomain)) w l := by
  have hc : ∀ hex, Call.settled ≠ .submitBlock hex := fun _ => Call.noConfusion
  apply Spec.settle (Resolved l₀) (resolve_spec h rt walletOrDomain)
  · exact fun w' l' x hx => ⟨grows_call hx.1 hc, hc⟩
  · exact fun w' l' x r w'' hx => ⟨grows_answer hx.1 hc (by simp [Bookish, Quiet, Closes]), hx.2⟩

theorem trackWallet_spec (server : Server) (miner : ℕ) (worker : Key) :
    Spec (BooksPause l₀) (BooksEnd l₀ (Tracked l₀)) (trackWallet rt server miner worker) w l := by
  apply Spec.bind (Resolved l₀) (awaited_resolve_spec h rt _)
  · rintro w' l' wallet ⟨h', -⟩
    -- All commands of the wallet but the last one, then the last one.
    change Spec _ _ (runRedis ((walletCommands wallet).dropLast ++ [.expire (.uptime wallet)])) _ _
    apply runRedis_spec h' (by simp [walletCommands, RedisCommand.key, RedisKey.ofBlocks])
    intro w'' l'' hgrow hobeyed
    apply Spec.bind (Replied l₀ l'' (.expire (.uptime wallet))) (redis_spec (h'.trans hgrow) rfl)
    · rintro w₃ l₃ r ⟨hr, rfl⟩
      refine ⟨l'' ++ [.called (.redis (.expire (.uptime wallet)))],
        .answered (.redis (.expire (.uptime wallet))) r, by simp,
        grows_call (h'.trans hgrow) fun _ => Call.noConfusion, ?_, wallet, ?_⟩
      · cases r <;> first | exact absurd rfl hr | exact trivial
      · have hall : Obeyed ((walletCommands wallet).dropLast ++ [.expire (.uptime wallet)]) (l'' ++
            [.called (.redis (.expire (.uptime wallet))),
              .answered (.redis (.expire (.uptime wallet))) r]) :=
          obeyed_append.mpr ⟨hobeyed.mono (List.prefix_append _ _), by simp [Obeyed]; exact ⟨r, hr, .inr rfl⟩⟩
        exact hall
    · exact fun w' l' e h' => h'
  · rintro w' l' e ⟨_, _, hx⟩
    cases hx

end Books

section Block
variable {l₀ l : List Observed} {w : World}

def Assembled (header : List UInt8) (coinbaseHex : Text) (w : World) (hex : Text) : Prop :=
  ∃ t, w.blockTemplate = some t ∧ blockText header coinbaseHex t.txData = .ok hex

/-- The course of the block part, from `l₀` on: unless some call has been answered since, what could
be assembled has been submitted. -/
def BlockCourse (header : List UInt8) (coinbaseHex : Text) (l₀ : List Observed) (w : World)
    (l : List Observed) : Prop :=
  ∃ added, l = l₀ ++ added ∧ (∀ e ∈ added, Quiet e) ∧ ((∀ c r, .answered c r ∉ added) →
    ∀ hex, Assembled header coinbaseHex w hex → .called (.submitBlock hex) ∈ added)

/-- A block is submitted as the first thing of the block part. -/
def BlockPause (header : List UInt8) (coinbaseHex : Text) (l₀ : List Observed) (w : World)
    (l : List Observed) (c : Call) : Prop :=
  BlockCourse header coinbaseHex l₀ w l ∧ ∀ hex, c = .submitBlock hex →
    l = l₀ ++ [.called c] ∧ Assembled header coinbaseHex w hex

variable {header : List UInt8} {coinbaseHex : Text}

theorem BlockCourse.quiet (h : BlockCourse header coinbaseHex l₀ w l) : Grows Quiet l₀ l := by
  obtain ⟨added, rfl, hadded, -⟩ := h
  exact ⟨added, rfl, hadded⟩

theorem BlockCourse.call (h : BlockCourse header coinbaseHex l₀ w l) (c : Call) :
    BlockCourse header coinbaseHex l₀ w (l ++ [.called c]) := by
  obtain ⟨added, rfl, hadded, hcalled⟩ := h
  refine ⟨added ++ [.called c], List.append_assoc _ _ _, ?_, fun hno hex hhex => ?_⟩
  · exact List.forall_mem_append.mpr ⟨hadded, by simp [Quiet]⟩
  · exact List.mem_append_left _ (hcalled (fun c r hmem => hno c r (List.mem_append_left _ hmem)) hex hhex)

theorem blockCourse_of_answered {l₁ : List Observed} {c : Call} {r : Answer}
    (h : Grows Quiet l₀ l₁) (hr : Quiet (.answered c r))
    (h' : Grows Quiet (l₁ ++ [.called c, .answered c r]) l) (w : World) :
    BlockCourse header coinbaseHex l₀ w l := by
  obtain ⟨added, rfl, hadded⟩ := h
  obtain ⟨later, rfl, hlater⟩ := h'
  refine ⟨added ++ [.called c, .answered c r] ++ later, by simp, ?_, fun hno => ?_⟩
  · intro e he
    simp only [List.mem_append, List.mem_cons, List.not_mem_nil, or_false] at he
    rcases he with (he | rfl | rfl) | he
    · exact hadded e he
    · exact trivial
    · exact hr
    · exact hlater e he
  · exact (hno c r (by simp)).elim

theorem runRedis_quiet {commands : List RedisCommand}
    (hcommands : ∀ command ∈ commands, command.key.ofBlocks = true) (h : Grows Quiet l₀ l) :
    Spec (fun _ l c => Grows Quiet l₀ l ∧ ∀ hex, c ≠ .submitBlock hex)
      (fun _ l _ => Grows Quiet l₀ l) (runRedis commands) w l := by
  induction commands generalizing w l with
  | nil => exact h
  | cons command commands ih =>
    have hkey := hcommands command List.mem_cons_self
    apply Spec.bind fun _ l _ => Grows Quiet l₀ l
    · apply call_spec
      · refine ⟨h.add ?_, fun _ => Call.noConfusion⟩
        simp [Quiet]
      · intro r w' hr
        apply h.add
        cases r <;> simp_all [Quiet]
      · intro w'
        apply h.add
        simp [Quiet, hkey]
    · intro w' l' _ h'
      exact ih (fun c hc => hcommands c (List.mem_cons_of_mem _ hc)) h'
    · exact fun w' l' e h' => h'

section Found
variable {accepted rejected : ℕ → List RedisCommand}
  (haccepted : ∀ height, ∀ command ∈ accepted height, command.key.ofBlocks = true)
  (hrejected : ∀ height, ∀ command ∈ rejected height, command.key.ofBlocks = true)
  (header : List UInt8) (coinbaseHex : Text) (l₀ : List Observed)
include haccepted hrejected

theorem submitFound_spec :
    Spec (BlockPause header coinbaseHex l₀) (fun w' l' _ => BlockCourse header coinbaseHex l₀ w' l')
      (submitFound accepted rejected header coinbaseHex) w l₀ := by
  apply Spec.get
  cases ht : w.blockTemplate with
  | none =>
    refine ⟨[], by simp, by simp, ?_⟩
    rintro - hex ⟨t, ht', -⟩
    rw [ht] at ht'
    cases ht'
  | some t =>
    have hassembled : ∀ hex, Assembled header coinbaseHex w hex →
        blockText header coinbaseHex t.txData = .ok hex := by
      rintro hex ⟨t', ht', hex'⟩
      rw [ht] at ht'
      cases ht'
      exact hex'
    cases hblock : blockText header coinbaseHex t.txData with
    | error e =>
      apply Spec.ofExcept_error hblock
      refine ⟨[], by simp, by simp, fun _ hex hhex => ?_⟩
      rw [hassembled hex hhex] at hblock
      cases hblock
    | ok blockHex =>
      apply Spec.ofExcept hblock
      -- The answer to the call stands in the trace from here on.
      have hend : ∀ r w' l', Grows Quiet (l₀ ++ [.called (.submitBlock blockHex),
          .answered (.submitBlock blockHex) r]) l' → BlockCourse header coinbaseHex l₀ w' l' :=
        fun r w' l' h' => blockCourse_of_answered (Grows.refl l₀) (by simp [Quiet]) h' w'
      have hredis : ∀ commands : List RedisCommand,
          (∀ command ∈ commands, command.key.ofBlocks = true) → ∀ r w' l',
          Grows Quiet (l₀ ++ [.called (.submitBlock blockHex),
            .answered (.submitBlock blockHex) r]) l' →
          Spec (BlockPause header coinbaseHex l₀)
            (fun w' l' _ => BlockCourse header coinbaseHex l₀ w' l') (runRedis commands) w' l' := by
        intro commands hcommands r w' l' h'
        apply ((runRedis_quiet hcommands h').mono fun w'' l'' _ => hend r w'' l'').relax
        exact fun w'' l'' c hc => ⟨hend r w'' l'' hc.1, fun hex heq => absurd heq (hc.2 hex)⟩
      apply Spec.bind fun _ l' _ => ∃ r, Grows Quiet (l₀ ++ [.called (.submitBlock blockHex),
        .answered (.submitBlock blockHex) r]) l'
      · apply call_spec
        · refine ⟨⟨[.called (.submitBlock blockHex)], rfl, by simp [Quiet], fun _ hex hhex => ?_⟩, ?_⟩
          · obtain rfl := Except.ok.inj (hblock.symm.trans (hassembled hex hhex))
            exact List.mem_singleton_self _
          · rintro hex heq
            obtain rfl := Call.submitBlock.inj heq
            exact ⟨rfl, t, ht, hblock⟩
        · exact fun r w' _ => ⟨r, Grows.refl _⟩
        · exact fun w' => ⟨.rejects, Grows.refl _⟩
      · rintro w' l' _ ⟨r, h'⟩
        split
        · apply Spec.get
          split_ifs
          · exact hredis _ (haccepted _) r w' l' h'
          · exact hend r w' l' h'
        · apply Spec.get
          split_ifs
          · exact hredis _ (hrejected _) r w' l' h'
          · exact hend r w' l' h'
        · exact hend r w' l' h'
      · rintro w' l' e ⟨r, h'⟩
        exact hend r w' l' h'

theorem awaited_found_spec (count : World → World) :
    Spec (BlockPause header coinbaseHex l₀)
      (fun w' l' x => x = .ok () ∧ BlockCourse header coinbaseHex l₀ w' l')
      (awaited (do
        Async.modify count
        (submitFound accepted rejected header coinbaseHex).catching fun _ => pure ())) w l₀ := by
  apply Spec.settle fun w' l' x => x = .ok () ∧ BlockCourse header coinbaseHex l₀ w' l'
  · apply Spec.catching _ (submitFound_spec haccepted hrejected header coinbaseHex l₀)
    · exact fun w' l' a h' => ⟨rfl, h'⟩
    · exact fun w' l' e h' => ⟨rfl, h'⟩
  · intro w' l' x h'
    exact ⟨h'.2.call .settled, fun hex heq => Call.noConfusion heq⟩
  · intro w' l' x r w'' h'
    exact ⟨h'.1, blockCourse_of_answered h'.2.quiet (by simp [Quiet]) (Grows.refl _) w''⟩

end Found

theorem blockFound_spec {t : PoolM Unit} {worker : Key} (header : List UInt8) (coinbaseHex : Text)
    (ht : t = handleBlockFound header coinbaseHex worker ∨
      t = handleSoloBlockFound header coinbaseHex worker) (l₀ : List Observed) :
    Spec (BlockPause header coinbaseHex l₀)
      (fun w' l' x => x = .ok () ∧ BlockCourse header coinbaseHex l₀ w' l') (awaited t) w l₀ := by
  rcases ht with rfl | rfl
  all_goals
    apply awaited_found_spec
    · simp [RedisCommand.key, RedisKey.ofBlocks]
    · simp [RedisCommand.key, RedisKey.ofBlocks]

end Block

section Verify
variable (rt : Runtime) (a : Attempt) (redis : Bool)

def opening (header : List UInt8) : List Observed :=
  [.emitted (.credited (a.share header)), .emitted (.reply a.socket a.id .accepted)]

/-- The books of the shared pool are in order: without Redis there are none, and otherwise the last
event is the answer to their last command. -/
def Kept (header : List UInt8) (l : List Observed) : Prop :=
  (redis = false ∧ l = opening a header) ∨ (redis = true ∧ ∃ l₁ e, l = l₁ ++ [e] ∧
    Grows Bookish (opening a header) l₁ ∧ Quiet e ∧
    ∃ wallet, Obeyed (bookCommands a.fields.worker wallet) l)

/-- The course of a share that meets the network target: the books are open, or they have been kept
and the block part has begun. -/
def Course (header : List UInt8) (w : World) (l : List Observed) : Prop :=
  (redis = true ∧ ∀ e ∈ l, ¬ Closes e) ∨
    ∃ l₀, Kept a redis header l₀ ∧ BlockCourse header a.coinbaseHex l₀ w l

/-- What may be observed before the books fail. Only the solo server submits a block first. -/
def Server.Early (server : Server) (e : Observed) : Prop :=
  match server with
  | .pool => Bookish e
  | .solo => Quiet e

theorem Server.Early.quiet {server : Server} (h : server.Early e) : Quiet e := by
  cases server with
  | pool => exact Bookish.quiet h
  | solo => exact h

def VerifyPause (w : World) (l : List Observed) (c : Call) : Prop :=
  ∃ header, a.header rt = .ok header ∧ Grows Quiet (opening a header) l ∧
    (∀ hex, c = .submitBlock hex →
      meetsNetwork rt a header = true ∧ Assembled header a.coinbaseHex w hex ∧
        (a.server = .pool → ∃ l₀, Kept a redis header l₀ ∧ l = l₀ ++ [.called c])) ∧
    (a.server = .pool → meetsNetwork rt a header = true → Course a redis header w l)

def Upset (header : List UInt8) (rest : List Observed) (l : List Observed) : Prop :=
  ∃ l₁ e, l = l₁ ++ e :: rest ∧ Grows a.server.Early (opening a header) l₁ ∧ BooksReject e

def VerifyEnd (w : World) (l : List Observed) (x : Except JsError Unit) : Prop :=
  x = .ok () ∧
    match a.header rt with
    | .error _ => l = [.emitted (.reply a.socket a.id .verificationError)]
    | .ok header =>
      (Grows Quiet (opening a header) l ∨
        Upset a header [.emitted (.reply a.socket a.id .verificationError)] l) ∧
      (a.server = .pool → meetsNetwork rt a header = true → Course a redis header w l)

/-- The end of the `try` block that rebuilds the header. -/
def TryEnd (w : World) (l : List Observed) (x : Except JsError Unit) : Prop :=
  match a.header rt with
  | .error _ => l = [] ∧ ∃ e, x = .error e
  | .ok header =>
    match x with
    | .ok _ => Grows Quiet (opening a header) l ∧
        (a.server = .pool → meetsNetwork rt a header = true → Course a redis header w l)
    | .error _ => Upset a header [] l ∧ (a.server = .pool → redis = true)

variable {rt a redis} {header : List UInt8}

theorem Upset.not_closes (ha : a.server = .pool) {o : Output} {l : List Observed}
    (h : Upset a header [.emitted o] l) : ∀ e ∈ l, ¬ Closes e := by
  obtain ⟨l₁, b, rfl, ⟨added, rfl, hadded⟩, hb⟩ := h
  simp only [ha, Server.Early] at hadded
  intro e he
  simp only [opening, List.mem_append, List.mem_cons, List.not_mem_nil, or_false] at he
  rcases he with ((rfl | rfl) | he) | rfl | rfl
  · exact id
  · exact id
  · exact (hadded e he).2.2
  · exact hb.not_closes
  · exact id

theorem TryEnd.handle {t : PoolM Unit} {w : World}
    (h : Spec (VerifyPause rt a redis) (TryEnd rt a redis) t w []) :
    Spec (VerifyPause rt a redis) (VerifyEnd rt a redis)
      (t.catching fun _ => reply a.socket a.id .verificationError) w [] := by
  apply Spec.catching _ h
  · intro w' l x hx
    cases hheader : a.header rt with
    | error e =>
      simp only [TryEnd, hheader] at hx
      obtain ⟨_, e', he'⟩ := hx
      cases he'
    | ok header =>
      simp only [TryEnd, hheader] at hx
      simp only [VerifyEnd, hheader]
      exact ⟨trivial, .inl hx.1, hx.2⟩
  · intro w' l e hx
    cases hheader : a.header rt with
    | error e =>
      simp only [TryEnd, hheader] at hx
      simp only [reply, Async.output, Spec, VerifyEnd, hheader, hx.1, List.nil_append]
      exact ⟨trivial, trivial⟩
    | ok header =>
      simp only [TryEnd, hheader] at hx
      obtain ⟨⟨l₁, b, rfl, hgrow, hb⟩, hredis⟩ := hx
      have hupset : Upset a header [.emitted (.reply a.socket a.id .verificationError)]
          (l₁ ++ [b] ++ [.emitted (.reply a.socket a.id .verificationError)]) :=
        ⟨l₁, b, by simp, hgrow, hb⟩
      simp only [reply, Async.output, Spec, VerifyEnd, hheader]
      exact ⟨trivial, .inr hupset, fun ha _ => .inl ⟨hredis ha, Upset.not_closes ha hupset⟩⟩

theorem grows_not_closes {l : List Observed} (h : Grows Bookish (opening a header) l) :
    ∀ e ∈ l, ¬ Closes e := by
  obtain ⟨added, rfl, hadded⟩ := h
  simp only [opening, List.forall_mem_append, List.forall_mem_cons]
  exact ⟨⟨id, id, by simp⟩, fun e he => (hadded e he).2.2⟩

theorem Kept.quiet {l : List Observed} (h : Kept a redis header l) :
    Grows Quiet (opening a header) l := by
  rcases h with ⟨-, rfl⟩ | ⟨-, l₁, e, rfl, hgrow, he, -⟩
  · exact Grows.refl _
  · exact (hgrow.mono fun _ => Bookish.quiet).add (by simpa)

theorem poolBooks_spec (rt : Runtime) (a : Attempt) (header : List UInt8) (w : World) :
    Spec (fun w' l c => w.redis = true ∧ BooksPause (opening a header) w' l c)
      (fun _ l x => match x with
        | .ok _ => Kept a w.redis header l
        | .error _ => w.redis = true ∧ Failed (opening a header) l)
      (poolBooks rt a) w (opening a header) := by
  apply Spec.get
  split_ifs with hredis
  · apply Spec.relax _ fun w' l c hc => ⟨hredis, hc⟩
    apply Spec.bind (BooksEnd (opening a header) fun l => Grows Bookish (opening a header) l ∧
      Obeyed [.lPush .shares (.share a.fields.worker), .lTrim .shares] l)
    · change Spec _ _ (runRedis ([_, _] ++ [])) _ _
      apply runRedis_spec (Grows.refl _) (by simp [RedisCommand.key, RedisKey.ofBlocks])
      exact fun w' l' hgrow hobeyed => ⟨hgrow, hobeyed⟩
    · rintro w' l' _ ⟨hgrow, hobeyed⟩
      apply ((trackWallet_spec (Grows.refl l') rt .pool a.miner a.fields.worker).relax
        fun _ l c hc => ⟨hgrow.trans hc.1, hc.2⟩).mono
      intro w'' l'' x hx
      cases x with
      | ok _ =>
        obtain ⟨l₁, e, rfl, hgrow', he, wallet, hwallet⟩ := hx
        refine .inr ⟨hredis, l₁, e, rfl, hgrow.trans hgrow', he, wallet, ?_⟩
        refine obeyed_append.mpr ⟨hobeyed.mono ?_, hwallet⟩
        exact hgrow'.isPrefix.trans (List.prefix_append _ _)
      | error e =>
        obtain ⟨l₁, e, rfl, hgrow', he⟩ := hx
        exact ⟨hredis, l₁, e, rfl, hgrow.trans hgrow', he⟩
    · exact fun w' l' e h' => ⟨hredis, h'⟩
  · exact .inl ⟨by simpa using hredis, rfl⟩

theorem soloBooks_spec (rt : Runtime) (a : Attempt) (w : World) (l : List Observed) :
    Spec (BooksPause l) (BooksEnd l (Grows Quiet l)) (soloBooks rt a) w l := by
  apply Spec.get
  split_ifs
  · apply (trackWallet_spec (Grows.refl l) rt .solo a.miner a.fields.worker).mono
    intro w' l' x hx
    cases x with
    | ok _ => exact Tracked.quiet hx
    | error e => exact hx
  · exact Grows.refl l

theorem BooksPause.verify (hheader : a.header rt = .ok header) {l₀ : List Observed}
    (hl₀ : Grows Quiet (opening a header) l₀) {w : World} {l : List Observed} {c : Call}
    (h : BooksPause l₀ w l c)
    (hcourse : a.server = .pool → meetsNetwork rt a header = true → Course a redis header w l) :
    VerifyPause rt a redis w l c :=
  ⟨header, hheader, hl₀.trans (h.1.mono fun _ => Bookish.quiet), fun hex hc => absurd hc (h.2 hex),
    hcourse⟩

theorem verifyShare_spec (ha : a.server = .pool) (w : World) :
    Spec (VerifyPause rt a w.redis) (VerifyEnd rt a w.redis) (verifyShare rt a) w [] := by
  apply TryEnd.handle
  cases hheader : a.header rt with
  | error e =>
    apply Spec.ofExcept_error rfl
    simp only [TryEnd, hheader]
    exact ⟨trivial, e, rfl⟩
  | ok header =>
    have hredis : (w.updateMiner a.server a.miner Miner.credit).redis = w.redis := by
      simp [World.updateMiner]
    change Spec _ _ (poolBooks rt a >>= _) (w.updateMiner a.server a.miner Miner.credit)
      (opening a header)
    rw [← hredis]
    apply Spec.bind _ ((poolBooks_spec rt a header _).relax _)
    · intro w' l' _ h'
      unfold poolBlock
      split_ifs with hmeets
      · apply ((blockFound_spec header a.coinbaseHex (.inl rfl) l').relax _).mono
        · rintro w'' l'' x ⟨rfl, hend⟩
          simp only [TryEnd, hheader]
          exact ⟨h'.quiet.trans hend.quiet, fun _ _ => .inr ⟨l', h', hend⟩⟩
        · intro w'' l'' c hc
          refine ⟨header, hheader, h'.quiet.trans hc.1.quiet, fun hex heq => ?_,
            fun _ _ => .inr ⟨l', h', hc.1⟩⟩
          obtain ⟨hl'', hhex⟩ := hc.2 hex heq
          exact ⟨hmeets, hhex, fun _ => ⟨l', h', hl''⟩⟩
      · change TryEnd rt a _ w' l' (.ok ())
        simp only [TryEnd, hheader]
        exact ⟨h'.quiet, fun _ hm => absurd hm hmeets⟩
    · rintro w' l' e ⟨hon, l₁, b, rfl, hgrow, hb⟩
      simp only [TryEnd, hheader]
      exact ⟨⟨l₁, b, rfl, ha ▸ hgrow, hb⟩, fun _ => hon⟩
    · intro w' l' c hc
      exact hc.2.verify hheader (Grows.refl _) fun _ _ => .inl ⟨hc.1, grows_not_closes hc.2.1⟩

theorem verifySoloShare_spec (ha : a.server = .solo) (w : World) :
    Spec (VerifyPause rt a redis) (VerifyEnd rt a redis) (verifySoloShare rt a) w [] := by
  have hne : a.server ≠ .pool := by simp [ha]
  apply TryEnd.handle
  cases hheader : a.header rt with
  | error e =>
    apply Spec.ofExcept_error rfl
    simp only [TryEnd, hheader]
    exact ⟨trivial, e, rfl⟩
  | ok header =>
    change Spec _ _ (soloBlock rt a header >>= _) (w.updateMiner a.server a.miner Miner.credit)
      (opening a header)
    apply Spec.bind fun w' l' x => x = .ok () ∧ Grows Quiet (opening a header) l'
    · unfold soloBlock
      split_ifs with hmeets
      · apply ((blockFound_spec header a.coinbaseHex (.inr rfl) (opening a header)).relax _).mono
        · exact fun w' l' x hx => ⟨hx.1, hx.2.quiet⟩
        · intro w' l' c hc
          exact ⟨header, hheader, hc.1.quiet, fun hex heq =>
            ⟨hmeets, (hc.2 hex heq).2, fun hp => absurd hp hne⟩, fun hp => absurd hp hne⟩
      · exact ⟨rfl, Grows.refl _⟩
    · rintro w' l' _ ⟨_, hquiet⟩
      apply ((soloBooks_spec rt a w' l').relax
        fun w l c hc => hc.verify hheader hquiet fun hp => absurd hp hne).mono
      intro w'' l'' x hx
      simp only [TryEnd, hheader]
      cases x with
      | ok _ => exact ⟨hquiet.trans hx, fun hp => absurd hp hne⟩
      | error e =>
        obtain ⟨l₁, b, rfl, hgrow, hb⟩ := hx
        refine ⟨⟨l₁, b, rfl, ?_, hb⟩, fun hp => absurd hp hne⟩
        rw [ha]
        exact hquiet.trans (hgrow.mono fun _ => Bookish.quiet)
    · rintro w' l' e ⟨hx, _⟩
      cases hx

theorem verify_spec (rt : Runtime) (a : Attempt) (w : World) :
    Spec (VerifyPause rt a w.redis) (VerifyEnd rt a w.redis) (verify rt a) w [] := by
  unfold verify
  split
  · exact verifyShare_spec ‹_› w
  · exact verifySoloShare_spec ‹_› w

end Verify

section Threads
variable (rt : Runtime)

def SubmitPause (input : Input) (w₀ w : World) (l : List Observed) (c : Call) : Prop :=
  ∀ socket request s, input = .message socket .submit request → w₀.sockets[socket]? = some s →
    ∃ a, (screened rt socket s request w₀).2 = .attempt a ∧ VerifyPause rt a w₀.redis w l c

def SubmitEnd (input : Input) (w₀ w : World) (l : List Observed) (x : Except JsError Unit) : Prop :=
  ∀ socket request s, input = .message socket .submit request → w₀.sockets[socket]? = some s →
    match (screened rt socket s request w₀).2 with
    | .unreadable => l = []
    | .refused body => l = [.emitted (.reply socket request.id body)]
    | .attempt a => VerifyEnd rt a w₀.redis w l x

theorem start_spec (input : Input) (w₀ : World) :
    Spec (SubmitPause rt input w₀) (SubmitEnd rt input w₀) (start rt input) w₀ [] := by
  by_cases hsubmit : ∃ socket request s, input = .message socket .submit request ∧
      w₀.sockets[socket]? = some s
  · obtain ⟨socket, request, s, rfl, hs⟩ := hsubmit
    -- The socket is determined, so there is one case of each statement.
    have hpause : ∀ a, (screened rt socket s request w₀).2 = .attempt a → ∀ w l c,
        VerifyPause rt a w₀.redis w l c →
          SubmitPause rt (.message socket .submit request) w₀ w l c := by
      rintro a ha w l c hc _ _ s' ⟨⟩ hs'
      obtain rfl : s = s' := Option.some.inj (hs.symm.trans hs')
      exact ⟨a, ha, hc⟩
    have hpost : ∀ w l x, (match (screened rt socket s request w₀).2 with
        | .unreadable => l = []
        | .refused body => l = [.emitted (.reply socket request.id body)]
        | .attempt a => VerifyEnd rt a w₀.redis w l x) →
        SubmitEnd rt (.message socket .submit request) w₀ w l x := by
      rintro w l x hx _ _ s' ⟨⟩ hs'
      obtain rfl : s = s' := Option.some.inj (hs.symm.trans hs')
      exact hx
    apply ((receive_submit_leads rt hs request).spec_iff []).mpr
    change Spec _ _ ((screened rt socket s request w₀).2.rest rt)
      (screened rt socket s request w₀).1 (((screened rt socket s request w₀).2.replies socket
        request.id).map .emitted)
    cases hv : (screened rt socket s request w₀).2 with
    | unreadable =>
      apply hpost
      rw [hv]
      rfl
    | refused body =>
      apply hpost
      rw [hv]
      rfl
    | attempt a =>
      have hverify := verify_spec rt a (screened rt socket s request w₀).1
      rw [(screened_kept rt socket s request w₀).2] at hverify
      apply Spec.catching _ (hverify.relax (hpause a hv))
      · intro w l _ hend
        apply hpost
        rwa [hv]
      · rintro w l e ⟨hx, _⟩
        cases hx
  · apply ((Spec.trivial _ _ _).relax _).mono
    · exact fun w l x _ socket request s hinput hs => (hsubmit ⟨socket, request, s, hinput, hs⟩).elim
    · exact fun w l c _ socket request s hinput hs => (hsubmit ⟨socket, request, s, hinput, hs⟩).elim

variable {rt}

/-- In every run, what has been observed of a thread is a course of its task. -/
theorem run_observed {w : World} {moves : List PoolMove} {i : ℕ} {t : PoolThread}
    (ht : (runPool rt w moves).threads[i]? = some t) :
    ∃ w', (∃ c k, t.rest = .waiting c k ∧
        SubmitPause rt t.input t.origin w' (Async.own i (runPool rt w moves).log) c) ∨
      ∃ x, t.rest = .done x ∧
        SubmitEnd rt t.input t.origin w' (Async.own i (runPool rt w moves).log) x := by
  obtain ⟨w', hmeets⟩ := Async.run_sound (start_spec rt) w moves i t ht
  use w'
  unfold Async.Thread.Meets at hmeets
  cases hrest : t.rest with
  | done x =>
    rw [hrest] at hmeets
    exact .inr ⟨x, rfl, hmeets⟩
  | waiting c k =>
    rw [hrest] at hmeets
    exact .inl ⟨c, k, rfl, hmeets.1⟩

end Threads

end Tarcoin.Pool
