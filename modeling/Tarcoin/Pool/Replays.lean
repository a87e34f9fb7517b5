import Tarcoin.Pool.ShareKey
import Tarcoin.Pool.Replies
import Tarcoin.Pool.Workers

/-! The shared pool forgets the shares of a job when an entry is replaced or another job id comes
in. In runs where neither happens, with plain digits and distinct first extra nonces, no header is
counted twice during the life of a job. -/
namespace Tarcoin.Pool
open Async (Only Leads Keeps Holding EachAfter)

/-- The shares that the shared pool counted since the template was last replaced. -/
def currentShares (l : List Output) : List Share :=
  l.foldl (fun shares o => match o with
    | .refreshed _ => []
    | .credited share => if share.server = .pool then share :: shares else shares
    | _ => shares) []

variable {o : Output}

theorem mem_currentShares_concat {l : List Output} {share : Share}
    (h : share ∈ currentShares (l ++ [o])) :
    share ∈ currentShares l ∨ (o = .credited share ∧ share.server = .pool) := by
  rw [currentShares, List.foldl_concat] at h
  cases o with
  | refreshed t => cases h
  | credited share' =>
    dsimp only at h
    split_ifs at h with hpool
    · rcases List.mem_cons.mp h with rfl | h
      · exact .inr ⟨rfl, hpool⟩
      · exact .inl h
    · exact .inl h
  | reply socket id body => exact .inl h
  | setDifficulty socket diff => exact .inl h
  | notify socket miner job => exact .inl h

/-- A share of the shared pool has another header than those counted before it for the job. -/
def DistinctAt (rt : Runtime) (past : List Output) : Output → Prop
  | .credited share => share.server = .pool → Distinguishes rt share.template →
      ∀ earlier ∈ currentShares past, earlier.header ≠ share.header
  | _ => True

theorem distinctAt_of_uncredited (rt : Runtime) (past : List Output) (h : o.uncredited) :
    DistinctAt rt past o := by
  cases o with
  | credited share => exact h.elim
  | _ => trivial

def World.nonces (w : World) : List (Server × Text) := w.sockets.map fun s => (s.server, s.extraNonce1)

theorem nonces_of_core {w w' : World} (h : w'.sockets.map Socket.core = w.sockets.map Socket.core) :
    w'.nonces = w.nonces := by
  have hmap := congrArg (List.map fun s => (s.server, s.extraNonce1)) h
  rw [List.map_map, List.map_map] at hmap
  exact hmap

theorem nonces_closed (w : World) (socket : ℕ) (s : Socket) : (w.closed socket s).nonces = w.nonces := by
  rw [World.nonces, sockets_closed]
  apply map_modify_eq
  exact fun _ => rfl

theorem nonces_rename (w : World) (socket : ℕ) (name : Key) :
    (w.rename socket name).nonces = w.nonces := by
  apply map_modify_eq
  exact fun _ => rfl

/-- The connections of the shared pool can be told apart by four bytes. -/
structure Apart (nonces : List (Server × Text)) : Prop where
  bytes : ∀ n, (Server.pool, n) ∈ nonces → ∃ x : List UInt8, x.length = 4 ∧ n = Hex.encode x
  unique : ∀ (i j : ℕ) (n : Text), nonces[i]? = some (.pool, n) → nonces[j]? = some (.pool, n) → i = j

theorem Apart.concat {nonces : List (Server × Text)} (h : Apart nonces) {server : Server}
    {x : List UInt8} (hx : x.length = 4)
    (hnew : server = .pool → (.pool, Hex.encode x) ∉ nonces) :
    Apart (nonces ++ [(server, Hex.encode x)]) where
  bytes := fun n hn => by
    rcases List.mem_append.mp hn with hn | hn
    · exact h.bytes n hn
    · exact ⟨x, hx, (Prod.mk.inj (List.mem_singleton.mp hn)).2⟩
  unique := by
    -- The new connection has a nonce that no earlier one has.
    have hcase : ∀ (i : ℕ) (n : Text), (nonces ++ [(server, Hex.encode x)])[i]? = some (.pool, n) →
        nonces[i]? = some (.pool, n) ∨ (i = nonces.length ∧ server = .pool ∧ n = Hex.encode x) := by
      intro i n hi
      rw [List.getElem?_append] at hi
      split_ifs at hi with hlt
      · exact .inl hi
      · obtain ⟨hserver, hn⟩ := Prod.mk.inj (List.mem_singleton.mp (List.mem_of_getElem? hi))
        have hzero := (List.getElem?_eq_some_iff.mp hi).1
        rw [List.length_singleton] at hzero
        exact .inr ⟨by omega, hserver.symm, hn⟩
    intro i j n hi hj
    rcases hcase i n hi with hi | ⟨rfl, hserver, rfl⟩
    · rcases hcase j n hj with hj | ⟨rfl, hserver, rfl⟩
      · exact h.unique i j n hi hj
      · exact absurd (List.mem_of_getElem? hi) (hnew hserver)
    · rcases hcase j _ hj with hj | ⟨rfl, -, -⟩
      · exact absurd (List.mem_of_getElem? hj) (hnew hserver)
      · rfl

/-- A counted share of the job in place is remembered in the entry that its connection is counted
for. -/
structure Recorded (rt : Runtime) (w : World) (share : Share) : Prop where
  template : w.blockTemplate = some share.template
  jobId : share.jobId = .str share.template.jobId
  nonce : w.nonces[share.socket]? = some (.pool, share.extraNonce1)
  owner : ∀ name e, w.names[share.socket]? = some name → w.poolMiners.miners.get name = some e →
    e = share.miner
  seen : ∃ fields m, WellFormed rt share.template fields ∧
    rebuildHeader rt (share.template.work share.template.coinbase1 share.template.coinbase2)
      share.extraNonce1 fields = .ok share.header ∧
    w.poolMiners.entries[share.miner]? = some m ∧ m.lastJobId = share.jobId ∧
    fields.shareKey ∈ m.submittedShares

section Recorded
variable {rt : Runtime} {w w' : World} {l : List Output} {share : Share}

theorem Recorded.carry (h : Recorded rt w share) (htemplate : w'.blockTemplate = w.blockTemplate)
    (hnonce : ∀ n, w.nonces[share.socket]? = some n → w'.nonces[share.socket]? = some n)
    (howner : ∀ name e, w'.names[share.socket]? = some name → w'.poolMiners.miners.get name = some e →
      w.names[share.socket]? = some name ∧ w.poolMiners.miners.get name = some e)
    (hseen : ∀ m, w.poolMiners.entries[share.miner]? = some m → m.lastJobId = share.jobId →
      ∃ m', w'.poolMiners.entries[share.miner]? = some m' ∧ m'.lastJobId = share.jobId ∧
        m.submittedShares ⊆ m'.submittedShares) : Recorded rt w' share where
  template := htemplate.trans h.template
  jobId := h.jobId
  nonce := hnonce _ h.nonce
  owner := fun name e hname he =>
    h.owner name e (howner name e hname he).1 (howner name e hname he).2
  seen := by
    obtain ⟨fields, m, hfields, hheader, hm, hlast, hkey⟩ := h.seen
    obtain ⟨m', hm', hlast', hsub⟩ := hseen m hm hlast
    exact ⟨fields, m', hfields, hheader, hm', hlast', hsub hkey⟩

theorem Recorded.of_steady (h : Recorded rt w share) (hs : Steady w w') : Recorded rt w' share := by
  have hminers : w'.poolMiners.miners = w.poolMiners.miners := hs.miners .pool
  apply h.carry hs.blockTemplate
  · rw [nonces_of_core hs.sockets]
    exact fun _ => id
  · rw [names_of_core hs.sockets, hminers]
    exact fun _ _ => And.intro
  · intro m hm hlast
    have hget := congrArg (fun l : List (Option ℕ × Key × List Text) => l[share.miner]?) (hs.duties .pool)
    simp only [World.registry, List.getElem?_map, hm, Option.map_some] at hget
    obtain ⟨m', hm', hduty⟩ := Option.map_eq_some_iff.mp hget
    simp only [Miner.duty, Prod.mk.injEq] at hduty
    obtain ⟨-, hlast', hshares⟩ := hduty
    exact ⟨m', hm', hlast'.trans hlast, hshares ▸ List.Subset.refl _⟩

/-- The invariant: the connections can be told apart, and every counted share of the job in place
is recorded. -/
structure Unrepeated (rt : Runtime) (w : World) (l : List Output) : Prop where
  apart : Apart w.nonces
  bounded : ∀ name e, w.poolMiners.miners.get name = some e → e < w.poolMiners.entries.length
  recorded : ∀ share ∈ currentShares l, Recorded rt w share
  distinct : EachAfter (DistinctAt rt) l

variable (h : Unrepeated rt w l)
include h

theorem Unrepeated.of_steady (hs : Steady w w') : Unrepeated rt w' l where
  apart := by
    rw [nonces_of_core hs.sockets]
    exact h.apart
  bounded := fun name e he => by
    have hminers : w'.poolMiners.miners = w.poolMiners.miners := hs.miners .pool
    have hlength := congrArg List.length (hs.duties .pool)
    simp only [World.registry, List.length_map] at hlength
    rw [hminers] at he
    rw [hlength]
    exact h.bounded name e he
  recorded := fun share hshare => (h.recorded share hshare).of_steady hs
  distinct := h.distinct

theorem Unrepeated.emit (ho : o.uncredited) : Unrepeated rt w (l ++ [o]) where
  apart := h.apart
  bounded := h.bounded
  recorded := fun share hshare => by
    rcases mem_currentShares_concat hshare with hshare | ⟨rfl, -⟩
    · exact h.recorded share hshare
    · exact ho.elim
  distinct := Async.eachAfter_concat.mpr ⟨h.distinct, distinctAt_of_uncredited rt l ho⟩

theorem Unrepeated.refreshed (t : BlockTemplate) :
    Unrepeated rt { w with blockTemplate := some t } (l ++ [.refreshed t]) where
  apart := h.apart
  bounded := h.bounded
  recorded := by
    rw [currentShares, List.foldl_concat]
    exact fun _ hshare => absurd hshare List.not_mem_nil
  distinct := Async.eachAfter_concat.mpr ⟨h.distinct, trivial⟩

theorem Unrepeated.closed (socket : ℕ) (s : Socket) :
    Unrepeated rt (w.closed socket s) l := by
  have hentries : (w.closed socket s).poolMiners.entries = w.poolMiners.entries :=
    entries_closed w socket s .pool
  have hminers : ∀ name e, (w.closed socket s).poolMiners.miners.get name = some e →
      w.poolMiners.miners.get name = some e := by
    intro name e
    unfold World.closed
    cases s.server <;> split_ifs
    · change (w.poolMiners.miners.delete s.workerName).get name = some e → _
      rw [SlotMap.get_delete]
      split_ifs
      · simp
      · exact id
    all_goals exact id
  constructor
  · rw [nonces_closed]
    exact h.apart
  · intro name e he
    rw [hentries]
    exact h.bounded name e (hminers name e he)
  · intro share hshare
    apply (h.recorded share hshare).carry (blockTemplate_closed w socket s)
    · rw [nonces_closed]
      exact fun _ => id
    · rw [names_closed]
      exact fun name e hname he => ⟨hname, hminers name e he⟩
    · rw [hentries]
      exact fun m hm hlast => ⟨m, hm, hlast, List.Subset.refl _⟩
  · exact h.distinct

theorem Unrepeated.connected (server : Server)
    (hnew : server = .pool → (.pool, Hex.encode (fit 4 (w.entropy (w.drawn + 1)))) ∉ w.nonces) :
    Unrepeated rt (w.connected server) l := by
  have hnonces : (w.connected server).nonces =
      w.nonces ++ [(server, Hex.encode (fit 4 (w.entropy (w.drawn + 1))))] := List.map_append
  constructor
  · rw [hnonces]
    exact h.apart.concat (length_fit 4 _) hnew
  · exact h.bounded
  · intro share hshare
    have hrecorded := h.recorded share hshare
    have hlt := (List.getElem?_eq_some_iff.mp hrecorded.nonce).1
    have htemplate : (w.connected server).blockTemplate = w.blockTemplate := rfl
    apply hrecorded.carry htemplate
    · intro n hn
      rw [hnonces, List.getElem?_append_left hlt, hn]
    · intro name e hname he
      have hlength : w.names.length = w.nonces.length := by
        rw [World.names, World.nonces, List.length_map, List.length_map]
      rw [names_connected, List.getElem?_append_left (hlength ▸ hlt)] at hname
      exact ⟨hname, he⟩
    · exact fun m hm hlast => ⟨m, hm, hlast, List.Subset.refl _⟩
  · exact h.distinct

theorem Unrepeated.rename {socket : ℕ} (name : Key)
    (hne : ∀ share ∈ currentShares l, share.socket ≠ socket) :
    Unrepeated rt (w.rename socket name) l := by
  constructor
  · rw [nonces_rename]
    exact h.apart
  · exact h.bounded
  · intro share hshare
    have htemplate : (w.rename socket name).blockTemplate = w.blockTemplate := rfl
    apply (h.recorded share hshare).carry htemplate
    · rw [nonces_rename]
      exact fun _ => id
    · rw [names_rename, List.getElem?_set_ne (hne share hshare).symm]
      exact fun _ _ => And.intro
    · exact fun m hm hlast => ⟨m, hm, hlast, List.Subset.refl _⟩
  · exact h.distinct

theorem Unrepeated.solo (r : Registry) : Unrepeated rt { w with soloMiners := r } l :=
  ⟨h.apart, h.bounded, fun share hshare =>
    have hr := h.recorded share hshare
    ⟨hr.template, hr.jobId, hr.nonce, hr.owner, hr.seen⟩, h.distinct⟩

theorem Unrepeated.enroll (server : Server) (name : Key) (m : Miner)
    (hne : server = .pool → ∀ share ∈ currentShares l, w.names[share.socket]? ≠ some name) :
    Unrepeated rt (w.enroll server name m) l := by
  cases server with
  | solo => exact h.solo _
  | pool =>
    have hget : ∀ name', (w.enroll .pool name m).poolMiners.miners.get name' =
        if name' = name then some w.poolMiners.entries.length else w.poolMiners.miners.get name' :=
      fun _ => SlotMap.get_set
    have hentries : (w.enroll .pool name m).poolMiners.entries = w.poolMiners.entries ++ [m] := rfl
    constructor
    · exact h.apart
    · intro name' e he
      rw [hget] at he
      rw [hentries, List.length_append]
      split_ifs at he
      · exact Option.some.inj he ▸ Nat.lt_succ_self _
      · exact (h.bounded name' e he).trans (Nat.lt_succ_self _)
    · intro share hshare
      have htemplate : (w.enroll .pool name m).blockTemplate = w.blockTemplate := rfl
      apply (h.recorded share hshare).carry htemplate
      · exact fun _ => id
      · intro name' e hname' he
        have hother : name' ≠ name := by
          rintro rfl
          exact hne rfl share hshare hname'
        rw [hget, if_neg hother] at he
        exact ⟨hname', he⟩
      · intro m' hm' hlast
        refine ⟨m', ?_, hlast, List.Subset.refl _⟩
        rw [hentries, List.getElem?_append_left (List.getElem?_eq_some_iff.mp hm').1, hm']
    · exact h.distinct

theorem Unrepeated.credit (hrecorded : share.server = .pool → Recorded rt w share)
    (hdistinct : DistinctAt rt l (.credited share)) : Unrepeated rt w (l ++ [.credited share]) where
  apart := h.apart
  bounded := h.bounded
  recorded := fun share' hshare' => by
    rcases mem_currentShares_concat hshare' with hold | ⟨hnew, hpool⟩
    · exact h.recorded share' hold
    · obtain rfl := Output.credited.inj hnew
      exact hrecorded hpool
  distinct := Async.eachAfter_concat.mpr ⟨h.distinct, hdistinct⟩

end Recorded

/-- The inputs after which no share is counted twice. A connection to the shared pool draws a first
extra nonce that no other one has. An authorization does not come from a connection with counted
shares of the job in place, nor under the name of one. A submit comes from a connection whose name is
registered, its fields are eight digits each if it names the job in place, and it names that job if
shares of it were counted for the entry. -/
def Clean (rt : Runtime) (w : World) (l : List Output) : Input → Prop
  | .connect .pool => (.pool, Hex.encode (fit 4 (w.entropy (w.drawn + 1)))) ∉ w.nonces
  | .message socket .authorize request => ∀ s v, w.sockets[socket]? = some s → s.server = .pool →
      request.param 0 = .ok v → ∀ share ∈ currentShares l,
        share.socket ≠ socket ∧ w.names[share.socket]? ≠ some (keyOf w.serial 0 v)
  | .message socket .submit request => ∀ s, w.sockets[socket]? = some s → s.server = .pool →
      ∃ miner, w.poolMiners.miners.get s.workerName = some miner ∧
        ∀ fields, request.shareFields rt w.serial = .ok fields →
          (∀ t, w.blockTemplate = some t → .str t.jobId = fields.jobId →
            Hex8 fields.extraNonce2 ∧ Hex8 fields.nTime ∧ Hex8 fields.nonce) ∧
          ∀ share ∈ currentShares l, share.miner = miner → fields.jobId = share.jobId
  | _ => True

section Submit
variable {rt : Runtime} {w : World} {l : List Output} {socket : ℕ} {s : Socket} {request : Request}

theorem Miner.remember_subset {m : Miner} {jobId : Key} (h : m.lastJobId = jobId) (shareKey : Text) :
    m.submittedShares ⊆ (m.remember jobId shareKey).submittedShares := by
  intro key hkey
  simp only [Miner.remember, Miner.seen, h, ne_eq, not_true_eq_false, if_false]
  split_ifs
  · exact hkey
  · exact List.mem_cons_of_mem _ hkey

theorem Miner.mem_remember (m : Miner) (jobId : Key) (shareKey : Text) :
    shareKey ∈ (m.remember jobId shareKey).submittedShares := by
  simp only [Miner.remember]
  split_ifs with hmem
  · exact hmem
  · exact List.mem_cons_self

theorem afterSubmit_own {r : Registry} {server : Server} {serial miner : ℕ} {workerName : Key}
    {fields : ShareFields} (hget : r.miners.get workerName = some miner)
    (hfields : request.shareFields rt serial = .ok fields) :
    r.afterSubmit rt server serial request workerName =
      { r with entries := r.entries.modify miner (Miner.remember fields.jobId fields.shareKey) } := by
  simp [Registry.afterSubmit, Registry.locate_own hget, hfields]

theorem Unrepeated.submitted (h : Unrepeated rt w l) (hs : w.sockets[socket]? = some s)
    (hclean : Clean rt w l (.message socket .submit request)) :
    Unrepeated rt (w.updateRegistry s.server fun r =>
      r.afterSubmit rt s.server w.serial request s.workerName) l := by
  cases hserver : s.server with
  | solo => exact h.solo _
  | pool =>
    obtain ⟨miner, hget, hfields⟩ := hclean s hs hserver
    rw [World.updateRegistry_eq]
    cases hread : request.shareFields rt w.serial with
    | error e =>
      have hsame : (w.registry .pool).afterSubmit rt .pool w.serial request s.workerName =
          w.registry .pool := by
        simp [Registry.afterSubmit, World.registry, Registry.locate_own hget, hread]
      rw [hsame]
      exact h
    | ok fields =>
      have hafter : (w.registry .pool).afterSubmit rt .pool w.serial request s.workerName = _ :=
        afterSubmit_own hget hread
      rw [hafter]
      constructor
      · exact h.apart
      · intro name e he
        change e < (w.poolMiners.entries.modify miner _).length
        rw [List.length_modify]
        exact h.bounded name e he
      · intro share hshare
        apply (h.recorded share hshare).carry (w.blockTemplate_updateRegistry .pool _)
        · exact fun _ => id
        · exact fun _ _ => And.intro
        · intro m hm hlast
          change ∃ m', (w.poolMiners.entries.modify miner _)[share.miner]? = some m' ∧ _
          rcases eq_or_ne miner share.miner with rfl | hne
          · have hjob := (hfields fields hread).2 share hshare rfl
            refine ⟨m.remember fields.jobId fields.shareKey, ?_, hjob, ?_⟩
            · rw [List.getElem?_modify_eq, hm]
              rfl
            · exact Miner.remember_subset (hlast.trans hjob.symm) _
          · refine ⟨m, ?_, hlast, List.Subset.refl _⟩
            rw [List.getElem?_modify_ne _ _ hne, hm]
      · exact h.distinct

theorem nonces_of_socket (hs : w.sockets[socket]? = some s) :
    w.nonces[socket]? = some (s.server, s.extraNonce1) := by
  rw [World.nonces, List.getElem?_map, hs]
  rfl

theorem names_of_socket (hs : w.sockets[socket]? = some s) : w.names[socket]? = some s.workerName := by
  rw [World.names, List.getElem?_map, hs]
  rfl

variable {a : Attempt} {header : List UInt8}

theorem recorded_of_attempt (h : Unrepeated rt w l) (hs : w.sockets[socket]? = some s)
    (hserver : s.server = .pool) (hclean : Clean rt w l (.message socket .submit request))
    (ha : (screened rt socket s request w).2 = .attempt a) (hheader : a.header rt = .ok header) :
    Recorded rt (w.updateRegistry .pool fun r => r.afterSubmit rt .pool w.serial request s.workerName)
      (a.share header) ∧ DistinctAt rt l (.credited (a.share header)) := by
  obtain ⟨miner, hget, hall⟩ := hclean s hs hserver
  obtain ⟨_, r, fields, t, hlocate, hfields, hnew, ht, hjob, rfl⟩ :=
    (screened_pool_attempt_iff rt hserver).mp ha
  obtain ⟨rfl, rfl⟩ := Prod.mk.inj (Option.some.inj
    ((Registry.locate_own hget .pool w.serial request).symm.trans hlocate))
  obtain ⟨hextra, htime, hnonce⟩ := (hall fields hfields).1 t ht hjob
  have hwell : WellFormed rt t fields :=
    ⟨hextra, htime, hnonce, shareKey_of_shareFields hfields hjob.symm⟩
  have hown := nonces_of_socket hs
  rw [hserver] at hown
  obtain ⟨m, hm⟩ : ∃ m, w.poolMiners.entries[miner]? = some m :=
    ⟨_, List.getElem?_eq_getElem (h.bounded _ _ hget)⟩
  constructor
  · rw [World.updateRegistry_eq]
    have hafter : (w.registry .pool).afterSubmit rt .pool w.serial request s.workerName = _ :=
      afterSubmit_own hget hfields
    rw [hafter]
    refine ⟨ht, hjob.symm, hown, ?_, fields, m.remember fields.jobId fields.shareKey, hwell, hheader, ?_,
      rfl, m.mem_remember _ _⟩
    · intro name e hname he
      obtain rfl := Option.some.inj ((names_of_socket hs).symm.trans hname)
      exact Option.some.inj (he.symm.trans hget)
    · change (w.poolMiners.entries.modify miner _)[miner]? = _
      rw [List.getElem?_modify_eq, hm]
      rfl
  · intro _ hdistinguishes earlier hearlier heq
    have hr := h.recorded earlier hearlier
    obtain rfl : t = earlier.template := Option.some.inj (ht.symm.trans hr.template)
    obtain ⟨fields', m', hwell', hheader', hm', hlast, hkey⟩ := hr.seen
    obtain ⟨x, hx, hx'⟩ := h.apart.bytes _ (List.mem_of_getElem? hown)
    obtain ⟨y, hy, hy'⟩ := h.apart.bytes _ (List.mem_of_getElem? hr.nonce)
    rw [heq, hy'] at hheader'
    have hheader₁ : rebuildHeader rt (earlier.template.work earlier.template.coinbase1
        earlier.template.coinbase2) (Hex.encode x) fields = .ok header := hx' ▸ hheader
    obtain ⟨rfl, hkeys⟩ := shareKey_of_header hdistinguishes hwell hwell' hx hy hheader₁ hheader'
    -- The nonce tells that it is the same connection, hence the same entry, which has seen the key.
    have hsocket : earlier.socket = socket := by
      apply h.apart.unique _ _ s.extraNonce1 _ hown
      rw [hr.nonce, hx', hy']
    have hname := names_of_socket hs
    rw [← hsocket] at hname
    obtain rfl := hr.owner _ _ hname hget
    obtain rfl := Option.some.inj (hm.symm.trans hm')
    rw [hm, Option.any_some, decide_eq_false_iff_not] at hnew
    apply hnew
    rw [hkeys, Miner.seen, if_neg (not_not.mpr (hlast.trans (hr.jobId.trans hjob)))]
    exact hkey

end Submit

section Run
variable {rt : Runtime} {w : World} {l : List Output}

/-- Nothing is assumed of the other tasks but the invariant. -/
def Freely (_ _ : World) : Prop := True

instance : Std.Refl Freely := ⟨fun _ => trivial⟩

instance : IsTrans World Freely := ⟨fun _ _ _ _ _ => trivial⟩

theorem unrepeated_steady (w w' : World) (l : List Output) (h : Unrepeated rt w l) (hs : Steady w w') :
    Unrepeated rt w' l ∧ Freely w w' := ⟨h.of_steady hs, trivial⟩

theorem unrepeated_uncredited (w : World) (l : List Output) (o : Output) (h : Unrepeated rt w l)
    (ho : o.uncredited) : Unrepeated rt w (l ++ [o]) := h.emit ho

theorem FirstTurn.unrepeated {input : Input} {os : List Output} {t : PoolM Unit} {w' : World}
    (hturn : FirstTurn rt w input os t w') (hclean : Clean rt w l input) (h : Unrepeated rt w l) :
    Unrepeated rt w' (l ++ os) := by
  cases hturn with
  | idle _ hcalm =>
    rw [List.append_nil]
    exact h.of_steady hcalm.1.steady
  | connected server =>
    rw [List.append_nil]
    apply h.connected
    rintro rfl
    exact hclean
  | @closed socket s _ =>
    rw [List.append_nil]
    exact h.closed socket s
  | @authorized socket _ _ s _ v _ _ _ _ _ hs hname _ hplain hidle hidle' =>
    have hother : ∀ share ∈ currentShares l, share.socket ≠ socket := by
      intro share hshare heq
      cases hserver : s.server with
      | pool => exact (hclean s v hs hserver hname share hshare).1 heq
      | solo =>
        have hnonce := (h.recorded share hshare).nonce
        rw [heq, nonces_of_socket hs, hserver] at hnonce
        cases hnonce
    apply Async.invariant_append unrepeated_uncredited _ fun o ho => (hplain o ho).uncredited
    apply Unrepeated.of_steady _ hidle'.steady
    apply ((h.rename _ hother).of_steady hidle.steady).enroll
    intro hserver share hshare
    rw [names_of_core hidle.sockets, names_rename, List.getElem?_set_ne (hother share hshare).symm]
    exact (hclean s v hs hserver hname share hshare).2
  | @submitted socket s _ _ _ _ hs _ hcalm hos =>
    have hentries := h.submitted hs hclean
    rcases hos with hplain | ⟨a, header, ha, hheader, rfl⟩
    · exact Async.invariant_append unrepeated_uncredited (hentries.of_steady hcalm.1.steady)
        fun o ho => (hplain o ho).uncredited
    · rw [List.append_cons]
      apply Unrepeated.emit (o := .reply a.socket a.id .accepted) _ trivial
      apply Unrepeated.of_steady _ hcalm.1.steady
      have hsame : (a.share header).server = s.server := (screened_attempt ha).1
      apply hentries.credit
      · intro hpool
        have hserver := hsame.symm.trans hpool
        rw [hserver]
        exact (recorded_of_attempt h hs hserver hclean ha hheader).1
      · intro hpool
        exact (recorded_of_attempt h hs (hsame.symm.trans hpool) hclean ha hheader).2 hpool

theorem start_unrepeated {input : Input} (hclean : Clean rt w l input) (h : Unrepeated rt w l) :
    Keeps (Unrepeated rt) Freely (Async.Restores (Unrepeated rt) Freely) (start rt input) w w l := by
  by_cases hrefresh : ∃ rounds, input = .refresh rounds
  · obtain ⟨rounds, rfl⟩ := hrefresh
    apply Keeps.restores (F := fun _ => True)
    apply refreshBlockTemplate_keeps (F := fun _ => True) rt _ _ (fun _ _ _ => id) _ _ rounds h trivial
    · exact fun _ _ _ h hs => unrepeated_steady _ _ _ h hs.steady
    · exact fun _ _ _ h ho => h.emit ho.uncredited
    · exact fun _ _ t _ h => ⟨h.refreshed t, trivial, trivial⟩
    · exact fun template rounds _ w _ h _ _ => (only_refreshSolo rt w (fun _ => id) template rounds 0).keeps
        unrepeated_steady unrepeated_uncredited (fun _ _ _ => id) h trivial trivial
  · push Not at hrefresh
    obtain ⟨os, t, w', hleads, hturn⟩ := start_turn rt w hrefresh
    exact hleads.keeps (hturn.rest fun _ => id) unrepeated_steady unrepeated_uncredited
      (hturn.unrepeated hclean h) trivial

end Run

/-- In every run of clean inputs, no two shares that the shared pool counts during the life of a job
have the same header, if the Merkle root of the job tells the extra nonces apart. -/
theorem shares_distinct (rt : Runtime) (redis : Bool) (entropy : ℕ → List UInt8) (feeWallet : Text)
    (moves : List PoolMove)
    (hclean : Async.LegalMoves (start rt) (Clean rt) (.initial (.initial redis entropy feeWallet)) moves)
    (past : List Output) (share : Share) (later : List Output)
    (hshare : Async.outputs (runPool rt (.initial redis entropy feeWallet) moves).log =
      past ++ .credited share :: later) (hpool : share.server = .pool)
    (hroot : Distinguishes rt share.template) :
    ∀ earlier ∈ currentShares past, earlier.header ≠ share.header := by
  have hinitial : Unrepeated rt (.initial redis entropy feeWallet) [] := by
    refine ⟨⟨?_, ?_⟩, ?_, ?_, Async.eachAfter_nil _⟩
    · exact nofun
    · exact fun _ _ _ hi => nomatch hi
    · exact fun _ _ he => nomatch he
    · exact fun _ hshare => absurd hshare List.not_mem_nil
  have hkept := Async.run_kept (fun _ _ _ hclean h => start_unrepeated hclean h)
    (Async.kept_initial hinitial) hclean
  exact hkept.1.distinct past (.credited share) later hshare hpool hroot

def jobMoves : List PoolMove :=
  authorizeMoves ++ [.fire (.refresh 0), .resume 2 (.template (some (.first [])))]

def shareRequest (jobId nonce : String) : Request :=
  submitRequest "w" jobId "00000000" "00000000" nonce

def shareMove (jobId nonce : String) : PoolMove :=
  .fire (.message 0 .submit (shareRequest jobId nonce))

def replayed (moves : List PoolMove) : Process :=
  runPool .revealing (.fresh true) moves

theorem clean_share {moves : List PoolMove} {nonce : String}
    (hnames : (replayed moves).world.names = [.str "w".toList])
    (hget : (replayed moves).world.poolMiners.miners.get (.str "w".toList) = some 0)
    (hnonce : Hex8 nonce.toList)
    (hjobs : ∀ share ∈ currentShares (Async.outputs (replayed moves).log),
      share.jobId = .str "00000000".toList) :
    Clean .revealing (replayed moves).world (Async.outputs (replayed moves).log)
      (.message 0 .submit (shareRequest "00000000" nonce)) := by
  intro s hs _
  have hname : s.workerName = .str "w".toList := by
    have hown := names_of_socket hs
    rw [hnames] at hown
    exact (Option.some.inj hown).symm
  refine ⟨0, hname ▸ hget, fun fields hfields => ?_⟩
  cases hfields
  have hzero : Hex8 "00000000".toList := by decide
  exact ⟨fun _ _ _ => ⟨hzero, hzero, hnonce⟩, fun share hshare _ => (hjobs share hshare).symm⟩

theorem clean_jobMoves : Async.LegalMoves (start .revealing) (Clean .revealing)
    (.initial (.fresh true)) jobMoves := by
  refine ⟨?_, ?_, ?_, ?_, trivial⟩
  · rintro e ⟨⟩
    exact List.not_mem_nil
  · rintro e ⟨⟩ s v - - - share hshare
    cases hshare
  · rintro e ⟨⟩
    trivial
  · rintro e ⟨⟩

theorem shares_distinct_nonces : ∃ past share later,
    Async.outputs (replayed (jobMoves ++ [shareMove "00000000" "00000000"] ++
      [shareMove "00000000" "00000001"])).log = past ++ .credited share :: later ∧
    (currentShares past).length = 1 ∧
    ∀ earlier ∈ currentShares past, earlier.header ≠ share.header := by
  refine ⟨Async.outputs (replayed (jobMoves ++ [shareMove "00000000" "00000000"])).log, _, _, rfl,
    by decide, ?_⟩
  apply shares_distinct .revealing true (fun _ => []) [] (jobMoves ++ [shareMove "00000000" "00000000"] ++
    [shareMove "00000000" "00000001"]) _ _ _ _ rfl rfl
  · apply distinguishes_revealing rfl
      ([1, 0, 0, 0, 1] ++ List.replicate 32 0 ++ [0xff, 0xff, 0xff, 0xff, 10, 1, 1]) rfl
    decide
  · apply Async.legalMoves_concat.mpr
    constructor
    · apply Async.legalMoves_concat.mpr
      refine ⟨clean_jobMoves, ?_⟩
      rintro e ⟨⟩
      apply clean_share <;> decide
    · rintro e ⟨⟩
      apply clean_share <;> decide

/-- A share under another job id is refused, and the one before it is then counted once more, and
pushed to the list of shares once more. -/
theorem share_counted_twice : ∃ first second,
    currentShares (Async.outputs (replayed (jobMoves ++ [shareMove "00000000" "00000000",
      shareMove "00000001" "00000000", shareMove "00000000" "00000000"])).log) = [second, first] ∧
    first.header = second.header ∧
    ((replayed (jobMoves ++ [shareMove "00000000" "00000000", shareMove "00000001" "00000000",
      shareMove "00000000" "00000000"])).log.filterMap fun e => match e.2 with
        | .called (.redis (.lPush .shares record)) => some record
        | _ => none) = [.share (.str "w".toList), .share (.str "w".toList)] := by
  exact ⟨_, _, rfl, rfl, by decide⟩

end Tarcoin.Pool
