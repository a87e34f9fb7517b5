import Tarcoin.Pool.Replies
import Tarcoin.Pool.Turns

/-! A solo miner's coinbase and job name are kept in its entry, the template in one place for all.
Once an entry has been sent a job after the last replacement of the template, the two belong
together. -/
namespace Tarcoin.Pool
open Async (Only Leads Keeps Holding EachAfter)

/-- The connection of an entry and the parts of its job that are its own. -/
def Miner.offer (m : Miner) : Option ℕ × Key × Option Text × Option Text :=
  (m.socket, m.jobId, m.coinbase1, m.coinbase2)

theorem Miner.job_of_offer {m m' : Miner} (h : m'.offer = m.offer) (t : BlockTemplate) :
    m'.job t = m.job t := by
  simp only [Miner.offer, Prod.mk.injEq] at h
  simp only [Miner.job, h]

def World.gone (w : World) (socket : ℕ) : Bool := w.sockets[socket]?.any Socket.destroyed

/-- The entries that were sent a job since the template was last replaced. -/
def announcedSince (l : List Output) : List ℕ :=
  l.foldl (fun entries o => match o with
    | .refreshed _ => []
    | .notify _ (some miner) _ => miner :: entries
    | _ => entries) []

variable {o : Output} {w w' : World} {e socket : ℕ} {rt : Runtime}

theorem announcedSince_plain (l : List Output) (h : o.plain) :
    announcedSince (l ++ [o]) = announcedSince l := by
  rw [announcedSince, List.foldl_concat]
  cases o with
  | notify socket miner job =>
    cases miner with
    | none => rfl
    | some miner => exact h.elim
  | refreshed t => exact h.elim
  | _ => rfl

/-- The header of a share was rebuilt from one job that was announced to its miner, under the name
that was submitted. -/
def Coherent (past : List Output) (share : Share) : Prop :=
  ∃ job, .notify share.socket (some share.miner) job ∈ past ∧ job.jobId = share.jobId ∧
    job.coinbase1 = some share.work.coinbase1 ∧ job.coinbase2 = some share.work.coinbase2 ∧
    job.merkleBranch = share.work.merkleBranch ∧ job.version = share.work.version ∧
    job.nBits = share.work.nBits ∧
    job.stratumPrevHash = formatPrevHashForStratum share.work.prevHashBE

def CoherentAt (past : List Output) : Output → Prop
  | .credited share => share.server = .solo → Coherent past share
  | _ => True

theorem coherentAt_of_uncredited (past : List Output) (h : o.uncredited) : CoherentAt past o := by
  cases o with
  | credited share => exact h.elim
  | _ => trivial

/-- What no write outside of the preparation of jobs changes. -/
structure SameOffers (w w' : World) : Prop where
  blockTemplate : w'.blockTemplate = w.blockTemplate
  sockets : w.sockets.length ≤ w'.sockets.length
  gone : ∀ socket, w.gone socket = true → w'.gone socket = true
  entries : w.soloMiners.entries.map Miner.offer <+: w'.soloMiners.entries.map Miner.offer

/-- What stays for ever: that there is a template, the connections, and the owners of the entries. -/
structure Persists (w w' : World) : Prop where
  blockTemplate : w.blockTemplate.isSome = true → w'.blockTemplate.isSome = true
  sockets : w.sockets.length ≤ w'.sockets.length
  owners : w.soloMiners.entries.map Miner.socket <+: w'.soloMiners.entries.map Miner.socket

instance : Std.Refl Persists := ⟨fun _ => ⟨id, le_rfl, List.prefix_rfl⟩⟩

instance : IsTrans World Persists := ⟨fun _ _ _ h h' =>
  ⟨h'.blockTemplate ∘ h.blockTemplate, h.sockets.trans h'.sockets, h.owners.trans h'.owners⟩⟩

theorem SameOffers.trans {w'' : World} (h : SameOffers w w') (h' : SameOffers w' w'') :
    SameOffers w w'' :=
  ⟨h'.blockTemplate.trans h.blockTemplate, h.sockets.trans h'.sockets,
    fun socket => h'.gone socket ∘ h.gone socket, h.entries.trans h'.entries⟩

theorem SameOffers.persists (h : SameOffers w w') : Persists w w' where
  blockTemplate := by rw [h.blockTemplate]; exact id
  sockets := h.sockets
  owners := by
    have hmap := h.entries.map Prod.fst
    rw [List.map_map, List.map_map] at hmap
    exact hmap

theorem gone_of_core (h : w'.sockets.map Socket.core = w.sockets.map Socket.core) (socket : ℕ)
    (hgone : w.gone socket = true) : w'.gone socket = true := by
  obtain ⟨s, hs, hdestroyed⟩ := (Option.any_eq_true _ _).mp hgone
  obtain ⟨s', hs', hcore⟩ := socket_of_core h hs
  rw [World.gone, hs']
  exact (congrArg Socket.destroyed hcore).trans hdestroyed

theorem Idle.sameOffers (h : Idle w w') : SameOffers w w' where
  blockTemplate := h.blockTemplate
  sockets := by
    have hlength := congrArg List.length h.sockets
    rw [List.length_map, List.length_map] at hlength
    exact hlength.ge
  gone := gone_of_core h.sockets
  entries := by
    have hmap := congrArg (List.map Miner.offer) (h.entries .solo)
    rw [List.map_map, List.map_map] at hmap
    exact hmap.symm ▸ List.prefix_rfl

/-- The invariant: an entry that was sent a job since the last replacement, and whose connection is
not gone, was sent just the job that it and the template make up now. -/
structure Offered (rt : Runtime) (w : World) (l : List Output) : Prop where
  built : ∀ t, w.blockTemplate = some t → Built rt t
  bounded : ∀ e ∈ announcedSince l, e < w.soloMiners.entries.length
  announced : ∀ e ∈ announcedSince l, ∀ m socket, w.soloMiners.entries[e]? = some m →
    m.socket = some socket → w.gone socket = false →
      ∃ t, w.blockTemplate = some t ∧ .notify socket (some e) (m.job t) ∈ l
  coherent : EachAfter CoherentAt l

section Offered
variable {rt : Runtime} {w w' : World} {l : List Output}

theorem Offered.of_same (h : Offered rt w l) (hs : SameOffers w w') : Offered rt w' l where
  built := by
    rw [hs.blockTemplate]
    exact h.built
  bounded := fun e he => by
    have hlength := hs.entries.length_le
    rw [List.length_map, List.length_map] at hlength
    exact (h.bounded e he).trans_le hlength
  announced := fun e he m' socket hm' hsocket hgone => by
    have hlt := h.bounded e he
    obtain ⟨m, hm⟩ : ∃ m, w.soloMiners.entries[e]? = some m := ⟨_, List.getElem?_eq_getElem hlt⟩
    have hoffer : m'.offer = m.offer := by
      have hget := List.prefix_iff_getElem?.mp hs.entries e (by rwa [List.length_map])
      rw [List.getElem?_map, hm', List.getElem_map] at hget
      have hself := List.getElem?_eq_getElem hlt
      rw [hm] at hself
      rw [Option.some.inj hself]
      exact Option.some.inj hget
    have hopen : w.gone socket = false := by
      by_contra htrue
      rw [hs.gone socket (by simpa using htrue)] at hgone
      cases hgone
    obtain ⟨t, ht, hmem⟩ := h.announced e he m socket hm
      ((congrArg Prod.fst hoffer).symm.trans hsocket) hopen
    exact ⟨t, by rw [hs.blockTemplate, ht], by rwa [Miner.job_of_offer hoffer]⟩
  coherent := h.coherent

theorem Offered.emit (h : Offered rt w l) (hsince : announcedSince (l ++ [o]) = announcedSince l)
    (ho : CoherentAt l o) :
    Offered rt w (l ++ [o]) where
  built := h.built
  bounded := by
    rw [hsince]
    exact h.bounded
  announced := fun e he m socket hm hsocket hgone => by
    rw [hsince] at he
    obtain ⟨t, ht, hmem⟩ := h.announced e he m socket hm hsocket hgone
    exact ⟨t, ht, List.mem_append_left _ hmem⟩
  coherent := Async.eachAfter_concat.mpr ⟨h.coherent, ho⟩

theorem Offered.plain (h : Offered rt w l) (ho : o.plain) : Offered rt w (l ++ [o]) :=
  h.emit (announcedSince_plain l ho) (coherentAt_of_uncredited l ho.uncredited)

theorem Offered.refreshed (h : Offered rt w l) {t : BlockTemplate} (ht : Built rt t) :
    Offered rt { w with blockTemplate := some t } (l ++ [.refreshed t]) where
  built := fun t' ht' => Option.some.inj ht' ▸ ht
  bounded := by
    rw [announcedSince, List.foldl_concat]
    exact nofun
  announced := by
    rw [announcedSince, List.foldl_concat]
    exact nofun
  coherent := Async.eachAfter_concat.mpr ⟨h.coherent, trivial⟩

section Prepare
variable {e socket : ℕ} {m : Miner} {f : Miner → Miner}

theorem entries_updateMiner (w : World) (e : ℕ) (f : Miner → Miner) :
    (w.updateMiner .solo e f).soloMiners.entries = w.soloMiners.entries.modify e f := rfl

theorem persists_updateMiner (w : World) (e : ℕ) (hf : ∀ m, (f m).socket = m.socket) :
    Persists w (w.updateMiner .solo e f) := by
  refine ⟨id, le_rfl, ?_⟩
  rw [entries_updateMiner, map_modify_eq hf]

section
variable (h : Offered rt w l) (hm : w.soloMiners.entries[e]? = some m)
  (hsocket : m.socket = some socket)
include h hm hsocket

theorem Offered.announce {t : BlockTemplate} (ht : w.blockTemplate = some t)
    (hf : ∀ m, (f m).socket = m.socket) :
    Offered rt (w.updateMiner .solo e f) (l ++ [.notify socket (some e) ((f m).job t)]) where
  built := h.built
  bounded := fun e' he' => by
    rw [announcedSince, List.foldl_concat] at he'
    rw [entries_updateMiner, List.length_modify]
    rcases List.mem_cons.mp he' with rfl | he'
    · exact (List.getElem?_eq_some_iff.mp hm).1
    · exact h.bounded e' he'
  announced := fun e' he' m' socket' hm' hsocket' hgone => by
    rw [announcedSince, List.foldl_concat] at he'
    rw [entries_updateMiner] at hm'
    rcases eq_or_ne e e' with rfl | hne
    · rw [List.getElem?_modify_eq, hm] at hm'
      cases hm'
      rw [hf, hsocket] at hsocket'
      cases hsocket'
      exact ⟨t, ht, List.mem_append_right _ (List.mem_singleton_self _)⟩
    · rw [List.getElem?_modify_ne _ _ hne] at hm'
      obtain ⟨t', ht', hmem⟩ := h.announced e' ((List.mem_cons.mp he').resolve_left hne.symm) m' socket'
        hm' hsocket' hgone
      exact ⟨t', ht', List.mem_append_left _ hmem⟩
  coherent := Async.eachAfter_concat.mpr ⟨h.coherent, trivial⟩

theorem Offered.unheard (hgone : w.gone socket = true) (hf : ∀ m, (f m).socket = m.socket) :
    Offered rt (w.updateMiner .solo e f) l where
  built := h.built
  bounded := by
    rw [entries_updateMiner, List.length_modify]
    exact h.bounded
  announced := fun e' he' m' socket' hm' hsocket' hopen => by
    rw [entries_updateMiner] at hm'
    rcases eq_or_ne e e' with rfl | hne
    · rw [List.getElem?_modify_eq, hm] at hm'
      cases hm'
      rw [hf, hsocket] at hsocket'
      cases hsocket'
      exact absurd (hopen.symm.trans hgone) Bool.false_ne_true
    · rw [List.getElem?_modify_ne _ _ hne] at hm'
      exact h.announced e' he' m' socket' hm' hsocket' hopen
  coherent := h.coherent

end

end Prepare

end Offered

/-- There is a template, and an entry belongs to a connection. -/
def Prepares (e socket : ℕ) (w : World) : Prop :=
  w.blockTemplate.isSome = true ∧ socket < w.sockets.length ∧
    (w.soloMiners.entries.map Miner.socket)[e]? = some (some socket)

theorem Prepares.of_persists (w w' : World) (h : Persists w w') (hp : Prepares e socket w) :
    Prepares e socket w' := by
  obtain ⟨htemplate, hsocket, howner⟩ := hp
  refine ⟨h.blockTemplate htemplate, hsocket.trans_le h.sockets, ?_⟩
  obtain ⟨added, hadded⟩ := h.owners
  rw [← hadded, List.getElem?_append_left (List.getElem?_eq_some_iff.mp howner).1, howner]

theorem Prepares.entry (h : Prepares e socket w) :
    ∃ m t, w.soloMiners.entries[e]? = some m ∧ m.socket = some socket ∧ w.blockTemplate = some t := by
  obtain ⟨htemplate, -, howner⟩ := h
  rw [List.getElem?_map] at howner
  obtain ⟨m, hm, hsocket⟩ := Option.map_eq_some_iff.mp howner
  obtain ⟨t, ht⟩ := Option.isSome_iff_exists.mp htemplate
  exact ⟨m, t, hm, hsocket, ht⟩

theorem prepares_of_liveSocket (ht : w.blockTemplate.isSome = true)
    (h : w.liveSocket e = some socket) : Prepares e socket w := by
  obtain ⟨m, hm, h⟩ := Option.bind_eq_some_iff.mp h
  obtain ⟨socket', hsocket, h⟩ := Option.bind_eq_some_iff.mp h
  obtain ⟨s, hs, h⟩ := Option.bind_eq_some_iff.mp h
  split_ifs at h
  cases h
  exact ⟨ht, (List.getElem?_eq_some_iff.mp hs).1, by rw [List.getElem?_map, hm, ← hsocket]; rfl⟩

section Keeps
variable (rt : Runtime) {w₀ w : World} {l : List Output}

theorem offered_idle (w w' : World) (l : List Output) (hI : Offered rt w l) (h : Idle w w') :
    Offered rt w' l ∧ Persists w w' := ⟨hI.of_same h.sameOffers, h.sameOffers.persists⟩

theorem offered_plain (w : World) (l : List Output) (o : Output) (hI : Offered rt w l) (ho : o.plain) :
    Offered rt w (l ++ [o]) := hI.plain ho

theorem keeps_of_idle {F : World → Prop} {α : Type} {t : PoolM α}
    (hstable : ∀ w w', Persists w w' → F w → F w') (h : Only Calm Output.plain t w)
    (hI : Offered rt w l) (hG : Persists w₀ w) (hF : F w) :
    Keeps (Offered rt) Persists (Holding (Offered rt) Persists F) t w₀ w l :=
  h.keeps (fun w w' l hI h => offered_idle rt w w' l hI h.1) (offered_plain rt) hstable hI hG hF

variable {f : Miner → Miner}

theorem announce_keeps (hf : ∀ m, (f m).socket = m.socket) (hI : Offered rt w l)
    (hG : Persists w₀ w) (hF : Prepares e socket w) :
    Keeps (Offered rt) Persists (Holding (Offered rt) Persists (Prepares e socket))
      (Async.modify (fun w => w.updateMiner .solo e f) >>= fun _ => sendSoloWork socket e) w₀ w l := by
  obtain ⟨m, t, hm, hsocket, ht⟩ := hF.entry
  have hleads : Leads (Async.modify (fun w => w.updateMiner .solo e f) >>= fun _ =>
      sendSoloWork socket e) w [.notify socket (some e) ((f m).job t)] (.pure ())
      (w.updateMiner .solo e f) := by
    have hm' : (w.updateMiner .solo e f).soloMiners.entries[e]? = some (f m) := by
      rw [entries_updateMiner, List.getElem?_modify_eq, hm]
      rfl
    have ht' : (w.updateMiner .solo e f).blockTemplate = some t := ht
    apply Leads.modify
    apply Leads.get
    simp only [hm', ht']
    exact .emit (.refl _ _)
  have hkeep := persists_updateMiner w e hf
  apply (hleads.keeps_iff w₀ l).mpr
  exact ⟨hI.announce hm hsocket ht hf, trans_of Persists hG hkeep, hF.of_persists _ _ hkeep⟩

theorem refreshMiner_keeps (template : NodeTemplate) (name : Key) (e : ℕ) (hI : Offered rt w l)
    (hG : Persists w₀ w) (ht : w.blockTemplate.isSome = true) :
    Keeps (Offered rt) Persists
      (Holding (Offered rt) Persists fun w => w.blockTemplate.isSome = true)
      (refreshMiner rt template name e) w₀ w l := by
  unfold refreshMiner
  apply Keeps.get
  cases hlive : w.liveSocket e with
  | none => exact ⟨hI, hG, ht⟩
  | some socket =>
    have hF := prepares_of_liveSocket ht hlive
    apply Keeps.weaken (F := Prepares e socket) _ fun _ h => h.1
    apply Keeps.catching
    · apply Keeps.seq
      · exact (keeps_of_idle rt Prepares.of_persists (only_resolve rt w _) hI hG hF).settle
          Prepares.of_persists
      intro minerAddress w₁ w₂ l₁ hI hG hF
      apply Keeps.seq
      · exact (keeps_of_idle rt Prepares.of_persists (only_buildSoloCoinbase rt w₂ _ _) hI hG hF).settle
          Prepares.of_persists
      rintro ⟨coinbase1, coinbase2⟩ w₃ w₄ l₂ hI hG hF
      apply Keeps.seq
      · exact keeps_of_idle rt Prepares.of_persists (only_randomHex w₄ 4) hI hG hF
      intro jobId w₅ w₆ l₃ hI hG hF
      exact announce_keeps rt (fun _ => rfl) hI hG hF
    · exact fun _ _ _ _ hI hG hF => ⟨hI, hG, hF⟩

theorem refreshSolo_keeps (template : NodeTemplate) (rounds position : ℕ) (hI : Offered rt w l)
    (hG : Persists w₀ w) (ht : w.blockTemplate.isSome = true) :
    Keeps (Offered rt) Persists
      (Holding (Offered rt) Persists fun w => w.blockTemplate.isSome = true)
      (refreshSolo rt template rounds position) w₀ w l := by
  induction rounds generalizing position w₀ w l with
  | zero => exact ⟨hI, hG, ht⟩
  | succ rounds ih =>
    apply Keeps.get
    split
    · exact ⟨hI, hG, ht⟩
    · apply (refreshMiner_keeps rt template _ _ hI hG ht).seq
      exact fun _ _ _ _ hI hG ht => ih _ hI hG ht

/-- The last turn of the preparation of a new miner: its connection may be gone. -/
theorem prepared_keeps (hf : ∀ m, (f m).socket = m.socket) (hI : Offered rt w l)
    (hG : Persists w₀ w) (hF : Prepares e socket w) :
    Keeps (Offered rt) Persists (Holding (Offered rt) Persists (Prepares e socket))
      (do
        Async.modify fun w => w.updateMiner .solo e f
        if (← Async.get).sockets[socket]?.any fun s => !s.destroyed then sendSoloWork socket e
        else pure ()) w₀ w l := by
  change Keeps _ _ _ (if w.sockets[socket]?.any (fun s => !s.destroyed) then sendSoloWork socket e
    else pure ()) w₀ (w.updateMiner .solo e f) l
  split_ifs with hopen
  · exact announce_keeps rt hf hI hG hF
  · obtain ⟨m, t, hm, hsocket, -⟩ := hF.entry
    have hgone : w.gone socket = true := by
      have hget := List.getElem?_eq_getElem hF.2.1
      rw [World.gone]
      simpa [hget] using hopen
    have hkeep := persists_updateMiner w e hf
    exact ⟨hI.unheard hm hsocket hgone hf, trans_of Persists hG hkeep, hF.of_persists _ _ hkeep⟩

theorem prepareMiner_keeps (name : Key) (hI : Offered rt w l) (hG : Persists w₀ w)
    (hsocket : socket < w.sockets.length)
    (howner : (w.soloMiners.entries.map Miner.socket)[e]? = some (some socket)) :
    Keeps (Offered rt) Persists (Holding (Offered rt) Persists fun _ => True)
      (prepareMiner rt socket e name) w₀ w l := by
  apply Keeps.catching
  · apply Keeps.get
    cases ht : w.blockTemplate with
    | none => exact ⟨hI, hG, trivial⟩
    | some t =>
      have hF : Prepares e socket w := ⟨by rw [ht]; rfl, hsocket, howner⟩
      apply Keeps.weaken (F := Prepares e socket) _ fun _ _ => trivial
      apply Keeps.seq
      · exact (keeps_of_idle rt Prepares.of_persists (only_resolve rt w _) hI hG hF).settle
          Prepares.of_persists
      intro minerAddress w₁ w₂ l₁ hI hG hF
      apply Keeps.seq
      · apply keeps_of_idle rt Prepares.of_persists (Async.only_modify _) hI hG hF
        split_ifs
        · exact Calm.refl w₂
        · exact calm_updateMiner w₂ .solo e fun _ => rfl
      intro _ w₃ w₄ l₂ hI hG hF
      apply Keeps.get
      split
      · exact ⟨hI, hG, hF⟩
      · apply Keeps.seq
        · exact (keeps_of_idle rt Prepares.of_persists (only_buildSoloCoinbase rt w₄ _ _) hI hG hF).settle
            Prepares.of_persists
        rintro ⟨coinbase1, coinbase2⟩ w₅ w₆ l₃ hI hG hF
        exact prepared_keeps rt (fun _ => rfl) hI hG hF
  · exact fun _ _ _ _ hI hG _ => ⟨hI, hG, trivial⟩

end Keeps

section FirstTurns
variable {w w₁ : World} {socket : ℕ} {s : Socket} {name : Key}

theorem sameOffers_connected (w : World) (server : Server) : SameOffers w (w.connected server) := by
  refine ⟨rfl, ?_, ?_, List.prefix_rfl⟩
  · simp [World.connected]
  · intro i hgone
    obtain ⟨s, hs, hdestroyed⟩ := (Option.any_eq_true _ _).mp hgone
    rw [World.gone, World.connected,
      List.getElem?_append_left (List.getElem?_eq_some_iff.mp hs).1, hs]
    exact hdestroyed

theorem sameOffers_closed (w : World) (socket : ℕ) (s : Socket) :
    SameOffers w (w.closed socket s) := by
  refine ⟨blockTemplate_closed w socket s, ?_, ?_, ?_⟩
  · rw [sockets_closed, List.length_modify]
  · intro i hgone
    obtain ⟨s', hs', hdestroyed⟩ := (Option.any_eq_true _ _).mp hgone
    rw [World.gone, sockets_closed, List.getElem?_modify, hs']
    split_ifs
    · rfl
    · exact hdestroyed
  · have hentries : (w.closed socket s).soloMiners.entries = w.soloMiners.entries :=
      entries_closed w socket s .solo
    rw [hentries]

theorem sameOffers_rename (w : World) (socket : ℕ) (name : Key) :
    SameOffers w (w.rename socket name) := by
  refine ⟨rfl, ?_, ?_, List.prefix_rfl⟩
  · rw [World.rename, World.updateSocket, List.length_modify]
  · intro i hgone
    obtain ⟨s, hs, hdestroyed⟩ := (Option.any_eq_true _ _).mp hgone
    rw [World.gone, World.rename, World.updateSocket, List.getElem?_modify, hs]
    split_ifs <;> exact hdestroyed

theorem sameOffers_enroll (w : World) (server : Server) (name : Key) (m : Miner) :
    SameOffers w (w.enroll server name m) := by
  cases server with
  | pool => exact ⟨rfl, le_rfl, fun _ => id, List.prefix_rfl⟩
  | solo =>
    refine ⟨rfl, le_rfl, fun _ => id, ?_⟩
    change _ <+: (w.soloMiners.entries ++ [m]).map Miner.offer
    rw [List.map_append]
    exact List.prefix_append _ _

theorem offers_afterSubmit (rt : Runtime) (r : Registry) (server : Server) (serial : ℕ)
    (request : Request) (workerName : Key) :
    r.entries.map Miner.offer <+:
      (r.afterSubmit rt server serial request workerName).entries.map Miner.offer := by
  have hlocate : ∀ miner r', r.locate server serial request workerName = some (miner, r') →
      r.entries.map Miner.offer <+: r'.entries.map Miner.offer := by
    intro miner r' hloc
    rcases Registry.locate_cases hloc with ⟨rfl, -⟩ | ⟨v, -, -, -, -, rfl⟩
    · exact List.prefix_rfl
    · rw [Registry.add, List.map_append]
      exact List.prefix_append _ _
  unfold Registry.afterSubmit
  split
  · exact List.prefix_rfl
  · rename_i miner r' hloc
    split
    · exact hlocate miner r' hloc
    · rename_i fields _
      have hsame : (r'.entries.modify miner (Miner.remember fields.jobId fields.shareKey)).map
          Miner.offer = r'.entries.map Miner.offer := by
        apply map_modify_eq
        exact fun _ => rfl
      rw [hsame]
      exact hlocate miner r' hloc

theorem sameOffers_afterSubmit (rt : Runtime) (w : World) (server : Server) (request : Request)
    (workerName : Key) :
    SameOffers w (w.updateRegistry server fun r =>
      r.afterSubmit rt server w.serial request workerName) := by
  cases server with
  | pool => exact ⟨rfl, le_rfl, fun _ => id, List.prefix_rfl⟩
  | solo => exact ⟨rfl, le_rfl, fun _ => id, offers_afterSubmit rt _ _ _ _ _⟩

end FirstTurns

/-- The inputs after which jobs and shares stay together. A solo submit that names the job of the
entry it is counted for comes from the connection of that entry, which is open, and the entry has
been sent a job since the template was last replaced. -/
def InTime (rt : Runtime) (w : World) (l : List Output) : Input → Prop
  | .message socket .submit request => ∀ s miner r m fields, w.sockets[socket]? = some s →
      s.server = .solo →
      w.soloMiners.locate .solo w.serial request s.workerName = some (miner, r) →
      w.soloMiners.entries[miner]? = some m → request.shareFields rt w.serial = .ok fields →
      m.jobId = fields.jobId →
        s.destroyed = false ∧ m.socket = some socket ∧ miner ∈ announcedSince l
  | _ => True

theorem stratumPrevHash_of_built {t : BlockTemplate} (h : Built rt t) :
    t.stratumPrevHash = formatPrevHashForStratum t.prevHashBE := by
  obtain ⟨now, h⟩ := h
  obtain ⟨coinbase1, coinbase2, branch, -, -, -, ht⟩ := buildTemplate_eq h
  rw [ht]

theorem coherent_of_attempt {l : List Output} {s : Socket} {request : Request} {a : Attempt}
    (hI : Offered rt w l) (hlegal : InTime rt w l (.message socket .submit request))
    (hs : w.sockets[socket]? = some s) (ha : (screened rt socket s request w).2 = .attempt a)
    (header : List UInt8) : CoherentAt l (.credited (a.share header)) := by
  intro hsolo
  have hserver : s.server = .solo := (screened_attempt ha).1.symm.trans hsolo
  obtain ⟨miner, r, fields, t, m, coinbase1, coinbase2, hlocate, hfields, ht, hm, hjob, hcoinbase, rfl⟩ :=
    screened_solo_attempt rt hserver ha
  have hparts : m.coinbase1 = some coinbase1 ∧ m.coinbase2 = some coinbase2 := by
    unfold Miner.coinbase at hcoinbase
    split at hcoinbase
    · rename_i hc1 hc2
      split_ifs at hcoinbase
      cases hcoinbase
      exact ⟨hc1, hc2⟩
    · cases hcoinbase
  -- An entry that the submit created has no coinbase, so this one was there before.
  have hold : w.soloMiners.entries[miner]? = some m := by
    rcases Registry.locate_cases hlocate with ⟨rfl, -⟩ | ⟨v, -, -, -, rfl, rfl⟩
    · exact hm
    · rw [Registry.add, List.getElem?_concat_length] at hm
      cases hm
      cases hcoinbase
  obtain ⟨hopen, hsocket, hsince⟩ := hlegal s miner r m fields hs hserver hlocate hold hfields hjob
  have hgone : w.gone socket = false := by rw [World.gone, hs]; exact hopen
  obtain ⟨t', ht', hmem⟩ := hI.announced miner hsince m socket hold hsocket hgone
  obtain rfl := Option.some.inj (ht.symm.trans ht')
  exact ⟨m.job t, hmem, hjob, hparts.1, hparts.2, rfl, rfl, rfl,
    stratumPrevHash_of_built (hI.built t ht)⟩

section Run
variable {rt : Runtime} {w : World} {l : List Output}

theorem FirstTurn.sameOffers {input : Input} {os : List Output} {t : PoolM Unit}
    (hturn : FirstTurn rt w input os t w') : SameOffers w w' := by
  cases hturn with
  | idle _ hcalm => exact hcalm.1.sameOffers
  | connected server => exact sameOffers_connected w server
  | @closed socket s _ => exact sameOffers_closed w socket s
  | @authorized socket _ _ s _ _ _ _ _ w₁ _ _ _ _ _ hidle hidle' =>
    exact (((sameOffers_rename w socket _).trans hidle.sameOffers).trans
      (sameOffers_enroll w₁ s.server _ _)).trans hidle'.sameOffers
  | @submitted _ s request _ _ _ _ _ hcalm =>
    exact (sameOffers_afterSubmit rt w s.server request s.workerName).trans hcalm.1.sameOffers

theorem FirstTurn.offered {input : Input} {os : List Output} {t : PoolM Unit}
    (hturn : FirstTurn rt w input os t w') (hlegal : InTime rt w l input) (hI : Offered rt w l) :
    Offered rt w' (l ++ os) := by
  have hsame := hI.of_same hturn.sameOffers
  have hplain : (∀ o ∈ os, o.plain) → Offered rt w' (l ++ os) :=
    Async.invariant_append (offered_plain rt) hsame
  cases hturn with
  | idle => exact hplain (by simp)
  | connected server => exact hplain (by simp)
  | closed _ => exact hplain (by simp)
  | authorized _ _ _ hos => exact hplain hos
  | submitted hs _ _ hos =>
    rcases hos with hos | ⟨a, header, ha, -, rfl⟩
    · exact hplain hos
    · have hcredit := hsame.emit (o := .credited (a.share header)) (List.foldl_concat _ _ _ _)
        (coherent_of_attempt hI hlegal hs ha header)
      rw [List.append_cons]
      exact hcredit.plain trivial

theorem start_keeps {input : Input} (hlegal : InTime rt w l input) (hI : Offered rt w l) :
    Keeps (Offered rt) Persists (Async.Restores (Offered rt) Persists) (start rt input) w w l := by
  apply Keeps.restores (F := fun _ => True)
  by_cases hrefresh : ∃ rounds, input = .refresh rounds
  · obtain ⟨rounds, rfl⟩ := hrefresh
    apply refreshBlockTemplate_keeps rt (offered_idle rt) (offered_plain rt)
      (fun _ _ h => h.blockTemplate) _ _ rounds hI (refl_of Persists w)
    · exact fun _ _ _ ht hI => ⟨hI.refreshed ht, ⟨fun _ => rfl, le_rfl, List.prefix_rfl⟩, rfl⟩
    · exact fun template rounds _ _ _ hI hG ht => refreshSolo_keeps rt template rounds 0 hI hG ht
  · push Not at hrefresh
    obtain ⟨os, t, w', hleads, hturn⟩ := start_turn rt w hrefresh
    have hoffered := hturn.offered hlegal hI
    have hsame := hturn.sameOffers
    apply (hleads.keeps_iff w l).mpr
    cases hturn with
    | idle _ _ honly =>
      exact keeps_of_idle rt (fun _ _ _ => id) honly hoffered hsame.persists trivial
    | connected server => exact ⟨hoffered, hsame.persists, trivial⟩
    | closed _ => exact ⟨hoffered, hsame.persists, trivial⟩
    | submitted _ honly =>
      exact keeps_of_idle rt (fun _ _ _ => id) honly hoffered hsame.persists trivial
    | @authorized socket diff _ s _ _ _ _ jobId w₁ _ hs _ _ _ _ hidle' =>
      apply Keeps.catching
      · cases hserver : s.server with
        | pool =>
          exact keeps_of_idle rt (fun _ _ _ => id) (only_resolveMiner rt w' _ _) hoffered
            hsame.persists trivial
        | solo =>
          rw [hserver] at hidle'
          apply prepareMiner_keeps rt _ hoffered hsame.persists
          · exact (List.getElem?_eq_some_iff.mp hs).1.trans_le hsame.sockets
          · obtain ⟨added, hadded⟩ := hidle'.sameOffers.persists.owners
            rw [← hadded]
            change ((w₁.soloMiners.entries ++ [authorizedMiner .solo socket diff jobId]).map
              Miner.socket ++ added)[w₁.soloMiners.entries.length]? = some (some socket)
            simp [authorizedMiner]
      · exact fun _ _ _ _ hI hG _ => ⟨hI, hG, trivial⟩

end Run

/-- In every run in which solo submits are in time, every solo share that is counted was rebuilt
from one job that had been announced to its miner under the submitted name. -/
theorem solo_jobs_coherent (rt : Runtime) (redis : Bool) (entropy : ℕ → List UInt8) (feeWallet : Text)
    (moves : List PoolMove)
    (hlegal : Async.LegalMoves (start rt) (InTime rt) (.initial (.initial redis entropy feeWallet))
      moves) (past : List Output) (share : Share) (later : List Output)
    (hshare : Async.outputs (runPool rt (.initial redis entropy feeWallet) moves).log =
      past ++ .credited share :: later) (hsolo : share.server = .solo) : Coherent past share := by
  have hinitial : Offered rt (.initial redis entropy feeWallet) [] := by
    refine ⟨?_, ?_, ?_, Async.eachAfter_nil _⟩
    · intro t ht
      cases ht
    · exact nofun
    · exact nofun
  have hkept := Async.run_kept (fun _ _ _ hlegal hI => start_keeps hlegal hI)
    (Async.kept_initial hinitial) hlegal
  exact hkept.1.coherent past (.credited share) later hshare hsolo

def soloMoves : List PoolMove :=
  [.fire (.connect .solo), .fire (.refresh 1), .resume 1 (.template (some (.first []))),
    .fire (.message 0 .authorize ⟨none, some (.arr [.str "w".toList])⟩), .resume 2 .done,
    .resume 2 (.address true (some "51".toList)), .resume 2 (.address true (some "51".toList)),
    .resume 2 .done]

def soloSubmit : PoolMove :=
  .fire (.message 0 .submit firstSubmit)

def prepared : Process := runPool .constant (.fresh false) soloMoves

theorem solo_jobs_coherent_prepared : ∃ past share later,
    Async.outputs (runPool .constant (.fresh false) (soloMoves ++ [soloSubmit])).log =
      past ++ .credited share :: later ∧ share.server = .solo ∧ Coherent past share := by
  refine ⟨Async.outputs (runPool .constant (.fresh false) soloMoves).log, _, _, rfl, rfl, ?_⟩
  apply solo_jobs_coherent .constant false (fun _ => []) [] (soloMoves ++ [soloSubmit]) ?_ _ _ _ rfl rfl
  apply Async.legalMoves_concat.mpr
  constructor
  · apply Async.legalMoves_of_mem
    intro e he
    simp only [soloMoves, List.mem_cons, Async.Move.fire.injEq, reduceCtorEq, false_or,
      List.not_mem_nil, or_false] at he
    rcases he with rfl | rfl | rfl <;> exact fun _ _ => trivial
  · rintro e ⟨⟩ s miner r m fields hs - hlocate hm - -
    have hnames : (prepared.world.sockets[0]?.map fun s => (s.workerName, s.destroyed)) =
        some (.str "w".toList, false) := by
      decide +kernel
    have howner : (prepared.world.soloMiners.locate .solo prepared.world.serial
        firstSubmit (.str "w".toList)).map
        Prod.fst = some 0 := by
      decide
    have hsocket : (prepared.world.soloMiners.entries[0]?.map Miner.socket) = some (some 0) := by
      decide
    change prepared.world.sockets[0]? = some s at hs
    change prepared.world.soloMiners.locate .solo prepared.world.serial
      firstSubmit s.workerName =
        some (miner, r) at hlocate
    change prepared.world.soloMiners.entries[miner]? = some m at hm
    rw [hs, Option.map_some, Option.some.injEq, Prod.mk.injEq] at hnames
    rw [← hnames.1, hlocate] at howner
    obtain rfl : miner = 0 := Option.some.inj howner
    rw [hm] at hsocket
    exact ⟨hnames.2, Option.some.inj hsocket, by decide⟩

/-- A template with another previous block replaces the first one; the loop then waits. -/
def replacedMoves : List PoolMove :=
  [.fire (.refresh 1), .resume 3 (.template (some
    { NodeTemplate.first [] with previousblockhash := some (List.replicate 64 '1') }))]

/-- The share is rebuilt on the previous block of a template that no announced job has. -/
theorem solo_jobs_not_coherent : ∃ past share later,
    Async.outputs (runPool .constant (.fresh false)
      (soloMoves ++ replacedMoves ++ [soloSubmit])).log = past ++ .credited share :: later ∧
    share.server = .solo ∧ ¬ Coherent past share := by
  refine ⟨Async.outputs (runPool .constant (.fresh false)
    (soloMoves ++ replacedMoves)).log, _, _, rfl, rfl, ?_⟩
  have hold : ((Async.outputs (runPool .constant (.fresh false)
      (soloMoves ++ replacedMoves)).log).all fun o => match o with
        | .notify _ _ job => decide (job.stratumPrevHash = formatPrevHashForStratum zeroHash)
        | _ => true) = true := by
    decide
  have hne : formatPrevHashForStratum zeroHash ≠
      formatPrevHashForStratum (List.replicate 64 '1') := by
    decide
  rintro ⟨job, hmem, -, -, -, -, -, -, hprev⟩
  have hjob := of_decide_eq_true (List.all_eq_true.mp hold _ hmem)
  exact hne (hjob.symm.trans hprev)

end Tarcoin.Pool
