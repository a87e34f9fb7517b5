import Tarcoin.Foundations.AsyncRules

/-! A task serves jobs one after the other and marks where each begins and ends. As long as no job
arrives before the earlier ones are finished, all are served in the order of their arrival. -/
namespace Async

variable {σ C R O ε J : Type}

inductive Mark (J : Type)
  | began (job : J)
  | finished (job : J)
  deriving DecidableEq, Repr

section Host
variable {σ' C' R' O' ε' : Type}

/-- Start a task of one system within a task of another without waiting for it. It runs up to its
first call; what comes after the answer is put aside. -/
def detach (h : Host σ C R O σ' C' R' O') (park : (R → Async σ C R O ε Unit) → σ' → σ')
    (asked : C → O') : Async σ C R O ε Unit → Async σ' C' R' O' ε' Unit
  | pure _ => pure ()
  | throw _ => pure ()
  | read k => read fun s' => (k (h.get s')).detach h park asked
  | write s k => read fun s' => write (h.set s' s) (k.detach h park asked)
  | emit o k => emit (h.output o) (k.detach h park asked)
  | await c k => emit (asked c) (modify (park k))

variable {h : Host σ C R O σ' C' R' O'} {S : σ' → σ' → Prop} {U : O' → Prop}
variable (hset : ∀ s' s, S s' (h.set s' s)) (houtput : ∀ o, U (h.output o))

include hset houtput

theorem only_embed {α : Type} (t : Async σ C R O ε α) (s' : σ') : Only S U (t.embed h) s' := by
  induction t generalizing s' with
  | pure a => exact trivial
  | throw e => exact trivial
  | read k ih => exact ih _ s'
  | write s k ih => exact ⟨hset s' s, ih _⟩
  | emit o k ih => exact ⟨houtput o, ih s'⟩
  | await c k ih => exact fun r s' => ih _ s'

theorem only_detach {park : (R → Async σ C R O ε Unit) → σ' → σ'} {asked : C → O'}
    (hpark : ∀ k s', S s' (park k s')) (hasked : ∀ c, U (asked c)) (t : Async σ C R O ε Unit)
    (s' : σ') : Only S U (t.detach h park asked : Async σ' C' R' O' ε' Unit) s' := by
  induction t generalizing s' with
  | pure a => exact trivial
  | throw e => exact trivial
  | read k ih => exact ih _ s'
  | write s k ih => exact ⟨hset s' s, ih _⟩
  | emit o k ih => exact ⟨houtput o, ih s'⟩
  | await c k ih => exact ⟨hasked c, hpark k s', trivial⟩

end Host

section Serve
variable (mark : Mark J → O) (handle : J → Async σ C R O ε Unit)

/-- Serve jobs one after the other, whatever each of them ends with. -/
def serve : List J → Async σ C R O ε Unit
  | [] => pure ()
  | job :: jobs => emit (mark (.began job)) ((handle job).andThen fun _ =>
      emit (mark (.finished job)) (serve jobs))

/-- The rest of a service: what is left of one job, and the jobs after it. -/
def finish (job : J) (jobs : List J) (t : Async σ C R O ε Unit) : Async σ C R O ε Unit :=
  t.andThen fun _ => emit (mark (.finished job)) (serve mark handle jobs)

end Serve

def served (jobs : List J) : List (Mark J) := jobs.flatMap fun job => [.began job, .finished job]

theorem served_append (jobs jobs' : List J) : served (jobs ++ jobs') = served jobs ++ served jobs' :=
  List.flatMap_append

/-- All jobs are served in order, or one of them is being served and those before it are. -/
def InOrder (jobs : List J) (marks : List (Mark J)) : Prop :=
  marks = served jobs ∨
    ∃ done job left, jobs = done ++ job :: left ∧ marks = served done ++ [.began job]

theorem InOrder.eq_served {jobs : List J} {marks : List (Mark J)} {job : J} (h : InOrder jobs marks)
    (hlast : marks.getLast? = some (.finished job)) : marks = served jobs := by
  obtain h | ⟨done, next, left, -, rfl⟩ := h
  · exact h
  · rw [List.getLast?_concat] at hlast
    nomatch hlast

def Settled (marks : List (Mark J)) : Prop := ∃ jobs, marks = served jobs

theorem not_settled_began (done : List J) (job : J) : ¬ Settled (served done ++ [.began job]) := by
  intro ⟨jobs, h⟩
  have hlen := congrArg List.length h
  simp only [served, List.length_append, List.length_flatMap, List.length_cons, List.length_nil,
    List.map_const', List.sum_replicate, smul_eq_mul] at hlen
  omega

section Turn
variable {mark : Mark J → O} {handle : J → Async σ C R O ε Unit}
variable {S : σ → σ → Prop} (unmark : O → Option (Mark J))

def Unmarked (o : O) : Prop := unmark o = none

def marksOf (events : List (Event C R O)) : List (Mark J) :=
  (events.filterMap Event.output?).filterMap unmark

variable (mark handle S) in
/-- A task waits in the middle of a job, with others left. -/
def Rest.Serves (job : J) (left : List J) : Rest σ C R O ε Unit → Prop
  | .done _ => False
  | .waiting _ k => ∀ r, ∃ t, (∀ s, Async.Only S (Unmarked unmark) t s) ∧
      k r = finish mark handle job left t

variable {unmark}

variable {t : Async σ C R O ε Unit} {s : σ}

theorem Only.state [Std.Refl S] [IsTrans σ S] {U : O → Prop} (h : Only S U t s) :
    S s (t.advance s).1 :=
  (h.advance (I := fun s' _ => S s s') (l := []) (fun _ _ _ hI hS => trans_of S hI hS)
    (fun _ _ _ hI _ => hI) (refl_of S s)).1

theorem Only.turn (h : Only S (Unmarked unmark) t s) :
    marksOf unmark (t.advance s).2.1 = [] ∧ (t.advance s).2.2.Only S (Unmarked unmark) := by
  refine h.advance (I := fun _ l => l.filterMap unmark = []) (l := []) (fun _ _ _ hI _ => hI) ?_ rfl
  intro _ l o hI ho
  rw [List.filterMap_append, hI, List.nil_append, List.filterMap_cons_none ho, List.filterMap_nil]

/-- A turn of a task that goes on with another: the first part sets no marks and ends, or it waits. -/
theorem Only.andThen_turn (h : Only S (Unmarked unmark) t s)
    (f : Except ε Unit → Async σ C R O ε Unit) :
    (∃ x s', marksOf unmark ((t.andThen f).advance s).2.1 = marksOf unmark ((f x).advance s').2.1 ∧
        ((t.andThen f).advance s).2.2 = ((f x).advance s').2.2) ∨
      marksOf unmark ((t.andThen f).advance s).2.1 = [] ∧
        ∃ (c : C) (k : R → Async σ C R O ε Unit),
          ((t.andThen f).advance s).2.2 = .waiting c (fun r => (k r).andThen f) ∧
            ∀ r s', Only S (Unmarked unmark) (k r) s' := by
  induction t generalizing s with
  | pure a => exact .inl ⟨_, s, rfl, rfl⟩
  | throw e => exact .inl ⟨_, s, rfl, rfl⟩
  | read k ih => exact ih s h
  | write s' k ih => exact ih h.2
  | emit o k ih =>
    have hskip (events : List (Event C R O)) :
        marksOf unmark (.emitted o :: events) = marksOf unmark events :=
      List.filterMap_cons_none h.1
    simpa only [Async.andThen, Async.advance, hskip] using ih h.2
  | await c k ih => exact .inr ⟨rfl, c, k, rfl, h⟩

variable (hmark : ∀ m, unmark (mark m) = some m)
variable (hhandle : ∀ job s, Only S (Unmarked unmark) (handle job) s)

include hmark in
theorem marksOf_emit (m : Mark J) (events : List (Event C R O)) :
    marksOf unmark (.emitted (mark m) :: events) = m :: marksOf unmark events :=
  List.filterMap_cons_some (hmark m)

include hmark hhandle in
theorem finish_turn (jobs : List J) (job : J) (ht : Only S (Unmarked unmark) t s) :
    let turn := (finish mark handle job jobs t).advance s
    (turn.2.2 = .done (.ok ()) ∧ .began job :: marksOf unmark turn.2.1 = served (job :: jobs)) ∨
      ∃ done next left, job :: jobs = done ++ next :: left ∧
        .began job :: marksOf unmark turn.2.1 = served done ++ [.began next] ∧
        turn.2.2.Serves mark handle S unmark next left := by
  dsimp only
  induction jobs generalizing job t s with
  | nil =>
    obtain ⟨x, s', hmarks, hrest⟩ | ⟨hmarks, c, k, hrest, hk⟩ := ht.andThen_turn
      fun _ => emit (mark (.finished job)) (serve mark handle [])
    · left
      refine ⟨hrest, ?_⟩
      rw [finish, hmarks]
      exact congrArg _ (marksOf_emit hmark _ _)
    · right
      refine ⟨[], job, [], rfl, congrArg _ hmarks, ?_⟩
      rw [finish, hrest]
      exact fun r => ⟨k r, hk r, rfl⟩
  | cons next jobs ih =>
    obtain ⟨x, s', hmarks, hrest⟩ | ⟨hmarks, c, k, hrest, hk⟩ := ht.andThen_turn
      fun _ => emit (mark (.finished job)) (serve mark handle (next :: jobs))
    · -- this job ends within the turn, and the next one is under way
      have hevents : .began job :: marksOf unmark ((finish mark handle job (next :: jobs) t).advance s).2.1 =
          served [job] ++ .began next ::
            marksOf unmark ((finish mark handle next jobs (handle next)).advance s').2.1 := by
        rw [finish, hmarks]
        exact congrArg _ ((marksOf_emit hmark _ _).trans (congrArg _ (marksOf_emit hmark _ _)))
      rw [hevents, show ((finish mark handle job (next :: jobs) t).advance s).2.2 =
        ((finish mark handle next jobs (handle next)).advance s').2.2 from hrest]
      obtain ⟨hend, hall⟩ | ⟨done, later, left, hjobs, hsome, hserves⟩ := ih next (hhandle next s')
      · left
        rw [hall, ← served_append]
        exact ⟨hend, rfl⟩
      · right
        refine ⟨job :: done, later, left, ?_, ?_, hserves⟩
        · rw [hjobs, List.cons_append]
        · rw [hsome, ← List.append_assoc, ← served_append, List.singleton_append]
    · right
      refine ⟨[], job, next :: jobs, rfl, congrArg _ hmarks, ?_⟩
      rw [finish, hrest]
      exact fun r => ⟨k r, hk r, rfl⟩

include hhandle in
theorem only_finish (jobs : List J) (job : J) (ht : Only S (Unmarked unmark) t s) :
    Only S (fun _ => True) (finish mark handle job jobs t) s := by
  have hfree {t : Async σ C R O ε Unit} {s : σ} (h : Only S (Unmarked unmark) t s) :
      Only S (fun _ => True) t s := h.mono (fun _ _ => id) fun _ _ => trivial
  induction jobs generalizing job t s with
  | nil => exact (hfree ht).andThen fun _ _ => ⟨trivial, trivial⟩
  | cons next jobs ih =>
    exact (hfree ht).andThen fun _ s' => ⟨trivial, trivial, ih next (hhandle next s')⟩

end Turn

section Arrivals
variable {E : Type}

/-- How jobs arrive in a system. An input that `arrives` brings the jobs `arriving`, and its task
serves them after it has written what `K` says of the past inputs; no other task sets marks or
breaks `K`. A legal input brings jobs only when all those that began are finished. -/
structure Queue (start : E → Async σ C R O ε Unit) (legal : σ → List O → E → Prop)
    (mark : Mark J → O) (unmark : O → Option (Mark J)) (handle : J → Async σ C R O ε Unit)
    (S : σ → σ → Prop) (arrives : E → Prop) (arriving : σ → E → List J)
    (jobs : List (Move R E) → List J) (K : List (Move R E) → σ → Prop) : Prop where
  unmark_mark : ∀ m, unmark (mark m) = some m
  only_handle : ∀ job s, Only S (Unmarked unmark) (handle job) s
  only_start : ∀ e s, ¬ arrives e → Only S (Unmarked unmark) (start e) s
  write : ∀ moves s s', K moves s → S s s' → K moves s'
  other : ∀ moves m, (∀ e, m = .fire e → ¬ arrives e) →
    jobs (moves ++ [m]) = jobs moves ∧ ∀ s, K moves s → K (moves ++ [m]) s
  arrive : ∀ moves s l e, arrives e → legal s l e → K moves s →
    jobs (moves ++ [.fire e]) = jobs moves ++ arriving s e ∧
      ∃ s', K (moves ++ [.fire e]) s' ∧ Leads (start e) s [] (serve mark handle (arriving s e)) s'
  settled : ∀ s l e, arrives e → legal s l e → arriving s e ≠ [] → Settled (l.filterMap unmark)

variable {start : E → Async σ C R O ε Unit} {legal : σ → List O → E → Prop} {mark : Mark J → O}
variable {unmark : O → Option (Mark J)} {handle : J → Async σ C R O ε Unit} {S : σ → σ → Prop}
variable {arrives : E → Prop} {arriving : σ → E → List J} {jobs : List (Move R E) → List J}
variable {K : List (Move R E) → σ → Prop}

def System.marks (unmark : O → Option (Mark J)) (sys : System σ C R O ε E) : List (Mark J) :=
  (outputs sys.log).filterMap unmark

variable (mark unmark handle S arrives) in
/-- Where the service of some jobs stands: all are served, or a task is in the middle of one. -/
def Stands (sys : System σ C R O ε E) (jobs : List J) : Option ℕ → Prop
  | none => sys.marks unmark = served jobs
  | some i => ∃ t done job left, sys.threads[i]? = some t ∧ arrives t.input ∧
      t.rest.Serves mark handle S unmark job left ∧ jobs = done ++ job :: left ∧
      sys.marks unmark = served done ++ [.began job]

variable (unmark S) in
def Aside (sys : System σ C R O ε E) (server : Option ℕ) : Prop :=
  ∀ i t, some i ≠ server → sys.threads[i]? = some t → t.rest.Only S (Unmarked unmark)

variable {sys : System σ C R O ε E} {server : Option ℕ} {i : ℕ}

section Stands
variable {jobs : List J} (h : Stands mark unmark handle S arrives sys jobs server)
include h

theorem Stands.inOrder : InOrder jobs (sys.marks unmark) := by
  cases server with
  | none => exact .inl h
  | some i =>
    obtain ⟨t, done, job, left, -, -, -, hjobs, hmarks⟩ := h
    exact .inr ⟨done, job, left, hjobs, hmarks⟩

theorem Stands.settled (hs : Settled (sys.marks unmark)) : server = none := by
  cases server with
  | none => rfl
  | some i =>
    obtain ⟨t, done, job, left, -, -, -, -, hmarks⟩ := h
    rw [hmarks] at hs
    exact absurd hs (not_settled_began done job)

theorem Stands.served_of_done
    (hdone : ∀ t ∈ sys.threads, arrives t.input → ∃ x, t.rest = .done x) :
    sys.marks unmark = served jobs := by
  cases server with
  | none => exact h
  | some i =>
    obtain ⟨t, done, job, left, hi, harrives, hserves, -, -⟩ := h
    obtain ⟨x, hx⟩ := hdone t (List.mem_of_getElem? hi) harrives
    rw [hx] at hserves
    exact hserves.elim

theorem Stands.ne_length : some sys.threads.length ≠ server := by
  rintro rfl
  obtain ⟨t, -, -, -, hi, -⟩ := h
  exact (List.getElem?_eq_some_iff.mp hi).1.false

end Stands

section Turned
variable {sys' : System σ C R O ε E} {e : E} {s₀ : σ} {seen : List (Event C R O)}
  {u : Async σ C R O ε Unit} (hturn : Turned sys i e s₀ seen u sys')
include hturn

theorem Turned.marks_eq : sys'.marks unmark =
    sys.marks unmark ++ marksOf unmark (u.advance sys.world).2.1 := by
  rw [System.marks, hturn.outputs_eq, List.filterMap_append]
  rfl

theorem Stands.turned {jobs : List J} (h : Stands mark unmark handle S arrives sys jobs server)
    (haside : Aside unmark S sys server) (hne : some i ≠ server)
    (hmarks : marksOf unmark (u.advance sys.world).2.1 = [])
    (hrest : (u.advance sys.world).2.2.Only S (Unmarked unmark)) :
    Stands mark unmark handle S arrives sys' jobs server ∧ Aside unmark S sys' server := by
  have hsame : sys'.marks unmark = sys.marks unmark := by
    rw [hturn.marks_eq, hmarks, List.append_nil]
  constructor
  · cases server with
    | none => exact hsame.trans h
    | some j =>
      obtain ⟨t, done, job, left, hj, hrest⟩ := h
      refine ⟨t, done, job, left, ?_, ?_⟩
      · rw [hturn.other j fun hji => hne (congrArg some hji.symm), hj]
      · rwa [hsame]
  · intro j t hj hjt
    rcases eq_or_ne j i with rfl | hji
    · rw [hturn.self] at hjt
      cases hjt
      exact hrest
    · rw [hturn.other j hji] at hjt
      exact haside j t hj hjt

theorem stands_of_turn {done left : List J} {job : J} {marks : List (Mark J)} (harrives : arrives e)
    (haside : ∀ j t, j ≠ i → sys.threads[j]? = some t → t.rest.Only S (Unmarked unmark))
    (hmarks : sys.marks unmark ++ marksOf unmark (u.advance sys.world).2.1 =
      served done ++ .began job :: marks)
    (hend : ((u.advance sys.world).2.2 = .done (.ok ()) ∧
        .began job :: marks = served (job :: left)) ∨
      ∃ done next left', job :: left = done ++ next :: left' ∧
        .began job :: marks = served done ++ [.began next] ∧
        (u.advance sys.world).2.2.Serves mark handle S unmark next left') :
    ∃ server, Stands mark unmark handle S arrives sys' (done ++ job :: left) server ∧
      Aside unmark S sys' server := by
  rw [← hturn.marks_eq] at hmarks
  have hothers : Aside unmark S sys' (some i) := by
    intro j t hne hj
    have hji : j ≠ i := fun h => hne (congrArg some h)
    rw [hturn.other j hji] at hj
    exact haside j t hji hj
  obtain ⟨hend, hall⟩ | ⟨done', next, left', hjobs, hsome, hserves⟩ := hend
  · refine ⟨none, ?_, ?_⟩
    · rw [Stands, hmarks, hall, served_append]
    · intro j t _ hj
      rcases eq_or_ne j i with rfl | hji
      · rw [hturn.self] at hj
        cases hj
        rw [hend]
        trivial
      · exact hothers j t (by simpa using hji) hj
  · refine ⟨some i, ⟨_, done ++ done', next, left', hturn.self, harrives, hserves, ?_, ?_⟩, hothers⟩
    · rw [hjobs, List.append_assoc]
    · rw [hmarks, hsome, served_append, List.append_assoc]

end Turned

section Run
variable [Std.Refl S] [IsTrans σ S]

variable (start legal mark unmark handle S arrives arriving jobs K) in
/-- The jobs of the past inputs are served as far as they stand, and `K` holds. -/
def Queue.Holds (moves : List (Move R E)) (sys : System σ C R O ε E) : Prop :=
  K moves sys.world ∧ ∃ server, Stands mark unmark handle S arrives sys (jobs moves) server ∧
    Aside unmark S sys server

variable (q : Queue start legal mark unmark handle S arrives arriving jobs K)
variable {moves : List (Move R E)} {sys : System σ C R O ε E}

include q

variable {e : E}

section
variable (h : Queue.Holds mark unmark handle S arrives jobs K moves sys)
include h

theorem Queue.fire_other (he : ¬ arrives e) :
    Queue.Holds mark unmark handle S arrives jobs K (moves ++ [.fire e]) (fireStep start sys e) := by
  obtain ⟨hK, server, hstands, haside⟩ := h
  obtain ⟨hjobs, hkeep⟩ := q.other moves (.fire e) fun _ h => Move.fire.inj h ▸ he
  have honly := q.only_start e sys.world he
  obtain ⟨hmarks, hrest⟩ := honly.turn
  refine ⟨hkeep _ (q.write moves _ _ hK honly.state), server, ?_⟩
  rw [hjobs]
  exact hstands.turned (turned_fire sys e) haside hstands.ne_length hmarks hrest

theorem Queue.fire_arrives (he : arrives e) (hlegal : legal sys.world (outputs sys.log) e) :
    Queue.Holds mark unmark handle S arrives jobs K (moves ++ [.fire e]) (fireStep start sys e) := by
  obtain ⟨hK, server, hstands, haside⟩ := h
  obtain ⟨hjobs, s', hK', hleads⟩ := q.arrive moves sys.world _ e he hlegal hK
  have hturn := hleads.advance
  rw [Queue.Holds, hjobs]
  cases harriving : arriving sys.world e with
  | nil =>
    rw [harriving] at hturn
    refine ⟨?_, server, ?_⟩
    · rw [fireStep, hturn]
      exact hK'
    · rw [List.append_nil]
      apply hstands.turned (turned_fire sys e) haside hstands.ne_length
      · rw [hturn]
        rfl
      · rw [hturn]
        trivial
  | cons job left =>
    -- the jobs before these are all served
    have hnone := hstands.settled (q.settled _ _ e he hlegal (by simp [harriving]))
    subst hnone
    have hhandle := q.only_handle job s'
    have hfinish := finish_turn q.unmark_mark q.only_handle left job hhandle
    rw [harriving] at hturn
    constructor
    · rw [fireStep, hturn]
      exact q.write _ _ _ hK' (only_finish q.only_handle left job hhandle).state
    · apply stands_of_turn (turned_fire sys e) he
      · exact fun j t _ hj => haside j t (Option.some_ne_none j) hj
      · rw [hturn, show sys.marks unmark = _ from hstands]
        exact congrArg _ (marksOf_emit q.unmark_mark _ _)
      · rw [hturn]
        exact hfinish

theorem Queue.resume {s : σ} {c : C} {k : R → Async σ C R O ε Unit}
    (hi : sys.threads[i]? = some ⟨e, s, .waiting c k⟩) (r : R) :
    Queue.Holds mark unmark handle S arrives jobs K (moves ++ [.resume i r])
      (resumeStep sys i ⟨e, s, .waiting c k⟩ c k r) := by
  obtain ⟨hK, server, hstands, haside⟩ := h
  obtain ⟨hjobs, hkeep⟩ := q.other moves (.resume i r) fun _ h => by cases h
  rw [Queue.Holds, hjobs]
  by_cases hserver : server = some i
  · subst hserver
    obtain ⟨t, done, job, left, hi', harrives, hserves, hall, hmarks⟩ := hstands
    rw [hi] at hi'
    cases hi'
    obtain ⟨t, ht, hk⟩ := hserves r
    have hfinish := finish_turn q.unmark_mark q.only_handle left job (ht sys.world)
    rw [← hk] at hfinish
    have hstate : S sys.world ((finish mark handle job left t).advance sys.world).1 :=
      (only_finish q.only_handle left job (ht sys.world)).state
    rw [← hk] at hstate
    refine ⟨hkeep _ (q.write _ _ _ hK hstate), ?_⟩
    rw [hall]
    apply stands_of_turn (turned_resume hi r) harrives
    · exact fun j t' hne hj => haside j t' (by simpa using hne) hj
    · rw [hmarks, List.append_assoc, List.singleton_append]
    · exact hfinish
  · have honly := haside i _ (Ne.symm hserver) hi r sys.world
    obtain ⟨hmarks, hrest⟩ := honly.turn
    exact ⟨hkeep _ (q.write _ _ _ hK honly.state), server,
      hstands.turned (turned_resume hi r) haside (Ne.symm hserver) hmarks hrest⟩

end

/-- In every legal run the jobs are served in the order of their arrival. -/
theorem Queue.run {s₀ : σ} (hK : K [] s₀) (hjobs : jobs [] = [])
    (hlegal : LegalMoves start legal (System.initial s₀) moves) :
    Queue.Holds mark unmark handle S arrives jobs K moves (run start (System.initial s₀) moves) := by
  induction moves using List.reverseRecOn with
  | nil =>
    refine ⟨hK, none, ?_, fun _ _ _ hi => by cases hi⟩
    rw [Stands, hjobs]
    rfl
  | append_singleton moves m ih =>
    obtain ⟨hbefore, hm⟩ := legalMoves_concat.mp hlegal
    have hholds := ih hbefore
    rw [run_concat]
    cases m with
    | fire e =>
      by_cases he : arrives e
      · exact q.fire_arrives hholds he (hm e rfl)
      · exact q.fire_other hholds he
    | resume i r =>
      rw [step]
      split
      · rename_i e s c k hi
        exact q.resume hholds hi r
      · obtain ⟨hsame, hkeep⟩ := q.other moves (.resume i r) fun _ h => by cases h
        obtain ⟨hK', server, hstands⟩ := hholds
        refine ⟨hkeep _ hK', server, ?_⟩
        rwa [hsame]

end Run

end Arrivals

end Async
