import Tarcoin.Foundations.Async

/-! `Spec` says what holds of a task at its calls and at its end, against the interference of the
others. `Keeps` is the rule for an invariant that a task may break within a turn and restores
before it waits. -/
namespace Async

variable {σ C R O ε α β : Type}

section Spec
variable {pause : σ → List (Event C R O) → C → Prop}
variable {post : σ → List (Event C R O) → Except ε α → Prop}

def Spec (pause : σ → List (Event C R O) → C → Prop)
    (post : σ → List (Event C R O) → Except ε α → Prop) :
    Async σ C R O ε α → σ → List (Event C R O) → Prop
  | pure a, s, l => post s l (.ok a)
  | throw e, s, l => post s l (.error e)
  | read k, s, l => Spec pause post (k s) s l
  | write s k, _, l => Spec pause post k s l
  | emit o k, s, l => Spec pause post k s (l ++ [.emitted o])
  | await c k, s, l => pause s (l ++ [.called c]) c ∧
      ∀ r s', Spec pause post (k r) s' (l ++ [.called c, .answered c r])

theorem spec_andThen (f : Except ε α → Async σ C R O ε β)
    {post : σ → List (Event C R O) → Except ε β → Prop} (t : Async σ C R O ε α) (s : σ)
    (l : List (Event C R O)) :
    Spec pause post (t.andThen f) s l ↔
      Spec pause (fun s l x => Spec pause post (f x) s l) t s l := by
  induction t generalizing s l with
  | pure a => rfl
  | throw e => rfl
  | read k ih => exact ih s s l
  | write s' k ih => exact ih s' l
  | emit o k ih => exact ih s _
  | await c k ih =>
    apply and_congr_right
    intro _
    exact forall_congr' fun r => forall_congr' fun s' => ih r s' _

variable {t : Async σ C R O ε α} {s : σ} {l : List (Event C R O)}

theorem Spec.mono {post' : σ → List (Event C R O) → Except ε α → Prop}
    (h : Spec pause post t s l) (himp : ∀ s l x, post s l x → post' s l x) :
    Spec pause post' t s l := by
  induction t generalizing s l with
  | pure a => exact himp _ _ _ h
  | throw e => exact himp _ _ _ h
  | read k ih => exact ih s h
  | write s' k ih => exact ih h
  | emit o k ih => exact ih h
  | await c k ih => exact ⟨h.1, fun r s' => ih r (h.2 r s')⟩

theorem Spec.relax {pause' : σ → List (Event C R O) → C → Prop} (h : Spec pause post t s l)
    (himp : ∀ s l c, pause s l c → pause' s l c) : Spec pause' post t s l := by
  induction t generalizing s l with
  | pure a => exact h
  | throw e => exact h
  | read k ih => exact ih s h
  | write s' k ih => exact ih h
  | emit o k ih => exact ih h
  | await c k ih => exact ⟨himp _ _ _ h.1, fun r s' => ih r (h.2 r s')⟩

def Rest.Meets (pause : σ → List (Event C R O) → C → Prop)
    (post : σ → List (Event C R O) → Except ε α → Prop) (s : σ) (l : List (Event C R O)) :
    Rest σ C R O ε α → Prop
  | .done x => post s l x
  | .waiting c k => pause s l c ∧
      ∀ r s', Spec pause post (k r) s' (l ++ [.answered c r])

theorem Spec.advance (h : Spec pause post t s l) :
    (t.advance s).2.2.Meets pause post (t.advance s).1 (l ++ (t.advance s).2.1) := by
  induction t generalizing s l with
  | pure a => rwa [Async.advance, List.append_nil]
  | throw e => rwa [Async.advance, List.append_nil]
  | read k ih => exact ih s h
  | write s' k ih => exact ih h
  | emit o k ih =>
    have := ih h
    rwa [List.append_assoc] at this
  | await c k ih =>
    refine ⟨h.1, fun r s' => ?_⟩
    have := h.2 r s'
    rwa [List.append_cons] at this

end Spec

section Turns
variable {E : Type} {start : E → Async σ C R O ε Unit}

@[simp] theorem own_append (i : ℕ) (l m : List (ℕ × Event C R O)) :
    own i (l ++ m) = own i l ++ own i m := List.filterMap_append

@[simp] theorem own_map_self (i : ℕ) (events : List (Event C R O)) :
    own i (events.map (Prod.mk i)) = events := by
  induction events with
  | nil => rfl
  | cons e events ih => simp [own]

theorem own_map_of_ne {i j : ℕ} (h : j ≠ i) (events : List (Event C R O)) :
    own i (events.map (Prod.mk j)) = [] := by
  simp [own, h]

@[simp] theorem outputs_append (l m : List (ℕ × Event C R O)) :
    outputs (l ++ m) = outputs l ++ outputs m := List.filterMap_append

@[simp] theorem outputs_map (i : ℕ) (events : List (Event C R O)) :
    outputs (events.map (Prod.mk i)) = events.filterMap Event.output? := by
  simp [outputs, List.filterMap_map]

def Move.thread (sys : System σ C R O ε E) : Move R E → ℕ
  | .fire _ => sys.threads.length
  | .resume i _ => i

/-- A turn of thread `i`, started for `e` in `s₀`: after `seen`, it has run on as `t`. -/
structure Turned (sys : System σ C R O ε E) (i : ℕ) (e : E) (s₀ : σ) (seen : List (Event C R O))
    (t : Async σ C R O ε Unit) (sys' : System σ C R O ε E) : Prop where
  silent : seen.filterMap Event.output? = []
  world : sys'.world = (t.advance sys.world).1
  log : sys'.log = sys.log ++ (seen ++ (t.advance sys.world).2.1).map (Prod.mk i)
  length : sys'.threads.length = max sys.threads.length (i + 1)
  self : sys'.threads[i]? = some ⟨e, s₀, (t.advance sys.world).2.2⟩
  other : ∀ j, j ≠ i → sys'.threads[j]? = sys.threads[j]?

variable {sys sys' : System σ C R O ε E} {i : ℕ} {e : E} {s₀ : σ} {seen : List (Event C R O)}
  {t : Async σ C R O ε Unit}

theorem turned_fire (sys : System σ C R O ε E) (e : E) :
    Turned sys sys.threads.length e sys.world [] (start e) (fireStep start sys e) where
  silent := rfl
  world := rfl
  log := rfl
  length := by simp [fireStep]
  self := List.getElem?_concat_length
  other j hj := by
    rw [fireStep, List.getElem?_append]
    split_ifs with hlt
    · rfl
    · rw [List.getElem?_eq_none (by rw [List.length_singleton]; omega),
        List.getElem?_eq_none (by omega)]

theorem turned_resume {c : C} {k : R → Async σ C R O ε Unit}
    (hi : sys.threads[i]? = some ⟨e, s₀, .waiting c k⟩) (r : R) :
    Turned sys i e s₀ [.answered c r] (k r) (resumeStep sys i ⟨e, s₀, .waiting c k⟩ c k r) := by
  have hlt := (List.getElem?_eq_some_iff.mp hi).1
  refine ⟨rfl, rfl, rfl, ?_, List.getElem?_set_self hlt, fun j hj => List.getElem?_set_ne hj.symm⟩
  rw [resumeStep, List.length_set]
  omega

namespace Turned
variable (h : Turned sys i e s₀ seen t sys')
include h

theorem outputs_eq : outputs sys'.log =
    outputs sys.log ++ (t.advance sys.world).2.1.filterMap Event.output? := by
  rw [h.log, outputs_append, outputs_map, List.filterMap_append, h.silent, List.nil_append]

theorem own_self : own i sys'.log = own i sys.log ++ seen ++ (t.advance sys.world).2.1 := by
  rw [h.log, own_append, own_map_self, List.append_assoc]

theorem own_other {j : ℕ} (hj : j ≠ i) : own j sys'.log = own j sys.log := by
  rw [h.log, own_append, own_map_of_ne hj.symm, List.append_nil]

theorem mem_threads {u : Thread σ C R O ε E} (hu : u ∈ sys'.threads) :
    u ∈ sys.threads ∨ u = ⟨e, s₀, (t.advance sys.world).2.2⟩ := by
  obtain ⟨j, hj⟩ := List.mem_iff_getElem?.mp hu
  rcases eq_or_ne j i with rfl | hne
  · rw [h.self] at hj
    exact .inr (Option.some.inj hj).symm
  · rw [h.other j hne] at hj
    exact .inl (List.mem_of_getElem? hj)

end Turned

/-- The turn that a move begins: a new task, or the rest of one that has been waiting. -/
inductive Begun (start : E → Async σ C R O ε Unit) (sys : System σ C R O ε E) :
    Move R E → E → σ → List (Event C R O) → Async σ C R O ε Unit → Prop
  | fire (e : E) : Begun start sys (.fire e) e sys.world [] (start e)
  | resume {i : ℕ} {e : E} {s₀ : σ} {c : C} {k : R → Async σ C R O ε Unit}
      (hi : sys.threads[i]? = some ⟨e, s₀, .waiting c k⟩) (r : R) :
      Begun start sys (.resume i r) e s₀ [.answered c r] (k r)

theorem Begun.turned {m : Move R E} (h : Begun start sys m e s₀ seen t) :
    Turned sys (m.thread sys) e s₀ seen t (step start sys m) := by
  cases h with
  | fire e => exact turned_fire sys e
  | resume hi r =>
    simp only [step, hi]
    exact turned_resume hi r

theorem begun_or_same (start : E → Async σ C R O ε Unit) (sys : System σ C R O ε E) (m : Move R E) :
    (∃ e s₀ seen t, Begun start sys m e s₀ seen t) ∨
    step start sys m = sys ∧
      ∀ e s c k, sys.threads[m.thread sys]? = some ⟨e, s, .waiting c k⟩ → False := by
  cases m with
  | fire e => exact .inl ⟨_, _, _, _, .fire e⟩
  | resume i r =>
    simp only [step]
    split
    · rename_i e s c k hi
      exact .inl ⟨_, _, _, _, .resume hi r⟩
    · rename_i hno
      exact .inr ⟨rfl, hno⟩

theorem begun_of_turn {m : Move R E} {t : Thread σ C R O ε E}
    (ht : (step start sys m).threads[m.thread sys]? = some t)
    (hturn : step start sys m ≠ sys ∨ ∃ c k, t.rest = .waiting c k) :
    ∃ seen u, Begun start sys m t.input t.origin seen u ∧ t.rest = (u.advance sys.world).2.2 := by
  obtain ⟨e, s₀, seen, u, hbegun⟩ | ⟨hsame, hno⟩ := begun_or_same start sys m
  · rw [hbegun.turned.self] at ht
    cases ht
    exact ⟨seen, u, hbegun, rfl⟩
  · rcases hturn with hne | ⟨c, k, hk⟩
    · exact absurd hsame hne
    · obtain ⟨e, s', rest⟩ := t
      subst hk
      rw [hsame] at ht
      exact (hno e s' c k ht).elim

theorem own_step_of_ne {m : Move R E} (hne : i ≠ m.thread sys) :
    own i (step start sys m).log = own i sys.log := by
  obtain ⟨e, s₀, seen, u, hbegun⟩ | ⟨hsame, -⟩ := begun_or_same start sys m
  · exact hbegun.turned.own_other hne
  · rw [hsame]

theorem run_concat (sys : System σ C R O ε E) (moves : List (Move R E)) (m : Move R E) :
    run start sys (moves ++ [m]) = step start (run start sys moves) m := List.foldl_concat _ _ _ _

end Turns

section Threads
variable {E : Type} {start : E → Async σ C R O ε Unit}

/-- Nothing has been observed of a thread that does not exist yet. -/
def Numbered (sys : System σ C R O ε E) : Prop := ∀ i, sys.threads.length ≤ i → own i sys.log = []

variable {pause : E → σ → σ → List (Event C R O) → C → Prop}
variable {post : E → σ → σ → List (Event C R O) → Except ε Unit → Prop}

/-- A thread meets the specification of the input and the state it was started with. -/
def Thread.Meets (pause : E → σ → σ → List (Event C R O) → C → Prop)
    (post : E → σ → σ → List (Event C R O) → Except ε Unit → Prop) (t : Thread σ C R O ε E)
    (s : σ) (l : List (Event C R O)) : Prop :=
  t.rest.Meets (pause t.input t.origin) (post t.input t.origin) s l

/-- Every thread meets its specification in the state its last turn left. -/
def Sound (pause : E → σ → σ → List (Event C R O) → C → Prop)
    (post : E → σ → σ → List (Event C R O) → Except ε Unit → Prop)
    (sys : System σ C R O ε E) : Prop :=
  ∀ (i : ℕ) (t : Thread σ C R O ε E), sys.threads[i]? = some t →
    ∃ s, t.Meets pause post s (own i sys.log)

section Step
variable {sys : System σ C R O ε E} {m : Move R E} {e : E} {s₀ : σ} {seen : List (Event C R O)}
  {t : Async σ C R O ε Unit}
variable (hstart : ∀ e s, Spec (pause e s) (post e s) (start e) s [])

theorem Numbered.step (hnum : Numbered sys) (m : Move R E) : Numbered (step start sys m) := by
  obtain ⟨e, s₀, seen, t, hbegun⟩ | ⟨hsame, -⟩ := begun_or_same start sys m
  · intro i hi
    rw [hbegun.turned.length] at hi
    rw [hbegun.turned.own_other (by omega), hnum i (by omega)]
  · rwa [hsame]

theorem run_numbered (s : σ) (moves : List (Move R E)) :
    Numbered (run start (System.initial s) moves) := by
  induction moves using List.reverseRecOn with
  | nil => exact fun i _ => rfl
  | append_singleton moves m ih =>
    rw [run_concat]
    exact ih.step m

include hstart

theorem Sound.begun (hnum : Numbered sys) (h : Sound pause post sys)
    (hbegun : Begun start sys m e s₀ seen t) :
    Spec (pause e s₀) (post e s₀) t sys.world (own (m.thread sys) sys.log ++ seen) := by
  cases hbegun with
  | fire e =>
    rw [Move.thread, hnum _ le_rfl]
    exact hstart e sys.world
  | resume hi r =>
    obtain ⟨_, hmeets⟩ := h _ _ hi
    exact hmeets.2 r sys.world

theorem Sound.meets (hnum : Numbered sys) (h : Sound pause post sys)
    (hbegun : Begun start sys m e s₀ seen t) :
    Rest.Meets (pause e s₀) (post e s₀) (step start sys m).world
      (own (m.thread sys) (step start sys m).log) (t.advance sys.world).2.2 := by
  rw [hbegun.turned.world, hbegun.turned.own_self]
  exact (h.begun hstart hnum hbegun).advance

theorem Sound.step (hnum : Numbered sys) (h : Sound pause post sys) (m : Move R E) :
    Sound pause post (step start sys m) := by
  obtain ⟨e, s₀, seen, t, hbegun⟩ | ⟨hsame, -⟩ := begun_or_same start sys m
  · intro i u hu
    rcases eq_or_ne i (m.thread sys) with rfl | hne
    · rw [hbegun.turned.self] at hu
      cases hu
      exact ⟨_, h.meets hstart hnum hbegun⟩
    · rw [hbegun.turned.other i hne] at hu
      rw [hbegun.turned.own_other hne]
      exact h i u hu
  · rwa [hsame]

/-- From the specification of each task to all runs of the system. -/
theorem run_sound (s : σ) (moves : List (Move R E)) :
    Sound pause post (run start (System.initial s) moves) := by
  induction moves using List.reverseRecOn with
  | nil =>
    intro i t ht
    cases ht
  | append_singleton moves m ih =>
    rw [run_concat]
    exact ih.step hstart (run_numbered s moves) m

theorem called_now (s : σ) (moves : List (Move R E)) (m : Move R E) {t : Thread σ C R O ε E} {c : C}
    {k : R → Async σ C R O ε Unit}
    (ht : (step start (run start (System.initial s) moves) m).threads[
      m.thread (run start (System.initial s) moves)]? = some t) (hc : t.rest = .waiting c k) :
    pause t.input t.origin (step start (run start (System.initial s) moves) m).world
      (own (m.thread (run start (System.initial s) moves))
        (step start (run start (System.initial s) moves) m).log) c := by
  obtain ⟨seen, u, hbegun, hrest⟩ := begun_of_turn ht (.inr ⟨c, k, hc⟩)
  have hmeets := (run_sound hstart s moves).meets hstart (run_numbered s moves) hbegun
  rw [← hrest, hc] at hmeets
  exact hmeets.1

end Step

end Threads

section Keeps

/-- The rule for an invariant `I`: it holds wherever the task waits, given that it holds again
when the task goes on. `G` relates the states at the two ends of every turn, and `rely` what the
others do while the task waits for an answer that is `ok`. -/
def KeepsBy (ok : R → Prop) (I : σ → List O → Prop) (rely G : σ → σ → Prop)
    (post : σ → σ → List O → Except ε α → Prop) : Async σ C R O ε α → σ → σ → List O → Prop
  | pure a, s₀, s, l => post s₀ s l (.ok a)
  | throw e, s₀, s, l => post s₀ s l (.error e)
  | read k, s₀, s, l => KeepsBy ok I rely G post (k s) s₀ s l
  | write s k, s₀, _, l => KeepsBy ok I rely G post k s₀ s l
  | emit o k, s₀, s, l => KeepsBy ok I rely G post k s₀ s (l ++ [o])
  | await _ k, s₀, s, l => (I s l ∧ G s₀ s) ∧
      ∀ r s' l', ok r → I s' l' → rely s s' → KeepsBy ok I rely G post (k r) s' s' l'

/-- The rule for tasks that may rely on what they grant. -/
abbrev Keeps (I : σ → List O → Prop) (G : σ → σ → Prop)
    (post : σ → σ → List O → Except ε α → Prop) : Async σ C R O ε α → σ → σ → List O → Prop :=
  KeepsBy (fun _ => True) I G G post

variable {ok : R → Prop} {I : σ → List O → Prop} {rely G : σ → σ → Prop}

theorem keepsBy_andThen (f : Except ε α → Async σ C R O ε β)
    {post : σ → σ → List O → Except ε β → Prop} (t : Async σ C R O ε α) (s₀ s : σ) (l : List O) :
    KeepsBy ok I rely G post (t.andThen f) s₀ s l ↔
      KeepsBy ok I rely G (fun s₀ s l x => KeepsBy ok I rely G post (f x) s₀ s l) t s₀ s l := by
  induction t generalizing s₀ s l with
  | pure a => rfl
  | throw e => rfl
  | read k ih => exact ih s s₀ s l
  | write s' k ih => exact ih s₀ s' l
  | emit o k ih => exact ih s₀ s _
  | await c k ih => simp only [Async.andThen, KeepsBy, ih]

variable {t : Async σ C R O ε α} {s₀ s : σ} {l : List O}

theorem KeepsBy.mono {post post' : σ → σ → List O → Except ε α → Prop}
    (h : KeepsBy ok I rely G post t s₀ s l) (himp : ∀ s₀ s l x, post s₀ s l x → post' s₀ s l x) :
    KeepsBy ok I rely G post' t s₀ s l := by
  induction t generalizing s₀ s l with
  | pure a => exact himp _ _ _ _ h
  | throw e => exact himp _ _ _ _ h
  | read k ih => exact ih s h
  | write s' k ih => exact ih h
  | emit o k ih => exact ih h
  | await c k ih => exact ⟨h.1, fun r s' l' hr hI hR => ih r (h.2 r s' l' hr hI hR)⟩

/-- The end of a task leaves the invariant in force. -/
def Restores (I : σ → List O → Prop) (G : σ → σ → Prop) (s₀ s : σ) (l : List O)
    (_ : Except ε α) : Prop := I s l ∧ G s₀ s

/-- What a waiting task still guarantees, from the state `s` it waits in. -/
def Rest.KeepsBy (ok : R → Prop) (I : σ → List O → Prop) (rely G : σ → σ → Prop) (s : σ) :
    Rest σ C R O ε α → Prop
  | .done _ => True
  | .waiting _ k => ∀ r s' l', ok r → I s' l' → rely s s' →
      Async.KeepsBy ok I rely G (Restores I G) (k r) s' s' l'

abbrev Rest.Keeps (I : σ → List O → Prop) (G : σ → σ → Prop) (s : σ) :
    Rest σ C R O ε α → Prop := Rest.KeepsBy (fun _ => True) I G G s

theorem KeepsBy.advance (h : KeepsBy ok I rely G (Restores I G) t s₀ s l) :
    (I (t.advance s).1 (l ++ (t.advance s).2.1.filterMap Event.output?) ∧ G s₀ (t.advance s).1) ∧
      (t.advance s).2.2.KeepsBy ok I rely G (t.advance s).1 := by
  induction t generalizing s₀ s l with
  | pure a =>
    simp only [Async.advance, List.filterMap_nil, List.append_nil]
    exact ⟨h, trivial⟩
  | throw e =>
    simp only [Async.advance, List.filterMap_nil, List.append_nil]
    exact ⟨h, trivial⟩
  | read k ih => exact ih s h
  | write s' k ih => exact ih h
  | emit o k ih =>
    have := ih h
    rwa [List.append_assoc] at this
  | await c k ih =>
    simp only [Async.advance, List.filterMap_cons, Event.output?, List.filterMap_nil,
      List.append_nil]
    exact h

variable {E : Type} {start : E → Async σ C R O ε Unit} {legal : σ → List O → E → Prop}

/-- Every input is legal in the state it arrives in. -/
def LegalMoves (start : E → Async σ C R O ε Unit) (legal : σ → List O → E → Prop) :
    System σ C R O ε E → List (Move R E) → Prop
  | _, [] => True
  | sys, m :: moves => (∀ e, m = .fire e → legal sys.world (outputs sys.log) e) ∧
      LegalMoves start legal (step start sys m) moves

instance decidableLegalMoves {start : E → Async σ C R O ε Unit} {legal : σ → List O → E → Prop}
    [∀ s l e, Decidable (legal s l e)] :
    ∀ (sys : System σ C R O ε E) moves, Decidable (LegalMoves start legal sys moves)
  | _, [] => isTrue trivial
  | sys, m :: moves =>
    have hfire : Decidable (∀ e, m = .fire e → legal sys.world (outputs sys.log) e) :=
      match m with
      | .fire e => decidable_of_iff (legal sys.world (outputs sys.log) e)
          ⟨fun h _ he => Move.fire.inj he ▸ h, fun h => h e rfl⟩
      | .resume _ _ => isTrue fun _ he => by cases he
    have hrest : Decidable (LegalMoves start legal (step start sys m) moves) :=
      decidableLegalMoves (step start sys m) moves
    instDecidableAnd

/-- The invariant holds, and every waiting thread will restore it. -/
def Kept (I : σ → List O → Prop) (G : σ → σ → Prop) (sys : System σ C R O ε E) : Prop :=
  I sys.world (outputs sys.log) ∧
    ∀ t ∈ sys.threads, ∃ s, G s sys.world ∧ t.rest.Keeps I G s

theorem legalMoves_of_mem {moves : List (Move R E)} (h : ∀ e, .fire e ∈ moves → ∀ s l, legal s l e)
    (sys : System σ C R O ε E) : LegalMoves start legal sys moves := by
  induction moves generalizing sys with
  | nil => trivial
  | cons m moves ih =>
    refine ⟨?_, ih (fun e he => h e (List.mem_cons_of_mem m he)) _⟩
    rintro e rfl
    exact h e List.mem_cons_self _ _

section Step
variable {sys : System σ C R O ε E} {m : Move R E} {moves : List (Move R E)}
variable (hstart : ∀ e s l, legal s l e → I s l → Keeps I G (Restores I G) (start e) s s l)
  (h : Kept I G sys)
include hstart h

theorem Kept.begun {e : E} {s₀ : σ} {seen : List (Event C R O)} {t : Async σ C R O ε Unit}
    (hm : ∀ e, m = .fire e → legal sys.world (outputs sys.log) e)
    (hbegun : Begun start sys m e s₀ seen t) :
    Keeps I G (Restores I G) t sys.world sys.world (outputs sys.log) := by
  cases hbegun with
  | fire e => exact hstart e _ _ (hm e rfl) h.1
  | resume hi r =>
    obtain ⟨s₁, hs₁, hk⟩ := h.2 _ (List.mem_of_getElem? hi)
    exact hk r _ _ trivial h.1 hs₁

variable [Std.Refl G] [IsTrans σ G]

theorem Kept.step (hm : ∀ e, m = .fire e → legal sys.world (outputs sys.log) e) :
    Kept I G (step start sys m) ∧ G sys.world (step start sys m).world := by
  obtain ⟨e, s₀, seen, t, hbegun⟩ | ⟨hsame, -⟩ := begun_or_same start sys m
  · obtain ⟨⟨hI, hG⟩, hrest⟩ := (Kept.begun hstart h hm hbegun).advance
    rw [Kept, hbegun.turned.outputs_eq, hbegun.turned.world]
    refine ⟨⟨hI, fun u hu => ?_⟩, hG⟩
    rcases hbegun.turned.mem_threads hu with hu | rfl
    · obtain ⟨s, hs, hk⟩ := h.2 u hu
      exact ⟨s, trans_of G hs hG, hk⟩
    · exact ⟨_, refl_of G _, hrest⟩
  · rw [hsame]
    exact ⟨h, refl_of G _⟩

/-- The invariant rule for runs. -/
theorem run_kept (hm : LegalMoves start legal sys moves) :
    Kept I G (run start sys moves) := by
  induction moves generalizing sys with
  | nil => exact h
  | cons m moves ih => exact ih (Kept.step hstart h hm.1).1 hm.2

/-- A relation that every turn respects holds between the ends of a run. -/
theorem run_rel (hm : LegalMoves start legal sys moves) :
    G sys.world (run start sys moves).world := by
  induction moves generalizing sys with
  | nil => exact refl_of G _
  | cons m moves ih =>
    obtain ⟨h', hG⟩ := Kept.step hstart h hm.1
    exact trans_of G hG (ih h' hm.2)

end Step

theorem kept_initial (hI : I s []) : Kept I G (System.initial s : System σ C R O ε E) :=
  ⟨hI, nofun⟩

end Keeps

section Origin
variable {E : Type} {start : E → Async σ C R O ε Unit}

def Rest.calls : Rest σ C R O ε α → List (Event C R O)
  | .done _ => []
  | .waiting c _ => [.called c]

theorem mem_calls {rest : Rest σ C R O ε α} {c : C} (h : .called c ∈ rest.calls) :
    ∃ k, rest = .waiting c k := by
  cases rest with
  | done x => cases h
  | waiting c' k =>
    cases List.mem_singleton.mp h
    exact ⟨k, rfl⟩

/-- Within a turn, a task emits and at last calls. -/
theorem advance_events (t : Async σ C R O ε α) (s : σ) :
    ∃ os : List O, (t.advance s).2.1 = os.map .emitted ++ (t.advance s).2.2.calls := by
  induction t generalizing s with
  | pure a => exact ⟨[], rfl⟩
  | throw e => exact ⟨[], rfl⟩
  | read k ih => exact ih s s
  | write s' k ih => exact ih s'
  | emit o k ih =>
    obtain ⟨os, hos⟩ := ih s
    exact ⟨o :: os, congrArg (Event.emitted o :: ·) hos⟩
  | await c k ih => exact ⟨[], rfl⟩

theorem answered_notMem_advance (t : Async σ C R O ε α) (s : σ) (c : C) (r : R) :
    .answered c r ∉ (t.advance s).2.1 := by
  obtain ⟨os, hos⟩ := advance_events t s
  rw [hos]
  cases (t.advance s).2.2 <;> simp [Rest.calls]

variable {sys : System σ C R O ε E} {i : ℕ} {t : Thread σ C R O ε E}

theorem Begun.suffix {m : Move R E} {e : E} {s₀ : σ} {seen l₀ added : List (Event C R O)}
    {u : Async σ C R O ε Unit} (h : Begun start sys m e s₀ seen u)
    (hown : own (m.thread sys) (step start sys m).log = l₀ ++ added)
    (hlate : ¬ l₀ <+: own (m.thread sys) sys.log) : added <:+ (u.advance sys.world).2.1 := by
  have hself := h.turned.own_self
  have hseen : seen.length ≤ 1 := by cases h <;> simp
  rw [hown] at hself
  apply List.suffix_of_suffix_length_le (List.suffix_append l₀ added) (hself ▸ List.suffix_append _ _)
  -- The point is later than the events before the turn, and at most one event was seen.
  have hlen : (own (m.thread sys) sys.log).length < l₀.length := by
    by_contra hle
    apply hlate
    apply List.prefix_of_prefix_length_le (List.prefix_append l₀ added) _ (by omega)
    rw [hself, List.append_assoc]
    exact List.prefix_append _ _
  have := congrArg List.length hself
  simp only [List.length_append] at this
  omega

theorem step_thread (ht : sys.threads[i]? = some t) (m : Move R E) :
    ∃ rest, (step start sys m).threads[i]? = some ⟨t.input, t.origin, rest⟩ := by
  obtain ⟨e, s₀, seen, u, hbegun⟩ | ⟨hsame, -⟩ := begun_or_same start sys m
  · rcases eq_or_ne i (m.thread sys) with rfl | hne
    · cases hbegun with
      | fire e =>
        rw [Move.thread, List.getElem?_eq_none le_rfl] at ht
        cases ht
      | resume hi r =>
        obtain rfl := Option.some.inj (hi.symm.trans ht)
        exact ⟨_, (Begun.resume hi r).turned.self⟩
    · exact ⟨t.rest, (hbegun.turned.other i hne).trans ht⟩
  · exact ⟨t.rest, hsame.symm ▸ ht⟩

theorem own_step (sys : System σ C R O ε E) (m : Move R E) (i : ℕ) :
    own i sys.log <+: own i (step start sys m).log := by
  obtain ⟨e, s₀, seen, u, hbegun⟩ | ⟨hsame, -⟩ := begun_or_same start sys m
  · rw [hbegun.turned.log, own_append]
    exact List.prefix_append _ _
  · rw [hsame]

theorem run_thread (ht : sys.threads[i]? = some t) (moves : List (Move R E)) :
    (∃ rest, (run start sys moves).threads[i]? = some ⟨t.input, t.origin, rest⟩) ∧
      own i sys.log <+: own i (run start sys moves).log := by
  induction moves using List.reverseRecOn with
  | nil => exact ⟨⟨t.rest, ht⟩, List.prefix_rfl⟩
  | append_singleton moves m ih =>
    obtain ⟨⟨rest, hrest⟩, hown⟩ := ih
    rw [run_concat]
    exact ⟨step_thread hrest m, hown.trans (own_step _ m i)⟩

/-- Move `m`, after `earlier`, makes thread `i` call `c` and wait. -/
def CallsAt (start : E → Async σ C R O ε Unit) (s : σ) (i : ℕ) (c : C)
    (earlier : List (Move R E)) (m : Move R E) : Prop :=
  m.thread (run start (System.initial s) earlier) = i ∧
    ∃ t k, (run start (System.initial s) (earlier ++ [m])).threads[i]? = some t ∧
      t.rest = .waiting c k

theorem exists_called (s : σ) (moves : List (Move R E)) {c : C}
    (hc : .called c ∈ own i (run start (System.initial s) moves).log) :
    ∃ earlier m, earlier ++ [m] <+: moves ∧ CallsAt start s i c earlier m := by
  induction moves using List.reverseRecOn with
  | nil => cases hc
  | append_singleton moves m ih =>
    have hold : .called c ∈ own i (run start (System.initial s) moves).log →
        ∃ earlier m', earlier ++ [m'] <+: moves ++ [m] ∧ CallsAt start s i c earlier m' := by
      intro hc
      obtain ⟨earlier, m', hpre, hcalls⟩ := ih hc
      exact ⟨earlier, m', hpre.trans (List.prefix_append _ _), hcalls⟩
    rw [run_concat] at hc
    obtain ⟨e, s₀, seen, u, hbegun⟩ | ⟨hsame, -⟩ :=
      begun_or_same start (run start (System.initial s) moves) m
    · rcases ne_or_eq i (m.thread (run start (System.initial s) moves)) with hne | rfl
      · rw [hbegun.turned.own_other hne] at hc
        exact hold hc
      · obtain ⟨os, hos⟩ := advance_events u (run start (System.initial s) moves).world
        have hseen : .called c ∉ seen := by cases hbegun <;> simp
        rw [hbegun.turned.own_self, hos] at hc
        simp only [List.mem_append, hseen, List.mem_map, reduceCtorEq, and_false, exists_false,
          or_false, false_or] at hc
        rcases hc with hc | hc
        · exact hold hc
        · obtain ⟨k, hk⟩ := mem_calls hc
          refine ⟨moves, m, List.prefix_rfl, rfl, ⟨e, s₀, _⟩, k, ?_, hk⟩
          rw [run_concat]
          exact hbegun.turned.self
    · rw [hsame] at hc
      exact hold hc

theorem exists_origin (s : σ) (moves : List (Move R E)) {t : Thread σ C R O ε E}
    (ht : t ∈ (run start (System.initial s) moves).threads) :
    ∃ earlier, earlier <+: moves ∧ (run start (System.initial s) earlier).world = t.origin := by
  induction moves using List.reverseRecOn generalizing t with
  | nil => cases ht
  | append_singleton moves m ih =>
    have hold : ∀ t ∈ (run start (System.initial s) moves).threads, ∃ earlier,
        earlier <+: moves ++ [m] ∧ (run start (System.initial s) earlier).world = t.origin := by
      intro t ht
      obtain ⟨earlier, hpre, horigin⟩ := ih ht
      exact ⟨earlier, hpre.trans (List.prefix_append _ _), horigin⟩
    rw [run_concat] at ht
    obtain ⟨e, s₀, seen, u, hbegun⟩ | ⟨hsame, -⟩ :=
      begun_or_same start (run start (System.initial s) moves) m
    · rcases hbegun.turned.mem_threads ht with ht | rfl
      · exact hold t ht
      · cases hbegun with
        | fire e => exact ⟨moves, List.prefix_append _ _, rfl⟩
        | resume hi r =>
          obtain ⟨earlier, hpre, horigin⟩ := hold _ (List.mem_of_getElem? hi)
          exact ⟨earlier, hpre, horigin⟩
    · exact hold t (hsame ▸ ht)

end Origin

end Async
