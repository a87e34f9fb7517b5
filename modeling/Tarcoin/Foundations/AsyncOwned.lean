import Tarcoin.Foundations.AsyncRules

/-! `KeepsBy` is the invariant rule for a task that relies on more than it grants. In a system
what a task grants is what all the others may rely on, and the state counts the tasks, so that a
task knows its number. -/
namespace Async

variable {σ C R O ε α β : Type}

/-- A request to a server: it is carried out when it gets there, and the answer takes its own way
back. Each way may fail. -/
def remote (c : C) (failed : R → Option ε) (f : σ → σ × α) : Async σ C R O ε α :=
  .await c fun r => match failed r with
    | some e => .throw e
    | none => .read fun s => .write (f s).1 (.await c fun r => match failed r with
      | some e => .throw e
      | none => .pure (f s).2)

section Task
variable {ok : R → Prop} {I : σ → List O → Prop} {rely G : σ → σ → Prop}

/-- The invariant is in force; a value comes with a fact `F`, an error with a fact `E`. -/
def Ends (I : σ → List O → Prop) (G : σ → σ → Prop) (E : σ → Prop) (F : σ → α → Prop) (s₀ s : σ)
    (l : List O) : Except ε α → Prop
  | .ok a => I s l ∧ G s₀ s ∧ F s a
  | .error _ => I s l ∧ G s₀ s ∧ E s

section Ends
variable {E E' : σ → Prop} {F F' : σ → α → Prop} {t : Async σ C R O ε α} {s₀ s : σ} {l : List O}

theorem KeepsBy.restores (h : KeepsBy ok I rely G (Ends I G E F) t s₀ s l) :
    KeepsBy ok I rely G (Restores I G) t s₀ s l := by
  apply h.mono
  intro s₀ s l x hx
  cases x <;> exact ⟨hx.1, hx.2.1⟩

/-- From every state in which the invariant is in force and `P` holds. -/
def From (I : σ → List O → Prop) (G : σ → σ → Prop) (P : σ → Prop) (K : σ → σ → List O → Prop) :
    Prop := ∀ ⦃s₀ s l⦄, I s l → G s₀ s → P s → K s₀ s l

variable {P P' : σ → Prop} {K : σ → σ → List O → Prop}

theorem From.imp (h : From I G P K) (himp : ∀ s, P' s → P s) : From I G P' K :=
  fun _ s _ hI hG hs => h hI hG (himp s hs)

theorem From.given {Q : Prop} (h : Q → From I G P K) : From I G (fun s => P s ∧ Q) K :=
  fun _ _ _ hI hG hs => h hs.2 hI hG hs.1

theorem From.weaken (h : From I G P (KeepsBy ok I rely G (Ends I G E F) t)) (hE : ∀ s, E s → E' s)
    (hF : ∀ s a, F s a → F' s a) : From I G P (KeepsBy ok I rely G (Ends I G E' F') t) := by
  intro s₀ s l hI hG hs
  apply (h hI hG hs).mono
  intro s₀ s l x hx
  cases x with
  | ok a => exact ⟨hx.1, hx.2.1, hF s a hx.2.2⟩
  | error e => exact ⟨hx.1, hx.2.1, hE s hx.2.2⟩

theorem From.seq {F' : σ → β → Prop} {f : α → Async σ C R O ε β}
    (ht : From I G P (KeepsBy ok I rely G (Ends I G E F) t))
    (hf : ∀ a, From I G (F · a) (KeepsBy ok I rely G (Ends I G E F') (f a))) :
    From I G P (KeepsBy ok I rely G (Ends I G E F') (t >>= f)) := by
  intro s₀ s l hI hG hs
  apply (keepsBy_andThen _ t s₀ s l).mpr
  apply (ht hI hG hs).mono
  intro s₀ s l x hx
  cases x with
  | ok a => exact hf a hx.1 hx.2.1 hx.2.2
  | error e => exact hx

theorem From.catching {h : ε → Async σ C R O ε α}
    (ht : From I G P (KeepsBy ok I rely G (Ends I G E F) t))
    (hh : ∀ e, From I G E (KeepsBy ok I rely G (Ends I G E' F) (h e))) :
    From I G P (KeepsBy ok I rely G (Ends I G E' F) (t.catching h)) := by
  intro s₀ s l hI hG hs
  apply (keepsBy_andThen _ t s₀ s l).mpr
  apply (ht hI hG hs).mono
  intro s₀ s l x hx
  cases x with
  | ok a => exact hx
  | error e => exact hh e hx.1 hx.2.1 hx.2.2

theorem From.pure {a : α} (h : ∀ s, P s → F s a) :
    From I G P (KeepsBy ok I rely G (Ends I G E F) (.pure a : Async σ C R O ε α)) :=
  fun _ s _ hI hG hs => ⟨hI, hG, h s hs⟩

theorem From.throw {e : ε} (h : ∀ s, P s → E s) :
    From I G P (KeepsBy ok I rely G (Ends I G E F) (.throw e : Async σ C R O ε α)) :=
  fun _ s _ hI hG hs => ⟨hI, hG, h s hs⟩

structure Carried (rely G : σ → σ → Prop) (P : σ → Prop) : Prop where
  stable : ∀ s s', rely s s' → P s → P s'
  refl : ∀ s, P s → G s s

variable {c : C}

theorem From.await (hP : Carried rely G P) {k : R → Async σ C R O ε α}
    (hk : ∀ r, ok r → From I G P (KeepsBy ok I rely G (Ends I G E F) (k r))) :
    From I G P (KeepsBy ok I rely G (Ends I G E F) (.await c k)) :=
  fun _ s _ hI hG hs => ⟨⟨hI, hG⟩, fun r s' _ hr hI' hR =>
    have hs' := hP.stable s s' hR hs
    hk r hr hI' (hP.refl s' hs') hs'⟩

theorem From.remote (hP : Carried rely G P) (hF : ∀ a, Carried rely G (F · a))
    (hPE : ∀ s, P s → E s) (hFE : ∀ s a, F s a → E s) {failed : R → Option ε} {f : σ → σ × α}
    (hdone : ∀ s l, I s l → P s → I (f s).1 l ∧ G s (f s).1 ∧ F (f s).1 (f s).2) :
    From I G P (KeepsBy ok I rely G (Ends I G E F) (remote c failed f)) := by
  intro s₀ s l hI hG hs
  refine ⟨⟨hI, hG⟩, fun r s l _ hI hR => ?_⟩
  have hs := hP.stable _ s hR hs
  dsimp only
  cases failed r with
  | some e => exact ⟨hI, hP.refl s hs, hPE s hs⟩
  | none =>
    obtain ⟨hI', hG', hF'⟩ := hdone s l hI hs
    refine ⟨⟨hI', hG'⟩, fun r s' l' _ hI'' hR => ?_⟩
    have hend := (hF (f s).2).stable _ s' hR hF'
    dsimp only
    cases failed r with
    | some e => exact ⟨hI'', (hF _).refl s' hend, hFE s' _ hend⟩
    | none => exact ⟨hI'', (hF _).refl s' hend, hend⟩

end Ends

theorem embed_andThen {σ' C' R' O' : Type} (h : Host σ C R O σ' C' R' O') (t : Async σ C R O ε α)
    (f : Except ε α → Async σ C R O ε β) :
    (t.andThen f).embed h = (t.embed h).andThen fun x => (f x).embed h := by
  induction t with
  | pure a => rfl
  | throw e => rfl
  | read k ih => exact congrArg Async.read (funext fun s => ih (h.get s))
  | write s k ih => exact congrArg Async.read (funext fun s' => congrArg (Async.write _) ih)
  | emit o k ih => exact congrArg (Async.emit _) ih
  | await c k ih => exact congrArg (Async.await _) (funext fun r => ih (h.answer r))

end Task

section System
variable {E : Type} {start : E → Async σ C R O ε Unit} {legal : σ → List O → E → Prop}
variable {ok : R → Prop} {I : σ → List O → Prop} {rely G : ℕ → σ → σ → Prop} {next : σ → ℕ}

/-- What makes the pairs of all tasks fit together, with `next` as the number of the next task. -/
structure FitTogether (rely G : ℕ → σ → σ → Prop) (next : σ → ℕ) : Prop where
  refl : ∀ n s, rely n s s
  trans : ∀ n s s' s'', rely n s s' → rely n s' s'' → rely n s s''
  grants : ∀ m n s s', m ≠ n → G m s s' → rely n s s'
  first : ∀ n s s', G n s s' → next s = n → next s' = n + 1
  later : ∀ n s s', G n s s' → n < next s → next s' = next s

/-- The invariant holds, and every waiting task will restore it. -/
def Owned (ok : R → Prop) (I : σ → List O → Prop) (rely G : ℕ → σ → σ → Prop) (next : σ → ℕ)
    (sys : System σ C R O ε E) : Prop :=
  I sys.world (outputs sys.log) ∧ next sys.world = sys.threads.length ∧
    ∀ i t, sys.threads[i]? = some t →
      ∃ s, rely i s sys.world ∧ t.rest.KeepsBy ok I (rely i) (G i) s

variable {sys : System σ C R O ε E}

section
variable (hstart : ∀ e s l, legal s l e → I s l → KeepsBy ok I (rely (next s)) (G (next s)) (Restores I (G
    (next s))) (start e) s s l) (h : Owned ok I rely G next sys)
include hstart h

theorem Owned.begun {m : Move R E} {e : E} {s₀ : σ} {seen : List (Event C R O)}
    {t : Async σ C R O ε Unit} (hm : ∀ e, m = .fire e → legal sys.world (outputs sys.log) e)
    (hr : ∀ i r, m = .resume i r → ok r) (hbegun : Begun start sys m e s₀ seen t) :
    m.thread sys ≤ sys.threads.length ∧
      KeepsBy ok I (rely (m.thread sys)) (G (m.thread sys)) (Restores I (G (m.thread sys))) t
        sys.world sys.world (outputs sys.log) := by
  obtain ⟨hI, hnext, hthreads⟩ := h
  cases hbegun with
  | fire e =>
    refine ⟨le_rfl, ?_⟩
    rw [Move.thread, ← hnext]
    exact hstart e _ _ (hm e rfl) hI
  | resume hi r =>
    obtain ⟨s₁, hs₁, hk⟩ := hthreads _ _ hi
    exact ⟨(List.getElem?_eq_some_iff.mp hi).1.le, hk r _ _ (hr _ r rfl) hI hs₁⟩

theorem Owned.step (hfits : FitTogether rely G next) {m : Move R E}
    (hm : ∀ e, m = .fire e → legal sys.world (outputs sys.log) e)
    (hr : ∀ i r, m = .resume i r → ok r) : Owned ok I rely G next (step start sys m) := by
  obtain ⟨e, s₀, seen, t, hbegun⟩ | ⟨hsame, -⟩ := begun_or_same start sys m
  · have hturn := hbegun.turned
    obtain ⟨hle, ht⟩ := h.begun hstart hm hr hbegun
    obtain ⟨⟨hI, hG⟩, hrest⟩ := ht.advance
    rw [Owned, hturn.outputs_eq, hturn.world, hturn.length]
    refine ⟨hI, ?_, fun j u hu => ?_⟩
    · rcases hle.eq_or_lt with heq | hlt
      · rw [hfits.first _ _ _ hG (h.2.1.trans heq.symm)]
        omega
      · rw [hfits.later _ _ _ hG (h.2.1 ▸ hlt), h.2.1]
        omega
    · rcases eq_or_ne j (m.thread sys) with rfl | hne
      · rw [hturn.self] at hu
        cases hu
        exact ⟨_, hfits.refl _ _, hrest⟩
      · rw [hturn.other j hne] at hu
        obtain ⟨s, hs, hk⟩ := h.2.2 j u hu
        exact ⟨s, hfits.trans j _ _ _ hs (hfits.grants _ j _ _ hne.symm hG), hk⟩
  · rwa [hsame]

/-- The invariant rule for runs of tasks that own parts of the state. -/
theorem run_owned (hfits : FitTogether rely G next) {moves : List (Move R E)}
    (hm : LegalMoves start legal sys moves) (hr : ∀ i r, .resume i r ∈ moves → ok r) :
    Owned ok I rely G next (run start sys moves) := by
  induction moves generalizing sys with
  | nil => exact h
  | cons m moves ih =>
    have hhead : ∀ i r, m = .resume i r → ok r := fun i r hm => hr i r (hm ▸ List.mem_cons_self)
    exact ih (h.step hstart hfits hm.1 hhead) hm.2 fun i r hmem =>
      hr i r (List.mem_cons_of_mem m hmem)

end

theorem owned_initial {s : σ} (hI : I s []) (hnext : next s = 0) :
    Owned ok I rely G next (System.initial s : System σ C R O ε E) :=
  ⟨hI, hnext, fun _ _ ht => by cases ht⟩

end System

end Async
