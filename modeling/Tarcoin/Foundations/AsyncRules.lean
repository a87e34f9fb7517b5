import Tarcoin.Foundations.AsyncSpec

/-! A task without waits runs on to another one (`Leads`). `Spec` and `Keeps` are put together
from the parts of a task, and `Only` bounds what it can write and emit. -/
namespace Async

variable {σ C R O ε α β : Type}

/-- A task in a state runs on, without waiting, to another task in another state. -/
inductive Leads : Async σ C R O ε α → σ → List O → Async σ C R O ε α → σ → Prop
  | refl (t : Async σ C R O ε α) (s : σ) : Leads t s [] t s
  | read {k : σ → Async σ C R O ε α} {s s' : σ} {os : List O} {t' : Async σ C R O ε α} :
    Leads (k s) s os t' s' → Leads (.read k) s os t' s'
  | write {k t' : Async σ C R O ε α} {s₁ s s' : σ} {os : List O} :
    Leads k s₁ os t' s' → Leads (.write s₁ k) s os t' s'
  | emit {k t' : Async σ C R O ε α} {o : O} {s s' : σ} {os : List O} :
    Leads k s os t' s' → Leads (.emit o k) s (o :: os) t' s'

section Leads
variable {t t' t'' : Async σ C R O ε α} {s s' s'' : σ} {os os' : List O}

theorem Leads.trans (h : Leads t s os t' s') (h' : Leads t' s' os' t'' s'') :
    Leads t s (os ++ os') t'' s'' := by
  induction h with
  | refl t s => exact h'
  | read _ ih => exact .read (ih h')
  | write _ ih => exact .write (ih h')
  | emit _ ih => exact .emit (ih h')

theorem Leads.andThen (h : Leads t s os t' s') (f : Except ε α → Async σ C R O ε β) :
    Leads (t.andThen f) s os (t'.andThen f) s' := by
  induction h with
  | refl t s => exact .refl _ _
  | read _ ih => exact .read ih
  | write _ ih => exact .write ih
  | emit _ ih => exact .emit ih

theorem Leads.catching (h : Leads t s os t' s') (f : ε → Async σ C R O ε α) :
    Leads (t.catching f) s os (t'.catching f) s' := h.andThen _

theorem Leads.bind {a : α} (h : Leads t s os (.pure a) s') (f : α → Async σ C R O ε β) :
    Leads (t >>= f) s os (f a) s' := h.andThen _

theorem Leads.bind_throw {e : ε} (h : Leads t s os (.throw e) s') (f : α → Async σ C R O ε β) :
    Leads (t >>= f) s os (.throw e) s' := h.andThen _

section Steps

theorem Leads.get {f : σ → Async σ C R O ε α} (h : Leads (f s) s os t' s') :
    Leads (Async.get >>= f) s os t' s' := .read h

theorem Leads.modify {g : σ → σ} {f : Unit → Async σ C R O ε α} (h : Leads (f ()) (g s) os t' s') :
    Leads (Async.modify g >>= f) s os t' s' := .read (.write h)

variable {x : Except ε β} {f : β → Async σ C R O ε α}

theorem Leads.ofExcept {b : β} (hx : x = .ok b) (h : Leads (f b) s os t' s') :
    Leads (Async.ofExcept x >>= f) s os t' s' := by
  subst hx
  exact h

theorem Leads.ofExcept_error {e : ε} (hx : x = .error e) :
    Leads (Async.ofExcept x >>= f) s [] (.throw e) s := by
  subst hx
  exact .refl _ _

end Steps

theorem Leads.spec_iff {pause : σ → List (Event C R O) → C → Prop}
    {post : σ → List (Event C R O) → Except ε α → Prop} (h : Leads t s os t' s')
    (l : List (Event C R O)) :
    Spec pause post t s l ↔ Spec pause post t' s' (l ++ os.map .emitted) := by
  induction h generalizing l with
  | refl t s => rw [List.map_nil, List.append_nil]
  | read _ ih => exact ih l
  | write _ ih => exact ih l
  | emit _ ih =>
    rw [List.map_cons, List.append_cons]
    exact ih _

theorem Leads.keeps_iff {I : σ → List O → Prop} {G : σ → σ → Prop}
    {post : σ → σ → List O → Except ε α → Prop} (h : Leads t s os t' s') (s₀ : σ) (l : List O) :
    Keeps I G post t s₀ s l ↔ Keeps I G post t' s₀ s' (l ++ os) := by
  induction h generalizing l with
  | refl t s => rw [List.append_nil]
  | read _ ih => exact ih l
  | write _ ih => exact ih l
  | emit _ ih =>
    rw [List.append_cons]
    exact ih _

theorem Leads.advance (h : Leads t s os t' s') :
    t.advance s = ((t'.advance s').1, os.map .emitted ++ (t'.advance s').2.1, (t'.advance s').2.2) := by
  induction h with
  | refl t s => rfl
  | read _ ih => exact ih
  | write _ ih => exact ih
  | emit _ ih => rw [Async.advance, ih, List.map_cons, List.cons_append]

end Leads

section Spec
variable {pause : σ → List (Event C R O) → C → Prop}
variable {t : Async σ C R O ε α} {s : σ} {l : List (Event C R O)}

variable {post : σ → List (Event C R O) → Except ε α → Prop} {x : Except ε β}
  {f : β → Async σ C R O ε α}

theorem Spec.get {f : σ → Async σ C R O ε α} (h : Spec pause post (f s) s l) :
    Spec pause post (Async.get >>= f) s l := h

theorem Spec.ofExcept {b : β} (hx : x = .ok b) (h : Spec pause post (f b) s l) :
    Spec pause post (Async.ofExcept x >>= f) s l := by
  subst hx
  exact h

theorem Spec.ofExcept_error {e : ε} (hx : x = .error e) (h : post s l (.error e)) :
    Spec pause post (Async.ofExcept x >>= f) s l := by
  subst hx
  exact h

theorem Spec.trivial (t : Async σ C R O ε α) (s : σ) (l : List (Event C R O)) :
    Spec (fun _ _ _ => True) (fun _ _ _ => True) t s l := by
  induction t generalizing s l with
  | pure a => exact True.intro
  | throw e => exact True.intro
  | read k ih => exact ih s s l
  | write s' k ih => exact ih s' l
  | emit o k ih => exact ih s _
  | await c k ih => exact ⟨True.intro, fun r s' => ih r s' _⟩

section
variable (mid : σ → List (Event C R O) → Except ε α → Prop) (ht : Spec pause mid t s l)
include mid ht

theorem Spec.bind {f : α → Async σ C R O ε β} {post : σ → List (Event C R O) → Except ε β → Prop}
    (hok : ∀ s' l' a, mid s' l' (.ok a) → Spec pause post (f a) s' l')
    (herr : ∀ s' l' e, mid s' l' (.error e) → post s' l' (.error e)) :
    Spec pause post (t >>= f) s l := by
  apply (spec_andThen _ t s l).mpr
  apply ht.mono
  intro s' l' x hx
  cases x with
  | ok a => exact hok s' l' a hx
  | error e => exact herr s' l' e hx

theorem Spec.catching {h : ε → Async σ C R O ε α}
    (hok : ∀ s' l' a, mid s' l' (.ok a) → post s' l' (.ok a))
    (herr : ∀ s' l' e, mid s' l' (.error e) → Spec pause post (h e) s' l') :
    Spec pause post (t.catching h) s l := by
  apply (spec_andThen _ t s l).mpr
  apply ht.mono
  intro s' l' x hx
  cases x with
  | ok a => exact hok s' l' a hx
  | error e => exact herr s' l' e hx

theorem Spec.settle {tick : C}
    (hcall : ∀ s' l' x, mid s' l' x → pause s' (l' ++ [.called tick]) tick)
    (hend : ∀ s' l' x r s'', mid s' l' x →
      post s'' (l' ++ [.called tick, .answered tick r]) x) :
    Spec pause post (t.settle tick) s l := by
  apply (spec_andThen _ t s l).mpr
  apply ht.mono
  intro s' l' x hx
  refine ⟨hcall s' l' x hx, fun r s'' => ?_⟩
  cases x with
  | ok a => exact hend s' l' _ r s'' hx
  | error e => exact hend s' l' _ r s'' hx

end

/-- What has been observed since a moment is all of one kind. -/
def Grows (Q : Event C R O → Prop) (l l' : List (Event C R O)) : Prop :=
  ∃ added, l' = l ++ added ∧ ∀ e ∈ added, Q e

variable {Q Q' : Event C R O → Prop} {l₁ l₂ l₃ : List (Event C R O)}

theorem Grows.refl (l : List (Event C R O)) : Grows Q l l := ⟨[], by simp, by simp⟩

theorem Grows.trans (h : Grows Q l₁ l₂) (h' : Grows Q l₂ l₃) : Grows Q l₁ l₃ := by
  obtain ⟨a, rfl, ha⟩ := h
  obtain ⟨b, rfl, hb⟩ := h'
  refine ⟨a ++ b, List.append_assoc _ _ _, fun e he => ?_⟩
  rcases List.mem_append.mp he with he | he
  · exact ha e he
  · exact hb e he

theorem Grows.add (h : Grows Q l₁ l₂) {events : List (Event C R O)} (hall : ∀ e ∈ events, Q e) :
    Grows Q l₁ (l₂ ++ events) := h.trans ⟨events, rfl, hall⟩

theorem Grows.isPrefix (h : Grows Q l₁ l₂) : l₁ <+: l₂ := by
  obtain ⟨a, rfl, _⟩ := h
  exact List.prefix_append l₁ a

theorem Grows.mono (h : Grows Q l₁ l₂) (himp : ∀ e, Q e → Q' e) : Grows Q' l₁ l₂ := by
  obtain ⟨a, rfl, ha⟩ := h
  exact ⟨a, rfl, fun e he => himp e (ha e he)⟩

end Spec

section Only
variable {S S' : σ → σ → Prop} {U U' : O → Prop}

/-- Every write of a task is of one kind, and so is every output, whatever happens while it
waits. -/
def Only (S : σ → σ → Prop) (U : O → Prop) : Async σ C R O ε α → σ → Prop
  | pure _, _ => True
  | throw _, _ => True
  | read k, s => Only S U (k s) s
  | write s' k, s => S s s' ∧ Only S U k s'
  | emit o k, s => U o ∧ Only S U k s
  | await _ k, _ => ∀ r s', Only S U (k r) s'

variable {t : Async σ C R O ε α} {s : σ} {f : α → Async σ C R O ε β} {k : Unit → Async σ C R O ε α}

theorem Only.andThen {f : Except ε α → Async σ C R O ε β} (ht : Only S U t s)
    (hf : ∀ x s', Only S U (f x) s') : Only S U (t.andThen f) s := by
  induction t generalizing s with
  | pure a => exact hf _ s
  | throw e => exact hf _ s
  | read k ih => exact ih s ht
  | write s' k ih => exact ⟨ht.1, ih ht.2⟩
  | emit o k ih => exact ⟨ht.1, ih ht.2⟩
  | await c k ih => exact fun r s' => ih r (ht r s')

theorem Only.bind (ht : Only S U t s) (hf : ∀ a s', Only S U (f a) s') : Only S U (t >>= f) s := by
  apply ht.andThen
  intro x s'
  cases x with
  | ok a => exact hf a s'
  | error e => exact trivial

theorem Only.catching {h : ε → Async σ C R O ε α} (ht : Only S U t s)
    (hh : ∀ e s', Only S U (h e) s') : Only S U (t.catching h) s := by
  apply ht.andThen
  intro x s'
  cases x with
  | ok a => exact trivial
  | error e => exact hh e s'

theorem only_ofExcept (x : Except ε α) (s : σ) :
    Only S U (Async.ofExcept x : Async σ C R O ε α) s := by
  cases x <;> exact trivial

theorem Only.ofExcept {x : Except ε α} (h : ∀ a, x = .ok a → Only S U (f a) s) :
    Only S U (Async.ofExcept x >>= f) s := by
  cases x with
  | ok a => exact h a rfl
  | error e => exact trivial

theorem Only.settle {tick : C} (ht : Only S U t s) : Only S U (t.settle tick) s := by
  apply ht.andThen
  exact fun x _ _ s' => only_ofExcept x s'

theorem Only.get {f : σ → Async σ C R O ε α} (h : Only S U (f s) s) :
    Only S U (Async.get >>= f) s := h

theorem only_modify {f : σ → σ} (h : S s (f s)) :
    Only S U (Async.modify f : Async σ C R O ε Unit) s := ⟨h, trivial⟩

theorem Only.modify {f : σ → σ} (h : S s (f s)) (hk : Only S U (k ()) (f s)) :
    Only S U (Async.modify f >>= k) s := ⟨h, hk⟩

theorem Only.output {o : O} (h : U o) (hk : Only S U (k ()) s) :
    Only S U (Async.output o >>= k) s := ⟨h, hk⟩

theorem Only.mono (h : Only S U t s) (hS : ∀ s s', S s s' → S' s s') (hU : ∀ o, U o → U' o) :
    Only S' U' t s := by
  induction t generalizing s with
  | pure a => exact trivial
  | throw e => exact trivial
  | read k ih => exact ih s h
  | write s' k ih => exact ⟨hS _ _ h.1, ih h.2⟩
  | emit o k ih => exact ⟨hU _ h.1, ih h.2⟩
  | await c k ih => exact fun r s' => ih r (h r s')

theorem Leads.only [Std.Refl S] [IsTrans σ S] {t' : Async σ C R O ε α} {s' : σ} {os : List O}
    (h : Leads t s os t' s') (ht : Only S U t s) : S s s' ∧ (∀ o ∈ os, U o) ∧ Only S U t' s' := by
  induction h with
  | refl t s => exact ⟨refl_of S s, by simp, ht⟩
  | read _ ih => exact ih ht
  | write _ ih =>
    obtain ⟨hS, hU, hrest⟩ := ih ht.2
    exact ⟨trans_of S ht.1 hS, hU, hrest⟩
  | emit _ ih =>
    obtain ⟨hS, hU, hrest⟩ := ih ht.2
    exact ⟨hS, List.forall_mem_cons.mpr ⟨ht.1, hU⟩, hrest⟩

end Only

section Holding
variable {I : σ → List O → Prop} {G : σ → σ → Prop} {F F' : σ → Prop}
variable {t : Async σ C R O ε α} {s₀ s : σ} {l : List O}

/-- The invariant is in force, and with it a fact that no turn of another task can undo. -/
def Holding (I : σ → List O → Prop) (G : σ → σ → Prop) (F : σ → Prop) (s₀ s : σ) (l : List O)
    (_ : Except ε α) : Prop := I s l ∧ G s₀ s ∧ F s

theorem Keeps.restores (h : Keeps I G (Holding I G F) t s₀ s l) :
    Keeps I G (Restores I G) t s₀ s l := h.mono fun _ _ _ _ hx => ⟨hx.1, hx.2.1⟩

theorem Keeps.weaken (h : Keeps I G (Holding I G F) t s₀ s l) (hF : ∀ s, F s → F' s) :
    Keeps I G (Holding I G F') t s₀ s l := h.mono fun _ _ _ _ hx => ⟨hx.1, hx.2.1, hF _ hx.2.2⟩

theorem Keeps.get {f : σ → Async σ C R O ε α} (h : Keeps I G (Holding I G F) (f s) s₀ s l) :
    Keeps I G (Holding I G F) (Async.get >>= f) s₀ s l := h

theorem Keeps.seq {f : α → Async σ C R O ε β} (ht : Keeps I G (Holding I G F) t s₀ s l)
    (hf : ∀ a s₀ s l, I s l → G s₀ s → F s → Keeps I G (Holding I G F) (f a) s₀ s l) :
    Keeps I G (Holding I G F) (t >>= f) s₀ s l := by
  apply (keepsBy_andThen _ t s₀ s l).mpr
  apply ht.mono
  rintro s₀' s' l' x ⟨hI, hG, hF⟩
  cases x with
  | ok a => exact hf a s₀' s' l' hI hG hF
  | error e => exact ⟨hI, hG, hF⟩

theorem Keeps.catching {h : ε → Async σ C R O ε α} (ht : Keeps I G (Holding I G F) t s₀ s l)
    (hh : ∀ e s₀ s l, I s l → G s₀ s → F s → Keeps I G (Holding I G F) (h e) s₀ s l) :
    Keeps I G (Holding I G F) (t.catching h) s₀ s l := by
  apply (keepsBy_andThen _ t s₀ s l).mpr
  apply ht.mono
  rintro s₀' s' l' x ⟨hI, hG, hF⟩
  cases x with
  | ok a => exact ⟨hI, hG, hF⟩
  | error e => exact hh e s₀' s' l' hI hG hF

theorem Keeps.settle [Std.Refl G] {tick : C} (hstable : ∀ s s', G s s' → F s → F s')
    (ht : Keeps I G (Holding I G F) t s₀ s l) :
    Keeps I G (Holding I G F) (t.settle tick) s₀ s l := by
  apply (keepsBy_andThen _ t s₀ s l).mpr
  apply ht.mono
  rintro s₀' s' l' x ⟨hI, hG, hF⟩
  refine ⟨⟨hI, hG⟩, fun r s'' l'' _ hI' hG' => ?_⟩
  cases x with
  | ok a => exact ⟨hI', refl_of G s'', hstable s' s'' hG' hF⟩
  | error e => exact ⟨hI', refl_of G s'', hstable s' s'' hG' hF⟩

variable {S : σ → σ → Prop} {U : O → Prop} {os : List O}

theorem Only.keeps [Std.Refl G] [IsTrans σ G] (h : Only S U t s)
    (hwrite : ∀ s s' l, I s l → S s s' → I s' l ∧ G s s')
    (hemit : ∀ s l o, I s l → U o → I s (l ++ [o])) (hstable : ∀ s s', G s s' → F s → F s')
    (hI : I s l) (hG : G s₀ s) (hF : F s) : Keeps I G (Holding I G F) t s₀ s l := by
  induction t generalizing s₀ s l with
  | pure a => exact ⟨hI, hG, hF⟩
  | throw e => exact ⟨hI, hG, hF⟩
  | read k ih => exact ih s h hI hG hF
  | write s' k ih =>
    obtain ⟨hI', hG'⟩ := hwrite s s' l hI h.1
    exact ih h.2 hI' (trans_of G hG hG') (hstable s s' hG' hF)
  | emit o k ih => exact ih h.2 (hemit s l o hI h.1) hG hF
  | await c k ih =>
    exact ⟨⟨hI, hG⟩, fun r s' l' _ hI' hG' => ih r (h r s') hI' (refl_of G s') (hstable s s' hG' hF)⟩

theorem invariant_append (hemit : ∀ s l o, I s l → U o → I s (l ++ [o])) (hI : I s l)
    (hos : ∀ o ∈ os, U o) : I s (l ++ os) := by
  induction os generalizing l with
  | nil => rwa [List.append_nil]
  | cons o os ih =>
    rw [List.append_cons]
    exact ih (hemit s l o hI (hos o List.mem_cons_self)) fun o' ho' =>
      hos o' (List.mem_cons_of_mem o ho')

/-- A task whose first turn re-establishes the invariant, and whose rest cannot break it. -/
theorem Leads.keeps [Std.Refl G] [IsTrans σ G] {t' : Async σ C R O ε α} {s' : σ}
    (h : Leads t s os t' s') (hrest : Only S U t' s')
    (hwrite : ∀ s s' l, I s l → S s s' → I s' l ∧ G s s')
    (hemit : ∀ s l o, I s l → U o → I s (l ++ [o])) (hI : I s' (l ++ os)) (hG : G s₀ s') :
    Keeps I G (Restores I G) t s₀ s l := by
  apply (h.keeps_iff s₀ l).mpr
  apply Keeps.restores (F := fun _ => True)
  exact hrest.keeps hwrite hemit (fun _ _ _ => id) hI hG trivial

end Holding

section EachAfter

/-- Every output is related in the same way to the outputs before it. -/
def EachAfter (Q : List O → O → Prop) (l : List O) : Prop :=
  ∀ past o later, l = past ++ o :: later → Q past o

theorem eachAfter_nil (Q : List O → O → Prop) : EachAfter Q [] := by
  intro past o later h
  cases past <;> cases h

theorem concat_eq_split {l past later : List O} {o o' : O} (h : l ++ [o] = past ++ o' :: later) :
    (past = l ∧ o' = o) ∨ ∃ later', l = past ++ o' :: later' := by
  rcases List.eq_nil_or_concat later with rfl | ⟨later', o'', rfl⟩
  · obtain ⟨rfl, hsame⟩ := List.append_inj' h rfl
    exact .inl ⟨rfl, (List.singleton_inj.mp hsame).symm⟩
  · rw [List.concat_eq_append, ← List.cons_append, ← List.append_assoc] at h
    exact .inr ⟨later', (List.append_inj' h rfl).1⟩

theorem eachAfter_concat {Q : List O → O → Prop} {l : List O} {o : O} :
    EachAfter Q (l ++ [o]) ↔ EachAfter Q l ∧ Q l o := by
  constructor
  · intro h
    exact ⟨fun past o' later hl => h past o' (later ++ [o]) (by simp [hl]), h l o [] rfl⟩
  · rintro ⟨hall, ho⟩ past o' later hl
    obtain ⟨rfl, rfl⟩ | ⟨later', hl⟩ := concat_eq_split hl
    · exact ho
    · exact hall past o' later' hl

end EachAfter

section History
variable {E : Type} {start : E → Async σ C R O ε Unit} {legal : σ → List O → E → Prop}
variable {S : σ → σ → Prop} {U : O → Prop}

/-- All that a task still writes and emits, if it waits, is of one kind. -/
def Rest.Only (S : σ → σ → Prop) (U : O → Prop) : Rest σ C R O ε α → Prop
  | .done _ => True
  | .waiting _ k => ∀ r s, Async.Only S U (k r) s

theorem Only.advance {I : σ → List O → Prop} {t : Async σ C R O ε α} {s : σ} {l : List O}
    (h : Only S U t s) (hwrite : ∀ s s' l, I s l → S s s' → I s' l)
    (hemit : ∀ s l o, I s l → U o → I s (l ++ [o])) (hI : I s l) :
    I (t.advance s).1 (l ++ (t.advance s).2.1.filterMap Event.output?) ∧
      (t.advance s).2.2.Only S U := by
  induction t generalizing s l with
  | pure a =>
    simp only [Async.advance, List.filterMap_nil, List.append_nil]
    exact ⟨hI, trivial⟩
  | throw e =>
    simp only [Async.advance, List.filterMap_nil, List.append_nil]
    exact ⟨hI, trivial⟩
  | read k ih => exact ih s h hI
  | write s' k ih => exact ih h.2 (hwrite s s' l hI h.1)
  | emit o k ih =>
    have := ih h.2 (hemit s l o hI h.1)
    rwa [List.append_assoc] at this
  | await c k ih =>
    simp only [Async.advance, List.filterMap_cons, Event.output?, List.filterMap_nil,
      List.append_nil]
    exact ⟨hI, h⟩

theorem filterMap_emitted (os : List O) :
    (os.map (Event.emitted : O → Event C R O)).filterMap Event.output? = os := by
  induction os with
  | nil => rfl
  | cons o os ih => rw [List.map_cons, List.filterMap_cons, ih, Event.output?]

variable {moves : List (Move R E)}

theorem legalMoves_concat {sys : System σ C R O ε E} {m : Move R E} :
    LegalMoves start legal sys (moves ++ [m]) ↔ LegalMoves start legal sys moves ∧
      ∀ e, m = .fire e → legal (run start sys moves).world (outputs (run start sys moves).log) e := by
  induction moves generalizing sys with
  | nil => exact and_comm
  | cons m' moves ih =>
    simp only [List.cons_append, LegalMoves, ih, and_assoc]
    rfl

/-- The rule for a property of the past inputs: what an input does before it first waits extends
it, and nothing that follows a wait can break it. -/
theorem run_history {P : List (Move R E) → σ → List O → Prop} {s₀ : σ}
    (hwrite : ∀ moves s s' l, P moves s l → S s s' → P moves s' l)
    (hemit : ∀ moves s l o, P moves s l → U o → P moves s (l ++ [o]))
    (hresume : ∀ moves s l i r, P moves s l → P (moves ++ [.resume i r]) s l)
    (hfire : ∀ moves e, let sys := run start (System.initial s₀) moves
      P moves sys.world (outputs sys.log) → legal sys.world (outputs sys.log) e →
        ∃ os t s, Leads (start e) sys.world os t s ∧ Only S U t s ∧
          P (moves ++ [.fire e]) s (outputs sys.log ++ os)) (hinitial : P [] s₀ [])
    (hlegal : LegalMoves start legal (System.initial s₀) moves) :
    P moves (run start (System.initial s₀) moves).world
      (outputs (run start (System.initial s₀) moves).log) := by
  suffices hboth : P moves (run start (System.initial s₀) moves).world
      (outputs (run start (System.initial s₀) moves).log) ∧
      ∀ t ∈ (run start (System.initial s₀) moves).threads, t.rest.Only S U from hboth.1
  induction moves using List.reverseRecOn with
  | nil => exact ⟨hinitial, nofun⟩
  | append_singleton moves m ih =>
    obtain ⟨hbefore, hm⟩ := legalMoves_concat.mp hlegal
    obtain ⟨hP, hthreads⟩ := ih hbefore
    rw [run_concat]
    cases m with
    | fire e =>
      obtain ⟨os, t, s, hleads, honly, hP'⟩ := hfire moves e hP (hm e rfl)
      obtain ⟨hend, hrest⟩ := honly.advance (hwrite _) (hemit _) hP'
      rw [step, (turned_fire _ e).outputs_eq, (turned_fire _ e).world, hleads.advance]
      constructor
      · rwa [List.filterMap_append, filterMap_emitted, ← List.append_assoc]
      · intro t' ht'
        rcases (turned_fire _ e).mem_threads ht' with ht' | rfl
        · exact hthreads t' ht'
        · rwa [hleads.advance]
    | resume i r =>
      simp only [step]
      split
      · rename_i e s c k hi
        have honly := hthreads _ (List.mem_of_getElem? hi) r
          (run start (System.initial s₀) moves).world
        obtain ⟨hend, hrest⟩ := honly.advance (hwrite _) (hemit _) (hresume _ _ _ i r hP)
        have hturn := turned_resume hi r
        rw [hturn.outputs_eq, hturn.world]
        refine ⟨hend, fun t ht => ?_⟩
        rcases hturn.mem_threads ht with ht | rfl
        · exact hthreads t ht
        · exact hrest
      · exact ⟨hresume _ _ _ i r hP, hthreads⟩

end History

end Async
