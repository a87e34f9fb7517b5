import Tarcoin.Foundations.FallibleRun

/-! Computations that read a set of optional rules only to demand that they are met: a rule may
stop one, never turn it elsewhere, so success under some rules is success under fewer. -/

/-- A computation on states `σ` that may stop with an `ε`. What succeeds under a set of rules
succeeds in the same way under every smaller one. -/
structure Ruled (Φ σ ε α : Type) where
  run : Finset Φ → σ → Except ε (α × σ)
  relax : ∀ {F G : Finset Φ}, F ⊆ G → ∀ {s : σ} {r : α × σ}, run G s = .ok r → run F s = .ok r

namespace Ruled
open FallibleRun

variable {Φ σ τ ε δ α β : Type}

def lift (f : σ → Except ε (α × σ)) : Ruled Φ σ ε α := ⟨fun _ => f, fun _ _ _ h => h⟩

def andThen (m : Ruled Φ σ ε α) (k : α → Ruled Φ σ ε β) : Ruled Φ σ ε β where
  run F s := (m.run F s).bind fun r => (k r.1).run F r.2
  relax hsub s r h := by
    obtain ⟨a, ha, hk⟩ := bind_eq_ok_iff.mp h
    exact bind_eq_ok_iff.mpr ⟨a, m.relax hsub ha, (k a.1).relax hsub hk⟩

instance : Monad (Ruled Φ σ ε) where
  pure a := lift fun s => .ok (a, s)
  bind := andThen

def fail (e : ε) : Ruled Φ σ ε α := lift fun _ => .error e

def look : Ruled Φ σ ε σ := lift fun s => .ok (s, s)

def change (f : σ → σ) : Ruled Φ σ ε Unit := lift fun s => .ok ((), f s)

def require (p : Prop) [Decidable p] (e : ε) : Ruled Φ σ ε Unit := if p then pure () else fail e

def inCase (p : Prop) [Decidable p] (m : Ruled Φ σ ε Unit) : Ruled Φ σ ε Unit :=
  if p then m else pure ()

/-- Where the rule `x` is in force, `check` has to succeed; the state stays as it is. -/
def demand [DecidableEq Φ] (x : Φ) (check : Ruled Φ σ ε Unit) : Ruled Φ σ ε Unit where
  run F s := if x ∈ F then (check.run F s).map fun _ => ((), s) else .ok ((), s)
  relax {F G} hsub s r h := by
    by_cases hF : x ∈ F
    · rw [if_pos (hsub hF)] at h
      obtain ⟨a, ha, hr⟩ := map_eq_ok_iff.mp h
      rw [if_pos hF]
      exact map_eq_ok_iff.mpr ⟨a, check.relax hsub ha, hr⟩
    · rw [if_neg hF]
      split at h
      · obtain ⟨-, -, hr⟩ := map_eq_ok_iff.mp h
        rw [hr]
      · exact h

/-- Run `m` on a state of its own, and return it. -/
def within (start : τ) (m : Ruled Φ τ ε α) : Ruled Φ σ ε (α × τ) where
  run F s := (m.run F start).map fun r => (r, s)
  relax hsub s r h := by
    obtain ⟨a, ha, hr⟩ := map_eq_ok_iff.mp h
    exact map_eq_ok_iff.mpr ⟨a, m.relax hsub ha, hr⟩

def restate (f : ε → δ) (m : Ruled Φ σ ε α) : Ruled Φ σ δ α where
  run F s := (m.run F s).mapError f
  relax hsub s r h := by
    have hm := mapError_eq_ok_iff.mp h
    exact mapError_eq_ok_iff.mpr (m.relax hsub hm)

@[simp] theorem run_pure (a : α) (F : Finset Φ) (s : σ) :
    (pure a : Ruled Φ σ ε α).run F s = .ok (a, s) := rfl

@[simp] theorem run_bind (m : Ruled Φ σ ε α) (k : α → Ruled Φ σ ε β) (F : Finset Φ) (s : σ) :
    (m >>= k).run F s = (m.run F s).bind fun r => (k r.1).run F r.2 := rfl

variable {m : Ruled Φ σ ε α} {k : α → Ruled Φ σ ε β} {F : Finset Φ} {s : σ} {p : Prop}

theorem run_bind_of_ok {t : σ} {a : α} (h : m.run F s = .ok (a, t)) :
    (m >>= k).run F s = (k a).run F t := by
  rw [run_bind, h]
  rfl

theorem run_bind_of_error {e : ε} (h : m.run F s = .error e) : (m >>= k).run F s = .error e := by
  rw [run_bind, h]
  rfl

theorem run_require_of_not [Decidable p] (e : ε) (F : Finset Φ) (s : σ) (h : ¬ p) :
    (require p e : Ruled Φ σ ε Unit).run F s = .error e := by
  rw [require, if_neg h]
  rfl

theorem run_require [Decidable p] (e : ε) (F : Finset Φ) (s : σ) (h : p) :
    (require p e : Ruled Φ σ ε Unit).run F s = .ok ((), s) := by
  rw [require, if_pos h]
  rfl

theorem run_demand_of_notMem [DecidableEq Φ] {x : Φ} (check : Ruled Φ σ ε Unit) (s : σ) (h : x ∉ F) :
    (demand x check).run F s = .ok ((), s) :=
  if_neg h

/-- What is asked of the outcome of a run: the result or the reason of the stop. -/
def Outcome (E : ε → Prop) (Q : α → σ → Prop) : Except ε (α × σ) → Prop
  | .ok (a, s) => Q a s
  | .error e => E e

/-- Started where `P` holds, under any rules, `m` ends where `Q` holds of its result, or it
stops for a reason that `E` allows. -/
structure Meets (E : ε → Prop) (P : σ → Prop) (m : Ruled Φ σ ε α) (Q : α → σ → Prop) : Prop where
  outcome : ∀ F s, P s → Outcome E Q (m.run F s)

section Rules

variable {E : ε → Prop} {P P' : σ → Prop} {Q Q' : α → σ → Prop} {m : Ruled Φ σ ε α}

variable {a : α} {e : ε} {R : σ → Prop} {check : Ruled Φ σ ε Unit}

theorem Meets.of_ok (h : Meets E P m Q) {s' : σ} (hs : P s) (hrun : m.run F s = .ok (a, s')) :
    Q a s' := by
  have hm := h.outcome F s hs
  rwa [hrun] at hm

theorem Meets.of_error (h : Meets E P m Q) (hs : P s) (hrun : m.run F s = .error e) : E e := by
  have hm := h.outcome F s hs
  rwa [hrun] at hm

theorem meets_pure (h : ∀ s, P s → Q a s) : Meets E P (pure a : Ruled Φ σ ε α) Q :=
  ⟨fun _ s hs => h s hs⟩

theorem meets_lift {f : σ → Except ε (α × σ)} (h : ∀ s, P s → Outcome E Q (f s)) :
    Meets E P (lift f : Ruled Φ σ ε α) Q :=
  ⟨fun _ s hs => h s hs⟩

theorem meets_fail (h : E e) : Meets E P (fail e : Ruled Φ σ ε α) Q :=
  ⟨fun _ _ _ => h⟩

theorem meets_change {f : σ → σ} (h : ∀ s, P s → R (f s)) :
    Meets E P (change f : Ruled Φ σ ε Unit) fun _ => R :=
  ⟨fun _ s hs => h s hs⟩

theorem Meets.bind {R : β → σ → Prop} (hm : Meets E P m Q) (hk : ∀ a, Meets E (Q a) (k a) R) :
    Meets E P (m >>= k) R := by
  constructor
  intro F s hs
  have hfirst := hm.outcome F s hs
  rw [run_bind]
  cases hrun : m.run F s with
  | error e => rwa [hrun] at hfirst
  | ok r =>
    rw [hrun] at hfirst
    exact (hk r.1).outcome F r.2 hfirst

theorem Meets.next {n : Ruled Φ σ ε β} {P' : σ → Prop} {R : β → σ → Prop}
    (hm : Meets E P m fun _ => P') (hn : Meets E P' n R) : Meets E P (m >>= fun _ => n) R :=
  hm.bind fun _ => hn

theorem meets_look_bind {k : σ → Ruled Φ σ ε β} {R : β → σ → Prop}
    (h : ∀ s, P s → Meets E (fun t => t = s) (k s) R) : Meets E P (look >>= k) R :=
  ⟨fun F s hs => (h s hs).outcome F s rfl⟩

theorem Meets.weaken (hm : Meets E P m Q) (hP : ∀ s, P' s → P s) (hQ : ∀ a s, Q a s → Q' a s) :
    Meets E P' m Q' := by
  constructor
  intro F s hs
  have h := hm.outcome F s (hP s hs)
  cases hrun : m.run F s with
  | error e => rwa [hrun] at h
  | ok r =>
    rw [hrun] at h
    exact hQ r.1 r.2 h

/-- A fact in the assertion before a computation is a hypothesis. -/
theorem meets_of_fact {A : Prop} (h : A → Meets E P m Q) : Meets E (fun s => A ∧ P s) m Q :=
  ⟨fun F s hs => (h hs.1).outcome F s hs.2⟩

theorem meets_of_exists {ι : Type} {P : ι → σ → Prop} (h : ∀ i, Meets E (P i) m Q) :
    Meets E (fun s => ∃ i, P i s) m Q := by
  constructor
  intro F s hs
  obtain ⟨i, hi⟩ := hs
  exact (h i).outcome F s hi

/-- Composition where the first part returns a value with a fact about it. -/
theorem Meets.bindFact {A : α → Prop} {S : β → σ → Prop} (hm : Meets E P m fun a s => A a ∧ R s)
    (hk : ∀ a, A a → Meets E R (k a) S) : Meets E P (m >>= k) S :=
  hm.bind fun a => meets_of_fact (hk a)

theorem meets_require [Decidable p] (he : ¬ p → E e) :
    Meets E P (require p e : Ruled Φ σ ε Unit) fun _ s => p ∧ P s := by
  unfold require
  split
  · exact meets_pure fun _ hs => ⟨‹p›, hs⟩
  · exact meets_fail (he ‹_›)

theorem meets_inCase [Decidable p] (h : p → Meets E P check fun _ => P) :
    Meets E P (inCase p check) fun _ => P := by
  unfold inCase
  split
  · exact h ‹p›
  · exact meets_pure fun _ hs => hs

theorem meets_demand [DecidableEq Φ] {x : Φ} {R : Unit → σ → Prop} (h : Meets E P check R) :
    Meets E P (demand x check) fun _ => P := by
  constructor
  intro F s hs
  have hc := h.outcome F s hs
  by_cases hx : x ∈ F
  · simp only [demand, if_pos hx]
    cases hrun : check.run F s with
    | ok r => exact hs
    | error e => rwa [hrun] at hc
  · simp only [demand, if_neg hx]
    exact hs

end Rules

end Ruled
