import Mathlib.Tactic

/-! Runs of a step function that may fail, up to the first failure. -/
namespace FallibleRun

variable {ε α β σ : Type*}

variable {x : Except ε α} {f : α → Except ε β} {r : β} {e : ε} {δ : Type*} {s t : σ} {as : List α}

theorem bind_eq_ok_iff : x.bind f = .ok r ↔ ∃ a, x = .ok a ∧ f a = .ok r := by
  cases x <;> simp [Except.bind]

theorem bind_eq_error_iff :
    x.bind f = .error e ↔ x = .error e ∨ ∃ a, x = .ok a ∧ f a = .error e := by
  cases x <;> simp [Except.bind]

theorem bind_ne_error (hx : x ≠ .error e) (hf : ∀ a, f a ≠ .error e) : x.bind f ≠ .error e := by
  rw [Ne, bind_eq_error_iff]
  rintro (h | ⟨a, -, h⟩)
  · exact hx h
  · exact hf a h

theorem map_eq_ok_iff {f : α → β} : x.map f = .ok r ↔ ∃ a, x = .ok a ∧ f a = r := by
  cases x <;> simp [Except.map]

theorem mapError_eq_ok_iff {f : ε → δ} {r : α} : x.mapError f = .ok r ↔ x = .ok r := by
  cases x <;> simp [Except.mapError]

theorem map_eq_error_iff {f : α → β} : x.map f = .error e ↔ x = .error e := by
  cases x <;> simp [Except.map]

theorem mapError_eq_error_iff {f : ε → δ} {d : δ} :
    x.mapError f = .error d ↔ ∃ e, x = .error e ∧ f e = d := by
  cases x <;> simp [Except.mapError]

def run (step : σ → α → Except ε σ) : σ → List α → Except ε σ
  | s, [] => .ok s
  | s, a :: as => (step s a).bind fun s' => run step s' as

variable {step : σ → α → Except ε σ}

@[simp] theorem run_nil (s : σ) : run step s [] = .ok s := rfl

theorem run_cons_ok_iff {a : α} :
    run step s (a :: as) = .ok t ↔ ∃ s', step s a = .ok s' ∧ run step s' as = .ok t :=
  bind_eq_ok_iff

theorem run_append (s : σ) (as bs : List α) :
    run step s (as ++ bs) = (run step s as).bind fun s' => run step s' bs := by
  induction as generalizing s with
  | nil => rfl
  | cons a as ih =>
    rw [List.cons_append, run, run]
    cases step s a with
    | error e => rfl
    | ok s' => exact ih s'

theorem exists_step_of_run_error (h : run step s as = .error e) :
    ∃ t, ∃ a ∈ as, step t a = .error e := by
  induction as generalizing s with
  | nil => cases h
  | cons a as ih =>
    obtain hstep | ⟨s', -, hrest⟩ := bind_eq_error_iff.mp h
    · exact ⟨s, a, List.mem_cons_self, hstep⟩
    · obtain ⟨t, b, hb, hstep⟩ := ih hrest
      exact ⟨t, b, List.mem_cons_of_mem a hb, hstep⟩

theorem run_invariant {P : σ → Prop} (hstep : ∀ s a s', a ∈ as → P s → step s a = .ok s' → P s')
    (hs : P s) (h : run step s as = .ok t) : P t := by
  induction as generalizing s with
  | nil =>
    cases h
    exact hs
  | cons a as ih =>
    obtain ⟨s', hs', ht⟩ := run_cons_ok_iff.mp h
    apply ih (fun u b u' hb => hstep u b u' (List.mem_cons_of_mem a hb)) _ ht
    exact hstep s a s' List.mem_cons_self hs hs'

theorem foldlM_invariant {step : σ → α → Option σ} {P : σ → Prop}
    (hstep : ∀ s a s', a ∈ as → P s → step s a = some s' → P s') (hs : P s)
    (h : as.foldlM step s = some t) : P t := by
  induction as generalizing s with
  | nil =>
    cases h
    exact hs
  | cons a as ih =>
    obtain ⟨s', hs', ht⟩ := Option.bind_eq_some_iff.1 h
    apply ih (fun u b u' hb => hstep u b u' (List.mem_cons_of_mem a hb)) _ ht
    exact hstep s a s' List.mem_cons_self hs hs'

end FallibleRun
