import Tarcoin.Foundations.FallibleRun

/-! A machine whose steps may fail against a specification whose steps cannot: a simulation makes
every legal run succeed with the specified replies. Runs with a record of each step can be taken
back. -/
namespace Simulation

section Run
variable {σ τ α β ε : Type*}

/-- Take the inputs in turn and collect the replies, up to the first failure. -/
def runMachine (step : σ → α → Except ε (σ × β)) : σ → List α → Except ε (σ × List β)
  | s, [] => .ok (s, [])
  | s, a :: as =>
    (step s a).bind fun r => (runMachine step r.1 as).map fun q => (q.1, r.2 :: q.2)

def runSpec (spec : τ → α → τ × β) : τ → List α → τ × List β
  | t, [] => (t, [])
  | t, a :: as =>
    let q := runSpec spec (spec t a).1 as
    (q.1, (spec t a).2 :: q.2)

/-- Every input is legal in the states it is taken in. -/
def LegalRun (step : σ → α → Except ε (σ × β)) (spec : τ → α → τ × β)
    (legal : σ → τ → α → Prop) : σ → τ → List α → Prop
  | _, _, [] => True
  | s, t, a :: as =>
    legal s t a ∧ ∀ r, step s a = .ok r → LegalRun step spec legal r.1 (spec t a).1 as

variable {step : σ → α → Except ε (σ × β)} {spec : τ → α → τ × β} {legal : σ → τ → α → Prop}
variable {related : σ → τ → Prop}

variable {s : σ} {t : τ} {as : List α}

section
variable (hstep : ∀ s t a, related s t → legal s t a → ∃ s', step s a = .ok (s', (spec t a).2) ∧
    related s' (spec t a).1) (hrel : related s t)
include hstep hrel

theorem runMachine_simulates (hlegal : LegalRun step spec legal s t as) :
    ∃ s', runMachine step s as = .ok (s', (runSpec spec t as).2) ∧
      related s' (runSpec spec t as).1 := by
  induction as generalizing s t with
  | nil => exact ⟨s, rfl, hrel⟩
  | cons a as ih =>
    obtain ⟨hhere, hrest⟩ := hlegal
    obtain ⟨s', hs', hrel'⟩ := hstep s t a hrel hhere
    obtain ⟨s'', hs'', hrel''⟩ := ih hrel' (hrest _ hs')
    refine ⟨s'', ?_, hrel''⟩
    simp [runMachine, hs', Except.bind, hs'', Except.map, runSpec]

theorem legalRun_of_forall (hall : ∀ a ∈ as, ∀ s t, related s t → legal s t a) :
    LegalRun step spec legal s t as := by
  induction as generalizing s t with
  | nil => trivial
  | cons a as ih =>
    have hhere := hall a List.mem_cons_self s t hrel
    refine ⟨hhere, fun r hr => ?_⟩
    obtain ⟨s', hs', hrel'⟩ := hstep s t a hrel hhere
    obtain rfl := Except.ok.inj (hs'.symm.trans hr)
    exact ih hrel' fun b hb => hall b (List.mem_cons_of_mem a hb)

end

end Run

section Reversal
variable {σ τ α υ ε δ : Type*} {step : σ → α → Except ε (σ × υ)} {back : τ → α × υ → Except δ τ}
variable {embed : σ → τ} {good : υ → Prop}

variable {s s' : σ} {as : List α} {us : List υ}

theorem runMachine_cons_ok_iff {a : α} :
    runMachine step s (a :: as) = .ok (s', us) ↔
      ∃ s₁ u us', step s a = .ok (s₁, u) ∧ runMachine step s₁ as = .ok (s', us') ∧
        us = u :: us' := by
  rw [runMachine]
  constructor
  · intro h
    obtain ⟨r, hr, h⟩ := FallibleRun.bind_eq_ok_iff.mp h
    obtain ⟨q, hq, h⟩ := FallibleRun.map_eq_ok_iff.mp h
    cases h
    exact ⟨r.1, r.2, q.2, hr, hq, rfl⟩
  · rintro ⟨s₁, u, us', hstep, hrun, rfl⟩
    simp only [hstep, Except.bind, hrun, Except.map]

/-- If a step back leads to the state before a step only from the state after it and with the
record of it, then taking a whole run back leads to its start only from its end and with its
records. -/
theorem runMachine_reversal (inv : σ → Prop)
    (hstep : ∀ s, ∀ a ∈ as, ∀ s' u, inv s → step s a = .ok (s', u) → inv s' ∧
      ∀ t v, good v → (back t (a, v) = .ok (embed s) ↔ t = embed s' ∧ v = u)) {vs : List υ} {t : τ}
    (hs : inv s) (hrun : runMachine step s as = .ok (s', us)) (hlen : vs.length = as.length)
    (hgood : ∀ v ∈ vs, good v) :
    FallibleRun.run back t (as.zip vs).reverse = .ok (embed s) ↔ t = embed s' ∧ vs = us := by
  induction as generalizing s us vs with
  | nil =>
    cases hrun
    obtain rfl := List.length_eq_zero_iff.mp hlen
    simp
  | cons a as ih =>
    obtain ⟨s₁, u, us', hfirst, hrest, rfl⟩ := runMachine_cons_ok_iff.mp hrun
    obtain ⟨v, vs, rfl⟩ := List.exists_cons_of_length_eq_add_one hlen
    rw [List.forall_mem_cons] at hgood
    obtain ⟨hs₁, hback⟩ := hstep s a List.mem_cons_self s₁ u hs hfirst
    have htail := ih (fun s b hb => hstep s b (List.mem_cons_of_mem a hb)) hs₁ hrest
      (Nat.succ.inj hlen) hgood.2
    rw [List.zip_cons_cons, List.reverse_cons, FallibleRun.run_append,
      FallibleRun.bind_eq_ok_iff]
    -- The last step back has to start from the state after the first step.
    constructor
    · rintro ⟨t₁, hbefore, hlast⟩
      obtain ⟨t₂, ht₂, hnil⟩ := FallibleRun.run_cons_ok_iff.mp hlast
      cases hnil
      obtain ⟨rfl, rfl⟩ := (hback t₁ v hgood.1).mp ht₂
      obtain ⟨rfl, rfl⟩ := htail.mp hbefore
      exact ⟨rfl, rfl⟩
    · rintro ⟨rfl, heq⟩
      obtain ⟨rfl, rfl⟩ := List.cons.inj heq
      refine ⟨embed s₁, htail.mpr ⟨rfl, rfl⟩, ?_⟩
      exact FallibleRun.run_cons_ok_iff.mpr ⟨_, (hback _ _ hgood.1).mpr ⟨rfl, rfl⟩, rfl⟩

end Reversal

section Writes
variable {κ ν : Type*} [DecidableEq κ]

def writeAll : (κ → ν) → List (κ × ν) → κ → ν
  | f, [] => f
  | f, w :: ws => writeAll (Function.update f w.1 w.2) ws

variable {f : κ → ν} {ws : List (κ × ν)} {k : κ}

theorem writeAll_of_notMem (hk : k ∉ ws.map Prod.fst) : writeAll f ws k = f k := by
  induction ws generalizing f with
  | nil => rfl
  | cons w ws ih =>
    rw [List.map_cons, List.mem_cons, not_or] at hk
    rw [writeAll, ih hk.2, Function.update_of_ne hk.1]

theorem writeAll_of_mem (hnodup : (ws.map Prod.fst).Nodup) {v : ν} (hw : (k, v) ∈ ws) :
    writeAll f ws k = v := by
  induction ws generalizing f with
  | nil => cases hw
  | cons w ws ih =>
    rw [List.map_cons, List.nodup_cons] at hnodup
    rcases List.mem_cons.mp hw with rfl | hmem
    · rw [writeAll, writeAll_of_notMem hnodup.1, Function.update_self]
    · exact ih hnodup.2 hmem

end Writes

end Simulation
