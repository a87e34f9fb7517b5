import Mathlib.Tactic

/-! Readers of a stream of symbols. `Reads r bytes x` says that `r` takes exactly `bytes` and
returns `x`, whatever follows. -/
namespace StreamCodec

variable {ε β α γ : Type*}

abbrev Reader (ε β α : Type*) := List β → Except ε (α × List β)

namespace Reader

def pure (x : α) : Reader ε β α := fun bytes => .ok (x, bytes)

def fail (e : ε) : Reader ε β α := fun _ => .error e

def bind (r : Reader ε β α) (f : α → Reader ε β γ) : Reader ε β γ := fun bytes =>
  (r bytes).bind fun p => f p.1 p.2

def map (f : α → γ) (r : Reader ε β α) : Reader ε β γ := r.bind fun x => pure (f x)

def mapError {ε' : Type*} (f : ε → ε') (r : Reader ε β α) : Reader ε' β α := fun bytes =>
  (r bytes).mapError f

def take (short : ε) (n : ℕ) : Reader ε β (List β) := fun bytes =>
  if n ≤ bytes.length then .ok (bytes.take n, bytes.drop n) else .error short

def many (r : Reader ε β α) : ℕ → Reader ε β (List α)
  | 0 => pure []
  | n + 1 => r.bind fun x => (many r n).map fun xs => x :: xs

end Reader

/-- The reader consumes exactly `bytes` and returns `x`. -/
def Reads (r : Reader ε β α) (bytes : List β) (x : α) : Prop :=
  ∀ rest, r (bytes ++ rest) = .ok (x, rest)

variable {r : Reader ε β α} {bytes more : List β} {x : α}

theorem reads_pure (x : α) : Reads (Reader.pure x : Reader ε β α) [] x := fun _ => rfl

variable {f : α → Reader ε β γ} {y : γ}

theorem Reads.bind (hr : Reads r bytes x) (hf : Reads (f x) more y) :
    Reads (r.bind f) (bytes ++ more) y := by
  intro rest
  rw [List.append_assoc, Reader.bind, hr]
  exact hf rest

theorem Reads.bind_nil (hr : Reads r bytes x) (hf : Reads (f x) [] y) :
    Reads (r.bind f) bytes y := by
  rw [← List.append_nil bytes]
  exact hr.bind hf

theorem Reads.map (f : α → γ) (hr : Reads r bytes x) : Reads (r.map f) bytes (f x) :=
  hr.bind_nil (reads_pure (f x))

theorem Reads.mapError {ε' : Type*} (f : ε → ε') (hr : Reads r bytes x) :
    Reads (r.mapError f) bytes x := by
  intro rest
  rw [Reader.mapError, hr]
  rfl

theorem reads_take (short : ε) {n : ℕ} (h : bytes.length = n) :
    Reads (Reader.take short n) bytes bytes := by
  intro rest
  rw [Reader.take, if_pos (by rw [List.length_append]; omega), ← h, List.take_left, List.drop_left]

theorem Reads.many {δ : Type*} {ys : List δ} {enc : δ → List β} {f : δ → α}
    (h : ∀ y ∈ ys, Reads r (enc y) (f y)) :
    Reads (r.many ys.length) (ys.flatMap enc) (ys.map f) := by
  induction ys with
  | nil => exact reads_pure []
  | cons y ys ih =>
    rw [List.forall_mem_cons] at h
    exact h.1.bind ((ih h.2).map fun xs => f y :: xs)

section Inversion

variable {rest : List β}

theorem Reader.bind_eq_ok_iff :
    (r.bind f) bytes = .ok (y, rest) ↔
      ∃ x mid, r bytes = .ok (x, mid) ∧ f x mid = .ok (y, rest) := by
  unfold Reader.bind
  cases r bytes with
  | error e => simp [Except.bind]
  | ok p => obtain ⟨x, mid⟩ := p; simp [Except.bind]

theorem Reader.map_eq_ok_iff {f : α → γ} :
    (r.map f) bytes = .ok (y, rest) ↔ ∃ x, r bytes = .ok (x, rest) ∧ f x = y := by
  unfold Reader.map Reader.bind Reader.pure
  cases r bytes with
  | error e => simp [Except.bind]
  | ok p => obtain ⟨x, mid⟩ := p; simp [Except.bind, and_comm]

theorem Reader.mapError_eq_ok_iff {ε' : Type*} {f : ε → ε'} :
    (r.mapError f) bytes = .ok (x, rest) ↔ r bytes = .ok (x, rest) := by
  unfold Reader.mapError
  cases r bytes <;> simp [Except.mapError]

theorem Reader.pure_eq_ok_iff {y : α} :
    (Reader.pure x : Reader ε β α) bytes = .ok (y, rest) ↔ x = y ∧ bytes = rest := by
  simp [Reader.pure]

variable {n : ℕ} {xs : List α}

theorem Reader.take_eq_ok {short : ε} {xs : List β} (h : Reader.take short n bytes = .ok (xs, rest)) :
    bytes = xs ++ rest ∧ xs.length = n := by
  unfold Reader.take at h
  split_ifs at h with hle
  cases h
  exact ⟨(List.take_append_drop n bytes).symm, List.length_take_of_le hle⟩

theorem Reader.forall_mem_of_many {P : α → Prop}
    (hr : ∀ bytes x rest, r bytes = .ok (x, rest) → P x) (h : r.many n bytes = .ok (xs, rest)) :
    ∀ x ∈ xs, P x := by
  induction n generalizing bytes xs with
  | zero =>
    obtain ⟨rfl, -⟩ := Reader.pure_eq_ok_iff.mp h
    exact List.forall_mem_nil P
  | succ n ih =>
    obtain ⟨x, mid, hx, h⟩ := Reader.bind_eq_ok_iff.mp h
    obtain ⟨ys, hys, rfl⟩ := Reader.map_eq_ok_iff.mp h
    exact List.forall_mem_cons.mpr ⟨hr _ _ _ hx, ih hys⟩

/-- What the reader accepts is the encoding of what it returns. -/
def Canonical (r : Reader ε β α) (enc : α → List β) : Prop :=
  ∀ bytes x rest, r bytes = .ok (x, rest) → bytes = enc x ++ rest

theorem Canonical.many {enc : α → List β} (hr : Canonical r enc)
    (h : r.many n bytes = .ok (xs, rest)) : bytes = xs.flatMap enc ++ rest ∧ xs.length = n := by
  induction n generalizing bytes xs with
  | zero =>
    obtain ⟨rfl, rfl⟩ := Reader.pure_eq_ok_iff.mp h
    exact ⟨rfl, rfl⟩
  | succ n ih =>
    obtain ⟨x, mid, hx, h⟩ := Reader.bind_eq_ok_iff.mp h
    obtain ⟨ys, hys, rfl⟩ := Reader.map_eq_ok_iff.mp h
    obtain ⟨rfl, hlen⟩ := ih hys
    exact ⟨by rw [hr _ _ _ hx, List.flatMap_cons, List.append_assoc], by rw [List.length_cons, hlen]⟩

end Inversion

end StreamCodec
