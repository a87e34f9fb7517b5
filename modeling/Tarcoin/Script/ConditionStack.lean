import Mathlib.Algebra.Order.Ring.Nat

/-! `ConditionStack` of `script/interpreter.cpp`: only the number of conditionals and the
outermost false one are kept. -/
namespace Tarcoin.Script

def noFalse : UInt32 := UInt32.ofNat (2 ^ 32 - 1)

structure ConditionStack where
  stackSize : UInt32
  firstFalsePos : UInt32
  deriving DecidableEq, Repr

namespace ConditionStack

def initial : ConditionStack := ⟨0, noFalse⟩

def empty (c : ConditionStack) : Bool := c.stackSize = 0

def allTrue (c : ConditionStack) : Bool := c.firstFalsePos = noFalse

def pushBack (c : ConditionStack) (f : Bool) : ConditionStack where
  stackSize := c.stackSize + 1
  firstFalsePos := if c.firstFalsePos = noFalse ∧ f = false then c.stackSize else c.firstFalsePos

/-- `none` stands for the assertion that the stack is not empty. -/
def popBack (c : ConditionStack) : Option ConditionStack :=
  if c.stackSize = 0 then none
  else some ⟨c.stackSize - 1,
    if c.firstFalsePos = c.stackSize - 1 then noFalse else c.firstFalsePos⟩

def toggleTop (c : ConditionStack) : Option ConditionStack :=
  if c.stackSize = 0 then none
  else some ⟨c.stackSize,
    if c.firstFalsePos = noFalse then c.stackSize - 1
    else if c.firstFalsePos = c.stackSize - 1 then noFalse
    else c.firstFalsePos⟩

/-! ### The stack of booleans it stands for, innermost conditional first -/

/-- The position, from the outermost on, of the first false value. -/
def outermostFalse : List Bool → Option ℕ
  | [] => none
  | f :: outer => (outermostFalse outer).or (if f then none else some outer.length)

def position (i : Option ℕ) : UInt32 := i.elim noFalse UInt32.ofNat

def ofList (l : List Bool) : ConditionStack := ⟨UInt32.ofNat l.length, position (outermostFalse l)⟩

theorem outermostFalse_lt {l : List Bool} {i : ℕ} (h : outermostFalse l = some i) :
    i < l.length := by
  induction l with
  | nil => cases h
  | cons f outer ih =>
    rw [outermostFalse, Option.or_eq_some_iff] at h
    rcases h with h | ⟨-, h⟩
    · exact Nat.lt_succ_of_lt (ih h)
    · split at h
      · cases h
      · cases h
        exact Nat.lt_succ_self _

theorem outermostFalse_ne_length (l : List Bool) : outermostFalse l ≠ some l.length :=
  fun h => Nat.lt_irrefl _ (outermostFalse_lt h)

theorem outermostFalse_eq_none (l : List Bool) : outermostFalse l = none ↔ l.all id = true := by
  induction l with
  | nil => exact iff_of_true rfl rfl
  | cons f outer ih => cases f <;> simp_all [outermostFalse]

theorem ofNat_inj {m n : ℕ} (hm : m < 2 ^ 32) (hn : n < 2 ^ 32) :
    UInt32.ofNat m = UInt32.ofNat n ↔ m = n := by
  rw [← UInt32.toNat_inj, UInt32.toNat_ofNat_of_lt' hm, UInt32.toNat_ofNat_of_lt' hn]

section
variable {l : List Bool} {f : Bool}

section
variable (h : l.length < 2 ^ 32)
include h

theorem position_eq_noFalse : position (outermostFalse l) = noFalse ↔ outermostFalse l = none := by
  cases hpos : outermostFalse l with
  | none => exact iff_of_true rfl rfl
  | some i =>
    have hi := outermostFalse_lt hpos
    refine iff_of_false (fun heq => ?_) (Option.some_ne_none i)
    have := (ofNat_inj (by omega) (by decide)).mp heq
    omega

theorem position_eq_ofNat {n : ℕ} (hn : n < 2 ^ 32 - 1) :
    position (outermostFalse l) = UInt32.ofNat n ↔ outermostFalse l = some n := by
  cases hpos : outermostFalse l with
  | none =>
    refine iff_of_false (fun heq => ?_) (Option.some_ne_none n).symm
    have := (ofNat_inj (m := 2 ^ 32 - 1) (by decide) (by omega)).mp heq
    omega
  | some i =>
    have hi := outermostFalse_lt hpos
    rw [Option.some_inj]
    exact ofNat_inj (by omega) (by omega)

theorem allTrue_ofList : (ofList l).allTrue = l.all id := by
  rw [Bool.eq_iff_iff, ← outermostFalse_eq_none, ← position_eq_noFalse h]
  exact decide_eq_true_iff

theorem empty_ofList : (ofList l).empty = l.isEmpty := by
  rw [Bool.eq_iff_iff, List.isEmpty_iff_length_eq_zero, ← ofNat_inj h (by decide)]
  exact decide_eq_true_iff

theorem pushBack_ofList (f : Bool) : (ofList l).pushBack f = ofList (f :: l) := by
  have hnone := position_eq_noFalse h
  simp only [pushBack, ofList, List.length_cons, UInt32.ofNat_add, mk.injEq, hnone, outermostFalse]
  refine ⟨rfl, ?_⟩
  cases outermostFalse l with
  | none => cases f <;> rfl
  | some i => simp

end

variable (h : (f :: l).length < 2 ^ 32)
include h

theorem top_ofList : (ofList (f :: l)).stackSize ≠ 0 ∧
    (ofList (f :: l)).stackSize - 1 = UInt32.ofNat l.length := by
  constructor
  · intro heq
    have := (ofNat_inj h (by decide)).mp heq
    simp at this
  · rw [ofList, List.length_cons, UInt32.ofNat_add]
    exact UInt32.add_sub_cancel _ _

theorem popBack_ofList : (ofList (f :: l)).popBack = some (ofList l) := by
  obtain ⟨hsize, htop⟩ := top_ofList h
  rw [popBack, if_neg hsize, htop]
  refine congrArg (fun p => some (mk _ p)) ?_
  have hpos := position_eq_ofNat h (Nat.lt_sub_of_add_lt h)
  have hne := outermostFalse_ne_length l
  simp only [ofList]
  split_ifs with hcond
  all_goals
    rw [hpos] at hcond
    cases hl : outermostFalse l <;> cases f <;> simp_all [outermostFalse, position]

/-- Toggling the innermost value shows only where all values outside it are true. -/
theorem toggleTop_ofList : (ofList (f :: l)).toggleTop = some (ofList ((!f) :: l)) := by
  obtain ⟨hsize, htop⟩ := top_ofList h
  rw [toggleTop, if_neg hsize, htop]
  refine congrArg (fun p => some (mk _ p)) ?_
  have hpos := position_eq_ofNat h (Nat.lt_sub_of_add_lt h)
  have hnone := position_eq_noFalse h
  have hne := outermostFalse_ne_length l
  simp only [ofList]
  split_ifs with hcond
  all_goals
    rw [hnone] at hcond
    cases hl : outermostFalse l <;> cases f <;> simp_all [outermostFalse, position]

end

inductive Op
  | push (f : Bool)
  | pop
  | toggle

def step (c : ConditionStack) : Op → Option ConditionStack
  | .push f => some (c.pushBack f)
  | .pop => c.popBack
  | .toggle => c.toggleTop

def plainStep : List Bool → Op → Option (List Bool)
  | l, .push f => some (f :: l)
  | [], _ => none
  | _ :: l, .pop => some l
  | f :: l, .toggle => some ((!f) :: l)

theorem step_ofList {l : List Bool} (h : l.length < 2 ^ 32) (op : Op) :
    (ofList l).step op = (plainStep l op).map ofList := by
  cases op with
  | push f => exact congrArg some (pushBack_ofList h f)
  | pop =>
    cases l with
    | nil => rfl
    | cons f l => exact popBack_ofList h
  | toggle =>
    cases l with
    | nil => rfl
    | cons f l => exact toggleTop_ofList h

/-- In every run that never has 2 ^ 32 values on the stack, the two numbers tell what the whole
stack would: whether it is empty, whether all its values are true, and when an assertion fails. -/
theorem run_refines (ops : List Op) (l : List Bool)
    (hdepth : ∀ before, before <+: ops → ∀ l', before.foldlM plainStep l = some l' →
      l'.length < 2 ^ 32) :
    (ops.foldlM step (ofList l)).map (fun c => (c.empty, c.allTrue)) =
      (ops.foldlM plainStep l).map (fun l => (l.isEmpty, l.all id)) := by
  have hl : l.length < 2 ^ 32 := hdepth [] List.nil_prefix l rfl
  induction ops generalizing l with
  | nil => exact congrArg some (Prod.ext (empty_ofList hl) (allTrue_ofList hl))
  | cons op ops ih =>
    rw [List.foldlM_cons, List.foldlM_cons, step_ofList hl]
    cases hstep : plainStep l op with
    | none => rfl
    | some l' =>
      have hdepth' : ∀ before, before <+: ops → ∀ l'', before.foldlM plainStep l' = some l'' →
          l''.length < 2 ^ 32 := by
        intro before hbefore l'' hl''
        apply hdepth (op :: before) (List.prefix_cons_inj op |>.mpr hbefore)
        rw [List.foldlM_cons, hstep]
        exact hl''
      exact ih l' hdepth' (hdepth' [] List.nil_prefix l' rfl)

theorem run_refines_toggled :
    ([.push true, .push false, .toggle, .pop].foldlM step initial).map
      (fun c => (c.empty, c.allTrue)) = some (false, true) := by
  have hdepth : ∀ k ≤ 4, (([.push true, .push false, .toggle, .pop].take k).foldlM plainStep []).all
      (fun l => decide (l.length < 2 ^ 32)) = true := by decide
  rw [show initial = ofList [] from rfl, run_refines _ [] fun before hbefore l' hl' => ?_]
  · rfl
  · have := hdepth before.length hbefore.length_le
    rw [← List.prefix_iff_eq_take.mp hbefore, hl'] at this
    exact of_decide_eq_true this

end ConditionStack

end Tarcoin.Script
