import Mathlib.Tactic

/-! A map whose entries stand in the slots of a list, in the order they were added, and the sum of
its values. Deleting a key empties its slot, and a loop walks the slots by position. -/

section Slots

variable {κ ν : Type*}

def slotKeys : List (Option (κ × ν)) → List κ
  | [] => []
  | none :: slots => slotKeys slots
  | some p :: slots => p.1 :: slotKeys slots

theorem slotKeys_append (xs ys : List (Option (κ × ν))) :
    slotKeys (xs ++ ys) = slotKeys xs ++ slotKeys ys := by
  induction xs with
  | nil => rfl
  | cons slot xs ih => cases slot <;> simp [slotKeys, ih]

variable [DecidableEq κ]

def findSlot (k : κ) : List (Option (κ × ν)) → Option ν
  | [] => none
  | none :: slots => findSlot k slots
  | some p :: slots => if p.1 = k then some p.2 else findSlot k slots

def writeSlot (k : κ) (v : ν) : Option (κ × ν) → Option (κ × ν)
  | none => none
  | some p => if p.1 = k then some (k, v) else some p

def clearSlot (k : κ) : Option (κ × ν) → Option (κ × ν)
  | none => none
  | some p => if p.1 = k then none else some p

variable {k k' : κ} {v : ν} {slots : List (Option (κ × ν))}

theorem findSlot_eq_none_iff : findSlot k slots = none ↔ k ∉ slotKeys slots := by
  induction slots with
  | nil => simp [findSlot, slotKeys]
  | cons slot slots ih =>
    rcases slot with _ | ⟨k₁, v₁⟩
    · exact ih
    · by_cases h : k₁ = k
      · simp [findSlot, slotKeys, h]
      · simp [findSlot, slotKeys, h, Ne.symm h, ih]

theorem slotKeys_write : slotKeys (slots.map (writeSlot k v)) = slotKeys slots := by
  induction slots with
  | nil => rfl
  | cons slot slots ih =>
    rcases slot with _ | ⟨k₁, v₁⟩
    · exact ih
    · by_cases h : k₁ = k
      · simp [slotKeys, writeSlot, h, ih]
      · simp [slotKeys, writeSlot, h, ih]

theorem slotKeys_clear : slotKeys (slots.map (clearSlot k)) = (slotKeys slots).filter (· ≠ k) := by
  induction slots with
  | nil => rfl
  | cons slot slots ih =>
    rcases slot with _ | ⟨k₁, v₁⟩
    · exact ih
    · by_cases h : k₁ = k
      · simp only [List.map_cons, clearSlot, h, if_true, slotKeys, ih]
        simp
      · simp only [List.map_cons, clearSlot, h, if_false, slotKeys, ih]
        simp [h]

/-- Put the value `o` in the slot of `k`, or empty it. -/
def alterSlot (k : κ) (o : Option ν) : Option (κ × ν) → Option (κ × ν)
  | none => none
  | some p => if p.1 = k then o.map (Prod.mk k) else some p

theorem writeSlot_eq : writeSlot k v = alterSlot k (some v) := by
  funext slot
  cases slot <;> rfl

theorem clearSlot_eq : (clearSlot k : Option (κ × ν) → Option (κ × ν)) = alterSlot k none := by
  funext slot
  cases slot <;> rfl

variable {o : Option ν}

theorem map_alterSlot_of_not_mem (h : k ∉ slotKeys slots) : slots.map (alterSlot k o) = slots := by
  induction slots with
  | nil => rfl
  | cons slot slots ih =>
    cases slot with
    | none => rw [List.map_cons, ih h, alterSlot]
    | some p =>
      obtain ⟨hne, hrest⟩ := List.ne_and_not_mem_of_not_mem_cons h
      rw [List.map_cons, ih hrest, alterSlot, if_neg (Ne.symm hne)]

theorem findSlot_alter : findSlot k' (slots.map (alterSlot k o)) =
    if k' = k then (findSlot k' slots).bind fun _ => o else findSlot k' slots := by
  induction slots with
  | nil => simp [findSlot]
  | cons slot slots ih =>
    rcases slot with _ | ⟨k₁, v₁⟩
    · exact ih
    · simp only [List.map_cons, alterSlot, findSlot]
      cases o <;> by_cases h₁ : k₁ = k <;> by_cases h₂ : k₁ = k' <;> by_cases h₃ : k' = k <;>
        simp_all [findSlot]

theorem findSlot_append (xs ys : List (Option (κ × ν))) :
    findSlot k (xs ++ ys) = (findSlot k xs).or (findSlot k ys) := by
  induction xs with
  | nil => rfl
  | cons slot xs ih =>
    rcases slot with _ | ⟨k₁, v₁⟩
    · exact ih
    · simp only [List.cons_append, findSlot]
      split_ifs
      · rfl
      · exact ih

end Slots

structure SlotMap (κ ν : Type*) where
  slots : List (Option (κ × ν))
  nodup : (slotKeys slots).Nodup

namespace SlotMap

variable {κ ν : Type*}

def empty : SlotMap κ ν := ⟨[], List.nodup_nil⟩

def keys (m : SlotMap κ ν) : List κ := slotKeys m.slots

def size (m : SlotMap κ ν) : ℕ := m.keys.length

/-- The first filled slot at position `i` or after it, with its position. -/
def next (m : SlotMap κ ν) (i : ℕ) : Option (ℕ × κ × ν) :=
  (m.slots.zipIdx.drop i).findSome? fun p => p.1.map fun e => (p.2, e.1, e.2)

variable [DecidableEq κ]

def get (m : SlotMap κ ν) (k : κ) : Option ν := findSlot k m.slots

def has (m : SlotMap κ ν) (k : κ) : Bool := (m.get k).isSome

/-- Write over the slot of a key that is present, or add a slot at the end. -/
def set (m : SlotMap κ ν) (k : κ) (v : ν) : SlotMap κ ν :=
  if h : m.get k = none then
    ⟨m.slots ++ [some (k, v)], by
      have hk := findSlot_eq_none_iff.mp h
      rw [slotKeys_append]
      exact m.nodup.append (List.nodup_singleton k) (by simpa [slotKeys] using hk)⟩
  else ⟨m.slots.map (writeSlot k v), by rw [slotKeys_write]; exact m.nodup⟩

def delete (m : SlotMap κ ν) (k : κ) : SlotMap κ ν :=
  ⟨m.slots.map (clearSlot k), by rw [slotKeys_clear]; exact m.nodup.filter _⟩

variable {m : SlotMap κ ν} {k k' : κ} {v : ν}

@[simp] theorem get_empty : (empty : SlotMap κ ν).get k = none := rfl

theorem get_set : (m.set k v).get k' = if k' = k then some v else m.get k' := by
  unfold set
  split
  · rename_i h
    simp only [get, findSlot_append] at h ⊢
    by_cases he : k' = k
    · simp [he, h, findSlot]
    · simp [he, Ne.symm he, findSlot]
  · rename_i h
    obtain ⟨v₀, hv₀⟩ := Option.ne_none_iff_exists'.mp h
    simp only [get, writeSlot_eq, findSlot_alter] at hv₀ ⊢
    split_ifs with he
    · rw [he, hv₀, Option.bind_some]
    · rfl

theorem get_delete : (m.delete k).get k' = if k' = k then none else m.get k' := by
  simp [get, delete, clearSlot_eq, findSlot_alter]

theorem mem_keys : k ∈ m.keys ↔ m.has k = true := by
  rw [has, Option.isSome_iff_ne_none, Ne, get, findSlot_eq_none_iff, not_not, keys]

theorem has_set : (m.set k v).has k' = true ↔ k' = k ∨ m.has k' = true := by
  rw [has, get_set]
  split_ifs with he
  · simp [he]
  · simp [he, has]

theorem has_delete : (m.delete k).has k' = true ↔ k' ≠ k ∧ m.has k' = true := by
  rw [has, get_delete]
  split_ifs with he
  · simp [he]
  · simp [he, has]

end SlotMap


section Slots

variable {κ ν : Type*} [AddCommMonoid ν]

def slotSum : List (Option (κ × ν)) → ν
  | [] => 0
  | none :: slots => slotSum slots
  | some p :: slots => p.2 + slotSum slots

theorem slotSum_append (xs ys : List (Option (κ × ν))) :
    slotSum (xs ++ ys) = slotSum xs + slotSum ys := by
  induction xs with
  | nil => exact (zero_add _).symm
  | cons slot xs ih =>
    cases slot with
    | none => exact ih
    | some p => rw [List.cons_append, slotSum, ih, slotSum, add_assoc]

variable [DecidableEq κ] {k : κ} {v : ν} {slots : List (Option (κ × ν))}

theorem slotSum_alter {o : Option ν} {v₀ : ν} (hnodup : (slotKeys slots).Nodup)
    (h : findSlot k slots = some v₀) :
    slotSum (slots.map (alterSlot k o)) + v₀ = slotSum slots + o.getD 0 := by
  induction slots with
  | nil => cases h
  | cons slot slots ih =>
    cases slot with
    | none => exact ih hnodup h
    | some p =>
      obtain ⟨hnot, hrest⟩ := List.nodup_cons.mp hnodup
      rw [List.map_cons, alterSlot]
      by_cases hp : p.1 = k
      · rw [findSlot, if_pos hp] at h
        cases h
        rw [if_pos hp, map_alterSlot_of_not_mem (hp ▸ hnot)]
        cases o with
        | none => simp [slotSum, add_comm]
        | some v =>
          simp only [Option.map_some, slotSum, Option.getD_some]
          abel
      · rw [findSlot, if_neg hp] at h
        rw [if_neg hp, slotSum, slotSum, add_assoc, ih hrest h, add_assoc]

end Slots

namespace SlotMap

variable {κ ν : Type*} [AddCommMonoid ν]

def sum (m : SlotMap κ ν) : ν := slotSum m.slots

variable [DecidableEq κ] {m : SlotMap κ ν} {k : κ} {v v₀ : ν}

theorem sum_set_new (h : m.get k = none) : (m.set k v).sum = m.sum + v := by
  rw [set, dif_pos h, sum, slotSum_append, slotSum, slotSum, add_zero]
  rfl

theorem sum_set_old (h : m.get k = some v₀) : (m.set k v).sum + v₀ = m.sum + v := by
  have halter := slotSum_alter (o := some v) m.nodup h
  rwa [set, dif_neg (by rw [h]; nofun)]

theorem sum_delete (h : m.get k = some v₀) : (m.delete k).sum + v₀ = m.sum := by
  simpa only [sum, delete, clearSlot_eq, Option.getD_none, add_zero] using
    slotSum_alter (o := none) m.nodup h

end SlotMap
