import Mathlib.Data.Finmap
import Mathlib.Tactic

/-! Lookups in a finite map after an insertion or an erasure, and sums over its values. -/
namespace FinmapLookup

variable {α β : Type*} [DecidableEq α]

theorem lookup_insert_eq (m : Finmap fun _ : α => β) (a x : α) (b : β) :
    (m.insert a b).lookup x = if x = a then some b else m.lookup x := by
  split_ifs with h
  · rw [h, Finmap.lookup_insert]
  · exact Finmap.lookup_insert_of_ne m h

theorem lookup_erase_eq (m : Finmap fun _ : α => β) (a x : α) :
    (m.erase a).lookup x = if x = a then none else m.lookup x := by
  split_ifs with h
  · rw [h, Finmap.lookup_erase]
  · exact Finmap.lookup_erase_ne h

variable {m : Finmap fun _ : α => β} {a : α} {b : β}

theorem insert_erase_of_lookup (h : m.lookup a = some b) : (m.erase a).insert a b = m := by
  apply Finmap.ext_lookup
  intro x
  rw [lookup_insert_eq, lookup_erase_eq]
  split_ifs with hx
  · rw [hx, h]
  · rfl

theorem erase_insert_of_lookup_none (h : m.lookup a = none) : (m.insert a b).erase a = m := by
  apply Finmap.ext_lookup
  intro x
  rw [lookup_erase_eq, lookup_insert_eq]
  split_ifs with hx
  · rw [hx, h]
  · rfl

end FinmapLookup

namespace FinmapSum
open FinmapLookup

variable {α β : Type*}

def total (f : β → ℤ) (m : Finmap fun _ : α => β) : ℤ := (m.entries.map fun e => f e.2).sum

@[simp] theorem total_empty (f : β → ℤ) : total f (∅ : Finmap fun _ : α => β) = 0 := rfl

variable [DecidableEq α] {m : Finmap fun _ : α => β} {a : α} {b : β} (f : β → ℤ)

end FinmapSum
