import Tarcoin.Script.Interpreter

/-! What each access needs and leaves. `Held p c k` says that the machine is at the rest `p` of
its script with `c` operations counted and at least `k` small elements on its stack. -/
namespace Tarcoin.Script
open Ruled

structure Held (p : Script) (c k : ℕ) (s : Machine) : Prop where
  pc : s.pc = p
  counted : s.nOpCount = c
  deep : k ≤ s.stack.length
  small : ∀ v ∈ s.stack, v.length ≤ maxScriptElementSize
  smallAlt : ∀ v ∈ s.altstack, v.length ≤ maxScriptElementSize

theorem Held.shallow {p : Script} {c k j : ℕ} {s : Machine} (h : Held p c k s) (hj : j ≤ k) :
    Held p c j s :=
  { h with deep := hj.trans h.deep }

def Machine.Bounded (s : Machine) : Prop := s.stack.length + s.altstack.length ≤ maxStackSize

/-- The operation keeps to the stack and leaves its machine at the same place. -/
def Keeps (m : Op Unit) : Prop :=
  ∀ p c, Meets Stop.Allowed (Held p c 0) m fun _ => Held p c 0

theorem allowed_error (e : ScriptError) : (Stop.error e).Allowed := rfl

theorem allowed_scriptNum : Stop.scriptNum.Allowed := rfl

theorem allowed_assertion : Stop.assertion.Allowed := rfl

section

variable {p : Script} {c k : ℕ}

variable {P : Machine → Prop} {q : Prop} {i : ℕ} {v : List UInt8}

theorem Held.settle {m : Op Unit} (h : Meets Stop.Allowed P m fun _ => Held p c k) :
    Meets Stop.Allowed P m fun _ => Held p c 0 :=
  h.weaken (fun _ hs => hs) fun _ _ hs => hs.shallow (Nat.zero_le k)

theorem meets_setError {α : Type} {Q : α → Machine → Prop} (e : ScriptError) :
    Meets Stop.Allowed P (setError e : Op α) Q :=
  meets_fail (allowed_error e)

theorem meets_ensure [Decidable q] (e : ScriptError) :
    Meets Stop.Allowed P (ensure q e) fun _ s => q ∧ P s :=
  meets_require fun _ => allowed_error e

theorem keeps_ensure [Decidable q] (e : ScriptError) :
    Meets Stop.Allowed P (ensure q e) fun _ => P :=
  (meets_ensure e).weaken (fun _ hs => hs) fun _ _ hs => hs.2

theorem keeps_demand_ensure [Decidable q] (x : ScriptFlag) (e : ScriptError) :
    Meets Stop.Allowed P (demand x (ensure q e)) fun _ => P :=
  meets_demand (keeps_ensure e)

theorem meets_need (j : ℕ) : Meets Stop.Allowed P (need j) fun _ s => j ≤ s.stack.length ∧ P s := by
  apply meets_look_bind
  intro s hs
  apply (meets_ensure _).weaken fun _ ht => ht
  intro _ t ht
  rw [ht.2]
  exact ⟨ht.1, hs⟩

theorem held_need (j : ℕ) : Meets Stop.Allowed (Held p c k) (need j) fun _ => Held p c j :=
  (meets_need j).weaken (fun _ hs => hs) fun _ _ hs => { hs.2 with deep := hs.1 }

theorem keeps_need (j : ℕ) {m : Op Unit}
    (h : ∀ p c, Meets Stop.Allowed (Held p c j) m fun _ => Held p c 0) :
    Keeps (need j >>= fun _ => m) := fun p c => (held_need j).next (h p c)

theorem held_top (hi : 1 ≤ i ∧ i ≤ k) :
    Meets Stop.Allowed (Held p c k) (top i) fun v s =>
      v.length ≤ maxScriptElementSize ∧ Held p c k s := by
  obtain ⟨i, rfl⟩ := Nat.exists_eq_add_of_le' hi.1
  apply meets_lift
  intro s hs
  have hlt : i < s.stack.length := by
    have := hs.deep
    omega
  rw [List.getElem?_eq_getElem hlt]
  exact ⟨hs.small _ (List.getElem_mem hlt), hs⟩

theorem held_pop : Meets Stop.Allowed (Held p c (k + 1)) pop fun _ => Held p c k := by
  apply meets_lift
  intro s hs
  cases hstack : s.stack with
  | nil =>
    have hdeep := hs.deep
    rw [hstack, List.length_nil] at hdeep
    omega
  | cons v rest =>
    have hdeep := hs.deep
    have hsmall := hs.small
    rw [hstack] at hdeep
    rw [hstack] at hsmall
    exact { hs with
      deep := Nat.le_of_succ_le_succ hdeep
      small := fun w hw => hsmall w (List.mem_cons_of_mem v hw) }

theorem held_push (hv : v.length ≤ maxScriptElementSize) :
    Meets Stop.Allowed (Held p c k) (push v) fun _ => Held p c (k + 1) := by
  apply meets_change
  intro s hs
  exact { hs with
    deep := Nat.succ_le_succ hs.deep
    small := List.forall_mem_cons.mpr ⟨hv, hs.small⟩ }

theorem held_eraseAt (hi : 1 ≤ i ∧ i ≤ k + 1) :
    Meets Stop.Allowed (Held p c (k + 1)) (eraseAt i) fun _ => Held p c k := by
  obtain ⟨i, rfl⟩ := Nat.exists_eq_add_of_le' hi.1
  apply meets_lift
  intro s hs
  have hdeep := hs.deep
  have hlt : i < s.stack.length := by omega
  rw [if_pos hlt]
  exact { hs with
    deep := by
      rw [List.length_eraseIdx_of_lt hlt]
      omega
    small := fun v hv => hs.small v (List.mem_of_mem_eraseIdx hv) }

theorem held_insertAt (hi : i ≤ k) (hv : v.length ≤ maxScriptElementSize) :
    Meets Stop.Allowed (Held p c k) (insertAt i v) fun _ => Held p c (k + 1) := by
  apply meets_lift
  intro s hs
  have hle : i ≤ s.stack.length := hi.trans hs.deep
  rw [if_pos hle]
  exact { hs with
    deep := by
      rw [List.length_insertIdx_of_le_length hle]
      exact Nat.succ_le_succ hs.deep
    small := by
      intro w hw
      obtain rfl | hw := (List.mem_insertIdx hle).mp hw
      · exact hv
      · exact hs.small w hw }

theorem held_setTop (hi : 1 ≤ i ∧ i ≤ k) (hv : v.length ≤ maxScriptElementSize) :
    Meets Stop.Allowed (Held p c k) (setTop i v) fun _ => Held p c k := by
  obtain ⟨i, rfl⟩ := Nat.exists_eq_add_of_le' hi.1
  apply meets_lift
  intro s hs
  have hlt : i < s.stack.length := by
    have := hs.deep
    omega
  rw [if_pos hlt]
  exact { hs with
    deep := by
      rw [List.length_set]
      exact hs.deep
    small := by
      intro w hw
      obtain hw | rfl := List.mem_or_eq_of_mem_set hw
      · exact hs.small w hw
      · exact hv }

theorem held_swapTops {j : ℕ} (hi : 1 ≤ i ∧ i ≤ k) (hj : 1 ≤ j ∧ j ≤ k) :
    Meets Stop.Allowed (Held p c k) (swapTops i j) fun _ => Held p c k := by
  apply (held_top hi).bindFact
  intro vi hvi
  apply (held_top hj).bindFact
  intro vj hvj
  apply (held_setTop hi hvj).bind
  intro _
  exact held_setTop hj hvi

theorem held_pushAlt (hv : v.length ≤ maxScriptElementSize) :
    Meets Stop.Allowed (Held p c k) (pushAlt v) fun _ => Held p c k := by
  apply meets_change
  intro s hs
  exact { hs with smallAlt := List.forall_mem_cons.mpr ⟨hv, hs.smallAlt⟩ }

theorem held_popAlt :
    Meets Stop.Allowed (fun s => Held p c k s ∧ 1 ≤ s.altstack.length) popAlt fun v s =>
      v.length ≤ maxScriptElementSize ∧ Held p c k s := by
  apply meets_lift
  intro s hs
  obtain ⟨hs, halt⟩ := hs
  have hsmall := hs.smallAlt
  cases hstack : s.altstack with
  | nil =>
    rw [hstack, List.length_nil] at halt
    omega
  | cons v rest =>
    rw [hstack] at hsmall
    exact ⟨hsmall v List.mem_cons_self, { hs with
      smallAlt := fun w hw => hsmall w (List.mem_cons_of_mem v hw) }⟩

end

/-! ### Numbers -/

theorem leValue_concat (l : List UInt8) (b : UInt8) :
    leValue (l ++ [b]) = leValue l + b.toNat * 256 ^ l.length := by
  induction l with
  | nil => simp [leValue]
  | cons a l ih =>
    rw [List.cons_append, leValue, leValue, ih, List.length_cons]
    ring

theorem forall_byte {q : UInt8 → Prop} (h : ∀ n : Fin 256, q (UInt8.ofNat n)) (b : UInt8) :
    q b := by
  have hb := h ⟨b.toNat, b.toNat_lt⟩
  rwa [UInt8.ofNat_toNat] at hb

theorem signBit_byte (b : UInt8) : b &&& 0x80 ≠ 0 ↔ 128 ≤ b.toNat :=
  forall_byte (q := fun b => b &&& 0x80 ≠ 0 ↔ 128 ≤ b.toNat) (by decide +kernel) b

theorem natAbs_setVch_lt {vch : List UInt8} {n : ℕ} (h : vch.length ≤ n + 1) :
    (setVch vch).natAbs < 128 * 256 ^ n := by
  cases vch using List.reverseRecOn with
  | nil => simp [setVch]
  | append_singleton l b =>
    rw [List.length_append, List.length_singleton] at h
    have hmono : 256 ^ l.length ≤ 256 ^ n := Nat.pow_le_pow_right (by norm_num) (by omega)
    have hlow := leValue_lt l
    have hbyte := b.toNat_lt
    have hbit := signBit_byte b
    simp only [setVch, List.getLast?_concat, leValue_concat, List.length_append,
      List.length_singleton, Nat.add_sub_cancel]
    split
    · rename_i hneg
      have hhigh : (b.toNat - 128) * 256 ^ l.length ≤ 127 * 256 ^ l.length :=
        Nat.mul_le_mul_right _ (by omega)
      have hsplit := Nat.sub_mul b.toNat 128 (256 ^ l.length)
      omega
    · rename_i hpos
      have hhigh : b.toNat * 256 ^ l.length ≤ 127 * 256 ^ l.length :=
        Nat.mul_le_mul_right _ (by
          have := mt hbit.mpr hpos
          omega)
      omega

theorem scriptNum_run {F : Finset ScriptFlag} {s : Machine} {vch : List UInt8} {n : ℕ}
    (hlen : vch.length ≤ n) (hmin : .minimalData ∈ F → isMinimalNum vch)
    (hrange : (setVch vch).natAbs < 2 ^ 63) :
    (scriptNum vch n).run F s = .ok (⟨setVch vch, by omega, by omega⟩, s) := by
  have hminimal : (demand .minimalData (require (isMinimalNum vch) Stop.scriptNum) : Op Unit).run F
      s = .ok ((), s) := by
    by_cases hflag : .minimalData ∈ F
    · simp only [demand, if_pos hflag, run_require _ F s (hmin hflag)]
      rfl
    · exact run_demand_of_notMem _ s hflag
  rw [scriptNum, run_bind_of_ok (run_require _ F s hlen), run_bind_of_ok hminimal, number,
    dif_pos (by omega)]
  rfl

theorem magnitudeBytes_length (room n : ℕ) : (magnitudeBytes room n).length ≤ room := by
  induction room generalizing n with
  | zero => exact le_rfl
  | succ room ih =>
    rw [magnitudeBytes]
    split
    · exact Nat.zero_le _
    · exact Nat.succ_le_succ (ih _)

theorem getvch_length (n : ScriptNum) : n.getvch.length ≤ maxScriptElementSize := by
  have hlen := magnitudeBytes_length 8 n.value.natAbs
  have hmax : maxScriptElementSize = 520 := rfl
  simp only [ScriptNum.getvch, scriptNumSerialize]
  split
  · exact Nat.zero_le _
  · split
    · rw [List.length_append, List.length_singleton]
      omega
    · split
      · rw [List.length_append, List.length_dropLast, List.length_singleton]
        omega
      · omega

theorem boolean_length (b : Bool) : (boolean b).length ≤ maxScriptElementSize := by
  cases b <;> decide

section

variable {p : Script} {c k : ℕ} {P : Machine → Prop}

theorem meets_number {n : ℤ} (h : n.natAbs < 2 ^ 63) :
    Meets Stop.Allowed P (number n) fun bn s => bn.value = n ∧ P s := by
  unfold number
  rw [dif_pos (by omega)]
  exact meets_pure fun s hs => ⟨rfl, hs⟩

variable {vch : List UInt8} {n i : ℕ}

theorem meets_scriptNum_value (hn : n ≤ 7) :
    Meets Stop.Allowed P (scriptNum vch (n + 1)) fun bn s =>
      (bn.value = setVch vch ∧ bn.value.natAbs < 128 * 256 ^ n) ∧ P s := by
  apply (meets_require fun _ => allowed_scriptNum).bindFact
  intro _ hlen
  apply (meets_demand (meets_require fun _ => allowed_scriptNum)).bind
  intro _
  have hvch := natAbs_setVch_lt hlen
  have hpow : 256 ^ n ≤ 256 ^ 7 := Nat.pow_le_pow_right (by norm_num) hn
  apply (meets_number (by omega)).weaken fun _ hs => hs
  intro bn s hbn
  rw [hbn.1]
  exact ⟨⟨rfl, hvch⟩, hbn.2⟩

theorem held_numAt (n : ℕ) (hn : n ≤ 7) (hi : 1 ≤ i ∧ i ≤ k) :
    Meets Stop.Allowed (Held p c k) (numAt i (n + 1)) fun bn s =>
      bn.value.natAbs < 128 * 256 ^ n ∧ Held p c k s := by
  apply (held_top hi).bindFact
  intro vch _
  exact (meets_scriptNum_value hn).weaken (fun _ hs => hs) fun _ _ hs => ⟨hs.1.2, hs.2⟩

theorem held_operand (hi : 1 ≤ i ∧ i ≤ k) :
    Meets Stop.Allowed (Held p c k) (numAt i nDefaultMaxNumSize) fun bn s =>
      bn.value.natAbs < 2 ^ 31 ∧ Held p c k s :=
  held_numAt 3 (by norm_num) hi

end

end Tarcoin.Script
