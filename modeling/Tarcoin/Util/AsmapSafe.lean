import Mathlib.Logic.Relation
import Tarcoin.Foundations.FallibleRun
import Tarcoin.Util.Asmap

/-! What the check accepts from a position on, with the targets of the jumps that are still open,
is safe to interpret from there and from each target. -/
namespace Tarcoin.Util.Asmap
open FallibleRun

variable {asmap ip data : List UInt8} {pos left n : ℕ}

/-! ## Decoding stays in the map -/

theorem consumeBitLE_ok (h : pos < data.length * 8) :
    ∃ bit, consumeBitLE pos data = .ok (bit, pos + 1) := by
  have hbyte : pos / 8 < data.length := by omega
  exact ⟨_, by rw [consumeBitLE, List.getElem?_eq_getElem hbyte]⟩

theorem decodeMantissa_ok (left val : ℕ) (h : pos ≤ data.length * 8) :
    ∃ r, decodeMantissa data left pos val = .ok r ∧ pos ≤ r.2 ∧ r.2 ≤ data.length * 8 := by
  induction left generalizing pos val with
  | zero => exact ⟨_, rfl, le_rfl, h⟩
  | succ left ih =>
    rw [decodeMantissa]
    by_cases hend : data.length * 8 ≤ pos
    · exact ⟨_, if_pos hend, le_rfl, h⟩
    · obtain ⟨bit, hbit⟩ := consumeBitLE_ok (not_le.1 hend)
      obtain ⟨r, hr, hlow, hhigh⟩ := ih ((val + bit.toNat * 2 ^ left) % 2 ^ 32) (not_le.1 hend)
      refine ⟨r, ?_, (Nat.le_succ pos).trans hlow, hhigh⟩
      rw [if_neg hend, hbit]
      exact hr

theorem decodeBits_ok (sizes : List ℕ) (val : ℕ) (h : pos ≤ data.length * 8) :
    ∃ r, decodeBits data sizes pos val = .ok r ∧ pos ≤ r.2 ∧ r.2 ≤ data.length * 8 := by
  induction sizes generalizing pos val with
  | nil => exact ⟨_, rfl, le_rfl, h⟩
  | cons size sizes ih =>
    cases sizes with
    | nil => exact decodeMantissa_ok size val h
    | cons next sizes =>
      rw [decodeBits]
      by_cases hend : data.length * 8 ≤ pos
      · exact ⟨_, if_pos hend, le_rfl, h⟩
      · obtain ⟨bit, hbit⟩ := consumeBitLE_ok (not_le.1 hend)
        rw [if_neg hend, hbit]
        cases bit with
        | true =>
          obtain ⟨r, hr, hlow, hhigh⟩ := ih ((val + 2 ^ size) % 2 ^ 32) (not_le.1 hend)
          exact ⟨r, hr, (Nat.le_succ pos).trans hlow, hhigh⟩
        | false =>
          obtain ⟨r, hr, hlow, hhigh⟩ := decodeMantissa_ok size val (not_le.1 hend)
          exact ⟨r, hr, (Nat.le_succ pos).trans hlow, hhigh⟩

theorem decodeType_ok (h : pos < data.length * 8) :
    ∃ op q, decodeType pos data = .ok (op, q) ∧ pos < q ∧ q ≤ data.length * 8 := by
  obtain ⟨bit, hbit⟩ := consumeBitLE_ok h
  have hbits : ∃ r, decodeBits data typeBitSizes pos 0 = .ok r ∧ pos < r.2 ∧
      r.2 ≤ data.length * 8 := by
    rw [typeBitSizes, decodeBits, if_neg (not_le.2 h), hbit]
    cases bit with
    | true => exact decodeBits_ok [0, 1] _ h
    | false => exact decodeMantissa_ok 0 0 h
  obtain ⟨r, hr, hlow, hhigh⟩ := hbits
  exact ⟨_, r.2, by rw [decodeType, hr]; rfl, hlow, hhigh⟩

/-! ## Positions that are safe to interpret from -/

/-- With `left` bits of any address left, the interpreter ends from the position with an answer,
after at most one instruction for each bit. -/
def Safe (asmap : List UInt8) (n pos left : ℕ) : Prop :=
  pos < asmap.length * 8 ∧ ∀ ip : List UInt8, ip.length = n → ∀ ipBit defaultAsn fuel,
    ipBit + left = n * 8 → asmap.length * 8 < fuel + pos →
      ∃ asn, interpretFrom asmap ip fuel ⟨pos, ipBit, defaultAsn⟩ = .ok asn

theorem consumeBitBE_ok (hip : ip.length ≤ 16) (h : pos < ip.length * 8) :
    ∃ bit, consumeBitBE pos ip = .ok (bit, pos + 1) := by
  have hbyte : pos / 8 < ip.length := by omega
  refine ⟨ip[pos / 8].toNat.testBit (7 - pos % 8), ?_⟩
  rw [consumeBitBE, List.getElem?_eq_getElem hbyte]
  simp [Nat.mod_eq_of_lt (show pos + 1 < 256 by omega)]

theorem compareBits_ok (hip : ip.length ≤ 16) (pattern : ℕ) (h : pos + left ≤ ip.length * 8) :
    ∃ r, compareBits ip pattern left pos = .ok r ∧ (r = none ∨ r = some (pos + left)) := by
  induction left generalizing pos with
  | zero => exact ⟨_, rfl, Or.inr rfl⟩
  | succ left ih =>
    obtain ⟨bit, hbit⟩ := consumeBitBE_ok hip (show pos < ip.length * 8 by omega)
    by_cases heq : bit = pattern.testBit left
    · obtain ⟨r, hr, hcases⟩ := ih (show pos + 1 + left ≤ ip.length * 8 by omega)
      refine ⟨r, ?_, ?_⟩
      · rw [compareBits, hbit]
        exact (if_pos heq).trans hr
      · rwa [Nat.add_comm left 1, ← Nat.add_assoc]
    · exact ⟨none, by rw [compareBits, hbit]; exact if_neg heq, Or.inl rfl⟩

section Instructions

variable {p q asn jump pattern : ℕ}

theorem safe_of_step (hpos : pos < asmap.length * 8)
    (h : ∀ ip : List UInt8, ip.length = n → ∀ ipBit defaultAsn, ipBit + left = n * 8 →
      (∃ asn, step asmap ip ⟨pos, ipBit, defaultAsn⟩ = .ok (.inl asn)) ∨
      ∃ c left', step asmap ip ⟨pos, ipBit, defaultAsn⟩ = .ok (.inr c) ∧ pos < c.pos ∧
        c.ipBit + left' = n * 8 ∧ Safe asmap n c.pos left') :
    Safe asmap n pos left := by
  refine ⟨hpos, ?_⟩
  intro ip hip ipBit defaultAsn fuel hleft hfuel
  obtain ⟨fuel, rfl⟩ : ∃ k, fuel = k + 1 := ⟨fuel - 1, by omega⟩
  rw [interpretFrom, if_pos hpos]
  rcases h ip hip ipBit defaultAsn hleft with ⟨asn, hstep⟩ | hnext
  · exact ⟨asn, by rw [hstep]; rfl⟩
  · obtain ⟨c, left', hstep, hlater, hleft', hsafe⟩ := hnext
    obtain ⟨asn, hrun⟩ := hsafe.2 ip hip c.ipBit c.defaultAsn fuel hleft' (by omega)
    exact ⟨asn, by rw [hstep]; exact hrun⟩

theorem safe_ret (hpos : pos < asmap.length * 8) (hop : decodeType pos asmap = .ok (some .ret, p))
    (hasn : decodeASN p asmap = .ok (asn, q)) (hvalid : asn ≠ invalid) :
    Safe asmap n pos left := by
  refine safe_of_step hpos ?_
  intro ip _ ipBit defaultAsn _
  refine Or.inl ⟨asn, ?_⟩
  simp only [step, hop]
  show (decodeASN p asmap >>= _) = _
  rw [hasn]
  exact if_neg hvalid

theorem safe_setDefault (hpos : pos < asmap.length * 8)
    (hop : decodeType pos asmap = .ok (some .setDefault, p))
    (hasn : decodeASN p asmap = .ok (asn, q)) (hvalid : asn ≠ invalid) (hlater : pos < q)
    (hnext : Safe asmap n q left) : Safe asmap n pos left := by
  refine safe_of_step hpos ?_
  intro ip _ ipBit defaultAsn hleft
  refine Or.inr ⟨⟨q, ipBit, asn⟩, left, ?_, hlater, hleft, hnext⟩
  simp only [step, hop]
  show (decodeASN p asmap >>= _) = _
  rw [hasn]
  exact if_neg hvalid

theorem ipBitsEnd_eq (hn : n ≤ 16) (hip : ip.length = n) : ipBitsEnd ip = n * 8 := by
  rw [ipBitsEnd, hip, Nat.mod_eq_of_lt (by omega)]

theorem safe_jump (hn : n ≤ 16) (hpos : pos < asmap.length * 8)
    (hop : decodeType pos asmap = .ok (some .jump, p))
    (hjump : decodeJump p asmap = .ok (jump, q)) (hvalid : jump ≠ invalid) (hlater : pos < q)
    (hleft : left ≠ 0) (hnext : Safe asmap n q (left - 1))
    (htarget : Safe asmap n (q + jump) (left - 1)) : Safe asmap n pos left := by
  refine safe_of_step hpos ?_
  intro ip hip ipBit defaultAsn hbits
  obtain ⟨bit, hbit⟩ := consumeBitBE_ok (hip ▸ hn) (show ipBit < ip.length * 8 by omega)
  have hgo : ¬(jump = invalid ∨ ipBit = ipBitsEnd ip ∨ asmap.length * 8 - q ≤ jump) := by
    have hrange := htarget.1
    rw [ipBitsEnd_eq hn hip]
    omega
  have hstep : step asmap ip ⟨pos, ipBit, defaultAsn⟩ =
      .ok (.inr ⟨if bit then q + jump else q, ipBit + 1, defaultAsn⟩) := by
    simp only [step, hop]
    show (decodeJump p asmap >>= _) = _
    rw [hjump]
    refine (if_neg hgo).trans ?_
    rw [hbit]
    rfl
  have hbits' : ipBit + 1 + (left - 1) = n * 8 := by omega
  cases bit with
  | true => exact Or.inr ⟨_, left - 1, hstep, hlater.trans_le (Nat.le_add_right q jump), hbits',
      htarget⟩
  | false => exact Or.inr ⟨_, left - 1, hstep, hlater, hbits', hnext⟩

theorem safe_compare (hn : n ≤ 16) (hpos : pos < asmap.length * 8)
    (hop : decodeType pos asmap = .ok (some .compare, p))
    (hpattern : decodeMatch p asmap = .ok (pattern, q)) (hvalid : pattern ≠ invalid)
    (hlater : pos < q) (hleft : matchlen pattern ≤ left)
    (hnext : Safe asmap n q (left - matchlen pattern)) : Safe asmap n pos left := by
  refine safe_of_step hpos ?_
  intro ip hip ipBit defaultAsn hbits
  obtain ⟨r, hr, hcases⟩ := compareBits_ok (hip ▸ hn) pattern
    (show ipBit + matchlen pattern ≤ ip.length * 8 by omega)
  have hgo : ¬(pattern = invalid ∨ (ipBitsEnd ip : ℤ) - ipBit < matchlen pattern) := by
    rw [ipBitsEnd_eq hn hip]
    omega
  have hstep : step asmap ip ⟨pos, ipBit, defaultAsn⟩ =
      (compareBits ip pattern (matchlen pattern) ipBit).bind (fun matched =>
        matched.elim (.ok (.inl defaultAsn)) fun ipBit => .ok (.inr ⟨q, ipBit, defaultAsn⟩)) := by
    simp only [step, hop]
    show (decodeMatch p asmap >>= _) = _
    rw [hpattern]
    refine (if_neg hgo).trans (congrArg _ (funext fun matched => ?_))
    cases matched <;> rfl
  rcases hcases with rfl | rfl
  · exact Or.inl ⟨defaultAsn, by rw [hstep, hr]; rfl⟩
  · exact Or.inr ⟨⟨q, ipBit + matchlen pattern, defaultAsn⟩, left - matchlen pattern,
      by rw [hstep, hr]; rfl, hlater,
      show ipBit + matchlen pattern + (left - matchlen pattern) = n * 8 by omega, hnext⟩

end Instructions

/-! ## The check -/

theorem zeroPadding_ok (h : pos + left ≤ asmap.length * 8) :
    ∃ b, zeroPadding asmap left pos = .ok b := by
  induction left generalizing pos with
  | zero => exact ⟨true, rfl⟩
  | succ left ih =>
    obtain ⟨bit, hbit⟩ := consumeBitLE_ok (show pos < asmap.length * 8 by omega)
    rw [zeroPadding, hbit]
    cases bit with
    | true => exact ⟨false, rfl⟩
    | false => exact ih (show pos + 1 + left ≤ asmap.length * 8 by omega)

/-- The position of the check and all its open targets are safe. -/
def AllSafe (asmap : List UInt8) (n : ℕ) (c : Check) : Prop :=
  Safe asmap n c.pos c.bits ∧ ∀ j ∈ c.jumps, Safe asmap n j.1 j.2

/-- What a step of the check says: it ends, or it goes on behind the instruction, and all was
safe if all is safe where it goes on. -/
def Sound (asmap : List UInt8) (n : ℕ) (c : Check) (r : Except Fault (Bool ⊕ Check)) : Prop :=
  (∃ answer, r = .ok (.inl answer) ∧ (answer = true → AllSafe asmap n c)) ∨
  ∃ next, r = .ok (.inr next) ∧ c.pos < next.pos ∧ next.pos ≤ asmap.length * 8 ∧
    (AllSafe asmap n next → AllSafe asmap n c)

theorem sound_refuse (c : Check) : Sound asmap n c (.ok (.inl false)) :=
  Or.inl ⟨false, rfl, fun h => Bool.noConfusion h⟩

section Steps

variable {c : Check} {p : ℕ} (hpos : c.pos < asmap.length * 8) (hlater : c.pos < p)
  (hp : p ≤ asmap.length * 8)

include hpos hlater hp

theorem sound_checkReturn (hop : decodeType c.pos asmap = .ok (some .ret, p)) :
    Sound asmap n c (checkReturn asmap c p) := by
  obtain ⟨⟨asn, q⟩, hasn, hq, hqend⟩ := decodeBits_ok asnBitSizes 1 hp
  have hasn : decodeASN p asmap = .ok (asn, q) := hasn
  unfold checkReturn
  split
  · exact sound_refuse c
  rw [hasn]
  show Sound asmap n c (if asn = invalid then _ else _)
  split
  · exact sound_refuse c
  rename_i hvalid
  have hsafe : Safe asmap n c.pos c.bits := safe_ret hpos hop hasn hvalid
  cases hjumps : c.jumps with
  | nil =>
    dsimp only
    split
    · exact sound_refuse c
    · obtain ⟨b, hb⟩ := zeroPadding_ok (show q + (asmap.length * 8 - q) ≤ asmap.length * 8 by omega)
      rw [hb]
      exact Or.inl ⟨b, rfl, fun _ => ⟨hsafe, by simp [hjumps]⟩⟩
  | cons target jumps =>
    dsimp only
    split
    · exact sound_refuse c
    · rename_i htarget
      rw [not_not] at htarget
      refine Or.inr ⟨_, rfl, hlater.trans_le hq, hqend, ?_⟩
      rintro ⟨hnext, hrest⟩
      rw [AllSafe, hjumps]
      exact ⟨hsafe, List.forall_mem_cons.2 ⟨htarget ▸ hnext, hrest⟩⟩

theorem sound_checkJump (hsize : asmap.length < 2 ^ 29) (hn : n ≤ 16)
    (hop : decodeType c.pos asmap = .ok (some .jump, p)) :
    Sound asmap n c (checkJump asmap c p) := by
  obtain ⟨⟨jump, q⟩, hjump, hq, hqend⟩ := decodeBits_ok jumpBitSizes 17 hp
  have hjump : decodeJump p asmap = .ok (jump, q) := hjump
  unfold checkJump
  rw [hjump]
  show Sound asmap n c (if jump = invalid ∨ asmap.length * 8 - q < jump ∨ c.bits = 0 then _ else _)
  split
  · exact sound_refuse c
  rename_i hgo
  rw [not_or, not_or] at hgo
  have hoffset : (q + jump) % 2 ^ 32 = q + jump := Nat.mod_eq_of_lt (by omega)
  split
  · exact sound_refuse c
  refine Or.inr ⟨_, rfl, hlater.trans_le hq, hqend, ?_⟩
  rintro ⟨hnext, hrest⟩
  obtain ⟨htarget, hrest⟩ := List.forall_mem_cons.1 hrest
  rw [hoffset] at htarget
  exact ⟨safe_jump hn hpos hop hjump hgo.1 (hlater.trans_le hq) hgo.2.2 hnext htarget, hrest⟩

theorem sound_checkMatch (hn : n ≤ 16) (hop : decodeType c.pos asmap = .ok (some .compare, p)) :
    Sound asmap n c (checkMatch asmap c p) := by
  obtain ⟨⟨pattern, q⟩, hpattern, hq, hqend⟩ := decodeBits_ok matchBitSizes 2 hp
  have hpattern : decodeMatch p asmap = .ok (pattern, q) := hpattern
  unfold checkMatch
  rw [hpattern]
  show Sound asmap n c (if pattern = invalid ∨ matchlen pattern < 8 ∧
    (c.prevopcode = .compare ∧ c.hadIncompleteMatch) ∨ c.bits < matchlen pattern then _ else _)
  split
  · exact sound_refuse c
  rename_i hgo
  rw [not_or, not_or, not_lt] at hgo
  refine Or.inr ⟨_, rfl, hlater.trans_le hq, hqend, ?_⟩
  rintro ⟨hnext, hrest⟩
  exact ⟨safe_compare hn hpos hop hpattern hgo.1 (hlater.trans_le hq) hgo.2.2 hnext, hrest⟩

theorem sound_checkDefault (hop : decodeType c.pos asmap = .ok (some .setDefault, p)) :
    Sound asmap n c (checkDefault asmap c p) := by
  obtain ⟨⟨asn, q⟩, hasn, hq, hqend⟩ := decodeBits_ok asnBitSizes 1 hp
  have hasn : decodeASN p asmap = .ok (asn, q) := hasn
  unfold checkDefault
  split
  · exact sound_refuse c
  rw [hasn]
  show Sound asmap n c (if asn = invalid then _ else _)
  split
  · exact sound_refuse c
  rename_i hvalid
  refine Or.inr ⟨_, rfl, hlater.trans_le hq, hqend, ?_⟩
  rintro ⟨hnext, hrest⟩
  exact ⟨safe_setDefault hpos hop hasn hvalid (hlater.trans_le hq) hnext, hrest⟩

end Steps

theorem sound_checkStep (hsize : asmap.length < 2 ^ 29) (hn : n ≤ 16) {c : Check}
    (hpos : c.pos < asmap.length * 8) : Sound asmap n c (checkStep asmap c) := by
  obtain ⟨op, p, hop, hlater, hp⟩ := decodeType_ok hpos
  unfold checkStep
  rw [hop]
  cases op with
  | none => exact sound_refuse c
  | some op =>
    cases op with
    | ret => exact sound_checkReturn hpos hlater hp hop
    | jump => exact sound_checkJump hpos hlater hp hsize hn hop
    | compare => exact sound_checkMatch hpos hlater hp hn hop
    | setDefault => exact sound_checkDefault hpos hlater hp hop

/-- The check ends, and what it accepts is safe from where it is and from every open target. -/
theorem checkFrom_spec (hsize : asmap.length < 2 ^ 29) (hn : n ≤ 16) (fuel : ℕ) (c : Check)
    (hpos : c.pos ≤ asmap.length * 8) (hfuel : asmap.length * 8 < fuel + c.pos) :
    ∃ answer, checkFrom asmap fuel c = .ok answer ∧ (answer = true → AllSafe asmap n c) := by
  induction fuel generalizing c with
  | zero => omega
  | succ fuel ih =>
    have hrefuse : ∃ answer, Except.ok (ε := Fault) false = .ok answer ∧
        (answer = true → AllSafe asmap n c) :=
      ⟨false, rfl, fun h => Bool.noConfusion h⟩
    rw [checkFrom]
    split
    · exact hrefuse
    rename_i hend
    split
    · exact hrefuse
    have hpos' := lt_of_le_of_ne hpos hend
    rcases sound_checkStep hsize hn hpos' with ⟨answer, hstep, hanswer⟩ | hgo
    · exact ⟨answer, by rw [hstep]; rfl, hanswer⟩
    · obtain ⟨next, hstep, hlater, hnext, hsafe⟩ := hgo
      obtain ⟨answer, hrun, hanswer⟩ := ih next hnext (by omega)
      exact ⟨answer, by rw [hstep]; exact hrun, fun h => hsafe (hanswer h)⟩

/-! ## Where the answer comes from -/

def Visits (asmap ip : List UInt8) (c : Cursor) : Prop :=
  Relation.ReflTransGen (fun c d => step asmap ip c = .ok (.inr d)) ⟨0, 0, 0⟩ c

/-- The instruction at the cursor gives the number, in a return or a default. -/
def Gives (asmap : List UInt8) (c : Cursor) (asn : ℕ) : Prop :=
  ∃ op p q, decodeType c.pos asmap = .ok (some op, p) ∧ (op = .ret ∨ op = .setDefault) ∧
    decodeASN p asmap = .ok (asn, q) ∧ asn ≠ invalid

/-- A number of the map, in an instruction that the interpreter comes to. -/
def Decoded (asmap ip : List UInt8) (asn : ℕ) : Prop := ∃ c, Visits asmap ip c ∧ Gives asmap c asn

theorem step_gives {c : Cursor} {r : ℕ ⊕ Cursor} (h : step asmap ip c = .ok r) :
    r.elim id Cursor.defaultAsn = c.defaultAsn ∨ Gives asmap c (r.elim id Cursor.defaultAsn) := by
  obtain ⟨⟨op, p⟩, hop, h⟩ := bind_eq_ok_iff.1 h
  rcases op with _ | op
  · cases h
  cases op with
  | ret =>
    obtain ⟨⟨asn, q⟩, hasn, h⟩ := bind_eq_ok_iff.1 h
    split_ifs at h with hvalid
    cases h
    exact Or.inr ⟨.ret, p, q, hop, Or.inl rfl, hasn, hvalid⟩
  | jump =>
    obtain ⟨⟨jump, q⟩, -, h⟩ := bind_eq_ok_iff.1 h
    split_ifs at h
    obtain ⟨bit, -, h⟩ := bind_eq_ok_iff.1 h
    cases h
    exact Or.inl rfl
  | compare =>
    obtain ⟨⟨pattern, q⟩, -, h⟩ := bind_eq_ok_iff.1 h
    split_ifs at h
    obtain ⟨matched, -, h⟩ := bind_eq_ok_iff.1 h
    cases matched <;> cases h <;> exact Or.inl rfl
  | setDefault =>
    obtain ⟨⟨asn, q⟩, hasn, h⟩ := bind_eq_ok_iff.1 h
    split_ifs at h with hvalid
    cases h
    exact Or.inr ⟨.setDefault, p, q, hop, Or.inr rfl, hasn, hvalid⟩

theorem interpretFrom_decoded (fuel : ℕ) {c : Cursor} {asn : ℕ} (hc : Visits asmap ip c)
    (hdefault : c.defaultAsn = 0 ∨ Decoded asmap ip c.defaultAsn)
    (h : interpretFrom asmap ip fuel c = .ok asn) : asn = 0 ∨ Decoded asmap ip asn := by
  induction fuel generalizing c with
  | zero => cases h
  | succ fuel ih =>
    rw [interpretFrom] at h
    split_ifs at h
    obtain ⟨next, hstep, h⟩ := bind_eq_ok_iff.1 h
    -- The default or the number that the instruction gives: both are answers.
    have hnext : next.elim id Cursor.defaultAsn = 0 ∨
        Decoded asmap ip (next.elim id Cursor.defaultAsn) := by
      rcases step_gives hstep with heq | hgives
      · exact heq ▸ hdefault
      · exact Or.inr ⟨c, hc, hgives⟩
    cases next with
    | inl answer =>
      cases h
      exact hnext
    | inr d => exact ih (hc.tail hstep) hnext h

/-- A map that passes the check for addresses of `n` bytes is interpreted for each of them
without a fault, and the answer is zero or a number of the map. -/
theorem interpret_of_sanityCheckAsmap (asmap : List UInt8) (hsize : asmap.length < 2 ^ 29) (n : ℕ)
    (hn : n ≤ 16) (hcheck : sanityCheckAsmap asmap (8 * n) = .ok true) (ip : List UInt8)
    (hip : ip.length = n) :
    ∃ asn, interpret asmap ip = .ok asn ∧ (asn = 0 ∨ Decoded asmap ip asn) := by
  obtain ⟨answer, hrun, hanswer⟩ := checkFrom_spec hsize hn (asmap.length * 8 + 1)
    ⟨0, 8 * n, [], .jump, false⟩ (Nat.zero_le _) (Nat.lt_succ_self _)
  obtain rfl : answer = true := Except.ok.inj (hrun.symm.trans hcheck)
  obtain ⟨asn, hasn⟩ := (hanswer rfl).1.2 ip hip 0 0 (asmap.length * 8 + 1)
    (show 0 + 8 * n = n * 8 by omega) (Nat.lt_succ_self _)
  exact ⟨asn, hasn, interpretFrom_decoded _ .refl (Or.inl rfl) hasn⟩

theorem interpret_of_sanityCheckAsmap_branch :
    sanityCheckAsmap [1, 0, 0, 0, 0, 2] (8 * 1) = .ok true ∧
      interpret [1, 0, 0, 0, 0, 2] [0x80] = .ok 2 ∧
      ∃ asn, interpret [1, 0, 0, 0, 0, 2] [0x80] = .ok asn ∧
        (asn = 0 ∨ Decoded [1, 0, 0, 0, 0, 2] [0x80] asn) :=
  ⟨rfl, rfl, interpret_of_sanityCheckAsmap [1, 0, 0, 0, 0, 2] (by decide) 1 (by decide) rfl [0x80] rfl⟩

end Tarcoin.Util.Asmap
