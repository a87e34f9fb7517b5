import Mathlib.Data.Nat.Bitwise
import Tarcoin.Serialize.TxCodec

/-! Transactions have one encoding: what is written is read back, and what is read is what would
have been written. -/
namespace Tarcoin
open StreamCodec GuardedSum

section Sizes

theorem leBytes_leValue (bytes : List UInt8) : leBytes bytes.length (leValue bytes) = bytes := by
  induction bytes with
  | nil => rfl
  | cons b bytes ih =>
    have hb := b.toNat_lt
    have hlow : (b.toNat + 256 * leValue bytes) % 256 = b.toNat := by omega
    have hhigh : (b.toNat + 256 * leValue bytes) / 256 = leValue bytes := by omega
    rw [leValue, List.length_cons, leBytes, hlow, hhigh, ih, UInt8.ofNat_toNat]

variable {w n : ℕ} {bytes rest : List UInt8}

theorem readData_ok (h : readData w bytes = .ok (n, rest)) :
    bytes = leBytes w n ++ rest ∧ n < 256 ^ w := by
  obtain ⟨xs, hxs, rfl⟩ := Reader.map_eq_ok_iff.mp h
  obtain ⟨rfl, rfl⟩ := Reader.take_eq_ok hxs
  exact ⟨by rw [leBytes_leValue], leValue_lt xs⟩

theorem readCanonical_ok {least : ℕ} (h : readCanonical w least bytes = .ok (n, rest)) :
    bytes = leBytes w n ++ rest ∧ least ≤ n ∧ n < 256 ^ w := by
  obtain ⟨m, mid, hm, hcheck⟩ := Reader.bind_eq_ok_iff.mp h
  obtain ⟨rfl, hlt⟩ := readData_ok hm
  split_ifs at hcheck with hle
  · cases hcheck
  · obtain ⟨rfl, rfl⟩ := Reader.pure_eq_ok_iff.mp hcheck
    exact ⟨rfl, not_lt.mp hle, hlt⟩

theorem readCompactSize_ok (h : readCompactSize true bytes = .ok (n, rest)) :
    bytes = writeCompactSize n ++ rest ∧ n ≤ maxSize := by
  obtain ⟨m, mid, hsize, hcheck⟩ := Reader.bind_eq_ok_iff.mp h
  split_ifs at hcheck with hrange
  · cases hcheck
  obtain ⟨rfl, rfl⟩ := Reader.pure_eq_ok_iff.mp hcheck
  refine ⟨?_, by simpa using hrange⟩
  obtain ⟨chSize, mid', hch, hm⟩ := Reader.bind_eq_ok_iff.mp hsize
  obtain ⟨rfl, hlt⟩ := readData_ok hch
  unfold writeCompactSize
  split_ifs at hm with h₁ h₂ h₃
  · obtain ⟨rfl, rfl⟩ := Reader.pure_eq_ok_iff.mp hm
    rw [if_pos h₁]
  · obtain ⟨rfl, hle, hlt⟩ := readCanonical_ok hm
    rw [if_neg (by omega), if_pos (by omega), h₂, List.append_assoc]
  · obtain ⟨rfl, hle, hlt⟩ := readCanonical_ok hm
    rw [if_neg (by omega), if_neg (by omega), if_pos (by omega), h₃, List.append_assoc]
  · obtain ⟨rfl, hle, hlt'⟩ := readCanonical_ok hm
    have hch : chSize = 255 := by omega
    rw [if_neg (by omega), if_neg (by omega), if_neg (by omega), hch, List.append_assoc]

theorem canonical_vector {α : Type} {read : ByteReader α} {write : α → List UInt8}
    (h : Canonical read write) : Canonical (readVector read) (writeVector write) := by
  intro bytes xs rest hread
  obtain ⟨n, mid, hn, hmany⟩ := Reader.bind_eq_ok_iff.mp hread
  obtain ⟨rfl, -⟩ := readCompactSize_ok hn
  obtain ⟨rfl, rfl⟩ := h.many hmany
  rw [writeVector, List.append_assoc]

theorem canonical_bytes : Canonical readBytes writeBytes := by
  intro bytes xs rest hread
  obtain ⟨n, mid, hn, htake⟩ := Reader.bind_eq_ok_iff.mp hread
  obtain ⟨rfl, -⟩ := readCompactSize_ok hn
  obtain ⟨rfl, rfl⟩ := Reader.take_eq_ok htake
  rw [writeBytes, List.append_assoc]

end Sizes

section Parts

theorem canonical_outPoint : Canonical OutPoint.unserialize OutPoint.serialize := by
  intro bytes o rest h
  obtain ⟨hash, mid, hhash, h⟩ := Reader.bind_eq_ok_iff.mp h
  obtain ⟨n, hn, rfl⟩ := Reader.map_eq_ok_iff.mp h
  obtain ⟨rfl, hlt⟩ := readData_ok hhash
  obtain ⟨rfl, -⟩ := readData_ok hn
  have hvalue : (BitVec.ofNat 256 hash).toNat = hash := by
    exact Nat.mod_eq_of_lt hlt
  rw [OutPoint.serialize, hvalue, List.append_assoc]

theorem canonical_txIn : Canonical TxIn.unserialize TxIn.serialize := by
  intro bytes i rest h
  obtain ⟨prevout, mid, hprevout, h⟩ := Reader.bind_eq_ok_iff.mp h
  obtain ⟨scriptSig, mid', hscript, h⟩ := Reader.bind_eq_ok_iff.mp h
  obtain ⟨nSequence, hsequence, rfl⟩ := Reader.map_eq_ok_iff.mp h
  rw [canonical_outPoint _ _ _ hprevout, canonical_bytes _ _ _ hscript, (readData_ok hsequence).1,
    TxIn.serialize]
  simp only [List.append_assoc]

theorem wrap_emod_toNat {n : ℕ} (h : n < 2 ^ 64) : (wrap 64 (n : ℤ) % 2 ^ 64).toNat = n := by
  unfold wrap
  omega

theorem canonical_txOut : Canonical TxOut.unserialize TxOut.serialize := by
  intro bytes o rest h
  obtain ⟨nValue, mid, hvalue, h⟩ := Reader.bind_eq_ok_iff.mp h
  obtain ⟨scriptPubKey, hscript, rfl⟩ := Reader.map_eq_ok_iff.mp h
  obtain ⟨rfl, hlt⟩ := readData_ok hvalue
  rw [canonical_bytes _ _ _ hscript, TxOut.serialize, wrap_emod_toNat hlt, List.append_assoc]

theorem readWitnesses_ok {vin vin' : List TxIn} {bytes rest : List UInt8}
    (h : readWitnesses vin bytes = .ok (vin', rest)) :
    bytes = vin'.flatMap writeWitness ++ rest ∧ vin'.length = vin.length ∧
      vin'.flatMap TxIn.serialize = vin.flatMap TxIn.serialize := by
  induction vin generalizing bytes vin' with
  | nil =>
    obtain ⟨rfl, rfl⟩ := Reader.pure_eq_ok_iff.mp h
    exact ⟨rfl, rfl, rfl⟩
  | cons i vin ih =>
    obtain ⟨stack, mid, hstack, h⟩ := Reader.bind_eq_ok_iff.mp h
    obtain ⟨tail, htail, rfl⟩ := Reader.map_eq_ok_iff.mp h
    obtain ⟨rfl, hlen, hsame⟩ := ih htail
    refine ⟨?_, by rw [List.length_cons, hlen, List.length_cons], ?_⟩
    · rw [canonical_vector canonical_bytes _ _ _ hstack, List.flatMap_cons, List.append_assoc]
      rfl
    · rw [List.flatMap_cons, hsame]
      rfl

end Parts

section Witnesses

variable {vin : List TxIn} {tx : Transaction}

theorem hasWitness_eq_false_iff :
    Transaction.hasWitness vin = false ↔ ∀ i ∈ vin, i.scriptWitness = [] := by
  simp [Transaction.hasWitness]

theorem map_withoutWitness (h : Transaction.hasWitness vin = false) :
    vin.map TxIn.withoutWitness = vin := by
  have hsame : ∀ i ∈ vin, i.withoutWitness = id i := by
    intro i hi
    rw [TxIn.withoutWitness, ← hasWitness_eq_false_iff.mp h i hi, id]
  rw [List.map_congr_left hsame, List.map_id]

/-- A witness whose stack and items have the sizes that the reader allows. -/
structure TxIn.WitnessSized (i : TxIn) : Prop where
  items : i.scriptWitness.length ≤ maxSize
  item : ∀ bytes ∈ i.scriptWitness, bytes.length ≤ maxSize

theorem reads_witnesses (h : ∀ i ∈ vin, i.WitnessSized) :
    Reads (readWitnesses (vin.map TxIn.withoutWitness)) (vin.flatMap writeWitness) vin := by
  induction vin with
  | nil => exact reads_pure []
  | cons i vin ih =>
    rw [List.forall_mem_cons] at h
    have hstack := reads_vector (f := id) h.1.items fun bytes hb => reads_bytes (h.1.item bytes hb)
    rw [List.map_id] at hstack
    exact hstack.bind ((ih h.2).map _)

theorem reads_extendedBody (h : tx.Sized) :
    Reads (Transaction.unserializeBody true)
      ([0, 1] ++ (writeVector TxIn.serialize tx.vin ++ writeVector TxOut.serialize tx.vout))
      (1, tx.vin.map TxIn.withoutWitness, tx.vout) := by
  have hdummy : Reads (readVector TxIn.unserialize) (writeVector TxIn.serialize []) [] :=
    reads_vector (f := id) (Nat.zero_le maxSize) (List.forall_mem_nil _)
  have hflags : Reads (readData 1) (leBytes 1 1) 1 := reads_data (by decide)
  apply hdummy.bind
  rw [if_pos (by decide)]
  apply hflags.bind
  rw [if_pos (by decide)]
  exact (reads_inputs h).bind ((reads_outputs h).map _)

theorem reads_transactionWithWitness (h : tx.Sized) (hwitness : ∀ i ∈ tx.vin, i.WitnessSized)
    (hvin : tx.vin ≠ []) : Reads (Transaction.unserialize true) (tx.serialize true) tx := by
  unfold Transaction.serialize
  by_cases hany : Transaction.hasWitness tx.vin = true
  · have hread : Reads (Transaction.unserializeWitness true 1 (tx.vin.map TxIn.withoutWitness))
        (tx.vin.flatMap writeWitness) (0, tx.vin) := by
      rw [Transaction.unserializeWitness, if_pos (by decide)]
      apply ((reads_witnesses hwitness).mapError _).bind_nil
      rw [if_pos hany]
      exact reads_pure _
    have hparts := reads_parts (reads_extendedBody h) hread h.version h.lockTime
    simpa only [hany, Bool.and_self, if_true, List.append_assoc] using hparts
  · rw [Bool.not_eq_true] at hany
    have hread : Reads (Transaction.unserializeWitness true 0 tx.vin) [] (0, tx.vin) := by
      exact reads_pure _
    have hbody := @reads_plainBody true tx h fun _ => hvin
    rw [map_withoutWitness hany] at hbody
    have hparts := reads_parts hbody hread h.version h.lockTime
    simpa only [hany, Bool.and_false, Bool.false_eq_true, if_false, List.append_assoc,
      List.nil_append] using hparts

end Witnesses

section Canonicity

variable {vin : List TxIn} {bytes rest : List UInt8} {flags : ℕ}

theorem readInputs_ok (h : readVector TxIn.unserialize bytes = .ok (vin, rest)) :
    bytes = writeVector TxIn.serialize vin ++ rest ∧ Transaction.hasWitness vin = false := by
  refine ⟨canonical_vector canonical_txIn _ _ _ h, hasWitness_eq_false_iff.mpr ?_⟩
  obtain ⟨n, mid, -, hmany⟩ := Reader.bind_eq_ok_iff.mp h
  refine Reader.forall_mem_of_many (fun bytes i rest hi => ?_) hmany
  obtain ⟨prevout, _, -, hi⟩ := Reader.bind_eq_ok_iff.mp hi
  obtain ⟨scriptSig, _, -, hi⟩ := Reader.bind_eq_ok_iff.mp hi
  obtain ⟨nSequence, -, rfl⟩ := Reader.map_eq_ok_iff.mp hi
  rfl

theorem unserializeBody_ok {vout : List TxOut}
    (h : Transaction.unserializeBody true bytes = .ok ((flags, vin, vout), rest)) :
    flags = 0 ∧ vin = [] ∨
      flags = 0 ∧ Transaction.hasWitness vin = false ∧
        bytes = writeVector TxIn.serialize vin ++ (writeVector TxOut.serialize vout ++ rest) ∨
      flags ≠ 0 ∧ bytes = 0 :: (leBytes 1 flags ++
        (writeVector TxIn.serialize vin ++ (writeVector TxOut.serialize vout ++ rest))) := by
  obtain ⟨first, mid, hfirst, hbody⟩ := Reader.bind_eq_ok_iff.mp h
  obtain ⟨rfl, hplain⟩ := readInputs_ok hfirst
  split_ifs at hbody with hmark
  · obtain ⟨flags', mid', hflags, hmore⟩ := Reader.bind_eq_ok_iff.mp hbody
    obtain ⟨rfl, -⟩ := readData_ok hflags
    split_ifs at hmore with hzero
    · obtain ⟨vin', mid'', hvin, houtputs⟩ := Reader.bind_eq_ok_iff.mp hmore
      obtain ⟨vout', hvout, heq⟩ := Reader.map_eq_ok_iff.mp houtputs
      obtain ⟨rfl, rfl, rfl⟩ := heq
      rw [(readInputs_ok hvin).1, canonical_vector canonical_txOut _ _ _ hvout, hmark.1]
      exact .inr (.inr ⟨hzero, rfl⟩)
    · obtain ⟨heq, -⟩ := Reader.pure_eq_ok_iff.mp hmore
      simp only [Prod.mk.injEq] at heq
      exact .inl ⟨by omega, heq.2.1.symm⟩
  · obtain ⟨vout', hvout, heq⟩ := Reader.map_eq_ok_iff.mp hbody
    obtain ⟨rfl, rfl, rfl⟩ := heq
    rw [canonical_vector canonical_txOut _ _ _ hvout]
    exact .inr (.inl ⟨rfl, hplain, rfl⟩)

theorem unserializeWitness_ok {vin' : List TxIn}
    (h : Transaction.unserializeWitness true flags vin bytes = .ok ((0, vin'), rest)) :
    flags = 0 ∧ vin' = vin ∧ bytes = rest ∨
      flags = 1 ∧ Transaction.hasWitness vin' = true ∧
        writeVector TxIn.serialize vin' = writeVector TxIn.serialize vin ∧
        bytes = vin'.flatMap writeWitness ++ rest := by
  unfold Transaction.unserializeWitness at h
  split_ifs at h with hflag
  · obtain ⟨read, mid, hread, hcheck⟩ := Reader.bind_eq_ok_iff.mp h
    obtain ⟨rfl, hlen, hsame⟩ := readWitnesses_ok (Reader.mapError_eq_ok_iff.mp hread)
    split_ifs at hcheck with hany
    · obtain ⟨heq, rfl⟩ := Reader.pure_eq_ok_iff.mp hcheck
      simp only [Prod.mk.injEq] at heq
      obtain ⟨hflags, rfl⟩ := heq
      exact .inr ⟨Nat.xor_left_inj.mp hflags, hany, by rw [writeVector, hlen, hsame, writeVector],
        rfl⟩
    · cases hcheck
  · obtain ⟨heq, rfl⟩ := Reader.pure_eq_ok_iff.mp h
    simp only [Prod.mk.injEq] at heq
    exact .inl ⟨heq.1, heq.2.symm, rfl⟩

theorem canonical_transaction {tx : Transaction}
    (h : Transaction.unserialize true bytes = .ok (tx, rest)) (hvin : tx.vin ≠ []) :
    bytes = tx.serialize true ++ rest := by
  obtain ⟨version, mid₁, hversion, hparts⟩ := Reader.bind_eq_ok_iff.mp h
  obtain ⟨⟨flags, vin, vout⟩, mid₂, hbody, hparts⟩ := Reader.bind_eq_ok_iff.mp hparts
  obtain ⟨⟨left, vin'⟩, mid₃, hwitness, hparts⟩ := Reader.bind_eq_ok_iff.mp hparts
  split_ifs at hparts with hleft
  · cases hparts
  obtain ⟨nLockTime, hlockTime, rfl⟩ := Reader.map_eq_ok_iff.mp hparts
  obtain rfl : left = 0 := not_not.mp hleft
  have hv := (readData_ok (Reader.mapError_eq_ok_iff.mp hversion)).1
  have hl := (readData_ok (Reader.mapError_eq_ok_iff.mp hlockTime)).1
  have hb := unserializeBody_ok (Reader.mapError_eq_ok_iff.mp hbody)
  unfold Transaction.serialize
  obtain ⟨rfl, rfl, rfl⟩ | ⟨rfl, hany, hsame, hw⟩ := unserializeWitness_ok hwitness
  · -- no flags: the plain format, as without inputs there would be none in the result
    obtain ⟨-, hnil⟩ | ⟨-, hplain, hb⟩ | ⟨hflags, -⟩ := hb
    · exact absurd hnil hvin
    · simp only [hplain, Bool.and_false, Bool.false_eq_true, if_false, List.nil_append,
        List.append_assoc]
      rw [hv, hb, hl]
    · exact absurd rfl hflags
  · obtain ⟨hflags, -⟩ | ⟨hflags, -⟩ | ⟨-, hb⟩ := hb
    · cases hflags
    · cases hflags
    · simp only [hany, Bool.and_self, if_true, List.append_assoc]
      rw [hv, hb, hsame, hw, hl]
      rfl

/-- A transaction with inputs and its bytes determine each other. Written with its witnesses it is
read back as it is, and without them it is read back stripped of them, each time to the last byte;
and bytes read as a transaction with inputs are the ones that would be written for it. -/
theorem transaction_roundTrip :
    (∀ tx : Transaction, tx.Sized → (∀ i ∈ tx.vin, i.WitnessSized) → tx.vin ≠ [] →
      (∀ rest, Transaction.unserialize true (tx.serialize true ++ rest) = .ok (tx, rest)) ∧
      (∀ rest, Transaction.unserialize false (tx.serialize false ++ rest) =
        .ok (tx.withoutWitness, rest))) ∧
    (∀ bytes tx rest, Transaction.unserialize true bytes = .ok (tx, rest) → tx.vin ≠ [] →
      bytes = tx.serialize true ++ rest) := by
  refine ⟨fun tx h hwitness hvin => ⟨?_, ?_⟩, fun bytes tx rest h hvin => ?_⟩
  · exact reads_transactionWithWitness h hwitness hvin
  · exact reads_transaction h
  · exact canonical_transaction h hvin

def sampleSpend : Transaction where
  version := 2
  vin := [⟨⟨7, 1⟩, [], 4294967293, [[1, 2], []]⟩, ⟨⟨7, 2⟩, [81], 0, []⟩]
  vout := [⟨5000, [81]⟩, ⟨-1, []⟩]
  nLockTime := 100

theorem transaction_roundTrip_spend :
    Transaction.unserialize true (sampleSpend.serialize true) = .ok (sampleSpend, []) := by
  have hsized : sampleSpend.Sized := by
    refine ⟨by decide, by decide, ?_, by decide, ?_, by decide⟩
    · intro i hi
      fin_cases hi <;> exact ⟨by decide, by decide, by decide⟩
    · intro o ho
      fin_cases ho <;> exact ⟨by decide, by decide⟩
  have hwitness : ∀ i ∈ sampleSpend.vin, i.WitnessSized := by
    intro i hi
    fin_cases hi <;> exact ⟨by decide, by decide⟩
  exact (transaction_roundTrip.1 sampleSpend hsized hwitness (by decide)).1 []

end Canonicity

end Tarcoin
