import Tarcoin.Filter.GcsFilter
import Tarcoin.Foundations.FallibleRun

/-! A filter answers a query by the hashes alone, also when it comes back from its encoding,
unless its size is out of the range that is read. -/
namespace Tarcoin.Filter

open BitString Serialize StreamCodec

variable {sipHash : UInt64 → UInt64 → Element → UInt64} {params : Params} {n f : ℕ}
  {S Q : Finset Element}

theorem readCompactSize_tooLarge (hn : n < 2 ^ 64) (hlarge : maxSize < n) (rest : List UInt8) :
    readCompactSize true (writeCompactSize n ++ rest) = .error .compactSizeTooLarge := by
  have hread : readCompactSize false (writeCompactSize n ++ rest) = .ok (n, rest) :=
    reads_compactSize hn (fun h => Bool.noConfusion h) rest
  -- Without the range check the size is read; the check comes after it.
  unfold readCompactSize Reader.bind at hread ⊢
  obtain ⟨⟨size, left⟩, hsize, hleft⟩ := FallibleRun.bind_eq_ok_iff.1 hread
  rw [hsize]
  obtain ⟨rfl, rfl⟩ := hleft
  simp [Except.bind, hlarge, Reader.fail]

theorem mem_buildHashedSet {hash : ℕ} :
    hash ∈ buildHashedSet sipHash params f S ↔ ∃ s ∈ S, hashToRange sipHash params f s = hash := by
  rw [buildHashedSet, Multiset.mem_sort, Multiset.mem_map]
  rfl

theorem length_buildHashedSet : (buildHashedSet sipHash params f S).length = S.card := by
  rw [buildHashedSet, Multiset.length_sort, Multiset.card_map]
  rfl

theorem pairwise_buildHashedSet : (buildHashedSet sipHash params f S).Pairwise (· ≤ ·) :=
  Multiset.pairwise_sort _ _

theorem hashToRange_le (element : Element) : hashToRange sipHash params f element ≤ f := by
  refine Nat.div_le_of_le_mul (Nat.mul_le_mul_right f ?_)
  exact (UInt64.toNat_lt _).le

/-- A filter of a set: its size, and behind it the codes of the sorted hashes. -/
structure FilterOf (sipHash : UInt64 → UInt64 → Element → UInt64) (params : Params)
    (S : Finset Element) (filter : GCSFilter) (body : List UInt8) : Prop where
  params_eq : filter.params = params
  n_eq : filter.n = S.card
  f_eq : filter.f = S.card * params.m
  encoded : filter.encoded = writeCompactSize S.card ++ body
  codes : ∃ padding, byteBits body =
    deltaCodes params.p (buildHashedSet sipHash params (S.card * params.m) S) 0 ++ padding ∧
      padding.length < 8

theorem ofElements_ok (sipHash : UInt64 → UInt64 → Element → UInt64) (hp : params.p ≤ 64)
    (hS : S.card < 2 ^ 32) :
    ∃ filter body, ofElements sipHash params S = .ok filter ∧
      FilterOf sipHash params S filter body := by
  have hmod : S.card % 2 ^ 32 = S.card := Nat.mod_eq_of_lt hS
  unfold ofElements
  simp only [hmod, ne_eq, not_true_eq_false, if_false]
  by_cases hempty : S = ∅
  · refine ⟨_, [], if_pos hempty, rfl, rfl, rfl, (List.append_nil _).symm, [], ?_, Nat.succ_pos 7⟩
    rw [hempty]
    simp [byteBits, buildHashedSet, deltaCodes]
  · rw [if_neg hempty]
    obtain ⟨w, hrun, hw⟩ := encodeDeltas_wrote hp
      (buildHashedSet sipHash params (S.card * params.m) S) 0
      (BitWriter.wrote_start (writeCompactSize S.card))
    obtain ⟨padding, hbits, hpadding⟩ := hw.flush
    rw [List.append_assoc] at hbits
    obtain ⟨body, hout, hbody⟩ := eq_append_of_byteBits hbits
    rw [hrun]
    exact ⟨_, body, rfl, rfl, rfl, rfl, hout, padding, hbody, hpadding⟩

theorem remaining_start (stream : List UInt8) :
    (BitReader.start stream).remaining = byteBits stream := BitReader.remaining_of_used rfl

section Answers

variable {filter : GCSFilter} {body : List UInt8}

section
variable (h : FilterOf sipHash params S filter body)
include h

section
variable (hp : params.p ≤ 64) (hf : S.card * params.m < 2 ^ 64) (hS : S.card ≤ maxSize)
include hp hf hS

omit h hp hf in
theorem read_size : readCompactSize true (writeCompactSize S.card ++ body) = .ok (S.card, body) :=
  reads_compactSize (hS.trans_lt (by decide)) (fun _ => hS) body

omit h hp hS in
theorem hashed_lt : ∀ v ∈ buildHashedSet sipHash params (S.card * params.m) S, v < 2 ^ 64 := by
  intro v hv
  obtain ⟨s, -, rfl⟩ := mem_buildHashedSet.1 hv
  exact (hashToRange_le s).trans_lt hf

theorem FilterOf.matchInternal {hashes : List ℕ} (hhashes : hashes.Pairwise (· ≤ ·)) :
    filter.matchInternal hashes = .ok (decide (∃ v ∈ buildHashedSet sipHash params
      (S.card * params.m) S, v ∈ hashes)) := by
  obtain ⟨padding, hbody, -⟩ := h.codes
  have hwalk := matchFrom_ok hp 0 (hashed_lt hf)
    (List.pairwise_cons.2 ⟨fun v _ => Nat.zero_le v, pairwise_buildHashedSet⟩) hhashes
    ((remaining_start body).trans hbody)
  rw [length_buildHashedSet] at hwalk
  rw [GCSFilter.matchInternal, h.encoded, read_size hS]
  dsimp only
  rw [if_pos h.n_eq.symm, h.params_eq, h.n_eq, hwalk]
  rfl

theorem FilterOf.ofEncoded (hcard : S.card < 2 ^ 32) :
    ofEncoded params filter.encoded false = .ok filter := by
  obtain ⟨padding, hbody, hpadding⟩ := h.codes
  obtain ⟨r, hskip, hremaining⟩ :=
    skipDeltas_ok hp (hashed_lt hf) ((remaining_start body).trans hbody)
  rw [length_buildHashedSet] at hskip
  -- Less than a byte is left, so all bytes have been read.
  have hrest : r.rest = [] := by
    have hlen := congrArg List.length hremaining
    rw [BitReader.length_remaining] at hlen
    exact List.length_eq_zero_iff.1 (by omega)
  have hfilter : filter = ⟨params, S.card, S.card * params.m, writeCompactSize S.card ++ body⟩ := by
    rw [← h.params_eq, ← h.encoded, ← h.n_eq]
    have hf' := h.f_eq
    rw [← h.params_eq, ← h.n_eq] at hf'
    rw [← hf']
  rw [Filter.ofEncoded, h.encoded, read_size hS]
  dsimp only
  rw [Nat.mod_eq_of_lt hcard, if_neg (not_not.2 rfl), if_neg Bool.false_ne_true, hskip]
  dsimp only
  rw [if_pos hrest, hfilter]

end

theorem FilterOf.refused (hS : maxSize < S.card) (hcard : S.card < 2 ^ 32) (hashes : List ℕ)
    (skip : Bool) :
    filter.matchInternal hashes = .error (.size .compactSizeTooLarge) ∧
      Filter.ofEncoded params filter.encoded skip = .error (.size .compactSizeTooLarge) := by
  have hread := readCompactSize_tooLarge (hcard.trans (by decide)) hS body
  rw [GCSFilter.matchInternal, Filter.ofEncoded, h.encoded, hread]
  exact ⟨rfl, rfl⟩

end

end Answers

theorem exists_common_hash_iff {g : ℕ} :
    (∃ v ∈ buildHashedSet sipHash params g S, v ∈ buildHashedSet sipHash params g Q) ↔
      ∃ q ∈ Q, ∃ s ∈ S, hashToRange sipHash params g q = hashToRange sipHash params g s := by
  constructor
  · intro ⟨v, hv, hq⟩
    obtain ⟨s, hs, rfl⟩ := mem_buildHashedSet.1 hv
    obtain ⟨q, hq, heq⟩ := mem_buildHashedSet.1 hq
    exact ⟨q, hq, s, hs, heq⟩
  · intro ⟨q, hq, s, hs, heq⟩
    exact ⟨_, mem_buildHashedSet.2 ⟨s, hs, rfl⟩, mem_buildHashedSet.2 ⟨q, hq, heq⟩⟩

/-- A filter of at most `MAX_SIZE` elements answers by the hashes alone, and so does the filter
that is read from its encoding. A filter of more elements is built, and then cannot be read. -/
theorem gcsFilter_answers (sipHash : UInt64 → UInt64 → Element → UInt64) (k0 k1 : UInt64)
    (S : Finset Element) (hS : S.card < 2 ^ 32) :
    ∃ filter, ofElements sipHash (basicParams k0 k1) S = .ok filter ∧
      (S.card ≤ maxSize →
        (∀ Q, filter.matchAny sipHash Q = .ok (decide (∃ q ∈ Q, ∃ s ∈ S,
          hashToRange sipHash filter.params filter.f q =
            hashToRange sipHash filter.params filter.f s))) ∧
        (∀ Q, (∃ q ∈ Q, q ∈ S) → filter.matchAny sipHash Q = .ok true) ∧
        (∀ q, filter.matchOne sipHash q = filter.matchAny sipHash {q}) ∧
        ∃ filter', ofEncoded (basicParams k0 k1) filter.encoded false = .ok filter' ∧
          (∀ Q, filter'.matchAny sipHash Q = filter.matchAny sipHash Q) ∧
          ∀ q, filter'.matchOne sipHash q = filter.matchOne sipHash q) ∧
      (maxSize < S.card →
        (∀ Q, filter.matchAny sipHash Q = .error (.size .compactSizeTooLarge)) ∧
        (∀ q, filter.matchOne sipHash q = .error (.size .compactSizeTooLarge)) ∧
        ∀ skip, ofEncoded (basicParams k0 k1) filter.encoded skip =
          .error (.size .compactSizeTooLarge)) := by
  have hp : (basicParams k0 k1).p ≤ 64 := by
    show 19 ≤ 64
    decide
  have hf : S.card * (basicParams k0 k1).m < 2 ^ 64 := by
    show S.card * 784931 < 2 ^ 64
    omega
  obtain ⟨filter, body, hbuild, h⟩ := ofElements_ok sipHash hp hS
  refine ⟨filter, hbuild, ?_, ?_⟩
  · intro hsize
    have hany : ∀ Q, filter.matchAny sipHash Q = .ok (decide (∃ q ∈ Q, ∃ s ∈ S,
        hashToRange sipHash filter.params filter.f q =
          hashToRange sipHash filter.params filter.f s)) := by
      intro Q
      rw [GCSFilter.matchAny, h.matchInternal hp hf hsize pairwise_buildHashedSet, h.f_eq,
        h.params_eq]
      simp only [exists_common_hash_iff]
    refine ⟨hany, ?_, ?_, filter, h.ofEncoded hp hf hsize hS, fun _ => rfl, fun _ => rfl⟩
    · intro Q ⟨q, hq, hqS⟩
      have hmeets : ∃ q ∈ Q, ∃ s ∈ S, hashToRange sipHash filter.params filter.f q =
          hashToRange sipHash filter.params filter.f s := ⟨q, hq, q, hqS, rfl⟩
      rw [hany, decide_eq_true hmeets]
    · intro q
      rw [GCSFilter.matchOne, GCSFilter.matchAny, buildHashedSet, Finset.singleton_val,
        Multiset.map_singleton, Multiset.sort_singleton]
  · intro hlarge
    exact ⟨fun Q => (h.refused hlarge hS _ false).1, fun q => (h.refused hlarge hS _ false).1,
      fun skip => (h.refused hlarge hS [] skip).2⟩

theorem gcsFilter_answers_two_scripts :
    ({[0x51], [0x52, 0xae]} : Finset Element).card < 2 ^ 32 ∧
    ∃ filter, ofElements (fun _ _ e => UInt64.ofNat e.length) (basicParams 1 2)
        {[0x51], [0x52, 0xae]} = .ok filter ∧
      filter.matchAny (fun _ _ e => UInt64.ofNat e.length) {[0x52, 0xae], []} = .ok true ∧
      ∃ filter', ofEncoded (basicParams 1 2) filter.encoded false = .ok filter' ∧
        filter'.matchOne (fun _ _ e => UInt64.ofNat e.length) [0x51] =
          filter.matchOne (fun _ _ e => UInt64.ofNat e.length) [0x51] := by
  have hcard : ({[0x51], [0x52, 0xae]} : Finset Element).card < 2 ^ 32 := by decide
  obtain ⟨filter, hbuild, hsmall, -⟩ := gcsFilter_answers (fun _ _ e => UInt64.ofNat e.length) 1 2
    {[0x51], [0x52, 0xae]} hcard
  obtain ⟨-, hmeets, -, filter', hread, -, hone⟩ := hsmall (by decide)
  exact ⟨hcard, filter, hbuild, hmeets {[0x52, 0xae], []} ⟨[0x52, 0xae], by decide, by decide⟩, filter', hread,
    hone [0x51]⟩

/-- One element more than `MAX_SIZE`: the filter is built, but neither it nor its encoding can be
used, not even for an element that is in the set. -/
theorem ofElements_unreadable :
    ∃ (S : Finset Element) (s : Element) (filter : GCSFilter), S.card < 2 ^ 32 ∧ s ∈ S ∧
      ofElements (fun _ _ _ => 0) (basicParams 0 0) S = .ok filter ∧
      filter.matchAny (fun _ _ _ => 0) {s} = .error (.size .compactSizeTooLarge) ∧
      ofEncoded (basicParams 0 0) filter.encoded false = .error (.size .compactSizeTooLarge) := by
  obtain ⟨S, -, hcard⟩ := Set.infinite_univ.exists_subset_card_eq (α := Element) (maxSize + 1)
  have hlarge : maxSize < S.card := hcard ▸ Nat.lt_succ_self maxSize
  have hS : S.card < 2 ^ 32 := by
    rw [hcard]
    decide
  obtain ⟨s, hs⟩ := Finset.card_pos.1 ((Nat.zero_le _).trans_lt hlarge)
  have hp : (basicParams 0 0).p ≤ 64 := by
    decide
  obtain ⟨filter, body, hbuild, h⟩ := ofElements_ok (fun _ _ _ => 0) hp hS
  exact ⟨S, s, filter, hS, hs, hbuild, (h.refused hlarge hS _ false).1,
    (h.refused hlarge hS [] false).2⟩

end Tarcoin.Filter
