import Mathlib.Data.Finset.Max
import Tarcoin.Net.TxRequestLedger

/-! Among the candidates of a hash that are not delayed, the one with the highest priority is the
best one, unless the hash is requested. Every move changes the announcements of one hash only. -/
namespace Tarcoin.Net.TxRequest

open OrderedIndex

variable {computer : PriorityComputer} {I J : List Announcement} {a b c it : Announcement}
  {txhash : TxHash}

namespace State

@[simp] theorem rank_candidateDelayed : candidateDelayed.rank = 0 := rfl
@[simp] theorem rank_candidateReady : candidateReady.rank = 1 := rfl
@[simp] theorem rank_candidateBest : candidateBest.rank = 2 := rfl
@[simp] theorem rank_requested : requested.rank = 3 := rfl
@[simp] theorem rank_completed : completed.rank = 4 := rfl

theorem delayed_or_completed {st : State} (hready : st ≠ .candidateReady)
    (hbest : st ≠ .candidateBest) (hreq : st ≠ .requested) :
    st = .candidateDelayed ∨ st = .completed := by
  cases st <;> simp_all

end State

namespace Announcement

@[simp] theorem isSelected_iff (a : Announcement) :
    a.isSelected = true ↔ a.state = .candidateBest ∨ a.state = .requested := by
  simp [isSelected]

@[simp] theorem isWaiting_iff (a : Announcement) :
    a.isWaiting = true ↔ a.state = .requested ∨ a.state = .candidateDelayed := by
  simp [isWaiting]

@[simp] theorem isSelectable_iff (a : Announcement) :
    a.isSelectable = true ↔ a.state = .candidateReady ∨ a.state = .candidateBest := by
  simp [isSelectable]

section
variable (st : State) (a : Announcement)

@[simp] theorem setState_state : (a.setState st).state = st := rfl
@[simp] theorem setState_hash : (a.setState st).hash = a.hash := rfl
@[simp] theorem setState_peer : (a.setState st).peer = a.peer := rfl

end

@[simp] theorem setState_setState (st st' : State) (a : Announcement) :
    (a.setState st).setState st' = a.setState st' := rfl

@[simp] theorem of_setState (st : State) (a : Announcement) :
    computer.of (a.setState st) = computer.of a := rfl

theorem setState_ne {st : State} (h : a.state ≠ st) : a.setState st ≠ a :=
  fun he => h (he ▸ rfl)

end Announcement

/-! ## The order by hash -/

theorem byTxHashView_le_iff : byTxHashView computer a ≤ byTxHashView computer b ↔
    a.hash < b.hash ∨ a.hash = b.hash ∧ (a.state.rank < b.state.rank ∨ a.state.rank = b.state.rank ∧
      (if a.state = .candidateReady then computer.of a else 0) ≤
        if b.state = .candidateReady then computer.of b else 0) := by
  simp [byTxHashView, Prod.Lex.toLex_le_toLex]

theorem bound_le_view_iff {rank : ℕ} :
    toLex (txhash, toLex (rank, 0)) ≤ byTxHashView computer a ↔
      txhash < a.hash ∨ txhash = a.hash ∧ rank ≤ a.state.rank := by
  simp only [byTxHashView, Prod.Lex.toLex_le_toLex, Nat.zero_le, and_true]
  rw [← le_iff_lt_or_eq]

section
variable (h : byTxHashView computer a ≤ byTxHashView computer b)
include h

theorem hash_le_of_view_le : a.hash ≤ b.hash := Prod.Lex.monotone_fst _ _ h

theorem rank_le_of_view_le (hhash : a.hash = b.hash) : a.state.rank ≤ b.state.rank := by
  rcases byTxHashView_le_iff.mp h with h | ⟨-, h | ⟨h, -⟩⟩
  · exact absurd hhash h.ne
  · exact h.le
  · exact h.le

theorem priority_le_of_view_le (hhash : a.hash = b.hash) (ha : a.state = .candidateReady)
    (hb : b.state = .candidateReady) : computer.of a ≤ computer.of b := by
  rcases byTxHashView_le_iff.mp h with h | ⟨-, h | ⟨-, h⟩⟩
  · exact absurd hhash h.ne
  · simp [ha, hb] at h
  · simpa [ha, hb] using h

end

/-- What lies between two announcements of a hash is of that hash, with a state in between. -/
theorem between (hcb : byTxHashView computer c ≤ byTxHashView computer b)
    (hba : byTxHashView computer b ≤ byTxHashView computer a) (hhash : c.hash = a.hash) :
    b.hash = a.hash ∧ c.state.rank ≤ b.state.rank ∧ b.state.rank ≤ a.state.rank := by
  have hb : b.hash = a.hash :=
    le_antisymm (hash_le_of_view_le hba) (hhash ▸ hash_le_of_view_le hcb)
  exact ⟨hb, rank_le_of_view_le hcb (hhash.trans hb.symm), rank_le_of_view_le hba hb⟩

/-! ## Consistent announcements -/

/-- No request stands against it, and no candidate that is ready has a higher priority. -/
def Foremost (computer : PriorityComputer) (I : List Announcement) (a : Announcement) : Prop :=
  (∀ b ∈ I, b.hash = a.hash → b.state ≠ .requested) ∧
    ∀ b ∈ I, b.hash = a.hash → b.isSelectable → computer.of b ≤ computer.of a

structure Block (computer : PriorityComputer) (I : List Announcement) (txhash : TxHash) : Prop where
  one_request : ∀ a ∈ I, a.hash = txhash → ∀ b ∈ I, b.hash = txhash →
    a.state = .requested → b.state = .requested → a = b
  best_iff : ∀ a ∈ I, a.hash = txhash → a.isSelectable →
    (a.state = .candidateBest ↔ Foremost computer I a)
  alive : ∀ a ∈ I, a.hash = txhash → ∃ b ∈ I, b.hash = txhash ∧ b.state ≠ .completed

/-- Beyond an open announcement only the requests and the candidates that are ready matter. -/
theorem Block.congr (hI : Block computer I txhash)
    (h : ∀ a, a.hash = txhash → a.isSelectable ∨ a.state = .requested → (a ∈ J ↔ a ∈ I))
    (halive : ∀ a ∈ J, a.hash = txhash → ∃ b ∈ J, b.hash = txhash ∧ b.state ≠ .completed) :
    Block computer J txhash where
  one_request a ha hah b hb hbh har hbr :=
    hI.one_request a ((h a hah (.inr har)).mp ha) hah b ((h b hbh (.inr hbr)).mp hb) hbh har hbr
  best_iff a ha hah hsel := by
    rw [hI.best_iff a ((h a hah (.inl hsel)).mp ha) hah hsel]
    constructor
    · exact fun hf => ⟨fun b hb hbh hbr => hf.1 b ((h b (hbh.trans hah) (.inr hbr)).mp hb) hbh hbr,
        fun b hb hbh hbs => hf.2 b ((h b (hbh.trans hah) (.inl hbs)).mp hb) hbh hbs⟩
    · exact fun hf => ⟨fun b hb hbh hbr => hf.1 b ((h b (hbh.trans hah) (.inr hbr)).mpr hb) hbh hbr,
        fun b hb hbh hbs => hf.2 b ((h b (hbh.trans hah) (.inl hbs)).mpr hb) hbh hbs⟩
  alive := halive

theorem Block.of_requested (ha : a ∈ I) (hhash : a.hash = txhash) (hstate : a.state = .requested)
    (hother : ∀ b ∈ I, b.hash = txhash → b ≠ a → b.state ≠ .requested ∧ b.state ≠ .candidateBest) :
    Block computer I txhash where
  one_request b hb hbh c hc hch hbr hcr := by
    have hba : b = a := by_contra fun hne => (hother b hb hbh hne).1 hbr
    have hca : c = a := by_contra fun hne => (hother c hc hch hne).1 hcr
    rw [hba, hca]
  best_iff b hb hbh hsel := by
    have hne : b ≠ a := by
      intro hba
      simp [hba, hstate] at hsel
    refine ⟨fun hbest => absurd hbest (hother b hb hbh hne).2, fun hf => ?_⟩
    exact absurd hstate (hf.1 a ha (hhash.trans hbh.symm))
  alive _ _ _ := ⟨a, ha, hhash, by simp [hstate]⟩

theorem Block.of_best (ha : a ∈ I) (hhash : a.hash = txhash) (hstate : a.state = .candidateBest)
    (hother : ∀ b ∈ I, b.hash = txhash → b ≠ a → b.state ≠ .requested ∧ b.state ≠ .candidateBest ∧
      (b.state = .candidateReady → computer.of b < computer.of a)) : Block computer I txhash where
  one_request b hb hbh c hc hch hbr hcr := by
    have hba : b = a := by_contra fun hne => (hother b hb hbh hne).1 hbr
    rw [hba, hstate] at hbr
    cases hbr
  best_iff b hb hbh hsel := by
    by_cases hba : b = a
    · subst hba
      refine ⟨fun _ => ⟨fun c hc hch => ?_, fun c hc hch hcs => ?_⟩, fun _ => hstate⟩
      · by_cases hcb : c = b
        · simp [hcb, hstate]
        · exact (hother c hc (hch.trans hbh) hcb).1
      · by_cases hcb : c = b
        · rw [hcb]
        · obtain ⟨-, hnot, hlt⟩ := hother c hc (hch.trans hbh) hcb
          exact (hlt (((Announcement.isSelectable_iff c).mp hcs).resolve_right hnot)).le
    · obtain ⟨-, hnot, hlt⟩ := hother b hb hbh hba
      refine ⟨fun hbest => absurd hbest hnot, fun hf => ?_⟩
      have hready := ((Announcement.isSelectable_iff b).mp hsel).resolve_right hnot
      exact absurd (hf.2 a ha (hhash.trans hbh.symm) (by simp [hstate])) (not_le.mpr (hlt hready))
  alive _ _ _ := ⟨a, ha, hhash, by simp [hstate]⟩

theorem Block.of_delayed (hall : ∀ b ∈ I, b.hash = txhash →
      b.state = .candidateDelayed ∨ b.state = .completed)
    (halive : ∀ b ∈ I, b.hash = txhash → ∃ c ∈ I, c.hash = txhash ∧ c.state ≠ .completed) :
    Block computer I txhash where
  one_request b hb hbh _ _ _ hbr _ := by
    rcases hall b hb hbh with h | h <;> simp [h] at hbr
  best_iff b hb hbh hsel := by
    rcases hall b hb hbh with h | h <;> simp [h] at hsel
  alive := halive

def Announcement.slot (a : Announcement) : NodeId × TxHash := (a.peer, a.hash)

/-- Who announced what, and when in the order of the announcements. -/
def Announcement.stamp (a : Announcement) : (NodeId × TxHash) × ℕ := (a.slot, a.sequence)

/-- One announcement for each peer and hash, different priorities for different peers, and the
announcements of every hash in order. -/
structure Consistent (computer : PriorityComputer) (I : List Announcement) : Prop where
  unique : (I.map Announcement.slot).Nodup
  apart : ∀ a ∈ I, ∀ b ∈ I, a.hash = b.hash → computer.of a = computer.of b → a.peer = b.peer
  block : ∀ txhash, Block computer I txhash

namespace Consistent

variable (hI : Consistent computer I)

include hI

theorem nodup : I.Nodup := hI.unique.of_map

section
variable (ha : a ∈ I)
include ha

theorem eq_of_slot (hb : b ∈ I) (hpeer : a.peer = b.peer) (hhash : a.hash = b.hash) : a = b :=
  List.inj_on_of_nodup_map hI.unique ha hb (Prod.ext hpeer hhash)

theorem eq_of_priority (hb : b ∈ I) (hhash : a.hash = b.hash)
    (hprio : computer.of a = computer.of b) : a = b :=
  hI.eq_of_slot ha hb (hI.apart a ha b hb hhash hprio) hhash

theorem best_iff (hsel : a.state = .candidateReady ∨ a.state = .candidateBest) :
    a.state = .candidateBest ↔ Foremost computer I a :=
  (hI.block a.hash).best_iff a ha rfl ((Announcement.isSelectable_iff a).mpr hsel)

theorem foremost_of_best (h : a.state = .candidateBest) : Foremost computer I a :=
  (hI.best_iff ha (.inr h)).mp h

theorem lt_of_best (h : a.state = .candidateBest) (hb : b ∈ I) (hhash : b.hash = a.hash)
    (hready : b.state = .candidateReady) : computer.of b < computer.of a := by
  refine lt_of_le_of_ne ((hI.foremost_of_best ha h).2 b hb hhash (by simp [hready])) (fun hprio => ?_)
  rw [hI.eq_of_priority hb ha hhash hprio, h] at hready
  cases hready

theorem eq_of_requested (hb : b ∈ I) (hhash : a.hash = b.hash) (hra : a.state = .requested)
    (hrb : b.state = .requested) : a = b :=
  (hI.block b.hash).one_request a ha hhash b hb rfl hra hrb

theorem eq_of_selected (hb : b ∈ I) (hhash : a.hash = b.hash)
    (hsa : a.state = .candidateBest ∨ a.state = .requested)
    (hsb : b.state = .candidateBest ∨ b.state = .requested) : a = b := by
  rcases hsa with hsa | hsa
  · have hfa := hI.foremost_of_best ha hsa
    rcases hsb with hsb | hsb
    · have hfb := hI.foremost_of_best hb hsb
      apply hI.eq_of_priority ha hb hhash
      exact le_antisymm (hfb.2 a ha hhash (by simp [hsa])) (hfa.2 b hb hhash.symm (by simp [hsb]))
    · exact absurd hsb (hfa.1 b hb hhash.symm)
  · rcases hsb with hsb | hsb
    · exact absurd hsa ((hI.foremost_of_best hb hsb).1 a ha hhash)
    · exact hI.eq_of_requested ha hb hhash hsa hsb

theorem exists_selected (hready : a.state = .candidateReady) :
    ∃ b ∈ I, b.hash = a.hash ∧ (b.state = .requested ∨
      b.state = .candidateBest ∧ computer.of a < computer.of b) := by
  by_cases hreq : ∃ b ∈ I, b.hash = a.hash ∧ b.state = .requested
  · obtain ⟨b, hb, hbh, hbs⟩ := hreq
    exact ⟨b, hb, hbh, .inl hbs⟩
  · -- Without a request the candidate of the highest priority among those ready is the best one.
    let ready := I.filter (fun b => b.hash = a.hash ∧ b.isSelectable)
    have hmem : ∀ b, b ∈ ready ↔ b ∈ I ∧ b.hash = a.hash ∧ b.isSelectable := by simp [ready]
    have hne : ready.toFinset.Nonempty :=
      ⟨a, List.mem_toFinset.mpr ((hmem a).mpr ⟨ha, rfl, by simp [hready]⟩)⟩
    obtain ⟨b, hb, hmax⟩ := Finset.exists_max_image _ computer.of hne
    obtain ⟨hb, hbh, hbs⟩ := (hmem b).mp (List.mem_toFinset.mp hb)
    have hfore : Foremost computer I b := by
      constructor
      · exact fun c hc hch hcr => hreq ⟨c, hc, hch.trans hbh, hcr⟩
      · exact fun c hc hch hcs =>
          hmax c (List.mem_toFinset.mpr ((hmem c).mpr ⟨hc, hch.trans hbh, hcs⟩))
    have hbest := (hI.best_iff hb ((Announcement.isSelectable_iff b).mp hbs)).mpr hfore
    exact ⟨b, hb, hbh, .inr ⟨hbest, hI.lt_of_best hb hbest ha hbh.symm hready⟩⟩

end

theorem alone (ha : a ∈ I) (hah : a.hash = txhash)
    (hsel : a.state = .candidateBest ∨ a.state = .requested) :
    ∀ b ∈ I, b.hash = txhash → b ≠ a → b.state ≠ .requested ∧ b.state ≠ .candidateBest := by
  intro b hb hbh hne
  have hone := hI.eq_of_selected hb ha (hbh.trans hah.symm)
  exact ⟨fun hbs => hne (hone (.inr hbs) hsel), fun hbs => hne (hone (.inl hbs) hsel)⟩

/-- What a hash looks like: requested, with a best candidate, or with none that is ready. -/
theorem leads (txhash : TxHash) :
    (∃ a ∈ I, a.hash = txhash ∧ a.state = .requested ∧
      ∀ b ∈ I, b.hash = txhash → b ≠ a → b.state ≠ .requested ∧ b.state ≠ .candidateBest) ∨
    (∃ a ∈ I, a.hash = txhash ∧ a.state = .candidateBest ∧
      ∀ b ∈ I, b.hash = txhash → b ≠ a → b.state ≠ .requested ∧ b.state ≠ .candidateBest ∧
        (b.state = .candidateReady → computer.of b < computer.of a)) ∨
    ∀ b ∈ I, b.hash = txhash → b.state = .candidateDelayed ∨ b.state = .completed := by
  by_cases hreq : ∃ a ∈ I, a.hash = txhash ∧ a.state = .requested
  · obtain ⟨a, ha, hah, hstate⟩ := hreq
    exact .inl ⟨a, ha, hah, hstate, hI.alone ha hah (.inr hstate)⟩
  · by_cases hbest : ∃ a ∈ I, a.hash = txhash ∧ a.state = .candidateBest
    · obtain ⟨a, ha, hah, hstate⟩ := hbest
      refine .inr (.inl ⟨a, ha, hah, hstate, fun b hb hbh hne => ?_⟩)
      obtain ⟨hnr, hnb⟩ := hI.alone ha hah (.inl hstate) b hb hbh hne
      exact ⟨hnr, hnb, hI.lt_of_best ha hstate hb (hbh.trans hah.symm)⟩
    · refine .inr (.inr fun b hb hbh => State.delayed_or_completed (fun hready => ?_)
        (fun hs => hbest ⟨b, hb, hbh, hs⟩) (fun hs => hreq ⟨b, hb, hbh, hs⟩))
      obtain ⟨c, hc, hch, hcs⟩ := hI.exists_selected hb hready
      rcases hcs with hcs | ⟨hcs, -⟩
      · exact hreq ⟨c, hc, hch.trans hbh, hcs⟩
      · exact hbest ⟨c, hc, hch.trans hbh, hcs⟩

end Consistent

end Tarcoin.Net.TxRequest
