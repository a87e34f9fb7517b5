import Tarcoin.Pool.ShareWork
import Tarcoin.Pool.StratumHeader

/-! The mask of `mining.configure` is not kept: both servers set the rolled bits in the version of
the job, and `|` is a signed operator. -/
namespace Tarcoin.Pool
open Async (own)

def rolledVersion (base mask bits : BitVec 32) : BitVec 32 := (base &&& ~~~mask) ||| (bits &&& mask)

section Words
variable {base mask bits : BitVec 32}

theorem rolledVersion_eq_or_iff (hinside : bits &&& ~~~mask = 0) :
    base ||| bits = rolledVersion base mask bits ↔ base &&& mask &&& ~~~bits = 0 := by
  rw [BitVec.eq_of_getLsbD_eq_iff] at hinside
  rw [BitVec.eq_of_getLsbD_eq_iff, BitVec.eq_of_getLsbD_eq_iff]
  apply forall_congr'
  intro i
  apply imp_congr_right
  intro hi
  have hbit := hinside i hi
  cases hb : base.getLsbD i <;> cases hm : mask.getLsbD i <;> cases hx : bits.getLsbD i <;>
    simp_all [rolledVersion]

theorem rolledVersion_eq_zero_iff (hinside : bits &&& ~~~mask = 0) :
    rolledVersion base mask bits = 0 ↔ bits = 0 ∧ base &&& ~~~mask = 0 := by
  rw [BitVec.eq_of_getLsbD_eq_iff] at hinside
  rw [BitVec.eq_of_getLsbD_eq_iff, BitVec.eq_of_getLsbD_eq_iff, BitVec.eq_of_getLsbD_eq_iff,
    ← forall_and]
  apply forall_congr'
  intro i
  rw [← imp_and]
  apply imp_congr_right
  intro hi
  have hbit := hinside i hi
  cases hb : base.getLsbD i <;> cases hm : mask.getLsbD i <;> cases hx : bits.getLsbD i <;>
    simp_all [rolledVersion]

end Words

section Written

theorem parseInt16_negative (k : ℕ) : parseInt16 ('-' :: Nat.toDigits 16 k) = some (-(k : ℤ)) := by
  obtain ⟨hhex, hvalue⟩ := toDigits_spec k
  have hskip : ('-' :: Nat.toDigits 16 k).dropWhile isSpace = '-' :: Nat.toDigits 16 k :=
    List.dropWhile_cons_of_neg (by decide)
  simp only [parseInt16, hskip, parseHexUnsigned_of_isHex hhex Nat.toDigits_ne_nil, hvalue]
  rfl

theorem parseInt16_padded {width : ℕ} {s : Text} (h : s.length + 1 < width) :
    parseInt16 (padStart width ('-' :: s)) = some 0 := by
  obtain ⟨k, hk⟩ : ∃ k, width - ('-' :: s).length = k + 1 :=
    ⟨width - s.length - 2, by rw [List.length_cons]; omega⟩
  have hdigits : hexDigits ('0' :: (List.replicate k '0' ++ '-' :: s)) = List.replicate (k + 1) 0 := by
    have hzeros := hexDigits_zeros (k + 1) ('-' :: s)
    have hsign : hexDigits ('-' :: s) = [] := rfl
    rw [hsign, List.append_nil] at hzeros
    exact hzeros
  have hread : parseHexDigits ('0' :: (List.replicate k '0' ++ '-' :: s)) = some 0 := by
    have hzero := Radix.accumulate_zeros 16 (k + 1) []
    rw [List.append_nil, Radix.accumulate_nil] at hzero
    simp only [parseHexDigits, hdigits, List.replicate_succ]
    rw [← List.replicate_succ, hzero]
  rw [padStart, List.leftpad, hk, List.replicate_succ]
  cases k <;> exact congrArg (Option.map Int.ofNat) hread

theorem length_toDigits_ge {n k : ℕ} (h : 16 ^ k ≤ n) : k < (Nat.toDigits 16 n).length := by
  obtain ⟨hhex, hvalue⟩ := toDigits_spec n
  have hlen := congrArg List.length (map_value_of_isHex hhex)
  rw [List.length_map, List.length_map] at hlen
  have hlt := Radix.accumulate_lt (b := 16) (by decide) (hexDigits_lt (Nat.toDigits 16 n))
  rw [hvalue, ← hlen] at hlt
  exact (Nat.pow_lt_pow_iff_right (by decide)).mp (h.trans_lt hlt)

/-- What a header takes from the text of a signed word: a negative one is out of range, unless it
is so small that it is padded. -/
theorem writeUInt32LE_signed (v : BitVec 32) :
    writeUInt32LE (parseInt16 (padStart 8 (toString16 v.toInt))) =
      if v.toNat < 2 ^ 31 then .ok (littleEndian 4 v.toNat)
      else if v.toNat ≤ 0xff000000 then .error .rangeError else .ok (littleEndian 4 0) := by
  rw [BitVec.toInt_eq_toNat_cond]
  split_ifs with hcond hpos hpad hpos hpad
  · rw [toString16, if_neg (by omega), Int.natAbs_natCast, parseInt16_padStart, writeUInt32LE,
      if_neg (by omega), Int.toNat_natCast]
  · omega
  · omega
  · omega
  all_goals
    obtain ⟨k, hk⟩ : ∃ k : ℕ, (v.toNat : ℤ) - ((2 ^ 32 : ℕ) : ℤ) = -(k : ℤ) := ⟨2 ^ 32 - v.toNat, by omega⟩
    rw [hk, toString16, if_pos (by omega), Int.natAbs_neg, Int.natAbs_natCast]
  · have hlong := length_toDigits_ge (n := k) (k := 6) (by omega)
    have hfull : padStart 8 ('-' :: Nat.toDigits 16 k) = '-' :: Nat.toDigits 16 k := by
      rw [padStart, List.leftpad, List.length_cons, show 8 - ((Nat.toDigits 16 k).length + 1) = 0 by omega]
      rfl
    rw [hfull, parseInt16_negative, writeUInt32LE, if_pos (by omega)]
  · have hshort := length_toDigits_le (n := k) (k := 6) (by decide) (by omega)
    rw [parseInt16_padded (by omega)]
    rfl

end Written

def versionWord (s : Text) : BitVec 32 := toBits32 (parseInt16 s)

/-- A submit with bits inside the mask is counted with the rolled version in its header, and one
with bits outside of it is not counted. -/
def RollsVersion (base mask bits : BitVec 32) (l : List Observed) : Prop :=
  (bits &&& ~~~mask = 0 → ∃ share, .emitted (.credited share) ∈ l ∧
    share.header.take 4 = littleEndian 4 (rolledVersion base mask bits).toNat) ∧
  (bits &&& ~~~mask ≠ 0 → ∀ share, .emitted (.credited share) ∉ l)

/-- The words for which setting the bits is enough: inside the mask, no bit of the base is cleared
and the sign stays clear, or the miner clears all of a base that is padded when it is written;
outside of it, the result is negative and long enough to be out of range. -/
def OrRolls (base mask bits : BitVec 32) : Prop :=
  (bits &&& ~~~mask = 0 → (base ||| bits).toNat < 2 ^ 31 ∧ base &&& mask &&& ~~~bits = 0 ∨
    0xff000000 < base.toNat ∧ bits = 0 ∧ base &&& ~~~mask = 0) ∧
  (bits &&& ~~~mask ≠ 0 → 2 ^ 31 ≤ (base ||| bits).toNat ∧ (base ||| bits).toNat ≤ 0xff000000)

section Header
variable {work : Work} {bits : Text} {fields : ShareFields}

theorem rebuildHeader_rolled (rt : Runtime) (extraNonce1 : Text)
    (hbits : fields.versionBits = some (.str bits)) (hnBits : Hex8 work.nBits) (htime : Hex8 fields.nTime)
    (hnonce : Hex8 fields.nonce) :
    ∃ rest, rebuildHeader rt work extraNonce1 fields =
      (writeUInt32LE (parseInt16 (padStart 8
        (toString16 (versionWord work.version ||| versionWord bits).toInt)))).map (· ++ rest) := by
  have hroll : rollVersion work.version fields.versionBits =
      .ok (padStart 8 (toString16 (versionWord work.version ||| versionWord bits).toInt)) := by
    rw [hbits]
    rfl
  generalize padStart 8 (toString16 (versionWord work.version ||| versionWord bits).toInt) = version
    at hroll ⊢
  simp only [rebuildHeader, hroll, buildBlockHeader, bind, Except.bind, writeUInt32LE_decode hnBits,
    writeUInt32LE_decode htime, writeUInt32LE_decode hnonce]
  cases writeUInt32LE (parseInt16 version) with
  | error e => exact ⟨[], rfl⟩
  | ok versionBuf =>
    simp only [List.append_assoc]
    exact ⟨_, rfl⟩

theorem littleEndian_word_inj {v v' : BitVec 32} :
    littleEndian 4 v.toNat = littleEndian 4 v'.toNat ↔ v = v' := by
  constructor
  · intro h
    exact BitVec.eq_of_toNat_eq (littleEndian_inj v.isLt v'.isLt h)
  · rintro rfl
    rfl

theorem take_signed_iff (v r : BitVec 32) (rest : List UInt8) :
    (∃ header, (writeUInt32LE (parseInt16 (padStart 8 (toString16 v.toInt)))).map (· ++ rest) =
        .ok header ∧ header.take 4 = littleEndian 4 r.toNat) ↔
      v.toNat < 2 ^ 31 ∧ v = r ∨ 0xff000000 < v.toNat ∧ r = 0 := by
  rw [writeUInt32LE_signed]
  split_ifs with hpos hlong
  · simp only [Except.map, Except.ok.injEq, exists_eq_left', List.take_left' (length_littleEndian 4 _),
      littleEndian_word_inj, hpos, true_and]
    exact ⟨.inl, fun h => h.resolve_right (by omega)⟩
  · simp only [Except.map, reduceCtorEq, false_and, exists_false, false_iff]
    omega
  · have hzero : littleEndian 4 0 = littleEndian 4 (0 : BitVec 32).toNat := rfl
    simp only [Except.map, Except.ok.injEq, exists_eq_left', hzero,
      List.take_left' (length_littleEndian 4 _),
      littleEndian_word_inj, hpos, false_and, false_or, eq_comm (a := r)]
    constructor
    · exact fun h => ⟨by omega, h⟩
    · exact And.right

theorem signed_error_iff (v : BitVec 32) (rest : List UInt8) :
    (∀ header, (writeUInt32LE (parseInt16 (padStart 8 (toString16 v.toInt)))).map (· ++ rest) ≠
        .ok header) ↔ 2 ^ 31 ≤ v.toNat ∧ v.toNat ≤ 0xff000000 := by
  rw [writeUInt32LE_signed]
  split_ifs with hpos hlong
  all_goals
    simp [Except.map]
    omega

end Header

/-- Whether a submit with version bits, to either server, is treated as a mask asks for. The pool
answers `mining.configure` with any mask that is asked of it, and forgets it. -/
theorem version_rolling_iff (rt : Runtime) (redis : Bool) (entropy : ℕ → List UInt8) (feeWallet : Text)
    (moves : List PoolMove) (i : ℕ) (t : PoolThread) (socket : ℕ) (request : Request)
    (s : Socket) (a : Attempt) (mask : BitVec 32) (bits : Text)
    (ht : (runPool rt (.initial redis entropy feeWallet) moves).threads[i]? = some t)
    (hinput : t.input = .message socket .submit request)
    (hsocket : t.origin.sockets[socket]? = some s)
    (ha : (screened rt socket s request t.origin).2 = .attempt a)
    (hbits : a.fields.versionBits = some (.str bits)) (hnBits : Hex8 a.work.nBits)
    (htime : Hex8 a.fields.nTime) (hnonce : Hex8 a.fields.nonce) :
    RollsVersion (versionWord a.work.version) mask (versionWord bits)
        (own i (runPool rt (.initial redis entropy feeWallet) moves).log) ↔
      OrRolls (versionWord a.work.version) mask (versionWord bits) := by
  obtain ⟨rest, hrebuild⟩ := rebuildHeader_rolled rt a.extraNonce1 hbits hnBits htime
    hnonce
  have hcredited : ∀ share, .emitted (.credited share) ∈
      own i (runPool rt (.initial redis entropy feeWallet) moves).log ↔
        ∃ header, a.header rt = .ok header ∧ share = a.share header := by
    intro share
    rw [credited_iff_attempt ht hinput hsocket, ha]
    constructor
    · rintro ⟨_, header, ⟨⟩, hheader, hshare⟩
      exact ⟨header, hheader, hshare⟩
    · rintro ⟨header, hheader, hshare⟩
      exact ⟨a, header, rfl, hheader, hshare⟩
  generalize versionWord bits = bits at hrebuild ⊢
  have hcounted : ∀ P : List UInt8 → Prop,
      (∃ share, (∃ header, a.header rt = .ok header ∧ share = a.share header) ∧ P share.header) ↔
        ∃ header, a.header rt = .ok header ∧ P header := by
    intro P
    constructor
    · rintro ⟨_, ⟨header, hheader, rfl⟩, hP⟩
      exact ⟨header, hheader, hP⟩
    · rintro ⟨header, hheader, hP⟩
      exact ⟨_, ⟨header, hheader, rfl⟩, hP⟩
  have hrefused : (∀ share, ¬∃ header, a.header rt = .ok header ∧ share = a.share header) ↔
      ∀ header, a.header rt ≠ .ok header := by
    constructor
    · exact fun h header hheader => h _ ⟨header, hheader, rfl⟩
    · rintro h _ ⟨header, hheader, -⟩
      exact h header hheader
  simp only [RollsVersion, OrRolls, hcredited]
  apply and_congr
  · apply imp_congr_right
    intro hinside
    rw [hcounted fun header => header.take 4 = _, Attempt.header, hrebuild, take_signed_iff,
      rolledVersion_eq_or_iff hinside, rolledVersion_eq_zero_iff hinside]
    apply or_congr_right
    constructor
    · rintro ⟨hbig, rfl, hbase⟩
      exact ⟨by rwa [BitVec.ofNat_eq_ofNat, BitVec.or_zero] at hbig, rfl, hbase⟩
    · rintro ⟨hbig, rfl, hbase⟩
      exact ⟨by rwa [BitVec.ofNat_eq_ofNat, BitVec.or_zero], rfl, hbase⟩
  · rw [hrefused, Attempt.header, hrebuild, signed_error_iff]

def configuredMoves (version : ℤ) : List PoolMove :=
  [.fire (.refresh 0), .resume 0 (.template (some { NodeTemplate.first [] with version := version })),
    .fire (.connect .pool), .fire (.message 0 .configure ⟨none, some (.arr [])⟩)]

def rollingRequest (nonce bits : String) : Request :=
  ⟨none, some (.arr [.str "w".toList, .str "00000000".toList, .str "00000000".toList,
    .str "5f5e1000".toList, .str nonce.toList, .str bits.toList])⟩

theorem version_rolling_set : ∃ a : Attempt, a.work.version = "20000000".toList ∧
    RollsVersion (versionWord a.work.version) 0x1fffe000 (versionWord "00002000".toList)
      (own 3 (runPool .constant (.fresh true) (configuredMoves 0x20000000 ++
        [.fire (.message 0 .submit (rollingRequest "00000000" "00002000"))])).log) := by
  have hiff := fun a => version_rolling_iff .constant true (fun _ => []) [] (configuredMoves 0x20000000 ++
    [.fire (.message 0 .submit (rollingRequest "00000000" "00002000"))]) 3 _ 0
    (rollingRequest "00000000" "00002000") _ a 0x1fffe000 "00002000".toList rfl rfl rfl
  refine ⟨_, ?_, (hiff _ rfl rfl ?_ ?_ ?_).mpr ?_⟩
  · rfl
  · decide
  · decide
  · decide
  · constructor
    · exact fun _ => .inl (by decide)
    · exact fun houtside => absurd (by decide) houtside

/-- After the mask `1fffe000`, a miner that clears bit 13 of the version is counted with the bit
set. -/
theorem version_bit_not_cleared :
    responses (own 2 (runPool .constant (.fresh true)
      (configuredMoves 0x20002000)).log) = [(0, none, .configured (some (.str "1fffe000".toList)))] ∧
    (credits (own 3 (runPool .constant (.fresh true) (configuredMoves 0x20002000 ++
      [.fire (.message 0 .submit (rollingRequest "00000000" "00000000"))])).log)).map
        (fun share => share.header.take 4) = [littleEndian 4 0x20002000] ∧
    rolledVersion (versionWord "20002000".toList) (versionWord "1fffe000".toList)
      (versionWord "00000000".toList) = 0x20000000 := by
  refine ⟨rfl, ?_, ?_⟩
  · decide
  · decide

end Tarcoin.Pool
