import Tarcoin.Pool.FoundBlocks

/-! A share is counted whenever it can be read, is no repetition, names the job in place and
rebuilds a header, whatever difficulty was announced. -/
namespace Tarcoin.Pool
open Async (own)

def announcedDifficulty (socket : ℕ) (l : List Output) : Option ℕ :=
  (l.filterMap fun o => match o with
    | .setDifficulty socket' diff => if socket' = socket then some diff else none
    | _ => none).getLast?

/-- The target of difficulty one, `0x00000000ffff << 208`. -/
def diffOneTarget : ℕ := 0xffff * 2 ^ 208

def shareTarget (diff : ℕ) : ℕ := diffOneTarget / diff

/-- The hash of a header is at most the target of the difficulty last announced, if any was. -/
def MeetsAnnounced (rt : Runtime) (socket : ℕ) (l : List Output) (header : List UInt8) : Prop :=
  ∀ diff, announcedDifficulty socket l = some diff →
    hashValue (rt.sha256d header).val ≤ shareTarget diff

/-- What a message and the state it arrives in have to be for a share with this header to be
counted. -/
def Creditable (rt : Runtime) (w : World) (s : Socket) (request : Request) (header : List UInt8) :
    Prop :=
  ∃ miner r fields t,
    w.poolMiners.locate .pool w.serial request s.workerName = some (miner, r) ∧
    request.shareFields rt w.serial = .ok fields ∧
    (r.entries[miner]?.any fun m => fields.shareKey ∈ m.seen fields.jobId) = false ∧
    w.blockTemplate = some t ∧ .str t.jobId = fields.jobId ∧
    rebuildHeader rt (t.work t.coinbase1 t.coinbase2) s.extraNonce1 fields = .ok header

section Credited
variable {rt : Runtime} {w : World} {moves : List PoolMove} {i : ℕ}
  {t : PoolThread} {socket : ℕ} {request : Request} {s : Socket} {share : Share}

theorem creditable_iff_attempt (socket : ℕ) (hserver : s.server = .pool) (w : World)
    (header : List UInt8) :
    (∃ a, (screened rt socket s request w).2 = .attempt a ∧ a.header rt = .ok header) ↔
      Creditable rt w s request header := by
  simp only [screened_pool_attempt_iff rt hserver]
  constructor
  · rintro ⟨a, ⟨miner, r, fields, t, hlocate, hfields, hnew, ht, hjob, rfl⟩, hheader⟩
    exact ⟨miner, r, fields, t, hlocate, hfields, hnew, ht, hjob, hheader⟩
  · rintro ⟨miner, r, fields, t, hlocate, hfields, hnew, ht, hjob, hheader⟩
    exact ⟨_, ⟨miner, r, fields, t, hlocate, hfields, hnew, ht, hjob, rfl⟩, hheader⟩

end Credited

/-- The shares that a submit counts meet the difficulty last announced to its connection if and
only if every header it is creditable with does. -/
theorem share_work_iff (rt : Runtime) (redis : Bool) (entropy : ℕ → List UInt8) (feeWallet : Text)
    (moves : List PoolMove) (socket : ℕ) (request : Request) (s : Socket)
    (hsocket : (runPool rt (.initial redis entropy feeWallet) moves).world.sockets[socket]? = some s)
    (hserver : s.server = .pool) :
    (∀ share, .emitted (.credited share) ∈
        own (runPool rt (.initial redis entropy feeWallet) moves).threads.length
          (runPool rt (.initial redis entropy feeWallet)
            (moves ++ [.fire (.message socket .submit request)])).log →
        MeetsAnnounced rt socket
          (Async.outputs (runPool rt (.initial redis entropy feeWallet) moves).log) share.header) ↔
      ∀ header,
        Creditable rt (runPool rt (.initial redis entropy feeWallet) moves).world s request header →
        MeetsAnnounced rt socket
          (Async.outputs (runPool rt (.initial redis entropy feeWallet) moves).log) header := by
  generalize hw : World.initial redis entropy feeWallet = w at *
  have hstep : runPool rt w (moves ++ [.fire (.message socket .submit request)]) =
      Async.fireStep (start rt) (runPool rt w moves) (.message socket .submit request) :=
    List.foldl_concat _ _ _ _
  have hthread : (runPool rt w (moves ++ [.fire (.message socket .submit request)])).threads[
      (runPool rt w moves).threads.length]? = some ⟨.message socket .submit request,
        (runPool rt w moves).world, ((start rt (.message socket .submit request)).advance
          (runPool rt w moves).world).2.2⟩ := by
    rw [hstep]
    exact List.getElem?_concat_length
  simp only [credited_iff_attempt hthread rfl hsocket, ← creditable_iff_attempt socket hserver]
  constructor
  · rintro hall header ⟨a, ha, hheader⟩
    exact hall (a.share header) ⟨a, header, ha, hheader, rfl⟩
  · rintro hall share ⟨a, header, ha, hheader, rfl⟩
    exact hall header ⟨a, ha, hheader⟩

def Runtime.highest : Runtime :=
  { Runtime.constant with sha256 := fun _ => ⟨List.replicate 32 0xff, rfl⟩ }

def subscribedMoves : List PoolMove :=
  [.fire (.connect .pool), .fire (.message 0 .subscribe ⟨none, none⟩), .fire (.refresh 0),
    .resume 2 (.template (some (.first [])))]

theorem share_work_zero : ∃ share,
    credits (own 3 (runPool .constant (.fresh true) (subscribedMoves ++
      [.fire (.message 0 .submit firstSubmit)])).log) = [share] ∧
    MeetsAnnounced .constant 0 (Async.outputs (runPool .constant (.fresh true)
      subscribedMoves).log) share.header := by
  refine ⟨_, rfl, ?_⟩
  apply (share_work_iff .constant true (fun _ => []) [] subscribedMoves 0 firstSubmit _ rfl rfl).mpr
  · exact fun header _ diff _ => Nat.zero_le _
  · exact List.Mem.head _

/-- The difficulty 12500 was announced, and a share whose hash is the largest number there is has
been counted. -/
theorem share_work_unchecked :
    announcedDifficulty 0 (Async.outputs (runPool .highest (.fresh true)
      subscribedMoves).log) = some 12500 ∧
    (credits (own 3 (runPool .highest (.fresh true) (subscribedMoves ++
      [.fire (.message 0 .submit firstSubmit)])).log)).map (fun share =>
      decide (hashValue (Runtime.highest.sha256d share.header).val ≤ shareTarget 12500)) = [false] := by
  decide

end Tarcoin.Pool
