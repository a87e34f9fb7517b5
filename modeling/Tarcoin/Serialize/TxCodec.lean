import Tarcoin.Serialize.VarInt

/-! `SerializeTransaction` and `UnserializeTransaction` of `primitives/transaction.h`. -/
namespace Tarcoin
open StreamCodec GuardedSum

/-- What `UnserializeTransaction` throws: an error of the stream or one of its own. -/
inductive TxReadError where
  | stream (e : ReadError) | superfluousWitness | unknownOptionalData
  deriving DecidableEq, Repr

abbrev TxReader (α : Type) := Reader TxReadError UInt8 α

/-- A vector of bytes, such as a script: its size and the bytes. -/
def writeBytes (bytes : List UInt8) : List UInt8 := writeCompactSize bytes.length ++ bytes

def readBytes : ByteReader (List UInt8) :=
  (readCompactSize true).bind fun n => Reader.take .endOfData n

def OutPoint.serialize (o : OutPoint) : List UInt8 := leBytes 32 o.hash.toNat ++ leBytes 4 o.n

def OutPoint.unserialize : ByteReader OutPoint :=
  (readData 32).bind fun hash => (readData 4).map fun n => ⟨BitVec.ofNat 256 hash, n⟩

def TxIn.serialize (i : TxIn) : List UInt8 :=
  i.prevout.serialize ++ (writeBytes i.scriptSig ++ leBytes 4 i.nSequence)

/-- The witness of an input is not part of it on the wire. -/
def TxIn.unserialize : ByteReader TxIn :=
  OutPoint.unserialize.bind fun prevout => readBytes.bind fun scriptSig =>
    (readData 4).map fun nSequence => ⟨prevout, scriptSig, nSequence, []⟩

def TxOut.serialize (o : TxOut) : List UInt8 :=
  leBytes 8 (o.nValue % 2 ^ 64).toNat ++ writeBytes o.scriptPubKey

def TxOut.unserialize : ByteReader TxOut :=
  (readData 8).bind fun nValue => readBytes.map fun scriptPubKey => ⟨wrap 64 nValue, scriptPubKey⟩

def Transaction.hasWitness (vin : List TxIn) : Bool := vin.any fun i => !i.scriptWitness.isEmpty

def writeWitness (i : TxIn) : List UInt8 := writeVector writeBytes i.scriptWitness

def readWitnesses : List TxIn → ByteReader (List TxIn)
  | [] => .pure []
  | i :: vin => (readVector readBytes).bind fun stack =>
    (readWitnesses vin).map fun vin => { i with scriptWitness := stack } :: vin

namespace Transaction

def serialize (allowWitness : Bool) (tx : Transaction) : List UInt8 :=
  let extended := allowWitness && hasWitness tx.vin
  leBytes 4 tx.version ++ ((if extended then [0, 1] else []) ++
    (writeVector TxIn.serialize tx.vin ++ (writeVector TxOut.serialize tx.vout ++
      ((if extended then tx.vin.flatMap writeWitness else []) ++ leBytes 4 tx.nLockTime))))

/-- The flags, inputs and outputs. An empty list of inputs is the mark of the extended format, if
that is allowed. -/
def unserializeBody (allowWitness : Bool) : ByteReader (ℕ × List TxIn × List TxOut) :=
  (readVector TxIn.unserialize).bind fun vin =>
    if vin = [] ∧ allowWitness then
      (readData 1).bind fun flags =>
        if flags ≠ 0 then
          (readVector TxIn.unserialize).bind fun vin =>
            (readVector TxOut.unserialize).map fun vout => (flags, vin, vout)
        else .pure (flags, [], [])
    else (readVector TxOut.unserialize).map fun vout => (0, vin, vout)

/-- The witnesses that a flag announces, and the flags that are left. -/
def unserializeWitness (allowWitness : Bool) (flags : ℕ) (vin : List TxIn) :
    TxReader (ℕ × List TxIn) :=
  if flags &&& 1 ≠ 0 ∧ allowWitness then
    ((readWitnesses vin).mapError .stream).bind fun vin =>
      if hasWitness vin then .pure (flags ^^^ 1, vin) else .fail .superfluousWitness
  else .pure (flags, vin)

def unserialize (allowWitness : Bool) : TxReader Transaction :=
  ((readData 4).mapError .stream).bind fun version =>
    ((unserializeBody allowWitness).mapError .stream).bind fun body =>
      (unserializeWitness allowWitness body.1 body.2.1).bind fun rest =>
        if rest.1 ≠ 0 then .fail .unknownOptionalData
        else ((readData 4).mapError .stream).map fun nLockTime =>
          ⟨version, rest.2, body.2.2, nLockTime⟩

end Transaction

section Reading

theorem reads_bytes {bytes : List UInt8} (h : bytes.length ≤ maxSize) :
    Reads readBytes (writeBytes bytes) bytes := by
  have hsize : bytes.length < 2 ^ 64 := lt_of_le_of_lt h (by decide)
  exact (reads_compactSize hsize fun _ => h).bind (reads_take _ rfl)

/-- An input whose fields have the width of the source's types. -/
structure TxIn.Sized (i : TxIn) : Prop where
  index : i.prevout.n < 2 ^ 32
  script : i.scriptSig.length ≤ maxSize
  sequence : i.nSequence < 2 ^ 32

structure TxOut.Sized (o : TxOut) : Prop where
  value : Fits 64 o.nValue
  script : o.scriptPubKey.length ≤ maxSize

structure Transaction.Sized (tx : Transaction) : Prop where
  version : tx.version < 2 ^ 32
  inputs : tx.vin.length ≤ maxSize
  input : ∀ i ∈ tx.vin, i.Sized
  outputs : tx.vout.length ≤ maxSize
  output : ∀ o ∈ tx.vout, o.Sized
  lockTime : tx.nLockTime < 2 ^ 32

theorem reads_outPoint {o : OutPoint} (h : o.n < 2 ^ 32) :
    Reads OutPoint.unserialize o.serialize o := by
  have hread : Reads OutPoint.unserialize o.serialize ⟨BitVec.ofNat 256 o.hash.toNat, o.n⟩ :=
    (reads_data (w := 32) (show o.hash.toNat < 256 ^ 32 from o.hash.isLt)).bind
      ((reads_data (w := 4) (show o.n < 256 ^ 4 from h)).map _)
  rwa [BitVec.ofNat_toNat] at hread

def TxIn.withoutWitness (i : TxIn) : TxIn := { i with scriptWitness := [] }

def Transaction.withoutWitness (tx : Transaction) : Transaction :=
  { tx with vin := tx.vin.map TxIn.withoutWitness }

theorem reads_txIn {i : TxIn} (h : i.Sized) : Reads TxIn.unserialize i.serialize i.withoutWitness :=
  (reads_outPoint h.index).bind ((reads_bytes h.script).bind
    ((reads_data (w := 4) (show i.nSequence < 256 ^ 4 from h.sequence)).map _))

theorem wrap_toNat_emod {x : ℤ} (h : Fits 64 x) : wrap 64 ((x % 2 ^ 64).toNat : ℤ) = x := by
  obtain ⟨hlow, hhigh⟩ := h
  have hmod : 0 ≤ x % 2 ^ 64 := Int.emod_nonneg x (by norm_num)
  rw [wrap]
  omega

theorem reads_wireTxOut {o : TxOut} (h : o.Sized) : Reads TxOut.unserialize o.serialize o := by
  have hmod : (o.nValue % 2 ^ 64).toNat < 256 ^ 8 := by
    omega
  have hread : Reads TxOut.unserialize o.serialize
      ⟨wrap 64 ((o.nValue % 2 ^ 64).toNat : ℤ), o.scriptPubKey⟩ :=
    (reads_data hmod).bind ((reads_bytes h.script).map _)
  rwa [wrap_toNat_emod h.value] at hread

theorem reads_parts {allowWitness : Bool} {tx : Transaction} {flags : ℕ} {vin : List TxIn}
    {body witnesses : List UInt8}
    (hbody : Reads (Transaction.unserializeBody allowWitness) body (flags, vin, tx.vout))
    (hwitnesses : Reads (Transaction.unserializeWitness allowWitness flags vin) witnesses
      (0, tx.vin))
    (hversion : tx.version < 2 ^ 32) (hlockTime : tx.nLockTime < 2 ^ 32) :
    Reads (Transaction.unserialize allowWitness)
      (leBytes 4 tx.version ++ (body ++ (witnesses ++ leBytes 4 tx.nLockTime))) tx := by
  have hlock := ((reads_data (w := 4) (show tx.nLockTime < 256 ^ 4 from hlockTime)).mapError
    TxReadError.stream).map fun nLockTime => ({ tx with nLockTime } : Transaction)
  exact ((reads_data (w := 4) (show tx.version < 256 ^ 4 from hversion)).mapError _).bind
    ((hbody.mapError _).bind (hwitnesses.bind hlock))

theorem reads_inputs {tx : Transaction} (h : tx.Sized) :
    Reads (readVector TxIn.unserialize) (writeVector TxIn.serialize tx.vin)
      (tx.vin.map TxIn.withoutWitness) :=
  reads_vector h.inputs fun i hi => reads_txIn (h.input i hi)

theorem reads_outputs {tx : Transaction} (h : tx.Sized) :
    Reads (readVector TxOut.unserialize) (writeVector TxOut.serialize tx.vout) tx.vout := by
  have hread := reads_vector (f := id) h.outputs fun o ho => reads_wireTxOut (h.output o ho)
  rwa [List.map_id] at hread

theorem reads_plainBody {allowWitness : Bool} {tx : Transaction} (h : tx.Sized)
    (hplain : allowWitness = true → tx.vin ≠ []) :
    Reads (Transaction.unserializeBody allowWitness)
      (writeVector TxIn.serialize tx.vin ++ writeVector TxOut.serialize tx.vout)
      (0, tx.vin.map TxIn.withoutWitness, tx.vout) := by
  apply (reads_inputs h).bind
  rw [if_neg fun hmark => hplain hmark.2 (List.map_eq_nil_iff.mp hmark.1)]
  exact (reads_outputs h).map _

theorem reads_transaction {tx : Transaction} (h : tx.Sized) :
    Reads (Transaction.unserialize false) (tx.serialize false)
      { tx with vin := tx.vin.map TxIn.withoutWitness } := by
  have hbody := @reads_plainBody false tx h nofun
  have hnone : Reads (Transaction.unserializeWitness false 0 (tx.vin.map TxIn.withoutWitness)) []
      (0, tx.vin.map TxIn.withoutWitness) := by
    exact reads_pure _
  have hread := @reads_parts false tx.withoutWitness _ _ _ _ hbody hnone h.version h.lockTime
  rw [List.append_assoc (writeVector _ _)] at hread
  exact hread

end Reading

end Tarcoin
