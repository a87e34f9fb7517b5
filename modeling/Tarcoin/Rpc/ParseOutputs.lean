import Tarcoin.Foundations.FallibleRun
import Tarcoin.Foundations.Hex
import Tarcoin.KeyIO.Destination
import Tarcoin.Rpc.Amount
import Tarcoin.Script.ScriptNum

/-! `ParseOutputs` of `rpc/rawtransaction_util.cpp`, which refuses a destination that came before.
-/
namespace Tarcoin

/-- The ways `ParseOutputs` throws; a fault is an exception of the decoder. -/
inductive OutputsError
  | duplicateData
  | notHexadecimal (text : Text)
  | amount (error : AmountError)
  | invalidAddress (name : Text)
  | duplicatedAddress (name : Text)
  | fault (fault : Fault)
  deriving DecidableEq, Repr

def OutputsError.message : OutputsError → String
  | .duplicateData => "Invalid parameter, duplicate key: data"
  | .notHexadecimal text => "Data must be hexadecimal string (not '" ++ String.ofList text ++ "')"
  | .amount error => error.message
  | .invalidAddress name => "Invalid Bitcoin address: " ++ String.ofList name
  | .duplicatedAddress name => "Invalid parameter, duplicated address: " ++ String.ofList name
  | .fault _ => "internal error"

def isHex (str : Text) : Bool :=
  str.all (fun c => (Hex.value c).isSome) && decide (0 < str.length) && decide (str.length % 2 = 0)

/-- The output of the key `data`. -/
def parseData (value : UniValue) : Except OutputsError (Destination × Amount) :=
  let data := Hex.decode value.val
  if isHex value.val then
    .ok (.noDestination (opReturn :: (appendDataSize data.length ++ data)), 0)
  else .error (.notHexadecimal value.val)

def parseRecipient (R : AddressRules) (params : AddressParams) (name : Text) (value : UniValue) :
    Except OutputsError (Destination × Amount) := do
  let destination ← (decodeDestination R params name).mapError .fault
  let amount ← (amountFromValue value 8).mapError .amount
  if !destination.isValid then .error (.invalidAddress name)
  else .ok (destination, amount)

/-- The loop over the keys, with the destinations that came before. -/
def parseOutputsFrom (R : AddressRules) (params : AddressParams) :
    List Destination → Bool → List (Text × UniValue) → Except OutputsError (List (Destination × Amount))
  | _, _, [] => .ok []
  | destinations, hasData, (name, value) :: outputs =>
    if name = "data".toList then
      if hasData then .error .duplicateData
      else do
        let output ← parseData value
        let rest ← parseOutputsFrom R params destinations true outputs
        .ok (output :: rest)
    else do
      let output ← parseRecipient R params name value
      if output.1 ∈ destinations then .error (.duplicatedAddress name)
      else
      let rest ← parseOutputsFrom R params (output.1 :: destinations) hasData outputs
      .ok (output :: rest)

def parseOutputs (R : AddressRules) (params : AddressParams) (outputs : List (Text × UniValue)) :
    Except OutputsError (List (Destination × Amount)) :=
  parseOutputsFrom R params [] false outputs

section Distinct
variable {R : AddressRules} {params : AddressParams} {destinations : List Destination} {name : Text}
variable {value : UniValue}

theorem parseData_ne_duplicated : parseData value ≠ .error (.duplicatedAddress name) := by
  unfold parseData
  split <;> simp

theorem parseRecipient_spec (R : AddressRules) (params : AddressParams) (name : Text)
    (value : UniValue) :
    match parseRecipient R params name value with
    | .ok output => destinationOf R params name = some output.1
    | .error e => ∀ name', e ≠ .duplicatedAddress name' := by
  unfold parseRecipient
  cases hd : decodeDestination R params name with
  | error e => simp [Except.mapError, bind, Except.bind]
  | ok destination =>
    cases ha : amountFromValue value 8 with
    | error e => simp [Except.mapError, bind, Except.bind]
    | ok amount =>
      cases hvalid : destination.isValid with
      | false => simp [Except.mapError, bind, Except.bind, hvalid]
      | true => simp [Except.mapError, bind, Except.bind, hvalid, destinationOf, hd]

def Repeats (R : AddressRules) (params : AddressParams) (destinations : List Destination)
    (outputs : List (Text × UniValue)) : Prop :=
  (∃ output ∈ outputs, ∃ destination ∈ destinations,
    destinationOf R params output.1 = some destination) ∨
    ¬outputs.Pairwise fun p q => ¬SameDestination R params p.1 q.1

variable {outputs : List (Text × UniValue)}

theorem Repeats.cons (h : Repeats R params destinations outputs) (output : Text × UniValue) :
    Repeats R params destinations (output :: outputs) := by
  rcases h with ⟨p, hp, hd⟩ | hpairs
  · exact .inl ⟨p, List.mem_cons_of_mem _ hp, hd⟩
  · exact .inr fun h => hpairs (List.pairwise_cons.mp h).2

theorem parseOutputsFrom_duplicated {hasData : Bool} {name' : Text}
    (h : parseOutputsFrom R params destinations hasData outputs = .error (.duplicatedAddress name')) :
    Repeats R params destinations outputs := by
  induction outputs generalizing destinations hasData with
  | nil => cases h
  | cons output outputs ih =>
    obtain ⟨name, value⟩ := output
    rw [parseOutputsFrom] at h
    split at h
    · split at h
      · cases h
      · rcases FallibleRun.bind_eq_error_iff.mp h with h | ⟨parsed, -, h⟩
        · exact absurd h parseData_ne_duplicated
        · rcases FallibleRun.bind_eq_error_iff.mp h with h | ⟨rest, -, h⟩
          · exact (ih h).cons _
          · cases h
    · have hspec := parseRecipient_spec R params name value
      rcases FallibleRun.bind_eq_error_iff.mp h with h | ⟨parsed, hparsed, h⟩
      · rw [h] at hspec
        exact absurd rfl (hspec name')
      · rw [hparsed] at hspec
        split at h
        · rename_i hmem
          exact .inl ⟨_, List.mem_cons_self, _, hmem, hspec⟩
        · rcases FallibleRun.bind_eq_error_iff.mp h with h | ⟨rest, -, h⟩
          · rcases ih h with ⟨p, hp, d, hd, hpd⟩ | hpairs
            · rcases List.mem_cons.mp hd with rfl | hd
              · right
                intro hpairs
                exact (List.pairwise_cons.mp hpairs).1 p hp ⟨by rw [hspec]; rfl, hspec.trans hpd.symm⟩
              · exact .inl ⟨p, List.mem_cons_of_mem _ hp, d, hd, hpd⟩
            · exact Repeats.cons (.inr hpairs) _
          · cases h

theorem parseOutputs_ne_duplicated
    (h : outputs.Pairwise fun p q => ¬SameDestination R params p.1 q.1) (name : Text) :
    parseOutputs R params outputs ≠ .error (.duplicatedAddress name) := by
  intro herror
  rcases parseOutputsFrom_duplicated herror with ⟨_, _, _, hmem, _⟩ | hpairs
  · cases hmem
  · exact hpairs h

end Distinct

end Tarcoin
