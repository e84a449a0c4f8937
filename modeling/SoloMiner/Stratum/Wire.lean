import SoloMiner.Stratum.Message

/-!
# Messages as they are written

A message is written as one JSON object, with all of its fields: an id that is missing and
an error that did not happen are null. Whoever reads the object back gets the message that
was written (`SoloMiner.Incoming.parse_of_lookup`), in whatever order the library gives
the fields: a request stays a request and a notification stays one, a reply is told from
both by the method that it lacks, and an error is an array of three whose code may be any
number of 64 bits, negative ones included.

Of a request only the parameters can suffer, if the library reads back another float than
it has written (`SoloMiner.Incoming.parse_of_lookup_head`).
-/

namespace SoloMiner

open Json

/-! ### Writing -/

/-- An `Option<u64>` field, as it is written. -/
def idValue : Option UInt64 → Value
  | none => .null
  | some n => .number (.posInt n)

/-- An `Option<String>` field, as it is written. -/
def optionStringValue : Option Str → Value
  | none => .null
  | some s => .string s

/-- An `i64`, as it is written. -/
def i64Value (n : Int64) : Value :=
  if 0 ≤ n then .number (.posInt n.toUInt64) else .number (.negInt n)

/-- An error is an array, not an object. -/
def StratumError.toValue (self : StratumError) : Value :=
  .array [i64Value self.code, .string self.message, optionStringValue self.traceback]

/-- An `Option<StratumError>` field, as it is written. -/
def errorValue : Option StratumError → Value
  | none => .null
  | some error => error.toValue

/-- The fields of a request. -/
def Request.fields (self : Request) : List (Str × Value) :=
  [("id".toList, idValue self.id), ("method".toList, .string self.method),
    ("params".toList, self.params)]

/-- The fields of a response. -/
def Response.fields (self : Response) : List (Str × Value) :=
  [("id".toList, idValue self.id), ("result".toList, self.result),
    ("error".toList, errorValue self.error)]

namespace Incoming

/-- The fields of a message. -/
def fields : Incoming → List (Str × Value)
  | request r => r.fields
  | response r => r.fields

/-- A message, as it is written. -/
def toValue (self : Incoming) : Value := .object self.fields

end Incoming

/-- Builds a request that expects a reply. -/
def Request.call (id : UInt64) (method : Str) (params : Value) : Request :=
  ⟨some id, method, params⟩

/-! ### Reading back -/

theorem optionU64_idValue (id : Option UInt64) : optionU64 (idValue id) = some id := by
  cases id <;> rfl

theorem optionString_optionStringValue (s : Option Str) :
    optionString (optionStringValue s) = some s := by
  cases s <;> rfl

/-- **An `i64` is read back**, on either side of zero. -/
theorem i64OfValue_i64Value (n : Int64) : i64OfValue (i64Value n) = some n := by
  rw [i64Value]
  split_ifs with hsign
  · have hnat : n.toUInt64.toNat = n.toNatClampNeg := Int64.toNat_toUInt64_of_le hsign
    have hlt : n.toNatClampNeg < 2 ^ 63 := by
      have hle : n.toInt ≤ 2 ^ 63 - 1 := n.toInt_le
      rw [Int64.toNatClampNeg]
      omega
    rw [i64OfValue, hnat, if_pos hlt, Int64.toInt64_toUInt64]
  · rfl

theorem StratumError.fromValue_toValue (error : StratumError) :
    StratumError.fromValue error.toValue = some error := by
  rw [toValue, fromValue, i64OfValue_i64Value, optionString_optionStringValue]
  rfl

theorem optionError_errorValue (error : Option StratumError) :
    optionError (errorValue error) = some error := by
  cases error with
  | none => rfl
  | some error =>
    rw [errorValue, StratumError.toValue, optionError, ← StratumError.toValue,
      StratumError.fromValue_toValue]
    · rfl
    · exact nofun

theorem fieldOr_some {α : Type} {default : α} {read : Value → Option α} (value : Value) :
    fieldOr default read (some value) = read value := rfl

variable {fromStr : Str → Option Value} {line : Str} {found : List (Str × Value)}

theorem getField_object (name : Str) : (Value.object found).getField name = found.lookup name := rfl

namespace Incoming

/-- **A request is read back up to its parameters** from any object with its id and its
method. -/
theorem parse_of_lookup_head {r : Request} (hread : fromStr line = some (.object found))
    (hid : found.lookup "id".toList = some (idValue r.id))
    (hmethod : found.lookup "method".toList = some (.string r.method)) :
    parse fromStr line = some (.request
      { r with params := (found.lookup "params".toList).getD .null }) := by
  have hparams : fieldOr .null some (found.lookup "params".toList) =
      some ((found.lookup "params".toList).getD .null) := by
    cases found.lookup "params".toList <;> rfl
  have hvalue : Request.fromValue (.object found) =
      some { r with params := (found.lookup "params".toList).getD .null } := by
    rw [Request.fromValue]
    simp only [getField_object]
    rw [hid, fieldOr_some, optionU64_idValue, hmethod, hparams]
    rfl
  rw [parse, hread]
  change (if ((Value.object found).getField "method".toList).isSome then
    (Request.fromValue (.object found)).map Incoming.request else _) = _
  rw [getField_object, hmethod, hvalue]
  rfl

/-- A response is read back from any object with its fields. -/
theorem parse_response_of_lookup {r : Response} (hread : fromStr line = some (.object found))
    (hfields : ∀ name, found.lookup name = r.fields.lookup name) :
    parse fromStr line = some (.response r) := by
  have hnone : found.lookup "method".toList = none := hfields _
  have hvalue : Response.fromValue (.object found) = some r := by
    rw [Response.fromValue]
    simp only [getField_object, hfields]
    change (do
      let id ← optionU64 (idValue r.id)
      let result ← some r.result
      let error ← optionError (errorValue r.error)
      pure (⟨id, result, error⟩ : Response)) = some r
    rw [optionU64_idValue, optionError_errorValue]
    rfl
  rw [parse, hread]
  change (if ((Value.object found).getField "method".toList).isSome then _ else
    (Response.fromValue (.object found)).map Incoming.response) = _
  rw [getField_object, hnone, hvalue]
  rfl

/-- **What is written is read back**, whatever the message, from any object that has its
fields. -/
theorem parse_of_lookup {message : Incoming} (hread : fromStr line = some (.object found))
    (hfields : ∀ name, found.lookup name = message.fields.lookup name) :
    parse fromStr line = some message := by
  cases message with
  | request r =>
    rw [parse_of_lookup_head (r := r) hread (hfields _) (hfields _), hfields]
    rfl
  | response r => exact parse_response_of_lookup hread hfields

end Incoming

end SoloMiner
