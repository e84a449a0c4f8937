import SoloMiner.Stratum.Share

/-!
# Message framing

Each line on the wire is one JSON object: a request if it has a `method`, a response
otherwise. A request without an id is a notification. Errors are arrays of three.

The text of a line is turned into a JSON tree by a library, which stays a parameter of
`SoloMiner.Incoming.parse`; what a tree means as a message is modelled here.
-/

namespace SoloMiner

open Json

/-- A request or a notification. -/
structure Request where
  /-- Correlates a response with its request; none means no reply is wanted. -/
  id : Option UInt64
  /-- The method name. -/
  method : Str
  /-- Positional parameters. -/
  params : Value
  deriving DecidableEq

/-- A Stratum error: code, message and traceback. -/
structure StratumError where
  /-- The numeric code. -/
  code : Int64
  /-- The human-readable message. -/
  message : Str
  /-- The traceback. -/
  traceback : Option Str
  deriving DecidableEq

/-- A reply to a request. -/
structure Response where
  /-- The id of the request being answered. -/
  id : Option UInt64
  /-- The result, or null when the call failed. -/
  result : Value
  /-- The error, when the call failed. -/
  error : Option StratumError
  deriving DecidableEq

/-- A message arriving on the wire. -/
inductive Incoming where
  /-- Anything with a `method`. -/
  | request (request : Request)
  /-- A reply to something we sent. -/
  | response (response : Response)
  deriving DecidableEq

/-- The method names. -/
def method.SUBSCRIBE : Str := "mining.subscribe".toList
@[inherit_doc method.SUBSCRIBE]
def method.AUTHORIZE : Str := "mining.authorize".toList
@[inherit_doc method.SUBSCRIBE]
def method.SUBMIT : Str := "mining.submit".toList
@[inherit_doc method.SUBSCRIBE]
def method.NOTIFY : Str := "mining.notify".toList
@[inherit_doc method.SUBSCRIBE]
def method.SET_DIFFICULTY : Str := "mining.set_difficulty".toList

namespace Request

/-- Builds a notification, which expects no reply. -/
def notification (method : Str) (params : Value) : Request := ⟨none, method, params⟩

/-- Whether this is a notification. -/
def isNotification (self : Request) : Bool := self.id.isNone

end Request

namespace Response

/-- Builds a successful reply. -/
def ok (id : Option UInt64) (result : Value) : Response := ⟨id, result, none⟩

/-- Builds a failure reply. -/
def failure (id : Option UInt64) (error : StratumError) : Response := ⟨id, .null, some error⟩

/-- The response carries exactly one of a result and an error. -/
def Exclusive (self : Response) : Prop :=
  (self.result ≠ .null ∧ self.error = none) ∨ (self.result = .null ∧ self.error ≠ none)

theorem exclusive_ok (id : Option UInt64) {result : Value} (h : result ≠ .null) :
    (ok id result).Exclusive := Or.inl ⟨h, rfl⟩

theorem exclusive_failure (id : Option UInt64) (error : StratumError) :
    (failure id error).Exclusive := Or.inr ⟨rfl, by simp [failure]⟩

end Response

namespace StratumError

/-- The share referenced a job the pool no longer has. -/
def jobNotFound : StratumError := ⟨21, "Job not found".toList, none⟩

/-- The client sent `mining.submit` before `mining.authorize`. -/
def unauthorized : StratumError := ⟨24, "Unauthorized worker".toList, none⟩

/-- Anything else. -/
def other (message : Str) : StratumError := ⟨20, message, none⟩

end StratumError

/-! ### From a tree to a message -/

/-- An `Option<u64>` field. -/
def optionU64 : Value → Option (Option UInt64)
  | .null => some none
  | .number (.posInt n) => some (some n)
  | _ => none

/-- An `i64` field. -/
def i64OfValue : Value → Option Int64
  | .number (.posInt n) => if n.toNat < 2 ^ 63 then some n.toInt64 else none
  | .number (.negInt n) => some n
  | _ => none

/-- An `Option<String>` field. -/
def optionString : Value → Option (Option Str)
  | .null => some none
  | .string s => some (some s)
  | _ => none

/-- A field that may be missing: its reading, or the default. -/
def fieldOr {α : Type} (default : α) (read : Value → Option α) : Option Value → Option α
  | none => some default
  | some value => read value

/-- The request an object stands for. -/
def Request.fromValue (value : Value) : Option Request := do
  let id ← fieldOr none optionU64 (value.getField "id".toList)
  let method ← (value.getField "method".toList).bind Value.asStr
  let params ← fieldOr .null some (value.getField "params".toList)
  pure ⟨id, method, params⟩

/-- The error an array of three stands for. -/
def StratumError.fromValue : Value → Option StratumError
  | .array [code, message, traceback] => do
    pure ⟨← i64OfValue code, ← message.asStr, ← optionString traceback⟩
  | _ => none

/-- An `Option<StratumError>` field. -/
def optionError : Value → Option (Option StratumError)
  | .null => some none
  | value => (StratumError.fromValue value).map some

/-- The response a tree without a `method` stands for: an object, or an array of its
fields in order. -/
def Response.fromValue (value : Value) : Option Response :=
  match value with
  | .object _ => do
    let id ← fieldOr none optionU64 (value.getField "id".toList)
    let result ← fieldOr .null some (value.getField "result".toList)
    let error ← fieldOr none optionError (value.getField "error".toList)
    pure ⟨id, result, error⟩
  | .array (id :: items) =>
    if 2 < items.length then none
    else do
      let id ← optionU64 id
      let result ← fieldOr .null some items[0]?
      let error ← fieldOr none optionError items[1]?
      pure ⟨id, result, error⟩
  | _ => none

/-- Parses one line from the wire. A failure of either step is one error, whose text is
only printed. -/
def Incoming.parse (fromStr : Str → Option Value) (line : Str) : Option Incoming := do
  let value ← fromStr line
  if (value.getField "method".toList).isSome then (Request.fromValue value).map .request
  else (Response.fromValue value).map .response

end SoloMiner
