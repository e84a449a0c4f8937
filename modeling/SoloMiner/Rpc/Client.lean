import Mathlib.Data.List.DropRight
import SoloMiner.Lib.Prog
import SoloMiner.Mining.Coinbase
import SoloMiner.Rpc.Base64
import SoloMiner.Stratum.Json

/-!
# Calling the node

A call to the node is one request over HTTP, and a second one if the first is refused: the
node writes a new cookie whenever it starts, so on a 401 the cookie is read again. What
comes back is looked at as JSON whatever the status, since the node reports its own errors
with the status 500 and says in the body what went wrong.

The connection, the cookie file and the credentials, which other threads may replace in
the meantime, are asked for by operations (`SoloMiner.Rpc.NodeOp`). So what holds for
every run of `SoloMiner.Rpc.RpcClient.callAt` holds whatever the node answers. The courses
that its posts can take are `SoloMiner.Rpc.Exchanged`.
-/

namespace SoloMiner

namespace Rpc

open Json
open Prog (Runs Trace attempt)

variable {IoError JsonError T : Type}

/-! ### The cookie -/

/-- Why authentication could not be set up. -/
inductive AuthError (IoError : Type) where
  /-- The cookie file could not be read. -/
  | unreadable (path : Str) (source : IoError)
  /-- The file did not contain a `user:password` pair. -/
  | malformed (path : Str)

/-- A `user:password` pair. -/
structure Credentials where
  pair : Str

/-- `str::trim`. -/
def trim (s : Str) : Str := (s.dropWhile isWhitespace).rdropWhile isWhitespace

/-- `str::as_bytes`. -/
def asBytes (s : Str) : Bytes := s.flatMap String.utf8EncodeChar

namespace Credentials

/-- What the contents of the cookie file are as credentials. -/
def fromCookieFile (path : Str) (contents : Except IoError Str) :
    Except (AuthError IoError) Credentials :=
  match contents with
  | .error source => .error (.unreadable path source)
  | .ok contents =>
    if ':' ∈ trim contents then .ok ⟨trim contents⟩ else .error (.malformed path)

/-- The value for an `Authorization:` header. -/
def authorizationHeader (self : Credentials) : Str :=
  "Basic ".toList ++ Base64.base64Encode (asBytes self.pair)

end Credentials

/-! ### Operations -/

/-- Why an HTTP request failed. -/
inductive HttpError (IoError : Type) where
  /-- The TCP connection could not be established. -/
  | connect (source : IoError)
  /-- An I/O error occurred mid-exchange. -/
  | io (source : IoError)
  /-- The first line of the response was not a recognisable status line. -/
  | badStatusLine (line : Str)
  /-- The connection closed before the headers ended. -/
  | truncatedHeaders

/-- An HTTP response. -/
structure Response where
  status : UInt16
  body : Str

/-- Why an RPC call failed. -/
inductive RpcError (IoError JsonError : Type) where
  /-- The cookie could not be read. -/
  | auth (source : AuthError IoError)
  /-- The HTTP exchange failed. -/
  | http (source : HttpError IoError)
  /-- The node rejected the credentials twice, with a reload in between. -/
  | unauthorized
  /-- The node returned a JSON-RPC error. -/
  | rpc (method : Str) (code : Int64) (message : Str)
  /-- The response body was not valid JSON. -/
  | malformedResponse (method : Str) (status : UInt16) (body : Str) (source : JsonError)
  /-- The response had no `result` field. -/
  | missingResult (method : Str)
  /-- The `result` did not match the type that was expected. -/
  | unexpectedShape (method : Str) (source : JsonError)

/-- What a call does outside itself. -/
inductive NodeOp where
  /-- Takes the next request id, `fetch_add`. -/
  | nextId
  /-- Reads the credentials that are held. Nothing panics under their lock, so it is never
  poisoned. -/
  | credentials
  /-- Puts fresh credentials in their place. -/
  | setCredentials (fresh : Credentials)
  /-- Reads the cookie file. -/
  | readCookie (path : Str)
  /-- Posts a body to a path of the node. -/
  | postJson (path authorization body : Str)

/-- What an operation returns. -/
@[reducible] def NodeOp.Answer (IoError : Type) : NodeOp → Type
  | nextId => UInt64
  | credentials => Credentials
  | setCredentials _ => Unit
  | readCookie _ => Except IoError Str
  | postJson _ _ _ => Except (HttpError IoError) Response

/-- A program over these operations. -/
abbrev NodeProg (IoError : Type) : Type → Type := Prog NodeOp (NodeOp.Answer IoError)

/-- The code that performs one operation. -/
abbrev perform (op : NodeOp) : NodeProg IoError (op.Answer IoError) := Prog.perform op

/-! ### The client -/

/-- Trims a body for inclusion in an error message. -/
def truncate {ε : Type} (body : Str) : Checked ε Str :=
  if Hex.utf8Len body ≤ 200 then .ok body
  else
    match Hex.sliceBytes body 0 200 with
    | none => .panic
    | some start =>
      .ok (start ++ "… (".toList ++ decimal (Hex.utf8Len body) ++ " bytes total)".toList)

/-- A client: the credentials and the request ids are behind operations. -/
structure RpcClient where
  /-- Where to re-read the cookie from. -/
  cookiePath : Str

namespace RpcClient

/-- Sends one request with the credentials currently held. -/
def post (path request : Str) :
    NodeProg IoError (Except (RpcError IoError JsonError) Response) := do
  let credentials ← perform .credentials
  match ← perform (.postJson path credentials.authorizationHeader request) with
  | .error source => pure (.error (.http source))
  | .ok response => pure (.ok response)

/-- Re-reads the cookie file. -/
def reloadCredentials (self : RpcClient) :
    NodeProg IoError (Except (RpcError IoError JsonError) Unit) := do
  let contents ← perform (.readCookie self.cookiePath)
  match Credentials.fromCookieFile self.cookiePath contents with
  | .error source => pure (.error (.auth source))
  | .ok fresh => do
    perform (.setCredentials fresh)
    pure (.ok ())

/-- The posts of a call: a 401 triggers one reload and one retry. -/
def exchange (self : RpcClient) (path request : Str) :
    NodeProg IoError (Except (RpcError IoError JsonError) Response) := do
  match ← post path request with
  | .error error => pure (.error error)
  | .ok response =>
    if response.status = 401 then
      match ← self.reloadCredentials with
      | .error error => pure (.error error)
      | .ok _ => post path request
    else pure (.ok response)

/-- The request as a tree. An object keeps its fields sorted. -/
def requestValue (id : UInt64) (method : Str) (params : Value) : Value :=
  .object [("id".toList, .string (decimal id.toNat)), ("jsonrpc".toList, .string "1.0".toList),
    ("method".toList, .string method), ("params".toList, params)]

/-- The error that a non-null `error` of a response stands for. -/
def rpcError (method : Str) (error : Value) : RpcError IoError JsonError :=
  .rpc method (((error.getField "code".toList).bind Value.asI64).getD 0)
    (((error.getField "message".toList).bind Value.asStr).getD "(no message)".toList)

section Json

/-! The library parses text into a tree and a tree into the type that is expected, and
writes a tree as text. -/

variable (fromStr : Str → Except JsonError Value) (fromValue : Value → Except JsonError T)
  (toString : Value → Str)

/-- What a parsed body stands for. -/
def answer (method : Str) (parsed : Value) : Checked (RpcError IoError JsonError) T :=
  match (parsed.getField "error".toList).filter fun error => !error.isNull with
  | some error => .err (rpcError method error)
  | none =>
    match parsed.getField "result".toList with
    | none => .err (.missingResult method)
    | some result =>
      match fromValue result with
      | .error source => .err (.unexpectedShape method source)
      | .ok value => .ok value

/-- What a response stands for. -/
def conclude (method : Str) (response : Response) : Checked (RpcError IoError JsonError) T :=
  -- A second 401 means the credentials on disk do not work.
  if response.status = 401 then .err .unauthorized
  else
    match fromStr response.body with
    | .error source => do
      let body ← truncate response.body
      .err (.malformedResponse method response.status body source)
    | .ok parsed => answer fromValue method parsed

/-- The shared body of `call` and `call_wallet`. -/
def callAt (self : RpcClient) (path method : Str) (params : Value) :
    NodeProg IoError (Except (RpcError IoError JsonError) T) := do
  let id ← perform .nextId
  match ← self.exchange path (toString (requestValue id method params)) with
  | .error error => pure (.error error)
  | .ok response =>
    attempt (conclude fromStr fromValue method response) fun value => pure (.ok value)

end Json

end RpcClient

/-! ### What a call asks for -/

variable {trace trace' : Trace (NodeOp.Answer IoError)}

/-- The outcomes of the posts of a run, in order. -/
def posts (trace : Trace (NodeOp.Answer IoError)) : List (Except (HttpError IoError) Response) :=
  trace.filterMap fun
    | ⟨.postJson _ _ _, outcome⟩ => some outcome
    | _ => none

/-- How often the cookie was re-read in a run. -/
def reloads (trace : Trace (NodeOp.Answer IoError)) : ℕ :=
  trace.countP fun
    | ⟨.readCookie _, _⟩ => true
    | _ => false

@[simp] theorem posts_append : posts (trace ++ trace') = posts trace ++ posts trace' :=
  List.filterMap_append

@[simp] theorem reloads_append : reloads (trace ++ trace') = reloads trace + reloads trace' :=
  List.countP_append

/-- **The courses that the posts can take**: how they came out, how often the cookie was
re-read, and the response that counts. -/
inductive Exchanged : List (Except (HttpError IoError) Response) → ℕ →
    Except (RpcError IoError JsonError) Response → Prop
  /-- The first post fails, -/
  | failed (source : HttpError IoError) : Exchanged [.error source] 0 (.error (.http source))
  /-- or it is not refused. -/
  | taken {response : Response} (h : response.status ≠ 401) :
    Exchanged [.ok response] 0 (.ok response)
  /-- It is refused, and there is no cookie to be read, -/
  | noCookie {response : Response} (h : response.status = 401) (source : AuthError IoError) :
    Exchanged [.ok response] 1 (.error (.auth source))
  /-- or there is one, and the second post fails -/
  | failedAgain {response : Response} (h : response.status = 401) (source : HttpError IoError) :
    Exchanged [.ok response, .error source] 1 (.error (.http source))
  /-- or has a response. -/
  | again {response : Response} (h : response.status = 401) (response' : Response) :
    Exchanged [.ok response, .ok response'] 1 (.ok response')

namespace RpcClient

variable {self : RpcClient} {path request : Str}

theorem post_safe : (post path request :
    NodeProg IoError (Except (RpcError IoError JsonError) Response)).Safe := by
  refine Prog.Safe.bind (fun _ => trivial) fun credentials => ?_
  refine Prog.Safe.bind (fun _ => trivial) fun outcome => ?_
  cases outcome with
  | error source => exact trivial
  | ok response => exact trivial

theorem reloadCredentials_safe : (self.reloadCredentials :
    NodeProg IoError (Except (RpcError IoError JsonError) Unit)).Safe := by
  refine Prog.Safe.bind (fun _ => trivial) fun contents => ?_
  cases Credentials.fromCookieFile self.cookiePath contents with
  | error source => exact trivial
  | ok fresh => exact fun _ => trivial

/-- A post asks for the credentials and posts once. -/
theorem runs_post {result : Option (Except (RpcError IoError JsonError) Response)}
    (h : Runs (post path request) trace result) : reloads trace = 0 ∧
      ((∃ source, posts trace = [.error source] ∧ result = some (.error (.http source))) ∨
        ∃ response, posts trace = [.ok response] ∧ result = some (.ok response)) := by
  obtain ⟨credentials, _, rfl, hpost⟩ := Prog.runs_perform_bind_iff.mp h
  obtain ⟨outcome, _, rfl, hend⟩ := Prog.runs_perform_bind_iff.mp hpost
  cases outcome with
  | error source =>
    obtain ⟨rfl, rfl⟩ := Prog.runs_pure_iff.mp hend
    exact ⟨rfl, Or.inl ⟨source, rfl, rfl⟩⟩
  | ok response =>
    obtain ⟨rfl, rfl⟩ := Prog.runs_pure_iff.mp hend
    exact ⟨rfl, Or.inr ⟨response, rfl, rfl⟩⟩

/-- A reload reads the cookie once and posts nothing. -/
theorem runs_reloadCredentials {result : Option (Except (RpcError IoError JsonError) Unit)}
    (h : Runs self.reloadCredentials trace result) : posts trace = [] ∧ reloads trace = 1 ∧
      ((∃ source, result = some (.error (.auth source))) ∨ result = some (.ok ())) := by
  obtain ⟨contents, _, rfl, hread⟩ := Prog.runs_perform_bind_iff.mp h
  cases hcookie : Credentials.fromCookieFile self.cookiePath contents with
  | error source =>
    rw [hcookie] at hread
    obtain ⟨rfl, rfl⟩ := Prog.runs_pure_iff.mp hread
    exact ⟨rfl, rfl, Or.inl ⟨source, rfl⟩⟩
  | ok fresh =>
    rw [hcookie] at hread
    obtain ⟨-, _, rfl, hend⟩ := Prog.runs_perform_bind_iff.mp hread
    obtain ⟨rfl, rfl⟩ := Prog.runs_pure_iff.mp hend
    exact ⟨rfl, rfl, Or.inr rfl⟩

/-- **The posts take one of these courses**, whatever is answered. -/
theorem runs_exchange {result : Option (Except (RpcError IoError JsonError) Response)}
    (h : Runs (self.exchange path request) trace result) :
    ∃ r, result = some r ∧ Exchanged (posts trace) (reloads trace) r := by
  obtain ⟨first, rest, r, rfl, hpost, hrest⟩ := post_safe.runs_bind h
  obtain ⟨hreloads, ⟨source, hposts, hr⟩ | ⟨response, hposts, hr⟩⟩ := runs_post hpost
  · obtain rfl := Option.some.inj hr
    obtain ⟨rfl, rfl⟩ := Prog.runs_pure_iff.mp hrest
    refine ⟨_, rfl, ?_⟩
    rw [List.append_nil, hposts, hreloads]
    exact .failed source
  obtain rfl := Option.some.inj hr
  dsimp only at hrest
  split_ifs at hrest with hstatus
  · obtain ⟨second, last, r, rfl, hreload, hlast⟩ := reloadCredentials_safe.runs_bind hrest
    obtain ⟨hposts', hreloads', ⟨source, hr⟩ | hr⟩ := runs_reloadCredentials hreload
    · obtain rfl := Option.some.inj hr
      obtain ⟨rfl, rfl⟩ := Prog.runs_pure_iff.mp hlast
      refine ⟨_, rfl, ?_⟩
      simp only [List.append_nil, posts_append, reloads_append, hposts, hposts', hreloads,
        hreloads']
      exact .noCookie hstatus source
    · obtain rfl := Option.some.inj hr
      obtain ⟨hreloads'', houtcome⟩ := runs_post hlast
      simp only [posts_append, reloads_append, hposts, hposts', hreloads, hreloads', hreloads'']
      rcases houtcome with ⟨source, hposts'', hresult⟩ | ⟨response', hposts'', hresult⟩
      · refine ⟨_, hresult, ?_⟩
        rw [hposts'']
        exact .failedAgain hstatus source
      · refine ⟨_, hresult, ?_⟩
        rw [hposts'']
        exact .again hstatus response'
  · obtain ⟨rfl, rfl⟩ := Prog.runs_pure_iff.mp hrest
    refine ⟨_, rfl, ?_⟩
    rw [List.append_nil, hposts, hreloads]
    exact .taken hstatus

end RpcClient

end Rpc

end SoloMiner
